/- Module: Conet/Core/NetworkLevel
   source: core/src/network.cpp
   digest: When a poll of a ready descriptor does not have to wait for further activity. -/

import Conet.Core.NetworkComplete

set_option autoImplicit false
set_option relaxedAutoImplicit false

namespace Conet.Core.NetworkLevel

open Conet.Lib Conet.Lib.Epoll Conet.Base.ListHead Conet.Base.ListRings Conet.Core.Network
open Conet.Core.NetworkPoll Conet.Core.NetworkBatch Conet.Core.NetworkRun Conet.Core.NetworkComplete

universe u

variable {P : Type u}

def requested (f : PollFd) : Events := f.events.signExtend 32

/-- Level semantics: when an event that a pending call asks for is true of the descriptor, either the
call is on the dispatch list or the kernel has an event queued for the descriptor. -/
def Level (n : Net P) : Prop :=
  ∀ p c f, n.ctx p = some c → ¬ Linked n.links () p → f ∈ c.fds →
    n.kernel.ready f.fd.toNat &&& requested f ≠ 0 → n.kernel.queued f.fd.toNat = true

/-- The condition on an entry: it asks for `POLLIN`, `POLLOUT`, `POLLERR` and `POLLHUP` only; and if
for anything, then either the poll makes an `epoll_ctl` that succeeds, or the descriptor is not ready
for it, or it has an event queued. -/
def Armed (n : Net P) (f : PollFd) : Prop :=
  Within (requested f) pollMask ∧ (requested f ≠ 0 →
    if (itemOr n f.fd.toNat).waitEvents = 0 then n.kernel.reg f.fd.toNat = none
    else ¬ Within (requested f) (itemOr n f.fd.toNat).waitEvents ∨
      n.kernel.ready f.fd.toNat &&& requested f = 0 ∨ n.kernel.queued f.fd.toNat = true)

def Meets (n : Net P) : Event P → Prop
  | .polled _ fds _ => ∀ f ∈ fds, Armed n f
  | ev => Spared n ev

def MeetsRun [DecidableEq P] : List (Event P) → Net P → Prop :=
  Trace Net.init fun n ev n' => Step n ev n' ∧ Meets n ev

/-- A descriptor whose `wait_events` is not 0 is registered for them. -/
def Backed (n : Net P) (fd : Fd) : Prop := (itemOr n fd).waitEvents ≠ 0 → Registered n fd

/-- An entry that is not ready, or has an event queued. -/
def Heard (n : Net P) (f : PollFd) : Prop :=
  n.kernel.ready f.fd.toNat &&& requested f ≠ 0 → n.kernel.queued f.fd.toNat = true

section Registrations

variable {n n' : Net P} {fd : Fd} {f : PollFd} {x m we : Events}

theorem armed_of_new (within : Within (requested f) pollMask)
    (idle : (itemOr n f.fd.toNat).waitEvents = 0) (none : n.kernel.reg f.fd.toNat = none) :
    Armed n f := by
  refine ⟨within, fun _ => ?_⟩
  rw [if_pos idle]
  exact none

theorem pollEvent2epoll_eq (within : Within (requested f) pollMask) :
    pollEvent2epoll f.events = requested f := within.and_eq

/-- What is within the mask of a registration is reported. -/
theorem covers (inside : Within m we) (within : Within we pollMask) (some : x &&& m ≠ 0) :
    (x &&& wanted (we ||| epollEt)) &&& m ≠ 0 := by
  have same : wanted (we ||| epollEt) &&& m = m := by
    apply BitVec.eq_of_getLsbD_eq
    intro i hi
    cases hm : m.getLsbD i with
    | false => simp [hm]
    | true =>
      have on := inside i hm
      have mask := within i on
      have off : epollEt.getLsbD i = false := by
        have all : ∀ j : Fin 32, pollMask.getLsbD j = true → epollEt.getLsbD j = false := by decide
        exact all ⟨i, hi⟩ mask
      simp only [wanted, BitVec.getLsbD_and, BitVec.getLsbD_or, BitVec.getLsbD_not, on, off, hm, hi,
        decide_true, Bool.or_false, Bool.not_false, Bool.and_self, Bool.true_or]
  rwa [BitVec.and_assoc, same]

theorem covers_any (inside : Within m we) (within : Within we pollMask) (some : x &&& m ≠ 0) :
    x &&& wanted (we ||| epollEt) ≠ 0 := by
  intro none
  refine covers inside within some ?_
  rw [none]
  exact BitVec.zero_and

/-- Setting a registration queues an event for a descriptor that is ready. -/
theorem arm_queued {k : Kernel Fd Ptr} {ptr : Ptr} (inside : Within m we)
    (within : Within we pollMask) (some : k.ready fd &&& m ≠ 0) :
    (k.arm fd (we ||| epollEt) ptr).queued fd = true := by
  simp only [Kernel.arm, Function.update_self, Bool.or_eq_true, decide_eq_true_eq]
  exact .inr (covers_any inside within some)

theorem Backed.congr (backed : Backed n fd)
    (item : (itemOr n' fd).waitEvents = (itemOr n fd).waitEvents)
    (reg : n'.kernel.reg fd = n.kernel.reg fd) : Backed n' fd := fun busy =>
  (backed (item ▸ busy)).congr item reg

end Registrations

section Polls

variable [DecidableEq P] {n n' : Net P} {p : P} {i : ℕ} {f : PollFd} {c : PollCtx}
  {fds : List PollFd}

/-- A turn of `poll_ctx_t::init` on its descriptor. -/
theorem inits_level (inits : Inits n n' p i f c) (backed : Backed n f.fd.toNat) (armed : Armed n f) :
    Backed n' f.fd.toNat ∧ Heard n' f := by
  obtain ⟨within, armed⟩ := armed
  have item : (itemOr n' f.fd.toNat).waitEvents =
      requested f ||| (itemOr n f.fd.toNat).waitEvents := by
    simp [itemOr, inits.item, pollEvent2epoll_eq within]
  have kernel := inits.kernel
  rw [pollEvent2epoll_eq within, interestKernel] at kernel
  unfold Backed Registered Heard
  rw [item, kernel]
  by_cases idle : (itemOr n f.fd.toNat).waitEvents = 0
  · rw [if_neg (not_not.mpr idle), idle]
    by_cases none : requested f = 0
    · simp [none]
    · have fresh := armed none
      rw [if_pos idle] at fresh
      rw [Kernel.add, if_neg (by simp [fresh])]
      refine ⟨fun _ => ⟨by simpa using within, ⟨f.fd.toNat, n'.gen f.fd.toNat⟩, rfl,
        by simp [Kernel.arm]⟩,
        fun some => ?_⟩
      exact arm_queued (fun _ => id) within some
  · obtain ⟨old, ptr, here, reg⟩ := backed idle
    rw [if_pos idle]
    have all : Within (requested f ||| (itemOr n f.fd.toNat).waitEvents) pollMask := within.or old
    by_cases same : requested f ||| (itemOr n f.fd.toNat).waitEvents =
        (itemOr n f.fd.toNat).waitEvents
    · rw [if_neg (not_not.mpr same), same]
      refine ⟨fun _ => ⟨old, ptr, here, reg⟩, fun some => ?_⟩
      have none : requested f ≠ 0 := by
        intro zero
        simp [zero] at some
      have quiet := armed none
      rw [if_neg idle] at quiet
      have inside : Within (requested f) (itemOr n f.fd.toNat).waitEvents := by
        intro b hb
        rw [← same]
        simp [hb]
      exact (quiet.resolve_left (not_not.mpr inside)).resolve_left some
    · rw [if_pos same, Kernel.mod, if_pos (by simp [reg])]
      refine ⟨fun _ => ⟨all, ⟨f.fd.toNat, n'.gen f.fd.toNat⟩, rfl, by simp [Kernel.arm]⟩,
        fun some => ?_⟩
      refine arm_queued (fun b hb => ?_) all some
      simp [hb]

theorem interestKernel_queued_ne {k : Kernel Fd Ptr} {ptr : Ptr} {we m : Events} {g : Fd}
    (hg : g ≠ ptr.fd) : (interestKernel k ptr we m).1.queued g = k.queued g := by
  unfold interestKernel
  split_ifs
  · exact mod_queued_ne hg
  · rfl
  · exact add_queued_ne hg

theorem interestKernel_ready {k : Kernel Fd Ptr} {ptr : Ptr} {we m : Events} :
    (interestKernel k ptr we m).1.ready = k.ready := by
  unfold interestKernel
  split_ifs <;> simp

/-- The loop of `poll_ctx_t::init`: its entries are heard, and the other descriptors are left alone. -/
theorem initAll_level (all : InitAll p i fds n n') (backed : ∀ g, Backed n g)
    (armed : ∀ f ∈ fds, Armed n f) :
    (∀ g, Backed n' g) ∧ (∀ f ∈ fds, Heard n' f) ∧ n'.kernel.ready = n.kernel.ready ∧
      ∀ g, g ∉ nums fds → n'.kernel.queued g = n.kernel.queued g := by
  induction all with
  | nil => exact ⟨backed, by simp, rfl, fun _ _ => rfl⟩
  | @cons i f fs n n₁ n' c ctx inits rest ih =>
    obtain ⟨own, heard⟩ := inits_level inits (backed _) (armed f (by simp))
    have ready : n₁.kernel.ready = n.kernel.ready := by
      rw [inits.kernel]
      exact interestKernel_ready
    have item : ∀ g, g ≠ f.fd.toNat → itemOr n₁ g = itemOr n g := by
      intro g hg
      simp [itemOr, inits.item, hg]
    have reg : ∀ g, g ≠ f.fd.toNat → n₁.kernel.reg g = n.kernel.reg g := by
      intro g hg
      rw [inits.kernel]
      exact interestKernel_reg_ne hg
    have queued : ∀ g, g ≠ f.fd.toNat → n₁.kernel.queued g = n.kernel.queued g := by
      intro g hg
      rw [inits.kernel]
      exact interestKernel_queued_ne hg
    obtain ⟨-, nodup⟩ := initAll_nodup (.cons ctx inits rest)
    obtain ⟨apart, -⟩ := List.nodup_cons.mp nodup
    have hne : ∀ f' ∈ fs, f'.fd.toNat ≠ f.fd.toNat := by
      intro f' hf e
      exact apart (List.mem_map.mpr ⟨f', hf, e⟩)
    have backed₁ : ∀ g, Backed n₁ g := by
      intro g
      by_cases hg : g = f.fd.toNat
      · exact hg ▸ own
      · exact (backed g).congr (by rw [item g hg]) (reg g hg)
    obtain ⟨backed', heard', ready', queued'⟩ := ih backed₁ fun f' hf => by
      have old := armed f' (by simp [hf])
      have hg := hne f' hf
      unfold Armed at old ⊢
      rwa [item _ hg, reg _ hg, ready, queued _ hg]
    refine ⟨backed', ?_, ready'.trans ready, fun g hg => ?_⟩
    · intro f' hf
      rcases List.mem_cons.mp hf with rfl | hf
      · unfold Heard
        rw [ready', queued' _ apart]
        exact heard
      · exact heard' f' hf
    · obtain ⟨hg, hfs⟩ := not_or.mp (mt List.mem_cons.mpr hg)
      exact (queued' g hfs).trans (queued g hg)

end Polls

structure LevelInv (n : Net P) (D : List P) : Prop where
  refs : Inv n D fun _ _ => False
  backed : ∀ fd, Backed n fd
  asks : ∀ p c f, n.ctx p = some c → f ∈ c.fds → Within (requested f) pollMask
  heard : ∀ p c f, n.ctx p = some c → p ∉ D → f ∈ c.fds → Heard n f

section Steps

variable [DecidableEq P] {n n' : Net P} {D : List P} {p : P} {c : PollCtx} {f : PollFd} {fd : Fd}
  {ptr : Ptr} {events : Events} {evs : List (Ptr × Events)} {gs : List Fd} {ret timeout : ℤ}
  {fds : List PollFd}

omit [DecidableEq P] in
/-- The entries of the pending calls are registered for what they ask for. -/
theorem LevelInv.registered (inv : LevelInv n D) (ctx : n.ctx p = some c) (hf : f ∈ c.fds)
    (some : requested f ≠ 0) : ∃ we ptr, Within (requested f) we ∧ Within we pollMask ∧
      n.kernel.reg f.fd.toNat = .some (we ||| epollEt, ptr) := by
  obtain ⟨i, hi⟩ := List.mem_iff_getElem?.mp hf
  obtain ⟨-, waits⟩ := inv.refs.pend p c i f ctx hi id
  have asked := inv.refs.asked _ p i c f waits ctx hi
  rw [pollEvent2epoll_eq (inv.asks p c f ctx hf)] at asked
  have busy : (itemOr n f.fd.toNat).waitEvents ≠ 0 := by
    intro idle
    rw [idle] at asked
    apply some
    rw [eq_zero_iff]
    intro b
    by_contra hb
    simpa using asked b (by simpa using hb)
  obtain ⟨within, ptr, -, reg⟩ := inv.backed _ busy
  exact ⟨_, ptr, asked, within, reg⟩

/-- An event of a batch leaves the registrations right. -/
theorem notify_backed (backed : ∀ g, Backed n g)
    (ok : fdNotifyEventsToPoll n ptr events = .ok n') : ∀ g, Backed n' g := by
  obtain ⟨w, item, -, notified⟩ := fdNotify_ok ok
  have self : itemOr n ptr.fd = w := by simp [itemOr, item]
  have cleared : ∀ g, Backed (clearInvalidEvent n ptr w events) g := by
    rw [clearInvalidEvent_eq]
    intro g
    by_cases hg : g = ptr.fd
    · subst hg
      intro left
      have rest : w.waitEvents &&& ~~~events ≠ 0 := by simpa [itemOr, ctl, setItem] using left
      have busy : (itemOr n ptr.fd).waitEvents ≠ 0 := by
        intro idle
        simp [← self, idle] at rest
      obtain ⟨within, old, -, reg⟩ := backed ptr.fd busy
      rw [self] at within
      have item' : (itemOr (ctl (setItem n ptr.fd { w with waitEvents := w.waitEvents &&& ~~~events })
          (clearKernel n.kernel ptr (w.waitEvents &&& ~~~events))) ptr.fd).waitEvents =
          w.waitEvents &&& ~~~events := by
        simp [itemOr, ctl, setItem]
      rw [Registered, item']
      refine ⟨within.and_not, ptr, rfl, ?_⟩
      simp only [ctl]
      rw [clearKernel, if_pos rest, (mod_reg _ _ (by simp [reg])).1, Function.update_self]
    · exact (backed g).congr (by simp [itemOr, ctl, setItem, hg]) (clearKernel_reg_ne hg)
  cases notified with
  | stale => exact cleared
  | unwanted => exact cleared
  | raised => exact backed

theorem notifyAll_backed (backed : ∀ g, Backed n g) (ok : notifyAll evs n = .ok n') :
    ∀ g, Backed n' g := by
  induction evs generalizing n with
  | nil =>
    obtain rfl : n = n' := by simpa [notifyAll] using ok
    exact backed
  | cons ev evs ih =>
    rw [notifyAll] at ok
    split at ok
    · rename_i n₁ first
      exact ih (notify_backed backed first) ok
    · simp at ok

theorem batch_backed (backed : ∀ g, Backed n g) (ok : procNetevent n gs = .ok n') :
    ∀ g, Backed n' g := by
  unfold procNetevent at ok
  dsimp only at ok
  split_ifs at ok with none
  · obtain rfl := Except.ok.inj ok
    exact fun g => (backed g).congr rfl rfl
  · split at ok
    · rename_i n₁ all
      obtain rfl := Except.ok.inj ok
      have backed₁ : ∀ g, Backed n₁ g := notifyAll_backed (n := { n with
        kernel := n.kernel.fetch gs, links := initListHead n.links (.head ()) }) backed all
      exact fun g => (backed₁ g).congr rfl rfl
    · simp at ok

theorem LevelInv.poll (inv : LevelInv n D) (refs : Inv n' D fun _ _ => False)
    (fresh : n.ctx p = none) (polls : coPoll n p fds timeout = .ok n')
    (armed : ∀ f ∈ fds, Armed n f) : LevelInv n' D := by
  obtain ⟨-, -, -, c, ctx, entries, -⟩ := inv.refs.toRefs.coPoll fresh polls
  obtain ⟨n₁, c₁, all, -, rfl⟩ := coPoll_ok polls
  obtain ⟨free, -⟩ := initAll_nodup all
  obtain ⟨backed, heard, ready, queued⟩ := initAll_level all inv.backed (by
    intro f hf
    obtain ⟨f₀, hf₀, rfl⟩ := List.mem_map.mp hf
    exact armed f₀ hf₀)
  have gone : ∀ q c', (setCtx n₁ p { c₁ with coroutine := true }).ctx q = some c' →
      (q = p ∧ c'.fds = fds.map fun f => { f with revents := 0 }) ∨ (q ≠ p ∧ n.ctx q = some c') := by
    intro q c' hc
    rw [ctx] at hc
    by_cases hq : q = p
    · rw [hq, Function.update_self, Option.some.injEq] at hc
      exact .inl ⟨hq, hc ▸ entries⟩
    · rw [Function.update_of_ne hq] at hc
      exact .inr ⟨hq, hc⟩
  refine ⟨refs, backed, fun q c' f hc hf => ?_, fun q c' f hc off hf => ?_⟩
  · rcases gone q c' hc with ⟨-, e⟩ | ⟨-, hc⟩
    · rw [e] at hf
      obtain ⟨f₀, hf₀, rfl⟩ := List.mem_map.mp hf
      exact (armed f₀ hf₀).1
    · exact inv.asks q c' f hc hf
  · rcases gone q c' hc with ⟨-, e⟩ | ⟨-, hc⟩
    · exact heard f (e ▸ hf)
    · -- the descriptors of the other calls are not those of this one
      obtain ⟨i, hi⟩ := List.mem_iff_getElem?.mp hf
      obtain ⟨-, waits⟩ := inv.refs.pend q c' i f hc hi id
      have apart : f.fd.toNat ∉ nums (fds.map fun f => { f with revents := 0 }) :=
        fun mem => waits.ne_none (free _ mem)
      have old := inv.heard q c' f hc off hf
      unfold Heard at old ⊢
      change n₁.kernel.ready _ &&& _ ≠ 0 → n₁.kernel.queued _ = true
      rw [ready, queued _ apart]
      exact old

theorem LevelInv.batch (inv : LevelInv n D) (out : n.loop = .out) (nodup : gs.Nodup) :
    ∃ n' D', procNetevent n gs = .ok n' ∧ LevelInv n' D' := by
  obtain ⟨n', D', ok, refs, passed⟩ := inv.refs.batch out nodup
  have nil := inv.refs.out out
  refine ⟨n', D', ok, refs, batch_backed inv.backed ok, fun p c' f' hc hf => ?_,
    fun p c' f' hc off hf some => ?_⟩
  · obtain ⟨c, ctx, asks⟩ := passed.back p c' hc
    obtain ⟨i, hi⟩ := List.mem_iff_getElem?.mp hf
    obtain ⟨f, hf₀, same⟩ := asks.entry_back hi
    rw [requested, same.events]
    exact inv.asks p c f ctx (List.mem_of_getElem? hf₀)
  · obtain ⟨c, ctx, asks⟩ := passed.back p c' hc
    obtain ⟨i, hi⟩ := List.mem_iff_getElem?.mp hf
    obtain ⟨f, hf₀, same⟩ := asks.entry_back hi
    have mem := List.mem_of_getElem? hf₀
    have ask : requested f' = requested f := by rw [requested, same.events, requested]
    have ready : n.kernel.ready f.fd.toNat &&& requested f ≠ 0 := by
      rwa [ask, same.fd, passed.ready] at some
    have wants : requested f ≠ 0 := by
      intro zero
      simp [zero] at ready
    obtain ⟨we, ptr, inside, within, reg⟩ := inv.registered ctx mem wants
    have reported : n.kernel.reported f.fd.toNat &&& requested f ≠ 0 := by
      rw [Kernel.reported, reg]
      exact covers inside within ready
    -- a descriptor of the batch would have put the call on the dispatch list
    have outside : f.fd.toNat ∉ gs := by
      intro hg
      refine off (passed.raised (ptr, n.kernel.reported f.fd.toNat) ?_ p i c f ?_ ctx hf₀ ?_)
      · refine mem_report.mpr ⟨_, hg, _, reg, rfl, ?_⟩
        intro zero
        apply reported
        rw [show n.kernel.reported f.fd.toNat = 0 from zero]
        exact BitVec.zero_and
      · rw [(inv.refs.reg _ _ ptr reg).1]
        exact (inv.refs.pend p c i f ctx hf₀ id).2
      · rwa [pollEvent2epoll_eq (inv.asks p c f ctx mem), BitVec.and_comm]
    have queued := passed.queued f.fd.toNat fun ev hev num => by
      obtain ⟨g, hg, mask, reg', -⟩ := mem_report.mp hev
      have own := (inv.refs.reg g mask ev.1 reg').1
      exact outside (num ▸ own ▸ hg)
    rw [same.fd, queued]
    have old := inv.heard p c f ctx (by simp [nil]) mem ready
    simpa [Kernel.fetch, outside] using old

theorem LevelInv.leave {m : Net P} {c' : PollCtx} (inv : LevelInv n D)
    (refs : Inv n' (D.erase p) fun _ _ => False) (ok : coPollReturn m p c' = .ok (n', ret))
    (item : m.item = n.item) (kernel : m.kernel = n.kernel) (mctx : m.ctx = n.ctx) :
    LevelInv n' (D.erase p) := by
  obtain ⟨n₁, gs, detached, rfl, -⟩ := coPollReturn_ok ok
  have gone : ∀ q c₁, Function.update n₁.ctx p none q = some c₁ → q ≠ p ∧ n.ctx q = some c₁ := by
    intro q c₁ hc
    by_cases hq : q = p
    · simp [hq] at hc
    · rw [Function.update_of_ne hq, detached.rest.ctx, mctx] at hc
      exact ⟨hq, hc⟩
  have same : n₁.kernel = n.kernel := detached.rest.kernel.trans kernel
  refine ⟨refs, fun g => (inv.backed g).congr ?_ ?_, fun q c₁ f hc hf => ?_,
    fun q c₁ f hc off hf => ?_⟩
  · have after := detached.item g
    change (itemOr n₁ g).waitEvents = _
    have items : itemOr m g = itemOr n g := by simp [itemOr, item]
    rw [after, ← items]
    split_ifs <;> rfl
  · change n₁.kernel.reg g = _
    rw [same]
  · exact inv.asks q c₁ f (gone q c₁ hc).2 hf
  · obtain ⟨hq, hc⟩ := gone q c₁ hc
    have old := inv.heard q c₁ f hc (fun mem => off ((List.mem_erase_of_ne hq).mpr mem)) hf
    unfold Heard at old ⊢
    change n₁.kernel.ready _ &&& _ ≠ 0 → n₁.kernel.queued _ = true
    rw [same]
    exact old

omit [DecidableEq P] in
/-- A step that leaves the calls alone, and the dispatch list. -/
theorem LevelInv.quiet {D' : List P} (inv : LevelInv n D) (refs : Inv n' D' fun _ _ => False)
    (links : n'.links = n.links) (ctx : n'.ctx = n.ctx) (backed : ∀ g, Backed n' g)
    (heard : ∀ p c f, n.ctx p = some c → p ∉ D → f ∈ c.fds → Heard n' f) : LevelInv n' D' := by
  have same : D' = D := by
    have circ := refs.rings.circ ()
    rw [links] at circ
    exact inv.refs.rings.holds_iff.mp circ
  subst same
  refine ⟨refs, backed, ?_, ?_⟩
  · rw [ctx]
    exact inv.asks
  · rw [ctx]
    exact heard

theorem LevelInv.step {ev : Event P} (inv : LevelInv n D) (step : Step n ev n')
    (meets : Meets n ev) : ∃ D', LevelInv n' D' := by
  have spared : Spared n ev := by
    cases ev with
    | polled => trivial
    | closed fd shared => exact meets
    | _ => exact meets
  obtain ⟨D', refs⟩ := keeps_of_spared inv.refs step spared
  cases step with
  | poll _ p fds timeout away fresh polls =>
    have refs' := inv.refs.poll fresh polls
    exact ⟨D, inv.poll { refs' with toRefs := refs'.toRefs.weaken fun _ _ _ _ _ _ h => h.2 } fresh
      polls meets⟩
  | batch _ gs out nodup queued notifies =>
    obtain ⟨n₁, D₁, ok, inv'⟩ := inv.batch out nodup
    obtain rfl : n₁ = n' := Except.ok.inj (ok.symm.trans notifies)
    exact ⟨D₁, inv'⟩
  | dispatch _ p c next ret loop ctx coroutine returns =>
    have owns : Owns n p := due_of_spared inv.refs spared
    exact ⟨_, inv.leave (inv.refs.dispatch loop ctx owns returns) returns rfl rfl rfl⟩
  | timeout _ p c ret away armed ctx coroutine returns =>
    have owns : Owns n p := due_of_spared inv.refs spared
    have same : D.erase p = D := List.erase_of_not_mem ((inv.refs.armed p).mp armed).1
    have refs' := inv.refs.expire armed ctx owns returns
    exact ⟨_, inv.leave (same.symm ▸ refs') returns rfl rfl rfl⟩
  | skip p c next loop ctx coroutine =>
    rw [inv.refs.coroutine p c ctx] at coroutine
    cases coroutine
  | next next loop => exact ⟨D', inv.quiet refs rfl rfl inv.backed inv.heard⟩
  | ended next loop => exact ⟨D', inv.quiet refs rfl rfl inv.backed inv.heard⟩
  | activity fd events =>
    refine ⟨D', inv.quiet refs rfl rfl inv.backed fun p c f ctx off hf some => ?_⟩
    have old := inv.heard p c f ctx off hf
    by_cases hg : f.fd.toNat = fd
    · subst hg
      simp only [Kernel.activity, Function.update_self] at some ⊢
      rw [BitVec.and_or_distrib_right, or_ne_zero] at some
      rcases some with was | now
      · rw [old was, Bool.true_or]
      · have wants : requested f ≠ 0 := by
          intro zero
          simp [zero] at now
        obtain ⟨we, ptr, inside, within, reg⟩ := inv.registered ctx hf wants
        rw [reg, Bool.or_eq_true]
        exact .inr (decide_eq_true (covers_any inside within now))
    · simp only [Kernel.activity, Function.update_of_ne hg] at some ⊢
      exact old some
  | consume fd events away =>
    refine ⟨D', inv.quiet refs rfl rfl inv.backed fun p c f ctx off hf some => ?_⟩
    refine inv.heard p c f ctx off hf ?_
    by_cases hg : f.fd.toNat = fd
    · subst hg
      simp only [Kernel.consume, Function.update_self] at some
      intro none
      apply some
      rw [BitVec.and_assoc, BitVec.and_comm _ (requested f), ← BitVec.and_assoc, none]
      exact BitVec.zero_and
    · simpa only [Kernel.consume, Function.update_of_ne hg] using some
  | close fd shared away =>
    have closed := close_spec n fd shared
    refine ⟨D', inv.quiet refs closed.links closed.ctx (fun g => ?_) fun p c f ctx off hf some => ?_⟩
    · by_cases hg : g = fd
      · intro busy
        rw [closed.itemOr, if_pos hg] at busy
        exact absurd rfl busy
      · exact (inv.backed g).congr (by rw [closed.itemOr, if_neg hg])
          (by simp [closed.kernel, Kernel.close, hg])
    · have hg : f.fd.toNat ≠ fd := by
        obtain ⟨i, hi⟩ := List.mem_iff_getElem?.mp hf
        obtain ⟨pos, -⟩ := inv.refs.pend p c i f ctx hi id
        intro num
        exact meets.1 p c ctx f hf (by rw [← num, Int.toNat_of_nonneg pos])
      rw [closed.kernel] at some ⊢
      simp only [Kernel.close, Function.update_of_ne hg] at some ⊢
      exact inv.heard p c f ctx off hf some

end Steps

section Runs

/-- A call without an event is not on the dispatch list. -/
theorem not_linked {n : Net P} {D : List P} {p : P} {c : PollCtx} (calls : Calls n D)
    (ctx : n.ctx p = some c) (idle : c.numRaise = 0) : ¬ Linked n.links () p := by
  rw [calls.rings.linked_iff]
  intro mem
  obtain ⟨c', hc, pos⟩ := calls.queued p mem
  obtain rfl : c = c' := Option.some.inj (ctx.symm.trans hc)
  omega

variable [DecidableEq P]

omit [DecidableEq P] in
theorem levelInv_init : LevelInv (Net.init : Net P) [] :=
  ⟨inv_init, by simp [Backed, itemOr, Net.init, WaitItem.new], by simp [Net.init],
    by simp [Net.init]⟩

/-- Level semantics holds in every state of the runs whose steps all meet the condition. -/
theorem run_level (tr : List (Event P)) (n : Net P) (run : MeetsRun tr n) : Level n := by
  have inv : ∃ D, LevelInv n D := by
    apply run.invariant
    · exact ⟨[], levelInv_init⟩
    · rintro tr n ev n' ⟨D, inv⟩ ⟨step, meets⟩
      exact inv.step step meets
  obtain ⟨D, inv⟩ := inv
  intro p c f ctx off hf
  refine inv.heard p c f ctx ?_ hf
  rwa [inv.refs.rings.linked_iff] at off

/-- A poll, a batch with its event, and a read of all there is. -/
theorem run_level_read : ∃ n, MeetsRun
    [.polled 0 [⟨5, 1, 0⟩] 10, .activity 5 1, .batch [5], .dispatched 0 [⟨5, 1, 1⟩] 1,
      .consumed 5 1] n ∧ Level n := by
  have armed : Meets (Net.init : Net ℕ) (.polled 0 [⟨5, 1, 0⟩] 10) := by
    intro f hf
    obtain rfl := List.mem_singleton.mp hf
    exact armed_of_new (within_iff.mpr (by decide)) rfl rfl
  have start : MeetsRun [] (Net.init : Net ℕ) := .init
  have polled := start.step
    ⟨.poll _ _ 0 [⟨5, 1, 0⟩] 10 trivial rfl rfl, armed⟩
  have active := polled.step ⟨.activity _ 5 1, trivial⟩
  have batch := active.step ⟨.batch _ _ [5] rfl (by simp) (by simp; rfl) rfl, trivial⟩
  have dispatched := batch.step ⟨.dispatch _ _ 0 _ _ 1 rfl rfl rfl rfl, trivial⟩
  have consumed := dispatched.step ⟨.consume _ 5 1 trivial, trivial⟩
  exact ⟨_, consumed, run_level _ _ consumed⟩

/-- A call reads less than there is, and the descriptor is polled again: the interest is the same, so
there is no `epoll_ctl`, and no event comes. -/
theorem read_short : ¬ ∀ (tr : List (Event ℕ)) (n : Net ℕ), SparedRun tr n → Level n := by
  intro all
  have start : SparedRun [] (Net.init : Net ℕ) := .init
  have polled := start.step
    ⟨.poll _ _ 0 [⟨5, 1, 0⟩] 10 trivial rfl rfl, trivial⟩
  have active := polled.step ⟨.activity _ 5 1, trivial⟩
  have batch := active.step ⟨.batch _ _ [5] rfl (by simp) (by simp; rfl) rfl, trivial⟩
  have dispatched := batch.step ⟨.dispatch _ _ 0 _ _ 1 rfl rfl rfl rfl, trivial⟩
  have again := dispatched.step ⟨.poll _ _ 1 [⟨5, 1, 0⟩] 10 trivial rfl rfl, trivial⟩
  obtain ⟨⟨D, inv⟩, -, -⟩ := history_of_run again
  have off := not_linked inv.toCalls (p := 1) (c := ⟨[⟨5, 1, 0⟩], 10, 0, 0, true, some ⟨5, 1⟩⟩) rfl rfl
  have queued := all _ _ again 1 _ ⟨5, 1, 0⟩ rfl off (by simp) (by decide)
  exact absurd queued (by decide)

end Runs

end Conet.Core.NetworkLevel
