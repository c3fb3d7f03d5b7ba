/- Module: Conet/Core/NetworkRun
   source: core/src/network.cpp
   digest: The invariant of runs with polls, batches, timeouts and closes. -/

import Conet.Core.NetworkBatch

set_option autoImplicit false
set_option relaxedAutoImplicit false

namespace Conet.Core.NetworkRun

open Conet.Lib Conet.Lib.Epoll Conet.Base.ListHead Conet.Base.ListRings Conet.Core.Network
open Conet.Core.NetworkPoll Conet.Core.NetworkBatch

universe u

variable {P : Type u}

/-- The wait items of the descriptors of `p` wait for `p` or for no call. -/
def Owns (n : Net P) (p : P) : Prop :=
  ∀ c, n.ctx p = some c → ∀ f ∈ c.fds,
    (itemOr n f.fd.toNat).pollCtx = none ∨ (itemOr n f.fd.toNat).pollCtx = some p

/-- A `close` leaves no registration behind: the file goes with its last descriptor, or it is not
registered, or `EPOLL_CTL_DEL` is called. -/
def Drops (n : Net P) (fd : Fd) (shared : Bool) : Prop :=
  shared = true → (itemOr n fd).waitEvents = 0 → n.kernel.reg fd = none

/-- The condition on a step: a `close` spares the first descriptor of every pending call and leaves no
registration behind, and a call that returns finds no other call on its descriptors. -/
def Meets (n : Net P) : Event P → Prop
  | .closed fd shared =>
    (∀ p c f, n.ctx p = some c → c.fds.head? = some f → f.fd ≠ (fd : ℤ)) ∧ Drops n fd shared
  | .dispatched p _ _ => Owns n p
  | .timedOut p _ _ => Owns n p
  | _ => True

/-- The descriptors that have been closed since a call has polled them. -/
def lostAfter (lost : P → Fd → Prop) : Event P → P → Fd → Prop
  | .polled p _ _ => fun q g => q ≠ p ∧ lost q g
  | .closed fd _ => fun q g => lost q g ∨ g = fd
  | _ => lost

/-- The pending calls, their references, and the loop over the dispatch list. -/
structure Inv (n : Net P) (D : List P) (lost : P → Fd → Prop) : Prop extends Refs n D lost where
  coroutine : ∀ p c, n.ctx p = some c → c.coroutine = true
  first : ∀ p c, n.ctx p = some c → c.fds ≠ [] → c.waitItem.isSome
  out : n.loop = .out → D = []
  test : ∀ ctx next, n.loop = .test ctx next → ctx = follow () D ∧ next = n.links.next ctx
  body : ∀ next, n.loop = .body next → next = follow () D

/-- The steps that are due do not fail: a call whose timer is armed can time out, the one that the
loop has come to can be resumed, and a batch puts every call that has asked for one of its events on
the dispatch list. -/
structure Due [DecidableEq P] (n : Net P) (lost : P → Fd → Prop) : Prop where
  timed : ∀ p, n.loop.Away → n.armed p = true → ∃ fds ret n', Step n (.timedOut p fds ret) n'
  resumed : ∀ p next, n.loop = .test (.item p) next → ∃ fds ret n', Step n (.dispatched p fds ret) n'
  batch : ∀ gs, n.loop = .out → gs.Nodup → (∀ fd ∈ gs, n.kernel.queued fd = true) →
    ∃ n', Step n (.batch gs) n' ∧ ∀ p c f, n.ctx p = some c → f ∈ c.fds →
      ¬ lost p f.fd.toNat → f.fd.toNat ∈ gs →
      pollEvent2epoll f.events &&& n.kernel.reported f.fd.toNat ≠ 0 → Linked n'.links () p

section Returns

variable [DecidableEq P] {n m n' : Net P} {D : List P} {lost : P → Fd → Prop} {p q : P} {fd g : Fd}
  {i : ℕ} {gs : List Fd} {c c' : PollCtx} {ret : ℤ}

/-- The descriptors whose wait items `destruct_poll_ctx` takes off a call. -/
def Takes (c : PollCtx) (gs : List Fd) : Prop :=
  (c.fds.length = 1 ∧ ∃ ptr, c.waitItem = some ptr ∧ gs = [ptr.fd]) ∨
    (c.fds.length ≠ 1 ∧ gs = c.fds.map fun f => f.fd.toNat)

/-- What the return of `p` leaves when it takes the wait items of `gs` off the calls. -/
structure Left (n n' : Net P) (p : P) (gs : List Fd) : Prop where
  item : ∀ g, itemOr n' g = if g ∈ gs then (itemOr n g).off else itemOr n g
  live : ∀ ptr, Live n ptr → Live n' ptr
  ctx : n'.ctx = Function.update n.ctx p none
  armed : n'.armed = Function.update n.armed p false
  kernel : n'.kernel = n.kernel

theorem left_of_return (item : m.item = n.item) (gen : m.gen = n.gen) (kernel : m.kernel = n.kernel)
    (mctx : m.ctx = n.ctx) (armed : m.armed = Function.update n.armed p false)
    (ok : coPollReturn m p c' = .ok (n', ret)) :
    ∃ gs, Left n n' p gs ∧ Takes c' gs ∧ n'.links = m.links ∧ n'.loop = m.loop := by
  obtain ⟨n₁, gs, detached, e, which, -⟩ := coPollReturn_ok ok
  have items : itemOr m = itemOr n := by
    funext g
    simp [itemOr, item]
  have takes : Takes c' gs := by
    rcases which with ⟨one, ptr, cached, -, same⟩ | all
    · exact .inl ⟨one, ptr, cached, same⟩
    · exact .inr all
  refine ⟨gs, ⟨?_, ?_, ?_, ?_, ?_⟩, takes, ?_, ?_⟩ <;> rw [e]
  · rw [← items]
    exact detached.item
  · intro ptr h
    refine detached.live ptr ?_
    rwa [Live, item, gen]
  · rw [← mctx, ← detached.rest.ctx]
  · rw [← armed]
    exact detached.rest.armed
  · rw [← kernel]
    exact detached.rest.kernel
  · exact detached.rest.links
  · exact detached.rest.loop

omit [DecidableEq P] in
/-- Every wait item that waits for the call is taken off it. -/
theorem covered (refs : Refs n D lost) (ctx : n.ctx p = some c) (takes : Takes c gs)
    (h : Attached n g p i) : g ∈ gs := by
  obtain ⟨c₀, f, hc, hf, num⟩ := refs.back g p i h
  obtain rfl : c = c₀ := Option.some.inj (ctx.symm.trans hc)
  rcases takes with ⟨one, ptr, cached, rfl⟩ | ⟨-, rfl⟩
  · obtain ⟨-, first⟩ := refs.cached p c ptr ctx cached
    obtain ⟨c₁, f₁, hc₁, hf₁, num₁⟩ := refs.back ptr.fd p 0 first
    obtain rfl : c = c₁ := Option.some.inj (ctx.symm.trans hc₁)
    obtain ⟨hi, -⟩ := List.getElem?_eq_some_iff.mp hf
    obtain rfl : i = 0 := by omega
    obtain rfl : f = f₁ := Option.some.inj (hf.symm.trans hf₁)
    have same : g = ptr.fd := by exact_mod_cast num.symm.trans num₁
    simp [same]
  · refine List.mem_map.mpr ⟨f, List.mem_of_getElem? hf, ?_⟩
    rw [num, Int.toNat_natCast]

omit [DecidableEq P] in
/-- No wait item of another call is taken. -/
theorem taken_own (refs : Refs n D lost) (ctx : n.ctx p = some c) (owns : Owns n p)
    (takes : Takes c gs) (hg : g ∈ gs) (h : Attached n g q i) : q = p := by
  rcases takes with ⟨-, ptr, cached, rfl⟩ | ⟨-, rfl⟩
  · obtain ⟨-, first⟩ := refs.cached p c ptr ctx cached
    rw [List.mem_singleton.mp hg] at h
    exact (h.unique first).1
  · obtain ⟨f, hf, rfl⟩ := List.mem_map.mp hg
    rcases owns c ctx f hf with none | self
    · exact absurd none h.ne_none
    · exact Option.some.inj (h.1.symm.trans self)

theorem Left.attached (left : Left n n' p gs) (refs : Refs n D lost) (ctx : n.ctx p = some c)
    (owns : Owns n p) (takes : Takes c gs) : Attached n' g q i ↔ q ≠ p ∧ Attached n g q i := by
  unfold Attached
  rw [left.item]
  split_ifs with hg
  · refine iff_of_false (by simp [WaitItem.off]) fun h => h.1 ?_
    exact taken_own refs ctx owns takes hg h.2
  · constructor
    · intro h
      refine ⟨?_, h⟩
      rintro rfl
      exact hg (covered refs ctx takes h)
    · exact And.right

theorem Left.waitEvents (left : Left n n' p gs) : (itemOr n' g).waitEvents = (itemOr n g).waitEvents := by
  rw [left.item]
  split_ifs <;> rfl

theorem Left.ctx_ne (left : Left n n' p gs) (hq : q ≠ p) : n'.ctx q = n.ctx q := by
  rw [left.ctx, Function.update_of_ne hq]

theorem Left.pending (left : Left n n' p gs) (hc : n'.ctx q = some c) : q ≠ p ∧ n.ctx q = some c := by
  have hq : q ≠ p := by
    rintro rfl
    simp [left.ctx] at hc
  exact ⟨hq, left.ctx_ne hq ▸ hc⟩

theorem calls_leave (calls : Calls n D) (left : Left n n' p gs)
    (rings : Rings n'.links fun _ : Unit => D.erase p) : Calls n' (D.erase p) := by
  have mem : ∀ q, q ≠ p → (q ∈ D.erase p ↔ q ∈ D) := fun q hq => List.mem_erase_of_ne hq
  have out : p ∉ D.erase p := calls.rings.notMem_erase p ()
  refine { rings := rings, armed := ?_, queued := ?_, idle := ?_, retcode := ?_, raise := ?_ }
  · intro q
    rw [left.armed]
    by_cases hq : q = p
    · simp [hq, left.ctx]
    · rw [Function.update_of_ne hq, left.ctx_ne hq, mem q hq]
      exact calls.armed q
  · intro q hq
    have hne : q ≠ p := fun e => out (e ▸ hq)
    rw [left.ctx_ne hne]
    exact calls.queued q ((mem q hne).mp hq)
  · intro q c₁ hc off
    obtain ⟨hq, hc⟩ := left.pending hc
    exact calls.idle q c₁ hc fun h => off ((mem q hq).mpr h)
  · intro q c₁ hc
    exact calls.retcode q c₁ (left.pending hc).2
  · intro q c₁ hc
    exact calls.raise q c₁ (left.pending hc).2

/-- A call that returns: no reference to it is left, and the other calls keep theirs. -/
theorem leave_refs (refs : Refs n D lost) (left : Left n n' p gs) (ctx : n.ctx p = some c)
    (owns : Owns n p) (takes : Takes c gs) (rings : Rings n'.links fun _ : Unit => D.erase p) :
    Refs n' (D.erase p) lost := by
  have attached : ∀ g q j, Attached n' g q j ↔ q ≠ p ∧ Attached n g q j := fun _ _ _ =>
    left.attached refs ctx owns takes
  refine { toCalls := calls_leave refs.toCalls left rings, reg := ?_, back := ?_, pend := ?_, asked := ?_
           cached := ?_ }
  · intro g mask ptr reg
    rw [left.kernel] at reg
    obtain ⟨own, h⟩ := refs.reg g mask ptr reg
    exact ⟨own, left.live ptr h⟩
  · intro g q j h
    obtain ⟨hq, h⟩ := (attached g q j).mp h
    rw [left.ctx_ne hq]
    exact refs.back g q j h
  · intro q c₁ j f hc hf keep
    obtain ⟨hq, hc⟩ := left.pending hc
    obtain ⟨pos, h⟩ := refs.pend q c₁ j f hc hf keep
    exact ⟨pos, (attached _ q j).mpr ⟨hq, h⟩⟩
  · intro g q j c₁ f h hc hf
    rw [left.waitEvents]
    exact refs.asked g q j c₁ f ((attached g q j).mp h).2 (left.pending hc).2 hf
  · intro q c₁ ptr hc hptr
    obtain ⟨hq, hc⟩ := left.pending hc
    obtain ⟨alive, h⟩ := refs.cached q c₁ ptr hc hptr
    exact ⟨left.live ptr alive, (attached _ q 0).mpr ⟨hq, h⟩⟩

omit [DecidableEq P] in
/-- A descriptor is closed that is the first one of no pending call: it is lost to every call. -/
theorem close_refs {shared : Bool} (refs : Refs n D lost) (closed : Closed n n' fd shared)
    (keep : ∀ p c ptr, n.ctx p = some c → c.waitItem = some ptr → ptr.fd ≠ fd) :
    Refs n' D fun q g => lost q g ∨ g = fd := by
  have attached : ∀ g q j, Attached n' g q j ↔ g ≠ fd ∧ Attached n g q j := by
    intro g q j
    unfold Attached
    rw [closed.itemOr]
    split_ifs with hg
    · simp [hg, WaitItem.new]
    · simp [hg]
  have live : ∀ ptr, ptr.fd ≠ fd → Live n ptr → Live n' ptr := by
    intro ptr hne h
    rwa [Live, closed.item, Function.update_of_ne hne, closed.gen _ hne]
  have same : SameCalls n n' := .of_eq closed.ctx
  refine { toCalls := refs.toCalls.congr closed.links closed.armed same, reg := ?_, back := ?_
           pend := ?_, asked := ?_, cached := ?_ }
  · intro g mask ptr reg
    rw [closed.kernel, Kernel.close] at reg
    by_cases hg : g = fd
    · simp [hg] at reg
    · obtain ⟨rfl, h⟩ := refs.reg g mask ptr (by simpa [hg] using reg)
      exact ⟨rfl, live ptr hg h⟩
  · intro g q j h
    rw [closed.ctx]
    exact refs.back g q j ((attached g q j).mp h).2
  · intro q c j f hc hf keep
    rw [closed.ctx] at hc
    obtain ⟨hne, hfd⟩ := not_or.mp keep
    obtain ⟨pos, h⟩ := refs.pend q c j f hc hf hne
    exact ⟨pos, (attached _ q j).mpr ⟨hfd, h⟩⟩
  · intro g q j c f h hc hf
    rw [closed.ctx] at hc
    obtain ⟨hg, h⟩ := (attached g q j).mp h
    rw [closed.itemOr, if_neg hg]
    exact refs.asked g q j c f h hc hf
  · intro q c ptr hc hptr
    rw [closed.ctx] at hc
    have hne := keep q c ptr hc hptr
    obtain ⟨alive, h⟩ := refs.cached q c ptr hc hptr
    exact ⟨live ptr hne alive, (attached _ q 0).mpr ⟨hne, h⟩⟩

end Returns

section Steps

variable [DecidableEq P] {n n' m : Net P} {D : List P} {lost : P → Fd → Prop} {p : P} {fd : Fd}
  {fds : List PollFd} {timeout ret : ℤ} {c c' : PollCtx} {gs : List Fd} {ev : Event P}

omit [DecidableEq P] in
theorem inv_init : Inv (Net.init : Net P) [] fun _ _ => False where
  toRefs := .init
  coroutine := by simp [Net.init]
  first := by simp [Net.init]
  out := fun _ => rfl
  test := by simp [Net.init]
  body := by simp [Net.init]

omit [DecidableEq P] in
/-- The first descriptor of a call is the one whose wait item it caches. -/
theorem Inv.head_cached (inv : Inv n D lost) (ctx : n.ctx p = some c) {ptr : Ptr}
    (cached : c.waitItem = some ptr) :
    ∃ f, c.fds.head? = some f ∧ f.fd = (ptr.fd : ℤ) ∧ Live n ptr ∧ Attached n ptr.fd p 0 := by
  obtain ⟨live, h⟩ := inv.cached p c ptr ctx cached
  obtain ⟨c₁, f, hc, hf, num⟩ := inv.back ptr.fd p 0 h
  obtain rfl : c = c₁ := Option.some.inj (ctx.symm.trans hc)
  exact ⟨f, by rw [List.head?_eq_getElem?, hf], num, live, h⟩

theorem Inv.poll (inv : Inv n D lost) (fresh : n.ctx p = none)
    (polls : coPoll n p fds timeout = .ok n') : Inv n' D fun q g => q ≠ p ∧ lost q g := by
  obtain ⟨refs, links, loop, c, ctx, entries, -, coroutine, cached⟩ :=
    inv.toRefs.coPoll fresh polls
  refine { toRefs := refs, coroutine := ?_, first := ?_, out := ?_, test := ?_, body := ?_ }
  · intro q c' hc
    rw [ctx] at hc
    by_cases hq : q = p
    · rw [hq, Function.update_self, Option.some.injEq] at hc
      exact hc ▸ coroutine
    · rw [Function.update_of_ne hq] at hc
      exact inv.coroutine q c' hc
  · intro q c' hc some
    rw [ctx] at hc
    by_cases hq : q = p
    · rw [hq, Function.update_self, Option.some.injEq] at hc
      subst hc
      refine cached fun nil => some ?_
      rw [entries, nil, List.map_nil]
    · rw [Function.update_of_ne hq] at hc
      exact inv.first q c' hc some
  · rw [loop]
    exact inv.out
  · rw [loop, links]
    exact inv.test
  · rw [loop]
    exact inv.body

/-- A batch when `epoll_wait` has taken its events: no call has a result yet, and none is on the
dispatch list. -/
theorem Inv.fetched (inv : Inv n D lost) (out : n.loop = .out) (nodup : gs.Nodup) :
    D = [] ∧ initListHead n.links (.head ()) = n.links ∧
      Refs { n with kernel := n.kernel.fetch gs } [] lost ∧
      ((n.kernel.report gs).map fun ev => ev.1.fd).Nodup ∧
      (∀ ev ∈ n.kernel.report gs, Live n ev.1) ∧
      ∀ p (c : PollCtx) (i : ℕ) (f : PollFd), n.ctx p = some c → c.fds[i]? = some f →
        f.revents = 0 := by
  obtain rfl := inv.out out
  have refs : Refs { n with kernel := n.kernel.fetch gs } [] lost := inv.toRefs.same rfl rfl rfl
    (inv.toCalls.congr rfl rfl (.of_eq rfl)) (.of_eq rfl) fun p c hc => ⟨c, hc, rfl⟩
  refine ⟨rfl, initListHead_of_nil (by simpa using refs.rings.circ ()), refs, ?_, ?_, ?_⟩
  · apply (report_sublist Ptr.fd fun fd mask ptr reg => (inv.reg fd mask ptr reg).1).nodup nodup
  · intro ev hev
    obtain ⟨fd, -, mask, reg, -⟩ := mem_report.mp hev
    exact (inv.reg fd mask ev.1 reg).2
  · intro p c i f hc hf
    have zero := refs.raise p c hc
    rw [refs.idle p c hc (by simp), eq_comm, List.countP_eq_zero] at zero
    simpa using zero f (List.mem_of_getElem? hf)

/-- A batch is handled to its end, and every call that one of its events is for is on the dispatch
list then. -/
theorem Inv.batch (inv : Inv n D lost) (out : n.loop = .out) (nodup : gs.Nodup) :
    ∃ n' D', procNetevent n gs = .ok n' ∧ Inv n' D' lost ∧
      Passed { n with kernel := n.kernel.fetch gs } n' (n.kernel.report gs) D D' := by
  obtain ⟨rfl, idle, refs, distinct, live, unseen⟩ := inv.fetched out nodup
  set evs := n.kernel.report gs with hevs
  set m : Net P := { n with kernel := n.kernel.fetch gs } with hm
  unfold procNetevent
  dsimp only
  rw [← hevs, ← hm]
  by_cases none : evs = []
  · rw [if_pos none, none]
    exact ⟨m, [], rfl, { toRefs := refs, coroutine := inv.coroutine, first := inv.first
                         out := inv.out, test := inv.test, body := inv.body }, .refl⟩
  · rw [if_neg none]
    obtain ⟨n₁, D', ok, refs₁, passed⟩ :=
      notifyAll_refs refs distinct live fun p c i f hc hf _ => unseen p c i f hc hf
    have same : ({ m with links := initListHead m.links (.head ()) } : Net P) = m := by
      rw [idle]
    rw [same, ok]
    refine ⟨_, D', rfl, ?_, ?_⟩
    · refine { toRefs := ?_, coroutine := ?_, first := ?_, out := ?_, test := ?_, body := ?_ }
      · exact refs₁.same rfl rfl rfl (refs₁.toCalls.congr rfl rfl (.of_eq rfl)) (.of_eq rfl)
          fun p c hc => ⟨c, hc, rfl⟩
      · intro p c hc
        obtain ⟨c₀, hc₀, asks⟩ := passed.back p c hc
        rw [asks.coroutine]
        exact inv.coroutine p c₀ hc₀
      · intro p c hc some
        obtain ⟨c₀, hc₀, asks⟩ := passed.back p c hc
        rw [asks.waitItem]
        refine inv.first p c₀ hc₀ fun nil => some ?_
        simpa [nil] using asks.length
      · simp
      · rintro ctx next h
        obtain ⟨rfl, rfl⟩ := Loop.test.inj h
        exact ⟨refs₁.rings.next_head (), rfl⟩
      · simp
    · exact ⟨passed.ready, passed.queued, passed.live, passed.item, passed.grow, passed.forth,
        passed.back, passed.raised⟩

theorem Inv.returns_ok (inv : Inv n D lost) (m : Net P) (c' : PollCtx) (ctx : n.ctx p = some c)
    (item : m.item = n.item) (gen : m.gen = n.gen) (fds : c'.fds = c.fds) (waitItem : c'.waitItem = c.waitItem) :
    ∃ n' ret, coPollReturn m p c' = .ok (n', ret) := by
  unfold coPollReturn destructPollCtx
  by_cases one : c'.fds.length = 1
  · have some : c.fds ≠ [] := by
      rintro nil
      simp [fds, nil] at one
    obtain ⟨ptr, cached⟩ := Option.isSome_iff_exists.mp (inv.first p c ctx some)
    obtain ⟨⟨alive, same⟩, -⟩ := inv.cached p c ptr ctx cached
    obtain ⟨w, hw⟩ := Option.isSome_iff_exists.mp alive
    have found : deref m ptr = .ok w := by simp [deref, item, gen, hw, same]
    rw [if_pos one, waitItem, cached]
    dsimp only
    rw [found]
    exact ⟨_, _, rfl⟩
  · rw [if_neg one]
    exact ⟨_, _, rfl⟩

theorem Inv.leave (inv : Inv n D lost) (ok : coPollReturn m p c' = .ok (n', ret))
    (ctx : n.ctx p = some c) (owns : Owns n p) (item : m.item = n.item) (gen : m.gen = n.gen) (kernel : m.kernel = n.kernel)
    (mctx : m.ctx = n.ctx) (rings : Rings m.links fun _ : Unit => D.erase p)
    (armed : m.armed = Function.update n.armed p false) (fds : c'.fds = c.fds)
    (waitItem : c'.waitItem = c.waitItem) (out : m.loop = .out → D.erase p = [])
    (test : ∀ ctx next, m.loop = .test ctx next →
      ctx = follow () (D.erase p) ∧ next = m.links.next ctx)
    (body : ∀ next, m.loop = .body next → next = follow () (D.erase p)) :
    Inv n' (D.erase p) lost := by
  obtain ⟨gs, left, takes, links, loop⟩ := left_of_return item gen kernel mctx armed ok
  have takes' : Takes c gs := by rwa [Takes, fds, waitItem] at takes
  exact { toRefs := leave_refs inv.toRefs left ctx owns takes' (links ▸ rings)
          coroutine := fun q c₁ hc => inv.coroutine q c₁ (left.pending hc).2
          first := fun q c₁ hc => inv.first q c₁ (left.pending hc).2
          out := loop ▸ out, test := by rw [loop, links]; exact test, body := loop ▸ body }

omit [DecidableEq P] in
/-- What changes nothing but events of the kernel, and the cursors of the loop. -/
theorem Inv.quiet (inv : Inv n D lost) (item : n'.item = n.item) (gen : n'.gen = n.gen)
    (reg : n'.kernel.reg = n.kernel.reg) (ctx : n'.ctx = n.ctx) (armed : n'.armed = n.armed)
    (links : n'.links = n.links) (out : n'.loop = .out → D = [])
    (test : ∀ ctx next, n'.loop = .test ctx next → ctx = follow () D ∧ next = n.links.next ctx)
    (body : ∀ next, n'.loop = .body next → next = follow () D) : Inv n' D lost where
  toRefs := inv.toRefs.same item gen reg (inv.toCalls.congr links armed (.of_eq ctx)) (.of_eq ctx)
    fun _ c hc => ⟨c, ctx ▸ hc, rfl⟩
  coroutine := ctx ▸ inv.coroutine
  first := ctx ▸ inv.first
  out := out
  test := links ▸ test
  body := body

/-- The call that the `dispatch` loop goes on with. -/
theorem Inv.dispatch (inv : Inv n D lost) {next : Node Unit P}
    (loop : n.loop = .test (.item p) next) (ctx : n.ctx p = some c) (owns : Owns n p)
    (ok : coPollReturn { n with links := listDelInit n.links (.item p), loop := .body next } p c =
      .ok (n', ret)) : Inv n' (D.erase p) lost := by
  obtain ⟨head, saved⟩ := inv.test _ next loop
  obtain ⟨post, rfl⟩ : ∃ post, D = p :: post := by
    cases D with
    | nil => simp [follow] at head
    | cons q post => exact ⟨post, by rw [Node.item.inj head]⟩
  have armed : n.armed = Function.update n.armed p false := by
    have off : n.armed p = false := by
      rw [← Bool.not_eq_true, inv.armed p]
      simp
    rw [← off, Function.update_eq_self]
  have after : next = follow () post := by
    rw [saved]
    exact inv.rings.next_first rfl
  refine inv.leave ok ctx owns rfl rfl rfl rfl (inv.rings.unlink p) armed rfl rfl (by simp)
    (by simp) ?_
  intro next' h
  rw [← Loop.body.inj h, after, List.erase_cons_head]

theorem Inv.expire (inv : Inv n D lost) (armed : n.armed p = true)
    (ctx : n.ctx p = some c) (owns : Owns n p)
    (ok : coPollReturn { n with armed := Function.update n.armed p false } p
      { c with retcode := 1 } = .ok (n', ret)) : Inv n' D lost := by
  obtain ⟨off, -⟩ := (inv.armed p).mp armed
  have same : D.erase p = D := List.erase_of_not_mem off
  rw [← same]
  refine inv.leave ok ctx owns rfl rfl rfl rfl ?_ rfl rfl rfl ?_ ?_ ?_
  · rw [same]
    exact inv.rings
  · rw [same]
    exact inv.out
  · rw [same]
    exact inv.test
  · rw [same]
    exact inv.body

omit [DecidableEq P] in
theorem Inv.mem_of_test (inv : Inv n D lost) {next : Node Unit P}
    (loop : n.loop = .test (.item p) next) : p ∈ D := by
  obtain ⟨head, -⟩ := inv.test _ next loop
  cases D with
  | nil => simp [follow] at head
  | cons q post => simp [Node.item.inj head]

theorem Inv.due (inv : Inv n D lost) : Due n lost := by
  refine ⟨?_, ?_, ?_⟩
  · intro p away armed
    obtain ⟨-, c, ctx, -⟩ := (inv.armed p).mp armed
    obtain ⟨n', ret, ok⟩ := inv.returns_ok
      { n with armed := Function.update n.armed p false } { c with retcode := 1 } ctx rfl rfl rfl rfl
    exact ⟨_, ret, n', .timeout _ _ p c ret away armed ctx (inv.coroutine p c ctx) ok⟩
  · intro p next loop
    obtain ⟨c, ctx, -⟩ := inv.queued p (inv.mem_of_test loop)
    obtain ⟨n', ret, ok⟩ := inv.returns_ok
      { n with links := listDelInit n.links (.item p), loop := .body next } c ctx rfl rfl rfl rfl
    exact ⟨_, ret, n', .dispatch _ _ p c next ret loop ctx (inv.coroutine p c ctx) ok⟩
  · intro gs out nodup queued
    obtain ⟨n', D', ok, inv', passed⟩ := inv.batch out nodup
    refine ⟨n', .batch _ _ gs out nodup queued ok, ?_⟩
    intro p c f ctx hf open' mem wanted
    obtain ⟨i, hi⟩ := List.mem_iff_getElem?.mp hf
    obtain ⟨-, waits⟩ := inv.pend p c i f ctx hi open'
    rw [inv'.rings.linked_iff]
    -- the event is one of those that `epoll_wait` has taken
    cases reg : n.kernel.reg f.fd.toNat with
    | none => simp [Kernel.reported, reg] at wanted
    | some r =>
      obtain ⟨mask, ptr⟩ := r
      obtain ⟨own, -⟩ := inv.reg _ mask ptr reg
      have some : n.kernel.reported f.fd.toNat ≠ 0 := by
        intro zero
        simp [zero] at wanted
      have hev : (ptr, n.kernel.reported f.fd.toNat) ∈ n.kernel.report gs :=
        mem_report.mpr ⟨_, mem, mask, reg, rfl, some⟩
      refine passed.raised _ hev p i c f ?_ ctx hi wanted
      rw [own]
      exact waits

theorem Inv.step (inv : Inv n D lost) (step : Step n ev n') (meets : Meets n ev) :
    ∃ D', Inv n' D' (lostAfter lost ev) := by
  cases step with
  | poll _ p fds timeout away fresh polls => exact ⟨D, inv.poll fresh polls⟩
  | batch _ gs out nodup queued notifies =>
    obtain ⟨n₁, D', ok, inv', -⟩ := inv.batch out nodup
    obtain rfl : n₁ = n' := Except.ok.inj (ok.symm.trans notifies)
    exact ⟨D', inv'⟩
  | dispatch _ p c next ret loop ctx coroutine returns =>
    exact ⟨_, inv.dispatch loop ctx meets returns⟩
  | timeout _ p c ret away armed ctx coroutine returns =>
    exact ⟨_, inv.expire armed ctx meets returns⟩
  | skip p c next loop ctx coroutine =>
    rw [inv.coroutine p c ctx] at coroutine
    cases coroutine
  | next next loop =>
    refine ⟨D, inv.quiet rfl rfl rfl rfl rfl rfl (by simp) ?_ (by simp)⟩
    intro ctx next' h
    obtain ⟨rfl, rfl⟩ := Loop.test.inj h
    exact ⟨inv.body _ loop, rfl⟩
  | ended next loop =>
    refine ⟨D, inv.quiet rfl rfl rfl rfl rfl rfl ?_ (by simp) (by simp)⟩
    intro _
    obtain ⟨head, -⟩ := inv.test _ next loop
    cases D with
    | nil => rfl
    | cons q post => simp [follow] at head
  | activity fd events => exact ⟨D, inv.quiet rfl rfl rfl rfl rfl rfl inv.out inv.test inv.body⟩
  | consume fd events away =>
    exact ⟨D, inv.quiet rfl rfl rfl rfl rfl rfl inv.out inv.test inv.body⟩
  | close fd shared away =>
    have closed := close_spec n fd shared
    refine ⟨D, close_refs inv.toRefs closed ?_, ?_, ?_, ?_, ?_, ?_⟩
    · intro p c ptr ctx cached num
      obtain ⟨f, head, own, -⟩ := inv.head_cached ctx cached
      exact meets.1 p c f ctx head (num ▸ own)
    · rw [closed.ctx]
      exact inv.coroutine
    · rw [closed.ctx]
      exact inv.first
    · rw [closed.loop]
      exact inv.out
    · rw [closed.loop, closed.links]
      exact inv.test
    · rw [closed.loop]
      exact inv.body

end Steps

end Conet.Core.NetworkRun
