/- Module: Conet/Core/NetworkBatch
   source: core/src/network.cpp
   digest: What a batch of epoll events does to the pending calls of co_poll. -/

import Conet.Core.NetworkPoll

set_option autoImplicit false
set_option relaxedAutoImplicit false

namespace Conet.Core.NetworkBatch

open Conet.Lib Conet.Lib.Epoll Conet.Base.ListHead Conet.Base.ListRings Conet.Core.Network
open Conet.Core.NetworkPoll

universe u

variable {P : Type u}

section Registers

variable {k : Kernel Fd Ptr} {ptr q : Ptr} {m mask : Events} {g : Fd}

theorem clearKernel_reg (reg : (clearKernel k ptr m).1.reg g = some (mask, q)) :
    (∃ mask, k.reg g = some (mask, q)) ∨ (g = ptr.fd ∧ q = ptr) := by
  by_cases hg : g = ptr.fd
  · unfold clearKernel Kernel.mod Kernel.del Kernel.arm at reg
    split_ifs at reg <;> simp_all
  · rw [clearKernel_reg_ne hg] at reg
    exact .inl ⟨mask, reg⟩

theorem clearKernel_queued_ne (hg : g ≠ ptr.fd) :
    (clearKernel k ptr m).1.queued g = k.queued g := by
  unfold clearKernel
  split_ifs
  · exact mod_queued_ne hg
  · exact del_queued_ne hg

theorem clearKernel_ready : (clearKernel k ptr m).1.ready = k.ready := by
  unfold clearKernel
  split_ifs <;> simp

/-- The result bits fit into the `short` of a `struct pollfd`. -/
theorem epollEvent2poll_ne_zero (within : Within m pollMask) (some : m ≠ 0) :
    epollEvent2poll m ≠ 0 := by
  intro zero
  apply some
  rw [eq_zero_iff]
  intro i
  by_contra hi
  have hi : m.getLsbD i = true := by simpa using hi
  have mask := within i hi
  have short : i < 16 := by
    have lt : i < 32 := BitVec.lt_of_getLsbD hi
    have all : ∀ j : Fin 32, pollMask.getLsbD j = true → (j : ℕ) < 16 := by decide
    exact all ⟨i, lt⟩ mask
  have bit := congrArg (fun b => b.getLsbD i) zero
  simp [epollEvent2poll, hi, mask, short] at bit

end Registers

/-- An entry may have got a result, for one of the descriptors of `evs`. -/
structure SameEntry (evs : List (Ptr × Events)) (f f' : PollFd) : Prop where
  fd : f'.fd = f.fd
  events : f'.events = f.events
  revents : (∀ ev ∈ evs, f.fd.toNat ≠ ev.1.fd) → f'.revents = f.revents

structure Asks (evs : List (Ptr × Events)) (c c' : PollCtx) : Prop where
  coroutine : c'.coroutine = c.coroutine
  waitItem : c'.waitItem = c.waitItem
  timeout : c'.timeout = c.timeout
  length : c'.fds.length = c.fds.length
  entry : ∀ (i : ℕ) (f : PollFd), c.fds[i]? = some f → ∃ f', c'.fds[i]? = some f' ∧ SameEntry evs f f'

/-- What a batch with the events `evs` does before its calls are resumed. -/
structure Passed (n n' : Net P) (evs : List (Ptr × Events)) (D D' : List P) : Prop where
  ready : n'.kernel.ready = n.kernel.ready
  queued : ∀ g, (∀ ev ∈ evs, g ≠ ev.1.fd) → n'.kernel.queued g = n.kernel.queued g
  live : ∀ ptr, Live n ptr → Live n' ptr
  item : ∀ g p i, Attached n' g p i ↔ Attached n g p i
  grow : D ⊆ D'
  forth : ∀ p c, n.ctx p = some c → ∃ c', n'.ctx p = some c' ∧ Asks evs c c'
  back : ∀ p c', n'.ctx p = some c' → ∃ c, n.ctx p = some c ∧ Asks evs c c'
  raised : ∀ ev ∈ evs, ∀ p i c f, Attached n ev.1.fd p i → n.ctx p = some c →
    c.fds[i]? = some f → pollEvent2epoll f.events &&& ev.2 ≠ 0 → p ∈ D'

section Batches

variable {n n' n₁ : Net P} {D D' D₁ : List P} {lost : P → Fd → Prop} {p : P} {i : ℕ}
  {ptr : Ptr} {w : WaitItem P} {events : Events} {evs evs' : List (Ptr × Events)}
  {c c' c₁ : PollCtx} {f f' : PollFd}

theorem Asks.refl (c : PollCtx) : Asks evs c c :=
  ⟨rfl, rfl, rfl, rfl, fun _ f hf => ⟨f, hf, rfl, rfl, fun _ => rfl⟩⟩

theorem Asks.entry_back (asks : Asks evs c c') (hf : c'.fds[i]? = some f') :
    ∃ f, c.fds[i]? = some f ∧ SameEntry evs f f' := by
  obtain ⟨hi, -⟩ := List.getElem?_eq_some_iff.mp hf
  rw [asks.length] at hi
  obtain ⟨f'', hf'', same⟩ := asks.entry i _ (List.getElem?_eq_getElem hi)
  obtain rfl : f'' = f' := Option.some.inj (hf''.symm.trans hf)
  exact ⟨_, List.getElem?_eq_getElem hi, same⟩

theorem Asks.trans (first : Asks evs c c₁) (second : Asks evs' c₁ c') :
    Asks (evs ++ evs') c c' := by
  refine ⟨second.coroutine.trans first.coroutine, second.waitItem.trans first.waitItem,
    second.timeout.trans first.timeout, second.length.trans first.length, ?_⟩
  intro i f hf
  obtain ⟨f₁, hf₁, one⟩ := first.entry i f hf
  obtain ⟨f', hf', two⟩ := second.entry i f₁ hf₁
  refine ⟨f', hf', two.fd.trans one.fd, two.events.trans one.events, fun off => ?_⟩
  rw [two.revents fun ev hev => one.fd ▸ off ev (by simp [hev]),
    one.revents fun ev hev => off ev (by simp [hev])]

theorem Passed.refl : Passed n n [] D D where
  ready := rfl
  queued := fun _ _ => rfl
  live := fun _ => id
  item := fun _ _ _ => Iff.rfl
  grow := List.Subset.refl D
  forth := fun _ c hc => ⟨c, hc, .refl c⟩
  back := fun _ c hc => ⟨c, hc, .refl c⟩
  raised := by simp

theorem Passed.trans (first : Passed n n₁ evs D D₁) (second : Passed n₁ n' evs' D₁ D') :
    Passed n n' (evs ++ evs') D D' where
  ready := second.ready.trans first.ready
  queued := fun g off => (second.queued g fun ev hev => off ev (by simp [hev])).trans
    (first.queued g fun ev hev => off ev (by simp [hev]))
  live := fun ptr h => second.live ptr (first.live ptr h)
  item := fun g p i => (second.item g p i).trans (first.item g p i)
  grow := List.Subset.trans first.grow second.grow
  forth := by
    intro p c hc
    obtain ⟨c₁, hc₁, asks₁⟩ := first.forth p c hc
    obtain ⟨c', hc', asks'⟩ := second.forth p c₁ hc₁
    exact ⟨c', hc', asks₁.trans asks'⟩
  back := by
    intro p c' hc'
    obtain ⟨c₁, hc₁, asks'⟩ := second.back p c' hc'
    obtain ⟨c, hc, asks₁⟩ := first.back p c₁ hc₁
    exact ⟨c, hc, asks₁.trans asks'⟩
  raised := by
    intro ev hev p i c f h hc hf wanted
    rcases List.mem_append.mp hev with hev | hev
    · exact second.grow (first.raised ev hev p i c f h hc hf wanted)
    · obtain ⟨c₁, hc₁, asks⟩ := first.forth p c hc
      obtain ⟨f₁, hf₁, same⟩ := asks.entry i f hf
      exact second.raised ev hev p i c₁ f₁ ((first.item _ p i).mpr h) hc₁ hf₁
        (by rwa [same.events])

/-- Events that the call of the descriptor, if there is one, has not asked for. -/
theorem clear_refs (refs : Refs n D lost) (live : Live n ptr) (item : n.item ptr.fd = some w)
    (spare : ∀ p i c f, Attached n ptr.fd p i → n.ctx p = some c → c.fds[i]? = some f →
      pollEvent2epoll f.events &&& events = 0) :
    Refs (clearInvalidEvent n ptr w events) D lost ∧
      Passed n (clearInvalidEvent n ptr w events) [(ptr, events)] D D := by
  rw [clearInvalidEvent_eq]
  set n' := ctl (setItem n ptr.fd { w with waitEvents := w.waitEvents &&& ~~~events })
    (clearKernel n.kernel ptr (w.waitEvents &&& ~~~events)) with hn'
  have self : itemOr n ptr.fd = w := by simp [itemOr, item]
  have items : ∀ g, itemOr n' g = if g = ptr.fd then
      { w with waitEvents := w.waitEvents &&& ~~~events } else itemOr n g := by
    intro g
    by_cases hg : g = ptr.fd <;> simp [hn', itemOr, ctl, setItem, hg]
  have attached : ∀ g p i, Attached n' g p i ↔ Attached n g p i := by
    intro g p i
    by_cases hg : g = ptr.fd
    · simp [Attached, items, hg, self]
    · simp [Attached, items, hg]
  have alive : ∀ q, Live n q → Live n' q := by
    rintro q ⟨some, gen⟩
    refine ⟨?_, gen⟩
    by_cases hq : q.fd = ptr.fd
    · simp [hn', ctl, setItem, hq]
    · simpa [hn', ctl, setItem, hq] using some
  have same : SameCalls n n' := .of_eq rfl
  refine ⟨refs.congr (refs.toCalls.congr rfl rfl same) same (fun p c hc => ⟨c, hc, rfl⟩) attached
    ?_ alive ?_, ?_⟩
  · intro g p i c f h hc hf
    rw [items]
    split_ifs with hg
    · subst hg
      exact (self ▸ refs.asked _ p i c f h hc hf).diff (spare p i c f h hc hf)
    · exact refs.asked g p i c f h hc hf
  · intro g mask q reg
    rcases clearKernel_reg reg with ⟨old, reg⟩ | ⟨hg, hq⟩
    · obtain ⟨own, h⟩ := refs.reg g old q reg
      exact ⟨own, alive q h⟩
    · rw [hq]
      exact ⟨hg.symm, alive ptr live⟩
  · refine
      { ready := clearKernel_ready, queued := fun g off => ?_, live := alive
        item := attached, grow := List.Subset.refl D
        forth := fun p c hc => ⟨c, hc, .refl c⟩, back := fun p c hc => ⟨c, hc, .refl c⟩
        raised := fun ev hev p i c f h hc hf wanted => ?_ }
    · exact clearKernel_queued_ne (off (ptr, events) (by simp))
    · obtain rfl := List.mem_singleton.mp hev
      exact absurd (spare p i c f h hc hf) wanted

variable [DecidableEq P]

/-- The dispatch list once `p` is on it. -/
def enlist (D : List P) (p : P) : List P := if p ∈ D then D else D ++ [p]

theorem mem_enlist {q : P} : q ∈ enlist D p ↔ q ∈ D ∨ q = p := by
  unfold enlist
  split_ifs with mem
  · constructor
    · exact .inl
    · rintro (h | rfl)
      · exact h
      · exact mem
  · simp

theorem record_calls (calls : Calls n D) (ctx : n.ctx p = some c) (entry : c.fds[i]? = some f)
    (unseen : f.revents = 0) (within : Within events pollMask) (wanted : events ≠ 0) :
    Calls (raised n p c i f events) (enlist D p) := by
  obtain ⟨hi, hf⟩ := List.getElem?_eq_some_iff.mp entry
  have self : (raised n p c i f events).ctx p = .some
      { c with
        fds := c.fds.set i { f with revents := epollEvent2poll events }
        numRaise := c.numRaise + 1 } := by
    simp [raised]
  have others : ∀ q, q ≠ p → (raised n p c i f events).ctx q = n.ctx q := by
    intro q hq
    simp [raised, hq]
  have empty : listEmpty n.links (.item p) = true ↔ p ∉ D := by
    rw [calls.rings.empty_iff]
    exact forall_const _
  constructor
  · rw [raised, enlist]
    by_cases mem : p ∈ D
    · rw [if_pos mem, if_neg fun h => empty.mp h mem]
      exact calls.rings
    · rw [if_neg mem, if_pos (empty.mpr mem)]
      have rings := calls.rings.append (fun _ => mem) ()
      have all : Function.update (fun _ : Unit => D) () (D ++ [p]) = fun _ => D ++ [p] := by
        funext k
        exact Function.update_self ..
      rwa [all] at rings
  · intro q
    have armed : (raised n p c i f events).armed =
        if 0 ≤ c.timeout then Function.update n.armed p false else n.armed := rfl
    by_cases hq : q = p
    · subst hq
      refine iff_of_false ?_ fun h => h.1 (mem_enlist.mpr (.inr rfl))
      rw [armed]
      by_cases timed : 0 ≤ c.timeout
      · simp [timed]
      · rw [if_neg timed, calls.armed q]
        rintro ⟨-, c', hc, pos⟩
        obtain rfl : c = c' := Option.some.inj (ctx.symm.trans hc)
        exact timed pos
    · have same : (raised n p c i f events).armed q = n.armed q := by
        rw [armed]
        split_ifs <;> simp [hq]
      rw [same, others q hq, mem_enlist, calls.armed q]
      simp [hq]
  · intro q mem
    by_cases hq : q = p
    · rw [hq, self]
      exact ⟨_, rfl, Nat.succ_pos _⟩
    · rw [others q hq]
      exact calls.queued q ((mem_enlist.mp mem).resolve_right hq)
  · intro q c' hc off
    rw [mem_enlist, not_or] at off
    rw [others q off.2] at hc
    exact calls.idle q c' hc off.1
  · intro q c' hc
    by_cases hq : q = p
    · rw [hq, self, Option.some.injEq] at hc
      rw [← hc]
      exact calls.retcode p c ctx
    · rw [others q hq] at hc
      exact calls.retcode q c' hc
  · intro q c' hc
    by_cases hq : q = p
    · rw [hq, self, Option.some.injEq] at hc
      rw [← hc, List.countP_set hi, hf]
      have old := calls.raise p c ctx
      have result := epollEvent2poll_ne_zero within wanted
      rw [if_neg (by simp [unseen]), if_pos (by simpa using result), old]
      rfl
    · rw [others q hq] at hc
      exact calls.raise q c' hc

theorem record_refs (refs : Refs n D lost) (h : Attached n ptr.fd p i) (ctx : n.ctx p = some c)
    (entry : c.fds[i]? = some f) (unseen : f.revents = 0) (within : Within events pollMask)
    (wanted : events ≠ 0) {all : Events} :
    Refs (raised n p c i f events) (enlist D p) lost ∧
      Passed n (raised n p c i f events) [(ptr, all)] D (enlist D p) := by
  obtain ⟨hi, hf⟩ := List.getElem?_eq_some_iff.mp entry
  have num : f.fd.toNat = ptr.fd := by
    obtain ⟨c', f', hc, hf, e⟩ := refs.back ptr.fd p i h
    obtain rfl : c = c' := Option.some.inj (ctx.symm.trans hc)
    obtain rfl : f = f' := Option.some.inj (entry.symm.trans hf)
    rw [e, Int.toNat_natCast]
  set c' : PollCtx :=
    { c with
      fds := c.fds.set i { f with revents := epollEvent2poll events }
      numRaise := c.numRaise + 1 } with hc'
  have asks : Asks [(ptr, all)] c c' := by
    refine ⟨rfl, rfl, rfl, by simp [hc'], fun j f₀ hf₀ => ?_⟩
    by_cases hj : j = i
    · subst hj
      obtain rfl : f = f₀ := Option.some.inj (entry.symm.trans hf₀)
      exact ⟨_, List.getElem?_set_self hi, rfl, rfl,
        fun off => absurd num (off (ptr, all) (by simp))⟩
    · exact ⟨f₀, by rw [hc', List.getElem?_set_ne (Ne.symm hj), hf₀], rfl, rfl, fun _ => rfl⟩
  have forth : ∀ q c₀, n.ctx q = some c₀ →
      ∃ c₁, (raised n p c i f events).ctx q = some c₁ ∧ Asks [(ptr, all)] c₀ c₁ := by
    intro q c₀ hc
    by_cases hq : q = p
    · obtain rfl : c = c₀ := Option.some.inj (ctx.symm.trans (hq ▸ hc))
      exact ⟨c', by simp [raised, hq, hc'], asks⟩
    · exact ⟨c₀, by simpa [raised, hq] using hc, .refl c₀⟩
  have back : ∀ q c₁, (raised n p c i f events).ctx q = some c₁ →
      ∃ c₀, n.ctx q = some c₀ ∧ Asks [(ptr, all)] c₀ c₁ := by
    intro q c₁ hc
    by_cases hq : q = p
    · obtain rfl : c' = c₁ := by simpa [raised, hq, hc'] using hc
      exact ⟨c, hq ▸ ctx, asks⟩
    · exact ⟨c₁, by simpa [raised, hq] using hc, .refl c₁⟩
  constructor
  · refine { toCalls := record_calls refs.toCalls ctx entry unseen within wanted, reg := refs.reg
             back := ?_, pend := ?_, asked := ?_, cached := ?_ }
    · intro g q j hg
      obtain ⟨c₀, f₀, hc, hf₀, e⟩ := refs.back g q j hg
      obtain ⟨c₁, hc₁, a⟩ := forth q c₀ hc
      obtain ⟨f₁, hf₁, same⟩ := a.entry j f₀ hf₀
      exact ⟨c₁, f₁, hc₁, hf₁, same.fd.trans e⟩
    · intro q c₁ j f₁ hc₁ hf₁ keep
      obtain ⟨c₀, hc, a⟩ := back q c₁ hc₁
      obtain ⟨f₀, hf₀, same⟩ := a.entry_back hf₁
      rw [same.fd] at keep ⊢
      exact refs.pend q c₀ j f₀ hc hf₀ keep
    · intro g q j c₁ f₁ hg hc₁ hf₁
      obtain ⟨c₀, hc, a⟩ := back q c₁ hc₁
      obtain ⟨f₀, hf₀, same⟩ := a.entry_back hf₁
      rw [same.events]
      exact refs.asked g q j c₀ f₀ hg hc hf₀
    · intro q c₁ ptr' hc₁ hptr
      obtain ⟨c₀, hc, a⟩ := back q c₁ hc₁
      exact refs.cached q c₀ ptr' hc (a.waitItem ▸ hptr)
  · refine
      { ready := rfl, queued := fun _ _ => rfl, live := fun _ => id
        item := fun _ _ _ => Iff.rfl, grow := fun q mem => mem_enlist.mpr (.inl mem)
        forth := forth, back := back, raised := fun ev hev q j c₀ f₀ hq hc hf₀ _ => ?_ }
    obtain rfl := List.mem_singleton.mp hev
    exact mem_enlist.mpr (.inr (hq.unique h).1)

/-- An event of a batch: it does not abort, and no wait item that it uses has been freed. -/
theorem notify_refs (refs : Refs n D lost) (events : Events) (live : Live n ptr)
    (unseen : ∀ p (c : PollCtx) (i : ℕ) (f : PollFd), n.ctx p = some c → c.fds[i]? = some f →
      f.fd.toNat = ptr.fd → f.revents = 0) :
    ∃ n' D', fdNotifyEventsToPoll n ptr events = .ok n' ∧ Refs n' D' lost ∧
      Passed n n' [(ptr, events)] D D' := by
  obtain ⟨w, item⟩ := Option.isSome_iff_exists.mp live.1
  have self : itemOr n ptr.fd = w := by simp [itemOr, item]
  have found : deref n ptr = .ok w := by simp [deref, item, live.2]
  unfold fdNotifyEventsToPoll
  rw [found]
  dsimp only
  cases pollCtx : w.pollCtx with
  | none =>
    refine ⟨_, D, rfl, clear_refs refs live item fun p i c f h => ?_⟩
    exact absurd (self ▸ pollCtx) h.ne_none
  | some p =>
    have h : Attached n ptr.fd p w.pos := by simp [Attached, self, pollCtx]
    obtain ⟨c, f, ctx, entry, num⟩ := refs.back ptr.fd p w.pos h
    dsimp only
    rw [ctx]
    dsimp only
    rw [entry]
    dsimp only
    by_cases none : pollEvent2epoll f.events &&& events = 0
    · rw [if_neg (not_not.mpr none)]
      refine ⟨_, D, rfl, clear_refs refs live item fun q j c' f' hq hc hf => ?_⟩
      obtain ⟨rfl, rfl⟩ := hq.unique h
      obtain rfl : c = c' := Option.some.inj (ctx.symm.trans hc)
      obtain rfl : f = f' := Option.some.inj (entry.symm.trans hf)
      exact none
    · rw [if_pos none]
      refine ⟨_, enlist D p, rfl, record_refs refs h ctx entry ?_ ?_ none⟩
      · exact unseen p c w.pos f ctx entry (by rw [num, Int.toNat_natCast])
      · intro b hb
        simp only [BitVec.getLsbD_and, Bool.and_eq_true] at hb
        exact within_and b hb.1

omit [DecidableEq P] in
/-- The entries of the other descriptors have still got no result. -/
theorem Passed.unseen (passed : Passed n n₁ evs D D₁) {gs : List Fd} (off : ∀ ev ∈ evs, ev.1.fd ∉ gs)
    (unseen : ∀ p (c : PollCtx) (i : ℕ) (f : PollFd), n.ctx p = some c → c.fds[i]? = some f →
      f.fd.toNat ∈ gs → f.revents = 0)
    (p : P) (c₁ : PollCtx) (i : ℕ) (f₁ : PollFd) (hc₁ : n₁.ctx p = some c₁)
    (hf₁ : c₁.fds[i]? = some f₁) (mem : f₁.fd.toNat ∈ gs) : f₁.revents = 0 := by
  obtain ⟨c, hc, asks⟩ := passed.back p c₁ hc₁
  obtain ⟨f, hf, same⟩ := asks.entry_back hf₁
  rw [same.fd] at mem
  rw [same.revents, unseen p c i f hc hf mem]
  intro ev hev num
  exact off ev hev (num ▸ mem)

theorem notifyAll_refs (refs : Refs n D lost) (nodup : (evs.map fun ev => ev.1.fd).Nodup)
    (live : ∀ ev ∈ evs, Live n ev.1)
    (unseen : ∀ p (c : PollCtx) (i : ℕ) (f : PollFd), n.ctx p = some c → c.fds[i]? = some f →
      f.fd.toNat ∈ evs.map (fun ev => ev.1.fd) → f.revents = 0) :
    ∃ n' D', notifyAll evs n = .ok n' ∧ Refs n' D' lost ∧ Passed n n' evs D D' := by
  induction evs generalizing n D with
  | nil => exact ⟨n, D, rfl, refs, .refl⟩
  | cons ev evs ih =>
    obtain ⟨ptr, events⟩ := ev
    rw [List.map_cons, List.nodup_cons] at nodup
    obtain ⟨n₁, D₁, ok, refs₁, passed⟩ := notify_refs refs events (live (ptr, events) (by simp))
      fun p c i f hc hf num => unseen p c i f hc hf (by simp [num])
    have unseen₁ := passed.unseen (by simpa using nodup.1) fun p c i f hc hf mem =>
      unseen p c i f hc hf (List.mem_cons_of_mem _ mem)
    obtain ⟨n', D', oks, refs', passes⟩ := ih refs₁ nodup.2
      (fun ev hev => passed.live _ (live ev (by simp [hev]))) unseen₁
    refine ⟨n', D', ?_, refs', passed.trans passes⟩
    rw [Network.notifyAll, ok]
    exact oks

end Batches

end Conet.Core.NetworkBatch
