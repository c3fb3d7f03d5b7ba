/- Module: Conet/Core/NetworkPoll
   source: core/src/network.cpp
   digest: What wait items, timers and the dispatch list know of the pending calls of co_poll. -/

import Conet.Core.Network

set_option autoImplicit false
set_option relaxedAutoImplicit false

namespace Conet.Core.NetworkPoll

open Conet.Lib Conet.Lib.Epoll Conet.Base.ListHead Conet.Base.ListRings Conet.Core.Network

universe u

variable {P : Type u}

/-- The wait item of `fd` waits for the entry `i` of the call `p`. -/
def Attached (n : Net P) (fd : Fd) (p : P) (i : ℕ) : Prop :=
  (itemOr n fd).pollCtx = some p ∧ (itemOr n fd).pos = i

def nums (fds : List PollFd) : List Fd := fds.map fun f => f.fd.toNat

/-- The pending calls, of which `D` are on the dispatch list, oldest first. -/
structure Calls (n : Net P) (D : List P) : Prop where
  rings : Rings n.links (fun _ : Unit => D)
  armed : ∀ p, n.armed p = true ↔ p ∉ D ∧ ∃ c, n.ctx p = some c ∧ 0 ≤ c.timeout
  queued : ∀ p, p ∈ D → ∃ c, n.ctx p = some c ∧ 0 < c.numRaise
  idle : ∀ p c, n.ctx p = some c → p ∉ D → c.numRaise = 0
  retcode : ∀ p c, n.ctx p = some c → c.retcode = 0
  raise : ∀ p c, n.ctx p = some c → c.numRaise = c.fds.countP fun f => f.revents ≠ 0

/-- The references to the pending calls: the wait item of an entry waits for it, unless its
descriptor is `lost` to the call. -/
structure Refs (n : Net P) (D : List P) (lost : P → Fd → Prop) : Prop extends Calls n D where
  reg : ∀ fd mask ptr, n.kernel.reg fd = some (mask, ptr) → ptr.fd = fd ∧ Live n ptr
  back : ∀ fd p i, Attached n fd p i →
    ∃ c f, n.ctx p = some c ∧ c.fds[i]? = some f ∧ f.fd = (fd : ℤ)
  pend : ∀ p c i f, n.ctx p = some c → c.fds[i]? = some f → ¬ lost p f.fd.toNat →
    0 ≤ f.fd ∧ Attached n f.fd.toNat p i
  asked : ∀ fd p i c f, Attached n fd p i → n.ctx p = some c → c.fds[i]? = some f →
    Within (pollEvent2epoll f.events) (itemOr n fd).waitEvents
  cached : ∀ p c ptr, n.ctx p = some c → c.waitItem = some ptr →
    Live n ptr ∧ Attached n ptr.fd p 0

/-- The contexts of one call, apart from the coroutine and the cached wait item. -/
structure SameCall (c c' : PollCtx) : Prop where
  fds : c'.fds = c.fds
  timeout : c'.timeout = c.timeout
  numRaise : c'.numRaise = c.numRaise
  retcode : c'.retcode = c.retcode

/-- The calls that are pending are the same. -/
structure SameCalls (n n' : Net P) : Prop where
  forth : ∀ p c, n.ctx p = some c → ∃ c', n'.ctx p = some c' ∧ SameCall c c'
  back : ∀ p c', n'.ctx p = some c' → ∃ c, n.ctx p = some c ∧ SameCall c c'

section Frames

variable {n n' : Net P} {D : List P} {lost lost' : P → Fd → Prop} {p : P} {fd : Fd} {i : ℕ}

theorem Refs.weaken (refs : Refs n D lost)
    (more : ∀ p (c : PollCtx) (i : ℕ) (f : PollFd), n.ctx p = some c → c.fds[i]? = some f →
      lost p f.fd.toNat → lost' p f.fd.toNat) : Refs n D lost' :=
  { refs with
    pend := fun p c i f hc hf keep => refs.pend p c i f hc hf fun h => keep (more p c i f hc hf h) }

theorem SameCall.refl (c : PollCtx) : SameCall c c := ⟨rfl, rfl, rfl, rfl⟩

theorem SameCalls.of_eq (ctx : n'.ctx = n.ctx) : SameCalls n n' :=
  ⟨fun _ c hc => ⟨c, by rw [ctx, hc], .refl c⟩, fun _ c hc => ⟨c, by rw [← ctx, hc], .refl c⟩⟩

theorem Calls.congr (calls : Calls n D) (links : n'.links = n.links) (armed : n'.armed = n.armed)
    (same : SameCalls n n') : Calls n' D where
  rings := links ▸ calls.rings
  armed := by
    intro p
    rw [armed, calls.armed p]
    refine and_congr_right fun _ => ⟨fun ⟨c, hc, pos⟩ => ?_, fun ⟨c', hc, pos⟩ => ?_⟩
    · obtain ⟨c', hc, e⟩ := same.forth p c hc
      exact ⟨c', hc, e.timeout ▸ pos⟩
    · obtain ⟨c, hc, e⟩ := same.back p c' hc
      exact ⟨c, hc, e.timeout ▸ pos⟩
  queued := by
    intro p mem
    obtain ⟨c, hc, pos⟩ := calls.queued p mem
    obtain ⟨c', hc, e⟩ := same.forth p c hc
    exact ⟨c', hc, e.numRaise ▸ pos⟩
  idle := by
    intro p c' hc
    obtain ⟨c, hc, e⟩ := same.back p c' hc
    exact e.numRaise ▸ calls.idle p c hc
  retcode := by
    intro p c' hc
    obtain ⟨c, hc, e⟩ := same.back p c' hc
    exact e.retcode ▸ calls.retcode p c hc
  raise := by
    intro p c' hc
    obtain ⟨c, hc, e⟩ := same.back p c' hc
    rw [e.numRaise, e.fds]
    exact calls.raise p c hc

theorem Refs.congr (refs : Refs n D lost) (calls : Calls n' D) (ctx : SameCalls n n')
    (waitItem : ∀ p c, n'.ctx p = some c → ∃ c₀, n.ctx p = some c₀ ∧ c.waitItem = c₀.waitItem)
    (item : ∀ fd p i, Attached n' fd p i ↔ Attached n fd p i)
    (asked : ∀ fd p i c f, Attached n fd p i → n.ctx p = some c → c.fds[i]? = some f →
      Within (pollEvent2epoll f.events) (itemOr n' fd).waitEvents)
    (live : ∀ ptr, Live n ptr → Live n' ptr)
    (reg : ∀ fd mask ptr, n'.kernel.reg fd = some (mask, ptr) → ptr.fd = fd ∧ Live n' ptr) :
    Refs n' D lost where
  toCalls := calls
  reg := reg
  back := by
    intro fd p i h
    obtain ⟨c, f, hc, hf, e⟩ := refs.back fd p i ((item fd p i).mp h)
    obtain ⟨c', hc, same⟩ := ctx.forth p c hc
    exact ⟨c', f, hc, same.fds ▸ hf, e⟩
  pend := by
    intro p c' i f hc hf keep
    obtain ⟨c, hc, same⟩ := ctx.back p c' hc
    rw [item]
    exact refs.pend p c i f hc (same.fds ▸ hf) keep
  asked := by
    intro fd p i c' f h hc hf
    obtain ⟨c, hc, same⟩ := ctx.back p c' hc
    exact asked fd p i c f ((item fd p i).mp h) hc (same.fds ▸ hf)
  cached := by
    intro p c ptr hc hptr
    obtain ⟨c₀, hc, e⟩ := waitItem p c hc
    obtain ⟨alive, attached⟩ := refs.cached p c₀ ptr hc (e ▸ hptr)
    exact ⟨live ptr alive, (item _ _ _).mpr attached⟩

/-- What only concerns the kernel's events, the loop and the coroutines of the calls. -/
theorem Refs.same (refs : Refs n D lost) (item : n'.item = n.item) (gen : n'.gen = n.gen)
    (reg : n'.kernel.reg = n.kernel.reg) (calls : Calls n' D) (ctx : SameCalls n n')
    (waitItem : ∀ p c, n'.ctx p = some c → ∃ c₀, n.ctx p = some c₀ ∧ c.waitItem = c₀.waitItem) :
    Refs n' D lost := by
  have items : itemOr n' = itemOr n := by
    funext fd
    simp [itemOr, item]
  have live : ∀ ptr, Live n ptr → Live n' ptr := by
    intro ptr live
    rwa [Live, item, gen]
  refine refs.congr calls ctx waitItem (fun fd p i => by simp [Attached, items]) ?_ live ?_
  · rw [items]
    exact refs.asked
  · rw [reg]
    intro fd mask ptr h
    obtain ⟨own, alive⟩ := refs.reg fd mask ptr h
    exact ⟨own, live ptr alive⟩

theorem Attached.unique {q : P} {j : ℕ} (h : Attached n fd p i) (h' : Attached n fd q j) :
    p = q ∧ i = j :=
  ⟨Option.some.inj (h.1.symm.trans h'.1), h.2.symm.trans h'.2⟩

theorem Attached.ne_none (h : Attached n fd p i) : (itemOr n fd).pollCtx ≠ none := by
  rw [h.1]
  simp

theorem Refs.init : Refs (Net.init : Net P) [] fun _ _ => False where
  rings := ⟨fun _ => Circular.nil_iff.mpr ⟨rfl, rfl⟩, fun _ _ => Circular.nil_iff.mpr ⟨rfl, rfl⟩⟩
  reg := by simp [Net.init, Kernel.init]
  back := by simp [Attached, itemOr, Net.init, WaitItem.new]
  pend := by simp [Net.init]
  asked := by simp [Net.init]
  cached := by simp [Net.init]
  armed := by simp [Net.init]
  queued := by simp
  idle := by simp [Net.init]
  retcode := by simp [Net.init]
  raise := by simp [Net.init]

end Frames

section Registers

variable {k : Kernel Fd Ptr} {ptr q : Ptr} {m mask waitEvents : Events} {g : Fd}

/-- The only registration that an `epoll_ctl` makes has the wait item of its descriptor. -/
theorem interestKernel_reg (reg : (interestKernel k ptr waitEvents m).1.reg g = some (mask, q)) :
    (∃ mask, k.reg g = some (mask, q)) ∨ (g = ptr.fd ∧ q = ptr) := by
  by_cases hg : g = ptr.fd
  · unfold interestKernel Kernel.mod Kernel.add Kernel.arm at reg
    split_ifs at reg <;> simp_all
  · rw [interestKernel_reg_ne hg] at reg
    exact .inl ⟨mask, reg⟩

end Registers

section Polls

variable [DecidableEq P] {n n' : Net P} {D : List P} {lost : P → Fd → Prop} {p : P} {i : ℕ}
  {f : PollFd} {fds : List PollFd} {c : PollCtx} {timeout : ℤ}

/-- The context of a call before the loop of `poll_ctx_t::init`. -/
def newCtx (fds : List PollFd) (timeout : ℤ) : PollCtx where
  fds := fds.map fun f => { f with revents := 0 }
  timeout := timeout
  numRaise := 0
  retcode := 0
  coroutine := false
  waitItem := none

theorem polling_ctx :
    (polling n p fds timeout).ctx = Function.update n.ctx p (some (newCtx fds timeout)) := rfl

theorem SameCalls.update {c' : PollCtx} (ctx : n.ctx p = some c) (same : SameCall c c')
    (h : n'.ctx = Function.update n.ctx p (some c')) : SameCalls n n' := by
  constructor
  · intro q c₀ hc
    rw [h]
    by_cases hq : q = p
    · obtain rfl : c = c₀ := Option.some.inj (ctx.symm.trans (hq ▸ hc))
      exact ⟨c', by rw [hq, Function.update_self], same⟩
    · exact ⟨c₀, by rw [Function.update_of_ne hq, hc], .refl c₀⟩
  · intro q c₁ hc
    rw [h] at hc
    by_cases hq : q = p
    · rw [hq, Function.update_self, Option.some.injEq] at hc
      exact ⟨c, hq ▸ ctx, hc ▸ same⟩
    · exact ⟨c₁, by rwa [Function.update_of_ne hq] at hc, .refl c₁⟩

omit [DecidableEq P] in
theorem Calls.off (calls : Calls n D) (fresh : n.ctx p = none) : p ∉ D := by
  intro mem
  obtain ⟨c, hc, -⟩ := calls.queued p mem
  simp [fresh] at hc

/-- A call that is being set up is in no list, with no event yet. -/
theorem Calls.start (calls : Calls n D) (fds : List PollFd) (timeout : ℤ) (fresh : n.ctx p = none) :
    Calls (polling n p fds timeout) D ∧ (polling n p fds timeout).links = n.links := by
  have off := calls.off fresh
  have links : (polling n p fds timeout).links = n.links :=
    initListHead_of_nil (calls.rings.alone p fun _ => off)
  have others : ∀ q, q ≠ p → (polling n p fds timeout).ctx q = n.ctx q := by
    intro q hq
    simp [polling, hq]
  refine ⟨?_, links⟩
  constructor
  · exact links ▸ calls.rings
  · intro q
    by_cases hq : q = p
    · simp [polling, hq, off]
    · rw [others q hq]
      simpa [polling, hq] using calls.armed q
  · intro q mem
    rw [others q fun e => off (e ▸ mem)]
    exact calls.queued q mem
  all_goals
    intro q c hc
    by_cases hq : q = p
    · rw [hq, polling_ctx, Function.update_self, Option.some.injEq] at hc
      simp [← hc, newCtx, Function.comp_def]
    · rw [others q hq] at hc
      first
      | exact calls.idle q c hc
      | exact calls.retcode q c hc
      | exact calls.raise q c hc

theorem Refs.start (refs : Refs n D lost) (fresh : n.ctx p = none) :
    Refs (polling n p fds timeout) D fun q g => q = p ∨ lost q g := by
  have others : ∀ q, q ≠ p → (polling n p fds timeout).ctx q = n.ctx q := by
    intro q hq
    simp [polling, hq]
  have apart : ∀ fd q j, Attached n fd q j → q ≠ p := by
    rintro fd q j h rfl
    obtain ⟨c, -, hc, -⟩ := refs.back fd q j h
    simp [fresh] at hc
  refine { toCalls := (refs.toCalls.start fds timeout fresh).1, reg := refs.reg, back := ?_, pend := ?_
           asked := ?_, cached := ?_ }
  · intro fd q j h
    rw [others q (apart fd q j h)]
    exact refs.back fd q j h
  · intro q c j f hc hf keep
    obtain ⟨hq, keep⟩ := not_or.mp keep
    rw [others q hq] at hc
    exact refs.pend q c j f hc hf keep
  · intro fd q j c f h hc hf
    rw [others q (apart fd q j h)] at hc
    exact refs.asked fd q j c f h hc hf
  · intro q c ptr hc hptr
    by_cases hq : q = p
    · rw [hq, polling_ctx, Function.update_self, Option.some.injEq] at hc
      simp [← hc, newCtx] at hptr
    · rw [others q hq] at hc
      exact refs.cached q c ptr hc hptr

/-- The pointers that a turn of `poll_ctx_t::init` leaves, and the one that it makes. -/
theorem inits_live (inits : Inits n n' p i f c) :
    (∀ ptr, Live n ptr → Live n' ptr) ∧ Live n' ⟨f.fd.toNat, n'.gen f.fd.toNat⟩ := by
  constructor
  · intro ptr live
    obtain ⟨some, gen⟩ := getWaitItem_live live f.fd.toNat
    rw [Live, inits.item, inits.gen]
    refine ⟨?_, gen⟩
    by_cases hg : ptr.fd = f.fd.toNat
    · simp [hg]
    · simpa [hg] using live.1
  · simp [Live, inits.item]

/-- No descriptor stands twice in a call. -/
theorem nums_inj {fds : List PollFd} {f' : PollFd} {j : ℕ} (nodup : (nums fds).Nodup)
    (hf : fds[j]? = some f') (entry : fds[i]? = some f) (num : f'.fd.toNat = f.fd.toNat) : j = i := by
  obtain ⟨hj, hf⟩ := List.getElem?_eq_some_iff.mp hf
  obtain ⟨hi, entry⟩ := List.getElem?_eq_some_iff.mp entry
  have same := @List.Nodup.getElem_inj_iff _ _ nodup j (by simpa [nums] using hj) i
    (by simpa [nums] using hi)
  apply same.mp
  simpa [nums, hf, entry] using num

/-- A turn of `poll_ctx_t::init`: its entry is no longer lost. -/
theorem Refs.turn (refs : Refs n D lost) (ctx : n.ctx p = some c) (entry : c.fds[i]? = some f)
    (nodup : (nums c.fds).Nodup) (inits : Inits n n' p i f c) :
    Refs n' D fun q g => lost q g ∧ ¬ (q = p ∧ g = f.fd.toNat) := by
  obtain ⟨live, made⟩ := inits_live inits
  have item : ∀ g, itemOr n' g = if g = f.fd.toNat then
      ⟨some p, i, pollEvent2epoll f.events ||| (itemOr n f.fd.toNat).waitEvents⟩
      else itemOr n g := by
    intro g
    by_cases hg : g = f.fd.toNat <;> simp [itemOr, inits.item, hg]
  have attached : Attached n' f.fd.toNat p i := by simp [Attached, item]
  have others : ∀ g, g ≠ f.fd.toNat → ∀ q j, Attached n' g q j ↔ Attached n g q j := by
    intro g hg q j
    simp [Attached, item, hg]
  have free : ∀ g q j, Attached n g q j → g ≠ f.fd.toNat := by
    rintro g q j h rfl
    exact h.ne_none inits.free
  -- only the cached wait item of the call has changed
  have same : SameCalls n n' := by
    refine .update ctx ?_ inits.ctx
    split_ifs <;> exact ⟨rfl, rfl, rfl, rfl⟩
  refine { toCalls := refs.toCalls.congr inits.links inits.armed same, reg := ?_, back := ?_
           pend := ?_, asked := ?_, cached := ?_ }
  · intro g mask ptr reg
    rw [inits.kernel] at reg
    rcases interestKernel_reg reg with ⟨old, reg⟩ | ⟨hg, hptr⟩
    · obtain ⟨own, alive⟩ := refs.reg g old ptr reg
      exact ⟨own, live ptr alive⟩
    · rw [hptr]
      exact ⟨hg.symm, made⟩
  · intro g q j h
    by_cases hg : g = f.fd.toNat
    · subst hg
      obtain ⟨rfl, rfl⟩ := h.unique attached
      obtain ⟨c', hc, e⟩ := same.forth _ c ctx
      exact ⟨c', f, hc, e.fds ▸ entry, by rw [Int.toNat_of_nonneg inits.pos]⟩
    · obtain ⟨c₀, f', hc, hf, num⟩ := refs.back g q j ((others g hg q j).mp h)
      obtain ⟨c', hc, e⟩ := same.forth q c₀ hc
      exact ⟨c', f', hc, e.fds ▸ hf, num⟩
  · intro q c' j f' hc hf keep
    obtain ⟨c₀, hc₀, e⟩ := same.back q c' hc
    rw [e.fds] at hf
    by_cases this : q = p ∧ f'.fd.toNat = f.fd.toNat
    · obtain ⟨rfl, num⟩ := this
      obtain rfl : c₀ = c := Option.some.inj (hc₀.symm.trans ctx)
      obtain rfl := nums_inj nodup hf entry num
      obtain rfl : f' = f := Option.some.inj (hf.symm.trans entry)
      exact ⟨inits.pos, attached⟩
    · obtain ⟨pos, h⟩ := refs.pend q c₀ j f' hc₀ hf fun h => keep ⟨h, this⟩
      exact ⟨pos, (others _ (free _ q j h) q j).mpr h⟩
  · intro g q j c' f' h hc hf
    obtain ⟨c₀, hc₀, e⟩ := same.back q c' hc
    rw [e.fds] at hf
    by_cases hg : g = f.fd.toNat
    · subst hg
      obtain ⟨rfl, rfl⟩ := h.unique attached
      obtain rfl : c₀ = c := Option.some.inj (hc₀.symm.trans ctx)
      obtain rfl : f' = f := Option.some.inj (hf.symm.trans entry)
      rw [item, if_pos rfl]
      intro b hb
      simp [hb]
    · rw [item, if_neg hg]
      exact refs.asked g q j c₀ f' ((others g hg q j).mp h) hc₀ hf
  · intro q c' ptr hc hptr
    rw [inits.ctx] at hc
    have old : ∀ c₀, n.ctx q = some c₀ → c₀.waitItem = some ptr →
        Live n' ptr ∧ Attached n' ptr.fd q 0 := by
      intro c₀ hc₀ hptr
      obtain ⟨alive, h⟩ := refs.cached q c₀ ptr hc₀ hptr
      exact ⟨live ptr alive, (others _ (free _ q 0 h) q 0).mpr h⟩
    by_cases hq : q = p
    · subst hq
      rw [Function.update_self, Option.some.injEq] at hc
      by_cases first : i = 0
      · subst first
        rw [if_pos rfl] at hc
        obtain rfl : _ = ptr := Option.some.inj (hc ▸ hptr)
        exact ⟨made, attached⟩
      · rw [if_neg first] at hc
        exact old c ctx (hc ▸ hptr)
    · rw [Function.update_of_ne hq] at hc
      exact old c' hc hptr

/-- The loop of `poll_ctx_t::init` changes nothing else. -/
theorem initAll_same (all : InitAll p i fds n n') :
    n'.armed = n.armed ∧ n'.links = n.links ∧ n'.loop = n.loop := by
  induction all with
  | nil => exact ⟨rfl, rfl, rfl⟩
  | cons ctx inits rest ih =>
    exact ⟨ih.1.trans inits.armed, ih.2.1.trans inits.links, ih.2.2.trans inits.loop⟩

theorem initAll_ctx (all : InitAll p i fds n n') (ctx : n.ctx p = some c) :
    ∃ w, n'.ctx = Function.update n.ctx p (some { c with waitItem := w }) ∧
      (c.waitItem.isSome ∨ i = 0 ∧ fds ≠ [] → w.isSome) := by
  induction all generalizing c with
  | nil =>
    refine ⟨c.waitItem, ?_, by simp⟩
    rw [← ctx, Function.update_eq_self]
  | cons ctx₀ inits rest ih =>
    obtain rfl := Option.some.inj (ctx₀.symm.trans ctx)
    have ctx₁ := congrFun inits.ctx p
    rw [Function.update_self] at ctx₁
    obtain ⟨w, hw, cached⟩ := ih ctx₁
    refine ⟨w, ?_, fun h => cached (.inl ?_)⟩
    · rw [hw, inits.ctx, Function.update_idem]
      split_ifs <;> rfl
    · split_ifs with first
      · rfl
      · exact h.resolve_right fun h => first h.1

/-- A descriptor that stands twice in a call is found with the call on it. -/
theorem initAll_nodup (all : InitAll p i fds n n') :
    (∀ g ∈ nums fds, (itemOr n g).pollCtx = none) ∧ (nums fds).Nodup := by
  induction all with
  | nil => simp [nums]
  | @cons i f fs n n₁ n' c ctx inits rest ih =>
    obtain ⟨free, nodup⟩ := ih
    have taken : (itemOr n₁ f.fd.toNat).pollCtx = some p := by simp [itemOr, inits.item]
    have apart : f.fd.toNat ∉ nums fs := by
      intro mem
      simp [free _ mem] at taken
    refine ⟨fun g hg => ?_, List.nodup_cons.mpr ⟨apart, nodup⟩⟩
    rcases List.mem_cons.mp hg with rfl | hg
    · exact inits.free
    · have hne : g ≠ f.fd.toNat := fun e => apart (e ▸ hg)
      simpa [itemOr, inits.item, hne] using free g hg

theorem Refs.initAll (refs : Refs n D lost) (ctx : n.ctx p = some c) (nodup : (nums c.fds).Nodup)
    (entries : ∀ j f, fds[j]? = some f → c.fds[i + j]? = some f) (all : InitAll p i fds n n') :
    Refs n' D fun q g => lost q g ∧ ¬ (q = p ∧ g ∈ nums fds) := by
  induction all generalizing c lost with
  | nil => exact refs.weaken fun q c j f hc hf h => by simpa [nums] using h
  | @cons i f fs n n₁ n' c₀ ctx₀ inits rest ih =>
    obtain rfl := Option.some.inj (ctx₀.symm.trans ctx)
    have refs₁ := refs.turn ctx (entries 0 f rfl) nodup inits
    have ctx₁ := congrFun inits.ctx p
    rw [Function.update_self] at ctx₁
    have fds₁ : (if i = 0 then { c₀ with waitItem := some ⟨f.fd.toNat, n₁.gen f.fd.toNat⟩ }
        else c₀ : PollCtx).fds = c₀.fds := by
      split_ifs <;> rfl
    have refs' := ih refs₁ ctx₁ (by rw [fds₁]; exact nodup) fun j f' hf => by
      rw [fds₁, Nat.add_right_comm, Nat.add_assoc]
      exact entries (j + 1) f' (by simpa using hf)
    refine refs'.weaken fun q c j f' hc hf h => ⟨h.1.1, fun ⟨hq, mem⟩ => ?_⟩
    rcases List.mem_cons.mp mem with e | mem
    · exact h.1.2 ⟨hq, e⟩
    · exact h.2 ⟨hq, mem⟩

/-- A poll that is set up: all its entries are its own, and the other calls keep theirs. -/
theorem Refs.coPoll (refs : Refs n D lost) (fresh : n.ctx p = none)
    (polls : coPoll n p fds timeout = .ok n') :
    Refs n' D (fun q g => q ≠ p ∧ lost q g) ∧ n'.links = n.links ∧ n'.loop = n.loop ∧
      ∃ c, n'.ctx = Function.update n.ctx p (some c) ∧
        c.fds = fds.map (fun f => { f with revents := 0 }) ∧ c.timeout = timeout ∧
        c.coroutine = true ∧ (fds ≠ [] → c.waitItem.isSome) := by
  obtain ⟨n₁, c, all, ctx, rfl⟩ := coPoll_ok polls
  obtain ⟨-, started⟩ := refs.toCalls.start fds timeout fresh
  have ctx₀ : (polling n p fds timeout).ctx p = some (newCtx fds timeout) := by
    rw [polling_ctx, Function.update_self]
  obtain ⟨w, hw, cached⟩ := initAll_ctx all ctx₀
  obtain ⟨armed, links, loop⟩ := initAll_same all
  obtain ⟨-, nodup⟩ := initAll_nodup all
  have refs₁ := (refs.start fresh).initAll ctx₀ nodup (by simp [newCtx]) all
  rw [polling_ctx, Function.update_idem] at hw
  obtain rfl : _ = c := by simpa [hw] using ctx
  set c' : PollCtx := { newCtx fds timeout with waitItem := w, coroutine := true } with hc'
  have same : SameCalls n₁ (setCtx n₁ p c') := by
    refine .update ctx ?_ rfl
    exact ⟨rfl, rfl, rfl, rfl⟩
  have refs₂ : Refs (setCtx n₁ p c') D fun q g => (q = p ∨ lost q g) ∧
      ¬ (q = p ∧ g ∈ nums (fds.map fun f => { f with revents := 0 })) := by
    refine refs₁.same rfl rfl rfl (refs₁.toCalls.congr rfl rfl same) same ?_
    intro q c₁ hc
    by_cases hq : q = p
    · simp only [setCtx, hq, Function.update_self, Option.some.injEq] at hc
      exact ⟨_, hq ▸ ctx, by rw [← hc]⟩
    · exact ⟨c₁, by simpa [setCtx, hq] using hc, rfl⟩
  have ctx' : (setCtx n₁ p c').ctx = Function.update n.ctx p (some c') := by
    simp only [setCtx, hw, Function.update_idem]
  refine ⟨refs₂.weaken ?_, links.trans started, loop, c', ctx', rfl, rfl, rfl, ?_⟩
  · rintro q c₁ i f hc hf ⟨h, own⟩
    have hq : q ≠ p := by
      rintro rfl
      rw [ctx', Function.update_self, Option.some.injEq] at hc
      rw [← hc] at hf
      exact own ⟨rfl, List.mem_map_of_mem (List.mem_of_getElem? hf)⟩
    exact ⟨hq, h.resolve_left hq⟩
  · intro some
    exact cached (.inr ⟨rfl, by simpa using some⟩)

end Polls

end Conet.Core.NetworkPoll
