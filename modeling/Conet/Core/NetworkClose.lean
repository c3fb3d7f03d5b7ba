/- Module: Conet/Core/NetworkClose
   source: core/src/network.cpp, core/src/network_hook.cpp
   digest: When a close leaves no freed wait item behind, and the other polls alone. -/

import Conet.Core.NetworkRun

set_option autoImplicit false
set_option relaxedAutoImplicit false

namespace Conet.Core.NetworkClose

open Conet.Lib Conet.Lib.Epoll Conet.Base.ListHead Conet.Base.ListRings Conet.Core.Network
open Conet.Core.NetworkPoll Conet.Core.NetworkBatch Conet.Core.NetworkRun

universe u

/-- The state with the descriptors that have been closed since a call has polled them. -/
structure Sys (P : Type u) where
  net : Net P
  closed : P → Fd → Prop

variable {P : Type u}

def Sys.init : Sys P := ⟨.init, fun _ _ => False⟩

variable [DecidableEq P]

inductive SysStep : Sys P → Event P → Sys P → Prop
  | mk (s : Sys P) (n' : Net P) (ev : Event P) (step : Step s.net ev n') :
      SysStep s ev ⟨n', lostAfter s.closed ev⟩

/-- No pending call and no registration, of whatever descriptor, refers to a freed wait item, and no
step that is due uses one. The descriptors of a call that have not been closed wait for it, and of the others none does. -/
structure Sound (s : Sys P) : Prop where
  cached : ∀ p c ptr, s.net.ctx p = some c → c.waitItem = some ptr → Live s.net ptr
  events : ∀ fd mask ptr, s.net.kernel.reg fd = some (mask, ptr) → Live s.net ptr
  orphans : ∀ mask ptr, (mask, ptr) ∈ s.net.kernel.orphans → Live s.net ptr
  due : Due s.net s.closed
  waits : ∀ p c i f, s.net.ctx p = some c → c.fds[i]? = some f → ¬ s.closed p f.fd.toNat →
    Attached s.net f.fd.toNat p i
  free : ∀ fd p i, Attached s.net fd p i → ¬ s.closed p fd

def SoundRun : List (Event P) → Sys P → Prop :=
  Trace Sys.init fun s ev s' => SysStep s ev s' ∧ Sound s'

def MeetsRun : List (Event P) → Sys P → Prop :=
  Trace Sys.init fun s ev s' => SysStep s ev s' ∧ Meets s.net ev

structure SysInv (s : Sys P) : Prop where
  refs : ∃ D, Inv s.net D s.closed
  lone : s.net.kernel.orphans = []
  free : ∀ fd p i, Attached s.net fd p i → ¬ s.closed p fd

section Steps

variable {s s' : Sys P} {n n' : Net P} {D : List P} {lost : P → Fd → Prop} {p : P} {fd : Fd}
  {ev : Event P} {c : PollCtx} {fds : List PollFd} {timeout : ℤ} {i : ℕ}

theorem SysInv.sound (inv : SysInv s) : Sound s := by
  obtain ⟨D, refs⟩ := inv.refs
  refine ⟨?_, ?_, by simp [inv.lone], refs.due, ?_, inv.free⟩
  · intro p c ptr ctx cached
    exact (refs.cached p c ptr ctx cached).1
  · intro fd mask ptr reg
    exact (refs.reg fd mask ptr reg).2
  · intro p c i f ctx hf open'
    exact (refs.pend p c i f ctx hf open').2

/-- The `epoll_ctl`s of a poll and of a batch leave the lost registrations alone. -/
theorem initAll_orphans (all : InitAll p i fds n n') : n'.kernel.orphans = n.kernel.orphans := by
  induction all with
  | nil => rfl
  | cons ctx inits rest ih =>
    rw [ih, inits.kernel, interestKernel]
    split_ifs <;> simp

theorem notifyAll_orphans {evs : List (Ptr × Events)} (ok : notifyAll evs n = .ok n') :
    n'.kernel.orphans = n.kernel.orphans := by
  induction evs generalizing n with
  | nil =>
    obtain rfl := Except.ok.inj ok
    rfl
  | cons ev evs ih =>
    rw [notifyAll] at ok
    split at ok
    · rename_i n₁ first
      have cleared : ∀ w : WaitItem P,
          (clearInvalidEvent n ev.1 w ev.2).kernel.orphans = n.kernel.orphans := by
        intro w
        rw [clearInvalidEvent_eq]
        simp only [ctl, clearKernel]
        split_ifs <;> simp
      obtain ⟨w, -, -, notified⟩ := fdNotify_ok first
      rw [ih ok]
      cases notified with
      | stale none => exact cleared w
      | unwanted p c f pollCtx ctx pos none => exact cleared w
      | raised p c f pollCtx ctx pos some => rfl
    · cases ok

theorem return_kernel {m : Net P} {c' : PollCtx} {ret : ℤ} (ok : coPollReturn m p c' = .ok (n', ret)) :
    n'.kernel = m.kernel := by
  obtain ⟨n₁, gs, detached, rfl, -⟩ := coPollReturn_ok ok
  exact detached.rest.kernel

/-- A step that meets the condition loses no registration. -/
theorem step_orphans (step : Step n ev n') (meets : Meets n ev) (lone : n.kernel.orphans = []) :
    n'.kernel.orphans = [] := by
  cases step with
  | poll _ p fds timeout away fresh polls =>
    obtain ⟨n₁, c, all, ctx, rfl⟩ := coPoll_ok polls
    exact (initAll_orphans all).trans lone
  | batch _ gs out nodup queued notifies =>
    unfold procNetevent at notifies
    dsimp only at notifies
    split_ifs at notifies with none
    · obtain rfl := Except.ok.inj notifies
      exact lone
    · split at notifies
      · rename_i n₁ all
        obtain rfl := Except.ok.inj notifies
        exact (notifyAll_orphans all).trans lone
      · cases notifies
  | dispatch _ p c next ret loop ctx coroutine returns =>
    rw [return_kernel returns]
    exact lone
  | timeout _ p c ret away armed ctx coroutine returns =>
    rw [return_kernel returns]
    exact lone
  | close fd shared away =>
    rw [(close_spec n fd shared).kernel, Kernel.close]
    dsimp only
    split_ifs with stays
    · obtain ⟨rfl, idle⟩ : shared = true ∧ (itemOr n fd).waitEvents = 0 := by simpa using stays
      simp [meets.2 rfl idle, lone]
    · exact lone
  | skip => exact lone
  | next => exact lone
  | ended => exact lone
  | activity => exact lone
  | consume => exact lone

/-- The loop of `poll_ctx_t::init` puts no other call on a wait item. -/
theorem initAll_attached (all : InitAll p i fds n n') {g : Fd} {q : P} {j : ℕ}
    (h : Attached n' g q j) : q = p ∨ Attached n g q j := by
  induction all with
  | nil => exact .inr h
  | @cons i f fs n n₁ n' c ctx inits rest ih =>
    rcases ih h with own | h
    · exact .inl own
    · by_cases hg : g = f.fd.toNat
      · left
        simpa [Attached, itemOr, inits.item, hg, eq_comm] using h.1
      · right
        simpa [Attached, itemOr, inits.item, hg] using h

theorem return_attached {m : Net P} {c' : PollCtx} {ret : ℤ}
    (ok : coPollReturn m p c' = .ok (n', ret)) {g : Fd} {q : P} {j : ℕ}
    (h : Attached n' g q j) : Attached m g q j := by
  obtain ⟨n₁, gs, detached, rfl, -⟩ := coPollReturn_ok ok
  have item := detached.item g
  change (itemOr n₁ g).pollCtx = _ ∧ (itemOr n₁ g).pos = _ at h
  rw [item] at h
  split_ifs at h
  · simp [WaitItem.off] at h
  · exact h

/-- A return that finds another call on one of its descriptors takes it off. -/
theorem return_steals (inv : Inv n D lost) (ctx : n.ctx p = some c) {m : Net P} {c' : PollCtx}
    {ret : ℤ} (ok : coPollReturn m p c' = .ok (n', ret)) (mctx : m.ctx = n.ctx)
    (same : c'.fds = c.fds) (waitItem : c'.waitItem = c.waitItem)
    (other : ¬ Owns n p) :
    ∃ q c₂ j f₂, n'.ctx q = some c₂ ∧ c₂.fds[j]? = some f₂ ∧ Attached n f₂.fd.toNat q j ∧
      ¬ Attached n' f₂.fd.toNat q j := by
  obtain ⟨n₁, gs, detached, e, which, -⟩ := coPollReturn_ok ok
  have found : ∃ f ∈ c.fds, (itemOr n f.fd.toNat).pollCtx ≠ none ∧
      (itemOr n f.fd.toNat).pollCtx ≠ some p := by
    by_contra none
    apply other
    intro c₁ hc f hf
    obtain rfl : c = c₁ := Option.some.inj (ctx.symm.trans hc)
    by_contra h
    exact none ⟨f, hf, not_or.mp h⟩
  obtain ⟨f, hf, some, hne⟩ := found
  obtain ⟨q, hq⟩ := Option.ne_none_iff_exists'.mp some
  have h : Attached n f.fd.toNat q (itemOr n f.fd.toNat).pos := ⟨hq, rfl⟩
  obtain ⟨c₂, f₂, hc₂, hf₂, num⟩ := inv.back _ q _ h
  have num : f₂.fd.toNat = f.fd.toNat := by rw [num, Int.toNat_natCast]
  have hqp : q ≠ p := by
    rintro rfl
    exact hne hq
  have mem : f.fd.toNat ∈ gs := by
    rcases which with ⟨one, ptr, cached, -, rfl⟩ | ⟨-, rfl⟩
    · obtain ⟨f₀, head, own, -, first⟩ := inv.head_cached ctx (waitItem ▸ cached)
      rw [same] at one
      obtain ⟨f₁, only⟩ := List.length_eq_one_iff.mp one
      rw [only, List.mem_singleton] at hf
      rw [only, List.head?_cons, Option.some.injEq] at head
      rw [hf, head, own, Int.toNat_natCast] at h
      exact absurd (h.unique first).1 hqp
    · exact List.mem_map.mpr ⟨f, same ▸ hf, rfl⟩
  refine ⟨q, c₂, _, f₂, ?_, hf₂, num ▸ h, ?_⟩
  · rw [e]
    change Function.update n₁.ctx p none q = _
    rw [Function.update_of_ne hqp, detached.rest.ctx, mctx, hc₂]
  · rw [num, e]
    rintro ⟨waits, -⟩
    change (itemOr n₁ f.fd.toNat).pollCtx = _ at waits
    rw [detached.item, if_pos mem] at waits
    simp [WaitItem.off] at waits

theorem SysInv.keeps (inv : SysInv s) (step : SysStep s ev s') (meets : Meets s.net ev) :
    SysInv s' := by
  obtain ⟨n', ev, step⟩ := step
  obtain ⟨D, refs⟩ := inv.refs
  obtain ⟨D', refs'⟩ := refs.step step meets
  refine ⟨⟨D', refs'⟩, step_orphans step meets inv.lone, fun g q j h => ?_⟩
  cases step with
  | poll _ p fds timeout away fresh polls =>
    obtain ⟨n₁, c, all, ctx, rfl⟩ := coPoll_ok polls
    rintro ⟨hq, lost⟩
    rcases initAll_attached all h with own | h
    · exact hq own
    · exact inv.free g q j h lost
  | batch _ gs out nodup queued notifies =>
    obtain ⟨n₁, D', ok, -, passed⟩ := refs.batch out nodup
    obtain rfl : n₁ = n' := Except.ok.inj (ok.symm.trans notifies)
    exact inv.free g q j ((passed.item g q j).mp h)
  | dispatch _ p c next ret loop ctx coroutine returns =>
    exact inv.free g q j (return_attached returns h)
  | timeout _ p c ret away armed ctx coroutine returns =>
    exact inv.free g q j (return_attached returns h)
  | close fd shared away =>
    have closed := close_spec s.net fd shared
    have hg : g ≠ fd := by
      rintro rfl
      have waits := h.1
      rw [closed.itemOr, if_pos rfl] at waits
      simp [WaitItem.new] at waits
    have old : Attached s.net g q j := by
      unfold Attached at h
      rwa [closed.itemOr, if_neg hg] at h
    exact not_or.mpr ⟨inv.free g q j old, hg⟩
  | skip => exact inv.free g q j h
  | next => exact inv.free g q j h
  | ended => exact inv.free g q j h
  | activity => exact inv.free g q j h
  | consume => exact inv.free g q j h

/-- A step that does not meet the condition leaves a freed wait item behind, or takes a call off its
descriptor. -/
theorem SysInv.breaks (inv : SysInv s) (step : SysStep s ev s') (sound : Sound s') :
    Meets s.net ev := by
  obtain ⟨n', ev, step⟩ := step
  obtain ⟨D, refs⟩ := inv.refs
  -- after a return that steals, a call waits in vain
  have owns : ∀ {p : P} {c c' : PollCtx} {m : Net P} {ret : ℤ}, s.net.ctx p = some c →
      coPollReturn m p c' = .ok (n', ret) → m.ctx = s.net.ctx → c'.fds = c.fds →
      c'.waitItem = c.waitItem → lostAfter s.closed ev = s.closed → Owns s.net p := by
    intro p c c' m ret ctx ok mctx same waitItem stays
    by_contra other
    obtain ⟨q, c₂, j, f₂, hc₂, hf₂, h, off⟩ :=
      return_steals refs ctx ok mctx same waitItem other
    refine off (sound.waits q c₂ j f₂ hc₂ hf₂ ?_)
    rw [stays]
    exact inv.free _ q j h
  cases step with
  | dispatch _ p c next ret loop ctx coroutine returns =>
    exact owns ctx returns rfl rfl rfl rfl
  | timeout _ p c ret away armed ctx coroutine returns =>
    exact owns ctx returns rfl rfl rfl rfl
  | close fd shared away =>
    have closed := close_spec s.net fd shared
    constructor
    · intro p c f ctx head num
      have some : c.fds ≠ [] := by
        rintro nil
        simp [nil] at head
      obtain ⟨ptr, cached⟩ := Option.isSome_iff_exists.mp (refs.first p c ctx some)
      obtain ⟨f₁, head₁, own, -⟩ := refs.head_cached ctx cached
      obtain rfl : f = f₁ := Option.some.inj (head.symm.trans head₁)
      have hfd : ptr.fd = fd := by exact_mod_cast own.symm.trans num
      have live := (sound.cached p c ptr (by rw [closed.ctx, ctx]) cached).1
      simp [closed.item, hfd] at live
    · -- a registration that stays has the wait item that is freed
      rintro rfl idle
      by_contra some
      obtain ⟨⟨mask, ptr⟩, reg⟩ := Option.ne_none_iff_exists'.mp some
      have live := sound.orphans mask ptr (by simp [closed.kernel, Kernel.close, idle, reg])
      simp [Live, closed.item, (refs.reg fd mask ptr reg).1] at live
  | poll => trivial
  | batch => trivial
  | skip => trivial
  | next => trivial
  | ended => trivial
  | activity => trivial
  | consume => trivial

end Steps

section Runs

omit [DecidableEq P] in
theorem sysInv_init : SysInv (Sys.init : Sys P) :=
  ⟨⟨[], inv_init⟩, rfl, by simp [Sys.init, Attached, itemOr, Net.init, WaitItem.new]⟩

/-- The runs in which every state is sound are those whose steps all meet the condition. -/
theorem soundRun_iff (tr : List (Event P)) (s : Sys P) : SoundRun tr s ↔ MeetsRun tr s := by
  apply Trace.iff_of_invariant SysInv
  · exact sysInv_init
  · intro s ev s' inv
    exact and_congr_right fun step =>
      ⟨fun sound => inv.breaks step sound, fun meets => (inv.keeps step meets).sound⟩
  · rintro s ev s' inv ⟨step, sound⟩
    exact inv.keeps step (inv.breaks step sound)

/-- A descriptor is closed while the one call that polls it is pending: the call goes on to use its
wait item, which has been freed. -/
theorem closed_dangling :
    ¬ ∀ (tr : List (Event ℕ)) (s : Sys ℕ), Trace Sys.init SysStep tr s → Sound s := by
  intro all
  have start : Trace Sys.init SysStep [] (Sys.init : Sys ℕ) := .init
  have polled := start.step
    (.mk _ _ _ (.poll _ _ 0 [⟨5, 1, 0⟩] 10 trivial rfl rfl))
  have closed := polled.step (.mk _ _ _ (.close _ 5 false trivial))
  have live := (all _ _ closed).cached 0 _ ⟨5, 1⟩ rfl rfl
  exact absurd live.1 (by decide)

end Runs

end Conet.Core.NetworkClose
