/- Module: Conet/Core/NetworkComplete
   source: core/src/network.cpp
   digest: Every call of co_poll is resumed once, by an event or by its timeout. -/

import Conet.Core.NetworkRun

set_option autoImplicit false
set_option relaxedAutoImplicit false

namespace Conet.Core.NetworkComplete

open Conet.Lib Conet.Lib.Epoll Conet.Base.ListHead Conet.Base.ListRings Conet.Core.Network
open Conet.Core.NetworkPoll Conet.Core.NetworkBatch Conet.Core.NetworkRun

universe u

variable {P : Type u}

/-- No descriptor is closed while it is polled, and none so that its registration stays. -/
def Spared (n : Net P) : Event P → Prop
  | .closed fd shared => (∀ p c, n.ctx p = some c → ∀ f ∈ c.fds, f.fd ≠ (fd : ℤ)) ∧ Drops n fd shared
  | _ => True

variable [DecidableEq P]

def SparedRun : List (Event P) → Net P → Prop :=
  Trace Net.init fun n ev n' => Step n ev n' ∧ Spared n ev

def polls (p : P) : Event P → Bool
  | .polled q _ _ => q = p
  | _ => false

def returns (p : P) : Event P → Bool
  | .dispatched q _ _ => q = p
  | .timedOut q _ _ => q = p
  | _ => false

/-- The result of a return: 0 for a timeout, and else the number of entries with events, which is
not 0 then. -/
def Result : Event P → Prop
  | .dispatched _ fds ret => 0 < ret ∧ ret = fds.countP fun f => f.revents ≠ 0
  | .timedOut _ _ ret => ret = 0
  | _ => True

section Steps

variable {n n' : Net P} {D : List P} {lost : P → Fd → Prop} {p q : P} {ev : Event P}
  {tr : List (Event P)}

omit [DecidableEq P] in
theorem due_of_spared (inv : Inv n D fun _ _ => False) (spared : Spared n ev) : Meets n ev := by
  have owns : ∀ p, Owns n p := by
    intro p c ctx f hf
    obtain ⟨i, hi⟩ := List.mem_iff_getElem?.mp hf
    exact .inr (inv.pend p c i f ctx hi id).2.1
  cases ev with
  | closed fd shared =>
    exact ⟨fun p c f ctx head => spared.1 p c ctx f (List.mem_of_head? head), spared.2⟩
  | dispatched p fds ret => exact owns p
  | timedOut p fds ret => exact owns p
  | polled => trivial
  | batch => trivial
  | activity => trivial
  | consumed => trivial
  | other => trivial

/-- Closes that spare the pending calls lose no descriptor. -/
theorem keeps_of_spared (inv : Inv n D fun _ _ => False) (step : Step n ev n')
    (spared : Spared n ev) : ∃ D', Inv n' D' fun _ _ => False := by
  obtain ⟨D', inv'⟩ := inv.step step (due_of_spared inv spared)
  refine ⟨D', { inv' with toRefs := inv'.toRefs.weaken ?_ }⟩
  intro p c i f ctx hf lost
  cases step with
  | close fd shared away =>
    rw [(close_spec n fd shared).ctx] at ctx
    obtain ⟨pos, -⟩ := inv.pend p c i f ctx hf id
    refine spared.1 p c ctx f (List.mem_of_getElem? hf) ?_
    rw [← lost.resolve_left id, Int.toNat_of_nonneg pos]
  | poll => exact lost.2
  | batch => exact lost
  | dispatch => exact lost
  | timeout => exact lost
  | skip => exact lost
  | next => exact lost
  | ended => exact lost
  | activity => exact lost
  | consume => exact lost

theorem result_of_inv (inv : Inv n D lost) (step : Step n ev n') : Result ev := by
  cases step with
  | dispatch _ p c next ret loop ctx coroutine returns =>
    obtain ⟨-, -, -, -, -, rfl⟩ := coPollReturn_ok returns
    obtain ⟨c₀, hc, pos⟩ := inv.queued p (inv.mem_of_test loop)
    obtain rfl : c = c₀ := Option.some.inj (ctx.symm.trans hc)
    rw [if_pos (inv.retcode p c ctx)]
    exact ⟨by exact_mod_cast pos, by exact_mod_cast inv.raise p c ctx⟩
  | timeout _ p c ret away armed ctx coroutine returns =>
    obtain ⟨-, -, -, -, -, rfl⟩ := coPollReturn_ok returns
    rfl
  | poll => trivial
  | batch => trivial
  | close => trivial
  | skip => trivial
  | next => trivial
  | ended => trivial
  | activity => trivial
  | consume => trivial

/-- A call that begins was not pending and is then; a call that returns was, and is not; and no
other step changes which calls are pending. -/
theorem pending_of_inv (inv : Inv n D lost) (step : Step n ev n') (q : P) :
    (if (n'.ctx q).isSome then 1 else 0) + (if returns q ev then 1 else 0) =
      (if (n.ctx q).isSome then 1 else 0) + if polls q ev then 1 else 0 := by
  have leaves : ∀ {p : P} {c c' : PollCtx} {m : Net P} {ret : ℤ}, n.ctx p = some c →
      coPollReturn m p c' = .ok (n', ret) → m.ctx = n.ctx →
      (if (n'.ctx q).isSome then 1 else 0) + (if p = q then 1 else 0) =
        if (n.ctx q).isSome then 1 else 0 := by
    intro p c c' m ret ctx ok mctx
    obtain ⟨n₁, gs, detached, rfl, -⟩ := coPollReturn_ok ok
    by_cases hq : p = q
    · subst hq
      simp [ctx]
    · simp [Function.update_of_ne (Ne.symm hq), detached.rest.ctx, mctx, hq]
  cases step with
  | poll _ p fds timeout away fresh polls =>
    obtain ⟨-, -, -, c, ctx, -⟩ := inv.toRefs.coPoll fresh polls
    by_cases hq : p = q
    · subst hq
      simp [ctx, fresh, NetworkComplete.polls, returns]
    · simp [ctx, Function.update_of_ne (Ne.symm hq), NetworkComplete.polls, returns, hq]
  | batch _ gs out nodup queued notifies =>
    obtain ⟨n₁, D', ok, -, passed⟩ := inv.batch out nodup
    obtain rfl : n₁ = n' := Except.ok.inj (ok.symm.trans notifies)
    have same : (n₁.ctx q).isSome = (n.ctx q).isSome := by
      rw [Bool.eq_iff_iff, Option.isSome_iff_exists, Option.isSome_iff_exists]
      constructor
      · rintro ⟨c, hc⟩
        obtain ⟨c₀, hc₀, -⟩ := passed.back q c hc
        exact ⟨c₀, hc₀⟩
      · rintro ⟨c, hc⟩
        obtain ⟨c', hc', -⟩ := passed.forth q c hc
        exact ⟨c', hc'⟩
    simp [same, polls, returns]
  | dispatch _ p c next ret loop ctx coroutine ok =>
    simpa [polls, returns] using leaves ctx ok rfl
  | timeout _ p c ret away armed ctx coroutine ok =>
    simpa [polls, returns] using leaves ctx ok rfl
  | close fd shared away =>
    rw [(close_spec n fd shared).ctx]
    simp [polls, returns]
  | skip => simp [polls, returns]
  | next => simp [polls, returns]
  | ended => simp [polls, returns]
  | activity => simp [polls, returns]
  | consume => simp [polls, returns]

end Steps

section Runs

structure History (tr : List (Event P)) (n : Net P) : Prop where
  inv : ∃ D, Inv n D fun _ _ => False
  once : ∀ p, tr.countP (polls p) = tr.countP (returns p) + if (n.ctx p).isSome then 1 else 0
  result : ∀ ev ∈ tr, Result ev

theorem history_of_run {tr : List (Event P)} {n : Net P} (run : SparedRun tr n) : History tr n := by
  apply run.invariant
  · exact ⟨⟨[], inv_init⟩, by simp [Net.init], by simp⟩
  · rintro tr n ev n' ⟨⟨D, inv⟩, once, result⟩ ⟨step, spared⟩
    refine ⟨keeps_of_spared inv step spared, fun p => ?_, fun e he => ?_⟩
    · have balance := pending_of_inv inv step p
      rw [List.countP_append, List.countP_append, List.countP_singleton, List.countP_singleton,
        once p]
      omega
    · rcases List.mem_append.mp he with he | he
      · exact result e he
      · rw [List.mem_singleton.mp he]
        exact result_of_inv inv step

end Runs

end Conet.Core.NetworkComplete
