/- Module: Conet/Core/TimerService
   source: none (abstract layer)
   digest: What a timer service owes its users, stated over the events they can observe. -/

import Mathlib.Data.List.Basic
import Mathlib.Logic.Function.Basic
import Mathlib.Tactic.Common
import Mathlib.Data.Int.Notation

set_option autoImplicit false
set_option relaxedAutoImplicit false

namespace Conet.Core.TimerService

universe u

/-- A pending timer: to be run as soon as possible, or due at a deadline, with the interval at
which it is repeated (`0` for a one-shot timer). -/
inductive Timer
  | now
  | due (deadline : ℕ) (interval : ℤ)

/-- The observable steps of a service. A check sees the time of the check before it. -/
inductive Obs (H : Type u)
  | armed (h : H) (timer : Timer)
  | cancelled (h : H)
  | ranNow (fired : List H)
  | checked (prev cur : ℕ) (fired : List H)

abbrev Service (H : Type u) := H → Option Timer

variable {H : Type u} [DecidableEq H]

/-- The steps of the service. `read` gives the times at which a repeated timer can be armed
again. -/
inductive Serve (read : ℕ → ℕ) : Service H → Obs H → Service H → Prop
  | arm (P : Service H) (h : H) (timer : Timer) :
      Serve read P (.armed h timer) (Function.update P h (some timer))
  | cancel (P : Service H) (h : H) : Serve read P (.cancelled h) (Function.update P h none)
  | runNow (P : Service H) (fired : List H) (nodup : fired.Nodup)
      (mem : ∀ h, h ∈ fired ↔ P h = some .now) :
      Serve read P (.ranNow fired) (fun h => if h ∈ fired then none else P h)
  | check (P P' : Service H) (prev cur : ℕ) (fired : List H) (nodup : fired.Nodup)
      (mem : ∀ h, h ∈ fired ↔ prev < cur ∧ ∃ t i, P h = some (.due t i) ∧ t ≤ cur)
      (others : ∀ h, h ∉ fired → P' h = P h)
      (oneShot : ∀ h ∈ fired, ∀ t, P h = some (.due t 0) → P' h = none)
      (repeated : ∀ h ∈ fired, ∀ t i, i ≠ 0 → P h = some (.due t i) →
        ∃ k t' : ℕ, cur ≤ read k ∧ (t' : ℤ) = read k + i ∧ P' h = some (.due t' i)) :
      Serve read P (.checked prev cur fired) P'

inductive Serves (read : ℕ → ℕ) : Service H → List (Obs H) → Service H → Prop
  | nil (P : Service H) : Serves read P [] P
  | cons {P P' P'' : Service H} {o : Obs H} {tr : List (Obs H)} :
      Serve read P o P' → Serves read P' tr P'' → Serves read P (o :: tr) P''

/-- The step arms the timer `h`. -/
def Arms (h : H) : Obs H → Prop
  | .armed g _ => g = h
  | _ => False

/-- The step fires the timer `h`. -/
def Fires (h : H) : Obs H → Prop
  | .ranNow fired => h ∈ fired
  | .checked _ _ fired => h ∈ fired
  | _ => False

/-- The step has to do with the timer `h`. -/
def Touches (h : H) (o : Obs H) : Prop := Arms h o ∨ Fires h o ∨ o = .cancelled h

section Laws

variable {read : ℕ → ℕ} {P P' P'' : Service H} {o : Obs H} {tr tr' : List (Obs H)} {h : H}
  {timer : Timer}

/-- A step that does not touch a timer leaves it as it is. -/
theorem Serve.untouched (step : Serve read P o P') (un : ¬ Touches h o) : P' h = P h := by
  cases step with
  | arm g timer => exact Function.update_of_ne (fun e => un (.inl e.symm)) _ _
  | cancel g => exact Function.update_of_ne (fun e => un (.inr (.inr (by rw [e])))) _ _
  | runNow fired nodup mem => exact if_neg fun hmem => un (.inr (.inl hmem))
  | check _ prev cur fired nodup mem others oneShot repeated =>
    exact others h fun hmem => un (.inr (.inl hmem))

theorem Serves.untouched (run : Serves read P tr P') (un : ∀ o ∈ tr, ¬ Touches h o) :
    P' h = P h := by
  induction run with
  | nil P => rfl
  | cons step run ih =>
    rw [ih fun o ho => un o (List.mem_cons_of_mem _ ho)]
    exact step.untouched (un _ (by simp))

/-- A timer that is not pending is not fired, and stays so until it is armed. -/
theorem Serve.idle (step : Serve read P o P') (idle : P h = none) (un : ¬ Arms h o) :
    ¬ Fires h o ∧ P' h = none := by
  have quiet : ¬ Fires h o := by
    intro fires
    cases step with
    | arm g timer => exact fires
    | cancel g => exact fires
    | runNow fired nodup mem => simp [(mem h).mp fires] at idle
    | check _ prev cur fired nodup mem others oneShot repeated =>
      obtain ⟨-, t, i, pending, -⟩ := (mem h).mp fires
      simp [pending] at idle
  refine ⟨quiet, ?_⟩
  by_cases hc : o = .cancelled h
  · subst hc
    cases step
    simp
  · rw [step.untouched fun touches => ?_, idle]
    rcases touches with arms | fires | cancels
    · exact un arms
    · exact quiet fires
    · exact hc cancels

theorem Serves.idle (run : Serves read P tr P') (idle : P h = none)
    (un : ∀ o ∈ tr, ¬ Arms h o) : ∀ o ∈ tr, ¬ Fires h o := by
  induction run with
  | nil P => simp
  | cons step run ih =>
    obtain ⟨quiet, idle'⟩ := step.idle idle (un _ (by simp))
    intro o ho
    rcases List.mem_cons.mp ho with rfl | ho
    · exact quiet
    · exact ih idle' (fun o ho => un o (List.mem_cons_of_mem _ ho)) o ho

end Laws

end Conet.Core.TimerService
