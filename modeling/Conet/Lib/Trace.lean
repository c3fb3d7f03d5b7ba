/- Module: Conet/Lib/Trace
   source: none (library)
   digest: Runs of a labelled step relation, with the list of what has happened. -/

import Mathlib.Data.List.Basic
import Mathlib.Data.List.Induction
import Mathlib.Tactic.Common

set_option autoImplicit false
set_option relaxedAutoImplicit false

namespace Conet.Lib

universe u v

variable {S : Type u} {E : Type v}

/-- The runs from `s₀`: what has happened, oldest first, and the state that was reached. -/
inductive Trace (s₀ : S) (Step : S → E → S → Prop) : List E → S → Prop
  | init : Trace s₀ Step [] s₀
  | step {tr : List E} {s s' : S} {ev : E} (run : Trace s₀ Step tr s) (step : Step s ev s') :
      Trace s₀ Step (tr ++ [ev]) s'

namespace Trace

variable {s₀ s : S} {Step : S → E → S → Prop} {tr tr₁ tr₂ : List E} {ev : E}

theorem invariant (Inv : List E → S → Prop) (init : Inv [] s₀)
    (preserves : ∀ {tr s ev s'}, Inv tr s → Step s ev s' → Inv (tr ++ [ev]) s')
    (run : Trace s₀ Step tr s) : Inv tr s := by
  induction run with
  | init => exact init
  | step run step ih => exact preserves ih step

theorem of_foldlM {f : S → E → Option S} (run : tr.foldlM f s₀ = some s) :
    Trace s₀ (fun s ev s' => f s ev = some s') tr s := by
  induction tr using List.reverseRecOn generalizing s with
  | nil =>
    obtain rfl := Option.some.inj run
    exact .init
  | append_singleton tr ev ih =>
    rw [List.foldlM_append] at run
    obtain ⟨s', before, last⟩ := Option.bind_eq_some_iff.mp run
    exact (ih before).step (by simpa using last)

theorem mono {Step' : S → E → S → Prop} {Inv : S → Prop} (init : Inv s₀)
    (step : ∀ {s ev s'}, Inv s → Step s ev s' → Step' s ev s' ∧ Inv s')
    (run : Trace s₀ Step tr s) : Trace s₀ Step' tr s ∧ Inv s := by
  induction run with
  | init => exact ⟨.init, init⟩
  | step run step' ih =>
    obtain ⟨step', inv⟩ := step ih.2 step'
    exact ⟨ih.1.step step', inv⟩

/-- Two step relations that agree where an invariant holds, which their steps keep, have the same
runs. -/
theorem iff_of_invariant {Step' : S → E → S → Prop} (Inv : S → Prop) (init : Inv s₀)
    (agree : ∀ {s ev s'}, Inv s → (Step s ev s' ↔ Step' s ev s'))
    (keeps : ∀ {s ev s'}, Inv s → Step s ev s' → Inv s') :
    Trace s₀ Step tr s ↔ Trace s₀ Step' tr s := by
  constructor
  · intro run
    exact (run.mono init fun inv step => ⟨(agree inv).mp step, keeps inv step⟩).1
  · intro run
    exact (run.mono init fun inv step =>
      ⟨(agree inv).mpr step, keeps inv ((agree inv).mpr step)⟩).1

theorem of_append (run : Trace s₀ Step (tr₁ ++ tr₂) s) : ∃ s₁, Trace s₀ Step tr₁ s₁ := by
  induction tr₂ using List.reverseRecOn generalizing s with
  | nil => exact ⟨s, by simpa using run⟩
  | append_singleton tr₂ last ih =>
    generalize hl : tr₁ ++ (tr₂ ++ [last]) = l at run
    cases run with
    | init => simp at hl
    | step run step =>
      rw [← List.append_assoc] at hl
      exact ih ((List.append_inj_left' hl rfl) ▸ run)

/-- The last event of a run is a step from the state that the rest of it reaches. -/
theorem last (run : Trace s₀ Step (tr ++ [ev]) s) :
    ∃ s₁, Trace s₀ Step tr s₁ ∧ Step s₁ ev s := by
  generalize hl : tr ++ [ev] = l at run
  cases run with
  | init => simp at hl
  | step run step =>
    obtain ⟨rfl, e⟩ := List.append_inj' hl rfl
    obtain rfl : ev = _ := by simpa using e
    exact ⟨_, run, step⟩

/-- Every event of a run is a step from a state that was reached before. -/
theorem split (run : Trace s₀ Step (tr₁ ++ ev :: tr₂) s) :
    ∃ s₁ s₂, Trace s₀ Step tr₁ s₁ ∧ Step s₁ ev s₂ := by
  have longer : Trace s₀ Step ((tr₁ ++ [ev]) ++ tr₂) s := by simpa using run
  obtain ⟨s₂, run₂⟩ := longer.of_append
  obtain ⟨s₁, run₁, step⟩ := run₂.last
  exact ⟨s₁, s₂, run₁, step⟩

/-! Where each step is decided by its event, a list of events has one run at most. -/

section Functional

variable {s' : S} {P : S → E → Prop}

theorem unique (functional : ∀ s ev s₁ s₂, Step s ev s₁ → Step s ev s₂ → s₁ = s₂)
    (run : Trace s₀ Step tr s) (run' : Trace s₀ Step tr s') : s = s' := by
  induction run generalizing s' with
  | init =>
    generalize nothing : ([] : List E) = events at run'
    cases run' with
    | init => rfl
    | step run' step' => simp at nothing
  | step run step ih =>
    obtain ⟨s₁, before, step'⟩ := run'.last
    obtain rfl := ih before
    exact functional _ _ _ _ step step'

/-- In the run of `tr` there is an event that meets `P` in the state before it. -/
def Happens (s₀ : S) (Step : S → E → S → Prop) (P : S → E → Prop) (tr : List E) : Prop :=
  ∃ pre ev post s, tr = pre ++ ev :: post ∧ Trace s₀ Step pre s ∧ P s ev

theorem Happens.mono {tr' : List E} (happens : Happens s₀ Step P tr) (part : tr <+: tr') :
    Happens s₀ Step P tr' := by
  obtain ⟨pre, ev, post, s, rfl, run, holds⟩ := happens
  obtain ⟨more, rfl⟩ := part
  exact ⟨pre, ev, post ++ more, s, by simp, run, holds⟩

/-- What is the same in all states before the events of a run happens in the same runs. -/
theorem happens_congr {Q : S → E → Prop}
    (same : ∀ pre ev s, pre <+: tr → Trace s₀ Step pre s → (P s ev ↔ Q s ev)) :
    Happens s₀ Step P tr ↔ Happens s₀ Step Q tr := by
  constructor
  · rintro ⟨pre, ev, post, s, rfl, run, holds⟩
    exact ⟨pre, ev, post, s, rfl, run, (same pre ev s ⟨_, rfl⟩ run).mp holds⟩
  · rintro ⟨pre, ev, post, s, rfl, run, holds⟩
    exact ⟨pre, ev, post, s, rfl, run, (same pre ev s ⟨_, rfl⟩ run).mpr holds⟩

theorem not_happens_nil : ¬ Happens s₀ Step P [] := by
  rintro ⟨pre, ev, post, s, split, -⟩
  simp at split

theorem happens_snoc (functional : ∀ s ev s₁ s₂, Step s ev s₁ → Step s ev s₂ → s₁ = s₂)
    (run : Trace s₀ Step tr s) : Happens s₀ Step P (tr ++ [ev]) ↔ Happens s₀ Step P tr ∨ P s ev := by
  constructor
  · rintro ⟨pre, ev', post, s', split, before, holds⟩
    rcases List.eq_nil_or_concat post with rfl | ⟨post, last, rfl⟩
    · obtain ⟨rfl, same⟩ := List.append_inj' split rfl
      obtain rfl := (List.cons.inj same).1
      obtain rfl := run.unique functional before
      exact .inr holds
    · rw [List.concat_eq_append, ← List.cons_append, ← List.append_assoc] at split
      obtain ⟨earlier, -⟩ := List.append_inj' split rfl
      exact .inl ⟨pre, ev', post, s', earlier, before, holds⟩
  · rintro (⟨pre, ev', post, s', rfl, before, holds⟩ | holds)
    · exact ⟨pre, ev', post ++ [ev], s', by simp, before, holds⟩
    · exact ⟨tr, ev, [], s, rfl, run, holds⟩

end Functional

end Trace

/-! Runs of a total step function. -/

section Foldl

variable {s₀ : S} {Inv Good : S → Prop} {Fair : S → E → Prop} {next : S → E → S}

theorem foldl_invariant (keeps : ∀ s ev, Inv s → Inv (next s ev)) (init : Inv s₀)
    (events : List E) : Inv (events.foldl next s₀) := by
  induction events using List.reverseRecOn with
  | nil => exact init
  | append_singleton past last ih =>
    rw [List.foldl_append]
    exact keeps _ _ ih

/-- If a good state stays good exactly under fair events, then the states of a run are all good exactly
when its events are all fair. -/
theorem foldl_good_iff (keeps : ∀ s ev, Inv s → Inv (next s ev))
    (good_iff : ∀ s ev, Inv s → Good s → (Good (next s ev) ↔ Fair s ev))
    (init : Inv s₀) (good : Good s₀) (events : List E) :
    (∀ past, past <+: events → Good (past.foldl next s₀)) ↔
      ∀ past ev, past ++ [ev] <+: events → Fair (past.foldl next s₀) ev := by
  have inv := foldl_invariant keeps init
  constructor
  · intro goods past ev before
    have here := goods past ((List.prefix_append past [ev]).trans before)
    have after := goods (past ++ [ev]) before
    rw [List.foldl_append] at after
    exact (good_iff _ ev (inv past) here).mp after
  · intro fairs past
    induction past using List.reverseRecOn with
    | nil => exact fun _ => good
    | append_singleton past last ih =>
      intro before
      have here := ih ((List.prefix_append past [last]).trans before)
      rw [List.foldl_append]
      exact (good_iff _ last (inv past) here).mpr (fairs past last before)

end Foldl

end Conet.Lib
