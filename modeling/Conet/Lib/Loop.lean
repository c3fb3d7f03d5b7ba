/- Module: Conet/Lib/Loop
   source: none (library)
   digest: Loops that may return, run forever or leave what the language defines. -/

import Mathlib.Tactic.Common
import Mathlib.Order.WellFounded

set_option autoImplicit false
set_option relaxedAutoImplicit false

namespace Conet.Lib

universe u v

/-- What one turn of a loop does: go round again, leave with a result, or do something the
language gives no meaning to. -/
inductive Turn (σ : Type u) (τ : Type v)
  | again (s : σ)
  | leave (t : τ)
  | undefined
  deriving DecidableEq

/-- One block of a loop body after another. -/
def Turn.andThen {σ : Type u} {τ : Type v} (t : Turn σ τ) (next : σ → Turn σ τ) : Turn σ τ :=
  match t with
  | .again s => next s
  | .leave r => .leave r
  | .undefined => .undefined

@[simp] theorem Turn.again_andThen {σ : Type u} {τ : Type v} (s : σ) (next : σ → Turn σ τ) :
    (Turn.again s : Turn σ τ).andThen next = next s := rfl

@[simp] theorem Turn.leave_andThen {σ : Type u} {τ : Type v} (r : τ) (next : σ → Turn σ τ) :
    (Turn.leave r : Turn σ τ).andThen next = .leave r := rfl

theorem Turn.andThen_assoc {σ : Type u} {τ : Type v} (t : Turn σ τ) (f g : σ → Turn σ τ) :
    (t.andThen f).andThen g = t.andThen fun s => (f s).andThen g := by
  cases t <;> rfl

/-- However a turn goes, it meets a condition. -/
def Turn.Meets {σ : Type u} {τ : Type v} (t : Turn σ τ) (inv : σ → Prop) (post : τ → Prop) : Prop :=
  match t with
  | .again s => inv s
  | .leave r => post r
  | .undefined => True

theorem Turn.Meets.andThen {σ : Type u} {τ : Type v} {t : Turn σ τ} {next : σ → Turn σ τ}
    {inv : σ → Prop} {post : τ → Prop} (first : t.Meets inv post)
    (second : ∀ s, inv s → (next s).Meets inv post) : (t.andThen next).Meets inv post := by
  cases t with
  | again s => exact second s first
  | leave r => exact first
  | undefined => trivial

/-- What a bounded number of turns has come to. -/
inductive Outcome (τ : Type v)
  | running
  | undefined
  | returned (t : τ)
  deriving DecidableEq

namespace Loop

variable {σ : Type u} {τ : Type v}

@[grind =] def run (body : σ → Turn σ τ) : Nat → σ → Outcome τ
  | 0, _ => .running
  | n + 1, s => match body s with
    | .again s' => run body n s'
    | .leave t => .returned t
    | .undefined => .undefined

/-- Some number of turns ends the loop with `t`. -/
def Returns (body : σ → Turn σ τ) (s : σ) (t : τ) : Prop := ∃ n, run body n s = .returned t

def Diverges (body : σ → Turn σ τ) (s : σ) : Prop := ∀ n, run body n s = .running

/-- The states in which the loop test is evaluated. -/
inductive Reaches (body : σ → Turn σ τ) (s : σ) : σ → Prop
  | start : Reaches body s s
  | turn {s' s'' : σ} : Reaches body s s' → body s' = .again s'' → Reaches body s s''

variable {body : σ → Turn σ τ} {s s' : σ} {t t' : τ}

theorem Returns.of_leave (h : body s = .leave t) : Returns body s t := ⟨1, by simp [run, h]⟩

theorem returns_again (h : body s = .again s') : Returns body s t ↔ Returns body s' t := by
  constructor
  · rintro ⟨n, hn⟩
    cases n with
    | zero => simp [run] at hn
    | succ n => exact ⟨n, by simpa [run, h] using hn⟩
  · rintro ⟨n, hn⟩
    exact ⟨n + 1, by simpa [run, h] using hn⟩

theorem returns_leave (h : body s = .leave t) : Returns body s t' ↔ t' = t := by
  constructor
  · rintro ⟨n, hn⟩
    cases n with
    | zero => simp [run] at hn
    | succ n => simpa [run, h, eq_comm] using hn
  · rintro rfl
    exact Returns.of_leave h

theorem not_returns_undefined (h : body s = .undefined) : ¬ Returns body s t := by
  rintro ⟨n, hn⟩
  cases n <;> simp [run, h] at hn

theorem Returns.unique (h : Returns body s t) (h' : Returns body s t') : t = t' := by
  obtain ⟨n, hn⟩ := h
  induction n generalizing s with
  | zero => simp [run] at hn
  | succ n ih =>
    cases hb : body s with
    | again s' => exact ih ((returns_again hb).mp h') (by simpa [run, hb] using hn)
    | leave u =>
      obtain rfl : u = t := by simpa [run, hb] using hn
      exact ((returns_leave hb).mp h').symm
    | undefined => simp [run, hb] at hn

theorem Diverges.not_returns (h : Diverges body s) : ¬ Returns body s t := by
  rintro ⟨n, hn⟩
  simp [h n] at hn

theorem Reaches.returns (h : Reaches body s s') : Returns body s t ↔ Returns body s' t := by
  induction h with
  | start => rfl
  | turn _ hb ih => exact ih.trans (returns_again hb)

theorem Reaches.trans {s'' : σ} (h : Reaches body s s') (h' : Reaches body s' s'') :
    Reaches body s s'' := by
  induction h' with
  | start => exact h
  | turn _ hb ih => exact ih.turn hb

theorem Returns.last (h : Returns body s t) : ∃ s', Reaches body s s' ∧ body s' = .leave t := by
  obtain ⟨n, hn⟩ := h
  induction n generalizing s with
  | zero => simp [run] at hn
  | succ n ih =>
    cases hb : body s with
    | again s' =>
      obtain ⟨s'', reach, leave⟩ := ih (s := s') (by simpa [run, hb] using hn)
      exact ⟨s'', .trans (.turn .start hb) reach, leave⟩
    | leave u =>
      obtain rfl : u = t := by simpa [run, hb] using hn
      exact ⟨s, .start, hb⟩
    | undefined => simp [run, hb] at hn

/-- A state that is reached is the first one or reached from the second one. -/
theorem Reaches.first (h : Reaches body s s') :
    s' = s ∨ ∃ s'', body s = .again s'' ∧ Reaches body s'' s' := by
  induction h with
  | start => exact .inl rfl
  | turn _ hb ih =>
    rcases ih with rfl | ⟨s'', hb', hr⟩
    · exact .inr ⟨_, hb, .start⟩
    · exact .inr ⟨s'', hb', hr.turn hb⟩

theorem Reaches.of_again {s'' : σ} (hb : body s = .again s') (h : Reaches body s' s'') :
    Reaches body s s'' := (Reaches.start.turn hb).trans h

/-- A loop whose turns go well exactly when `ok` holds of the state they start in: a turn that goes
well lowers the index of the invariant, and after one that does not the postcondition is lost. -/
theorem returns_iff_ok {ι : Type*} [LT ι] [WellFoundedLT ι] (inv : ι → σ → Prop) (ok : σ → Prop)
    (post : τ → Prop)
    (good : ∀ i s, inv i s → ok s → (∃ t, body s = .leave t ∧ post t) ∨
      ∃ j s', body s = .again s' ∧ inv j s' ∧ j < i)
    (bad : ∀ i s t, inv i s → ¬ ok s → Returns body s t → ¬ post t)
    (i : ι) (s : σ) (hs : inv i s) :
    (∃ t, Returns body s t ∧ post t) ↔ ∀ s', Reaches body s s' → ok s' := by
  induction i using WellFoundedLT.induction generalizing s with
  | _ i ih =>
    by_cases hok : ok s
    · rcases good i s hs hok with ⟨t, hb, ht⟩ | ⟨j, s', hb, hs', lower⟩
      · refine ⟨fun _ s' hs' => ?_, fun _ => ⟨t, Returns.of_leave hb, ht⟩⟩
        rcases hs'.first with rfl | ⟨s'', hb', -⟩
        · exact hok
        · cases hb.symm.trans hb'
      · refine Iff.trans ?_ ((ih j lower s' hs').trans ?_)
        · simp only [returns_again hb]
        · refine ⟨fun h r hr => ?_, fun h r hr => h r (hr.of_again hb)⟩
          rcases hr.first with rfl | ⟨s'', hb', hr⟩
          · exact hok
          · cases hb.symm.trans hb'
            exact h r hr
    · refine ⟨?_, fun h => absurd (h s .start) hok⟩
      rintro ⟨t, hr, ht⟩
      exact absurd ht (bad i s t hs hok hr)

/-- Total correctness: every turn lowers the index of the invariant. -/
theorem returns_of_progress {ι : Type*} [LT ι] [WellFoundedLT ι] (inv : ι → σ → Prop)
    (post : τ → Prop)
    (turn : ∀ i s, inv i s → (∃ t, body s = .leave t ∧ post t) ∨
      ∃ j s', body s = .again s' ∧ inv j s' ∧ j < i)
    (i : ι) (s : σ) (hs : inv i s) : ∃ t, Returns body s t ∧ post t :=
  (returns_iff_ok inv (fun _ => True) post (fun i s hs _ => turn i s hs)
    (fun _ _ _ _ h => absurd trivial h) i s hs).mpr fun _ _ => trivial

/-- Partial correctness: what every turn keeps and every exit turns into the postcondition. -/
theorem Returns.post (inv : σ → Prop) (post : τ → Prop) (hr : Returns body s t) (hs : inv s)
    (again : ∀ s s', inv s → body s = .again s' → inv s')
    (leave : ∀ s t, inv s → body s = .leave t → post t) : post t := by
  obtain ⟨n, hn⟩ := hr
  induction n generalizing s with
  | zero => simp [run] at hn
  | succ n ih =>
    cases hb : body s with
    | again s' => exact ih (again s s' hs hb) (by simpa [run, hb] using hn)
    | leave u =>
      obtain rfl : u = t := by simpa [run, hb] using hn
      exact leave s u hs hb
    | undefined => simp [run, hb] at hn

/-- A set of states that every turn keeps and never leaves. -/
theorem diverges_of_invariant (inv : σ → Prop)
    (turn : ∀ s, inv s → ∃ s', body s = .again s' ∧ inv s') (s : σ) (hs : inv s) :
    Diverges body s := by
  intro n
  induction n generalizing s with
  | zero => rfl
  | succ n ih =>
    obtain ⟨s', hb, hs'⟩ := turn s hs
    simpa [run, hb] using ih s' hs'

/-- What every turn keeps holds in every state reached. -/
theorem Reaches.invariant {inv : σ → Prop} (start : inv s)
    (turn : ∀ s s', inv s → body s = .again s' → inv s') (h : Reaches body s s') : inv s' := by
  induction h with
  | start => exact start
  | turn _ hb ih => exact turn _ _ ih hb

/-- The loop ends with `t`, and `inv` holds wherever its test is evaluated. -/
structure Completes (body : σ → Turn σ τ) (inv : σ → Prop) (s : σ) (t : τ) : Prop where
  returns : Returns body s t
  inv : ∀ s', Reaches body s s' → inv s'

theorem Completes.of_leave {inv : σ → Prop} (here : inv s) (h : body s = .leave t) :
    Completes body inv s t := by
  refine ⟨Returns.of_leave h, fun s' hs' => ?_⟩
  rcases hs'.first with rfl | ⟨s'', hb, -⟩
  · exact here
  · cases h.symm.trans hb

theorem Completes.of_again {inv : σ → Prop} (here : inv s) (h : body s = .again s')
    (next : Completes body inv s' t) : Completes body inv s t := by
  refine ⟨(returns_again h).mpr next.returns, fun s₁ hs₁ => ?_⟩
  rcases hs₁.first with rfl | ⟨s₂, hb, reach⟩
  · exact here
  · cases h.symm.trans hb
    exact next.inv s₁ reach

theorem Completes.next {inv : σ → Prop} (all : Completes body inv s t) (h : body s = .again s') :
    Completes body inv s' t :=
  ⟨(returns_again h).mp all.returns, fun s₁ hs₁ => all.inv s₁ (hs₁.of_again h)⟩

theorem Completes.of_same {inv : σ → Prop} (all : Completes body inv s t) (here : inv s')
    (h : body s' = body s) : Completes body inv s' t := by
  cases hb : body s with
  | again s₁ => exact .of_again here (h.trans hb) (all.next hb)
  | leave u =>
    obtain rfl : t = u := (returns_leave hb).mp all.returns
    exact .of_leave here (h.trans hb)
  | undefined => exact absurd all.returns (not_returns_undefined hb)

/-- Total correctness of a loop that only reaches states in which `ok` holds. -/
theorem completes_of_progress {ι : Type*} [LT ι] [WellFoundedLT ι] (inv : ι → σ → Prop)
    (ok good : σ → Prop) (post : τ → Prop)
    (turn : ∀ i s, inv i s → good s ∧ (ok s → (∃ t, body s = .leave t ∧ post t) ∨
      ∃ j s', body s = .again s' ∧ inv j s' ∧ j < i))
    (i : ι) (s : σ) (hs : inv i s) (all : ∀ s', Reaches body s s' → ok s') :
    ∃ t, Completes body good s t ∧ post t := by
  induction i using WellFoundedLT.induction generalizing s with
  | _ i ih =>
    obtain ⟨here, step⟩ := turn i s hs
    rcases step (all s .start) with ⟨t, hb, ht⟩ | ⟨j, s', hb, hs', lower⟩
    · exact ⟨t, .of_leave here hb, ht⟩
    · obtain ⟨t, completes, ht⟩ := ih j lower s' hs' fun s₁ reach => all s₁ (reach.of_again hb)
      exact ⟨t, completes.of_again here hb, ht⟩

/-- Wherever the loop comes, `inv` holds, and `post` when it ends. -/
structure Keeps (body : σ → Turn σ τ) (inv : σ → Prop) (post : τ → Prop) (s : σ) : Prop where
  inv : ∀ s', Reaches body s s' → inv s'
  post : ∀ t, Returns body s t → post t

theorem Keeps.of_turn {inv : σ → Prop} {post : τ → Prop} (here : inv s)
    (turn : (body s).Meets (Keeps body inv post) post) : Keeps body inv post s := by
  cases hb : body s with
  | again s₁ =>
    rw [hb] at turn
    have next : Keeps body inv post s₁ := turn
    refine ⟨fun s₂ reach => ?_, fun t ht => next.post t ((returns_again hb).mp ht)⟩
    rcases reach.first with rfl | ⟨s₃, hb', reach'⟩
    · exact here
    · cases hb.symm.trans hb'
      exact next.inv s₂ reach'
  | leave u =>
    rw [hb] at turn
    have last : post u := turn
    refine ⟨fun s₂ reach => ?_, fun t ht => ?_⟩
    · rcases reach.first with rfl | ⟨s₃, hb', -⟩
      · exact here
      · cases hb.symm.trans hb'
    · rw [(returns_leave hb).mp ht]
      exact last
  | undefined =>
    refine ⟨fun s₂ reach => ?_, fun t ht => absurd ht (not_returns_undefined hb)⟩
    rcases reach.first with rfl | ⟨s₃, hb', -⟩
    · exact here
    · cases hb.symm.trans hb'

theorem Keeps.turn {inv : σ → Prop} {post : τ → Prop} (all : Keeps body inv post s) :
    (body s).Meets (Keeps body inv post) post := by
  cases hb : body s with
  | again s₁ =>
    exact ⟨fun s₂ reach => all.inv s₂ (reach.of_again hb),
      fun t ht => all.post t ((returns_again hb).mpr ht)⟩
  | leave u => exact all.post u (Returns.of_leave hb)
  | undefined => trivial

end Loop

end Conet.Lib
