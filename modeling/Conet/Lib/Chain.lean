/- Module: Conet/Lib/Chain
   source: none (library)
   digest: Null-terminated singly linked chains over an arbitrary type of nodes. -/

import Mathlib.Data.List.Nodup
import Mathlib.Tactic.Common

set_option autoImplicit false
set_option relaxedAutoImplicit false

namespace Conet.Lib

universe u

variable {α : Type u}

/-- Following `next` from `p` visits exactly `xs` and then meets the null pointer. -/
def Chain (next : α → Option α) : Option α → List α → Prop
  | p, [] => p = none
  | p, x :: xs => p = some x ∧ Chain next (next x) xs

namespace Chain

variable {next next' : α → Option α} {p : Option α} {x : α} {xs ys : List α}

theorem unique (h : Chain next p xs) (h' : Chain next p ys) : xs = ys := by
  induction xs generalizing p ys with
  | nil =>
    cases ys with
    | nil => rfl
    | cons y ys => exact absurd (h.symm.trans h'.1) (by simp)
  | cons x xs ih =>
    cases ys with
    | nil => exact absurd (h'.symm.trans h.1) (by simp)
    | cons y ys =>
      obtain rfl : x = y := Option.some.inj (h.1.symm.trans h'.1)
      rw [ih h.2 h'.2]

theorem of_mem (h : Chain next p xs) (hx : x ∈ xs) :
    ∃ pre post, xs = pre ++ x :: post ∧ Chain next (next x) post := by
  induction xs generalizing p with
  | nil => simp at hx
  | cons y xs ih =>
    rcases List.mem_cons.mp hx with rfl | hx
    · exact ⟨[], xs, rfl, h.2⟩
    · obtain ⟨pre, post, rfl, tail⟩ := ih h.2 hx
      exact ⟨y :: pre, post, rfl, tail⟩

/-- A chain that ends cannot come back to a node it has passed. -/
theorem nodup (h : Chain next p xs) : xs.Nodup := by
  induction xs generalizing p with
  | nil => exact List.nodup_nil
  | cons x xs ih =>
    refine List.nodup_cons.mpr ⟨fun hx => ?_, ih h.2⟩
    obtain ⟨pre, post, he, tail⟩ := h.2.of_mem hx
    have same := congrArg List.length (h.2.unique tail)
    simp only [he, List.length_append, List.length_cons] at same
    omega

theorem congr (h : Chain next p xs) (same : ∀ z ∈ xs, next' z = next z) : Chain next' p xs := by
  induction xs generalizing p with
  | nil => exact h
  | cons x xs ih =>
    refine ⟨h.1, ?_⟩
    rw [same x (by simp)]
    exact ih h.2 fun z hz => same z (List.mem_cons_of_mem _ hz)

theorem none_iff (h : Chain next p xs) : p = none ↔ xs = [] := by
  cases xs with
  | nil => simpa [Chain] using h
  | cons x xs => simp [h.1]

end Chain

/-- Following `next` from `p` visits exactly `xs` and then arrives at `q`. -/
def Walk (next : α → Option α) : Option α → List α → Option α → Prop
  | p, [], q => p = q
  | p, x :: xs, q => p = some x ∧ Walk next (next x) xs q

namespace Walk

variable {next next' : α → Option α} {p q r : Option α} {x : α} {xs ys : List α}

theorem congr (walk : Walk next p xs q) (same : ∀ z ∈ xs, next' z = next z) :
    Walk next' p xs q := by
  induction xs generalizing p with
  | nil => exact walk
  | cons x xs ih =>
    refine ⟨walk.1, ?_⟩
    rw [same x (by simp)]
    exact ih walk.2 fun z hz => same z (List.mem_cons_of_mem _ hz)

theorem snoc (walk : Walk next p xs (some x)) : Walk next p (xs ++ [x]) (next x) := by
  induction xs generalizing p with
  | nil => exact ⟨walk, rfl⟩
  | cons y xs ih => exact ⟨walk.1, ih walk.2⟩

theorem of_snoc (walk : Walk next p (xs ++ [x]) q) : Walk next p xs (some x) := by
  induction xs generalizing p with
  | nil => exact walk.1
  | cons y xs ih => exact ⟨walk.1, ih walk.2⟩

theorem chain (walk : Walk next p xs q) (rest : Chain next q ys) : Chain next p (xs ++ ys) := by
  induction xs generalizing p with
  | nil => exact (show p = q from walk) ▸ rest
  | cons x xs ih => exact ⟨walk.1, ih walk.2⟩

end Walk

end Conet.Lib
