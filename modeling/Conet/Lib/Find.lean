/- Module: Conet/Lib/Find
   source: none (library)
   digest: The first occurrence of a pattern in a list. -/

import Mathlib.Data.List.Infix
import Mathlib.Tactic.Common

set_option autoImplicit false
set_option relaxedAutoImplicit false

namespace Conet.Lib

universe u

variable {α : Type u}

/-- The first occurrence of `pat` in `s` is the one between `pre` and `rest`. -/
structure First (pat s pre rest : List α) : Prop where
  split : s = pre ++ (pat ++ rest)
  first : ∀ pre' rest', s = pre' ++ (pat ++ rest') → pre.length ≤ pre'.length

section Find

variable [DecidableEq α]

/-- Where the first occurrence of `pat` begins. -/
def find (pat : List α) : List α → Option ℕ
  | [] => if pat = [] then some 0 else none
  | c :: s => if pat <+: c :: s then some 0 else (find pat s).map (· + 1)

end Find

variable {pat s pre rest pre' rest' : List α} {c : α} {k : ℕ}

namespace First

theorem unique (first : First pat s pre rest) (first' : First pat s pre' rest') :
    pre = pre' ∧ rest = rest' := by
  have length : pre.length = pre'.length :=
    Nat.le_antisymm (first.first _ _ first'.split) (first'.first _ _ first.split)
  obtain ⟨same, tail⟩ := List.append_inj (first.split.symm.trans first'.split) length
  exact ⟨same, List.append_cancel_left tail⟩

theorem isInfix (first : First pat s pre rest) : pat <:+: s :=
  ⟨pre, rest, by rw [first.split, List.append_assoc]⟩

theorem nil (pre : pat <+: s) : ∃ rest, First pat s [] rest := by
  obtain ⟨rest, rfl⟩ := pre
  exact ⟨rest, rfl, fun _ _ _ => Nat.zero_le _⟩

theorem cons (first : First pat s pre rest) (later : ¬ pat <+: c :: s) :
    First pat (c :: s) (c :: pre) rest := by
  refine ⟨by rw [first.split, List.cons_append], fun pre' rest' split => ?_⟩
  cases pre' with
  | nil => exact absurd ⟨rest', split.symm⟩ later
  | cons d pre' =>
    obtain ⟨-, tail⟩ := List.cons.inj split
    exact Nat.succ_le_succ (first.first pre' rest' tail)

theorem drop (first : First pat s pre rest) : s.drop (pre.length + pat.length) = rest := by
  rw [first.split, ← List.append_assoc, List.drop_left' (List.length_append)]

theorem take (first : First pat s pre rest) : s.take pre.length = pre := by
  rw [first.split, List.take_left]

end First

variable [DecidableEq α]

theorem find_eq_some (found : find pat s = some k) :
    ∃ pre rest, First pat s pre rest ∧ pre.length = k := by
  induction s generalizing k with
  | nil =>
    rw [find] at found
    split_ifs at found with empty
    obtain rfl := Option.some.inj found
    have here : pat <+: [] := by rw [empty]
    obtain ⟨rest, first⟩ := First.nil here
    exact ⟨[], rest, first, rfl⟩
  | cons c s ih =>
    rw [find] at found
    split_ifs at found with here
    · obtain rfl := Option.some.inj found
      obtain ⟨rest, first⟩ := First.nil here
      exact ⟨[], rest, first, rfl⟩
    · obtain ⟨j, later, rfl⟩ := Option.map_eq_some_iff.mp found
      obtain ⟨pre, rest, first, rfl⟩ := ih later
      exact ⟨c :: pre, rest, first.cons here, rfl⟩

theorem find_eq_none (missing : find pat s = none) : ¬ pat <:+: s := by
  induction s with
  | nil =>
    rw [find] at missing
    split_ifs at missing with empty
    rwa [List.infix_nil]
  | cons c s ih =>
    rw [find] at missing
    split_ifs at missing with here
    rw [List.infix_cons_iff]
    exact not_or.mpr ⟨here, ih (Option.map_eq_none_iff.mp missing)⟩

theorem find_first (first : First pat s pre rest) : find pat s = some pre.length := by
  cases found : find pat s with
  | none => exact absurd first.isInfix (find_eq_none found)
  | some k =>
    obtain ⟨pre', rest', first', rfl⟩ := find_eq_some found
    rw [(first.unique first').1]

theorem find_none (missing : ¬ pat <:+: s) : find pat s = none := by
  cases found : find pat s with
  | none => rfl
  | some k =>
    obtain ⟨pre, rest, first, -⟩ := find_eq_some found
    exact absurd first.isInfix missing

/-- A pattern occurs nowhere, or somewhere for the first time. -/
theorem infix_or_first (pat s : List α) : ¬ pat <:+: s ∨ ∃ pre rest, First pat s pre rest := by
  cases found : find pat s with
  | none => exact .inl (find_eq_none found)
  | some k =>
    obtain ⟨pre, rest, first, -⟩ := find_eq_some found
    exact .inr ⟨pre, rest, first⟩

end Conet.Lib
