/- Module: Conet/Lib/Directory
   source: none (library)
   digest: Directories with remove and rename, and files that move up a chain of names. -/

import Mathlib.Logic.Function.Basic
import Mathlib.Tactic.Common

set_option autoImplicit false
set_option relaxedAutoImplicit false

namespace Conet.Lib

universe u v

/-- The files of a directory by their names. -/
abbrev Directory (N : Type u) (F : Type v) := N → Option F

namespace Directory

variable {N : Type u} {F : Type v}

section Calls

variable [DecidableEq N]

/-- `remove`, which fails where there is no file of the name. -/
def remove (dir : Directory N F) (name : N) : Option (Directory N F) :=
  if dir name = none then none else some (Function.update dir name none)

/-- `rename`, which fails where there is no file of the old name. The file that has the new name is
lost; renaming a file to its own name does nothing. -/
def rename (dir : Directory N F) (src dst : N) : Option (Directory N F) :=
  if dir src = none then none
  else some (Function.update (Function.update dir src none) dst (dir src))

end Calls

/-- From `dir` to `dir'` the files of the names `lo`, …, `hi - 1` of a chain move up by one name; the one
of `hi` is lost, and `lo` is free. -/
structure MovesUp (name : ℕ → N) (lo hi : ℕ) (dir dir' : Directory N F) : Prop where
  free : dir' (name lo) = none
  moved : ∀ i, lo ≤ i → i < hi → dir' (name (i + 1)) = dir (name i)
  rest : ∀ n, (∀ i, lo ≤ i → i ≤ hi → n ≠ name i) → dir' n = dir n

variable {name : ℕ → N} {lo hi i : ℕ} {dir dir' dir'' : Directory N F} {src dst n : N} {f : F}

namespace MovesUp

theorem unique (moves : MovesUp name lo hi dir dir') (moves' : MovesUp name lo hi dir dir'') :
    dir' = dir'' := by
  ext1 n
  by_cases chain : ∃ i, lo ≤ i ∧ i ≤ hi ∧ n = name i
  · obtain ⟨i, above, below, rfl⟩ := chain
    obtain rfl | later := Nat.eq_or_lt_of_le above
    · rw [moves.free, moves'.free]
    · obtain ⟨i, rfl⟩ : ∃ j, i = j + 1 := ⟨i - 1, by omega⟩
      rw [moves.moved i (by omega) (by omega), moves'.moved i (by omega) (by omega)]
  · have apart : ∀ i, lo ≤ i → i ≤ hi → n ≠ name i := fun i above below same =>
      chain ⟨i, above, below, same⟩
    rw [moves.rest n apart, moves'.rest n apart]

theorem below (moves : MovesUp name lo hi dir dir') (inj : Function.Injective name) (small : i < lo) :
    dir' (name i) = dir (name i) := by
  refine moves.rest (name i) fun j above within same => ?_
  have := inj same
  omega

/-- Where there is no file at and below `lo`, nothing more moves. -/
theorem extend (moves : MovesUp name lo hi dir dir') (le : lo ≤ hi)
    (inj : Function.Injective name)
    (missing : ∀ i, i ≤ lo → dir (name i) = none) : MovesUp name 0 hi dir dir' := by
  have low : ∀ i, i ≤ lo → dir' (name i) = none := by
    intro i within
    obtain rfl | small := Nat.eq_or_lt_of_le within
    · exact moves.free
    · rw [moves.below inj small, missing i within]
  refine ⟨low 0 (Nat.zero_le lo), fun i _ small => ?_, fun n apart => ?_⟩
  · by_cases above : lo ≤ i
    · exact moves.moved i above small
    · rw [low (i + 1) (by omega), missing i (by omega)]
  · exact moves.rest n fun i _ within => apart i (Nat.zero_le i) within

/-- If it is also true that all files move, there is none below `lo`. -/
theorem missing_below (moves : MovesUp name lo hi dir dir') (all : MovesUp name 0 hi dir dir')
    (inj : Function.Injective name) (le : lo ≤ hi) (small : i < lo) : dir (name i) = none := by
  induction i with
  | zero => rw [← moves.below inj small, all.free]
  | succ i ih =>
    rw [← moves.below inj small, all.moved i (Nat.zero_le i) (by omega), ih (by omega)]

end MovesUp

theorem movesUp_refl (free : dir (name hi) = none) : MovesUp name hi hi dir dir :=
  ⟨free, fun _ above small => absurd small (Nat.not_lt.mpr above), fun _ _ => rfl⟩

/-- Where all files stay in their places, there is none in the chain. -/
theorem MovesUp.missing (stays : MovesUp name 0 hi dir dir) (within : i ≤ hi) :
    dir (name i) = none := by
  induction i with
  | zero => exact stays.free
  | succ i ih => rw [stays.moved i (Nat.zero_le i) within, ih (by omega)]

variable [DecidableEq N]

theorem remove_eq_none : remove dir n = none ↔ dir n = none := by
  simp [remove]

theorem rename_eq_none : rename dir src dst = none ↔ dir src = none := by
  simp [rename]

theorem movesUp_remove (removed : remove dir (name hi) = some dir') :
    MovesUp name hi hi dir dir' := by
  rw [remove] at removed
  split_ifs at removed
  obtain rfl := Option.some.inj removed
  refine ⟨Function.update_self .., fun i above small => absurd small (Nat.not_lt.mpr above), ?_⟩
  intro n apart
  exact Function.update_of_ne (apart hi (Nat.le_refl _) (Nat.le_refl _)) ..

theorem MovesUp.rename (moves : MovesUp name (i + 1) hi dir dir') (le : i < hi)
    (inj : Function.Injective name) :
    MovesUp name i hi dir ((rename dir' (name i) (name (i + 1))).getD dir') := by
  have here : dir' (name i) = dir (name i) := moves.below inj (Nat.lt_succ_self i)
  have other : name i ≠ name (i + 1) := fun same => by
    have := inj same
    omega
  unfold Directory.rename
  by_cases missing : dir' (name i) = none
  · rw [if_pos missing, Option.getD_none]
    refine ⟨missing, fun j above small => ?_, fun n apart => ?_⟩
    · obtain rfl | later := Nat.eq_or_lt_of_le above
      · rw [moves.free, ← here, missing]
      · exact moves.moved j later small
    · exact moves.rest n fun j above within => apart j (by omega) within
  · rw [if_neg missing, Option.getD_some]
    refine ⟨?_, fun j above small => ?_, fun n apart => ?_⟩
    · rw [Function.update_of_ne other, Function.update_self]
    · obtain rfl | later := Nat.eq_or_lt_of_le above
      · rw [Function.update_self, here]
      · have next : name (j + 1) ≠ name (i + 1) := fun same => by
          have := inj same
          omega
        have first : name (j + 1) ≠ name i := fun same => by
          have := inj same
          omega
        rw [Function.update_of_ne next, Function.update_of_ne first, moves.moved j later small]
    · rw [Function.update_of_ne (apart (i + 1) (by omega) le),
        Function.update_of_ne (apart i (Nat.le_refl _) (by omega))]
      exact moves.rest n fun j above within => apart j (by omega) within

theorem rename_gone (gone : ∀ n, dir n ≠ some f) : ∀ n, (rename dir src dst).getD dir n ≠ some f := by
  intro n
  unfold Directory.rename
  split_ifs
  · exact gone n
  · rw [Option.getD_some, Function.update_apply, Function.update_apply]
    split_ifs
    · exact gone src
    · simp
    · exact gone n

end Directory

end Conet.Lib
