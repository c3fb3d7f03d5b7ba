/- Module: Conet/Lib/Mixing
   source: none (library)
   digest: The steps of which hash functions and generators are made, none of which merges two words. -/

import Mathlib.Data.BitVec
import Mathlib.Data.Nat.ModEq
import Mathlib.Data.Nat.Prime.Basic
import Mathlib.Logic.Function.Basic
import Mathlib.Tactic.Common

set_option autoImplicit false
set_option relaxedAutoImplicit false

namespace Conet.Lib.Mixing

open Function

universe u v

variable {w r : ℕ}

/-! A word mixed with a shift of itself. -/

theorem eq_zero_of_ushiftRight {z : BitVec w} (pos : 0 < r) (same : z = z >>> r) : z = 0 := by
  have bit (n i : ℕ) (near : w ≤ i + n) : z.getLsbD i = false := by
    induction n generalizing i with
    | zero => exact BitVec.getLsbD_of_ge z i near
    | succ n ih =>
      rw [same, BitVec.getLsbD_ushiftRight]
      exact ih (r + i) (by omega)
  apply BitVec.eq_of_getLsbD_eq
  intro i lt
  rw [bit w i (by omega)]
  exact BitVec.getLsbD_zero.symm

theorem eq_zero_of_shiftLeft {z : BitVec w} (pos : 0 < r) (same : z = z <<< r) : z = 0 := by
  have bit (i : ℕ) : z.getLsbD i = false := by
    induction i using Nat.strong_induction_on with
    | _ i ih =>
      rw [same, BitVec.getLsbD_shiftLeft]
      by_cases low : i < r
      · simp [low]
      · simp [ih (i - r) (by omega)]
  apply BitVec.eq_of_getLsbD_eq
  intro i lt
  rw [bit i]
  exact BitVec.getLsbD_zero.symm

theorem xor_map_injective {f : BitVec w → BitVec w} (distrib : ∀ x y, f (x ^^^ y) = f x ^^^ f y)
    (fixed : ∀ z, z = f z → z = 0) : Injective fun x => x ^^^ f x := by
  intro x y (same : x ^^^ f x = y ^^^ f y)
  have apart : x ^^^ y = f (x ^^^ y) := by
    rw [distrib]
    calc x ^^^ y = (x ^^^ f x) ^^^ f x ^^^ y := by
          rw [BitVec.xor_assoc x (f x) (f x), BitVec.xor_self, BitVec.xor_zero]
      _ = (y ^^^ f y) ^^^ f x ^^^ y := by rw [same]
      _ = f x ^^^ f y := by
        rw [BitVec.xor_comm y, BitVec.xor_assoc, BitVec.xor_assoc, BitVec.xor_comm y,
          BitVec.xor_assoc, BitVec.xor_self, BitVec.xor_zero, BitVec.xor_comm]
  exact BitVec.xor_eq_zero_iff.mp (fixed _ apart)

theorem xor_ushiftRight_injective (pos : 0 < r) : Injective fun x : BitVec w => x ^^^ x >>> r :=
  xor_map_injective (fun x y => BitVec.ushiftRight_xor_distrib x y r) fun _ =>
    eq_zero_of_ushiftRight pos

theorem xor_shiftLeft_injective (pos : 0 < r) : Injective fun x : BitVec w => x ^^^ x <<< r :=
  xor_map_injective (fun x y => BitVec.shiftLeft_xor_distrib x y r) fun _ =>
    eq_zero_of_shiftLeft pos

theorem xor_left_injective (x : BitVec w) : Injective (x ^^^ ·) := by
  intro y z (same : x ^^^ y = x ^^^ z)
  have undone := congrArg (x ^^^ ·) same
  simpa [← BitVec.xor_assoc] using undone

theorem xor_right_injective (x : BitVec w) : Injective (· ^^^ x) := by
  intro y z (same : y ^^^ x = z ^^^ x)
  rw [BitVec.xor_comm y, BitVec.xor_comm z] at same
  exact xor_left_injective x same

theorem mul_injective {a : BitVec w} (odd : a.toNat % 2 = 1) : Injective (· * a) := by
  intro x y (same : x * a = y * a)
  have nat : x.toNat * a.toNat ≡ y.toNat * a.toNat [MOD 2 ^ w] := by
    have toNat := congrArg BitVec.toNat same
    rwa [BitVec.toNat_mul, BitVec.toNat_mul] at toNat
  have coprime : Nat.Coprime (2 ^ w) a.toNat := by
    apply Nat.Coprime.pow_left
    rw [Nat.prime_two.coprime_iff_not_dvd]
    omega
  have reduced := Nat.ModEq.cancel_right_of_coprime coprime nat
  apply BitVec.eq_of_toNat_eq
  rwa [Nat.ModEq, Nat.mod_eq_of_lt x.isLt, Nat.mod_eq_of_lt y.isLt] at reduced

/-! A hash that takes its blocks one after another. -/

section Blocks

variable {S : Type u} {B : Type v} {step : S → B → S}

theorem foldl_injective (states : ∀ b, Injective (step · b)) (bs : List B) :
    Injective fun s => bs.foldl step s := by
  induction bs with
  | nil => exact injective_id
  | cons b bs ih => exact ih.comp (states b)

/-- Two keys that differ in one block come to different states. -/
theorem foldl_ne (states : ∀ b, Injective (step · b)) (blocks : ∀ s, Injective (step s))
    (pre post : List B) {b b' : B} (ne : b ≠ b') (s : S) :
    (pre ++ b :: post).foldl step s ≠ (pre ++ b' :: post).foldl step s := by
  rw [List.foldl_append, List.foldl_append, List.foldl_cons, List.foldl_cons]
  exact (foldl_injective states post).ne ((blocks _).ne ne)

end Blocks

end Conet.Lib.Mixing
