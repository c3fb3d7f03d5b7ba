/- Module: Conet/Lib/Bytes
   source: none (library)
   digest: Numbers as byte strings, and byte strings in a memory. -/

import Mathlib.Data.List.Basic
import Mathlib.Data.List.OfFn
import Mathlib.Tactic.Common
import Mathlib.Algebra.Order.Ring.Int
import Mathlib.Tactic.Ring

set_option autoImplicit false
set_option relaxedAutoImplicit false

namespace Conet.Lib

/-- The conversion of a 64-bit number to a signed one. -/
def toInt64 (n : ℕ) : ℤ := if n < 2 ^ 63 then n else n - 2 ^ 64

theorem toInt64_of_lt {n : ℕ} (h : n < 2 ^ 63) : toInt64 n = n := if_pos h

/-- The signed number that a sum is stored as. -/
def wrapInt64 (x : ℤ) : ℤ := toInt64 (x % 2 ^ 64).toNat

theorem wrapInt64_of_lt {x : ℤ} (nonneg : 0 ≤ x) (lt : x < 2 ^ 63) : wrapInt64 x = x := by
  have mod : x % 2 ^ 64 = x := Int.emod_eq_of_lt nonneg (by omega)
  rw [wrapInt64, mod, toInt64_of_lt (by omega)]
  omega

/-- The number with the given base 256 digits, least significant first. -/
@[grind =] def leNat : List UInt8 → ℕ
  | [] => 0
  | b :: bs => b.toNat + 256 * leNat bs

/-- The `k` lowest base 256 digits, least significant first. -/
@[grind =] def leBytes : ℕ → ℕ → List UInt8
  | 0, _ => []
  | k + 1, n => UInt8.ofNat n :: leBytes k (n / 256)

/-- The number with the given base 256 digits, most significant first. -/
def beNat (bs : List UInt8) : ℕ := leNat bs.reverse

/-- The `k` lowest base 256 digits, most significant first. -/
def beBytes (k n : ℕ) : List UInt8 := (leBytes k n).reverse

@[simp] theorem leBytes_length (k n : ℕ) : (leBytes k n).length = k := by
  induction k generalizing n with
  | zero => rfl
  | succ k ih => simp [leBytes, ih]

@[simp] theorem beBytes_length (k n : ℕ) : (beBytes k n).length = k := by simp [beBytes]

theorem leNat_leBytes (k n : ℕ) : leNat (leBytes k n) = n % 256 ^ k := by
  induction k generalizing n with
  | zero => simp [leBytes, leNat, Nat.mod_one]
  | succ k ih =>
    have low : (UInt8.ofNat n).toNat = n % 256 := by simp
    rw [leBytes, leNat, ih, low, pow_succ', Nat.mod_mul]

theorem beNat_beBytes (k n : ℕ) : beNat (beBytes k n) = n % 256 ^ k := by
  simp [beNat, beBytes, leNat_leBytes]

theorem leNat_lt (bs : List UInt8) : leNat bs < 256 ^ bs.length := by
  induction bs with
  | nil => simp [leNat]
  | cons b bs ih =>
    have digit : b.toNat < 256 := b.toNat_lt
    rw [leNat, List.length_cons, pow_succ']
    omega

theorem beNat_lt (bs : List UInt8) : beNat bs < 256 ^ bs.length := by
  simpa [beNat] using leNat_lt bs.reverse

/-- Digits beyond the length of the number are zero. -/
theorem leBytes_leNat (bs : List UInt8) (j : ℕ) :
    leBytes (bs.length + j) (leNat bs) = bs ++ List.replicate j 0 := by
  induction bs with
  | nil =>
    induction j with
    | zero => rfl
    | succ j ih => simpa [leBytes, leNat, List.replicate_succ] using ih
  | cons b bs ih =>
    have digit : b.toNat < 256 := b.toNat_lt
    have quot : (b.toNat + 256 * leNat bs) / 256 = leNat bs := by omega
    have rem : UInt8.ofNat (b.toNat + 256 * leNat bs) = b := by
      apply UInt8.toNat_inj.mp
      simp only [UInt8.toNat_ofNat']
      omega
    rw [List.length_cons, Nat.add_right_comm, leBytes, leNat, quot, rem, ih, List.cons_append]

/-- Zeros after the last digit multiply the number. -/
theorem beNat_append_replicate (bs : List UInt8) (j : ℕ) :
    beNat (bs ++ List.replicate j 0) = 256 ^ j * beNat bs := by
  rw [beNat, beNat, List.reverse_append, List.reverse_replicate]
  induction j with
  | zero => simp
  | succ j ih => simp [List.replicate_succ, leNat, ih, pow_succ', mul_assoc]

section Memory

/-- The `n` bytes of a memory from address `a` on. -/
def slice (m : ℤ → UInt8) (a : ℤ) (n : ℕ) : List UInt8 := (List.range n).map fun i : ℕ => m (a + i)

/-- The memory with the bytes `bs` written from address `a` on. -/
def write (m : ℤ → UInt8) (a : ℤ) (bs : List UInt8) : ℤ → UInt8 := fun i =>
  if a ≤ i ∧ i < a + bs.length then bs.getD (i - a).toNat 0 else m i

variable {m m' : ℤ → UInt8} {a : ℤ} {n : ℕ} {bs : List UInt8}

@[simp] theorem slice_length (m : ℤ → UInt8) (a : ℤ) (n : ℕ) : (slice m a n).length = n := by
  simp [slice]

@[simp] theorem slice_zero (m : ℤ → UInt8) (a : ℤ) : slice m a 0 = [] := rfl

theorem slice_add (m : ℤ → UInt8) (a : ℤ) (j k : ℕ) :
    slice m a (j + k) = slice m a j ++ slice m (a + j) k := by
  unfold slice
  rw [List.range_add, List.map_append, List.map_map]
  congr 1
  refine List.map_congr_left fun i _ => ?_
  simp [add_assoc]

theorem slice_part (m : ℤ → UInt8) (a : ℤ) {i n l : ℕ} (le : i + n ≤ l) :
    slice m (a + i) n = ((slice m a l).drop i).take n := by
  obtain ⟨rest, rfl⟩ := Nat.exists_eq_add_of_le le
  rw [slice_add, slice_add]
  simp

theorem slice_congr (same : ∀ i, a ≤ i → i < a + n → m i = m' i) : slice m a n = slice m' a n := by
  unfold slice
  refine List.map_congr_left fun i hi => same _ (by omega) ?_
  have lt := List.mem_range.mp hi
  omega

theorem slice_write (m : ℤ → UInt8) (a : ℤ) (bs : List UInt8) :
    slice (write m a bs) a bs.length = bs := by
  refine List.ext_getElem (by simp) fun i hi hi' => ?_
  have inside : a ≤ a + i ∧ a + i < a + bs.length := by omega
  have index : (a + (i : ℤ) - a).toNat = i := by omega
  simp only [slice, List.getElem_map, List.getElem_range, write, inside, and_self, if_true, index]
  simp [List.getD_eq_getElem?_getD, hi']

theorem slice_write_part (m : ℤ → UInt8) (a : ℤ) (xs ys zs : List UInt8) :
    slice (write m a (xs ++ (ys ++ zs))) (a + xs.length) ys.length = ys := by
  have all := slice_write m a (xs ++ (ys ++ zs))
  rw [List.length_append, List.length_append, slice_add, slice_add] at all
  have tail := (List.append_inj all (by simp)).2
  exact (List.append_inj tail (by simp)).1

theorem slice_write_of_le {b : ℤ} (le : a + n ≤ b) (bs : List UInt8) :
    slice (write m b bs) a n = slice m a n := by
  refine slice_congr fun i hi lt => ?_
  simp only [write]
  rw [if_neg (by omega)]

theorem slice_write_of_ge {b : ℤ} (le : b + bs.length ≤ a) :
    slice (write m b bs) a n = slice m a n := by
  refine slice_congr fun i hi lt => ?_
  simp only [write]
  rw [if_neg (by omega)]

end Memory

end Conet.Lib
