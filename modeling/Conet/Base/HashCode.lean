/- Module: Conet/Base/HashCode
   source: base/int_map.h, base/addr_map.h, base/src/murmurhash3.cpp
   digest: The hash codes of the maps: those of numbers and addresses never collide, those of strings not
     for keys that differ in one word. -/

import Conet.Lib.Bytes
import Conet.Lib.Mixing

set_option autoImplicit false
set_option relaxedAutoImplicit false

namespace Conet.Base.HashCode

open Conet.Lib Conet.Lib.Mixing Function

/-- `IntMap::hash_code`. -/
def intHashCode (key : BitVec 64) : BitVec 64 :=
  let key := ~~~key + key <<< 21
  let key := key ^^^ key >>> 24
  let key := (key + key <<< 3) + key <<< 8
  let key := key ^^^ key >>> 14
  let key := (key + key <<< 2) + key <<< 4
  let key := key ^^^ key >>> 28
  key + key <<< 31

/-- `AddrMap::hash_code`. -/
def addrHashCode (addr : BitVec 64) : BitVec 64 := addr * 2654435761

/-- Little-endian, as `*data` reads it. -/
def word (bytes : List UInt8) : BitVec 64 := BitVec.ofNat 64 (leNat bytes)

/-- The 64-bit words that the loop of `MurmurHash64A` reads. -/
def blocks (key : List UInt8) : List (BitVec 64) :=
  (List.range (key.length / 8)).map fun i => word ((key.drop (8 * i)).take 8)

def rest (key : List UInt8) : List UInt8 := key.drop (8 * (key.length / 8))

def murmurM : BitVec 64 := 0xc6a4a7935bd1e995

def murmurBlock (h k : BitVec 64) : BitVec 64 :=
  let k := k * murmurM
  let k := k ^^^ k >>> 47
  let k := k * murmurM
  (h ^^^ k) * murmurM

/-- The `switch` falls through from the last byte of the tail to its first. -/
def murmurTail (h : BitVec 64) (tail : List UInt8) : BitVec 64 :=
  if tail = [] then h
  else tail.zipIdx.foldr (fun (b, i) h => h ^^^ (b.toBitVec.zeroExtend 64 <<< (8 * i))) h * murmurM

def murmurFinal (h : BitVec 64) : BitVec 64 :=
  let h := h ^^^ h >>> 47
  let h := h * murmurM
  h ^^^ h >>> 47

/-- `MurmurHash64A(key, len, seed)`; `len` is below `2 ^ 31`. -/
def murmurHash64A (key : List UInt8) (seed : BitVec 32) : BitVec 64 :=
  let h := seed.zeroExtend 64 ^^^ (BitVec.ofNat 64 key.length * murmurM)
  let h := (blocks key).foldl murmurBlock h
  murmurFinal (murmurTail h (rest key))

section Numbers

/-- A sum with a shift is a product, with an odd number if the shift is not by 0. -/
theorem mul_add_shiftLeft (x a : BitVec 64) (i : ℕ) :
    x * a + x <<< i = x * (a + BitVec.twoPow 64 i) := by
  rw [BitVec.shiftLeft_eq_mul_twoPow, BitVec.mul_add]

theorem add_shiftLeft (x : BitVec 64) (i : ℕ) : x + x <<< i = x * (1#64 + BitVec.twoPow 64 i) := by
  rw [← mul_add_shiftLeft, BitVec.mul_one]

theorem not_shift_21 (x : BitVec 64) : ~~~x + x <<< 21 = x * 0x1fffff - 1#64 := by
  have high : BitVec.twoPow 64 21 = 0x200000 := by decide
  rw [BitVec.shiftLeft_eq_mul_twoPow, high, BitVec.not_eq_neg_add]
  ring

theorem intHashCode_injective : Injective intHashCode := by
  intro x y same
  simp only [intHashCode, not_shift_21, add_shiftLeft, mul_add_shiftLeft] at same
  have same := mul_injective (by decide) same
  have same := xor_ushiftRight_injective (by decide) same
  have same := mul_injective (by decide) same
  have same := xor_ushiftRight_injective (by decide) same
  have same := mul_injective (by decide) same
  have same := xor_ushiftRight_injective (by decide) same
  exact mul_injective (by decide) (sub_left_injective same)

theorem addrHashCode_injective : Injective addrHashCode := by
  have odd : (2654435761#64).toNat % 2 = 1 := by decide
  exact mul_injective odd

end Numbers

section Murmur

theorem murmurM_odd : murmurM.toNat % 2 = 1 := by decide

theorem murmurBlock_states (k : BitVec 64) : Injective (murmurBlock · k) :=
  (mul_injective murmurM_odd).comp (xor_right_injective _)

theorem murmurBlock_blocks (h : BitVec 64) : Injective (murmurBlock h) := by
  intro k k' same
  have same := xor_left_injective h (mul_injective murmurM_odd same)
  have same := mul_injective murmurM_odd same
  exact mul_injective murmurM_odd (xor_ushiftRight_injective (by decide) same)

theorem murmurFinal_injective : Injective murmurFinal := by
  intro h h' same
  have same := xor_ushiftRight_injective (by decide) same
  exact xor_ushiftRight_injective (by decide) (mul_injective murmurM_odd same)

/-- What the bytes of the tail from the `n`th on are mixed in with. -/
def tailWord : ℕ → List UInt8 → BitVec 64
  | _, [] => 0
  | n, b :: bs => tailWord (n + 1) bs ^^^ (b.toBitVec.zeroExtend 64 <<< (8 * n))

theorem foldr_tail (h : BitVec 64) (tail : List UInt8) (n : ℕ) :
    (tail.zipIdx n).foldr (fun (b, i) h => h ^^^ (b.toBitVec.zeroExtend 64 <<< (8 * i))) h =
      h ^^^ tailWord n tail := by
  induction tail generalizing n with
  | nil => simp [tailWord]
  | cons b bs ih => 
    rw [List.zipIdx_cons, List.foldr_cons, ih, tailWord]
    exact BitVec.xor_assoc ..

theorem murmurTail_eq (h : BitVec 64) {tail : List UInt8} (some : tail ≠ []) :
    murmurTail h tail = (h ^^^ tailWord 0 tail) * murmurM := by
  rw [murmurTail, if_neg some, foldr_tail]

theorem murmurTail_states (tail : List UInt8) : Injective (murmurTail · tail) := by
  by_cases some : tail = []
  · simp only [murmurTail, some, if_true]
    exact injective_id
  · simp only [murmurTail_eq _ some]
    exact (mul_injective murmurM_odd).comp (xor_right_injective _)

theorem tailWord_low (tail : List UInt8) {n i : ℕ} (low : i < 8 * n) :
    (tailWord n tail).getLsbD i = false := by
  induction tail generalizing n with
  | nil => simp [tailWord]
  | cons b bs ih =>
    rw [tailWord, BitVec.getLsbD_xor, ih (by omega), BitVec.getLsbD_shiftLeft]
    simp [low]

theorem tailWord_first (b : UInt8) (bs : List UInt8) {n j : ℕ} (byte : j < 8) (fits : 8 * n + j < 64) :
    (tailWord n (b :: bs)).getLsbD (8 * n + j) = b.toBitVec.getLsbD j := by
  rw [tailWord, BitVec.getLsbD_xor, tailWord_low bs (by omega), BitVec.getLsbD_shiftLeft]
  have inside : j < 64 := by omega
  simp [fits, inside]

theorem tailWord_injective {bs cs : List UInt8} {n : ℕ} (length : bs.length = cs.length)
    (fits : n + bs.length ≤ 8) (same : tailWord n bs = tailWord n cs) : bs = cs := by
  induction bs generalizing cs n with
  | nil => exact (List.length_eq_zero_iff.mp length.symm).symm
  | cons b bs ih =>
    cases cs with
    | nil => simp at length
    | cons c cs =>
      have first : b = c := by
        apply UInt8.toBitVec_inj.mp
        apply BitVec.eq_of_getLsbD_eq
        intro j byte
        have fits : 8 * n + j < 64 := by
          rw [List.length_cons] at fits
          omega
        rw [← tailWord_first b bs byte fits, same, tailWord_first c cs byte fits]
      subst first
      have rest := xor_right_injective _ same
      rw [List.length_cons] at fits
      rw [ih (by simpa using length) (by omega) rest]

theorem word_injective {bs cs : List UInt8} (length : bs.length = cs.length) (fits : bs.length ≤ 8)
    (same : word bs = word cs) : bs = cs := by
  have bound : 256 ^ bs.length ≤ 2 ^ 64 := by
    calc 256 ^ bs.length ≤ 256 ^ 8 := Nat.pow_le_pow_right (by decide) fits
      _ = 2 ^ 64 := by decide
  have nat := congrArg BitVec.toNat same
  rw [word, word, BitVec.toNat_ofNat, BitVec.toNat_ofNat,
    Nat.mod_eq_of_lt ((leNat_lt bs).trans_le bound),
    Nat.mod_eq_of_lt ((leNat_lt cs).trans_le (length ▸ bound))] at nat
  have left := leBytes_leNat bs 0
  have right := leBytes_leNat cs 0
  rw [← nat, ← length, left] at right
  simpa using right

theorem blocks_append {a c : List UInt8} (aligned : a.length % 8 = 0) :
    blocks (a ++ c) = blocks a ++ blocks c := by
  obtain ⟨n, len⟩ : ∃ n, a.length = 8 * n := ⟨a.length / 8, by omega⟩
  have count : (a ++ c).length / 8 = n + c.length / 8 := by
    rw [List.length_append]
    omega
  rw [blocks, blocks, blocks, count, len, Nat.mul_div_cancel_left n (by decide), List.range_add,
    List.map_append, List.map_map]
  congr 1
  · apply List.map_congr_left
    intro i mem
    have inside := List.mem_range.mp mem
    rw [List.drop_append_of_le_length (by omega), List.take_append_of_le_length]
    rw [List.length_drop]
    omega
  · apply List.map_congr_left
    intro i _
    have past : a.length + 8 * i = 8 * (n + i) := by omega
    rw [comp_apply, ← past, List.drop_append, List.drop_eq_nil_of_le (by omega)]
    simp

theorem blocks_short {c : List UInt8} (short : c.length < 8) : blocks c = [] := by
  rw [blocks, Nat.div_eq_of_lt short]
  rfl

theorem blocks_one {b : List UInt8} (whole : b.length = 8) : blocks b = [word b] := by
  have all : b.take 8 = b := List.take_of_length_le (Nat.le_of_eq whole)
  rw [blocks, whole]
  simp [all]

theorem rest_append {a c : List UInt8} (aligned : a.length % 8 = 0) : rest (a ++ c) = rest c := by
  have past : 8 * ((a ++ c).length / 8) = a.length + 8 * (c.length / 8) := by
    rw [List.length_append]
    omega
  rw [rest, past, List.drop_append, List.drop_eq_nil_of_le (by omega)]
  simp [rest]

theorem rest_short {c : List UInt8} (short : c.length < 8) : rest c = c := by
  rw [rest, Nat.div_eq_of_lt short]
  rfl

/-- Two keys of one length never have the same hash when they differ in one aligned word only, or in the
bytes behind the last one. -/
theorem murmurHash64A_ne {a b b' c : List UInt8} (seed : BitVec 32) (aligned : a.length % 8 = 0)
    (length : b.length = b'.length) (le : b.length ≤ 8) (whole : b.length < 8 → c = []) (ne : b ≠ b') :
    murmurHash64A (a ++ (b ++ c)) seed ≠ murmurHash64A (a ++ (b' ++ c)) seed := by
  have lengths : (a ++ (b ++ c)).length = (a ++ (b' ++ c)).length := by simp [length]
  intro same
  have same := murmurFinal_injective same
  rw [lengths, blocks_append aligned, blocks_append aligned, rest_append aligned,
    rest_append aligned, List.foldl_append, List.foldl_append] at same
  generalize (blocks a).foldl murmurBlock _ = h at same
  by_cases short : b.length < 8
  · obtain rfl := whole short
    have short' : b'.length < 8 := length ▸ short
    have some : b ≠ [] := by
      rintro rfl
      exact ne (List.length_eq_zero_iff.mp length.symm).symm
    have some' : b' ≠ [] := by
      rintro rfl
      exact ne (List.length_eq_zero_iff.mp length)
    rw [List.append_nil, List.append_nil, blocks_short short, blocks_short short', rest_short short,
      rest_short short', murmurTail_eq _ some, murmurTail_eq _ some'] at same
    have words := xor_left_injective h (mul_injective murmurM_odd same)
    exact ne (tailWord_injective length (by omega) words)
  · have eight : b.length = 8 := by omega
    have eight' : b'.length = 8 := length ▸ eight
    rw [rest_append (by omega), rest_append (by omega), blocks_append (by omega),
      blocks_append (by omega), blocks_one eight, blocks_one eight'] at same
    have same := murmurTail_states _ same
    refine foldl_ne murmurBlock_states murmurBlock_blocks [] (blocks c) ?_ h same
    exact fun words => ne (word_injective length le words)

end Murmur

/-- Two keys of nine bytes: the second byte differs. -/
theorem murmurHash64A_ne_nine : murmurHash64A ([] ++ ([1, 2, 3, 4, 5, 6, 7, 8] ++ [9])) 0 ≠
    murmurHash64A ([] ++ ([1, 7, 3, 4, 5, 6, 7, 8] ++ [9])) 0 :=
  murmurHash64A_ne 0 rfl rfl (by decide) (by decide) (by decide)

end Conet.Base.HashCode
