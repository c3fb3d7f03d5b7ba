/- Module: Conet/Base/Base64
   source: base/src/base64.cpp
   digest: The encoder that pads and the decoder that is compiled without padding: which byte strings
   come back, and which texts are rejected. -/

import Conet.Base.Pbc
import Conet.Base.HttpParser

set_option autoImplicit false
set_option relaxedAutoImplicit false

namespace Conet.Base.Base64

open Conet.Lib
open Conet.Base.HttpParser (codes)
open Conet.Base.Pbc (toInt32 toInt32_of_lt)

/-! ### The tables -/

/-- The characters for the numbers below 64. -/
def alphabet : List UInt8 := codes "ABCDEFGHIJKLMNOPQRSTUVWXYZabcdefghijklmnopqrstuvwxyz0123456789+/"

def charPad : UInt8 := 61

def badchar : ℕ := 0x01FFFFFF

/-- The table `e0`: every character four times. -/
def e0 (t : ℕ) : UInt8 := alphabet.getD (t >>> 2) 0

/-- The table `e1`: the characters four times over. -/
def e1 (t : ℕ) : UInt8 := alphabet.getD (t % 64) 0

/-- The table `e2`, which is the same as `e1`. -/
def e2 (t : ℕ) : UInt8 := alphabet.getD (t % 64) 0

/-- An entry of the tables `d0` to `d3`: the six bits of a character at their places in the number
that holds the three bytes of a group, the first byte lowest. -/
def entry (places : ℕ → ℕ) (c : ℕ) : ℕ :=
  if UInt8.ofNat c ∈ alphabet then places (alphabet.idxOf (UInt8.ofNat c)) else badchar

def d0 : ℕ → ℕ := entry fun v => v <<< 2

def d1 : ℕ → ℕ := entry fun v => v >>> 4 + (v % 16) <<< 12

def d2 : ℕ → ℕ := entry fun v => (v >>> 2) <<< 8 + (v % 4) <<< 22

def d3 : ℕ → ℕ := entry fun v => v <<< 16

/-! ### The encoder -/

section Encoder

variable (str : ℤ → UInt8)

/-- The four characters for the three bytes from `i` on. -/
def group (i : ℕ) : List UInt8 :=
  let t1 := (str i).toNat
  let t2 := (str (i + 1)).toNat
  let t3 := (str (i + 2)).toNat
  [e0 t1, e1 ((t1 &&& 3) <<< 4 ||| (t2 >>> 4 &&& 15)), e1 ((t2 &&& 15) <<< 2 ||| (t3 >>> 6 &&& 3)), e2 t3]

/-- The loop over the complete groups, with `i` and the text so far. -/
def encodeLoop (len : ℤ) : ℕ → ℕ → List UInt8 → ℕ × List UInt8
  | 0, i, p => (i, p)
  | n + 1, i, p => if (i : ℤ) < len - 2 then encodeLoop len n (i + 3) (p ++ group str i) else (i, p)

/-- `base64_encode`: the text that it writes in front of a zero. It returns the length of the text, as
an `int`. -/
def base64Encode (len : ℤ) : List UInt8 :=
  let (i, p) := encodeLoop str len len.toNat 0 []
  if len - i = 0 then p
  else if len - i = 1 then
    let t1 := (str i).toNat
    p ++ [e0 t1, e1 ((t1 &&& 3) <<< 4), charPad, charPad]
  else
    let t1 := (str i).toNat
    let t2 := (str (i + 1)).toNat
    p ++ [e0 t1, e1 ((t1 &&& 3) <<< 4 ||| (t2 >>> 4 &&& 15)), e2 ((t2 &&& 15) <<< 2), charPad]

end Encoder

/-! ### The decoder -/

/-- What `base64_decode` returns, how far into the source it reads, and what it writes where in
the destination, in order. -/
structure Decoded where
  ret : ℤ
  readEnd : ℕ
  writes : List (ℤ × List UInt8)

def Decoded.dest (d : Decoded) (mem : ℤ → UInt8) : ℤ → UInt8 :=
  d.writes.foldl (fun mem w => write mem w.1 w.2) mem

section Decoder

variable (src : ℤ → UInt8)

/-- `srcInt[i]`. -/
def word (i : ℕ) : ℕ := leNat (slice src (4 * i) 4)

/-- The bits of the first `k` characters of a word. -/
def bits (k : ℕ) (y : ℕ) : ℕ :=
  let x := d0 (y &&& 255)
  let x := if 2 ≤ k then x ||| d1 (y >>> 8 &&& 255) else x
  let x := if 3 ≤ k then x ||| d2 (y >>> 16 &&& 255) else x
  if 4 ≤ k then x ||| d3 (y >>> 24 &&& 255) else x

/-- The loop over the words but the last: whether it gets through, the word it is at, and its
writes. A write of a word goes a byte beyond the three of a group. -/
def decodeLoop : ℕ → ℕ → List (ℤ × List UInt8) → Bool × ℕ × List (ℤ × List UInt8)
  | 0, i, ws => (true, i, ws)
  | n + 1, i, ws =>
    let x := bits 4 (word src i)
    if x ≥ badchar then (false, i, ws) else decodeLoop n (i + 1) (ws ++ [(3 * (i : ℤ), leBytes 4 x)])

/-- `base64_decode`; `DOPAD` is not defined. -/
def base64Decode (len : ℤ) : Decoded :=
  if len = 0 then ⟨0, 0, []⟩
  else
    let leftover := len.tmod 4
    let chunks := if leftover = 0 then len.tdiv 4 - 1 else len.tdiv 4
    let (through, i, ws) := decodeLoop src chunks.toNat 0 []
    let readEnd := 4 * (i + 1)
    let p := 3 * (i : ℤ)
    let y := word src i
    if through = false then ⟨-1, readEnd, ws⟩
    else if leftover = 0 then
      let x := bits 4 y
      if x ≥ badchar then ⟨-1, readEnd, ws⟩
      else ⟨(chunks + 1) * 3, readEnd, ws ++ [(p, leBytes 3 x)]⟩
    else
      let x := bits (if leftover = 1 then 1 else if leftover = 2 then 2 else 3) y
      let ws := ws ++ [(p, leBytes (if leftover = 1 ∨ leftover = 2 then 1 else 2) x)]
      if x ≥ badchar then ⟨-1, readEnd, ws⟩ else ⟨3 * chunks + (6 * leftover).tdiv 8, readEnd, ws⟩

end Decoder

/-! ### The bits of a group -/

section Bits

variable {v v1 v2 v3 v4 : ℕ}

/-- The capital letters, the small ones, the digits, `+` and `/`. -/
theorem alphabet_codes : alphabet.map UInt8.toNat =
    List.range' 65 26 ++ List.range' 97 26 ++ List.range' 48 10 ++ [43, 47] := by
  decide +kernel

theorem alphabet_length : alphabet.length = 64 := by
  simpa using congrArg List.length alphabet_codes

theorem alphabet_nodup : alphabet.Nodup := by
  have nodup : (alphabet.map UInt8.toNat).Nodup := by
    rw [alphabet_codes]
    decide +kernel
  exact nodup.of_map _

theorem alphabet_getD : ∀ v < 64, alphabet.getD v 0 ∈ alphabet ∧ alphabet.idxOf (alphabet.getD v 0) = v := by
  intro v lt
  have inside : v < alphabet.length := alphabet_length.symm ▸ lt
  rw [List.getD_eq_getElem?_getD, List.getElem?_eq_getElem inside, Option.getD_some]
  exact ⟨List.getElem_mem inside, alphabet_nodup.idxOf_getElem v inside⟩

theorem alphabet_pad : charPad ∉ alphabet := by
  intro mem
  have code : charPad.toNat ∈ alphabet.map UInt8.toNat := List.mem_map_of_mem mem
  rw [alphabet_codes] at code
  exact absurd code (by decide)

theorem entry_char (places : ℕ → ℕ) (lt : v < 64) :
    entry places (alphabet.getD v 0).toNat = places v := by
  obtain ⟨mem, idx⟩ := alphabet_getD v lt
  rw [entry, UInt8.ofNat_toNat, if_pos mem, idx]

theorem or_parts {a b k : ℕ} (x y : ℕ) (ha : a < 2 ^ k) (hb : b < 2 ^ k) :
    (a + 2 ^ k * x) ||| (b + 2 ^ k * y) = (a ||| b) + 2 ^ k * (x ||| y) := by
  have low : ((a + 2 ^ k * x) ||| (b + 2 ^ k * y)) % 2 ^ k = a ||| b := by
    rw [Nat.or_mod_two_pow, Nat.add_mul_mod_self_left, Nat.add_mul_mod_self_left,
      Nat.mod_eq_of_lt ha, Nat.mod_eq_of_lt hb]
  have high : ((a + 2 ^ k * x) ||| (b + 2 ^ k * y)) / 2 ^ k = x ||| y := by
    have pos : 0 < 2 ^ k := Nat.two_pow_pos k
    rw [Nat.or_div_two_pow, Nat.add_mul_div_left _ _ pos, Nat.add_mul_div_left _ _ pos,
      Nat.div_eq_of_lt ha, Nat.div_eq_of_lt hb, Nat.zero_add, Nat.zero_add]
  rw [← Nat.mod_add_div ((a + 2 ^ k * x) ||| (b + 2 ^ k * y)) (2 ^ k), low, high]

theorem or_above {a k : ℕ} (y : ℕ) (ha : a < 2 ^ k) : a ||| 2 ^ k * y = a + 2 ^ k * y := by
  have parts := or_parts 0 y ha (Nat.two_pow_pos k)
  simpa using parts

/-- The three bytes whose bits the characters carry. -/
theorem or_places {t1 t2 t3 : ℕ} (h1 : t1 < 256) (h2 : t2 < 256) :
    (((t1 / 4 * 4 ||| (t1 % 4 + 2 ^ 12 * (t2 / 16))) ||| (2 ^ 8 * (t2 % 16) + 2 ^ 22 * (t3 / 64))) |||
      2 ^ 16 * (t3 % 64)) = t1 + 256 * (t2 + 256 * t3) := by
  have first : t1 / 4 * 4 ||| (t1 % 4 + 2 ^ 12 * (t2 / 16)) = t1 + 2 ^ 12 * (t2 / 16) := by
    have low : t1 / 4 * 4 ||| t1 % 4 = t1 := by
      rw [Nat.or_comm, Nat.mul_comm, show (4 : ℕ) = 2 ^ 2 by rfl, or_above (k := 2) _ (by omega)]
      omega
    have parts := or_parts (k := 12) (a := t1 / 4 * 4) (b := t1 % 4) 0 (t2 / 16) (by omega) (by omega)
    rwa [Nat.mul_zero, Nat.add_zero, low, Nat.zero_or] at parts
  have second : (t1 + 2 ^ 12 * (t2 / 16)) ||| (2 ^ 8 * (t2 % 16) + 2 ^ 22 * (t3 / 64)) =
      t1 + 2 ^ 8 * (t2 + 2 ^ 14 * (t3 / 64)) := by
    have inner : 2 ^ 4 * (t2 / 16) ||| (t2 % 16 + 2 ^ 14 * (t3 / 64)) = t2 + 2 ^ 14 * (t3 / 64) := by
      have parts := or_parts (k := 4) (a := 0) (b := t2 % 16) (t2 / 16) (2 ^ 10 * (t3 / 64))
        (by omega) (by omega)
      rw [or_above (k := 10) _ (by omega), Nat.zero_add, Nat.zero_or] at parts
      rw [show 2 ^ 14 * (t3 / 64) = 2 ^ 4 * (2 ^ 10 * (t3 / 64)) by omega, parts]
      omega
    have parts := or_parts (k := 8) (a := t1) (b := 0) (2 ^ 4 * (t2 / 16))
      (t2 % 16 + 2 ^ 14 * (t3 / 64)) (by omega) (by omega)
    rw [inner, Nat.or_zero, Nat.zero_add] at parts
    rw [← parts]
    congr 1 <;> omega
  have third := or_parts (k := 16) (a := t1 + 256 * t2) (b := 0) (2 ^ 6 * (t3 / 64)) (t3 % 64)
    (by omega) (by omega)
  rw [Nat.or_comm (2 ^ 6 * (t3 / 64)), or_above (k := 6) _ (by omega), Nat.or_zero, Nat.zero_add] at third
  rw [first, second, show t1 + 2 ^ 8 * (t2 + 2 ^ 14 * (t3 / 64)) =
    t1 + 256 * t2 + 2 ^ 16 * (2 ^ 6 * (t3 / 64)) by omega, third]
  omega

theorem word_bytes (a b c d : UInt8) :
    leNat [a, b, c, d] &&& 255 = a.toNat ∧ leNat [a, b, c, d] >>> 8 &&& 255 = b.toNat ∧
      leNat [a, b, c, d] >>> 16 &&& 255 = c.toNat ∧ leNat [a, b, c, d] >>> 24 &&& 255 = d.toNat := by
  have ha := a.toNat_lt
  have hb := b.toNat_lt
  have hc := c.toNat_lt
  have hd := d.toNat_lt
  have mask (n : ℕ) : n &&& 255 = n % 256 := Nat.and_two_pow_sub_one_eq_mod n 8
  simp only [leNat, mask, Nat.shiftRight_eq_div_pow]
  omega

theorem bits_group (str : ℤ → UInt8) (i : ℕ) :
    bits 4 (leNat (group str i)) = leNat [str i, str (i + 1), str (i + 2)] := by
  have h1 := (str i).toNat_lt
  have h2 := (str (i + 1)).toNat_lt
  have h3 := (str (i + 2)).toNat_lt
  have mask3 (n : ℕ) : n &&& 3 = n % 4 := Nat.and_two_pow_sub_one_eq_mod n 2
  have mask15 (n : ℕ) : n &&& 15 = n % 16 := Nat.and_two_pow_sub_one_eq_mod n 4
  generalize ht1 : (str i).toNat = t1 at h1
  generalize ht2 : (str (i + 1)).toNat = t2 at h2
  generalize ht3 : (str (i + 2)).toNat = t3 at h3
  have index2 : (t1 &&& 3) <<< 4 ||| (t2 >>> 4 &&& 15) = t1 % 4 * 16 + t2 / 16 := by
    rw [mask3, mask15, Nat.shiftRight_eq_div_pow, Nat.shiftLeft_eq, Nat.or_comm,
      Nat.mul_comm, or_above _ (by omega)]
    omega
  have index3 : (t2 &&& 15) <<< 2 ||| (t3 >>> 6 &&& 3) = t2 % 16 * 4 + t3 / 64 := by
    rw [mask15, mask3, Nat.shiftRight_eq_div_pow, Nat.shiftLeft_eq, Nat.or_comm,
      Nat.mul_comm, or_above _ (by omega)]
    omega
  obtain ⟨b0, b1, b2, b3⟩ := word_bytes (e0 t1) (e1 (t1 % 4 * 16 + t2 / 16))
    (e1 (t2 % 16 * 4 + t3 / 64)) (e2 t3)
  simp only [bits, group, ht1, ht2, ht3, index2, index3, b0, b1, b2, b3, Nat.reduceLeDiff, if_true]
  simp only [e0, e1, e2, d0, d1, d2, d3, Nat.shiftRight_eq_div_pow, Nat.shiftLeft_eq]
  rw [entry_char _ (by omega), entry_char _ (by omega), entry_char _ (by omega),
    entry_char _ (by omega)]
  have second : (t1 % 4 * 16 + t2 / 16) % 64 / 2 ^ 4 + (t1 % 4 * 16 + t2 / 16) % 64 % 16 * 2 ^ 12 =
      t1 % 4 + 2 ^ 12 * (t2 / 16) := by omega
  have third : (t2 % 16 * 4 + t3 / 64) % 64 / 2 ^ 2 * 2 ^ 8 +
      (t2 % 16 * 4 + t3 / 64) % 64 % 4 * 2 ^ 22 = 2 ^ 8 * (t2 % 16) + 2 ^ 22 * (t3 / 64) := by omega
  simp only [leNat, ht1, ht2, ht3, Nat.mul_zero, Nat.add_zero]
  rw [second, third, Nat.mul_comm (t3 % 64)]
  exact or_places h1 h2

end Bits

/-! ### Texts with other characters -/

section Rejection

variable {src : ℤ → UInt8} {k n i j : ℕ} {ws : List (ℤ × List UInt8)}

theorem entry_other (places : ℕ → ℕ) {c : UInt8} (other : c ∉ alphabet) :
    entry places c.toNat = badchar := by
  rw [entry, UInt8.ofNat_toNat, if_neg other]

theorem le_bits (k y : ℕ) : d0 (y &&& 255) ≤ bits k y ∧ (2 ≤ k → d1 (y >>> 8 &&& 255) ≤ bits k y) ∧
    (3 ≤ k → d2 (y >>> 16 &&& 255) ≤ bits k y) ∧ (4 ≤ k → d3 (y >>> 24 &&& 255) ≤ bits k y) := by
  have step (p : Prop) [Decidable p] (x d : ℕ) :
      x ≤ (if p then x ||| d else x) ∧ (p → d ≤ if p then x ||| d else x) := by
    split_ifs with h
    · exact ⟨Nat.left_le_or, fun _ => Nat.right_le_or⟩
    · exact ⟨le_rfl, fun hp => absurd hp h⟩
  obtain ⟨x1, y1⟩ := step (2 ≤ k) (d0 (y &&& 255)) (d1 (y >>> 8 &&& 255))
  obtain ⟨x2, y2⟩ := step (3 ≤ k) (if 2 ≤ k then d0 (y &&& 255) ||| d1 (y >>> 8 &&& 255)
    else d0 (y &&& 255)) (d2 (y >>> 16 &&& 255))
  obtain ⟨x3, y3⟩ := step (4 ≤ k) (if 3 ≤ k then (if 2 ≤ k then d0 (y &&& 255) |||
    d1 (y >>> 8 &&& 255) else d0 (y &&& 255)) ||| d2 (y >>> 16 &&& 255)
      else if 2 ≤ k then d0 (y &&& 255) ||| d1 (y >>> 8 &&& 255) else d0 (y &&& 255))
    (d3 (y >>> 24 &&& 255))
  exact ⟨(x1.trans x2).trans x3, fun h => ((y1 h).trans x2).trans x3, fun h => (y2 h).trans x3, y3⟩

/-- A character that is not in the alphabet spoils its word. -/
theorem bits_other (lt : j < k) (le : k ≤ 4) (other : src (4 * i + j) ∉ alphabet) :
    badchar ≤ bits k (word src i) := by
  obtain ⟨b0, b1, b2, b3⟩ := word_bytes (src (4 * i)) (src (4 * i + 1)) (src (4 * i + 2)) (src (4 * i + 3))
  have text : word src i = leNat [src (4 * i), src (4 * i + 1), src (4 * i + 2), src (4 * i + 3)] := by
    simp [word, slice, List.range_succ]
  obtain ⟨x0, x1, x2, x3⟩ := le_bits k (word src i)
  rw [text] at x0 x1 x2 x3 ⊢
  rw [b0] at x0
  rw [b1] at x1
  rw [b2] at x2
  rw [b3] at x3
  have places : j = 0 ∨ j = 1 ∨ j = 2 ∨ j = 3 := by omega
  rcases places with rfl | rfl | rfl | rfl
  · rw [d0, entry_other _ (by simpa using other)] at x0
    exact x0
  · rw [d1, entry_other _ (by simpa using other)] at x1
    exact x1 (by omega)
  · rw [d2, entry_other _ (by simpa using other)] at x2
    exact x2 (by omega)
  · rw [d3, entry_other _ (by simpa using other)] at x3
    exact x3 (by omega)

/-- The loop gets through only if it meets no such word. -/
theorem decodeLoop_through (through : (decodeLoop src n i ws).1 = true) :
    (decodeLoop src n i ws).2.1 = i + n ∧ ∀ j < n, bits 4 (word src (i + j)) < badchar := by
  induction n generalizing i ws with
  | zero => exact ⟨rfl, by simp⟩
  | succ n ih =>
    rw [decodeLoop] at through ⊢
    split_ifs at through ⊢ with bad
    obtain ⟨stop, fine⟩ := ih through
    refine ⟨by rw [stop]; omega, ?_⟩
    intro j lt
    cases j with
    | zero => exact not_le.mp bad
    | succ j =>
      have rest := fine j (by omega)
      rwa [show i + 1 + j = i + (j + 1) by omega] at rest

end Rejection

/-- A text with a character that is not in the alphabet is rejected, padding included. -/
theorem base64Decode_other {src : ℤ → UInt8} {len : ℤ} {k : ℕ} (lt : (k : ℤ) < len)
    (other : src k ∉ alphabet) : (base64Decode src len).ret = -1 := by
  obtain ⟨n, rfl⟩ : ∃ n : ℕ, len = n := ⟨len.toNat, by omega⟩
  have rem : (n : ℤ).tmod 4 = (n % 4 : ℕ) := by
    rw [Int.tmod_eq_emod_of_nonneg (by omega)]
    omega
  have quot : (n : ℤ).tdiv 4 = (n / 4 : ℕ) := by
    rw [Int.tdiv_eq_ediv_of_nonneg (by omega)]
    omega
  rw [base64Decode, if_neg (by omega)]
  simp only [rem, quot]
  have place : src (4 * (k / 4 : ℕ) + (k % 4 : ℕ)) ∉ alphabet := by
    rwa [show (4 : ℤ) * (k / 4 : ℕ) + (k % 4 : ℕ) = k by omega]
  generalize chunks : (if ((n % 4 : ℕ) : ℤ) = 0 then ((n / 4 : ℕ) : ℤ) - 1 else (n / 4 : ℕ)) = c
  rcases loop : decodeLoop src c.toNat 0 [] with ⟨through, i, ws⟩
  cases through with
  | false => rfl
  | true =>
    obtain ⟨stop, fine⟩ := decodeLoop_through (congrArg Prod.fst loop)
    rw [loop] at stop
    simp only [Nat.zero_add] at stop fine
    have late : c.toNat ≤ k / 4 := by
      by_contra early
      exact absurd (bits_other (Nat.mod_lt k (by omega)) le_rfl place) (by
        have := fine (k / 4) (by omega)
        omega)
    simp only [Bool.true_eq_false, if_false]
    -- the character is in the last word
    have last : k / 4 = i := by
      split_ifs at chunks <;> omega
    rw [last] at place
    have bad {m : ℕ} (inside : k % 4 < m) (le : m ≤ 4) : bits m (word src i) ≥ badchar :=
      bits_other inside le place
    have rems : n % 4 = 0 ∨ n % 4 = 1 ∨ n % 4 = 2 ∨ n % 4 = 3 := by omega
    rcases rems with h | h | h | h
    · simp [h, bad (m := 4) (by omega) (by omega)]
    · simp only [h] at chunks
      simp [h, bad (m := 1) (by simp at chunks; omega) (by omega)]
    · simp only [h] at chunks
      simp [h, bad (m := 2) (by simp at chunks; omega) (by omega)]
    · simp only [h] at chunks
      simp [h, bad (m := 3) (by simp at chunks; omega) (by omega)]

/-! ### Texts that come from the encoder -/

section RoundTrip

variable {str src : ℤ → UInt8} {q r n i : ℕ}

/-- The characters of the first `q` groups. -/
def groups (str : ℤ → UInt8) (q : ℕ) : List UInt8 := (List.range q).flatMap fun j => group str (3 * j)

@[simp] theorem groups_length (str : ℤ → UInt8) (q : ℕ) : (groups str q).length = 4 * q := by
  induction q with
  | zero => rfl
  | succ q ih =>
    rw [groups, List.range_succ, List.flatMap_append, ← groups, List.length_append, ih]
    simp [group]
    omega

theorem encodeLoop_eq {len : ℤ} {p : List UInt8} (rest : len - i = (3 * q + r : ℕ)) (lt : r < 3)
    (enough : q ≤ n) : encodeLoop str len n i p =
      (i + 3 * q, p ++ (List.range q).flatMap fun j => group str (i + 3 * j)) := by
  induction q generalizing n i p with
  | zero =>
    have stop : ¬ (i : ℤ) < len - 2 := by omega
    cases n with
    | zero => simp [encodeLoop]
    | succ n => simp [encodeLoop, stop]
  | succ q ih =>
    obtain ⟨n, rfl⟩ : ∃ m, n = m + 1 := ⟨n - 1, by omega⟩
    have more : (i : ℤ) < len - 2 := by omega
    rw [encodeLoop, if_pos more, ih (i := i + 3) (by omega) (by omega), List.range_succ_eq_map,
      List.flatMap_cons, List.flatMap_map, List.append_assoc]
    congr 1
    · omega
    · congr 2
      refine congrArg (fun f => List.flatMap f (List.range q)) (funext fun j => ?_)
      congr 1
      omega

/-- Groups of three bytes are encoded without padding, others end in it. -/
theorem base64Encode_eq (str : ℤ → UInt8) (lt : r < 3) : ∃ tail,
    base64Encode str (3 * q + r : ℕ) = groups str q ++ tail ∧
      (r = 0 ∧ tail = [] ∨ r ≠ 0 ∧ tail.length = 4 ∧ tail[3]? = some charPad) := by
  have loop : encodeLoop str (3 * q + r : ℕ) (3 * q + r) 0 [] = _ :=
    encodeLoop_eq (q := q) (r := r) (by omega) lt (by omega)
  have text : (List.range q).flatMap (fun j => group str (0 + 3 * j)) = groups str q := by
    simp [groups]
  rw [text, List.nil_append, Nat.zero_add] at loop
  rw [base64Encode]
  simp only [Int.toNat_natCast, loop]
  have rest : ((3 * q + r : ℕ) : ℤ) - (3 * q : ℕ) = r := by omega
  rw [rest]
  split_ifs with none one
  · exact ⟨[], by simp, .inl ⟨by omega, rfl⟩⟩
  · exact ⟨_, rfl, .inr ⟨by omega, rfl, rfl⟩⟩
  · exact ⟨_, rfl, .inr ⟨by omega, rfl, rfl⟩⟩

theorem groups_part (lt : i < q) : ((groups str q).drop (4 * i)).take 4 = group str (3 * i) := by
  obtain ⟨k, rfl⟩ : ∃ k, q = i + 1 + k := ⟨q - (i + 1), by omega⟩
  have front : groups str (i + 1 + k) = groups str i ++ (group str (3 * i) ++
      (List.range k).flatMap fun j => group str (3 * (i + 1 + j))) := by
    rw [groups, List.range_add, List.flatMap_append, List.range_succ, List.flatMap_append, ← groups,
      List.append_assoc, List.flatMap_map]
    simp
  rw [front, List.drop_left' (groups_length str i)]
  rfl

theorem word_groups (text : slice src 0 (4 * q) = groups str q) (lt : i < q) :
    bits 4 (word src i) = leNat (slice str (3 * i) 3) := by
  have part := slice_part src 0 (i := 4 * i) (n := 4) (l := 4 * q) (by omega)
  rw [text, groups_part lt] at part
  have address : (0 : ℤ) + (4 * i : ℕ) = 4 * i := by omega
  rw [address] at part
  have group := bits_group str (3 * i)
  rw [word, part, group]
  simp [slice, List.range_succ]

/-- The write of the word `j`: its three bytes, and a zero behind them. -/
def wordWrite (str : ℤ → UInt8) (j : ℕ) : ℤ × List UInt8 := (3 * (j : ℤ), slice str (3 * j) 3 ++ [0])

theorem leNat_three_lt (bs : List UInt8) (three : bs.length = 3) : leNat bs < badchar := by
  have lt := leNat_lt bs
  rw [three] at lt
  exact lt.trans_le (by decide)

theorem decodeLoop_groups {ws : List (ℤ × List UInt8)} (text : slice src 0 (4 * q) = groups str q)
    (le : i + n ≤ q) : decodeLoop src n i ws =
      (true, i + n, ws ++ (List.range n).map fun j => wordWrite str (i + j)) := by
  induction n generalizing i ws with
  | zero => simp [decodeLoop]
  | succ n ih =>
    have fine : ¬ leNat (slice str (3 * i) 3) ≥ badchar :=
      not_le.mpr (leNat_three_lt _ (slice_length ..))
    have bytes := leBytes_leNat (slice str (3 * i) 3) 1
    rw [slice_length] at bytes
    rw [decodeLoop, word_groups text (by omega)]
    simp only [fine, if_false, bytes]
    rw [ih (by omega), List.range_succ_eq_map, List.map_cons, List.map_map, List.append_assoc]
    congr 2
    · omega
    · rw [List.singleton_append]
      refine congrArg (ws ++ ·) (congrArg₂ List.cons rfl (List.map_congr_left fun j _ => ?_))
      rw [Function.comp_apply, show i + 1 + j = i + (j + 1) by omega]

/-- The zero behind a word is overwritten by the next. -/
theorem slice_wordWrites (mem : ℤ → UInt8) (n : ℕ) :
    slice (((List.range n).map (wordWrite str)).foldl (fun mem w => write mem w.1 w.2) mem) 0 (3 * n) =
      slice str 0 (3 * n) := by
  induction n with
  | zero => rfl
  | succ n ih =>
    generalize earlier :
      ((List.range n).map (wordWrite str)).foldl (fun mem w => write mem w.1 w.2) mem = mem' at ih
    have front : slice (write mem' (3 * n) (slice str (3 * n) 3 ++ [0])) 0 (3 * n) = slice mem' 0 (3 * n) :=
      slice_write_of_le (by omega) _
    have here := slice_write_part mem' (3 * n) [] (slice str (3 * n) 3) [0]
    rw [slice_length, List.nil_append, List.length_nil] at here
    rw [List.range_succ, List.map_append, List.foldl_append, earlier, List.map_singleton,
      List.foldl_cons, List.foldl_nil, wordWrite, Nat.mul_succ, slice_add, slice_add, front, ih]
    congr 1
    simpa using here

end RoundTrip

/-- The `n` bytes of `str` are encoded and decoded again. `m` is the memory for the text before it is
written. -/
def roundTrip (str m : ℤ → UInt8) (n : ℕ) : Decoded :=
  let text := base64Encode str (toInt32 n)
  base64Decode (write m 0 (text ++ [0])) (toInt32 text.length)

/-- The bytes come back, without an access outside the text or outside a destination for them. -/
structure RoundTrips (str m dest : ℤ → UInt8) (n : ℕ) : Prop where
  ret : (roundTrip str m n).ret = n
  bytes : slice ((roundTrip str m n).dest dest) 0 n = slice str 0 n
  reads : (roundTrip str m n).readEnd ≤ (base64Encode str (toInt32 n)).length
  writes : ∀ w ∈ (roundTrip str m n).writes, 0 ≤ w.1 ∧ w.1 + w.2.length ≤ n

/-- Texts with a character outside the alphabet are rejected. -/
def Rejects : Prop :=
  ∀ (src : ℤ → UInt8) (len : ℤ), (∃ k : ℕ, (k : ℤ) < len ∧ src k ∉ alphabet) →
    (base64Decode src len).ret = -1

section Whole

variable {str m dest : ℤ → UInt8} {q n : ℕ}

theorem base64Encode_whole (str : ℤ → UInt8) (q : ℕ) :
    base64Encode str (3 * q : ℕ) = groups str q := by
  obtain ⟨tail, text, ⟨-, rfl⟩ | ⟨ne, -⟩⟩ := base64Encode_eq (q := q) str (show 0 < 3 by omega)
  · rw [Nat.add_zero, List.append_nil] at text
    exact text
  · exact absurd rfl ne

theorem roundTrip_whole (lt : q < 2 ^ 29) (pos : 0 < q) : roundTrip str m (3 * q) =
    ⟨3 * q, 4 * q, (List.range (q - 1)).map (wordWrite str) ++
      [(3 * ((q - 1 : ℕ) : ℤ), slice str (3 * (q - 1 : ℕ)) 3)]⟩ := by
  have text : slice (write m 0 (groups str q ++ [0])) 0 (4 * q) = groups str q := by
    have part := slice_write_part m 0 [] (groups str q) [0]
    simpa using part
  have quot : ((4 * q : ℕ) : ℤ).tdiv 4 = q := by
    rw [Int.tdiv_eq_ediv_of_nonneg (by omega)]
    omega
  have rem : ((4 * q : ℕ) : ℤ).tmod 4 = 0 := by
    rw [Int.tmod_eq_emod_of_nonneg (by omega)]
    omega
  have words : ((q : ℤ) - 1).toNat = q - 1 := by omega
  have loop : decodeLoop _ (q - 1) 0 [] = _ := decodeLoop_groups text (by omega)
  have last := word_groups text (show q - 1 < q by omega)
  have fine : ¬ leNat (slice str (3 * (q - 1 : ℕ)) 3) ≥ badchar :=
    not_le.mpr (leNat_three_lt _ (slice_length ..))
  have bytes := leBytes_leNat (slice str (3 * (q - 1 : ℕ)) 3) 0
  rw [slice_length] at bytes
  simp only [roundTrip]
  rw [toInt32_of_lt (by omega) (by omega), base64Encode_whole, groups_length,
    toInt32_of_lt (by omega) (by omega), base64Decode, if_neg (by omega)]
  simp only [quot, rem, if_true, words, loop, last, fine, if_false, Bool.true_eq_false, Nat.zero_add,
    List.nil_append, bytes, List.replicate_zero, List.append_nil]
  congr 1
  · omega
  · omega

theorem roundTrips_whole (lt : q < 2 ^ 29) : RoundTrips str m dest (3 * q) := by
  rcases Nat.eq_zero_or_pos q with rfl | pos
  · have trip : roundTrip str m (3 * 0) = ⟨0, 0, []⟩ := by
      simp only [roundTrip]
      rw [toInt32_of_lt (by omega) (by omega), base64Encode_whole, groups_length,
        toInt32_of_lt (by omega) (by omega), base64Decode, if_pos (by omega)]
    refine ⟨by rw [trip]; rfl, by simp, by rw [trip]; exact Nat.zero_le _, ?_⟩
    intro w mem
    rw [trip] at mem
    cases mem
  have trip : roundTrip str m (3 * q) = _ := roundTrip_whole lt pos
  refine ⟨?_, ?_, ?_, ?_⟩
  · rw [trip]
    push_cast
    rfl
  · rw [trip, Decoded.dest, List.foldl_append]
    have earlier : slice (((List.range (q - 1)).map (wordWrite str)).foldl _ dest) 0 _ = _ :=
      slice_wordWrites dest (q - 1)
    generalize ((List.range (q - 1)).map (wordWrite str)).foldl (fun mem w => write mem w.1 w.2) dest =
      mem' at earlier
    have here := slice_write mem' (3 * (q - 1 : ℕ)) (slice str (3 * (q - 1 : ℕ)) 3)
    have front : slice (write mem' (3 * (q - 1 : ℕ)) (slice str (3 * (q - 1 : ℕ)) 3)) 0 (3 * (q - 1)) =
        slice mem' 0 (3 * (q - 1)) := slice_write_of_le (by omega) _
    rw [slice_length] at here
    obtain ⟨k, rfl⟩ : ∃ k, q = k + 1 := ⟨q - 1, by omega⟩
    simp only [Nat.add_sub_cancel] at earlier here front ⊢
    rw [List.foldl_cons, List.foldl_nil, Nat.mul_succ, slice_add _ 0 (3 * k) 3,
      slice_add str 0 (3 * k) 3, front, earlier]
    refine congrArg (slice str 0 (3 * k) ++ ·) ?_
    simpa using here
  · rw [trip, toInt32_of_lt (by omega) (by omega), base64Encode_whole, groups_length]
  · rw [trip]
    intro w mem
    rcases List.mem_append.mp mem with mem | mem
    · obtain ⟨j, hj, rfl⟩ := List.mem_map.mp mem
      rw [List.mem_range] at hj
      simp only [wordWrite, List.length_append, slice_length, List.length_singleton]
      omega
    · rw [List.mem_singleton.mp mem, slice_length]
      omega

end Whole

section Others

variable {str m dest : ℤ → UInt8} {q r n : ℕ}

theorem base64Decode_ret_le (src : ℤ → UInt8) (len : ℤ) : (base64Decode src len).ret ≤ max len 0 := by
  have split := Int.tmod_add_mul_tdiv len 4
  have sign : 0 ≤ len ∧ 0 ≤ len.tmod 4 ∧ len.tmod 4 < 4 ∨ len < 0 ∧ len.tmod 4 ≤ 0 ∧ -4 < len.tmod 4 := by
    rcases le_or_gt 0 len with pos | neg
    · exact .inl ⟨pos, Int.tmod_nonneg 4 pos, Int.tmod_lt_of_pos len (by omega)⟩
    · have mirrored := Int.tmod_nonneg 4 (show 0 ≤ -len by omega)
      have bound := Int.tmod_lt_of_pos (-len) (show (0 : ℤ) < 4 by omega)
      rw [Int.neg_tmod] at mirrored bound
      exact .inr ⟨neg, by omega, by omega⟩
  have eighth : (6 * len.tmod 4).tdiv 8 ≤ max (len.tmod 4) 0 := by
    rcases sign with ⟨-, nonneg, -⟩ | ⟨-, nonpos, -⟩
    · rw [Int.tdiv_eq_ediv_of_nonneg (by omega)]
      omega
    · have mirrored := Int.tdiv_nonneg (show 0 ≤ -(6 * len.tmod 4) by omega) (show (0 : ℤ) ≤ 8 by omega)
      rw [Int.neg_tdiv] at mirrored
      omega
  -- what is returned: 0, -1, or the bytes of the groups and of what is left over
  have fail : -1 ≤ max len 0 := by omega
  have whole : len.tmod 4 = 0 → (len.tdiv 4 - 1 + 1) * 3 ≤ max len 0 := by omega
  have more : 3 * len.tdiv 4 + (6 * len.tmod 4).tdiv 8 ≤ max len 0 := by omega
  unfold base64Decode
  split
  · exact le_max_right len 0
  dsimp only
  split
  · rename_i none
    split
    · exact fail
    split
    · exact fail
    · exact whole none
  · split
    · exact fail
    generalize bits _ _ = x
    by_cases bad : x ≥ badchar
    · rw [if_pos bad]
      exact fail
    · rw [if_neg bad]
      exact more

theorem roundTrip_padded (short : q + 1 < 2 ^ 29) (pos : r ≠ 0) (lt : r < 3) :
    (roundTrip str m (3 * q + r)).ret = -1 := by
  obtain ⟨tail, text, ⟨rfl, -⟩ | ⟨-, length, pad⟩⟩ := base64Encode_eq (q := q) str lt
  · exact absurd rfl pos
  have whole : (groups str q ++ tail).length = 4 * q + 4 := by
    rw [List.length_append, groups_length, length]
  simp only [roundTrip]
  rw [toInt32_of_lt (by omega) (by omega), text, whole, toInt32_of_lt (by omega) (by omega)]
  refine base64Decode_other (k := 4 * q + 3) (by omega) ?_
  have last : write m 0 (groups str q ++ tail ++ [0]) ((4 * q + 3 : ℕ) : ℤ) = charPad := by
    have index : (((4 * q + 3 : ℕ) : ℤ) - 0).toNat = (groups str q).length + 3 := by
      rw [groups_length]
      omega
    rw [write, if_pos (by rw [List.length_append, whole, List.length_singleton]; omega), index,
      List.getD_eq_getElem?_getD, List.append_assoc, List.getElem?_append_right (by omega),
      Nat.add_sub_cancel_left, List.getElem?_append_left (by omega), pad]
    rfl
  rw [last]
  exact alphabet_pad

theorem roundTrip_large (large : 2 ^ 29 ≤ q + (if r = 0 then 0 else 1)) (lt : r < 3) :
    (roundTrip str m (3 * q + r)).ret ≠ (3 * q + r : ℕ) := by
  have le := base64Decode_ret_le (write m 0 (base64Encode str (toInt32 (3 * q + r : ℕ)) ++ [0]))
    (toInt32 (base64Encode str (toInt32 (3 * q + r : ℕ))).length)
  by_cases long : 2 ^ 31 ≤ 3 * q + r
  · have bound : toInt32 (base64Encode str (toInt32 (3 * q + r : ℕ))).length < 2 ^ 31 := by
      unfold toInt32
      omega
    simp only [roundTrip]
    omega
  · obtain ⟨tail, text, cases⟩ := base64Encode_eq (q := q) str lt
    have tail_length : tail.length = if r = 0 then 0 else 4 := by
      rcases cases with ⟨zero, rfl⟩ | ⟨pos, length, -⟩
      · rw [if_pos zero, List.length_nil]
      · rw [if_neg pos, length]
    have negative : toInt32 (base64Encode str (toInt32 (3 * q + r : ℕ))).length < 0 := by
      rw [toInt32_of_lt (x := (3 * q + r : ℕ)) (by omega) (by omega), text, List.length_append,
        groups_length, tail_length]
      unfold toInt32
      split_ifs at large ⊢ <;> omega
    have pos : 0 < 3 * q + r := by
      split_ifs at large <;> omega
    simp only [roundTrip]
    omega

end Others

/-- The byte strings that come back. -/
theorem base64_iff (str m dest : ℤ → UInt8) (n : ℕ) :
    (RoundTrips str m dest n ∧ Rejects) ↔ n % 3 = 0 ∧ n < 3 * 2 ^ 29 := by
  have rejects : Rejects := fun src len ⟨k, lt, other⟩ => base64Decode_other lt other
  rw [and_iff_left rejects]
  obtain ⟨q, r, lt, rfl⟩ : ∃ q r, r < 3 ∧ n = 3 * q + r := ⟨n / 3, n % 3, by omega, by omega⟩
  constructor
  · rintro ⟨ret, -, -, -⟩
    by_contra bad
    by_cases large : 2 ^ 29 ≤ q + (if r = 0 then 0 else 1)
    · exact roundTrip_large large lt ret
    · have pos : r ≠ 0 := by
        rintro rfl
        rw [if_pos rfl] at large
        omega
      rw [if_neg pos] at large
      rw [roundTrip_padded (by omega) pos lt] at ret
      omega
  · rintro ⟨whole, short⟩
    obtain rfl : r = 0 := by omega
    exact roundTrips_whole (by omega)

/-- A single byte is encoded with padding, which is rejected. -/
theorem base64_one_byte : ¬ ∀ (str m dest : ℤ → UInt8) (n : ℕ), RoundTrips str m dest n ∧ Rejects := by
  intro claim
  have ret := (claim (fun _ => 65) (fun _ => 0) (fun _ => 0) 1).1.ret
  exact absurd ret (by decide)

end Conet.Base.Base64
