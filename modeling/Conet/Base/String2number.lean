/- Module: Conet/Base/String2number
   source: base/string2number.h
   digest: Numbers as texts that are formatted in a buffer of twenty bytes, and back. -/

import Conet.Base.QueryString
import Conet.Base.StringBuilder
import Mathlib.Data.List.TakeWhile

set_option autoImplicit false
set_option relaxedAutoImplicit false

namespace Conet.Base.String2number

open Conet.Lib.DynMessage Conet.Base.HttpParser Conet.Base.QueryString Conet.Base.StringBuilder

/-- The integer types that the templates are used with. -/
inductive IntType
  | int32
  | uint32
  | int64
  | uint64
  deriving DecidableEq

namespace IntType

def cppType : IntType → CppType
  | int32 => .int32
  | uint32 => .uint32
  | int64 => .int64
  | uint64 => .uint64

def least : IntType → ℤ
  | int32 => -2 ^ 31
  | int64 => -2 ^ 63
  | _ => 0

def greatest : IntType → ℤ
  | int32 => 2 ^ 31 - 1
  | uint32 => 2 ^ 32 - 1
  | int64 => 2 ^ 63 - 1
  | uint64 => 2 ^ 64 - 1

structure Holds (t : IntType) (n : ℤ) : Prop where
  ge : t.least ≤ n
  le : n ≤ t.greatest

end IntType

/-- The canonical decimal text of a number; `%ld` and `%lu` make it of theirs. -/
def numberText (n : ℤ) : List UInt8 := if n < 0 then 45 :: decimal n.natAbs else decimal n.natAbs

/-- `resize` of a string. -/
def resize (s : List UInt8) (n : ℕ) : List UInt8 := s.take n ++ List.replicate (n - s.length) 0

/-- `snprintf` into a buffer: what the buffer holds then, and the length of the whole text. -/
def snprintf (buffer text : List UInt8) : List UInt8 × ℕ :=
  let written := if buffer = [] then [] else text.take (buffer.length - 1) ++ [0]
  (written ++ buffer.drop written.length, text.length)

/-- The body of `number2string`, once the number is converted. -/
def formatted (n : ℤ) : List UInt8 :=
  let out := resize [] 20
  let (out, len) := snprintf out (numberText n)
  resize out len

/-- `number2string`: the number is converted to `int64_t`, in one specialization to `uint64_t`. -/
def number2string : IntType → ℤ → List UInt8
  | .uint64, i => formatted (i % 2 ^ 64)
  | _, i => formatted (i.bmod (2 ^ 64))

/-! ### The texts of numbers -/

section Decimal

variable {n k : ℕ} {c : UInt8}

theorem isDigit_digit (n : ℕ) : isDigit (UInt8.ofNat (48 + n % 10)) = true := by
  have value := digit_toNat n
  simp only [isDigit, Bool.and_eq_true, decide_eq_true_eq, UInt8.le_iff_toNat_le, value,
    UInt8.reduceToNat]
  omega

theorem decimal_digits (n : ℕ) : ∀ c ∈ decimal n, isDigit c = true := by
  induction n using Nat.strong_induction_on with
  | _ n ih =>
    rw [decimal_eq]
    intro c mem
    rcases List.mem_append.mp mem with front | last
    · split_ifs at front with small
      · simp at front
      · exact ih (n / 10) (by omega) c front
    · rw [List.mem_singleton.mp last]
      exact isDigit_digit n

theorem decimal_ne_nil (n : ℕ) : decimal n ≠ [] := by
  rw [decimal_eq]
  simp

/-- The digits of a number, by the power of ten that is above it. -/
theorem decimal_length_le_iff : (decimal n).length ≤ k + 1 ↔ n < 10 ^ (k + 1) := by
  induction k generalizing n with
  | zero =>
    rw [decimal_eq]
    split_ifs with small
    · simpa using small
    · have more := List.length_pos_of_ne_nil (decimal_ne_nil (n / 10))
      simp only [List.length_append, List.length_singleton, zero_add, pow_one]
      omega
  | succ k ih =>
    have power : 10 ^ (k + 1 + 1) = 10 * 10 ^ (k + 1) := pow_succ' 10 (k + 1)
    rw [decimal_eq]
    split_ifs with small
    · have pos : 0 < 10 ^ (k + 1) := Nat.pow_pos (by omega)
      simp only [List.nil_append, List.length_singleton]
      omega
    · rw [List.length_append, List.length_singleton, Nat.add_le_add_iff_right, ih, power]
      omega

theorem digit_ne (digit : isDigit c = true) : c ≠ 0 ∧ c ≠ 43 ∧ c ≠ 45 ∧ isSpace c = false := by
  simp only [isDigit, Bool.and_eq_true, decide_eq_true_eq, UInt8.le_iff_toNat_le,
    UInt8.reduceToNat] at digit
  refine ⟨?_, ?_, ?_, ?_⟩
  · rintro rfl
    simp at digit
  · rintro rfl
    simp at digit
  · rintro rfl
    simp at digit
  · simp only [isSpace, Bool.or_eq_false_iff, beq_eq_false_iff_ne, Bool.and_eq_false_iff,
      decide_eq_false_iff_not, UInt8.le_iff_toNat_le, UInt8.reduceToNat]
    refine ⟨?_, .inr (by omega)⟩
    rintro rfl
    simp at digit

/-- The value that `strtoll` and `strtoull` give a text of digits. -/
theorem foldl_decimal (n : ℕ) :
    (decimal n).foldl (fun n c => n * 10 + (c.toNat - 48)) 0 = n := by
  have value := digitsVal_decimal n
  rw [digitsVal] at value
  simpa only [Nat.mul_comm] using value

theorem strtoDigits_numberText (z : ℤ) :
    strtoDigits (numberText z) = (decide (z < 0), z.natAbs) := by
  have digits := decimal_digits z.natAbs
  have value := foldl_decimal z.natAbs
  have all : (decimal z.natAbs).takeWhile isDigit = decimal z.natAbs :=
    List.takeWhile_eq_self_iff.2 digits
  unfold strtoDigits numberText
  split_ifs with neg
  · have start : ((45 : UInt8) :: decimal z.natAbs).dropWhile isSpace = 45 :: decimal z.natAbs := rfl
    simp [start, all, value, neg]
  · obtain ⟨d, ds, eq⟩ := List.exists_cons_of_ne_nil (decimal_ne_nil z.natAbs)
    obtain ⟨-, plus, minus, space⟩ := digit_ne (digits d (by simp [eq]))
    have start : (decimal z.natAbs).dropWhile isSpace = d :: ds := by simp [eq, space]
    rw [eq] at all value
    rw [start]
    dsimp only
    split
    · rename_i same
      exact absurd (List.cons.inj same).1 minus
    · rename_i same
      exact absurd (List.cons.inj same).1 plus
    · simp only [all, value, neg, decide_false]

theorem strtoll_numberText {z : ℤ} (ge : -2 ^ 63 ≤ z) (lt : z < 2 ^ 63) :
    strtoll (numberText z) = z := by
  rw [strtoll, strtoDigits_numberText]
  dsimp only
  split_ifs with neg <;> simp only [decide_eq_true_eq] at neg <;> omega

theorem strtoull_numberText {z : ℤ} (ge : 0 ≤ z) (lt : z < 2 ^ 64) :
    (strtoull (numberText z) : ℤ) = z := by
  rw [strtoull, strtoDigits_numberText]
  dsimp only
  rw [if_neg (by omega), if_neg (by simpa using ge)]
  omega

end Decimal

/-! ### Texts that fit the buffer -/

section Buffer

variable {z : ℤ}

/-- The terminating zero takes the place of the twentieth character. -/
theorem formatted_of_short (short : (numberText z).length ≤ 19) : formatted z = numberText z := by
  have whole : (numberText z).take 19 = numberText z := List.take_of_length_le short
  simp [formatted, snprintf, resize, whole]

theorem zero_notMem_numberText (z : ℤ) : (0 : UInt8) ∉ numberText z := by
  have digits := decimal_digits z.natAbs
  have none : (0 : UInt8) ∉ decimal z.natAbs := fun mem => (digit_ne (digits 0 mem)).1 rfl
  unfold numberText
  split_ifs
  · simp [none]
  · exact none

theorem formatted_of_long (long : 19 < (numberText z).length) : formatted z ≠ numberText z := by
  have ended : (0 : UInt8) ∈ formatted z := by
    obtain ⟨n, more⟩ : ∃ n, (numberText z).length = 20 + n := ⟨(numberText z).length - 20, by omega⟩
    have cut : ((numberText z).take 19).length = 19 := List.length_take_of_le (by omega)
    have last : (0 : UInt8) ∈ [0].take (20 + n - 19) := by
      rw [show 20 + n - 19 = n + 1 by omega]
      simp
    simp [formatted, snprintf, resize, more, List.take_append, cut, last]
  intro same
  rw [same] at ended
  exact zero_notMem_numberText z ended

theorem numberText_length_le_iff :
    (numberText z).length ≤ 19 ↔ -10 ^ 18 < z ∧ z < 10 ^ 19 := by
  have digits18 := decimal_length_le_iff (n := z.natAbs) (k := 17)
  have digits19 := decimal_length_le_iff (n := z.natAbs) (k := 18)
  unfold numberText
  split_ifs with neg
  · rw [List.length_cons]
    omega
  · omega

end Buffer

/-- The texts that are made of numbers: the canonical one, which is read back, for those that take
no more than 19 characters. -/
theorem number_text_iff {F : Type} (fl : Floats F) (t : IntType) (n : ℤ) (holds : t.Holds n) :
    number2string t n = numberText n ∧
        string2number fl t.cppType (number2string t n) = .num n ↔
      -10 ^ 18 < n ∧ n < 10 ^ 19 := by
  have converted : number2string t n = formatted n := by
    obtain ⟨ge, le⟩ := holds
    cases t <;> simp only [IntType.least, IntType.greatest] at ge le
    case uint64 => exact congrArg formatted (Int.emod_eq_of_lt ge (by omega))
    all_goals exact congrArg formatted (by rw [Int.bmod_eq_of_le] <;> omega)
  rw [converted, ← numberText_length_le_iff]
  constructor
  · rintro ⟨same, -⟩
    by_contra long
    exact formatted_of_long (by omega) same
  · intro short
    rw [formatted_of_short short]
    refine ⟨rfl, ?_⟩
    obtain ⟨ge, le⟩ := holds
    cases t with
    | int32 =>
      simp only [IntType.least, IntType.greatest] at ge le
      simp only [IntType.cppType, string2number]
      rw [strtoll_numberText (by omega) (by omega), Int.bmod_eq_of_le (by omega) (by omega)]
    | uint32 =>
      simp only [IntType.least, IntType.greatest] at ge le
      simp only [IntType.cppType, string2number]
      rw [strtoll_numberText (by omega) (by omega), Int.emod_eq_of_lt (by omega) (by omega)]
    | int64 =>
      simp only [IntType.least, IntType.greatest] at ge le
      simp only [IntType.cppType, string2number]
      rw [strtoll_numberText (by omega) (by omega)]
    | uint64 =>
      simp only [IntType.least, IntType.greatest] at ge le
      simp only [IntType.cppType, string2number]
      rw [strtoull_numberText (by omega) (by omega)]

theorem number_text_seven :
    IntType.int32.Holds 7 ∧ (number2string .int32 7 = numberText 7 ∧
      string2number (⟨fun _ => (), fun _ => (), id⟩ : Floats Unit) IntType.int32.cppType
        (number2string .int32 7) = .num 7 ↔ -10 ^ 18 < (7 : ℤ) ∧ (7 : ℤ) < 10 ^ 19) :=
  ⟨⟨by decide, by decide⟩, number_text_iff _ .int32 7 ⟨by decide, by decide⟩⟩

/-- The greatest `uint64_t` loses its last digit. -/
theorem number_text_greatest : ¬ ∀ (F : Type) (fl : Floats F) (t : IntType) (n : ℤ), t.Holds n →
    number2string t n = numberText n ∧
      string2number fl t.cppType (number2string t n) = .num n := by
  intro claim
  have whole := (claim Unit ⟨fun _ => (), fun _ => (), id⟩ .uint64 (2 ^ 64 - 1)
    ⟨by decide, by decide⟩).1
  exact absurd whole (by decide)

end Conet.Base.String2number
