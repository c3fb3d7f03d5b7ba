/- Module: Conet/Base/StringBuilder
   source: base/string_builder.h
   digest: A text that is built in a buffer of fixed size, and in a string once it does not fit. -/

import Conet.Lib.Bytes
import Conet.Base.HttpParser

set_option autoImplicit false
set_option relaxedAutoImplicit false

namespace Conet.Base

open Conet.Lib

/-- `StringBuilder<init_size>`; `m_buff` is at address 0. -/
structure StringBuilder (initSize : ℕ) where
  mBuff : ℤ → UInt8
  mStr : List UInt8
  mLen : ℤ

namespace StringBuilder

variable {initSize : ℕ}

/-- The constructor, which leaves `m_buff` as the memory is. -/
def init (mem : ℤ → UInt8) : StringBuilder initSize := ⟨mem, [], 0⟩

def append (b : StringBuilder initSize) (data : List UInt8) : StringBuilder initSize :=
  let newLen := b.mLen + data.length
  if 0 ≤ b.mLen then
    if newLen ≤ initSize then { b with mBuff := write b.mBuff b.mLen data, mLen := newLen }
    else { b with mLen := -1, mStr := b.mStr ++ slice b.mBuff 0 initSize ++ data }
  else { b with mStr := b.mStr ++ data }

/-- The loop of `append(n)`, from the last digit on. -/
def digitsLoop : ℕ → ℕ → List UInt8 → List UInt8
  | 0, _, s => s
  | k + 1, n, s =>
    let s := UInt8.ofNat (48 + n % 10) :: s
    if 0 < n / 10 then digitsLoop k (n / 10) s else s

def decimal (n : ℕ) : List UInt8 := digitsLoop (n + 1) n []

/-- The text of a number that is converted to `unsigned int`. -/
def uintText (n : ℕ) : List UInt8 := decimal (n % 2 ^ 32)

/-- `append(n)`. -/
def appendUint (b : StringBuilder initSize) (n : ℕ) : StringBuilder initSize := b.append (uintText n)

/-- The `size()` bytes at `data()`. -/
def data (b : StringBuilder initSize) : List UInt8 :=
  if 0 ≤ b.mLen then slice b.mBuff 0 b.mLen.toNat else b.mStr

/-- How many bytes of `m_buff` that were never written come into the text, when parts of it are
appended behind the first `n` bytes. -/
def gap (initSize : ℕ) : ℕ → List (List UInt8) → ℕ
  | _, [] => 0
  | n, p :: ps => if n + p.length ≤ initSize then gap initSize (n + p.length) ps else initSize - n

section Append

variable {b : StringBuilder initSize} {bs : List UInt8} {mem : ℤ → UInt8}

/-- The text `bs` is in the buffer, and the memory behind it has not been written. -/
structure Holds (b : StringBuilder initSize) (bs : List UInt8) (mem : ℤ → UInt8) : Prop where
  len : b.mLen = bs.length
  le : bs.length ≤ initSize
  str : b.mStr = []
  bytes : slice b.mBuff 0 bs.length = bs
  rest : ∀ i : ℤ, bs.length ≤ i → b.mBuff i = mem i

theorem holds_init (mem : ℤ → UInt8) : Holds (init mem : StringBuilder initSize) [] mem :=
  ⟨rfl, Nat.zero_le _, rfl, rfl, fun _ _ => rfl⟩

theorem Holds.append (holds : Holds b bs mem) {data : List UInt8}
    (fits : bs.length + data.length ≤ initSize) : Holds (b.append data) (bs ++ data) mem := by
  have len := holds.len
  rw [StringBuilder.append, if_pos (by omega), if_pos (by omega)]
  refine ⟨by simp [len], by simpa using fits, holds.str, ?_, fun i hi => ?_⟩
  · rw [List.length_append, slice_add, zero_add, len, slice_write, slice_write_of_le (by omega),
      holds.bytes]
  · rw [List.length_append] at hi
    simp only [write]
    rw [if_neg (by omega)]
    exact holds.rest i (by omega)

theorem foldl_spilled (ps : List (List UInt8)) (len : b.mLen = -1) :
    (ps.foldl StringBuilder.append b).data = b.mStr ++ ps.flatten := by
  induction ps generalizing b with
  | nil =>
    rw [List.foldl_nil, data, if_neg (by omega)]
    simp
  | cons p ps ih =>
    have step : b.append p = { b with mStr := b.mStr ++ p } := by
      rw [StringBuilder.append, if_neg (by omega)]
    have rest := ih (b := { b with mStr := b.mStr ++ p }) len
    rw [List.foldl_cons, step, rest]
    simp

/-- The text of a builder: between the part in front of the first one that does not fit and the rest
stands what was in the buffer behind. -/
theorem foldl_append (initSize : ℕ) (bs : List UInt8) (ps : List (List UInt8)) (le : bs.length ≤ initSize) :
    ∃ u v, bs ++ ps.flatten = u ++ v ∧
      (∀ (b : StringBuilder initSize) mem, Holds b bs mem → (ps.foldl StringBuilder.append b).data =
        u ++ slice mem u.length (gap initSize bs.length ps) ++ v) ∧
      (gap initSize bs.length ps ≠ 0 → u.length + gap initSize bs.length ps = initSize ∧
        initSize < (bs ++ ps.flatten).length) := by
  induction ps generalizing bs with
  | nil =>
    refine ⟨bs, [], by simp, fun b mem holds => ?_, fun ne => absurd rfl ne⟩
    have len := holds.len
    rw [List.foldl_nil, data, if_pos (by omega), len, Int.toNat_natCast, holds.bytes]
    simp [gap]
  | cons p ps ih =>
    by_cases fits : bs.length + p.length ≤ initSize
    · obtain ⟨u, v, split, text, far⟩ := ih (bs ++ p) (by simpa using fits)
      rw [List.length_append, List.append_assoc, ← List.flatten_cons] at far
      rw [gap, if_pos fits]
      refine ⟨u, v, by simpa using split, fun b mem holds => ?_, far⟩
      rw [List.foldl_cons, text _ mem (holds.append fits), List.length_append]
    · rw [gap, if_neg fits]
      refine ⟨bs, p ++ ps.flatten, by simp, fun b mem holds => ?_, fun _ => ⟨by omega, ?_⟩⟩
      · have len := holds.len
        have garbage : slice b.mBuff bs.length (initSize - bs.length) =
            slice mem bs.length (initSize - bs.length) :=
          slice_congr fun i hi _ => holds.rest i hi
        have whole : slice b.mBuff 0 initSize = bs ++ slice b.mBuff bs.length (initSize - bs.length) := by
          have parts := slice_add b.mBuff 0 bs.length (initSize - bs.length)
          rwa [Nat.add_sub_cancel' le, holds.bytes, zero_add] at parts
        have step : b.append p =
            { b with mLen := -1, mStr := bs ++ slice mem bs.length (initSize - bs.length) ++ p } := by
          rw [StringBuilder.append, if_pos (by omega), if_neg (by omega), holds.str, whole, garbage]
          rfl
        rw [List.foldl_cons, step, foldl_spilled ps rfl]
        simp
      · rw [List.length_append, List.flatten_cons, List.length_append]
        omega

end Append

section Decimal

open Conet.Base.HttpParser

theorem digit_toNat (n : ℕ) : (UInt8.ofNat (48 + n % 10)).toNat = 48 + n % 10 := by
  rw [UInt8.toNat_ofNat']
  omega

theorem digitsLoop_append (k n : ℕ) (s : List UInt8) : digitsLoop k n s = digitsLoop k n [] ++ s := by
  induction k generalizing n s with
  | zero => rfl
  | succ k ih =>
    simp only [digitsLoop]
    split
    · rw [ih _ (_ :: s), ih _ [_]]
      simp
    · rfl

/-- With enough turns, the loop writes the digits of the number. -/
theorem digitsLoop_succ {k n : ℕ} (enough : n ≤ k) : digitsLoop (k + 1) n [] =
    (if n < 10 then [] else digitsLoop (n / 10 + 1) (n / 10) []) ++ [UInt8.ofNat (48 + n % 10)] := by
  induction k using Nat.strong_induction_on generalizing n with
  | _ k ih =>
    rw [digitsLoop]
    by_cases small : n < 10
    · rw [if_neg (by omega), if_pos small]
      rfl
    · rw [if_pos (by omega), if_neg small, digitsLoop_append]
      congr 1
      obtain ⟨k, rfl⟩ : ∃ j, k = j + 1 := ⟨k - 1, by omega⟩
      rw [ih k (by omega) (by omega), ih (n / 10) (by omega) le_rfl]

theorem decimal_eq (n : ℕ) : decimal n =
    (if n < 10 then [] else decimal (n / 10)) ++ [UInt8.ofNat (48 + n % 10)] := digitsLoop_succ le_rfl

theorem digitsVal_decimal (n : ℕ) : digitsVal (decimal n) = n := by
  induction n using Nat.strong_induction_on with
  | _ n ih =>
    rw [decimal_eq]
    split_ifs with small
    · rw [List.nil_append, digitsVal, List.foldl_cons, List.foldl_nil, digit_toNat]
      omega
    · have value := ih (n / 10) (by omega)
      rw [digitsVal] at value ⊢
      rw [List.foldl_append, value, List.foldl_cons, List.foldl_nil, digit_toNat]
      omega

theorem decimal_injective : Function.Injective decimal := by
  intro m n same
  rw [← digitsVal_decimal m, same, digitsVal_decimal]

theorem decimal_length_mono {m n : ℕ} (le : m ≤ n) : (decimal m).length ≤ (decimal n).length := by
  induction n using Nat.strong_induction_on generalizing m with
  | _ n ih =>
    rw [decimal_eq m, decimal_eq n, List.length_append, List.length_append]
    by_cases small : m < 10
    · rw [if_pos small]
      simp
    · have rest : (decimal (m / 10)).length ≤ (decimal (n / 10)).length :=
        ih (n / 10) (by omega) (Nat.div_le_div_right le)
      rw [if_neg small, if_neg (by omega)]
      simpa using rest

theorem uintText_length_le (n : ℕ) : (uintText n).length ≤ (decimal n).length :=
  decimal_length_mono (Nat.mod_le n _)

theorem uintText_eq_iff (n : ℕ) : uintText n = decimal n ↔ n < 2 ^ 32 := by
  constructor
  · intro same
    have small := decimal_injective same
    omega
  · intro small
    rw [uintText, Nat.mod_eq_of_lt small]

end Decimal

section Calls

/-- `append_ch(ch)`. The test takes `m_len` for an `unsigned int`; there is no result where it lets a
byte be written behind `m_buff`. -/
def appendCh (b : StringBuilder initSize) (ch : UInt8) : Option (StringBuilder initSize) :=
  if 0 ≤ b.mLen then
    if b.mLen.toNat % 2 ^ 32 < initSize then
      if b.mLen < initSize then some { b with mBuff := write b.mBuff b.mLen [ch], mLen := b.mLen + 1 }
      else none
    else some { b with mLen := -1, mStr := b.mStr ++ slice b.mBuff 0 initSize ++ [ch] }
  else some { b with mStr := b.mStr ++ [ch] }

/-- A call of one of the functions that append; ranges and strings are both given by their bytes. -/
inductive Call
  | ch (ch : UInt8)
  | bytes (data : List UInt8)
  | uint (n : UInt32)

namespace Call

def text : Call → List UInt8
  | ch c => [c]
  | bytes data => data
  | uint n => decimal n.toNat

def run (b : StringBuilder initSize) : Call → Option (StringBuilder initSize)
  | ch c => b.appendCh c
  | bytes data => some (b.append data)
  | uint n => some (b.appendUint n.toNat)

/-- The call is one of `append_ch`. -/
def IsCh : Call → Prop
  | ch _ => True
  | bytes _ => False
  | uint _ => False

instance : DecidablePred IsCh := fun c => by
  cases c <;> unfold IsCh <;> infer_instance

end Call

def runCalls (b : StringBuilder initSize) : List Call → Option (StringBuilder initSize)
  | [] => some b
  | c :: cs => (c.run b).bind fun b' => runCalls b' cs

def texts (cs : List Call) : List UInt8 := (cs.map Call.text).flatten

/-- `m_buff` has `n` bytes of text: the first call whose text does not fit finds it full, and if that
is one of `append_ch`, its size is a number of 32 bits. -/
def Carries (initSize : ℕ) : ℕ → List Call → Prop
  | _, [] => True
  | n, c :: cs =>
    if n + c.text.length ≤ initSize then Carries initSize (n + c.text.length) cs
    else n = initSize ∧ (c.IsCh → initSize < 2 ^ 32)

variable {b : StringBuilder initSize} {bs : List UInt8} {mem : ℤ → UInt8} {c : Call}

theorem appendUint_eq (b : StringBuilder initSize) (n : UInt32) :
    b.appendUint n.toNat = b.append (decimal n.toNat) := by
  have small := n.toNat_lt
  rw [appendUint, (uintText_eq_iff n.toNat).mpr (by omega)]

/-- A call appends its text, but for one of `append_ch` on a full buffer of 4 GiB or more. -/
theorem run_eq (le : b.mLen ≤ initSize) (sees : c.IsCh → b.mLen = initSize → initSize < 2 ^ 32) :
    c.run b = some (b.append c.text) := by
  cases c with
  | bytes data => rfl
  | uint n => exact congrArg some (appendUint_eq b n)
  | ch ch =>
    rw [Call.run, Call.text, appendCh, StringBuilder.append, List.length_singleton]
    by_cases inside : 0 ≤ b.mLen
    · rw [if_pos inside, if_pos inside]
      by_cases room : b.mLen < initSize
      · have low := Nat.mod_le b.mLen.toNat (2 ^ 32)
        rw [if_pos (by omega), if_pos room, if_pos (by omega)]
        rfl
      · have full : b.mLen = initSize := by omega
        have small := sees trivial full
        have low := Nat.mod_eq_of_lt (show b.mLen.toNat < 2 ^ 32 by omega)
        rw [if_neg (by omega), if_neg (by simp only [Nat.cast_one]; omega)]
    · rw [if_neg inside, if_neg inside]

theorem run_overruns (full : b.mLen = initSize) (ch : c.IsCh) (large : 2 ^ 32 ≤ initSize) :
    c.run b = none := by
  cases c with
  | bytes data => cases ch
  | uint n => cases ch
  | ch ch =>
    have low := Nat.mod_lt b.mLen.toNat (show 0 < 2 ^ 32 by omega)
    rw [Call.run, appendCh, if_pos (by omega), if_pos (by omega), if_neg (by omega)]

theorem runCalls_spilled (cs : List Call) (len : b.mLen = -1) :
    (runCalls b cs).map data = some (b.mStr ++ texts cs) := by
  induction cs generalizing b with
  | nil =>
    have str : b.data = b.mStr := if_neg (by omega)
    simp [runCalls, str, texts]
  | cons c cs ih =>
    have step : b.append c.text = { b with mStr := b.mStr ++ c.text } := by
      rw [StringBuilder.append, if_neg (by omega)]
    rw [runCalls, run_eq (by omega) (by omega), Option.bind_some, step,
      ih (b := { b with mStr := b.mStr ++ c.text }) len]
    simp [texts]

/-- The bytes at `data()` are those that were appended as long as the buffer is full when it is left. -/
theorem Holds.runCalls_iff (holds : Holds b bs mem) (cs : List Call) :
    (runCalls b cs).map data = some (bs ++ texts cs) ↔ Carries initSize bs.length cs := by
  have len := holds.len
  induction cs generalizing b bs with
  | nil =>
    have text : b.data = bs := by
      rw [data, if_pos (by omega), len, Int.toNat_natCast, holds.bytes]
    simp [runCalls, text, texts, Carries]
  | cons c cs ih =>
    have le := holds.le
    have whole : bs ++ texts (c :: cs) = bs ++ c.text ++ texts cs := by simp [texts]
    by_cases fits : bs.length + c.text.length ≤ initSize
    · have next := holds.append fits
      have goes : c.IsCh → b.mLen = initSize → initSize < 2 ^ 32 := by
        intro ch full
        cases c with
        | ch ch =>
          rw [Call.text, List.length_singleton] at fits
          omega
        | bytes data => cases ch
        | uint n => cases ch
      have rest := ih next next.len
      rw [List.length_append] at rest
      rw [runCalls, run_eq (by omega) goes, Option.bind_some, whole, Carries, if_pos fits]
      exact rest
    · rw [Carries, if_neg fits]
      by_cases overruns : b.mLen = initSize ∧ c.IsCh ∧ 2 ^ 32 ≤ initSize
      · obtain ⟨full, ch, large⟩ := overruns
        rw [runCalls, run_overruns full ch large, Option.bind_none]
        apply iff_of_false
        · simp
        · rintro ⟨-, small⟩
          have lt := small ch
          omega
      · have goes : c.IsCh → b.mLen = initSize → initSize < 2 ^ 32 := by
          intro ch full
          by_contra large
          exact overruns ⟨full, ch, by omega⟩
        have step : b.append c.text =
            { b with mLen := -1, mStr := slice b.mBuff 0 initSize ++ c.text } := by
          rw [StringBuilder.append, if_pos (by omega), if_neg (by omega), holds.str]
          rfl
        rw [runCalls, run_eq (by omega) goes, Option.bind_some, step, runCalls_spilled cs rfl, whole,
          Option.some_inj]
        constructor
        · intro same
          have lengths := congrArg List.length same
          simp only [List.length_append, slice_length] at lengths
          exact ⟨by omega, fun ch => goes ch (by omega)⟩
        · rintro ⟨full, -⟩
          have all : slice b.mBuff 0 initSize = bs := by
            simpa only [full] using holds.bytes
          show slice b.mBuff 0 initSize ++ c.text ++ texts cs = _
          rw [all]

/-- The bytes at `data()` are the concatenation of everything that was appended, under exactly one
condition. -/
theorem concatenates_iff (mem : ℤ → UInt8) (cs : List Call) :
    (runCalls (init mem : StringBuilder initSize) cs).map data = some (texts cs) ↔
      Carries initSize 0 cs :=
  (holds_init mem).runCalls_iff cs

/-- With room for two bytes and one of them in use, two bytes are appended. -/
theorem not_concatenated : ¬ ∀ initSize, 0 < initSize → ∀ (mem : ℤ → UInt8) (cs : List Call),
    (runCalls (init mem : StringBuilder initSize) cs).map data = some (texts cs) := by
  intro concatenates
  have same := concatenates 2 (by decide) (fun _ => 0) [.bytes [97], .bytes [98, 99]]
  have text : (runCalls (init (fun _ => 0) : StringBuilder 2) [.bytes [97], .bytes [98, 99]]).map data =
      some [97, 0, 98, 99] := by
    decide
  rw [text] at same
  exact absurd same (by decide)

end Calls

end StringBuilder

end Conet.Base
