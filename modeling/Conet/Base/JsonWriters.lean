/- Module: Conet/Base/JsonWriters
   source: base/src/pb2json.cpp
   digest: The two JSON writers of messages, one of text and one of trees, and what they make of
   scalars. -/

import Conet.Base.String2number
import Conet.Lib.JsonText

set_option autoImplicit false
set_option relaxedAutoImplicit false

namespace Conet.Base.JsonWriters

open Conet.Lib Conet.Lib.DynMessage Conet.Lib.Json Conet.Base.HttpParser Conet.Base.QueryString
open Conet.Base.String2number (numberText number2string formatted)

/-- `%f` of a floating point number, and the JSON number of it. -/
structure FloatText (F : Type) where
  format : F → List UInt8
  number : F → ℚ

variable {D F : Type}

section Scalars

/-- One byte of `json_str_escape`. -/
def escapeByte (ch : UInt8) : List UInt8 :=
  if ch = 34 then [92, 34]
  else if ch = 92 then [92, 92]
  else if ch = 47 then [92, 47]
  else if ch = 8 then [92, 98]
  else if ch = 12 then [92, 102]
  else if ch = 13 then [92, 114]
  else if ch = 10 then [92, 110]
  else if ch = 9 then [92, 116]
  else [ch]

def jsonStrEscape (src : List UInt8) : List UInt8 := src.flatMap escapeByte

/-- The integer that `Get…` returns, or the number of an enum value. -/
def getInt : Scalar F → ℤ
  | .num n => n
  | .enum n => n
  | .bool b => if b then 1 else 0
  | _ => 0

def getString : Scalar F → List UInt8
  | .string s => s
  | _ => []

def getBool : Scalar F → Bool
  | .bool b => b
  | _ => false

variable (ft : FloatText F) (f : FieldDescriptor D (Scalar F))

/-- The text that `pb2json` prints with the format of the type. -/
@[grind =] def printed (v : Scalar F) : List UInt8 :=
  match f.cppType, v with
  | .double, .float x => ft.format x
  | .float, .float x => ft.format x
  -- `%lu` of an `int` that is cast to `uint64_t`
  | .enum, v => numberText (getInt v % 2 ^ 64)
  -- `%ld` where the field is singular
  | .uint64, v => numberText (if f.isRepeated then getInt v else (getInt v).bmod (2 ^ 64))
  | _, v => numberText (getInt v)

/-- The content of a string field in the text and in the tree. -/
def content (v : Scalar F) : List UInt8 := if f.isBytes then jsonStrEscape (getString v) else getString v

/-- What `snprintf` leaves in a `char tmp[size]`, up to the zero. -/
def tmpText (size : ℕ) (s : List UInt8) : List UInt8 := s.take (size - 1)

/-- What is appended for the item `i` of a repeated field. -/
@[grind =] def itemText (i : ℕ) (v : Scalar F) : List UInt8 :=
  let comma := if 0 < i then [44] else []
  match f.cppType with
  | .string => comma ++ quoted (content f v)
  | .int64 => tmpText 30 (comma ++ quoted (printed ft f v))
  | .uint64 => tmpText 30 (comma ++ quoted (printed ft f v))
  | .enum => tmpText 20 ((if 0 < i then [44, 32] else []) ++ printed ft f v)
  | .message => []
  | _ => tmpText 20 (comma ++ printed ft f v)

/-- What is appended for a singular field, behind its name. -/
@[grind =] def singleText (v : Scalar F) : List UInt8 :=
  match f.cppType with
  | .string => codes "\":" ++ quoted (content f v)
  | .int64 => tmpText 30 (codes "\":" ++ quoted (printed ft f v))
  | .uint64 => tmpText 30 (codes "\":" ++ quoted (printed ft f v))
  | .message => []
  | _ => tmpText 30 (codes "\":" ++ printed ft f v)

@[grind =] def scalarTree (v : Scalar F) : Value :=
  match f.cppType, v with
  | .double, .float x => .number (ft.number x)
  | .float, .float x => .number (ft.number x)
  | .bool, v => .bool (getBool v)
  | .int64, v => .string (number2string .int64 (getInt v))
  | .uint64, v => .string (number2string .uint64 (getInt v))
  | .string, v => .string (content f v)
  | _, v => .number (getInt v)

end Scalars

section Writers

variable (ft : FloatText F) (sch : D → Descriptor D (Scalar F))

/-- `field->is_repeated() || ref->HasField(*msg, field)`. -/
def written (m : Msg (Scalar F)) (f : FieldDescriptor D (Scalar F)) : Bool :=
  f.isRepeated || !(m f.number).isEmpty

mutual

def messageText : D → Node (Scalar F) → List UInt8
  | t, .message m =>
    [123] ++ ((sch t).fields.zipIdx.flatMap fun p =>
      if written m p.1 then
        (if 0 < p.2 then [44] else []) ++ ([34] ++ p.1.name ++
          if p.1.isRepeated then codes "\":[" ++ itemTexts p.1 0 (m p.1.number) ++ [93]
          else singleTexts p.1 (m p.1.number))
      else []) ++ [125]
  | _, .scalar _ => []

/-- The loop over the items of a repeated field. -/
def itemTexts (f : FieldDescriptor D (Scalar F)) : ℕ → List (Node (Scalar F)) → List UInt8
  | _, [] => []
  | i, .scalar v :: xs => itemText ft f i v ++ itemTexts f (i + 1) xs
  | i, .message m :: xs =>
    (if 0 < i then [44] else []) ++ messageText f.messageType (.message m) ++ itemTexts f (i + 1) xs

def singleTexts (f : FieldDescriptor D (Scalar F)) : List (Node (Scalar F)) → List UInt8
  | [] => []
  | .scalar v :: _ => singleText ft f v
  | .message m :: _ => codes "\":" ++ messageText f.messageType (.message m)

end

section Trees

variable (leaf : FieldDescriptor D (Scalar F) → Scalar F → Value)
  (sch : D → Descriptor D (Scalar F))

mutual

/-- The object of a message, with the values of its scalars. -/
def messageTree : D → Node (Scalar F) → Value
  | t, .message m =>
    .object ((sch t).fields.foldl (fun root f =>
      if written m f then
        setMember f.name (if f.isRepeated then .array (itemTrees f (m f.number))
          else singleTree f (m f.number)) root
      else root) [])
  | _, .scalar _ => .null

def itemTrees (f : FieldDescriptor D (Scalar F)) : List (Node (Scalar F)) → List Value
  | [] => []
  | .scalar v :: xs => leaf f v :: itemTrees f xs
  | .message m :: xs => messageTree f.messageType (.message m) :: itemTrees f xs

def singleTree (f : FieldDescriptor D (Scalar F)) : List (Node (Scalar F)) → Value
  | [] => .null
  | .scalar v :: _ => leaf f v
  | .message m :: _ => messageTree f.messageType (.message m)

end

end Trees

/-- `pb2json` of a message to a `Json::Value` that is an empty object. -/
def pb2jsonTree (t : D) (m : Msg (Scalar F)) : Value := messageTree (scalarTree ft) sch t (.message m)

/-- `pb2json` of a message to a text. -/
def pb2jsonText (t : D) (m : Msg (Scalar F)) : List UInt8 := messageText ft sch t (.message m)

end Writers

/-! ### Messages -/

section Messages

/-- The scalars of a field: the values of its type, none of them a floating point number. -/
def Fits (f : FieldDescriptor D (Scalar F)) (v : Scalar F) : Prop :=
  match f.cppType, v with
  | .int32, .num n => -2 ^ 31 ≤ n ∧ n < 2 ^ 31
  | .uint32, .num n => 0 ≤ n ∧ n < 2 ^ 32
  | .int64, .num n => -2 ^ 63 ≤ n ∧ n < 2 ^ 63
  | .uint64, .num n => 0 ≤ n ∧ n < 2 ^ 64
  | .bool, .bool _ => True
  | .string, .string _ => True
  | .enum, .enum n => -2 ^ 31 ≤ n ∧ n < 2 ^ 31
  | _, _ => False

inductive Typed (sch : D → Descriptor D (Scalar F)) : D → Msg (Scalar F) → Prop
  | mk {t : D} {m : Msg (Scalar F)}
    (single : ∀ f ∈ (sch t).fields, f.isRepeated = false → (m f.number).length ≤ 1)
    (scalars : ∀ f ∈ (sch t).fields, ∀ v, .scalar v ∈ m f.number → Fits f v)
    (kinds : ∀ f ∈ (sch t).fields, ∀ s, .message s ∈ m f.number → f.cppType = .message)
    (inner : ∀ f ∈ (sch t).fields, ∀ s, .message s ∈ m f.number → Typed sch f.messageType s) :
    Typed sch t m

/-- The names of a type's fields are identifiers, each of one field. -/
structure Named (d : Descriptor D (Scalar F)) : Prop where
  nodup : (d.fields.map FieldDescriptor.name).Nodup
  identifier : ∀ f ∈ d.fields, ∀ c ∈ f.name,
    (48 ≤ c ∧ c ≤ 57) ∨ (65 ≤ c ∧ c ≤ 90) ∨ c = 95 ∨ (97 ≤ c ∧ c ≤ 122)

/-- The scalars whose text stands for their value in the tree. -/
def Plain (f : FieldDescriptor D (Scalar F)) (v : Scalar F) : Prop :=
  match f.cppType, v with
  | .bool, _ => False
  | .int64, .num n => -10 ^ 18 < n
  | .uint64, .num n => if f.isRepeated then n < 10 ^ 19 else n < 2 ^ 63
  | .string, .string s => Clean s ∧ utf8 s = true ∧ (f.isBytes = true → 47 ∉ s)
  | .enum, .enum n => 0 ≤ n
  | _, _ => True

/-- The messages in which the first field of the type is written if any is, and whose scalars are
plain, at every depth. -/
inductive PlainMessage (plain : FieldDescriptor D (Scalar F) → Scalar F → Prop)
    (sch : D → Descriptor D (Scalar F)) : D → Msg (Scalar F) → Prop
  | mk {t : D} {m : Msg (Scalar F)}
    (first : (∀ f ∈ (sch t).fields, written m f = false) ∨
      ∀ f ∈ (sch t).fields.head?, written m f = true)
    (scalars : ∀ f ∈ (sch t).fields, ∀ v, .scalar v ∈ m f.number → plain f v)
    (inner : ∀ f ∈ (sch t).fields, ∀ s, .message s ∈ m f.number →
      PlainMessage plain sch f.messageType s) :
    PlainMessage plain sch t m

end Messages

/-! ### The texts of numbers -/

section Decimal

open Conet.Base.StringBuilder Conet.Base.String2number

variable {n k : ℕ} {z : ℤ}

theorem decimal_first (first : (decimal n).head? = some 48) : n = 0 := by
  induction n using Nat.strong_induction_on with
  | _ n ih =>
    rw [decimal_eq] at first
    split_ifs at first with small
    · have digit := congrArg UInt8.toNat (Option.some.inj first)
      rw [digit_toNat] at digit
      simp only [UInt8.reduceToNat] at digit
      omega
    · have here : (decimal (n / 10)).head? = some 48 := by
        rwa [List.head?_append_of_ne_nil _ (decimal_ne_nil (n / 10))] at first
      have zero := ih (n / 10) (by omega) here
      omega

theorem decimal_canonical (first : (decimal n).head? = some 48) : (decimal n).length = 1 := by
  rw [decimal_first first]
  rfl

theorem reads_decimal (n : ℕ) : Reads (decimal n) (.number n) := by
  have reads := reads_digits (decimal_digits n) (decimal_ne_nil n) decimal_canonical
  rwa [show digitsValue (decimal n) = n from foldl_decimal n] at reads

theorem reads_numberText (z : ℤ) : Reads (numberText z) (.number z) := by
  unfold numberText
  split_ifs with neg
  · have reads := reads_minus (decimal_digits z.natAbs) (decimal_ne_nil _) decimal_canonical
    rw [show digitsValue (decimal z.natAbs) = z.natAbs from foldl_decimal _] at reads
    have value : -((z.natAbs : ℕ) : ℚ) = z := by
      rw [← Int.cast_natCast, Int.ofNat_natAbs_of_nonpos (by omega), Int.cast_neg, neg_neg]
    rwa [value] at reads
  · have reads := reads_decimal z.natAbs
    have value : ((z.natAbs : ℕ) : ℚ) = z := by
      rw [← Int.cast_natCast, Int.natAbs_of_nonneg (by omega)]
    rwa [value] at reads

theorem legal_numberText (z : ℤ) : Legal (numberText z) := by
  have bytes : ∀ c ∈ numberText z, c = 45 ∨ Json.isDigit c = true := by
    unfold numberText
    split_ifs
    · intro c mem
      exact (List.mem_cons.mp mem).imp id (decimal_digits _ c)
    · exact fun c mem => .inr (decimal_digits _ c mem)
  have bounds : ∀ c ∈ numberText z, 45 ≤ c.toNat ∧ c.toNat ≤ 57 := by
    intro c mem
    rcases bytes c mem with rfl | digit
    · decide
    · have range := digit_bounds digit
      omega
  refine ⟨fun c mem => ⟨?_, ?_, ?_⟩, utf8_ascii fun c mem => ?_⟩
  · have range := bounds c mem
    rw [UInt8.le_iff_toNat_le]
    exact Nat.le_trans (by decide) range.1
  · rintro rfl
    exact absurd (bounds _ mem).1 (by decide)
  · rintro rfl
    exact absurd (bounds _ mem).2 (by decide)
  · have range := bounds c mem
    rw [UInt8.lt_iff_toNat_lt]
    exact Nat.lt_of_le_of_lt range.2 (by decide)

theorem numberText_length_lt (bound : z.natAbs < 10 ^ (k + 1)) : (numberText z).length ≤ k + 2 := by
  have digits := decimal_length_le_iff.mpr bound
  unfold numberText
  split_ifs
  · rw [List.length_cons]
    omega
  · omega

end Decimal

/-! ### The parts of the text -/

section Parts

variable {c : UInt8} {s : List UInt8}

/-- The bytes that have an escape of their own. -/
def specials : List UInt8 := [34, 92, 47, 8, 12, 13, 10, 9]

theorem forall_specials {P : UInt8 → Prop} :
    (∀ c ∈ specials, P c) ↔ P 34 ∧ P 92 ∧ P 47 ∧ P 8 ∧ P 12 ∧ P 13 ∧ P 10 ∧ P 9 := by
  simp only [specials, List.forall_mem_cons, List.not_mem_nil, false_implies, implies_true, and_true]

theorem escapeByte_special (mem : c ∈ specials) :
    ∃ d, escapeByte c = [92, d] ∧ escaped d = some c ∧ d ≠ 117 := by
  simp only [specials, List.mem_cons, List.not_mem_nil, or_false] at mem
  rcases mem with rfl | rfl | rfl | rfl | rfl | rfl | rfl | rfl <;> exact ⟨_, rfl, rfl, by decide⟩

theorem escapeByte_plain (plain : c ∉ specials) : escapeByte c = [c] := by
  simp only [specials, List.mem_cons, List.not_mem_nil, or_false, not_or] at plain
  simp only [escapeByte, plain, if_false]

theorem escapeByte_clean : Clean (escapeByte c) ↔ Clean [c] ∧ c ≠ 47 := by
  have alone : Clean [c] ↔ 32 ≤ c ∧ c ≠ 34 ∧ c ≠ 92 := List.forall_mem_singleton
  by_cases mem : c ∈ specials
  · obtain ⟨d, text, -⟩ := escapeByte_special mem
    have unclean : ∀ c ∈ specials, ¬ ((32 ≤ c ∧ c ≠ 34 ∧ c ≠ 92) ∧ c ≠ 47) := by
      rw [forall_specials]
      decide
    rw [text, alone]
    exact iff_of_false (fun clean => (clean 92 List.mem_cons_self).2.2 rfl) (unclean c mem)
  · have slash : c ≠ 47 := fun same => mem (same ▸ by decide)
    rw [escapeByte_plain mem, and_iff_left slash]

theorem escapeByte_self (clean : Clean [c]) (slash : c ≠ 47) : escapeByte c = [c] := by
  obtain ⟨printed, quote, backslash⟩ := clean c List.mem_cons_self
  have control : ∀ d : UInt8, d < 32 → c ≠ d := by
    rintro d small rfl
    exact absurd printed (UInt8.not_le.mpr small)
  simp [escapeByte, quote, backslash, slash, control]

theorem clean_cons : Clean (c :: s) ↔ Clean [c] ∧ Clean s := by simp [Clean]

/-- Escaped text is its own content where nothing was escaped. -/
theorem clean_jsonStrEscape : Clean (jsonStrEscape s) ↔ Clean s ∧ 47 ∉ s := by
  induction s with
  | nil => simp [jsonStrEscape, Clean]
  | cons c s ih =>
    have parts : Clean (jsonStrEscape (c :: s)) ↔ Clean (escapeByte c) ∧ Clean (jsonStrEscape s) := by
      simp only [jsonStrEscape, List.flatMap_cons, Clean, List.mem_append, or_imp, forall_and]
      tauto
    rw [parts, ih, escapeByte_clean, clean_cons (s := s), List.mem_cons, not_or, ne_comm]
    tauto

theorem jsonStrEscape_self (clean : Clean s) (slash : 47 ∉ s) : jsonStrEscape s = s := by
  induction s with
  | nil => rfl
  | cons c s ih =>
    rw [List.mem_cons, not_or] at slash
    obtain ⟨first, rest⟩ := clean_cons.mp clean
    rw [jsonStrEscape, List.flatMap_cons, escapeByte_self first (Ne.symm slash.1), ← jsonStrEscape,
      ih rest slash.2]
    rfl

variable (ft : FloatText F) (f : FieldDescriptor D (Scalar F))

/-- The text of a scalar without commas: as the value of a singular field, or as an item. -/
def partText (place : Option ℕ) (v : Scalar F) : List UInt8 :=
  match f.cppType with
  | .string => quoted (content f v)
  | .int64 => quoted (printed ft f v)
  | .uint64 => quoted (printed ft f v)
  | .enum =>
    -- the items are cut to 19 characters, with the comma and the blank in front
    match place with
    | none => printed ft f v
    | some 0 => (printed ft f v).take 19
    | some (_ + 1) => 32 :: (printed ft f v).take 17
  | _ => printed ft f v

variable {ft f} {v : Scalar F}

theorem numberText_length_le {z : ℤ} (ge : -10 ^ 19 < z) (lt : z < 10 ^ 20) :
    (numberText z).length ≤ 20 := by
  have digits19 := Conet.Base.String2number.decimal_length_le_iff (n := z.natAbs) (k := 18)
  have digits20 := Conet.Base.String2number.decimal_length_le_iff (n := z.natAbs) (k := 19)
  unfold numberText
  split_ifs
  · rw [List.length_cons]
    omega
  · omega

theorem numberText_length_small {z : ℤ} (ge : -10 ^ 10 < z) (lt : z < 10 ^ 10) :
    (numberText z).length ≤ 11 := numberText_length_lt (by omega)

theorem tmpText_whole {size : ℕ} (short : s.length < size) : tmpText size s = s :=
  List.take_of_length_le (by omega)

theorem numberText_formatted (z : ℤ) : numberText z = formatted z ↔ -10 ^ 18 < z ∧ z < 10 ^ 19 := by
  rw [← Conet.Base.String2number.numberText_length_le_iff]
  constructor
  · intro same
    by_contra long
    exact Conet.Base.String2number.formatted_of_long (by omega) same.symm
  · intro short
    exact (Conet.Base.String2number.formatted_of_short short).symm

theorem formatted_head (z : ℤ) : (formatted z).head? = (numberText z).head? := by
  obtain ⟨c, cs, eq⟩ : ∃ c cs, numberText z = c :: cs := by
    unfold numberText
    split_ifs
    · exact ⟨45, _, rfl⟩
    · exact List.exists_cons_of_ne_nil (Conet.Base.String2number.decimal_ne_nil _)
  simp [formatted, Conet.Base.String2number.snprintf, Conet.Base.String2number.resize, eq]

theorem numberText_int64 {n : ℤ} (ge : -2 ^ 63 ≤ n) (lt : n < 2 ^ 63) :
    numberText n = number2string .int64 n ↔ -10 ^ 18 < n := by
  have converted : number2string .int64 n = formatted n :=
    congrArg formatted (by rw [Int.bmod_eq_of_le] <;> omega)
  rw [converted, numberText_formatted]
  omega

theorem numberText_uint64 {n : ℤ} (ge : 0 ≤ n) (lt : n < 2 ^ 64) :
    numberText n = number2string .uint64 n ↔ n < 10 ^ 19 := by
  have converted : number2string .uint64 n = formatted n :=
    congrArg formatted (Int.emod_eq_of_lt ge lt)
  rw [converted, numberText_formatted]
  omega

/-- A number from `2 ^ 63` on is printed with a sign. -/
theorem numberText_uint64_signed {n : ℤ} (ge : 0 ≤ n) (lt : n < 2 ^ 64) :
    numberText (n.bmod (2 ^ 64)) = number2string .uint64 n ↔ n < 2 ^ 63 := by
  by_cases small : n < 2 ^ 63
  · have same : n.bmod (2 ^ 64) = n := by rw [Int.bmod_eq_of_le] <;> omega
    rw [same, numberText_uint64 ge lt]
    omega
  · have converted : number2string .uint64 n = formatted n :=
      congrArg formatted (Int.emod_eq_of_lt ge lt)
    refine iff_of_false (fun same => ?_) small
    have first := congrArg List.head? same
    have negative : n.bmod (2 ^ 64) < 0 := by
      rw [Int.bmod_def]
      split_ifs <;> omega
    have digits : ∀ c ∈ (numberText n).head?, Json.isDigit c = true := by
      rw [numberText, if_neg (by omega)]
      intro c mem
      exact Conet.Base.String2number.decimal_digits _ c (List.mem_of_mem_head? mem)
    rw [converted, formatted_head, numberText, if_pos negative] at first
    exact absurd (digits 45 first.symm) (by decide)

/-- The kinds of scalars that messages have. -/
inductive Kind (ft : FloatText F) (f : FieldDescriptor D (Scalar F)) (v : Scalar F) : Prop
  | small (n : ℤ) (kind : f.cppType = .int32 ∨ f.cppType = .uint32) (eq : v = .num n)
      (ge : -10 ^ 10 < n) (lt : n < 10 ^ 10)
  | flag (b : Bool) (kind : f.cppType = .bool) (eq : v = .bool b)
  | large (z : ℤ) (digits : List UInt8) (kind : f.cppType = .int64 ∨ f.cppType = .uint64)
      (text : printed ft f v = numberText z) (ge : -10 ^ 19 < z) (lt : z < 10 ^ 20)
      (tree : scalarTree ft f v = .string digits) (same : numberText z = digits ↔ Plain f v)
  | text (x : List UInt8) (kind : f.cppType = .string) (eq : v = .string x)
  | enum (n : ℤ) (kind : f.cppType = .enum) (eq : v = .enum n) (ge : -2 ^ 31 ≤ n) (lt : n < 2 ^ 31)

variable (ft) in
theorem kind_of_fits (fits : Fits f v) : Kind ft f v := by
  unfold Fits at fits
  split at fits
  · rename_i n kind
    exact .small n (.inl kind) rfl (by omega) (by omega)
  · rename_i n kind
    exact .small n (.inr kind) rfl (by omega) (by omega)
  · rename_i n kind
    refine .large n (number2string .int64 n) (.inl kind) (by simp [printed, kind, getInt]) (by omega)
      (by omega) (by simp [scalarTree, kind, getInt]) ?_
    simp only [Plain, kind]
    exact numberText_int64 fits.1 fits.2
  · rename_i n kind
    have ge := Int.le_bmod (x := n) (m := 2 ^ 64) (by decide)
    have lt := Int.bmod_lt (x := n) (m := 2 ^ 64) (by decide)
    refine .large (if f.isRepeated then n else n.bmod (2 ^ 64)) (number2string .uint64 n) (.inr kind)
      (by simp [printed, kind, getInt]) (by split_ifs <;> omega) (by split_ifs <;> omega)
      (by simp [scalarTree, kind, getInt]) ?_
    simp only [Plain, kind]
    split_ifs
    · exact numberText_uint64 fits.1 fits.2
    · exact numberText_uint64_signed fits.1 fits.2
  · rename_i b kind
    exact .flag b kind rfl
  · rename_i x kind
    exact .text x kind rfl
  · rename_i n kind
    exact .enum n kind rfl fits.1 fits.2
  · exact fits.elim

theorem itemText_eq (kind : Kind ft f v) (i : ℕ) :
    itemText ft f i v = (if 0 < i then [44] else []) ++ partText ft f (some i) v := by
  cases kind with
  | small n type eq ge lt =>
    have short := numberText_length_small ge lt
    subst eq
    rcases type with type | type <;> simp only [itemText, partText, printed, type, getInt] <;>
      exact tmpText_whole (by split_ifs <;> simp <;> omega)
  | flag b type eq =>
    subst eq
    simp only [itemText, partText, printed, type, getInt]
    refine tmpText_whole ?_
    cases b <;> split_ifs <;> decide
  | large z digits type text ge lt tree same =>
    have short := numberText_length_le ge lt
    rcases type with type | type <;> simp only [itemText, partText, type, text] <;>
      exact tmpText_whole (by split_ifs <;> simp [quoted] <;> omega)
  | text x type eq => simp only [itemText, partText, type]
  | enum n type eq ge lt =>
    simp only [itemText, partText, type, tmpText]
    cases i with
    | zero => rfl
    | succ i => rfl

theorem singleText_eq (kind : Kind ft f v) :
    singleText ft f v = [34, 58] ++ partText ft f none v := by
  have colon : codes "\":" = [34, 58] := by decide
  cases kind with
  | small n type eq ge lt =>
    have short := numberText_length_small ge lt
    subst eq
    rcases type with type | type <;> simp only [singleText, partText, printed, type, getInt, colon] <;>
      exact tmpText_whole (by simp; omega)
  | flag b type eq =>
    subst eq
    simp only [singleText, partText, printed, type, getInt, colon]
    refine tmpText_whole ?_
    cases b <;> decide
  | large z digits type text ge lt tree same =>
    have short := numberText_length_le ge lt
    rcases type with type | type <;> simp only [singleText, partText, type, text, colon] <;>
      exact tmpText_whole (by simp [quoted]; omega)
  | text x type eq => simp only [singleText, partText, type, colon]
  | enum n type eq ge lt =>
    have short : (numberText (n % 2 ^ 64)).length ≤ 20 := numberText_length_le (by omega) (by omega)
    subst eq
    simp only [singleText, partText, printed, type, getInt, colon]
    refine tmpText_whole ?_
    simp only [List.length_append, List.length_cons, List.length_nil]
    omega

/-- The first digits of a number that is not zero are no negative number. -/
theorem reads_cut {n : ℕ} (pos : n ≠ 0) (k : ℕ) :
    ∃ j : ℕ, Reads ((Conet.Base.StringBuilder.decimal n).take (k + 1)) (.number j) := by
  have nonempty := Conet.Base.String2number.decimal_ne_nil n
  refine ⟨_, reads_digits (fun c mem => ?_) ?_ fun first => ?_⟩
  · exact Conet.Base.String2number.decimal_digits n c (List.mem_of_mem_take mem)
  · simpa using nonempty
  · rw [List.head?_take, if_neg (Nat.succ_ne_zero k)] at first
    exact absurd (decimal_first first) pos

variable (ft) in
theorem part_enum {n : ℤ} (place : Option ℕ) (type : f.cppType = .enum) (ge : -2 ^ 31 ≤ n)
    (lt : n < 2 ^ 31) : ∃ q : ℚ, Reads (partText ft f place (.enum n)) (.number q) ∧ (q = n ↔ 0 ≤ n) := by
  have text : printed ft f (.enum n) = numberText (n % 2 ^ 64) := by simp [printed, type, getInt]
  by_cases neg : n < 0
  · have value : n % 2 ^ 64 = n + 2 ^ 64 := by omega
    have pos : (n % 2 ^ 64).natAbs ≠ 0 := by omega
    have number : ∀ j : ℕ, ((j : ℚ) = n ↔ 0 ≤ n) := fun j => by
      refine iff_of_false (fun same => ?_) (by omega)
      have cast : (j : ℤ) = n := by exact_mod_cast same
      omega
    have decimal : numberText (n % 2 ^ 64) = Conet.Base.StringBuilder.decimal (n % 2 ^ 64).natAbs := by
      rw [numberText, if_neg (by omega)]
    simp only [partText, type, text, decimal]
    cases place with
    | none => exact ⟨_, reads_decimal _, number _⟩
    | some i =>
      cases i with
      | zero =>
        obtain ⟨j, reads⟩ := reads_cut pos 18
        exact ⟨j, reads, number j⟩
      | succ i =>
        obtain ⟨j, reads⟩ := reads_cut pos 16
        exact ⟨j, reads.space, number j⟩
  · have value : n % 2 ^ 64 = n := by omega
    have short := numberText_length_small (z := n) (by omega) (by omega)
    have whole : ∀ k, 11 ≤ k → (numberText n).take k = numberText n := fun k le =>
      List.take_of_length_le (short.trans le)
    refine ⟨n, ?_, iff_of_true rfl (by omega)⟩
    simp only [partText, type, text, value]
    cases place with
    | none => exact reads_numberText n
    | some i =>
      cases i with
      | zero =>
        dsimp only
        rw [whole 19 (by decide)]
        exact reads_numberText n
      | succ i =>
        dsimp only
        rw [whole 17 (by decide)]
        exact (reads_numberText n).space

variable (ft) in
/-- The text of a scalar stands for its value in the tree where it is plain. -/
theorem part_reads (fits : Fits f v) (place : Option ℕ) :
    Honest (partText ft f place v) (scalarTree ft f v) ∧
      (Reads (partText ft f place v) (scalarTree ft f v) ↔ Plain f v) := by
  cases kind_of_fits ft fits with
  | small n type eq ge lt =>
    subst eq
    have reads := reads_numberText n
    rcases type with type | type <;>
      simpa [partText, printed, scalarTree, Plain, type, getInt, reads] using reads.honest
  | flag b type eq =>
    subst eq
    have reads := reads_numberText (if b then 1 else 0)
    have other := reads.unique (v := .bool b)
    simp only [partText, printed, scalarTree, Plain, type, getInt, getBool]
    exact ⟨reads.honest, other.trans (iff_of_false Value.noConfusion id)⟩
  | large z digits type text ge lt tree same =>
    have legal := legal_numberText z
    have reads := reads_quoted legal.1 legal.2
    have part : partText ft f place v = quoted (numberText z) := by
      rcases type with type | type <;> simp only [partText, type, text]
    rw [part, tree, reads.unique, Value.string.injEq, same]
    exact ⟨reads.honest, Iff.rfl⟩
  | text x type eq =>
    subst eq
    simp only [partText, scalarTree, Plain, type, reads_quoted_iff, content, getString]
    refine ⟨honest_quoted _, ?_⟩
    cases bytes : f.isBytes with
    | false => simp
    | true =>
      simp only [if_true, clean_jsonStrEscape, true_imp_iff]
      constructor
      · rintro ⟨⟨clean, slash⟩, valid⟩
        rw [jsonStrEscape_self clean slash] at valid
        exact ⟨clean, valid, slash⟩
      · rintro ⟨clean, valid, slash⟩
        rw [jsonStrEscape_self clean slash]
        exact ⟨⟨clean, slash⟩, valid⟩
  | enum n type eq ge lt =>
    subst eq
    obtain ⟨q, reads, same⟩ := part_enum ft place type ge lt
    simp only [scalarTree, Plain, type, getInt]
    rw [reads.unique, Value.number.injEq, same]
    exact ⟨reads.honest, Iff.rfl⟩

end Parts

end Conet.Base.JsonWriters
