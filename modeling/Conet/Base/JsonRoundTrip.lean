/- Module: Conet/Base/JsonRoundTrip
   source: base/src/pb2json.cpp, base/string2number.h
   digest: Messages that are written to JSON values and read back. -/

import Conet.Base.JsonMeaning
import Conet.Base.Json2pbTypes
import Conet.Base.JsonWritersAgree
import Mathlib.Data.List.Induction

set_option autoImplicit false
set_option relaxedAutoImplicit false

namespace Conet.Base.JsonRoundTrip

open Conet.Lib Conet.Lib.DynMessage Conet.Lib.Json Conet.Base.HttpParser Conet.Base.QueryString
open Conet.Base.Pb2json Conet.Base.JsonWriters
open Conet.Base.StringBuilder (decimal)
open Conet.Base.String2number

variable {D F S : Type}

/-! ### The numbers of 64 bits -/

section Numbers

variable {z : ℤ}

/-- Digits stand for less than the power of ten that has one digit more. -/
theorem foldl_digits_lt (ds : List UInt8) (digits : ∀ c ∈ ds, QueryString.isDigit c = true) :
    ds.foldl (fun n c => n * 10 + (c.toNat - 48)) 0 < 10 ^ ds.length := by
  induction ds using List.reverseRecOn with
  | nil => decide
  | append_singleton ds c ih =>
    have front := ih fun d mem => digits d (List.mem_append_left _ mem)
    have last := digit_bounds (digits c (by simp))
    rw [List.foldl_append, List.foldl_cons, List.foldl_nil, List.length_append, List.length_singleton,
      pow_succ]
    omega

/-- A text that is too long is cut behind 19 characters. -/
theorem formatted_cut (long : 19 < (numberText z).length) :
    ∃ zeros, formatted z = (numberText z).take 19 ++ 0 :: zeros := by
  obtain ⟨n, more⟩ : ∃ n, (numberText z).length = 20 + n := ⟨(numberText z).length - 20, by omega⟩
  have cut : ((numberText z).take 19).length = 19 := List.length_take_of_le (by omega)
  have buffer : (snprintf (resize [] 20) (numberText z)).1 = (numberText z).take 19 ++ [0] := by
    simp [snprintf, resize, cut]
  have full : ((numberText z).take 19 ++ [0]).length = 20 := by
    rw [List.length_append, cut, List.length_singleton]
  refine ⟨List.replicate n 0, ?_⟩
  show resize (snprintf (resize [] 20) (numberText z)).1 (numberText z).length = _
  rw [buffer, resize, full, more, List.take_of_length_le (by omega), Nat.add_sub_cancel_left,
    List.append_assoc]
  rfl

theorem digits_cut {ds rest : List UInt8} (digits : ∀ c ∈ ds, QueryString.isDigit c = true) :
    (ds ++ 0 :: rest).takeWhile QueryString.isDigit = ds := by
  rw [List.takeWhile_append_of_pos digits, List.takeWhile_cons_of_neg (by decide), List.append_nil]

theorem strtoDigits_minus {s : List UInt8} : strtoDigits (45 :: s) =
    (true, (s.takeWhile QueryString.isDigit).foldl (fun n c => n * 10 + (c.toNat - 48)) 0) := rfl

theorem strtoDigits_digits {s : List UInt8} (digit : ∀ c ∈ s.head?, QueryString.isDigit c = true)
    (nonempty : s ≠ []) : strtoDigits s =
      (false, (s.takeWhile QueryString.isDigit).foldl (fun n c => n * 10 + (c.toNat - 48)) 0) := by
  obtain ⟨c, s, rfl⟩ := List.exists_cons_of_ne_nil nonempty
  obtain ⟨-, plus, minus, space⟩ := digit_ne (digit c rfl)
  rw [strtoDigits, List.dropWhile_cons_of_neg (by simp [space])]
  dsimp only
  split
  · rename_i same
    exact absurd (List.cons.inj same).1 minus
  · rename_i same
    exact absurd (List.cons.inj same).1 plus
  · rfl

theorem strtoDigits_cut (long : 19 < (numberText z).length) :
    ∃ n < 10 ^ (if z < 0 then 18 else 19), strtoDigits (formatted z) = (decide (z < 0), n) := by
  obtain ⟨zeros, eq⟩ := formatted_cut long
  have digits : ∀ k, ∀ c ∈ (decimal z.natAbs).take k, QueryString.isDigit c = true := fun k c mem =>
    decimal_digits z.natAbs c (List.mem_of_mem_take mem)
  by_cases neg : z < 0
  · have text : formatted z = 45 :: ((decimal z.natAbs).take 18 ++ 0 :: zeros) := by
      rw [eq, numberText, if_pos neg]
      rfl
    have less := foldl_digits_lt _ (digits 18)
    have length : ((decimal z.natAbs).take 18).length ≤ 18 := List.length_take_le 18 _
    rw [text, strtoDigits_minus, digits_cut (digits 18), if_pos neg, decide_eq_true neg]
    exact ⟨_, less.trans_le (Nat.pow_le_pow_right (by decide) length), rfl⟩
  · have text : formatted z = (decimal z.natAbs).take 19 ++ 0 :: zeros := by
      rw [eq, numberText, if_neg neg]
    have less := foldl_digits_lt _ (digits 19)
    have length : ((decimal z.natAbs).take 19).length ≤ 19 := List.length_take_le 19 _
    have first : ∀ c ∈ ((decimal z.natAbs).take 19 ++ 0 :: zeros).head?,
        QueryString.isDigit c = true := by
      obtain ⟨c, cs, more⟩ := List.exists_cons_of_ne_nil (decimal_ne_nil z.natAbs)
      have digit := decimal_digits z.natAbs c (by simp [more])
      simpa [more] using digit
    rw [text, strtoDigits_digits first (by simp), digits_cut (digits 19), if_neg neg,
      decide_eq_false neg]
    exact ⟨_, less.trans_le (Nat.pow_le_pow_right (by decide) length), rfl⟩

theorem strtoll_formatted (ge : -2 ^ 63 ≤ z) (lt : z < 2 ^ 63) :
    strtoll (formatted z) = z ↔ -10 ^ 18 < z := by
  have length := numberText_length_le_iff (z := z)
  by_cases short : (numberText z).length ≤ 19
  · rw [formatted_of_short short]
    exact iff_of_true (strtoll_numberText ge lt) (length.mp short).1
  · have large : z ≤ -10 ^ 18 := by
      by_contra small
      exact short (length.mpr ⟨by omega, by omega⟩)
    obtain ⟨n, less, digits⟩ := strtoDigits_cut (z := z) (by omega)
    rw [if_pos (by omega)] at less
    refine iff_of_false (fun same => ?_) (by omega)
    rw [strtoll, digits] at same
    dsimp only at same
    split_ifs at same <;> omega

theorem strtoull_formatted (ge : 0 ≤ z) (lt : z < 2 ^ 64) :
    (strtoull (formatted z) : ℤ) = z ↔ z < 10 ^ 19 := by
  have length := numberText_length_le_iff (z := z)
  by_cases short : (numberText z).length ≤ 19
  · rw [formatted_of_short short]
    exact iff_of_true (strtoull_numberText ge lt) (length.mp short).2
  · have large : 10 ^ 19 ≤ z := by
      by_contra small
      exact short (length.mpr ⟨by omega, by omega⟩)
    obtain ⟨n, less, digits⟩ := strtoDigits_cut (z := z) (by omega)
    rw [if_neg (by omega)] at less
    refine iff_of_false (fun same => ?_) (by omega)
    rw [strtoull, digits, decide_eq_false (by omega)] at same
    dsimp only at same
    rw [if_neg (by omega), if_neg (by decide)] at same
    omega

end Numbers

/-! ### JSON values of the library -/

section Values

/-- The scalars that the JSON library makes of booleans, numbers and strings. -/
structure Scalars (S : Type) where
  ofBool : Bool → S
  ofNumber : ℚ → S
  ofString : List UInt8 → S

structure Documented (lib : JsonLib S) (of : Scalars S) : Prop where
  isString : ∀ s, lib.isString (of.ofString s) = true
  asString : ∀ s, lib.asString (of.ofString s) = s
  boolText : ∀ b, lib.asString (of.ofBool b) = codes (if b then "true" else "false")
  numberText : ∀ n : ℤ, -2 ^ 31 ≤ n → n < 2 ^ 32 → lib.asString (of.ofNumber n) = numberText n
  isInt : ∀ n : ℤ, -2 ^ 31 ≤ n → n < 2 ^ 31 → lib.isInt (of.ofNumber n) = true
  asInt : ∀ n : ℤ, -2 ^ 31 ≤ n → n < 2 ^ 31 → lib.asInt (of.ofNumber n) = n

variable (of : Scalars S)

mutual

def toJson : Value → Json S
  | .null => .null
  | .bool b => .scalar (of.ofBool b)
  | .number q => .scalar (of.ofNumber q)
  | .string s => .scalar (of.ofString s)
  | .array xs => .array xs.length (toItem xs)
  | .object ms => .object (toMember ms)

def toItem : List Value → ℕ → Json S
  | [], _ => .null
  | x :: _, 0 => toJson x
  | _ :: xs, i + 1 => toItem xs i

def toMember : List (List UInt8 × Value) → List UInt8 → Json S
  | [], _ => .null
  | (name, v) :: ms, n => if name = n then toJson v else toMember ms n

end

variable {of} {ms : List (List UInt8 × Value)} {name : List UInt8} {v : Value}

theorem toMember_of_mem (nodup : (ms.map Prod.fst).Nodup) (mem : (name, v) ∈ ms) :
    toMember of ms name = toJson of v := by
  induction ms with
  | nil => cases mem
  | cons m ms ih =>
    obtain ⟨fresh, rest⟩ := List.nodup_cons.mp nodup
    rw [toMember]
    rcases List.mem_cons.mp mem with rfl | later
    · exact if_pos rfl
    · rw [if_neg, ih rest later]
      rintro rfl
      have named : (m.1, v).1 ∈ ms.map Prod.fst := List.mem_map_of_mem later
      exact fresh named

theorem toMember_of_not_mem (fresh : name ∉ ms.map Prod.fst) : toMember of ms name = .null := by
  induction ms with
  | nil => rfl
  | cons m ms ih =>
    rw [List.map_cons, List.mem_cons, not_or] at fresh
    rw [toMember, if_neg (Ne.symm fresh.1), ih fresh.2]

theorem toItem_map {A : Type} (g : A → Value) (xs : List A) (P : Json S → A → Prop) :
    List.Forall₂ (fun i x => P (toItem of (xs.map g) i) x) (List.range xs.length) xs ↔
      ∀ x ∈ xs, P (toJson of (g x)) x := by
  induction xs with
  | nil => simp
  | cons x xs ih =>
    rw [List.length_cons, List.range_succ_eq_map, List.forall₂_cons, List.forall₂_map_left_iff,
      List.forall_mem_cons]
    exact and_congr Iff.rfl ih

end Values

/-! ### The tree of a message as the reader sees it -/

section Trees

variable (ft : FloatText F) (sch : D → Descriptor D (Scalar F))

def nodeTree (f : FieldDescriptor D (Scalar F)) : Node (Scalar F) → Value
  | .scalar v => scalarTree ft f v
  | .message s => messageTree (scalarTree ft) sch f.messageType (.message s)

def fieldTree (f : FieldDescriptor D (Scalar F)) (xs : List (Node (Scalar F))) : Value :=
  if f.isRepeated then .array (xs.map (nodeTree ft sch f))
  else
    match xs with
    | [] => .null
    | x :: _ => nodeTree ft sch f x

/-- The members of the object of a message. -/
def members (t : D) (m : Msg (Scalar F)) : List (List UInt8 × Value) :=
  setMembers (((sch t).fields.filter (written m)).map fun f => (f.name, fieldTree ft sch f (m f.number)))

def fieldJson (of : Scalars S) (t : D) (m : Msg (Scalar F)) : List UInt8 → Json S :=
  toMember of (members ft sch t m)

variable {ft sch} {of : Scalars S} {t : D} {m : Msg (Scalar F)} {f : FieldDescriptor D (Scalar F)}
  {name : List UInt8}

theorem toJson_tree : toJson of (pb2jsonTree ft sch t m) = .object (fieldJson ft sch of t m) := by
  have items : ∀ (f : FieldDescriptor D (Scalar F)) (xs : List (Node (Scalar F))) (i : ℕ),
      (itemParts ft (scalarTree ft) sch f i xs).map Prod.snd = xs.map (nodeTree ft sch f) := by
    intro f xs
    induction xs with
    | nil => exact fun i => rfl
    | cons x xs ih =>
      intro i
      rw [itemParts, List.map_cons, List.map_cons, ih]
      cases x <;> rfl
  have value : ∀ f xs, (fieldPart ft (scalarTree ft) sch f xs).2 = fieldTree ft sch f xs := by
    intro f xs
    unfold fieldPart fieldTree
    split_ifs
    · rw [items]
    · cases xs with
      | nil => rfl
      | cons x xs => cases x <;> rfl
  have same : (entries ft (scalarTree ft) sch t m).map Entry.member =
      ((sch t).fields.filter (written m)).map fun f => (f.name, fieldTree ft sch f (m f.number)) := by
    rw [entries, List.map_map]
    apply List.map_congr_left
    intro f _
    exact congrArg (f.name, ·) (value f _)
  rw [pb2jsonTree, messageTree_eq, same, toJson, fieldJson, members]

variable (names : ((sch t).fields.map FieldDescriptor.name).Nodup)
include names

theorem members_perm : (members ft sch t m).Perm
    (((sch t).fields.filter (written m)).map fun f => (f.name, fieldTree ft sch f (m f.number))) := by
  apply setMembers_perm
  rw [List.map_map]
  exact names.sublist (List.filter_sublist.map _)

theorem members_nodup : ((members ft sch t m).map Prod.fst).Nodup := by
  rw [((members_perm names).map Prod.fst).nodup_iff, List.map_map]
  exact names.sublist (List.filter_sublist.map _)

theorem member_written (mem : f ∈ (sch t).fields) (has : written m f = true) :
    fieldJson ft sch of t m f.name = toJson of (fieldTree ft sch f (m f.number)) := by
  apply toMember_of_mem (members_nodup names)
  rw [(members_perm names).mem_iff]
  exact List.mem_map.mpr ⟨f, List.mem_filter.mpr ⟨mem, has⟩, rfl⟩

theorem member_null (fresh : ∀ f ∈ (sch t).fields, written m f = true → f.name ≠ name) :
    fieldJson ft sch of t m name = .null := by
  apply toMember_of_not_mem
  rw [((members_perm names).map Prod.fst).mem_iff, List.map_map]
  intro mem
  obtain ⟨f, hf, same⟩ := List.mem_map.mp mem
  obtain ⟨hf, has⟩ := List.mem_filter.mp hf
  exact fresh f hf has same

end Trees

/-! ### Scalars that come back -/

/-- The scalars that are read as they were written. -/
def BackScalar (f : FieldDescriptor D (Scalar F)) (v : Scalar F) : Prop :=
  match f.cppType, v with
  | .int64, .num n => -10 ^ 18 < n
  | .uint64, .num n => n < 10 ^ 19
  | .string, .string s => f.isBytes = true → s = []
  | .enum, .enum n => f.enumNumber n = true
  | _, _ => True

section Leaves

variable {lib : JsonLib S} {of : Scalars S} {f : FieldDescriptor D (Scalar F)} {v : Scalar F}

theorem scalar_back (documented : Documented lib of) (fl : Floats F) (ft : FloatText F)
    (fits : Fits f v) : f.cppType ≠ .message ∧
      ∃ s, toJson of (scalarTree ft f v) = .scalar s ∧
        (jsonScalar lib fl f (.scalar s) = .ok v ↔ BackScalar f v) := by
  unfold Fits at fits
  split at fits
  · rename_i n type
    have tree : toJson of (scalarTree ft f (.num n)) = .scalar (of.ofNumber n) := by
      simp [scalarTree, type, getInt, toJson]
    have text := documented.numberText n (by omega) (by omega)
    have value := strtoll_numberText (z := n) (by omega) (by omega)
    have narrow : n.bmod (2 ^ 32) = n := Int.bmod_eq_of_le (by omega) (by omega)
    refine ⟨by simp [type], _, tree, ?_⟩
    simpa [jsonScalar, BackScalar, type, asString, text, string2number, value] using narrow
  · rename_i n type
    have tree : toJson of (scalarTree ft f (.num n)) = .scalar (of.ofNumber n) := by
      simp [scalarTree, type, getInt, toJson]
    have text := documented.numberText n (by omega) (by omega)
    have value := strtoll_numberText (z := n) (by omega) (by omega)
    have narrow : n % 2 ^ 32 = n := Int.emod_eq_of_lt (by omega) (by omega)
    refine ⟨by simp [type], _, tree, ?_⟩
    simpa [jsonScalar, BackScalar, type, asString, text, string2number, value] using narrow
  · rename_i n type
    have converted : number2string .int64 n = formatted n :=
      congrArg formatted (Int.bmod_eq_of_le (by omega) (by omega))
    have tree : toJson of (scalarTree ft f (.num n)) = .scalar (of.ofString (formatted n)) := by
      simp [scalarTree, type, getInt, toJson, converted]
    have value := strtoll_formatted fits.1 fits.2
    refine ⟨by simp [type], _, tree, ?_⟩
    simpa [jsonScalar, BackScalar, type, asString, documented.asString, string2number] using value
  · rename_i n type
    have converted : number2string .uint64 n = formatted n :=
      congrArg formatted (Int.emod_eq_of_lt fits.1 fits.2)
    have tree : toJson of (scalarTree ft f (.num n)) = .scalar (of.ofString (formatted n)) := by
      simp [scalarTree, type, getInt, toJson, converted]
    have value := strtoull_formatted fits.1 fits.2
    refine ⟨by simp [type], _, tree, ?_⟩
    simpa [jsonScalar, BackScalar, type, asString, documented.asString, string2number] using value
  · rename_i b type
    have tree : toJson of (scalarTree ft f (.bool b)) = .scalar (of.ofBool b) := by
      simp [scalarTree, type, getBool, toJson]
    have value : ((codes (if b then "true" else "false")).takeWhile (· != 0) == codes "true") = b := by
      cases b <;> decide
    refine ⟨by simp [type], _, tree, ?_⟩
    simpa [jsonScalar, BackScalar, type, asString, documented.boolText, string2number] using value
  · rename_i x type
    have tree : toJson of (scalarTree ft f (.string x)) =
        .scalar (of.ofString (if f.isBytes then jsonStrEscape x else x)) := by
      simp [scalarTree, type, content, getString, toJson]
    refine ⟨by simp [type], _, tree, ?_⟩
    cases bytes : f.isBytes <;>
      simp [jsonScalar, BackScalar, type, bytes, documented.isString, documented.asString, eq_comm]
  · rename_i n type
    have tree : toJson of (scalarTree ft f (.enum n)) = .scalar (of.ofNumber n) := by
      simp [scalarTree, type, getInt, toJson]
    have int := documented.isInt n fits.1 fits.2
    have value := documented.asInt n fits.1 fits.2
    refine ⟨by simp [type], _, tree, ?_⟩
    simp only [jsonScalar, BackScalar, type, int, value, if_true]
    split_ifs with known <;> simp [known]
  · exact fits.elim

end Leaves

/-! ### Messages that come back -/

/-- What protobuf promises of message types: the names of a type's fields differ, and an extension
is not required and in no `oneof`. -/
structure Schema (sch : D → Descriptor D (Scalar F)) : Prop where
  names : ∀ t, ((sch t).fields.map FieldDescriptor.name).Nodup
  optional : ∀ t, ∀ e ∈ (sch t).extensions, e.isRequired = false
  alone : ∀ t, ∀ e ∈ (sch t).extensions, e.oneof = none

/-- What protobuf promises of messages: a singular field that is set is not the same as none, and it
is the only one of its `oneof`. -/
inductive Formed (sch : D → Descriptor D (Scalar F)) : D → Msg (Scalar F) → Prop
  | mk {t : D} {m : Msg (Scalar F)}
    (present : ∀ f ∈ (sch t).fields, f.isRepeated = false → ∀ v, .scalar v ∈ m f.number →
      f.absent v = false)
    (oneofs : ∀ f ∈ (sch t).fields, m f.number ≠ [] → ∀ n, (sch t).sibling f n = true → m n = [])
    (inner : ∀ f ∈ (sch t).fields, ∀ s, .message s ∈ m f.number → Formed sch f.messageType s) :
    Formed sch t m

/-- What an extension holds comes back: nothing, if no field is written under its name; or what it
takes from the value of the field of its name. -/
def ExtensionBack (lib : JsonLib S) (of : Scalars S) (fl : Floats F) (ft : FloatText F)
    (sch : D → Descriptor D (Scalar F)) (t : D) (m : Msg (Scalar F))
    (e : FieldDescriptor D (Scalar F)) : Prop :=
  ((∀ f ∈ (sch t).fields, written m f = true → f.name ≠ e.name) ∧ m e.number = []) ∨
    ∃ f ∈ (sch t).fields, written m f = true ∧ f.name = e.name ∧
      FieldMeans lib fl sch (toJson of (fieldTree ft sch f (m f.number))) e (m e.number)

/-- The messages without unknown fields whose required fields are set, and whose scalars and
extensions come back, at every depth. -/
inductive Back (lib : JsonLib S) (of : Scalars S) (fl : Floats F) (ft : FloatText F)
    (sch : D → Descriptor D (Scalar F)) : D → Msg (Scalar F) → Prop
  | mk {t : D} {m : Msg (Scalar F)}
    (unknown : ∀ n, n ∉ (allFields (sch t)).map FieldDescriptor.number → m n = [])
    (required : ∀ f ∈ (sch t).fields, f.isRequired = true → written m f = true)
    (scalars : ∀ f ∈ (sch t).fields, ∀ v, .scalar v ∈ m f.number → BackScalar f v)
    (extensions : ∀ e ∈ (sch t).extensions, ExtensionBack lib of fl ft sch t m e)
    (inner : ∀ f ∈ (sch t).fields, ∀ s, .message s ∈ m f.number →
      Back lib of fl ft sch f.messageType s) :
    Back lib of fl ft sch t m

section RoundTrip

variable {lib : JsonLib S} {of : Scalars S} {fl : Floats F} {ft : FloatText F}
  {sch : D → Descriptor D (Scalar F)} {t : D} {m : Msg (Scalar F)} {f : FieldDescriptor D (Scalar F)}

def NodeBack (lib : JsonLib S) (of : Scalars S) (fl : Floats F) (ft : FloatText F)
    (sch : D → Descriptor D (Scalar F)) (f : FieldDescriptor D (Scalar F)) : Node (Scalar F) → Prop
  | .scalar v => BackScalar f v
  | .message s => Back lib of fl ft sch f.messageType s

/-- What is to be known of a node: its value is read as the node where that comes back. -/
structure NodeReads (lib : JsonLib S) (of : Scalars S) (fl : Floats F) (ft : FloatText F)
    (sch : D → Descriptor D (Scalar F)) (f : FieldDescriptor D (Scalar F)) (x : Node (Scalar F)) :
    Prop where
  full : (toJson of (nodeTree ft sch f x)).isNull = false
  item : ItemMeans lib fl sch (toJson of (nodeTree ft sch f x)) f x ↔ NodeBack lib of fl ft sch f x
  single : f.isRepeated = false →
    (FieldMeans lib fl sch (toJson of (nodeTree ft sch f x)) f [x] ↔ NodeBack lib of fl ft sch f x)

theorem scalar_reads (documented : Documented lib of) {v : Scalar F} (fits : Fits f v)
    (present : f.isRepeated = false → f.absent v = false) :
    NodeReads lib of fl ft sch f (.scalar v) := by
  obtain ⟨scalar, s, tree, back⟩ := scalar_back documented fl ft fits
  have node : toJson of (nodeTree ft sch f (.scalar v)) = .scalar s := tree
  constructor
  · rw [node]
    rfl
  · rw [node]
    simp [ItemMeans, NodeBack, scalar, back]
  · intro many
    rw [node]
    have kept : ∀ w, [Node.scalar v] = held f w ↔ w = v := by
      intro w
      unfold held
      split_ifs with gone
      · refine iff_of_false (by simp) ?_
        rintro rfl
        rw [present many] at gone
        cases gone
      · simp [eq_comm]
    simp [FieldMeans, NodeBack, many, scalar, kept, back]

theorem nested_reads {s : Msg (Scalar F)} (message : f.cppType = .message)
    (inner : Means lib fl sch (toJson of (pb2jsonTree ft sch f.messageType s)) f.messageType s ↔
      Back lib of fl ft sch f.messageType s) : NodeReads lib of fl ft sch f (.message s) := by
  have node : toJson of (nodeTree ft sch f (.message s)) =
      toJson of (pb2jsonTree ft sch f.messageType s) := rfl
  constructor
  · rw [node, toJson_tree]
    rfl
  · rw [node, itemMeans_message message]
    simp [NodeBack, inner]
  · intro many
    rw [node]
    rw [toJson_tree] at inner ⊢
    simpa [FieldMeans, Means, NodeBack, many, message] using inner

/-- A field that is written is read as it was where its nodes come back. -/
theorem field_back (single : f.isRepeated = false → (m f.number).length ≤ 1)
    (has : written m f = true) (nodes : ∀ x ∈ m f.number, NodeReads lib of fl ft sch f x) :
    (toJson of (fieldTree ft sch f (m f.number))).isNull = false ∧
      (FieldMeans lib fl sch (toJson of (fieldTree ft sch f (m f.number))) f (m f.number) ↔
        ∀ x ∈ m f.number, NodeBack lib of fl ft sch f x) := by
  unfold fieldTree
  cases many : f.isRepeated with
  | true =>
    simp only [if_true, toJson, FieldMeans, many, true_and, List.length_map]
    refine ⟨rfl, ?_⟩
    rw [toItem_map (nodeTree ft sch f) (m f.number) fun y x => ItemMeans lib fl sch y f x]
    exact forall₂_congr fun x mem => (nodes x mem).item
  | false =>
    simp only [Bool.false_eq_true, if_false]
    cases values : m f.number with
    | nil => simp [written, many, values] at has
    | cons x xs =>
      have one := single many
      rw [values, List.length_cons] at one
      obtain rfl : xs = [] := List.eq_nil_of_length_eq_zero (by omega)
      have node := nodes x (by simp [values])
      simpa using ⟨node.full, node.single many⟩

theorem not_written (has : written m f = false) : m f.number = [] := by
  simp only [written, Bool.or_eq_false_iff, Bool.not_eq_false', List.isEmpty_iff] at has
  exact has.2

theorem written_single (has : written m f = true) (single : f.isRepeated = false) :
    m f.number ≠ [] := by
  simpa [written, single] using has

theorem member_unwritten (schema : Schema sch) (hf : f ∈ (sch t).fields)
    (has : written m f = false) : fieldJson ft sch of t m f.name = .null := by
  apply member_null (schema.names t)
  intro g hg other same
  obtain rfl : g = f := List.inj_on_of_nodup_map (schema.names t) hg hf same
  rw [has] at other
  cases other

/-- The values of a field come back where the field is written if it has to be, and its nodes come
back. -/
theorem own_back (schema : Schema sch) (hf : f ∈ (sch t).fields)
    (single : f.isRepeated = false → (m f.number).length ≤ 1)
    (nodes : ∀ x ∈ m f.number, NodeReads lib of fl ft sch f x) :
    FieldMeans lib fl sch (fieldJson ft sch of t m f.name) f (m f.number) ↔
      (f.isRequired = true → written m f = true) ∧ ∀ x ∈ m f.number, NodeBack lib of fl ft sch f x := by
  cases has : written m f with
  | true =>
    rw [member_written (schema.names t) hf has]
    simpa using (field_back single has nodes).2
  | false =>
    rw [member_unwritten schema hf has, FieldMeans, not_written has]
    simp

/-- The value of a field that is empty stands for nothing. -/
theorem empty_means (schema : Schema sch) (hf : f ∈ (sch t).fields) (empty : m f.number = [])
    {xs : List (Node (Scalar F))}
    (means : FieldMeans lib fl sch (fieldJson ft sch of t m f.name) f xs) : xs = [] := by
  cases has : written m f with
  | true =>
    have many : f.isRepeated = true := by simpa [written, empty] using has
    rw [member_written (schema.names t) hf has, empty] at means
    simpa [fieldTree, many, toJson, FieldMeans] using means
  | false =>
    rw [member_unwritten schema hf has] at means
    exact means.2

theorem extension_back (schema : Schema sch) {e : FieldDescriptor D (Scalar F)}
    (he : e ∈ (sch t).extensions) :
    FieldMeans lib fl sch (fieldJson ft sch of t m e.name) e (m e.number) ↔
      ExtensionBack lib of fl ft sch t m e := by
  have names := schema.names t
  by_cases shared : ∃ f ∈ (sch t).fields, written m f = true ∧ f.name = e.name
  · obtain ⟨f, hf, has, same⟩ := shared
    constructor
    · intro means
      rw [← same, member_written names hf has] at means
      exact .inr ⟨f, hf, has, same, means⟩
    · rintro (⟨fresh, -⟩ | ⟨g, hg, has, same, means⟩)
      · exact absurd same (fresh f hf has)
      · rw [← same, member_written names hg has]
        exact means
  · have fresh : ∀ f ∈ (sch t).fields, written m f = true → f.name ≠ e.name :=
      fun f hf has same => shared ⟨f, hf, has, same⟩
    rw [member_null names fresh, FieldMeans]
    constructor
    · rintro ⟨-, empty⟩
      exact .inl ⟨fresh, empty⟩
    · rintro (⟨-, empty⟩ | ⟨g, hg, has, same, -⟩)
      · exact ⟨schema.optional t e he, empty⟩
      · exact absurd same (fresh g hg has)

theorem sibling_empty (schema : Schema sch) (formed : Formed sch t m)
    {g : FieldDescriptor D (Scalar F)} (hf : f ∈ allFields (sch t)) (hg : g ∈ allFields (sch t))
    (set : (fieldJson ft sch of t m g.name).isNull = false) (single : g.isRepeated = false)
    (sib : (sch t).sibling g f.number = true) :
    m f.number = [] ∧ ∀ xs, FieldMeans lib fl sch (fieldJson ft sch of t m f.name) f xs → xs = [] := by
  cases formed with
  | mk present oneofs inner =>
    have member : g.oneof.isSome = true ∧ ∃ h ∈ (sch t).fields, h.number = f.number := by
      simp only [Descriptor.sibling, Bool.and_eq_true, List.any_eq_true, beq_iff_eq] at sib
      obtain ⟨⟨some_oneof, -⟩, h, hh, -, same⟩ := sib
      exact ⟨some_oneof, h, hh, same⟩
    obtain ⟨some_oneof, h, hh, same⟩ := member
    obtain rfl : h = f :=
      List.inj_on_of_nodup_map (sch t).nodup (List.mem_append_right _ hh) hf same
    have hg : g ∈ (sch t).fields := by
      apply (List.mem_append.mp hg).resolve_left
      intro extension
      rw [schema.alone t g extension] at some_oneof
      cases some_oneof
    have has : written m g = true := by
      by_contra unwritten
      rw [member_unwritten schema hg (Bool.eq_false_of_not_eq_true unwritten)] at set
      cases set
    have empty := oneofs g hg (written_single has single) _ sib
    exact ⟨empty, fun xs => empty_means schema hh empty⟩

/-- The object of a message stands for the message where that comes back. -/
theorem means_tree (documented : Documented lib of) (schema : Schema sch) (typed : Typed sch t m)
    (formed : Formed sch t m) :
    Means lib fl sch (toJson of (pb2jsonTree ft sch t m)) t m ↔ Back lib of fl ft sch t m := by
  induction typed with
  | @mk t m single scalars kinds inner ih =>
    have nodes : ∀ f ∈ (sch t).fields, ∀ x ∈ m f.number, NodeReads lib of fl ft sch f x := by
      intro f hf x hx
      cases formed with
      | mk present oneofs formed =>
        cases x with
        | scalar v =>
          exact scalar_reads documented (scalars f hf v hx) fun many => present f hf many v hx
        | message s => exact nested_reads (kinds f hf s hx) (ih f hf s hx (formed f hf s hx))
    have own := fun f hf => own_back schema hf (single f hf) (nodes f hf)
    have means : Means lib fl sch (toJson of (pb2jsonTree ft sch t m)) t m ↔
        (∀ n, n ∉ (allFields (sch t)).map FieldDescriptor.number → m n = []) ∧
          ∀ f ∈ allFields (sch t),
            FieldMeans lib fl sch (fieldJson ft sch of t m f.name) f (m f.number) := by
      rw [toJson_tree, Means]
      apply filled_of_clear
      intro f hf g hg set singular sib
      exact sibling_empty schema formed hf hg (by simpa using set) singular sib
    rw [means]
    constructor
    · rintro ⟨unknown, fields⟩
      have back : ∀ f ∈ (sch t).fields, _ := fun f hf =>
        (own f hf).mp (fields f (List.mem_append_right _ hf))
      constructor
      · exact unknown
      · exact fun f hf => (back f hf).1
      · exact fun f hf v hv => (back f hf).2 _ hv
      · exact fun e he => (extension_back schema he).mp (fields e (List.mem_append_left _ he))
      · exact fun f hf s hs => (back f hf).2 _ hs
    · rintro ⟨unknown, required, back, extensions, nested⟩
      refine ⟨unknown, fun f hf => ?_⟩
      rcases List.mem_append.mp hf with he | hf
      · exact (extension_back schema he).mpr (extensions f he)
      · rw [own f hf]
        refine ⟨required f hf, fun x hx => ?_⟩
        cases x with
        | scalar v => exact back f hf v hx
        | message s => exact nested f hf s hx

/-- The messages that `json2pb` reads back from what `pb2json` makes of them. -/
theorem round_trip_iff (documented : Documented lib of) (fl : Floats F) (ft : FloatText F)
    (schema : Schema sch) (typed : Typed sch t m) (formed : Formed sch t m) :
    json2pb lib fl sch (toJson of (pb2jsonTree ft sch t m)) t Msg.new = (some 0, m) ↔
      Back lib of fl ft sch t m :=
  json2pb_iff.trans (means_tree documented schema typed formed)

end RoundTrip

/-! ### A field of bytes -/

/-- JSON values as the scalars of a library. -/
def valueScalars : Scalars Value := ⟨.bool, .number, .string⟩

def valueLib : JsonLib Value where
  read txt := (Json.read txt).map (toJson valueScalars)
  isString
    | .string _ => true
    | _ => false
  isInt
    | .number q => q.den == 1 && decide (-2 ^ 31 ≤ q.num) && decide (q.num < 2 ^ 31)
    | _ => false
  asInt
    | .number q => q.num
    | _ => 0
  asString
    | .bool b => codes (if b then "true" else "false")
    | .number q => numberText q.num
    | .string s => s
    | _ => []

theorem valueLib_documented : Documented valueLib valueScalars where
  isString _ := rfl
  asString _ := rfl
  boolText _ := rfl
  numberText n _ _ := congrArg numberText (Rat.num_intCast n)
  isInt n ge lt := by
    show (true && decide (-2 ^ 31 ≤ n) && decide (n < 2 ^ 31)) = true
    rw [decide_eq_true ge, decide_eq_true lt]
    rfl
  asInt n _ _ := Rat.num_intCast n

/-- A message type with one field, optional `bytes` with the name `a`. -/
def oneBytes : Unit → Descriptor Unit (Scalar Unit) := fun _ =>
  ⟨[], [⟨1, codes "a", .string, false, false, true, none, fun _ => false, fun _ => false, ()⟩],
    by decide⟩

theorem oneBytes_schema : Schema oneBytes where
  names _ := List.nodup_singleton _
  optional _ _ mem := by cases mem
  alone _ _ mem := by cases mem

/-- The message whose field is the byte `x`. -/
def oneByte : Msg (Scalar Unit) := fun n => if n = 1 then [.scalar (.string (codes "x"))] else []

theorem oneByte_typed : Typed oneBytes () oneByte := by
  constructor <;> intro f hf <;> obtain rfl := List.mem_singleton.mp hf
  · exact fun _ => Nat.le_refl 1
  · intro v mem
    obtain rfl := Node.scalar.inj (List.mem_singleton.mp mem)
    trivial
  · exact fun s mem => nomatch List.mem_singleton.mp mem
  · exact fun s mem => nomatch List.mem_singleton.mp mem

theorem oneByte_formed : Formed oneBytes () oneByte := by
  constructor <;> intro f hf <;> obtain rfl := List.mem_singleton.mp hf
  · exact fun _ _ _ => rfl
  · exact fun _ n sib => by simp [Descriptor.sibling] at sib
  · exact fun s mem => nomatch List.mem_singleton.mp mem

theorem round_trip_oneByte : Documented valueLib valueScalars ∧ Schema oneBytes ∧
    Typed oneBytes () oneByte ∧ Formed oneBytes () oneByte ∧
    (json2pb valueLib unitFloats oneBytes (toJson valueScalars (pb2jsonTree unitText oneBytes () oneByte))
        () Msg.new = (some 0, oneByte) ↔
      Back valueLib valueScalars unitFloats unitText oneBytes () oneByte) :=
  ⟨valueLib_documented, oneBytes_schema, oneByte_typed, oneByte_formed,
    round_trip_iff valueLib_documented unitFloats unitText oneBytes_schema oneByte_typed oneByte_formed⟩

def firstString : List (Node (Scalar Unit)) → List UInt8
  | .scalar (.string s) :: _ => s
  | _ => []

/-- The byte is written as `{"a":"x"}`, and the bytes that are read are empty. -/
theorem bytes_lost : ¬ ∀ (D F S : Type) (lib : JsonLib S) (of : Scalars S) (fl : Floats F)
    (ft : FloatText F) (sch : D → Descriptor D (Scalar F)) (t : D) (m : Msg (Scalar F)),
    Documented lib of → Schema sch → Typed sch t m → Formed sch t m →
    json2pb lib fl sch (toJson of (pb2jsonTree ft sch t m)) t Msg.new = (some 0, m) := by
  intro claim
  have same := claim Unit Unit Value valueLib valueScalars unitFloats unitText oneBytes () oneByte
    valueLib_documented oneBytes_schema oneByte_typed oneByte_formed
  have strings := congrArg (fun r => firstString (r.2 1)) same
  exact absurd strings (by decide)

end Conet.Base.JsonRoundTrip
