/- Module: Conet/Base/JsonWritersAgree
   source: base/src/pb2json.cpp
   digest: Messages as JSON documents: where the text of a message stands for its object. -/

import Conet.Base.JsonWriters
import Mathlib.Data.FinEnum

set_option autoImplicit false
set_option relaxedAutoImplicit false

namespace Conet.Base.JsonWriters

open Conet.Lib.DynMessage Conet.Lib.Json Conet.Base.HttpParser Conet.Base.QueryString
open Conet.Base.String2number (numberText)

variable {D F : Type}

/-! ### Messages as documents -/

section Documents

variable (ft : FloatText F) (leaf : FieldDescriptor D (Scalar F) → Scalar F → Value)
  (sch : D → Descriptor D (Scalar F))

/-- The text and the value of the node `i` of a repeated field, or of a singular one. -/
def part (f : FieldDescriptor D (Scalar F)) (place : Option ℕ) : Node (Scalar F) → List UInt8 × Value
  | .scalar v => (partText ft f place v, leaf f v)
  | .message m => (messageText ft sch f.messageType (.message m),
      messageTree leaf sch f.messageType (.message m))

def itemParts (f : FieldDescriptor D (Scalar F)) :
    ℕ → List (Node (Scalar F)) → List (List UInt8 × Value)
  | _, [] => []
  | i, x :: xs => part ft leaf sch f (some i) x :: itemParts f (i + 1) xs

def fieldPart (f : FieldDescriptor D (Scalar F)) (xs : List (Node (Scalar F))) : List UInt8 × Value :=
  if f.isRepeated then
    (arrayText ((itemParts ft leaf sch f 0 xs).map Prod.fst),
      .array ((itemParts ft leaf sch f 0 xs).map Prod.snd))
  else
    match xs with
    | [] => ([], .null)
    | x :: _ => part ft leaf sch f none x

/-- What is written of a field, from the quote in front of its name on. -/
def fieldText (m : Msg (Scalar F)) (f : FieldDescriptor D (Scalar F)) : List UInt8 :=
  [34] ++ f.name ++
    if f.isRepeated then codes "\":[" ++ itemTexts ft sch f 0 (m f.number) ++ [93]
    else singleTexts ft sch f (m f.number)

def entry (m : Msg (Scalar F)) (f : FieldDescriptor D (Scalar F)) : Entry where
  name := f.name
  text := (fieldPart ft leaf sch f (m f.number)).1
  value := (fieldPart ft leaf sch f (m f.number)).2

def entries (t : D) (m : Msg (Scalar F)) : List Entry :=
  ((sch t).fields.filter (written m)).map (entry ft leaf sch m)

/-- A comma stands in front of the first of them. -/
def lead (t : D) (m : Msg (Scalar F)) : Bool := (sch t).fields.head?.any fun f => !written m f

variable {ft leaf sch} {f : FieldDescriptor D (Scalar F)} {xs : List (Node (Scalar F))}

theorem forall_itemParts {P : List UInt8 × Value → Prop} {Q : Node (Scalar F) → Prop} {i : ℕ}
    (same : ∀ x ∈ xs, ∀ i, P (part ft leaf sch f (some i) x) ↔ Q x) :
    (∀ p ∈ itemParts ft leaf sch f i xs, P p) ↔ ∀ x ∈ xs, Q x := by
  induction xs generalizing i with
  | nil => simp [itemParts]
  | cons x xs ih =>
    rw [itemParts, List.forall_mem_cons, List.forall_mem_cons, same x List.mem_cons_self,
      ih fun y mem => same y (List.mem_cons_of_mem x mem)]

variable (ft) in
theorem itemTrees_eq (i : ℕ) :
    itemTrees leaf sch f xs = (itemParts ft leaf sch f i xs).map Prod.snd := by
  induction xs generalizing i with
  | nil => rfl
  | cons x xs ih =>
    cases x with
    | scalar v => rw [itemTrees, itemParts, List.map_cons, ih (i + 1)]; rfl
    | message m => rw [itemTrees, itemParts, List.map_cons, ih (i + 1)]; rfl

variable (leaf) in
theorem itemTexts_later (kinds : ∀ v, .scalar v ∈ xs → Kind ft f v) (i : ℕ) :
    itemTexts ft sch f (i + 1) xs =
      ((itemParts ft leaf sch f (i + 1) xs).map Prod.fst).flatMap (44 :: ·) := by
  induction xs generalizing i with
  | nil => rfl
  | cons x xs ih =>
    have rest := ih (fun v mem => kinds v (List.mem_cons_of_mem x mem)) (i + 1)
    cases x with
    | scalar v =>
      rw [itemTexts, itemText_eq (kinds v List.mem_cons_self), rest]
      simp [itemParts, part]
    | message m =>
      rw [itemTexts, rest]
      simp [itemParts, part]

variable (leaf) in
theorem itemTexts_eq (kinds : ∀ v, .scalar v ∈ xs → Kind ft f v) :
    [91] ++ itemTexts ft sch f 0 xs ++ [93] = arrayText ((itemParts ft leaf sch f 0 xs).map Prod.fst) := by
  cases xs with
  | nil => rfl
  | cons x xs =>
    have rest : itemTexts ft sch f (0 + 1) xs =
        ((itemParts ft leaf sch f (0 + 1) xs).map Prod.fst).flatMap (44 :: ·) :=
      itemTexts_later leaf (fun v mem => kinds v (List.mem_cons_of_mem x mem)) 0
    cases x with
    | scalar v =>
      rw [itemTexts, itemText_eq (kinds v List.mem_cons_self), rest]
      simp [itemParts, part, arrayText, tailText]
    | message m =>
      rw [itemTexts, rest]
      simp [itemParts, part, arrayText, tailText]

variable (leaf) in
theorem fieldText_eq {m : Msg (Scalar F)} (kinds : ∀ v, .scalar v ∈ m f.number → Kind ft f v)
    (has : written m f = true) : fieldText ft sch m f = (entry ft leaf sch m f).written := by
  have colon : codes "\":[" = [34, 58, 91] := by decide
  have colon2 : codes "\":" = [34, 58] := by decide
  unfold fieldText Entry.written entry fieldPart
  cases many : f.isRepeated with
  | true =>
    simp only [if_true, ← itemTexts_eq leaf kinds, colon]
    simp [quoted]
  | false =>
    simp only [Bool.false_eq_true, if_false]
    cases values : m f.number with
    | nil => simp [written, many, values] at has
    | cons x xs =>
      cases x with
      | scalar v =>
        rw [singleTexts, singleText_eq (kinds v (by simp [values]))]
        simp [quoted, part]
      | message s =>
        rw [singleTexts, colon2]
        simp [quoted, part]

/-- Behind the first place, a comma stands in front of all that is written. -/
theorem flatMap_commas {A : Type} {w : A → Bool} {g : A → List UInt8} (fs : List A) (i : ℕ) :
    ((fs.zipIdx (i + 1)).flatMap fun p =>
      if w p.1 then (if 0 < p.2 then [44] else []) ++ g p.1 else []) =
      ((fs.filter w).map g).flatMap (44 :: ·) := by
  induction fs generalizing i with
  | nil => rfl
  | cons f fs ih =>
    rw [List.zipIdx_cons, List.flatMap_cons, ih, List.filter_cons]
    cases w f <;> simp

variable (leaf) in
theorem messageText_eq {t : D} {m : Msg (Scalar F)}
    (kinds : ∀ f ∈ (sch t).fields, ∀ v, .scalar v ∈ m f.number → Kind ft f v) :
    messageText ft sch t (.message m) = objectText (lead sch t m) (entries ft leaf sch t m) := by
  have texts : ((sch t).fields.filter (written m)).map (fieldText ft sch m) =
      (entries ft leaf sch t m).map Entry.written := by
    rw [entries, List.map_map]
    apply List.map_congr_left
    intro f mem
    obtain ⟨mem, has⟩ := List.mem_filter.mp mem
    exact fieldText_eq leaf (kinds f mem) has
  show [123] ++ ((sch t).fields.zipIdx.flatMap fun p =>
    if written m p.1 then (if 0 < p.2 then [44] else []) ++ fieldText ft sch m p.1 else []) ++ [125] = _
  rw [lead]
  cases fields : (sch t).fields with
  | nil => simp [entries, fields, objectText]
  | cons f fs =>
    rw [List.zipIdx_cons, List.flatMap_cons, flatMap_commas, List.head?_cons]
    rw [fields, List.filter_cons] at texts
    cases has : written m f with
    | true =>
      rw [if_pos has, List.map_cons] at texts
      obtain ⟨e, es, eq⟩ := List.exists_cons_of_ne_nil
        (show entries ft leaf sch t m ≠ [] by simp [entries, fields, has])
      rw [eq, List.map_cons] at texts
      obtain ⟨first, rest⟩ := List.cons.inj texts
      rw [eq, rest]
      simp [objectText, tailText, has, first]
    | false =>
      rw [if_neg (by simp [has])] at texts
      rw [texts]
      cases entries ft leaf sch t m with
      | nil => simp [objectText]
      | cons e es => simp [objectText, tailText, has]

theorem messageTree_eq (t : D) (m : Msg (Scalar F)) :
    messageTree leaf sch t (.message m) = .object (setMembers ((entries ft leaf sch t m).map Entry.member)) := by
  have value : ∀ f, written m f = true → (if f.isRepeated then .array (itemTrees leaf sch f (m f.number))
      else singleTree leaf sch f (m f.number)) = (fieldPart ft leaf sch f (m f.number)).2 := by
    intro f has
    unfold fieldPart
    cases many : f.isRepeated with
    | true => simp only [if_true, itemTrees_eq ft 0]
    | false =>
      simp only [Bool.false_eq_true, if_false]
      cases values : m f.number with
      | nil => rfl
      | cons x xs => cases x <;> rfl
  rw [messageTree, setMembers, entries, List.map_map, List.foldl_map]
  congr 1
  generalize ([] : List (List UInt8 × Value)) = root
  induction (sch t).fields generalizing root with
  | nil => rfl
  | cons f fs ih =>
    rw [List.foldl_cons, List.filter_cons]
    by_cases has : written m f = true
    · rw [if_pos has, if_pos has, List.foldl_cons, ih, value f has]
      rfl
    · rw [if_neg has, if_neg has, ih]

end Documents

/-! ### Where the writers agree -/

section Agree

variable (ft : FloatText F) (leaf : FieldDescriptor D (Scalar F) → Scalar F → Value)
  (plain : FieldDescriptor D (Scalar F) → Scalar F → Prop)
  {sch : D → Descriptor D (Scalar F)} {t : D} {m : Msg (Scalar F)} {f : FieldDescriptor D (Scalar F)}

/-- The texts of the scalars stand for the values `leaf` where they are plain. -/
def Leaves : Prop :=
  ∀ f v, Fits f v → ∀ place, Honest (partText ft f place v) (leaf f v) ∧
    (Reads (partText ft f place v) (leaf f v) ↔ plain f v)

/-- A name of identifier characters is written as it is. -/
theorem legal_name (named : Named (sch t)) (mem : f ∈ (sch t).fields) : Legal f.name := by
  have chars := named.identifier f mem
  simp only [UInt8.le_iff_toNat_le, ← UInt8.toNat_inj, UInt8.reduceToNat] at chars
  refine ⟨fun c hc => ?_, utf8_ascii fun c hc => ?_⟩
  · have char := chars c hc
    simp only [UInt8.le_iff_toNat_le, ne_eq, ← UInt8.toNat_inj, UInt8.reduceToNat]
    omega
  · have char := chars c hc
    simp only [UInt8.lt_iff_toNat_lt, UInt8.reduceToNat]
    omega

def PlainNode (sch : D → Descriptor D (Scalar F)) (f : FieldDescriptor D (Scalar F)) :
    Node (Scalar F) → Prop
  | .scalar v => plain f v
  | .message s => PlainMessage plain sch f.messageType s

variable {plain} in
theorem plainMessage_iff : PlainMessage plain sch t m ↔
    ((∀ f ∈ (sch t).fields, written m f = false) ∨
      ∀ f ∈ (sch t).fields.head?, written m f = true) ∧
      ∀ f ∈ (sch t).fields, ∀ x ∈ m f.number, PlainNode plain sch f x := by
  constructor
  · rintro ⟨first, scalars, inner⟩
    refine ⟨first, fun f hf x hx => ?_⟩
    cases x with
    | scalar v => exact scalars f hf v hx
    | message s => exact inner f hf s hx
  · rintro ⟨first, nodes⟩
    exact ⟨first, fun f hf v hv => nodes f hf _ hv, fun f hf s hs => nodes f hf _ hs⟩

/-- What is to be known of a node in all places. -/
def PartReads (sch : D → Descriptor D (Scalar F)) (f : FieldDescriptor D (Scalar F))
    (x : Node (Scalar F)) : Prop :=
  ∀ place, Honest (part ft leaf sch f place x).1 (part ft leaf sch f place x).2 ∧
    (Reads (part ft leaf sch f place x).1 (part ft leaf sch f place x).2 ↔ PlainNode plain sch f x)

variable {ft leaf plain}

theorem field_reads (single : f.isRepeated = false → (m f.number).length ≤ 1)
    (has : written m f = true) (parts : ∀ x ∈ m f.number, PartReads ft leaf plain sch f x) :
    Honest (entry ft leaf sch m f).text (entry ft leaf sch m f).value ∧
      (Reads (entry ft leaf sch m f).text (entry ft leaf sch m f).value ↔
        ∀ x ∈ m f.number, PlainNode plain sch f x) := by
  unfold entry fieldPart
  cases many : f.isRepeated with
  | true =>
    have honest : ∀ p ∈ itemParts ft leaf sch f 0 (m f.number), Honest p.1 p.2 :=
      (forall_itemParts (Q := fun _ => True)
        fun x mem i => iff_of_true (parts x mem (some i)).1 trivial).mpr fun _ _ => trivial
    simp only [if_true, reads_array_iff honest]
    exact ⟨honest_array honest, forall_itemParts fun x mem i => (parts x mem (some i)).2⟩
  | false =>
    simp only [Bool.false_eq_true, if_false]
    cases values : m f.number with
    | nil => simp [written, many, values] at has
    | cons x xs =>
      have one := single many
      rw [values, List.length_cons] at one
      obtain rfl : xs = [] := List.eq_nil_of_length_eq_zero (by omega)
      simpa using parts x (by simp [values]) none

/-- The text of a message stands for its tree exactly where the message is plain; and it is read as
the tree nowhere else. -/
theorem message_reads (leaves : Leaves ft leaf plain) (named : ∀ t, Named (sch t))
    (typed : Typed sch t m) :
    Honest (messageText ft sch t (.message m)) (messageTree leaf sch t (.message m)) ∧
      (Reads (messageText ft sch t (.message m)) (messageTree leaf sch t (.message m)) ↔
        PlainMessage plain sch t m) := by
  induction typed with
  | @mk t m single scalars kinds inner ih =>
    have parts : ∀ f ∈ (sch t).fields, ∀ x ∈ m f.number, PartReads ft leaf plain sch f x := by
      intro f hf x hx place
      cases x with
      | scalar v => exact leaves f v (scalars f hf v hx) place
      | message s => exact ih f hf s hx
    have fields : ∀ f ∈ (sch t).fields, written m f = true → _ := fun f hf has =>
      field_reads (single f hf) has (parts f hf)
    have legal : ∀ e ∈ entries ft leaf sch t m, Legal e.name := by
      intro e he
      obtain ⟨f, hf, rfl⟩ := List.mem_map.mp he
      exact legal_name (named t) (List.mem_filter.mp hf).1
    have nodup : ((entries ft leaf sch t m).map Entry.name).Nodup := by
      rw [entries, List.map_map]
      exact (named t).nodup.sublist (List.filter_sublist.map _)
    have honest : ∀ e ∈ entries ft leaf sch t m, Honest e.text e.value := by
      intro e he
      obtain ⟨f, hf, rfl⟩ := List.mem_map.mp he
      obtain ⟨hf, has⟩ := List.mem_filter.mp hf
      exact (fields f hf has).1
    rw [messageText_eq leaf fun f hf v hv => kind_of_fits ft (scalars f hf v hv), messageTree_eq]
    refine ⟨honest_object legal nodup honest, (reads_object_iff legal nodup honest).trans ?_⟩
    have nodes : (∀ e ∈ entries ft leaf sch t m, Reads e.text e.value) ↔
        ∀ f ∈ (sch t).fields, ∀ x ∈ m f.number, PlainNode plain sch f x := by
      rw [entries, List.forall_mem_map]
      constructor
      · intro reads f hf x hx
        have has : written m f = true := by
          simp [written, List.isEmpty_eq_false_iff.mpr (List.ne_nil_of_mem hx)]
        exact (fields f hf has).2.mp (reads f (List.mem_filter.mpr ⟨hf, has⟩)) x hx
      · intro plain f hf
        obtain ⟨hf, has⟩ := List.mem_filter.mp hf
        exact (fields f hf has).2.mpr (plain f hf)
    rw [nodes, plainMessage_iff]
    refine and_congr (or_congr ?_ ?_) Iff.rfl
    · simp [entries]
    · rw [lead]
      cases (sch t).fields.head? <;> simp

/-- The messages for which the text of the one writer is read as the tree of the other. -/
theorem writers_agree_iff (ft : FloatText F) (named : ∀ t, Named (sch t)) (typed : Typed sch t m) :
    read (pb2jsonText ft sch t m) = some (pb2jsonTree ft sch t m) ↔ PlainMessage Plain sch t m := by
  obtain ⟨honest, reads⟩ := message_reads (fun f v => part_reads ft) named typed
  exact (read_iff honest).trans reads

end Agree

/-- A message type with one field, a `bool` with the name `a`. -/
def oneBool : Unit → Descriptor Unit (Scalar Unit) := fun _ =>
  ⟨[], [⟨1, codes "a", .bool, false, false, false, none, fun _ => false, fun _ => false, ()⟩],
    by decide⟩

def unitText : FloatText Unit := ⟨fun _ => [], fun _ => 0⟩

theorem oneBool_named : Named (oneBool ()) where
  nodup := List.nodup_singleton _
  identifier f hf c hc := by
    obtain rfl := List.mem_singleton.mp hf
    obtain rfl : c = 97 := List.mem_singleton.mp hc
    exact .inr (.inr (.inr ⟨by decide, by decide⟩))

theorem oneBool_typed (x : List (Node (Scalar Unit)))
    (values : x = [] ∨ ∃ b, x = [.scalar (.bool b)]) : Typed oneBool () fun _ => x := by
  constructor
  · intro f hf many
    rcases values with rfl | ⟨b, rfl⟩ <;> simp
  · intro f hf v mem
    obtain rfl := List.mem_singleton.mp hf
    rcases values with rfl | ⟨b, rfl⟩
    · cases mem
    · obtain rfl := Node.scalar.inj (List.mem_singleton.mp mem)
      trivial
  · intro f hf s mem
    rcases values with rfl | ⟨b, rfl⟩ <;> simp at mem
  · intro f hf s mem
    rcases values with rfl | ⟨b, rfl⟩ <;> simp at mem

/-- A message type with an integer, strings and a message of the second type, which has a string. -/
def nested : Bool → Descriptor Bool (Scalar Unit)
  | true => ⟨[], [⟨1, codes "a", .int32, false, false, false, none, fun _ => false, fun _ => false, false⟩,
      ⟨2, codes "b", .string, false, true, false, none, fun _ => false, fun _ => false, false⟩,
      ⟨3, codes "c", .message, false, false, false, none, fun _ => false, fun _ => false, false⟩],
      by decide⟩
  | false => ⟨[], [⟨1, codes "d", .string, false, false, false, none, fun _ => false, fun _ => false,
      false⟩], by decide⟩

theorem nested_named (t : Bool) : Named (nested t) := by
  constructor
  · cases t <;> decide
  · intro f hf c hc
    have all : ((nested t).fields.flatMap FieldDescriptor.name).all
        fun c => decide (97 ≤ c) && decide (c ≤ 122) := by cases t <;> decide
    have small := List.all_eq_true.mp all c (List.mem_flatMap.mpr ⟨f, hf, hc⟩)
    simp only [Bool.and_eq_true, decide_eq_true_eq] at small
    exact .inr (.inr (.inr small))

/-- `{d: "z"}`. -/
def innerMsg : Msg (Scalar Unit)
  | 1 => [.scalar (.string (codes "z"))]
  | _ => []

/-- `{a: 7, b: ["x", "y"], c: {d: "z"}}`. -/
def nestedMsg : Msg (Scalar Unit)
  | 1 => [.scalar (.num 7)]
  | 2 => [.scalar (.string (codes "x")), .scalar (.string (codes "y"))]
  | 3 => [.message innerMsg]
  | _ => []

theorem innerMsg_typed : Typed nested false innerMsg := by
  constructor <;> simp [nested, innerMsg, Fits]

theorem nestedMsg_typed : Typed nested true nestedMsg := by
  constructor <;> simp [nested, nestedMsg, Fits, innerMsg_typed]

theorem writers_agree_nested : (∀ t, Named (nested t)) ∧ Typed nested true nestedMsg ∧
    (read (pb2jsonText unitText nested true nestedMsg) =
      some (pb2jsonTree unitText nested true nestedMsg) ↔ PlainMessage Plain nested true nestedMsg) :=
  ⟨nested_named, nestedMsg_typed, writers_agree_iff unitText nested_named nestedMsg_typed⟩

/-- The only member of the object is a number. -/
def hasNumber : Value → Bool
  | .object [(_, .number _)] => true
  | _ => false

/-- The text of a `bool` that is set is `{"a":1}`, where the tree has `true`. -/
theorem bool_disagrees : ¬ ∀ (D F : Type) (ft : FloatText F) (sch : D → Descriptor D (Scalar F))
    (t : D) (m : Msg (Scalar F)), (∀ t, Named (sch t)) → Typed sch t m →
    read (pb2jsonText ft sch t m) = some (pb2jsonTree ft sch t m) := by
  intro claim
  have typed := oneBool_typed [.scalar (.bool true)] (.inr ⟨true, rfl⟩)
  have same := claim Unit Unit unitText oneBool () _ (fun _ => oneBool_named) typed
  have numbers := congrArg (Option.map hasNumber) same
  have text : (read (pb2jsonText unitText oneBool () fun _ => [.scalar (.bool true)])).map
      hasNumber = some true := by decide
  rw [text] at numbers
  exact absurd (Option.some.inj numbers) (by decide)

/-! ### What the text says of a message -/

section Stands

variable {c : UInt8} {s x : List UInt8}

/-- The bytes that the text of a `bytes` field can hold: no control characters but those that have an
escape. -/
def Escapable (c : UInt8) : Prop := 32 ≤ c ∨ c = 8 ∨ c = 9 ∨ c = 10 ∨ c = 12 ∨ c = 13

instance (c : UInt8) : Decidable (Escapable c) := inferInstanceAs (Decidable (_ ∨ _))

theorem scan_pair {d e : UInt8} (letter : escaped d = some e) (ne : d ≠ 117) :
    scan .plain ([92, d] ++ x) = (scan .plain x).map fun r => (e :: r.1, r.2) := by
  have start : scan .plain ([92, d] ++ x) = (scan .escape (d :: x)).map fun r => ([] ++ r.1, r.2) := rfl
  have step : scan .escape (d :: x) = (scan .plain x).map fun r => ([e] ++ r.1, r.2) := by
    simp [scan, Lex.step, ne, letter]
  rw [start, step, Option.map_map]
  rfl

theorem scan_escapeByte : scan .plain (escapeByte c ++ x) =
    if Escapable c then (scan .plain x).map fun r => (c :: r.1, r.2) else none := by
  by_cases mem : c ∈ specials
  · have good : ∀ c ∈ specials, Escapable c := by
      rw [forall_specials]
      decide
    obtain ⟨d, text, letter, ne⟩ := escapeByte_special mem
    rw [text, if_pos (good c mem), scan_pair letter ne]
  · rw [escapeByte_plain mem]
    simp only [specials, List.mem_cons, List.not_mem_nil, or_false, not_or] at mem
    obtain ⟨quote, backslash, -, b, f, r, n, t⟩ := mem
    by_cases printed : 32 ≤ c
    · rw [if_pos (.inl printed)]
      exact scan_clean (List.forall_mem_singleton.mpr ⟨printed, quote, backslash⟩)
    · have small : c < 32 := UInt8.not_le.mp printed
      rw [if_neg (by simp [Escapable, printed, b, f, r, n, t])]
      simp [scan, Lex.step, quote, backslash, small]

/-- The text of a `bytes` field is read as the bytes, or not at all. -/
theorem scan_jsonStrEscape : scan .plain (jsonStrEscape s ++ x) =
    if ∀ c ∈ s, Escapable c then (scan .plain x).map fun r => (s ++ r.1, r.2) else none := by
  induction s with
  | nil => simp [jsonStrEscape]
  | cons c s ih =>
    have split : jsonStrEscape (c :: s) ++ x = escapeByte c ++ (jsonStrEscape s ++ x) := by
      simp [jsonStrEscape]
    rw [split, scan_escapeByte, ih]
    simp only [List.forall_mem_cons]
    by_cases first : Escapable c
    · by_cases rest : ∀ d ∈ s, Escapable d
      · rw [if_pos first, if_pos rest, if_pos ⟨first, rest⟩, Option.map_map]
        rfl
      · rw [if_pos first, if_neg rest, if_neg fun both => rest both.2]
        rfl
    · rw [if_neg first, if_neg fun both => first both.1]

theorem bytes_reads (s : List UInt8) : Honest (quoted (jsonStrEscape s)) (.string s) ∧
    (Reads (quoted (jsonStrEscape s)) (.string s) ↔ (∀ c ∈ s, Escapable c) ∧ utf8 s = true) := by
  have reads (good : ∀ c ∈ s, Escapable c) (valid : utf8 s = true) :
      Reads (quoted (jsonStrEscape s)) (.string s) := by
    intro k rest ends fuel
    obtain ⟨k, rfl⟩ := Nat.exists_eq_succ_of_ne_zero (Nat.ne_of_gt (Nat.zero_lt_of_lt fuel))
    rw [quoted_append, value_quote, string, scan_jsonStrEscape, if_pos good]
    simp [scan, valid]
  have back {k : ℕ} {y rest : List UInt8}
      (read : value k (quoted (jsonStrEscape s) ++ y) = some (.string s, rest)) :
      (∀ c ∈ s, Escapable c) ∧ utf8 s = true := by
    obtain ⟨found, valid⟩ := value_quoted read
    rw [scan_jsonStrEscape] at found
    split_ifs at found with good
    exact ⟨good, valid⟩
  constructor
  · intro k y rest ends fuel read
    obtain ⟨good, valid⟩ := back read
    exact reads good valid
  · constructor
    · intro stands
      exact back (stands _ [] Ends.nil (Nat.lt_succ_self _))
    · rintro ⟨good, valid⟩
      exact reads good valid

variable (ft : FloatText F) (f : FieldDescriptor D (Scalar F))

/-- The value of a scalar in JSON, as the message has it: the numbers of 64 bits are strings. -/
def scalarValue (v : Scalar F) : Value :=
  match f.cppType, v with
  | .double, .float x => .number (ft.number x)
  | .float, .float x => .number (ft.number x)
  | .bool, v => .bool (getBool v)
  | .int64, v => .string (numberText (getInt v))
  | .uint64, v => .string (numberText (getInt v))
  | .string, v => .string (getString v)
  | _, v => .number (getInt v)

def messageValue (sch : D → Descriptor D (Scalar F)) (t : D) (m : Msg (Scalar F)) : Value :=
  messageTree (scalarValue ft) sch t (.message m)

/-- The scalars whose text stands for them. -/
def Sound (v : Scalar F) : Prop :=
  match f.cppType, v with
  | .bool, _ => False
  | .uint64, .num n => f.isRepeated = true ∨ n < 2 ^ 63
  | .string, .string s =>
    if f.isBytes then (∀ c ∈ s, Escapable c) ∧ utf8 s = true else Clean s ∧ utf8 s = true
  | .enum, .enum n => 0 ≤ n
  | _, _ => True

theorem numberText_inj {y z : ℤ} : numberText y = numberText z ↔ y = z := by
  constructor
  · intro same
    have reads := reads_numberText y
    rw [same, (reads_numberText z).unique, Value.number.injEq] at reads
    exact (Int.cast_inj.mp reads).symm
  · rintro rfl
    rfl

theorem number_stands {z n : ℤ} : Honest (quoted (numberText z)) (.string (numberText n)) ∧
    (Reads (quoted (numberText z)) (.string (numberText n)) ↔ z = n) := by
  have legal := legal_numberText z
  have reads := reads_quoted legal.1 legal.2
  rw [reads.unique, Value.string.injEq, numberText_inj]
  exact ⟨reads.honest, Iff.rfl⟩

theorem scalar_stands : Leaves (D := D) ft (scalarValue ft) Sound := by
  intro f v fits place
  unfold Fits at fits
  split at fits
  · rename_i n type
    have reads := reads_numberText n
    simpa [partText, printed, scalarValue, Sound, type, getInt, reads] using reads.honest
  · rename_i n type
    have reads := reads_numberText n
    simpa [partText, printed, scalarValue, Sound, type, getInt, reads] using reads.honest
  · rename_i n type
    have stands := number_stands (z := n) (n := n)
    simpa [partText, printed, scalarValue, Sound, type, getInt] using stands
  · rename_i n type
    have same : (if f.isRepeated then n else n.bmod (2 ^ 64)) = n ↔ f.isRepeated = true ∨ n < 2 ^ 63 := by
      split_ifs with many
      · exact iff_of_true rfl (.inl many)
      · have ge := Int.le_bmod (x := n) (m := 2 ^ 64) (by decide)
        have lt := Int.bmod_lt (x := n) (m := 2 ^ 64) (by decide)
        have small : n < 2 ^ 63 → n.bmod (2 ^ 64) = n := fun less => by
          rw [Int.bmod_eq_of_le] <;> omega
        exact ⟨fun same => .inr (by omega), fun either => small (either.resolve_left many)⟩
    have stands := number_stands (z := if f.isRepeated then n else n.bmod (2 ^ 64)) (n := n)
    rw [same] at stands
    simpa only [partText, printed, scalarValue, Sound, type, getInt] using stands
  · rename_i b type
    have reads := reads_numberText (if b then 1 else 0)
    have other := reads.unique (v := .bool b)
    simp only [partText, printed, scalarValue, Sound, type, getInt, getBool]
    exact ⟨reads.honest, other.trans (iff_of_false Value.noConfusion id)⟩
  · rename_i x type
    simp only [partText, scalarValue, Sound, type, content, getString]
    cases f.isBytes with
    | false =>
      simp only [Bool.false_eq_true, if_false]
      exact ⟨honest_quoted x, reads_quoted_iff⟩
    | true =>
      simp only [if_true]
      exact bytes_reads x
  · rename_i n type
    obtain ⟨q, reads, same⟩ := part_enum ft place type fits.1 fits.2
    simp only [scalarValue, Sound, type, getInt]
    rw [reads.unique, Value.number.injEq, same]
    exact ⟨reads.honest, Iff.rfl⟩
  · exact fits.elim

/-- The text of a message stands for the message exactly where it is sound. -/
theorem messageText_stands (ft : FloatText F) {sch : D → Descriptor D (Scalar F)} {t : D}
    {m : Msg (Scalar F)} (named : ∀ t, Named (sch t)) (typed : Typed sch t m) :
    Honest (pb2jsonText ft sch t m) (messageValue ft sch t m) ∧
      (Reads (pb2jsonText ft sch t m) (messageValue ft sch t m) ↔ PlainMessage Sound sch t m) :=
  message_reads (scalar_stands ft) named typed

end Stands

end Conet.Base.JsonWriters
