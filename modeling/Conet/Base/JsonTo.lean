/- Module: Conet/Base/JsonTo
   source: base/json_to.h, base/to_json.h, base/string2number.h
   digest: json_to, into objects of the types that it has overloads for, and what it makes of the
   texts of to_json. -/

import Conet.Base.JsonRoundTrip
import Conet.Base.ToJson

set_option autoImplicit false
set_option relaxedAutoImplicit false

namespace Conet.Base.JsonTo

open Conet.Lib Conet.Lib.Json Conet.Base.Pb2json
open Conet.Base.JsonWriters (reads_numberText)
open Conet.Base.JsonRoundTrip (Scalars toItem toMember toMember_of_mem)
open Conet.Base.QueryString (strtoll strtoull)
open Conet.Base.String2number (IntType numberText strtoll_numberText strtoull_numberText)
open Conet.Base.ToJson (Data Identifier Plain content contentChar content_entity content_plain
  entities entry tree itemTrees itemTrees_eq legal_identifier memberTrees memberTrees_eq
  string_encode_iff toJsonAttrs toJsonAttrs_succ toJsonItems toJsonItems_succ toJson_int)

universe u

variable {S : Type}

/-! ### Types and their objects -/

mutual

/-- The types that both `to_json` and `json_to` take, but those of floating point. -/
inductive Ty
  | int (k : IntType)
  | string
  | vector (t : Ty)
  | struct (ms : Members)

/-- The members of `DEF_JSON_TO`, in their order. -/
inductive Members
  | nil
  | cons (name : List UInt8) (t : Ty) (ms : Members)

end

mutual

def Val : Ty → Type
  | .int k => {n : ℤ // k.Holds n}
  | .string => List UInt8
  | .vector t => List (Val t)
  | .struct ms => Vals ms

def Vals : Members → Type
  | .nil => Unit
  | .cons _ t ms => Val t × Vals ms

end

/-! ### The code -/

section Code

/-- `string2number` into an integer, with the conversion to its type. -/
def string2number (k : IntType) (src : List UInt8) : ℤ :=
  match k with
  | .int32 => (strtoll src).bmod (2 ^ 32)
  | .uint32 => strtoll src % 2 ^ 32
  | .int64 => strtoll src
  | .uint64 => strtoull src

theorem string2number_holds (k : IntType) (src : List UInt8) : k.Holds (string2number k src) := by
  cases k with
  | int32 =>
    constructor
    · simp only [string2number, IntType.least, Int.bmod]
      omega
    · simp only [string2number, IntType.greatest, Int.bmod]
      omega
  | uint32 =>
    constructor
    · simp only [string2number, IntType.least]
      omega
    · simp only [string2number, IntType.greatest]
      omega
  | int64 =>
    constructor
    · exact le_max_left _ _
    · exact max_le (by decide) (min_le_left _ _)
  | uint64 =>
    constructor
    · exact Int.natCast_nonneg _
    · simp only [string2number, IntType.greatest, strtoull]
      split_ifs <;> omega

variable (lib : JsonLib S) (nullIs : Bool) (junk : (k : IntType) → Val (.int k))

/-- `isArray`; null is an array and an object in some versions of the library. -/
def isArray : Json S → Bool
  | .array _ _ => true
  | .null => nullIs
  | _ => false

def isObject : Json S → Bool
  | .object _ => true
  | .null => nullIs
  | _ => false

/-- `size` of an array. -/
def size : Json S → ℕ
  | .array size _ => size
  | _ => 0

/-- `operator[]` with an index. -/
def item : Json S → ℕ → Json S
  | .array _ item, i => item i
  | _, _ => .null

/-- `operator[]` with a name. -/
def member : Json S → List UInt8 → Json S
  | .object member, name => member name
  | _, _ => .null

mutual

/-- What `T v1;` is. -/
def fresh : (t : Ty) → Val t
  | .int k => junk k
  | .string => ([] : List UInt8)
  | .vector t => ([] : List (Val t))
  | .struct ms => freshes ms

def freshes : (ms : Members) → Vals ms
  | .nil => ()
  | .cons _ t ms => (fresh t, freshes ms)

end

mutual

/-- `json_to_help2` for each type: what it returns, and the object after it; nothing where `asString`
throws. -/
def jsonToHelp2 : (t : Ty) → Json S → Val t → Option (ℤ × Val t)
  | .int k, json_value, _ =>
    (asString lib json_value).map fun s => (0, ⟨string2number k s, string2number_holds k s⟩)
  | .string, json_value, _ => (asString lib json_value).map fun s => (0, s)
  | .vector t, json_value, val =>
    if isArray nullIs json_value then
      ((List.range (size json_value)).foldlM (fun (val : List (Val t)) i =>
        (jsonToHelp2 t (item json_value i) (fresh junk t)).map fun v1 => val ++ [v1.2]) val).map (0, ·)
    else some (-1, val)
  | .struct ms, json_value, data =>
    if isObject nullIs json_value then (jsonToMembers ms json_value data).map (0, ·)
    else some (-1, data)

/-- `CONET_JSON_TO_ATTR_CALL` for each member. -/
def jsonToMembers : (ms : Members) → Json S → Vals ms → Option (Vals ms)
  | .nil, _, _ => some ()
  | .cons name t ms, json_value, data => do
    let v ← jsonToHelp2 t (member json_value name) data.1
    let vs ← jsonToMembers ms json_value data.2
    return (v.2, vs)

end

end Code

/-! ### What is written, and what is made of it -/

section Meaning

mutual

/-- An object as `to_json` sees it. -/
def data : (t : Ty) → Val t → Data
  | .int _, n => .int n.1
  | .string, s => .string s
  | .vector t, vs => .vector (List.map (data t) vs)
  | .struct ms, vs => .struct (attrs ms vs)

def attrs : (ms : Members) → Vals ms → List (List UInt8 × Data)
  | .nil, _ => []
  | .cons name t ms, vs => (name, data t vs.1) :: attrs ms vs.2

end

def Members.names : Members → List (List UInt8)
  | .nil => []
  | .cons name _ ms => name :: ms.names

mutual

/-- The members of a struct have different names, which are identifiers. -/
def Ty.Formed : Ty → Prop
  | .int _ => True
  | .string => True
  | .vector t => t.Formed
  | .struct ms => ms.names.Nodup ∧ (∀ name ∈ ms.names, Identifier name) ∧ ms.Formed

def Members.Formed : Members → Prop
  | .nil => True
  | .cons _ t ms => t.Formed ∧ ms.Formed

end

mutual

/-- How deep arrays and objects stand in a document. -/
def Ty.depth : Ty → ℕ
  | .int _ => 0
  | .string => 0
  | .vector t => t.depth + 1
  | .struct ms => ms.depth + 1

def Members.depth : Members → ℕ
  | .nil => 0
  | .cons _ t ms => max t.depth ms.depth

end

variable (junk : (k : IntType) → Val (.int k))

mutual

/-- The object that is made of a target when the document of another object is read into it: strings
are what is their content in the document, and items are added to the vectors of the target. -/
def merged : (t : Ty) → Val t → Val t → Val t
  | .int _ => fun _ n => n
  | .string => fun _ s => content s
  | .vector t => fun (old vs : List (Val t)) => old ++ vs.map (merged t (fresh junk t))
  | .struct ms => mergeds ms

def mergeds : (ms : Members) → Vals ms → Vals ms → Vals ms
  | .nil => fun _ _ => ()
  | .cons _ t ms => fun old vs => (merged t old.1 vs.1, mergeds ms old.2 vs.2)

end

mutual

/-- No string has one of the characters that `json_encode` makes entities of, and the vectors of the
target are empty. -/
def Back : (t : Ty) → Val t → Val t → Prop
  | .int _ => fun _ _ => True
  | .string => fun _ (s : List UInt8) => ∀ c ∈ s, c ∉ entities
  | .vector t => fun (old vs : List (Val t)) => old = [] ∧ ∀ v ∈ vs, Back t (fresh junk t) v
  | .struct ms => Backs ms

def Backs : (ms : Members) → Vals ms → Vals ms → Prop
  | .nil => fun _ _ => True
  | .cons _ t ms => fun old vs => Back t old.1 vs.1 ∧ Backs ms old.2 vs.2

end

end Meaning

/-! ### The library -/

section Library

/-- Documents without spaces, at most so deep, the numbers in them canonical integers of 64 bits. -/
inductive Document : ℕ → List UInt8 → Value → Prop
  | number {d : ℕ} {z : ℤ} (ge : -2 ^ 63 ≤ z) (lt : z < 2 ^ 64) :
      Document d (numberText z) (.number z)
  | string {d : ℕ} {s x : List UInt8} (found : Json.string (s ++ [34]) = some (x, [])) :
      Document d (quoted s) (.string x)
  | array {d : ℕ} {ps : List (List UInt8 × Value)} (each : ∀ q ∈ ps, Document d q.1 q.2) :
      Document (d + 1) (arrayText (ps.map Prod.fst)) (.array (ps.map Prod.snd))
  | object {d : ℕ} {es : List Entry} (legal : ∀ e ∈ es, Legal e.name)
      (nodup : (es.map Entry.name).Nodup) (each : ∀ e ∈ es, Document d e.text e.value) :
      Document (d + 1) (objectText false es) (.object (setMembers (es.map Entry.member)))

/-- What the library says of documents, strings and integers. -/
structure Documented (lib : JsonLib S) (of : Scalars S) (d : ℕ) : Prop where
  read : ∀ t v, Document d t v → lib.read t = some (JsonRoundTrip.toJson of v)
  asString : ∀ s, lib.asString (of.ofString s) = s
  numberText : ∀ z : ℤ, -2 ^ 63 ≤ z → z < 2 ^ 64 → lib.asString (of.ofNumber z) = numberText z

end Library

section Back

variable {lib : JsonLib S} {nullIs : Bool} {junk : (k : IntType) → Val (.int k)} {of : Scalars S}
  {d : ℕ} {t : List UInt8} {v : Value} {s : List UInt8}

theorem Document.reads (document : Document d t v) : Reads t v := by
  induction document with
  | number => exact reads_numberText _
  | @string d s x found =>
    intro k rest _ fuel
    obtain ⟨k, rfl⟩ := Nat.exists_eq_succ_of_ne_zero (Nat.ne_of_gt (Nat.zero_lt_of_lt fuel))
    obtain ⟨read, valid⟩ := Option.filter_eq_some_iff.mp found
    have longer := scan_append read rest
    rw [quoted_append, value_quote, Json.string]
    rw [List.append_assoc, List.singleton_append, List.nil_append] at longer
    rw [longer, Option.filter_some, valid]
    rfl
  | array _ each => exact reads_array each
  | object legal nodup _ each => exact reads_object legal nodup each

theorem content_length_le (s : List UInt8) : s.length ≤ (content s).length := by
  induction s with
  | nil => exact Nat.le_refl _
  | cons c s ih =>
    have one : 0 < (contentChar c).length := by
      by_cases mem : c ∈ entities
      · exact List.length_pos_of_ne_nil (content_entity mem).2.1
      · simp [content_plain mem]
    rw [content, List.flatMap_cons, List.length_append, List.length_cons]
    have more : s.length ≤ (s.flatMap contentChar).length := ih
    omega

theorem content_self_iff : content s = s ↔ ∀ c ∈ s, c ∉ entities := by
  induction s with
  | nil => simp [content]
  | cons c s ih =>
    rw [List.forall_mem_cons, ← ih]
    by_cases mem : c ∈ entities
    · refine iff_of_false (fun same => ?_) fun both => both.1 mem
      have longer := content_length_le s
      have two : 1 < (contentChar c).length := by
        simp only [entities, List.mem_cons, List.not_mem_nil, or_false] at mem
        obtain rfl | rfl | rfl | rfl | rfl := mem <;> decide
      have length := congrArg List.length same
      rw [content, List.flatMap_cons, List.length_append, List.length_cons] at length
      have rest : (s.flatMap contentChar).length = (content s).length := rfl
      omega
    · simp [content, content_plain mem, mem]

theorem append_map_eq_iff {A : Type} {f : A → A} {old vs : List A} :
    old ++ vs.map f = vs ↔ old = [] ∧ ∀ v ∈ vs, f v = v := by
  have pointwise : vs.map f = vs ↔ ∀ v ∈ vs, f v = v := by
    simpa using List.map_inj_left (f := f) (g := id) (l := vs)
  constructor
  · intro same
    have length := congrArg List.length same
    rw [List.length_append, List.length_map] at length
    obtain rfl : old = [] := List.eq_nil_of_length_eq_zero (by omega)
    exact ⟨rfl, pointwise.mp same⟩
  · rintro ⟨rfl, each⟩
    exact pointwise.mpr each

mutual

/-- What is made of the target is the object that was written, exactly where this comes back. -/
theorem merged_eq_iff : (t : Ty) → (old v : Val t) → (merged junk t old v = v ↔ Back junk t old v)
  | .int _, _, _ => iff_of_true rfl trivial
  | .string, _, _ => content_self_iff
  | .vector t, old, vs => by
    refine append_map_eq_iff.trans (and_congr_right fun _ => ?_)
    exact forall₂_congr fun v _ => merged_eq_iff t (fresh junk t) v
  | .struct ms, old, vs => mergeds_eq_iff ms old vs

theorem mergeds_eq_iff :
    (ms : Members) → (old vs : Vals ms) → (mergeds junk ms old vs = vs ↔ Backs junk ms old vs)
  | .nil, _, _ => iff_of_true rfl trivial
  | .cons _ t ms, old, vs => by
    refine Iff.trans ?_ (and_congr (merged_eq_iff t old.1 vs.1) (mergeds_eq_iff ms old.2 vs.2))
    exact Prod.ext_iff

end

theorem foldlM_toItem {A B : Type} (g : Json S → Option (ℤ × A)) (value : B → Value) {image : B → A}
    {xs : List B} (each : ∀ x ∈ xs, g (JsonRoundTrip.toJson of (value x)) = some (0, image x))
    (acc : List A) :
    (List.range xs.length).foldlM (fun acc i =>
      (g (toItem of (xs.map value) i)).map fun r => acc ++ [r.2]) acc = some (acc ++ xs.map image) := by
  induction xs generalizing acc with
  | nil => simp
  | cons x xs ih =>
    have rest := ih (fun y mem => each y (List.mem_cons_of_mem x mem)) (acc ++ [image x])
    rw [List.length_cons, List.range_succ_eq_map, List.foldlM_cons, List.map_cons, toItem,
      each x List.mem_cons_self, Option.map_some, Option.bind_eq_bind, Option.bind_some,
      List.foldlM_map]
    simpa [toItem] using rest

theorem string2number_numberText {k : IntType} {n : ℤ} (holds : k.Holds n) :
    string2number k (numberText n) = n := by
  obtain ⟨ge, le⟩ := holds
  cases k with
  | int32 =>
    simp only [IntType.least, IntType.greatest] at ge le
    rw [string2number, strtoll_numberText (by omega) (by omega),
      Int.bmod_eq_of_le (by omega) (by omega)]
  | uint32 =>
    simp only [IntType.least, IntType.greatest] at ge le
    rw [string2number, strtoll_numberText (by omega) (by omega),
      Int.emod_eq_of_lt (by omega) (by omega)]
  | int64 =>
    simp only [IntType.least, IntType.greatest] at ge le
    exact strtoll_numberText (by omega) (by omega)
  | uint64 =>
    simp only [IntType.least, IntType.greatest] at ge le
    exact strtoull_numberText (by omega) (by omega)

/-- All integer types are in the range of the library. -/
theorem holds_bounds {k : IntType} {n : ℤ} (holds : k.Holds n) : -2 ^ 63 ≤ n ∧ n < 2 ^ 64 := by
  obtain ⟨ge, le⟩ := holds
  cases k <;> simp only [IntType.least, IntType.greatest] at ge le <;> omega

theorem attrs_names : (ms : Members) → (vs : Vals ms) → (attrs ms vs).map Prod.fst = ms.names
  | .nil, _ => rfl
  | .cons name _ ms, vs => congrArg (name :: ·) (attrs_names ms vs.2)

theorem jsonToHelp2_vector {t : Ty} {old vs : List (Val t)}
    (each : ∀ v ∈ vs, jsonToHelp2 lib nullIs junk t (JsonRoundTrip.toJson of (tree (data t v)))
      (fresh junk t) = some (0, merged junk t (fresh junk t) v)) :
    jsonToHelp2 lib nullIs junk (.vector t)
      (JsonRoundTrip.toJson of (tree (data (.vector t) vs))) old =
        some (0, merged junk (.vector t) old vs) := by
  have shape : JsonRoundTrip.toJson of (tree (data (.vector t) vs)) =
      .array vs.length (toItem of (vs.map fun v => tree (data t v))) := by
    show JsonRoundTrip.toJson of (.array (itemTrees (vs.map (data t)))) = _
    rw [itemTrees_eq, List.map_map, JsonRoundTrip.toJson, List.length_map]
    rfl
  have loop := foldlM_toItem (fun j => jsonToHelp2 lib nullIs junk t j (fresh junk t))
    (fun v => tree (data t v)) each old
  rw [shape]
  exact congrArg (Option.map (0, ·)) loop

theorem jsonToHelp2_struct {ms : Members} {old vs : Vals ms} (nodup : ms.names.Nodup)
    (each : ∀ j : Json S, (∀ e ∈ attrs ms vs, member j e.1 = JsonRoundTrip.toJson of (tree e.2)) →
      jsonToMembers lib nullIs junk ms j old = some (mergeds junk ms old vs)) :
    jsonToHelp2 lib nullIs junk (.struct ms)
      (JsonRoundTrip.toJson of (tree (data (.struct ms) vs))) old =
        some (0, merged junk (.struct ms) old vs) := by
  have names : ((memberTrees (attrs ms vs)).map Prod.fst).Nodup := by
    rw [memberTrees_eq, List.map_map]
    exact (attrs_names ms vs).symm ▸ nodup
  have perm := setMembers_perm names
  have shape : JsonRoundTrip.toJson of (tree (data (.struct ms) vs)) =
      .object (toMember of (setMembers (memberTrees (attrs ms vs)))) := rfl
  rw [shape]
  refine congrArg (Option.map (0, ·)) (each _ fun e mem => ?_)
  apply toMember_of_mem
  · exact (perm.map Prod.fst).nodup_iff.mpr names
  · rw [perm.mem_iff, memberTrees_eq]
    exact List.mem_map.mpr ⟨e, mem, rfl⟩

mutual

theorem jsonToHelp2_tree (documented : Documented lib of d) : (t : Ty) → t.Formed → (old v : Val t) →
    jsonToHelp2 lib nullIs junk t (JsonRoundTrip.toJson of (tree (data t v))) old =
      some (0, merged junk t old v)
  | .int k, _, _, n => by
    have text := documented.numberText n.1 (holds_bounds n.2).1 (holds_bounds n.2).2
    simp only [data, tree, JsonRoundTrip.toJson, jsonToHelp2, asString, text, Option.map_some]
    simp only [string2number_numberText n.2]
    rfl
  | .string, _, _, s => by
    simp only [data, tree, JsonRoundTrip.toJson, jsonToHelp2, asString, documented.asString]
    rfl
  | .vector t, formed, _, _ =>
    jsonToHelp2_vector fun v _ => jsonToHelp2_tree documented t formed (fresh junk t) v
  | .struct ms, formed, old, vs =>
    jsonToHelp2_struct formed.1 (jsonToMembers_tree documented ms formed.2.2 old vs)

theorem jsonToMembers_tree (documented : Documented lib of d) : (ms : Members) → ms.Formed →
    (old vs : Vals ms) → (j : Json S) →
    (∀ e ∈ attrs ms vs, member j e.1 = JsonRoundTrip.toJson of (tree e.2)) →
    jsonToMembers lib nullIs junk ms j old = some (mergeds junk ms old vs)
  | .nil, _, _, _, _, _ => rfl
  | .cons name t ms, formed, old, vs, j, each => by
    obtain ⟨first, rest⟩ := List.forall_mem_cons.mp each
    rw [jsonToMembers, first, jsonToHelp2_tree documented t formed.1 old.1 vs.1,
      jsonToMembers_tree documented ms formed.2 old.2 vs.2 j rest]
    rfl

end

theorem toJson_vector {vs : List Data} :
    ToJson.toJson (.vector vs) = arrayText (vs.map ToJson.toJson) := by
  cases vs with
  | nil => rfl
  | cons v vs =>
    simp [ToJson.toJson, toJsonItems, toJsonItems_succ, arrayText, tailText]

theorem toJson_struct {es : List (List UInt8 × Data)} :
    ToJson.toJson (.struct es) = objectText false (es.map entry) := by
  cases es with
  | nil => rfl
  | cons e es =>
    obtain ⟨name, v⟩ := e
    simp [ToJson.toJson, toJsonAttrs, toJsonAttrs_succ, objectText, tailText, entry, Entry.written,
      quoted, Function.comp_def]

theorem document_vector {vs : List Data}
    (each : ∀ v ∈ vs, Document d (ToJson.toJson v) (tree v)) :
    Document (d + 1) (ToJson.toJson (.vector vs)) (tree (.vector vs)) := by
  have parts : ∀ q ∈ vs.map fun v => (ToJson.toJson v, tree v), Document d q.1 q.2 := by
    intro q mem
    obtain ⟨v, listed, rfl⟩ := List.mem_map.mp mem
    exact each v listed
  have document := Document.array parts
  rw [List.map_map, List.map_map] at document
  rw [toJson_vector, tree, itemTrees_eq]
  exact document

theorem document_struct {es : List (List UInt8 × Data)} (nodup : (es.map Prod.fst).Nodup)
    (names : ∀ e ∈ es, Identifier e.1)
    (each : ∀ e ∈ es, Document d (ToJson.toJson e.2) (tree e.2)) :
    Document (d + 1) (ToJson.toJson (.struct es)) (tree (.struct es)) := by
  have same : (es.map entry).map Entry.name = es.map Prod.fst := by
    rw [List.map_map]
    rfl
  have members : (es.map entry).map Entry.member = memberTrees es := by
    rw [List.map_map, memberTrees_eq]
    rfl
  have legal : ∀ f ∈ es.map entry, Legal f.name := by
    intro f mem
    obtain ⟨e, listed, rfl⟩ := List.mem_map.mp mem
    exact legal_identifier (names e listed)
  have parts : ∀ f ∈ es.map entry, Document d f.text f.value := by
    intro f mem
    obtain ⟨e, listed, rfl⟩ := List.mem_map.mp mem
    exact each e listed
  have document := Document.object legal (same ▸ nodup) parts
  rw [members] at document
  rw [toJson_struct, tree]
  exact document

mutual

theorem document_data : (t : Ty) → (d : ℕ) → t.Formed → t.depth ≤ d → (v : Val t) →
    Plain (data t v) → Document d (ToJson.toJson (data t v)) (tree (data t v))
  | .int k, d, _, _, n, _ => by
    obtain ⟨ge, lt⟩ := holds_bounds n.2
    rw [data, toJson_int ge lt]
    exact .number ge lt
  | .string, d, _, _, s, plain => by
    cases plain with
    | string valid printable =>
      have found : Json.string (ToJson.jsonEncode s ++ [34]) = some (content s, []) :=
        string_encode_iff.mpr ⟨⟨valid, printable⟩, rfl, rfl⟩
      exact .string found
  | .vector t, d, formed, deep, vs, plain => by
    obtain ⟨d, rfl⟩ := Nat.exists_eq_add_of_le' (Nat.le_trans (Nat.le_add_left 1 _) deep)
    refine document_vector fun w mem => ?_
    obtain ⟨v, listed, rfl⟩ := List.mem_map.mp mem
    cases plain with
    | vector items =>
      exact document_data t d formed (Nat.le_of_succ_le_succ deep) v (items _ mem)
  | .struct ms, d, formed, deep, vs, plain => by
    obtain ⟨d, rfl⟩ := Nat.exists_eq_add_of_le' (Nat.le_trans (Nat.le_add_left 1 _) deep)
    cases plain with
    | struct members =>
      have names := attrs_names ms vs
      refine document_struct (names ▸ formed.1) (fun e mem => formed.2.1 _ ?_)
        (document_attrs ms d formed.2.2 (Nat.le_of_succ_le_succ deep) vs members)
      rw [← names]
      exact List.mem_map_of_mem mem

theorem document_attrs : (ms : Members) → (d : ℕ) → ms.Formed → ms.depth ≤ d → (vs : Vals ms) →
    (∀ e ∈ attrs ms vs, Plain e.2) →
    ∀ e ∈ attrs ms vs, Document d (ToJson.toJson e.2) (tree e.2)
  | .nil, _, _, _, _, _ => fun _ mem => nomatch mem
  | .cons name t ms, d, formed, deep, vs, plain => by
    obtain ⟨first, rest⟩ := List.forall_mem_cons.mp plain
    obtain ⟨shallow, later⟩ := Nat.max_le.mp deep
    refine List.forall_mem_cons.mpr ⟨?_, ?_⟩
    · exact document_data t d formed.1 shallow vs.1 first
    · exact document_attrs ms d formed.2 later vs.2 rest

end

variable {ms : Members} {old vs : Vals ms}

end Back

end Conet.Base.JsonTo
