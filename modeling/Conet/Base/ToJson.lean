/- Module: Conet/Base/ToJson
   source: base/to_json.h
   digest: to_json, and the values that it writes as the JSON texts that they should be. -/

import Conet.Base.JsonWriters
import Conet.Lib.JsonTokens

set_option autoImplicit false
set_option relaxedAutoImplicit false

namespace Conet.Base.ToJson

open Conet.Lib Conet.Lib.Json Conet.Base.String2number Conet.Base.JsonWriters
open Conet.Base.HttpParser (codes)

/-- Integers of the types that `to_json` has an overload for, strings, vectors, maps from strings, and
structs with the members of `DEF_TO_JSON`. The overloads stand in the global namespace; a struct is
`outer` where this is one of the namespaces that are searched for the functions of the struct. -/
inductive Ty
  | int
  | string
  | vector (t : Ty)
  | map (t : Ty)
  | struct (outer : Bool) (ms : List (List UInt8 × Ty))

inductive Data
  | int (n : ℤ)
  | string (s : List UInt8)
  | vector (vs : List Data)
  | map (es : List (List UInt8 × Data))
  | struct (es : List (List UInt8 × Data))

section Code

/-- One byte in `json_encode`. -/
def jsonEncodeChar (ch : UInt8) : List UInt8 :=
  if ch = 60 then codes "&lt;"
  else if ch = 62 then codes "&gt;"
  else if ch = 34 then codes "&quot;"
  else if ch = 39 then codes "&#39;"
  else if ch = 92 then codes "&#92;"
  else if ch = 10 then [92, 110]
  else if ch = 13 then [92, 114]
  else if ch = 9 then [92, 116]
  else [ch]

def jsonEncode (s : List UInt8) : List UInt8 := s.flatMap jsonEncodeChar

mutual

/-- `to_json_value_help2`, for each type of value: what it appends. A number goes through a buffer of 40
bytes. -/
@[grind =] def toJson : Data → List UInt8
  | .int value => (numberText value).take 39
  | .string str => [34] ++ jsonEncode str ++ [34]
  | .vector vec => [91] ++ toJsonItems 0 vec ++ [93]
  | .map map => [123] ++ toJsonAttrs 0 map ++ [125]
  | .struct v => [123] ++ toJsonAttrs 0 v ++ [125]

/-- The loop over a vector, from the index `i` on. -/
@[grind =] def toJsonItems : ℕ → List Data → List UInt8
  | _, [] => []
  | i, v :: vs => (if 0 < i then [44] else []) ++ toJson v ++ toJsonItems (i + 1) vs

/-- The loop over a map, or the members of a struct, with `to_json_attr2` for each. -/
@[grind =] def toJsonAttrs : ℕ → List (List UInt8 × Data) → List UInt8
  | _, [] => []
  | i, (name, v) :: es =>
    (if 0 < i then [44] else []) ++ ([34] ++ name ++ [34] ++ [58] ++ toJson v) ++
      toJsonAttrs (i + 1) es

end

/-- The overloads for maps are found through the type of the argument: through a struct, or through what
a template is applied to. -/
def Ty.searched : Ty → Bool
  | .int => false
  | .string => false
  | .vector t => t.searched
  | .map t => t.searched
  | .struct outer _ => outer

mutual

/-- There is an overload for a value of the type, and for what is in it. In the template for vectors the
overloads for maps are not yet declared. -/
def compiles : Ty → Bool → Bool
  | .int, _ => true
  | .string, _ => true
  | .vector t, _ => compiles t false
  | .map t, declared => (declared || t.searched) && compiles t true
  | .struct _ ms, _ => compilesMembers ms

def compilesMembers : List (List UInt8 × Ty) → Bool
  | [] => true
  | (_, t) :: ms => compiles t true && compilesMembers ms

end

end Code

section Meaning

/-- What stands for one byte of a string in the content of its JSON string: entities of HTML are
characters of it. -/
def contentChar (ch : UInt8) : List UInt8 :=
  if ch = 60 then codes "&lt;"
  else if ch = 62 then codes "&gt;"
  else if ch = 34 then codes "&quot;"
  else if ch = 39 then codes "&#39;"
  else if ch = 92 then codes "&#92;"
  else [ch]

def content (s : List UInt8) : List UInt8 := s.flatMap contentChar

mutual

/-- The JSON value of the same structure. -/
@[grind =] def tree : Data → Value
  | .int n => .number n
  | .string s => .string (content s)
  | .vector vs => .array (itemTrees vs)
  | .map es => .object (setMembers (memberTrees es))
  | .struct es => .object (setMembers (memberTrees es))

def itemTrees : List Data → List Value
  | [] => []
  | v :: vs => tree v :: itemTrees vs

def memberTrees : List (List UInt8 × Data) → List (List UInt8 × Value)
  | [] => []
  | (name, v) :: es => (name, tree v) :: memberTrees es

end

mutual

/-- The tokens of a document of the same structure. -/
@[grind =] def tokens : Data → List Token
  | .int n => [.number n]
  | .string s => [.string (content s)]
  | .vector vs => .mark 91 :: (itemTokens 0 vs ++ [.mark 93])
  | .map es => .mark 123 :: (memberTokens 0 es ++ [.mark 125])
  | .struct es => .mark 123 :: (memberTokens 0 es ++ [.mark 125])

def itemTokens : ℕ → List Data → List Token
  | _, [] => []
  | i, v :: vs => (if 0 < i then [.mark 44] else []) ++ tokens v ++ itemTokens (i + 1) vs

def memberTokens : ℕ → List (List UInt8 × Data) → List Token
  | _, [] => []
  | i, (name, v) :: es =>
    (if 0 < i then [.mark 44] else []) ++ (.string name :: .mark 58 :: tokens v) ++
      memberTokens (i + 1) es

end

/-- The text is a JSON document of the value, and its tokens stand where the value has them. -/
structure Faithful (text : List UInt8) (v : Data) : Prop where
  valid : read text = some (tree v)
  same : Lexes text (tokens v)

def Identifier (name : List UInt8) : Prop :=
  ∀ c ∈ name, c = 95 ∨ 48 ≤ c ∧ c ≤ 57 ∨ 65 ≤ c ∧ c ≤ 90 ∨ 97 ≤ c ∧ c ≤ 122

/-- The values of a type: integers of at most 64 bits, maps with different keys, and structs with
different members. -/
inductive Formed : Ty → Data → Prop
  | int {n : ℤ} (ge : -2 ^ 63 ≤ n) (lt : n < 2 ^ 64) : Formed .int (.int n)
  | string {s : List UInt8} : Formed .string (.string s)
  | vector {t : Ty} {vs : List Data} (items : ∀ v ∈ vs, Formed t v) : Formed (.vector t) (.vector vs)
  | map {t : Ty} {es : List (List UInt8 × Data)} (nodup : (es.map Prod.fst).Nodup)
      (members : ∀ e ∈ es, Formed t e.2) : Formed (.map t) (.map es)
  | struct {outer : Bool} {ms : List (List UInt8 × Ty)} {es : List (List UInt8 × Data)}
      (declared : es.map Prod.fst = ms.map Prod.fst) (nodup : (es.map Prod.fst).Nodup)
      (names : ∀ e ∈ es, Identifier e.1) (members : ∀ p ∈ ms.zip es, Formed p.1.2 p.2.2) :
      Formed (.struct outer ms) (.struct es)

mutual

/-- No vector has maps as its items, but maps of a type through which the overloads are found. -/
def Apart : Ty → Prop
  | .int => True
  | .string => True
  | .vector t => (∀ s, t = .map s → s.searched = true) ∧ Apart t
  | .map t => Apart t
  | .struct _ ms => ApartMembers ms

def ApartMembers : List (List UInt8 × Ty) → Prop
  | [] => True
  | (_, t) :: ms => Apart t ∧ ApartMembers ms

end

/-- No control character but those that `json_encode` has a case for. -/
def Printable (c : UInt8) : Prop := 32 ≤ c ∨ c = 10 ∨ c = 13 ∨ c = 9

/-- UTF-8, with no other control characters in strings, and in keys none, no quote and no backslash. -/
inductive Plain : Data → Prop
  | int {n : ℤ} : Plain (.int n)
  | string {s : List UInt8} (valid : utf8 s = true) (printable : ∀ c ∈ s, Printable c) :
      Plain (.string s)
  | vector {vs : List Data} (items : ∀ v ∈ vs, Plain v) : Plain (.vector vs)
  | map {es : List (List UInt8 × Data)} (keys : ∀ e ∈ es, Legal e.1)
      (members : ∀ e ∈ es, Plain e.2) : Plain (.map es)
  | struct {es : List (List UInt8 × Data)} (members : ∀ e ∈ es, Plain e.2) : Plain (.struct es)

end Meaning

section Overloads

mutual

theorem compiles_iff : (t : Ty) → (declared : Bool) → (compiles t declared = true ↔
    (declared = false → ∀ s, t = .map s → s.searched = true) ∧ Apart t)
  | .int, _ => by simp [compiles, Apart]
  | .string, _ => by simp [compiles, Apart]
  | .vector t, _ => by simp [compiles, Apart, compiles_iff t false]
  | .map t, declared => by cases declared <;> simp [compiles, Apart, compiles_iff t true]
  | .struct _ ms, _ => by simp [compiles, Apart, compilesMembers_iff ms]

theorem compilesMembers_iff :
    (ms : List (List UInt8 × Ty)) → (compilesMembers ms = true ↔ ApartMembers ms)
  | [] => by simp [compilesMembers, ApartMembers]
  | (_, t) :: ms => by
    simp [compilesMembers, ApartMembers, compiles_iff t true, compilesMembers_iff ms]

end

end Overloads

section Strings

variable {c : UInt8} {s t y rest : List UInt8}

/-- The characters that are written as entities. -/
def entities : List UInt8 := [60, 62, 34, 39, 92]

theorem content_entity (mem : c ∈ entities) : c < 128 ∧ contentChar c ≠ [] ∧
    jsonEncodeChar c = contentChar c ∧
    (contentChar c).all fun d => decide (32 ≤ d) && d != 34 && d != 92 && decide (d < 128) := by
  simp only [entities, List.mem_cons, List.not_mem_nil, or_false] at mem
  obtain rfl | rfl | rfl | rfl | rfl := mem
  · decide
  · decide
  · decide
  · decide
  · decide

theorem clean_entity (mem : c ∈ entities) : Clean (contentChar c) ∧ ∀ d ∈ contentChar c, d < 128 := by
  have all := List.all_eq_true.mp (content_entity mem).2.2.2
  simp only [Bool.and_eq_true, bne_iff_ne, decide_eq_true_eq] at all
  refine ⟨fun d inside => ?_, fun d inside => (all d inside).2⟩
  obtain ⟨⟨⟨printed, quote⟩, backslash⟩, -⟩ := all d inside
  exact ⟨printed, quote, backslash⟩

theorem content_plain (other : c ∉ entities) : contentChar c = [c] := by
  simp only [entities, List.mem_cons, List.not_mem_nil, or_false, not_or] at other
  simp [contentChar, other]

theorem encode_plain (other : c ∉ entities) (escape : ¬ (c = 10 ∨ c = 13 ∨ c = 9)) :
    jsonEncodeChar c = [c] := by
  simp only [entities, List.mem_cons, List.not_mem_nil, or_false, not_or] at other escape
  simp [jsonEncodeChar, other, escape]

theorem utf8_content (s : List UInt8) : utf8 (content s) = utf8 s := by
  refine utf8From_flatMap (by decide) fun c => ?_
  by_cases mem : c ∈ entities
  · exact .inr ⟨(content_entity mem).1, (content_entity mem).2.1, (clean_entity mem).2⟩
  · exact .inl (content_plain mem)

/-- A character that `json_encode` can write is read as its content. -/
theorem scan_encodeChar (printable : Printable c) : scan .plain (jsonEncodeChar c ++ t) =
    (scan .plain t).map fun r => (contentChar c ++ r.1, r.2) := by
  by_cases mem : c ∈ entities
  · rw [(content_entity mem).2.2.1]
    exact scan_clean (clean_entity mem).1
  · rw [content_plain mem]
    by_cases escape : c = 10 ∨ c = 13 ∨ c = 9
    · obtain rfl | rfl | rfl := escape
      · simp [jsonEncodeChar, scan, Lex.step, escaped, Function.comp_def]
      · simp [jsonEncodeChar, scan, Lex.step, escaped, Function.comp_def]
      · simp [jsonEncodeChar, scan, Lex.step, escaped, Function.comp_def]
    · have printed : 32 ≤ c := printable.resolve_right escape
      rw [encode_plain mem escape]
      refine scan_clean fun d inside => ?_
      obtain rfl := List.mem_singleton.mp inside
      refine ⟨printed, fun quote => mem ?_, fun backslash => mem ?_⟩
      · simp [quote, entities]
      · simp [backslash, entities]

theorem scan_control (control : ¬ Printable c) : scan .plain (jsonEncodeChar c ++ t) = none := by
  have mem : c ∉ entities := by
    intro mem
    simp only [entities, List.mem_cons, List.not_mem_nil, or_false] at mem
    obtain rfl | rfl | rfl | rfl | rfl := mem <;> exact control (.inl (by decide))
  obtain ⟨low, escape⟩ := not_or.mp control
  have small : c < 32 := UInt8.not_le.mp low
  have quote : c ≠ 34 := fun same => mem (by simp [same, entities])
  have backslash : c ≠ 92 := fun same => mem (by simp [same, entities])
  rw [encode_plain mem escape, List.singleton_append, scan, if_neg fun closing => quote closing.2]
  simp [Lex.step, backslash, small]

theorem scan_encode (printable : ∀ c ∈ s, Printable c) : scan .plain (jsonEncode s ++ t) =
    (scan .plain t).map fun r => (content s ++ r.1, r.2) := by
  induction s with
  | nil => simp [jsonEncode, content]
  | cons c s ih =>
    have rest := ih fun d mem => printable d (List.mem_cons_of_mem c mem)
    have whole : jsonEncode (c :: s) ++ t = jsonEncodeChar c ++ (jsonEncode s ++ t) := by
      simp [jsonEncode]
    rw [whole, scan_encodeChar (printable c List.mem_cons_self), rest, Option.map_map]
    simp [Function.comp_def, content]

theorem printable_of_scan (read : scan .plain (jsonEncode s ++ t) = some (y, rest)) :
    ∀ c ∈ s, Printable c := by
  induction s generalizing y with
  | nil => simp
  | cons c s ih =>
    have whole : jsonEncode (c :: s) ++ t = jsonEncodeChar c ++ (jsonEncode s ++ t) := by
      simp [jsonEncode]
    rw [whole] at read
    by_cases printable : Printable c
    · rw [scan_encodeChar printable] at read
      obtain ⟨⟨y', rest'⟩, later, eq⟩ := Option.map_eq_some_iff.mp read
      obtain ⟨-, rfl⟩ := Prod.mk.inj eq
      exact List.forall_mem_cons.mpr ⟨printable, ih later⟩
    · rw [scan_control printable] at read
      cases read

theorem string_encode_iff : string (jsonEncode s ++ 34 :: t) = some (y, rest) ↔
    (utf8 s = true ∧ ∀ c ∈ s, Printable c) ∧ y = content s ∧ rest = t := by
  have closing : scan .plain (34 :: t) = some ([], t) := rfl
  constructor
  · intro read
    obtain ⟨found, valid⟩ := Option.filter_eq_some_iff.mp read
    have printable := printable_of_scan found
    rw [scan_encode printable, closing, Option.map_some, List.append_nil] at found
    obtain ⟨rfl, rfl⟩ := Prod.mk.inj (Option.some.inj found)
    exact ⟨⟨utf8_content s ▸ valid, printable⟩, rfl, rfl⟩
  · rintro ⟨⟨valid, printable⟩, rfl, rfl⟩
    rw [string, scan_encode printable, closing, Option.map_some, List.append_nil, Option.filter_some,
      utf8_content, valid]
    rfl

end Strings

section Documents

variable {n : ℤ} {name s : List UInt8} {ts : List Token} {t : Ty} {v : Data} {vs : List Data}
  {ms : List (List UInt8 × Ty)} {es : List (List UInt8 × Data)} {i : ℕ}

theorem toJson_int (ge : -2 ^ 63 ≤ n) (lt : n < 2 ^ 64) : toJson (.int n) = numberText n := by
  have short := numberText_length_le (z := n) (by omega) (by omega)
  rw [toJson, List.take_of_length_le (by omega)]

theorem legal_identifier (identifier : Identifier name) : Legal name := by
  have bounds : ∀ c ∈ name, 48 ≤ c.toNat ∧ c.toNat ≤ 122 ∧ c ≠ 92 := by
    intro c mem
    obtain rfl | ⟨lo, hi⟩ | ⟨lo, hi⟩ | ⟨lo, hi⟩ := identifier c mem
    · decide
    all_goals
      rw [UInt8.le_iff_toNat_le] at lo hi
      simp only [UInt8.reduceToNat] at lo hi
      refine ⟨by omega, by omega, ?_⟩
      rintro rfl
      simp only [UInt8.reduceToNat] at lo hi
      omega
  refine ⟨fun c mem => ⟨?_, ?_, (bounds c mem).2.2⟩, utf8_ascii fun c mem => ?_⟩
  · rw [UInt8.le_iff_toNat_le]
    exact Nat.le_trans (by decide) (bounds c mem).1
  · rintro rfl
    exact absurd (bounds _ mem).1 (by decide)
  · rw [UInt8.lt_iff_toNat_lt]
    exact Nat.lt_of_le_of_lt (bounds c mem).2.1 (by decide)

theorem toJsonItems_succ : toJsonItems (i + 1) vs = (vs.map toJson).flatMap (44 :: ·) := by
  induction vs generalizing i with
  | nil => rfl
  | cons v vs ih => simp [toJsonItems, ih]

theorem toJsonAttrs_succ : toJsonAttrs (i + 1) es =
    (es.map fun e => quoted e.1 ++ 58 :: toJson e.2).flatMap (44 :: ·) := by
  induction es generalizing i with
  | nil => rfl
  | cons e es ih => simp [toJsonAttrs, ih, quoted]

theorem forall_members {P : Data → Prop} (declared : es.map Prod.fst = ms.map Prod.fst)
    (each : ∀ p ∈ ms.zip es, P p.2.2) : ∀ e ∈ es, P e.2 := by
  intro e mem
  have length : es.length = ms.length := by simpa using congrArg List.length declared
  rw [← List.map_snd_zip (Nat.le_of_eq length)] at mem
  obtain ⟨p, listed, rfl⟩ := List.mem_map.mp mem
  exact each p listed

theorem itemTrees_eq : itemTrees vs = vs.map tree := by
  induction vs with
  | nil => rfl
  | cons v vs ih => rw [itemTrees, ih, List.map_cons]

theorem memberTrees_eq : memberTrees es = es.map fun e => (e.1, tree e.2) := by
  induction es with
  | nil => rfl
  | cons e es ih => rw [memberTrees, ih, List.map_cons]

theorem reads_items (each : ∀ v ∈ vs, Reads (toJson v) (tree v)) :
    Reads ([91] ++ toJsonItems 0 vs ++ [93]) (.array (itemTrees vs)) := by
  have parts : ∀ q ∈ vs.map fun v => (toJson v, tree v), Reads q.1 q.2 := by
    intro q mem
    obtain ⟨v, listed, rfl⟩ := List.mem_map.mp mem
    exact each v listed
  have reads := reads_array parts
  rw [List.map_map, List.map_map] at reads
  rw [itemTrees_eq]
  cases vs with
  | nil => exact reads
  | cons v vs =>
    rw [toJsonItems, toJsonItems_succ]
    simpa [arrayText, tailText, Function.comp_def] using reads

def entry (e : List UInt8 × Data) : Entry := ⟨e.1, toJson e.2, tree e.2⟩

theorem reads_attrs (nodup : (es.map Prod.fst).Nodup) (legal : ∀ e ∈ es, Legal e.1)
    (each : ∀ e ∈ es, Reads (toJson e.2) (tree e.2)) :
    Reads ([123] ++ toJsonAttrs 0 es ++ [125]) (.object (setMembers (memberTrees es))) := by
  have names : (es.map entry).map Entry.name = es.map Prod.fst := by
    rw [List.map_map]
    rfl
  have members : (es.map entry).map Entry.member = memberTrees es := by
    rw [List.map_map, memberTrees_eq]
    rfl
  have keys : ∀ f ∈ es.map entry, Legal f.name := by
    intro f mem
    obtain ⟨e, listed, rfl⟩ := List.mem_map.mp mem
    exact legal e listed
  have parts : ∀ f ∈ es.map entry, Reads f.text f.value := by
    intro f mem
    obtain ⟨e, listed, rfl⟩ := List.mem_map.mp mem
    exact each e listed
  have reads := reads_object keys (names ▸ nodup) parts
  rw [members] at reads
  cases es with
  | nil => exact reads
  | cons e es =>
    obtain ⟨name, v⟩ := e
    rw [toJsonAttrs, toJsonAttrs_succ]
    simpa [objectText, tailText, entry, Entry.written, quoted, Function.comp_def] using reads

/-- The document of a plain value is read as the value. -/
theorem Formed.reads (formed : Formed t v) (plain : Plain v) : Reads (toJson v) (tree v) := by
  induction formed with
  | @int n ge lt =>
    rw [toJson_int ge lt]
    exact reads_numberText n
  | @string s =>
    cases plain with
    | string valid printable =>
      intro k t _ fuel
      obtain ⟨k, rfl⟩ := Nat.exists_eq_succ_of_ne_zero (Nat.ne_of_gt (Nat.zero_lt_of_lt fuel))
      have whole : toJson (.string s) ++ t = 34 :: (jsonEncode s ++ 34 :: t) := by simp [toJson]
      rw [whole, value_quote, string_encode_iff.mpr ⟨⟨valid, printable⟩, rfl, rfl⟩]
      rfl
  | vector _ each =>
    cases plain with
    | vector items => exact reads_items fun v mem => each v mem (items v mem)
  | map nodup _ each =>
    cases plain with
    | map keys members => exact reads_attrs nodup keys fun e mem => each e mem (members e mem)
  | struct declared nodup names _ each =>
    cases plain with
    | struct members =>
      have parts := forall_members (P := fun w => Plain w → Reads (toJson w) (tree w)) declared each
      exact reads_attrs nodup (fun e mem => legal_identifier (names e mem)) fun e mem =>
        parts e mem (members e mem)

end Documents

end Conet.Base.ToJson
