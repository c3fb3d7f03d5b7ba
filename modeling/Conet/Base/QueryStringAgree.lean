/- Module: Conet/Base/QueryStringAgree
   source: base/src/query_string.rl, base/src/pb2json.cpp
   digest: The three decoders of query strings: which strings they decode alike. -/

import Conet.Base.Pb2json
import Conet.Base.QueryStringGrammar
import Mathlib.Data.List.Find

set_option autoImplicit false
set_option relaxedAutoImplicit false

namespace Conet.Base.QueryString

open Conet.Lib.DynMessage Conet.Lib.Ragel Conet.Base.Pb2json Conet.Base.HttpParser

variable {D F S : Type}

/-! ### The JSON value -/

section Json

/-- `root[name]`. -/
def jsonMember : Json S → List UInt8 → Json S
  | .object member, n => member n
  | _, _ => .null

/-- `(*root)[name].swap(v)`, which makes an object of null. -/
def setMember (root : Json S) (name : List UInt8) (v : Json S) : Json S :=
  .object fun n => if n = name then v else jsonMember root n

variable (ofString : List UInt8 → S)

/-- `query_string_to_json` into a fresh `Json::Value`. -/
def queryStringToJson (buf : List UInt8) : ℤ × Json S :=
  ((parse buf).1, (parse buf).2.values.foldl
    (fun root x => setMember root x.1 (.scalar (ofString (urlDecode x.2)))) .null)

/-- What the JSON library says of a string. -/
structure OfString (lib : JsonLib S) : Prop where
  isString : ∀ s, lib.isString (ofString s) = true
  isInt : ∀ s, lib.isInt (ofString s) = false
  asString : ∀ s, lib.asString (ofString s) = s

variable {ofString}

theorem foldl_setMember (xs : List (List UInt8 × List UInt8)) (root : Json S) (n : List UInt8) :
    jsonMember (xs.foldl
        (fun root x => setMember root x.1 (.scalar (ofString (urlDecode x.2)))) root) n =
      ((xs.reverse.find? fun x => x.1 == n).map fun x => Json.scalar (ofString (urlDecode x.2))).getD
        (jsonMember root n) := by
  induction xs generalizing root with
  | nil => rfl
  | cons x xs ih =>
    rw [List.foldl_cons, ih, List.reverse_cons, List.find?_append]
    cases xs.reverse.find? fun x => x.1 == n with
    | some y => rfl
    | none =>
      by_cases name : n = x.1
      · simp [setMember, jsonMember, name]
      · have other : (x.1 == n) = false := beq_eq_false_iff_ne.mpr (Ne.symm name)
        simp [setMember, jsonMember, name, other]

variable (ofString) in
theorem foldl_setMember_object (xs : List (List UInt8 × List UInt8)) (ne : xs ≠ []) (root : Json S) :
    ∃ member, xs.foldl (fun root x => setMember root x.1 (.scalar (ofString (urlDecode x.2)))) root =
      .object member := by
  induction xs using List.reverseRecOn with
  | nil => exact absurd rfl ne
  | append_singleton xs x ih =>
    rw [List.foldl_append]
    exact ⟨_, rfl⟩

end Json

/-! ### Errors -/

theorem seen_exec_values {f : Seen} {buf cs : List UInt8} {p : ℕ} {s : Parser}
    (error : (Seen.exec buf p cs f s).1 ≠ 0) : (Seen.exec buf p cs f s).2.values = s.values := by
  induction cs generalizing p f s with
  | nil =>
    rw [Seen.exec] at error ⊢
    split_ifs at error ⊢
    · exact absurd rfl error
    · rfl
  | cons c cs ih =>
    -- a value that has begun is accepted, so none is ended here
    have none : f.value = false := by
      by_contra value
      exact error (seen_exec_ret.mpr (.inl (by simpa using value)))
    have quiet : .endValue ∉ f.actions c := by
      simp [Seen.actions, Seen.does, none]
    have keeps : ∀ (xs : List QueryAction) (s : Parser), .endValue ∉ xs →
        (xs.foldl (Parser.act buf p) s).values = s.values := by
      intro xs
      induction xs with
      | nil => exact fun s _ => rfl
      | cons x xs ih =>
        intro s quiet
        simp only [List.mem_cons, not_or] at quiet
        rw [List.foldl_cons, ih _ quiet.2]
        cases x with
        | endValue => exact absurd rfl quiet.1
        | _ => rfl
    rw [Seen.exec] at error ⊢
    rw [ih error, keeps _ _ quiet]

theorem values_of_error {buf : List UInt8} (error : (parse buf).1 ≠ 0) : (parse buf).2.values = [] := by
  cases buf with
  | nil => exact absurd rfl error
  | cons c cs =>
    obtain ⟨ret, same⟩ := parse_cons c cs
    rw [ret] at error
    rw [same.values, seen_exec_values error]

/-! ### What is set -/

section Effects

/-- A field and the values that it gets. -/
abbrev Effect (D F : Type) := FieldDescriptor D (Scalar F) × List (Node (Scalar F))

variable (d : Descriptor D (Scalar F))

/-- The number is the field's, or that of another member of its `oneof`. -/
def concerns (n : ℕ) (e : Effect D F) : Bool := e.1.number == n || d.sibling e.1 n

/-- What the last of the effects that concern the number `n` leaves there. -/
def settle (es : List (Effect D F)) (n : ℕ) : Option (List (Node (Scalar F))) :=
  (es.reverse.find? (concerns d n)).map fun e => if n = e.1.number then e.2 else []

/-- The values of a singular field that is set. -/
def nodes (f : FieldDescriptor D (Scalar F)) (v : Scalar F) : List (Node (Scalar F)) :=
  if f.absent v then [] else [.scalar v]

/-- What the values of a query string set, one after another. -/
def queryEffects (fl : Floats F) (xs : List (List UInt8 × List UInt8)) : List (Effect D F) :=
  (xs.filterMap (assignment fl d)).map fun a => (a.1, nodes a.1 a.2)

/-- The first value of a name, decoded. -/
def firstText (xs : List (List UInt8 × List UInt8)) (n : List UInt8) : Option (List UInt8) :=
  (xs.find? fun x => x.1 == n).map fun x => urlDecode x.2

def lastText (xs : List (List UInt8 × List UInt8)) (n : List UInt8) : Option (List UInt8) :=
  (xs.reverse.find? fun x => x.1 == n).map fun x => urlDecode x.2

/-- The scalar that `json2pb` reads from a string. An enum is not read from one. -/
def textScalar (fl : Floats F) (f : FieldDescriptor D (Scalar F)) (s : List UInt8) :
    Option (Scalar F) :=
  match f.cppType with
  | .enum => none
  | .string => some (.string (if f.isBytes then [] else s))
  | .float => some (.float (fl.narrow (fl.strtod s)))
  | t => some (string2number fl t s)

/-- What a string sets, and whether `json2pb` stops there. A message field clears the others of its
`oneof` before that. -/
def textEffect (fl : Floats F) (s : Option (List UInt8)) (f : FieldDescriptor D (Scalar F)) :
    Option (Effect D F) × Bool :=
  match s with
  | none => (none, f.isRequired)
  | some s =>
    if f.isRepeated then (none, true)
    else if f.cppType = .message then (some (f, []), true)
    else
      match textScalar fl f s with
      | some x => (some (f, nodes f x), false)
      | none => (none, true)

/-- What the strings set, in the order of the fields, up to the first at which `json2pb` stops. -/
def textEffects (fl : Floats F) (text : List UInt8 → Option (List UInt8)) :
    List (FieldDescriptor D (Scalar F)) → List (Effect D F)
  | [] => []
  | f :: fs =>
    let e := textEffect fl (text f.name) f
    e.1.toList ++ if e.2 then [] else textEffects fl text fs

variable {d}

def putEffects (d : Descriptor D (Scalar F)) (es : List (Effect D F)) (m : Msg (Scalar F)) :
    Msg (Scalar F) :=
  es.foldl (fun m e => putField d e.1 m e.2) m

theorem putEffects_eq (es : List (Effect D F)) (m : Msg (Scalar F)) (n : ℕ) :
    putEffects d es m n = (settle d es n).getD (m n) := by
  induction es using List.reverseRecOn with
  | nil => rfl
  | append_singleton es e ih =>
    have last : putEffects d (es ++ [e]) m = putField d e.1 (putEffects d es m) e.2 := by
      simp [putEffects]
    rw [last, settle, List.reverse_append, List.reverse_singleton, List.singleton_append,
      List.find?_cons]
    by_cases own : n = e.1.number
    · have here : concerns d n e = true := by simp [concerns, own]
      rw [here]
      simp [putField, own]
    · rw [putField_of_ne own, ih]
      have other : concerns d n e = d.sibling e.1 n := by simp [concerns, Ne.symm own]
      rw [other]
      cases d.sibling e.1 n with
      | true => simp [own]
      | false => rfl

/-- Effects that make the same of every message leave the same. -/
theorem settle_eq_iff {es es' : List (Effect D F)} {n : ℕ} :
    (∀ m : Msg (Scalar F), putEffects d es m n = putEffects d es' m n) ↔
      settle d es n = settle d es' n := by
  simp only [putEffects_eq]
  constructor
  · intro same
    have empty := same fun _ => []
    have full := same fun _ => [.message Msg.new]
    cases left : settle d es n with
    | none =>
      cases right : settle d es' n with
      | none => rfl
      | some y => simp_all
    | some x =>
      cases right : settle d es' n with
      | none => simp_all
      | some y => simp_all
  · intro same m
    rw [same]

/-! ### The two runs -/

/-- No value is given to a repeated field. -/
def Single (d : Descriptor D (Scalar F)) (fl : Floats F) (xs : List (List UInt8 × List UInt8)) :
    Prop :=
  ∀ x ∈ xs, ∀ f v, assignment fl d x = some (f, v) → f.isRepeated = false

variable {fl : Floats F}

theorem doValue_single {x : List UInt8 × List UInt8}
    (single : ∀ f v, assignment fl d x = some (f, v) → f.isRepeated = false) (m : Msg (Scalar F)) :
    doValue fl d x m = (some 0, putEffects d (queryEffects d fl [x]) m) := by
  unfold doValue
  cases given : assignment fl d x with
  | none => simp [queryEffects, putEffects, given]
  | some a =>
    have not_many := single a.1 a.2 given
    simp [queryEffects, putEffects, given, not_many, setField, nodes]

theorem steps_doValue {xs : List (List UInt8 × List UInt8)} (single : Single d fl xs)
    (m : Msg (Scalar F)) :
    steps (doValue fl d) xs m = (some 0, putEffects d (queryEffects d fl xs) m) := by
  induction xs generalizing m with
  | nil => rfl
  | cons x xs ih =>
    have first := doValue_single (single x List.mem_cons_self) m
    have rest : Single d fl xs := fun y mem => single y (List.mem_cons_of_mem x mem)
    rw [steps_cons_ok (by rw [first]), first, ih rest]
    cases given : assignment fl d x with
    | none => simp [queryEffects, putEffects, given]
    | some a => simp [queryEffects, putEffects, given]

/-- A value that is given to a repeated field is fatal. -/
theorem steps_doValue_many {xs : List (List UInt8 × List UInt8)} (many : ¬ Single d fl xs)
    (m : Msg (Scalar F)) : (steps (doValue fl d) xs m).1 = none := by
  induction xs generalizing m with
  | nil => exact absurd (fun x mem => absurd mem List.not_mem_nil) many
  | cons x xs ih =>
    by_cases single : ∀ f v, assignment fl d x = some (f, v) → f.isRepeated = false
    · rw [steps_cons_ok (by rw [doValue_single single])]
      apply ih
      intro rest
      apply many
      intro y mem
      rcases List.mem_cons.mp mem with rfl | later
      · exact single
      · exact rest y later
    · push Not at single
      obtain ⟨f, v, given, repeated⟩ := single
      have fatal : doValue fl d x m = (none, m) := by
        simp [doValue, given, Bool.eq_true_of_not_eq_false repeated]
      rw [steps_cons_fail (by simp [fatal]), fatal]

variable {lib : JsonLib S} {sch : D → Descriptor D (Scalar F)} {ofString : List UInt8 → S}

variable (fl) in
theorem jsonScalar_ofString (strings : OfString ofString lib) (f : FieldDescriptor D (Scalar F))
    (s : List UInt8) :
    (∀ x, textScalar fl f s = some x → jsonScalar lib fl f (.scalar (ofString s)) = .ok x) ∧
      (textScalar fl f s = none → ∃ st, jsonScalar lib fl f (.scalar (ofString s)) = .error st) := by
  unfold textScalar jsonScalar
  cases f.cppType <;> simp [asString, strings.isString, strings.isInt, strings.asString]

def ofText (ofString : List UInt8 → S) (s : Option (List UInt8)) : Json S :=
  s.elim .null fun s => .scalar (ofString s)

variable (d fl sch) in
theorem json2pbField_text (strings : OfString ofString lib) (f : FieldDescriptor D (Scalar F))
    (s : Option (List UInt8)) (m : Msg (Scalar F)) :
    ((json2pbField lib fl sch (ofText ofString s) d f m).1 = some 0 ↔
        (textEffect fl s f).2 = false) ∧
      ∀ n, (f.cppType = .message → f.number ≠ n) →
        (json2pbField lib fl sch (ofText ofString s) d f m).2 n =
          putEffects d (textEffect fl s f).1.toList m n := by
  cases s with
  | none =>
    cases required : f.isRequired <;>
      simp [ofText, json2pbField, textEffect, putEffects, required]
  | some s =>
    unfold textEffect
    simp only [ofText, Option.elim_some, json2pbField]
    by_cases many : f.isRepeated = true
    · simp [many, putEffects]
    by_cases message : f.cppType = .message
    · simp only [many, message, if_true, Bool.false_eq_true, if_false]
      refine ⟨by simp, fun n other => ?_⟩
      exact putField_congr (fun own => absurd own.symm (other trivial)) rfl
    · simp only [many, message, if_false, setScalar, Bool.false_eq_true]
      obtain ⟨reads, fails⟩ := jsonScalar_ofString fl strings f s
      cases read : textScalar fl f s with
      | some x => simp [reads x read, putEffects, setField, nodes]
      | none =>
        obtain ⟨st, error⟩ := fails read
        simp [error, putEffects, jsonScalar_error error]

variable (d fl sch) in
theorem steps_text (strings : OfString ofString lib) (text : List UInt8 → Option (List UInt8))
    {fs : List (FieldDescriptor D (Scalar F))} {n : ℕ}
    (apart : ∀ f ∈ fs, f.cppType = .message → f.number ≠ n) (m : Msg (Scalar F)) :
    (steps (fun f m => json2pbField lib fl sch (ofText ofString (text f.name)) d f m) fs m).2 n =
      putEffects d (textEffects fl text fs) m n := by
  induction fs generalizing m with
  | nil => rfl
  | cons f fs ih =>
    obtain ⟨done, value⟩ := json2pbField_text d fl sch strings f (text f.name) m
    have here := value n (apart f List.mem_cons_self)
    have rest := ih fun g mem => apart g (List.mem_cons_of_mem f mem)
    have split : putEffects d (textEffects fl text (f :: fs)) m n =
        putEffects d (if (textEffect fl (text f.name) f).2 then [] else textEffects fl text fs)
          (putEffects d (textEffect fl (text f.name) f).1.toList m) n := by
      simp only [textEffects, putEffects, List.foldl_append]
    rw [split]
    cases stop : (textEffect fl (text f.name) f).2 with
    | true =>
      have first : steps (fun f m => json2pbField lib fl sch (ofText ofString (text f.name)) d f m)
          (f :: fs) m = json2pbField lib fl sch (ofText ofString (text f.name)) d f m :=
        steps_cons_fail fun ok => by simp [stop] at done; exact done ok
      rw [first, here]
      rfl
    | false =>
      have first : steps (fun f m => json2pbField lib fl sch (ofText ofString (text f.name)) d f m)
          (f :: fs) m = steps (fun f m => json2pbField lib fl sch (ofText ofString (text f.name)) d f m)
            fs (json2pbField lib fl sch (ofText ofString (text f.name)) d f m).2 :=
        steps_cons_ok (done.mpr stop)
      rw [first, rest, putEffects_eq, here, ← putEffects_eq]
      rfl

theorem textEffects_none (fs : List (FieldDescriptor D (Scalar F))) :
    textEffects fl (fun _ => none) fs = [] := by
  induction fs with
  | nil => rfl
  | cons f fs ih => simp [textEffects, textEffect, ih]

end Effects

/-! ### Where the decoders agree -/

section Agree

variable (ofString : List UInt8 → S) (lib : JsonLib S) (fl : Floats F)
  (sch : D → Descriptor D (Scalar F)) (t : D) (buf : List UInt8)

/-- The three decoders agree on the string: in the pairs, and in the singular scalar fields of every
message, with no `Set…` of a repeated field and no change by a string that is rejected. -/
structure Agrees : Prop where
  code : (queryStringToJson ofString buf).1 = (parseQueryString buf fun _ => none).1
  pairs : ∀ n, jsonMember (queryStringToJson ofString buf).2 n =
    ofText ofString ((parseQueryString buf fun _ => none).2 n)
  setters : ∀ m, (queryStringToMsg fl (sch t) buf m).1 ≠ none
  unchanged : ∀ m ret, (queryStringToMsg fl (sch t) buf m).1 = some ret → ret ≠ 0 →
    (queryStringToMsg fl (sch t) buf m).2 = m
  same : ∀ m, ∀ f ∈ allFields (sch t), f.isRepeated = false → f.cppType ≠ .message →
    (queryStringToMsg fl (sch t) buf m).2 f.number =
      (json2pb lib fl sch (queryStringToJson ofString buf).2 t m).2 f.number

variable {ofString lib fl sch t buf}

theorem jsonMember_queryString (n : List UInt8) :
    jsonMember (queryStringToJson ofString buf).2 n =
      ofText ofString (lastText (parse buf).2.values n) := by
  show jsonMember (List.foldl _ _ _) n = _
  rw [foldl_setMember, lastText, ofText]
  cases (parse buf).2.values.reverse.find? fun x => x.1 == n <;> rfl

theorem ofText_inj (strings : OfString ofString lib) {s s' : Option (List UInt8)} :
    ofText ofString s = ofText ofString s' ↔ s = s' := by
  cases s with
  | none => cases s' <;> simp [ofText]
  | some s =>
    cases s' with
    | none => simp [ofText]
    | some s' =>
      simp only [ofText, Option.elim_some, Json.scalar.injEq, Option.some.injEq]
      constructor
      · intro same
        rw [← strings.asString s, same, strings.asString]
      · rintro rfl
        rfl

/-- What `json2pb` makes of the object at the number of a field that is no message. -/
theorem json2pb_queryString (strings : OfString ofString lib) {f : FieldDescriptor D (Scalar F)}
    (mem : f ∈ allFields (sch t)) (scalar : f.cppType ≠ .message) (m : Msg (Scalar F)) :
    (json2pb lib fl sch (queryStringToJson ofString buf).2 t m).2 f.number =
      putEffects (sch t) (textEffects fl (lastText (parse buf).2.values) (allFields (sch t))) m
        f.number := by
  have apart : ∀ g ∈ allFields (sch t), g.cppType = .message → g.number ≠ f.number := by
    intro g hg message number
    obtain rfl := List.inj_on_of_nodup_map (sch t).nodup hg mem number
    exact scalar message
  have run := steps_text (sch t) fl sch strings (lastText (parse buf).2.values) apart m
  by_cases empty : (parse buf).2.values = []
  · have null : (queryStringToJson ofString buf).2 = .null := by simp [queryStringToJson, empty]
    have none : lastText (parse buf).2.values = fun _ => none := by
      funext n
      simp [lastText, empty]
    rw [null, none, textEffects_none]
    rfl
  · obtain ⟨member, object⟩ := foldl_setMember_object ofString _ empty .null
    have members : ∀ n, member n = ofText ofString (lastText (parse buf).2.values n) := fun n => by
      rw [← jsonMember_queryString]
      show _ = jsonMember (List.foldl _ _ _) n
      rw [object]
      rfl
    show (json2pb lib fl sch (List.foldl _ _ _) t m).2 f.number = _
    rw [object]
    simp only [json2pb, members]
    exact run

end Agree

/-! ### Who writes a field last -/

section Writers

variable (fl : Floats F) (d : Descriptor D (Scalar F))

/-- A write to `g` writes the field with the number `n`: it is `g`, or of the same `oneof`. -/
def writes (n : ℕ) (g : FieldDescriptor D (Scalar F)) : Bool := g.number == n || d.sibling g n

/-- The pairs that `DO_VALUE` sets a field from, with the field and what it reads. -/
def given (xs : List (List UInt8 × List UInt8)) :
    List ((List UInt8 × List UInt8) × FieldDescriptor D (Scalar F) × Scalar F) :=
  xs.filterMap fun x => (assignment fl d x).map fun a => (x, a)

/-- The last pair in the text that writes the field with the number `n`. -/
def lastGiven (xs : List (List UInt8 × List UInt8)) (n : ℕ) :
    Option ((List UInt8 × List UInt8) × FieldDescriptor D (Scalar F) × Scalar F) :=
  (given fl d xs).reverse.find? fun a => writes d n a.2.1

/-- `json2pb` writes the field when it finds this text. A message clears the others of its `oneof`. -/
def sets (s : Option (List UInt8)) (f : FieldDescriptor D (Scalar F)) : Bool :=
  s.isSome && !f.isRepeated && f.cppType != .enum

/-- `json2pb` stops at the field. -/
def stops (s : Option (List UInt8)) (f : FieldDescriptor D (Scalar F)) : Bool :=
  match s with
  | none => f.isRequired
  | some _ => f.isRepeated || f.cppType == .message || f.cppType == .enum

/-- The fields that `json2pb` writes, in their order, up to the first at which it stops. -/
def written (text : List UInt8 → Option (List UInt8)) :
    List (FieldDescriptor D (Scalar F)) → List (FieldDescriptor D (Scalar F))
  | [] => []
  | f :: fs => (if sets (text f.name) f then [f] else []) ++
      if stops (text f.name) f then [] else written text fs

/-- The last of them that writes the field with the number `n`. -/
def lastWritten (text : List UInt8 → Option (List UInt8)) (n : ℕ) :
    Option (FieldDescriptor D (Scalar F)) :=
  (written text (allFields d)).reverse.find? (writes d n)

/-- What `json2pb` leaves in a field that it writes. -/
def textNodes (f : FieldDescriptor D (Scalar F)) (s : List UInt8) : List (Node (Scalar F)) :=
  if f.cppType = .message then [] else ((textScalar fl f s).map (nodes f)).getD []

/-- The values of a query string for which it does not matter which decoder reads them. -/
structure Alike (xs : List (List UInt8 × List UInt8)) : Prop where
  names : ∀ n, firstText xs n = lastText xs n
  single : Single d fl xs
  /-- Of a field and the others of its `oneof`, the one that comes last in the text is the one that
  comes last in the order of the fields. -/
  writer : ∀ f ∈ allFields d, f.isRepeated = false → f.cppType ≠ .message →
    (lastGiven fl d xs f.number).map (fun a => a.2.1) = lastWritten d (lastText xs) f.number
  /-- It reads the same from its value as it stands and from the decoded one. -/
  reads : ∀ f ∈ allFields d, f.isRepeated = false → f.cppType ≠ .message →
    ∀ x v, lastGiven fl d xs f.number = some (x, f, v) → nodes f v = textNodes fl f (urlDecode x.2)

/-- The members of a `oneof` have presence. -/
def Presence : Prop := ∀ f ∈ d.fields, f.oneof.isSome → ∀ v, f.absent v = false

variable {fl d} {xs : List (List UInt8 × List UInt8)} {f g : FieldDescriptor D (Scalar F)}
  {x : List UInt8 × List UInt8} {v : Scalar F}

theorem textEffect_eq (s : Option (List UInt8)) : textEffect fl s f =
    (if sets s f then some (f, textNodes fl f (s.getD [])) else none, stops s f) := by
  cases s with
  | none => rfl
  | some s =>
    unfold textEffect sets stops textNodes textScalar
    cases f.isRepeated <;> cases f.cppType <;> rfl

theorem textEffects_eq (text : List UInt8 → Option (List UInt8))
    (fs : List (FieldDescriptor D (Scalar F))) : textEffects fl text fs =
      (written text fs).map fun f => (f, textNodes fl f ((text f.name).getD [])) := by
  induction fs with
  | nil => rfl
  | cons f fs ih =>
    rw [textEffects, written, textEffect_eq, List.map_append, ih]
    cases sets (text f.name) f <;> cases stops (text f.name) f <;> simp

theorem settle_text (text : List UInt8 → Option (List UInt8)) (n : ℕ) :
    settle d (textEffects fl text (allFields d)) n = (lastWritten d text n).map fun g =>
      if n = g.number then textNodes fl g ((text g.name).getD []) else [] := by
  rw [settle, textEffects_eq, ← List.map_reverse, List.find?_map, Option.map_map]
  rfl

theorem settle_query (n : ℕ) : settle d (queryEffects d fl xs) n =
    (lastGiven fl d xs n).map fun a => if n = a.2.1.number then nodes a.2.1 a.2.2 else [] := by
  have effects : queryEffects d fl xs = (given fl d xs).map fun a => (a.2.1, nodes a.2.1 a.2.2) := by
    simp only [queryEffects, given, List.map_filterMap, Option.map_map]
    rfl
  rw [settle, effects, ← List.map_reverse, List.find?_map, Option.map_map]
  rfl

theorem assignment_spec (read : assignment fl d x = some (g, v)) :
    g ∈ d.fields ∧ g.name = x.1 ∧ g.cppType ≠ .message ∧
      ∀ y, y.1 = g.name → g.cppType ≠ .enum → ∃ w, assignment fl d y = some (g, w) := by
  unfold assignment at read
  cases found : d.fields.find? fun f => f.name == x.1 with
  | none => simp [found] at read
  | some f =>
    rw [found] at read
    have name : f.name = x.1 := by simpa using List.find?_some found
    obtain rfl : f = g := by
      cases type : f.cppType <;> simp only [type] at read
      case enum =>
        split_ifs at read
        exact congrArg Prod.fst (Option.some.inj read)
      case message => cases read
      all_goals exact congrArg Prod.fst (Option.some.inj read)
    refine ⟨List.mem_of_find?_eq_some found, name, ?_, fun y same scalar => ?_⟩
    · intro message
      simp [message] at read
    · have again : d.fields.find? (fun f => f.name == y.1) = some f := by rw [same, name, found]
      unfold assignment
      rw [again]
      cases type : f.cppType <;> simp_all

theorem lastGiven_spec {n : ℕ} (last : lastGiven fl d xs n = some (x, g, v)) :
    x ∈ xs ∧ assignment fl d x = some (g, v) ∧ writes d n g = true := by
  have found : (given fl d xs).reverse.find? (fun a => writes d n a.2.1) = some (x, g, v) := last
  obtain ⟨y, hy, read⟩ := List.mem_filterMap.mp (List.mem_reverse.mp (List.mem_of_find?_eq_some found))
  obtain ⟨a, read, same⟩ := Option.map_eq_some_iff.mp read
  obtain ⟨rfl, rfl⟩ := Prod.mk.inj same
  obtain ⟨own, -⟩ := List.find?_eq_some_iff_append.mp found
  exact ⟨hy, read, own⟩

/-- The pair that writes a field last under its own name is the last one with the name. -/
theorem lastText_of_lastGiven (last : lastGiven fl d xs f.number = some (x, f, v))
    (scalar : f.cppType ≠ .enum) : lastText xs f.name = some (urlDecode x.2) := by
  obtain ⟨-, read, -⟩ := lastGiven_spec last
  obtain ⟨-, name, -, again⟩ := assignment_spec read
  unfold lastGiven given at last
  rw [← List.filterMap_reverse, List.find?_filterMap] at last
  obtain ⟨y, found, same⟩ := Option.bind_eq_some_iff.mp last
  obtain ⟨a, -, same⟩ := Option.map_eq_some_iff.mp same
  obtain rfl := congrArg Prod.fst same
  rw [lastText]
  refine Option.map_eq_some_iff.mpr ⟨y, ?_, rfl⟩
  obtain ⟨-, before, after, split, none⟩ := List.find?_eq_some_iff_append.mp found
  refine List.find?_eq_some_iff_append.mpr ⟨by simp [name], before, after, split, fun z hz => ?_⟩
  by_contra named
  obtain ⟨w, read'⟩ := again z (by simpa using named) scalar
  simpa [read', writes] using none z hz

/-- A write to a field writes those of the same `oneof` besides. -/
theorem writes_iff (hf : f ∈ allFields d) (hg : g ∈ allFields d) : writes d f.number g = true ↔
    g = f ∨ (f ∈ d.fields ∧ g.oneof.isSome ∧ g.oneof = f.oneof) := by
  have inj : ∀ h ∈ allFields d, h.number = f.number → h = f := fun h hh number =>
    List.inj_on_of_nodup_map d.nodup hh hf number
  unfold writes
  by_cases own : g = f
  · simp [own]
  · have number : g.number ≠ f.number := fun e => own (inj g hg e)
    simp only [Descriptor.sibling, own, false_or, Bool.or_eq_true, beq_iff_eq, number, Bool.and_eq_true,
      bne_iff_ne, ne_eq, Ne.symm number, not_false_eq_true, and_true, List.any_eq_true]
    constructor
    · rintro ⟨some, h, hh, same, e⟩
      obtain rfl := inj h (List.mem_append_right _ hh) e
      exact ⟨hh, some, same.symm⟩
    · rintro ⟨hf', some, same⟩
      exact ⟨some, f, hf', same.symm, rfl⟩

theorem mem_written {text : List UInt8 → Option (List UInt8)} {fs : List (FieldDescriptor D (Scalar F))}
    (mem : g ∈ written text fs) : g ∈ fs ∧ sets (text g.name) g = true := by
  induction fs with
  | nil => cases mem
  | cons f fs ih =>
    rw [written, List.mem_append] at mem
    rcases mem with mem | mem
    · split_ifs at mem with writes
      · obtain rfl := List.mem_singleton.mp mem
        exact ⟨List.mem_cons_self, writes⟩
      · cases mem
    · split_ifs at mem
      · cases mem
      · exact ⟨List.mem_cons_of_mem f (ih mem).1, (ih mem).2⟩

theorem lastWritten_spec {text : List UInt8 → Option (List UInt8)} {n : ℕ}
    (last : lastWritten d text n = some g) :
    g ∈ allFields d ∧ sets (text g.name) g = true ∧ writes d n g = true := by
  obtain ⟨mem, sets⟩ := mem_written (List.mem_reverse.mp (List.mem_of_find?_eq_some last))
  exact ⟨mem, sets, List.find?_some last⟩

/-- The value that is read last from the text, and the text that `json2pb` reads. -/
theorem given_reads (last : lastGiven fl d xs f.number = some (x, f, v))
    (writer : lastWritten d (lastText xs) f.number = some f) :
    textNodes fl f ((lastText xs f.name).getD []) = textNodes fl f (urlDecode x.2) := by
  obtain ⟨-, sets, -⟩ := lastWritten_spec writer
  have scalar : f.cppType ≠ .enum := by
    rintro enum
    simp [QueryString.sets, enum] at sets
  rw [lastText_of_lastGiven last scalar, Option.getD_some]

/-- Fields of one `oneof` are written by the same pairs and by the same fields. -/
theorem last_congr {text : List UInt8 → Option (List UInt8)} (hf : f ∈ allFields d) (hg : g ∈ d.fields)
    (other : g ≠ f) (w : writes d f.number g = true) :
    lastGiven fl d xs f.number = lastGiven fl d xs g.number ∧
      lastWritten d text f.number = lastWritten d text g.number := by
  have hg' : g ∈ allFields d := List.mem_append_right _ hg
  obtain ⟨hf', some, same⟩ := ((writes_iff hf hg').mp w).resolve_left other
  have congr : ∀ e ∈ allFields d, writes d f.number e = writes d g.number e := by
    intro e he
    rw [Bool.eq_iff_iff, writes_iff hf he, writes_iff hg' he]
    constructor
    · rintro (rfl | ⟨-, some', same'⟩)
      · exact .inr ⟨hg, same ▸ some, same.symm⟩
      · exact .inr ⟨hg, some', same'.trans same.symm⟩
    · rintro (rfl | ⟨-, some', same'⟩)
      · exact .inr ⟨hf', some, same⟩
      · exact .inr ⟨hf', some', same'.trans same⟩
  constructor
  · refine List.find?_congr fun a ha => ?_
    obtain ⟨y, -, read⟩ := List.mem_filterMap.mp (List.mem_reverse.mp ha)
    obtain ⟨b, read', rfl⟩ := Option.map_eq_some_iff.mp read
    exact congr _ (List.mem_append_right _ (assignment_spec read').1)
  · exact List.find?_congr fun e he => congr e (mem_written (List.mem_reverse.mp he)).1

/-- Where a pair writes a field last under its own name, that field is the last one written. -/
theorem own_of_settle (presence : Presence d) (hf : f ∈ allFields d)
    (same : settle d (queryEffects d fl xs) f.number =
      settle d (textEffects fl (lastText xs) (allFields d)) f.number)
    (last : lastGiven fl d xs f.number = some (x, f, v)) :
    lastWritten d (lastText xs) f.number = some f ∧ nodes f v = textNodes fl f (urlDecode x.2) := by
  rw [settle_query, settle_text, last, Option.map_some, if_pos rfl] at same
  obtain ⟨g, writer, value⟩ := Option.map_eq_some_iff.mp same.symm
  obtain ⟨hg, -, w⟩ := lastWritten_spec writer
  by_cases own : g = f
  · subst own
    rw [if_pos rfl, given_reads last writer] at value
    exact ⟨writer, value.symm⟩
  · have number : f.number ≠ g.number := fun e => own (List.inj_on_of_nodup_map d.nodup hg hf e.symm)
    obtain ⟨hf', some, same⟩ := ((writes_iff hf hg).mp w).resolve_left own
    have present := presence f hf' (same ▸ some) v
    simp [number, nodes, present] at value

/-- What the two runs leave in the fields is the same exactly when the last writes are of the same
fields, and read alike. -/
theorem settle_iff_writers (presence : Presence d) (single : Single d fl xs) :
    (∀ f ∈ allFields d, f.isRepeated = false → f.cppType ≠ .message →
      settle d (queryEffects d fl xs) f.number =
        settle d (textEffects fl (lastText xs) (allFields d)) f.number) ↔
    ∀ f ∈ allFields d, f.isRepeated = false → f.cppType ≠ .message →
      (lastGiven fl d xs f.number).map (fun a => a.2.1) = lastWritten d (lastText xs) f.number ∧
      ∀ x v, lastGiven fl d xs f.number = some (x, f, v) → nodes f v = textNodes fl f (urlDecode x.2) := by
  constructor
  · intro same f hf one scalar
    refine ⟨?_, fun x v last => (own_of_settle presence hf (same f hf one scalar) last).2⟩
    cases last : lastGiven fl d xs f.number with
    | none =>
      have none := same f hf one scalar
      rw [settle_query, settle_text, last] at none
      exact (Option.map_eq_none_iff.mp none.symm).symm
    | some a =>
      obtain ⟨x, g, v⟩ := a
      obtain ⟨hx, read, w⟩ := lastGiven_spec last
      obtain ⟨hg, -, scalar', -⟩ := assignment_spec read
      by_cases own : g = f
      · subst own
        exact (own_of_settle presence hf (same g hf one scalar) last).1.symm
      · -- the pair writes `g` too, and under its own name
        have hg' : g ∈ allFields d := List.mem_append_right _ hg
        obtain ⟨given, written⟩ : lastGiven fl d xs f.number = lastGiven fl d xs g.number ∧
            lastWritten d (lastText xs) f.number = lastWritten d (lastText xs) g.number :=
          last_congr hf hg own w
        rw [given] at last
        rw [written]
        exact (own_of_settle presence hg' (same g hg' (single x hx g v read) scalar') last).1.symm
  · intro alike f hf one scalar
    obtain ⟨writer, reads⟩ := alike f hf one scalar
    rw [settle_query, settle_text, ← writer, Option.map_map]
    cases last : lastGiven fl d xs f.number with
    | none => rfl
    | some a =>
      obtain ⟨x, g, v⟩ := a
      obtain ⟨-, read, -⟩ := lastGiven_spec last
      have hg := List.mem_append_right d.extensions (assignment_spec read).1
      simp only [Option.map_some, Function.comp_apply, Option.some.injEq]
      by_cases number : f.number = g.number
      · obtain rfl : f = g := List.inj_on_of_nodup_map d.nodup hf hg number
        rw [if_pos rfl, if_pos rfl, reads x v last]
        rw [last] at writer
        exact (given_reads last writer.symm).symm
      · rw [if_neg number, if_neg number]

end Writers

section Agree

variable {ofString : List UInt8 → S} {lib : JsonLib S} {fl : Floats F}
  {sch : D → Descriptor D (Scalar F)} {t : D} {buf : List UInt8}

/-- Where the decoders agree. -/
theorem queryString_agrees_iff (strings : OfString ofString lib) (presence : Presence (sch t)) :
    Agrees ofString lib fl sch t buf ↔ Alike fl (sch t) (parse buf).2.values := by
  have pairs : ∀ n, (parseQueryString buf fun _ => none).2 n = firstText (parse buf).2.values n :=
    fun n => foldl_insertParam _ _ n
  have message : Single (sch t) fl (parse buf).2.values → ∀ m,
      queryStringToMsg fl (sch t) buf m = (some (parse buf).1,
        putEffects (sch t) (queryEffects (sch t) fl (parse buf).2.values) m) := by
    intro single m
    simp [queryStringToMsg, steps_doValue single]
  constructor
  · intro agrees
    have single : Single (sch t) fl (parse buf).2.values := by
      by_contra many
      apply agrees.setters Msg.new
      have fatal := steps_doValue_many many Msg.new
      simp [queryStringToMsg, fatal]
    have writers := (settle_iff_writers presence single).mp fun f mem one scalar =>
      settle_eq_iff.mp fun m => by
        have same := agrees.same m f mem one scalar
        rwa [message single, json2pb_queryString strings mem scalar] at same
    refine ⟨fun n => ?_, single, fun f mem one scalar => (writers f mem one scalar).1,
      fun f mem one scalar => (writers f mem one scalar).2⟩
    have same := agrees.pairs n
    rw [jsonMember_queryString, ofText_inj strings, pairs] at same
    exact same.symm
  · intro alike
    constructor
    · rfl
    · intro n
      rw [jsonMember_queryString, pairs, alike.names]
    · intro m
      simp [message alike.single]
    · intro m ret done error
      rw [message alike.single] at done ⊢
      obtain rfl := Option.some.inj done
      rw [values_of_error error]
      rfl
    · intro m f mem one scalar
      rw [message alike.single, json2pb_queryString strings mem scalar]
      refine settle_eq_iff.mpr ?_ m
      exact (settle_iff_writers presence alike.single).mpr
        (fun f mem one scalar => ⟨alike.writer f mem one scalar, alike.reads f mem one scalar⟩) f mem one scalar

end Agree

/-- A JSON library that has strings alone. -/
def stringLib : JsonLib (List UInt8) := ⟨fun _ => none, fun _ => true, fun _ => false, fun _ => 0, id⟩

theorem stringLib_strings : OfString id stringLib := ⟨fun _ => rfl, fun _ => rfl, fun _ => rfl⟩

def field (number : ℕ) (name : List UInt8) (cppType : CppType) (oneof : Option ℕ) :
    FieldDescriptor Unit (Scalar Unit) :=
  ⟨number, name, cppType, false, false, false, oneof, fun _ => false, fun _ => false, ()⟩

/-- A message type with one field, an optional `string` with the name `a`. -/
def oneString : Unit → Descriptor Unit (Scalar Unit) := fun _ =>
  ⟨[], [field 1 (codes "a") .string none], by decide⟩

/-- Fields `a` and `b`, and `c` and `e` in a `oneof`. -/
def fourFields : Unit → Descriptor Unit (Scalar Unit) := fun _ =>
  ⟨[], [field 1 (codes "a") .string none, field 2 (codes "b") .int32 none,
    field 3 (codes "c") .string (some 0), field 4 (codes "e") .int64 (some 0)], by decide⟩

def noFloats : Floats Unit := ⟨fun _ => (), fun _ => (), id⟩

theorem queryString_agrees_four : OfString id stringLib ∧ Presence (fourFields ()) ∧
    (Agrees id stringLib noFloats fourFields () (codes "a=x&c=y&b=7&e=%39") ↔
      Alike noFloats (fourFields ()) (parse (codes "a=x&c=y&b=7&e=%39")).2.values) := by
  have presence : Presence (fourFields ()) := by simp [Presence, fourFields, field]
  exact ⟨stringLib_strings, presence, queryString_agrees_iff stringLib_strings presence⟩

/-- The message gets `%41` from `a=%41`, and the JSON value `A`. -/
theorem queryString_percent : ¬ ∀ (D F S : Type) (ofString : List UInt8 → S) (lib : JsonLib S)
    (fl : Floats F) (sch : D → Descriptor D (Scalar F)) (t : D) (buf : List UInt8),
    OfString ofString lib → Agrees ofString lib fl sch t buf := by
  intro claim
  have agrees := claim Unit Unit (List UInt8) id stringLib noFloats oneString () (codes "a=%41")
    stringLib_strings
  have values : (parse (codes "a=%41")).2.values = [(codes "a", codes "%41")] := by decide
  have left : (queryStringToMsg noFloats (oneString ()) (codes "a=%41") Msg.new).2 1 =
      [.scalar (.string (codes "%41"))] := by
    simp only [queryStringToMsg, values]
    rfl
  have right : (json2pb stringLib noFloats oneString (queryStringToJson id (codes "a=%41")).2 ()
      Msg.new).2 1 = [.scalar (.string (codes "A"))] := by
    simp only [queryStringToJson, values]
    rfl
  have same := agrees.same Msg.new _ List.mem_cons_self rfl (by simp [field])
  have texts := left.symm.trans (same.trans right)
  simp only [List.cons.injEq, Node.scalar.injEq, Scalar.string.injEq, and_true] at texts
  exact absurd texts (by decide)

end Conet.Base.QueryString
