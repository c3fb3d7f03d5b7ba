/- Module: Conet/Base/Pb2json
   source: base/src/pb2json.cpp
   digest: Messages filled from JSON, and from query strings: which of them keep what the message
   held before. -/

import Conet.Base.QueryString

set_option autoImplicit false
set_option relaxedAutoImplicit false

namespace Conet.Base.Pb2json

open Conet.Lib.DynMessage Conet.Base.QueryString

/-- `Json::Value`. `operator[]` of an object gives null for a name that it does not have. -/
inductive Json (S : Type)
  | null
  | scalar (s : S)
  | array (size : ℕ) (item : ℕ → Json S)
  | object (member : List UInt8 → Json S)

def Json.isNull {S : Type} : Json S → Bool
  | .null => true
  | _ => false

/-- The reader of the JSON library, and what it says of numbers, strings and booleans. -/
structure JsonLib (S : Type) where
  read : List UInt8 → Option (Json S)
  isString : S → Bool
  isInt : S → Bool
  asInt : S → ℤ
  asString : S → List UInt8

variable {D F S : Type}

section Decoder

variable (lib : JsonLib S) (fl : Floats F) (sch : D → Descriptor D (Scalar F))

/-- `asString`, which throws on arrays and objects. -/
def asString : Json S → Option (List UInt8)
  | .null => some []
  | .scalar s => some (lib.asString s)
  | _ => none

/-- The scalar that is read for a field from a value or an item, or what is returned instead. -/
def jsonScalar (f : FieldDescriptor D (Scalar F)) (v : Json S) : Except Status (Scalar F) :=
  match f.cppType with
  | .string =>
    match v with
    | .scalar s =>
      if lib.isString s then .ok (.string (if f.isBytes then [] else lib.asString s))
      else .error (some (if f.isRepeated then -651 else -662))
    | _ => .error (some (if f.isRepeated then -651 else -662))
  | .enum =>
    match v with
    | .scalar s =>
      if lib.isInt s then
        if f.enumNumber (lib.asInt s) then .ok (.enum (lib.asInt s))
        else .error (some (if f.isRepeated then -21 else -23))
      else .error (some (if f.isRepeated then -20 else -22))
    | _ => .error (some (if f.isRepeated then -20 else -22))
  | .float =>
    -- the number is read as a `double`
    match asString lib v with
    | some s => .ok (.float (fl.narrow (fl.strtod s)))
    | none => .error none
  | t =>
    match asString lib v with
    | some s => .ok (string2number fl t s)
    | none => .error none

/-- `Set…` of a singular field that is no message. -/
def setScalar (d : Descriptor D (Scalar F)) (f : FieldDescriptor D (Scalar F)) (v : Json S)
    (m : Msg (Scalar F)) : Status × Msg (Scalar F) :=
  match jsonScalar lib fl f v with
  | .ok x => (some 0, setField d f m x)
  | .error st => (st, m)

/-- `Add…` for an item of a repeated field that is no message. -/
def addScalar (f : FieldDescriptor D (Scalar F)) (v : Json S) (m : Msg (Scalar F)) :
    Status × Msg (Scalar F) :=
  match jsonScalar lib fl f v with
  | .ok x => (some 0, addField f m (.scalar x))
  | .error st => (st, m)

/-- All fields of a type, in the order in which `json2pb` goes through them. -/
def allFields (d : Descriptor D (Scalar F)) : List (FieldDescriptor D (Scalar F)) :=
  d.extensions ++ d.fields

mutual

/-- `json2pb` of a value. -/
def json2pb : Json S → D → Msg (Scalar F) → Status × Msg (Scalar F)
  | .object member, d, m =>
    steps (fun f m => json2pbField (member f.name) (sch d) f m) (allFields (sch d)) m
  | _, _, m => (some (-10), m)

def json2pbField : Json S → Descriptor D (Scalar F) → FieldDescriptor D (Scalar F) →
    Msg (Scalar F) → Status × Msg (Scalar F)
  | .null, _, f, m => if f.isRequired then (some (-11), m) else (some 0, m)
  | .scalar s, d, f, m =>
    if f.isRepeated then (some (-12), m)
    else if f.cppType = .message then (some (-10), mutableField d f m (subMessage (m f.number)))
    else setScalar lib fl d f (.scalar s) m
  | .array size item, d, f, m =>
    if f.isRepeated then
      if f.cppType = .message then
        steps (fun i m =>
          match item i with
          | .object _ =>
            let r := json2pb (item i) f.messageType Msg.new
            (r.1, addField f m (.message r.2))
          | _ => (some (-25), m)) (List.range size) m
      else steps (fun i m => addScalar lib fl f (item i) m) (List.range size) m
    else if f.cppType = .message then (some (-10), mutableField d f m (subMessage (m f.number)))
    else setScalar lib fl d f (.array size item) m
  | .object member, d, f, m =>
    if f.isRepeated then (some (-12), m)
    else if f.cppType = .message then
      -- `json2pb` of the same value
      let r := steps (fun g m => json2pbField (member g.name) (sch f.messageType) g m)
        (allFields (sch f.messageType)) (subMessage (m f.number))
      (r.1, mutableField d f m r.2)
    else setScalar lib fl d f (.object member) m

end

/-- `json2pb` of a text. -/
def json2pbText (txt : List UInt8) (d : D) (m : Msg (Scalar F)) : Status × Msg (Scalar F) :=
  match lib.read txt with
  | none => (some (-1), m)
  | some v => json2pb lib fl sch v d m

end Decoder

section Overwriting

variable {lib : JsonLib S} {fl : Floats F} {sch : D → Descriptor D (Scalar F)}
  {d : Descriptor D (Scalar F)} {f : FieldDescriptor D (Scalar F)} {v : Json S}

theorem local_put {x : List (Node (Scalar F)) → Status × List (Node (Scalar F))}
    (status : ∀ y z, (x y).1 = (x z).1) :
    Local fun m => ((x (m f.number)).1, putField d f m (x (m f.number)).2) where
  status m m' := status _ _
  values m m' n same := putField_congr (fun own => by rw [own] at same; rw [same]) same

theorem local_setScalar : Local (setScalar lib fl d f v) := by
  unfold setScalar
  cases jsonScalar lib fl f v with
  | ok x => exact local_put (x := fun _ => (some 0, if f.absent x then [] else [.scalar x])) fun _ _ => rfl
  | error st => exact Local.return st

theorem local_add (st : Status) (x : Node (Scalar F)) : Local fun m => (st, addField f m x) where
  status _ _ := rfl
  values _ _ _ same := addField_congr same

theorem local_addScalar : Local (addScalar lib fl f v) := by
  unfold addScalar
  cases jsonScalar lib fl f v with
  | ok x => exact local_add (some 0) (.scalar x)
  | error st => exact Local.return st

theorem local_field : Local (json2pbField lib fl sch v d f) := by
  induction v generalizing d f with
  | null =>
    simp only [json2pbField]
    split <;> exact Local.return _
  | scalar s =>
    simp only [json2pbField]
    split_ifs
    · exact Local.return _
    · exact local_put (x := fun y => (some (-10), [.message (subMessage y)])) fun _ _ => rfl
    · exact local_setScalar
  | array size item ih =>
    simp only [json2pbField]
    split_ifs
    · apply Local.steps
      intro i hi
      cases item i with
      | object member => exact local_add _ _
      | null => exact Local.return _
      | scalar s => exact Local.return _
      | array size item => exact Local.return _
    · apply Local.steps
      intro i hi
      exact local_addScalar
    · exact local_put (x := fun y => (some (-10), [.message (subMessage y)])) fun _ _ => rfl
    · exact local_setScalar
  | object member ih =>
    simp only [json2pbField]
    split_ifs
    · exact Local.return _
    · have inner : Local (steps (fun g m =>
          json2pbField lib fl sch (member g.name) (sch f.messageType) g m)
            (allFields (sch f.messageType))) := Local.steps fun g _ => ih g.name
      exact local_put (x := fun y => ((steps (fun g m =>
          json2pbField lib fl sch (member g.name) (sch f.messageType) g m)
            (allFields (sch f.messageType)) (subMessage y)).1, [.message (steps (fun g m =>
          json2pbField lib fl sch (member g.name) (sch f.messageType) g m)
            (allFields (sch f.messageType)) (subMessage y)).2])) fun y z => inner.status _ _
    · exact local_setScalar

/-- Every field that `m` has is set by `v`: no message is kept in part, and nothing is appended to. -/
def Overwrites (sch : D → Descriptor D (Scalar F)) : Json S → D → Msg (Scalar F) → Prop
  | .object member, d, m => ∀ n, m n = [] ∨ ∃ f ∈ allFields (sch d),
      (member f.name).isNull = false ∧ f.isRepeated = false ∧ ((sch d).sibling f n = true ∨
        f.number = n ∧ (f.cppType = .message → ∀ s, m n = [.message s] →
          Overwrites sch (member f.name) f.messageType s))
  | _, _, _ => True

theorem jsonScalar_error {st : Status} (read : jsonScalar lib fl f v = .error st) : st ≠ some 0 := by
  rintro rfl
  revert read
  unfold jsonScalar
  split
  · split
    · split_ifs <;> simp
    · split_ifs <;> simp
  · split
    · split_ifs <;> simp
    · split_ifs <;> simp
  · split <;> simp
  · split <;> simp

/-- What a field that is gone through without an error does to a message. -/
inductive FieldEdit (lib : JsonLib S) (fl : Floats F) (sch : D → Descriptor D (Scalar F))
    (d : Descriptor D (Scalar F)) (f : FieldDescriptor D (Scalar F)) (v : Json S) : Prop
  | keeps (null : v.isNull = true) (eq : ∀ m, (json2pbField lib fl sch v d f m).2 = m)
  | sets (full : v.isNull = false) (single : f.isRepeated = false) (scalar : f.cppType ≠ .message)
      (x : List (Node (Scalar F))) (eq : ∀ m, (json2pbField lib fl sch v d f m).2 = putField d f m x)
  | merges (full : v.isNull = false) (single : f.isRepeated = false) (message : f.cppType = .message)
      (done : ∀ m, (json2pb lib fl sch v f.messageType m).1 = some 0)
      (eq : ∀ m, (json2pbField lib fl sch v d f m).2 =
        putField d f m [.message (json2pb lib fl sch v f.messageType (subMessage (m f.number))).2])
  | appends (full : v.isNull = false) (many : f.isRepeated = true) (ys : List (Node (Scalar F)))
      (eq : ∀ m n, (json2pbField lib fl sch v d f m).2 n =
        if n = f.number then m n ++ ys else m n)

theorem setScalar_done (done : ∀ m, (setScalar lib fl d f v m).1 = some 0) :
    ∃ x, ∀ m, (setScalar lib fl d f v m).2 = putField d f m x := by
  unfold setScalar at done ⊢
  cases read : jsonScalar lib fl f v with
  | ok x => exact ⟨_, fun m => rfl⟩
  | error st =>
    simp only [read] at done
    exact absurd (done Msg.new) (jsonScalar_error read)

/-- An item is added to the field, or the message stays as it is. -/
def Adds (f : FieldDescriptor D (Scalar F)) (body : Msg (Scalar F) → Status × Msg (Scalar F)) :
    Prop :=
  (∃ x, ∀ m, (body m).2 = addField f m x) ∨ ∀ m, (body m).2 = m

/-- Items that are added to a field are appended to it. -/
theorem adds_append {body : ℕ → Msg (Scalar F) → Status × Msg (Scalar F)} {is : List ℕ}
    (each : ∀ i ∈ is, Local (body i)) (adds : ∀ i ∈ is, Adds f (body i)) :
    ∃ ys, ∀ m n, (steps body is m).2 n = if n = f.number then m n ++ ys else m n := by
  obtain ⟨ys, own⟩ := steps_appends each (n := f.number) fun i hi => by
    rcases adds i hi with ⟨x, eq⟩ | eq
    · exact ⟨[x], fun m => by rw [eq, addField_self]⟩
    · exact ⟨[], fun m => by rw [eq, List.append_nil]⟩
  refine ⟨ys, fun m n => ?_⟩
  split_ifs with ne
  · rw [ne, own]
  · apply steps_keeps
    intro i hi m
    rcases adds i hi with ⟨x, eq⟩ | eq
    · rw [eq, addField_of_ne ne]
    · rw [eq]

theorem adds_addScalar : Adds f (addScalar lib fl f v) := by
  unfold addScalar
  cases jsonScalar lib fl f v with
  | ok x => exact .inl ⟨.scalar x, fun m => rfl⟩
  | error st => exact .inr fun m => rfl

/-- `json2pb` of an item of a repeated field. -/
def itemBody (lib : JsonLib S) (fl : Floats F) (sch : D → Descriptor D (Scalar F))
    (f : FieldDescriptor D (Scalar F)) (item : ℕ → Json S) (i : ℕ) (m : Msg (Scalar F)) :
    Status × Msg (Scalar F) :=
  match item i with
  | .object _ =>
    let r := json2pb lib fl sch (item i) f.messageType Msg.new
    (r.1, addField f m (.message r.2))
  | _ => (some (-25), m)

theorem local_itemBody {item : ℕ → Json S} (i : ℕ) : Local (itemBody lib fl sch f item i) := by
  unfold itemBody
  cases item i with
  | object member => exact local_add _ _
  | null => exact Local.return _
  | scalar s => exact Local.return _
  | array size item => exact Local.return _

theorem adds_itemBody {item : ℕ → Json S} (i : ℕ) : Adds f (itemBody lib fl sch f item i) := by
  unfold itemBody
  cases item i with
  | object member => exact .inl ⟨_, fun m => rfl⟩
  | null => exact .inr fun m => rfl
  | scalar s => exact .inr fun m => rfl
  | array size item => exact .inr fun m => rfl

theorem field_message {member : List UInt8 → Json S} (single : f.isRepeated = false)
    (message : f.cppType = .message) (m : Msg (Scalar F)) :
    json2pbField lib fl sch (.object member) d f m =
      ((json2pb lib fl sch (.object member) f.messageType (subMessage (m f.number))).1,
        mutableField d f m (json2pb lib fl sch (.object member) f.messageType (subMessage (m f.number))).2) := by
  simp only [json2pbField, json2pb, single, message, if_true, Bool.false_eq_true, if_false]

theorem field_edit {m : Msg (Scalar F)} (ok : (json2pbField lib fl sch v d f m).1 = some 0) :
    FieldEdit lib fl sch d f v := by
  have done : ∀ m', (json2pbField lib fl sch v d f m').1 = some 0 := fun m' =>
    (local_field.status m' m).trans ok
  have of_scalar (full : v.isNull = false) (single : ¬ f.isRepeated = true)
      (scalar : ¬ f.cppType = .message)
      (eq : json2pbField lib fl sch v d f = setScalar lib fl d f v) : FieldEdit lib fl sch d f v := by
    rw [eq] at done
    obtain ⟨x, sets⟩ := setScalar_done done
    exact .sets full (Bool.eq_false_of_not_eq_true single) scalar x (by rwa [eq])
  cases v with
  | null =>
    refine .keeps rfl fun m => ?_
    simp only [json2pbField]
    split <;> rfl
  | scalar s =>
    by_cases many : f.isRepeated = true
    · exact absurd (done m) (by simp [json2pbField, many])
    by_cases message : f.cppType = .message
    · exact absurd (done m) (by simp [json2pbField, many, message])
    exact of_scalar rfl many message (by funext m; simp [json2pbField, many, message])
  | array size item =>
    by_cases many : f.isRepeated = true
    · have adds : ∃ ys, ∀ m n, (json2pbField lib fl sch (.array size item) d f m).2 n =
          if n = f.number then m n ++ ys else m n := by
        simp only [json2pbField, many, if_true]
        split_ifs
        · have locals : ∀ i ∈ List.range size, Local (itemBody lib fl sch f item i) :=
            fun i _ => local_itemBody i
          exact adds_append locals fun i _ => adds_itemBody i
        · exact adds_append (fun i _ => local_addScalar) fun i _ => adds_addScalar
      obtain ⟨ys, eq⟩ := adds
      exact .appends rfl many ys eq
    by_cases message : f.cppType = .message
    · exact absurd (done m) (by simp [json2pbField, many, message])
    exact of_scalar rfl many message (by funext m; simp [json2pbField, many, message])
  | object member =>
    by_cases many : f.isRepeated = true
    · exact absurd (done m) (by simp [json2pbField, many])
    by_cases message : f.cppType = .message
    · have single := Bool.eq_false_of_not_eq_true many
      refine .merges rfl single message (fun s => ?_) fun m => ?_
      · have inner := done fun _ => [.message s]
        rw [field_message single message] at inner
        exact inner
      · rw [field_message single message]
        rfl
    exact of_scalar rfl many message (by funext m; simp [json2pbField, many, message])

/-- The field is set, and with it the other members of its `oneof` are cleared. -/
def Clears (d : Descriptor D (Scalar F)) (f : FieldDescriptor D (Scalar F)) (v : Json S) (n : ℕ) :
    Prop :=
  v.isNull = false ∧ f.isRepeated = false ∧ d.sibling f n = true

theorem edit_other (edit : FieldEdit lib fl sch d f v) {n : ℕ} (ne : n ≠ f.number) :
    (Clears d f v n ∧ ∀ m, (json2pbField lib fl sch v d f m).2 n = []) ∨
      ¬ Clears d f v n ∧ ∀ m, (json2pbField lib fl sch v d f m).2 n = m n := by
  unfold Clears
  have of_put (full : v.isNull = false) (single : f.isRepeated = false)
      (put_eq : ∀ m, ∃ x, (json2pbField lib fl sch v d f m).2 = putField d f m x) :
      (d.sibling f n = true ∧ ∀ m, (json2pbField lib fl sch v d f m).2 n = []) ∨
        ¬ d.sibling f n = true ∧ ∀ m, (json2pbField lib fl sch v d f m).2 n = m n := by
    by_cases sib : d.sibling f n = true
    · refine .inl ⟨sib, fun m => ?_⟩
      obtain ⟨x, eq⟩ := put_eq m
      rw [eq, putField_of_ne ne, if_pos sib]
    · refine .inr ⟨sib, fun m => ?_⟩
      obtain ⟨x, eq⟩ := put_eq m
      rw [eq, putField_of_ne ne, if_neg sib]
  cases edit with
  | keeps null eq => exact .inr ⟨by simp [null], fun m => by rw [eq]⟩
  | sets full single scalar x eq =>
    simpa [full, single] using of_put full single fun m => ⟨x, eq m⟩
  | merges full single message done eq =>
    simpa [full, single] using of_put full single fun m => ⟨_, eq m⟩
  | appends full many ys eq => exact .inr ⟨by simp [many], fun m => by rw [eq, if_neg ne]⟩

theorem subMessage_eq (x : List (Node (Scalar F))) : subMessage x = Msg.new ∨ x = [.message (subMessage x)] := by
  match x with
  | [.message s] => exact .inr rfl
  | [] => exact .inl rfl
  | [.scalar v] => exact .inl rfl
  | a :: _ :: _ => exact .inl (by cases a <;> rfl)

/-- What happens to the field itself: it forgets `x` unless that is kept in part or appended to. -/
theorem edit_own (edit : FieldEdit lib fl sch d f v) {x : List (Node (Scalar F))}
    (inner : (∀ m, (json2pb lib fl sch v f.messageType m).1 = some 0) →
      ∀ s, (json2pb lib fl sch v f.messageType s).2 =
        (json2pb lib fl sch v f.messageType Msg.new).2 ↔ Overwrites sch v f.messageType s) :
    (json2pbField lib fl sch v d f fun _ => x).2 f.number =
        (json2pbField lib fl sch v d f fun _ => []).2 f.number ↔
      x = [] ∨ v.isNull = false ∧ f.isRepeated = false ∧
        (f.cppType = .message → ∀ s, x = [.message s] → Overwrites sch v f.messageType s) := by
  cases edit with
  | keeps null eq => simp [eq, null]
  | sets full single scalar y eq => simp [eq, full, single, scalar]
  | merges full single message done eq =>
    have same := inner done (subMessage x)
    simp only [eq, putField_self, full, single, message, true_and, forall_const, List.cons.injEq,
      Node.message.injEq, and_true]
    rw [show subMessage ([] : List (Node (Scalar F))) = Msg.new from rfl, same]
    constructor
    · intro whole
      right
      rintro s rfl
      exact whole
    · rintro (rfl | whole)
      · exact same.mp rfl
      · rcases subMessage_eq x with fresh | held
        · rw [fresh] at same ⊢
          exact same.mp rfl
        · exact whole _ held
  | appends full many ys eq => simp [eq, many]

/-- Edits of one field: those of the other fields forget it or keep it. -/
theorem edit_plain {es : List (FieldDescriptor D (Scalar F))} {member : List UInt8 → Json S}
    (edit : ∀ f ∈ es, FieldEdit lib fl sch d f (member f.name)) {n : ℕ} :
    ∀ f ∈ es, n ≠ f.number →
      (Forgets (editAt (fun f m => json2pbField lib fl sch (member f.name) d f m) n) f ↔
        Clears d f (member f.name) n) ∧
      (Forgets (editAt (fun f m => json2pbField lib fl sch (member f.name) d f m) n) f ∨
        Keeps (editAt (fun f m => json2pbField lib fl sch (member f.name) d f m) n) f) := by
  intro f mem ne
  rcases edit_other (edit f mem) ne with ⟨clears, eq⟩ | ⟨clears, eq⟩
  · have forgets : Forgets (editAt (fun f m => json2pbField lib fl sch (member f.name) d f m) n) f :=
      fun x y => (eq _).trans (eq _).symm
    exact ⟨⟨fun _ => clears, fun _ => forgets⟩, .inl forgets⟩
  · refine ⟨⟨fun forgets => ?_, fun c => absurd c clears⟩, .inr fun x => eq _⟩
    have same := forgets [] [.message Msg.new]
    simp [editAt, eq] at same

/-- Where `json2pb` gets through, the message is as if it had been new exactly when all it held is
overwritten. -/
theorem json2pb_eq_iff {t : D} {m : Msg (Scalar F)} (ok : (json2pb lib fl sch v t m).1 = some 0) :
    (json2pb lib fl sch v t m).2 = (json2pb lib fl sch v t Msg.new).2 ↔ Overwrites sch v t m := by
  induction v generalizing t m with
  | null => simp [json2pb] at ok
  | scalar s => simp [json2pb] at ok
  | array size item => simp [json2pb] at ok
  | object member ih =>
    simp only [json2pb] at ok ⊢
    have locals : ∀ f ∈ allFields (sch t), Local fun m =>
      json2pbField lib fl sch (member f.name) (sch t) f m := fun f _ => local_field
    have ok' := ((Local.steps locals).status Msg.new m).trans ok
    obtain ⟨done, values⟩ := steps_done locals ok
    obtain ⟨-, values'⟩ := steps_done locals ok'
    have edit : ∀ f ∈ allFields (sch t), FieldEdit lib fl sch (sch t) f (member f.name) :=
      fun f mem => field_edit (done f mem Msg.new)
    have plain := fun n => edit_plain edit (n := n)
    have numbers : ((allFields (sch t)).map FieldDescriptor.number).Nodup := (sch t).nodup
    simp only [Overwrites]
    rw [funext_iff]
    refine forall_congr' fun n => ?_
    rw [values, values']
    by_cases own : ∃ f ∈ allFields (sch t), f.number = n
    · obtain ⟨f, mem, rfl⟩ := own
      have other : ∀ g ∈ allFields (sch t), g ≠ f → f.number ≠ g.number := fun g hg ne same =>
        ne (List.inj_on_of_nodup_map numbers hg mem same.symm)
      rw [edited_eq_iff_of_one (List.Nodup.of_map _ numbers) mem
        fun g hg ne => (plain _ g hg (other g hg ne)).2]
      have own_iff := edit_own (edit f mem) (x := m f.number) fun done s => ih f.name (done s)
      constructor
      · rintro (same | ⟨g, hg, ne, forgets⟩)
        · rcases own_iff.mp same with empty | ⟨full, single, merged⟩
          · exact .inl empty
          · exact .inr ⟨f, mem, full, single, .inr ⟨rfl, merged⟩⟩
        · obtain ⟨full, single, sib⟩ := (plain _ g hg (other g hg ne)).1.mp forgets
          exact .inr ⟨g, hg, full, single, .inl sib⟩
      · rintro (empty | ⟨g, hg, full, single, sib | ⟨same, merged⟩⟩)
        · exact .inl (own_iff.mpr (.inl empty))
        · have ne := sibling_ne sib
          exact .inr ⟨g, hg, fun eq => ne (eq ▸ rfl), (plain _ g hg ne).1.mpr ⟨full, single, sib⟩⟩
        · obtain rfl : g = f := List.inj_on_of_nodup_map numbers hg mem same
          exact .inl (own_iff.mpr (.inr ⟨full, single, merged⟩))
    · have other : ∀ g ∈ allFields (sch t), n ≠ g.number := fun g hg same => own ⟨g, hg, same.symm⟩
      rw [edited_eq_iff fun g hg => (plain _ g hg (other g hg)).2]
      apply or_congr Iff.rfl
      constructor
      · rintro ⟨g, hg, forgets⟩
        obtain ⟨full, single, sib⟩ := (plain _ g hg (other g hg)).1.mp forgets
        exact ⟨g, hg, full, single, .inl sib⟩
      · rintro ⟨g, hg, full, single, sib | ⟨same, -⟩⟩
        · exact ⟨g, hg, (plain _ g hg (other g hg)).1.mpr ⟨full, single, sib⟩⟩
        · exact absurd same.symm (other g hg)

theorem json2pb_status {t : D} (m m' : Msg (Scalar F)) :
    (json2pb lib fl sch v t m).1 = (json2pb lib fl sch v t m').1 := by
  cases v with
  | null => rfl
  | scalar s => rfl
  | array size item => rfl
  | object member =>
    simp only [json2pb]
    exact (Local.steps fun f _ => local_field).status m m'

theorem json2pbText_status {t : D} (txt : List UInt8) (m m' : Msg (Scalar F)) :
    (json2pbText lib fl sch txt t m).1 = (json2pbText lib fl sch txt t m').1 := by
  unfold json2pbText
  cases lib.read txt with
  | none => rfl
  | some v => exact json2pb_status m m'

theorem json2pbText_eq_iff {t : D} {txt : List UInt8} {m : Msg (Scalar F)}
    (ok : (json2pbText lib fl sch txt t m).1 = some 0) :
    (json2pbText lib fl sch txt t m).2 = (json2pbText lib fl sch txt t Msg.new).2 ↔
      ∀ v, lib.read txt = some v → Overwrites sch v t m := by
  unfold json2pbText at ok ⊢
  cases read : lib.read txt with
  | none => simp [read] at ok
  | some v =>
    simp only [read] at ok
    simpa using json2pb_eq_iff ok

end Overwriting

end Conet.Base.Pb2json
