/- Module: Conet/Base/JsonMeaning
   source: base/src/pb2json.cpp
   digest: The message that a JSON value stands for, and json2pb into a new message. -/

import Conet.Base.Pb2json

set_option autoImplicit false
set_option relaxedAutoImplicit false

namespace Conet.Base.Pb2json

open Conet.Lib.DynMessage Conet.Base.QueryString

variable {D F S : Type}

/-! ### Messages by their JSON values -/

/-- A later field of the list is set, and clears the field `n` of its `oneof`. -/
def cleared (d : Descriptor D (Scalar F)) (given : FieldDescriptor D (Scalar F) → Bool)
    (later : List (FieldDescriptor D (Scalar F))) (n : ℕ) : Bool :=
  later.any fun g => given g && !g.isRepeated && d.sibling g n

/-- A message of the type, by the values of the fields and which of them are given at all. -/
structure Filled (d : Descriptor D (Scalar F)) (given : FieldDescriptor D (Scalar F) → Bool)
    (values : FieldDescriptor D (Scalar F) → List (Node (Scalar F)) → Prop) (m : Msg (Scalar F)) :
    Prop where
  unknown : ∀ n, n ∉ (allFields d).map FieldDescriptor.number → m n = []
  fields : ∀ front f later, allFields d = front ++ f :: later → ∃ xs, values f xs ∧
    m f.number = if cleared d given later f.number then [] else xs

section Filled

variable {d : Descriptor D (Scalar F)} {given : FieldDescriptor D (Scalar F) → Bool}
  {values values' : FieldDescriptor D (Scalar F) → List (Node (Scalar F)) → Prop} {m m' : Msg (Scalar F)}

theorem Filled.mono (filled : Filled d given values m)
    (sub : ∀ f ∈ allFields d, ∀ xs, values f xs → values' f xs) : Filled d given values' m where
  unknown := filled.unknown
  fields front f later split := by
    obtain ⟨xs, holds, value⟩ := filled.fields front f later split
    exact ⟨xs, sub f (by simp [split]) xs holds, value⟩

theorem Filled.exists_values (filled : Filled d given values m) :
    ∀ f ∈ allFields d, ∃ xs, values f xs := by
  intro f hf
  obtain ⟨front, later, split⟩ := List.append_of_mem hf
  obtain ⟨xs, holds, -⟩ := filled.fields front f later split
  exact ⟨xs, holds⟩

/-- A message is determined by the values of its fields. -/
theorem Filled.unique (filled : Filled d given values m) (filled' : Filled d given values m')
    (one : ∀ f ∈ allFields d, ∀ xs ys, values f xs → values f ys → xs = ys) : m = m' := by
  ext1 n
  by_cases own : n ∈ (allFields d).map FieldDescriptor.number
  · obtain ⟨f, hf, rfl⟩ := List.mem_map.mp own
    obtain ⟨front, later, split⟩ := List.append_of_mem hf
    obtain ⟨xs, holds, value⟩ := filled.fields front f later split
    obtain ⟨ys, holds', value'⟩ := filled'.fields front f later split
    rw [value, value', one f hf xs ys holds holds']
  · rw [filled.unknown n own, filled'.unknown n own]

/-- Where a field that a later one clears is empty anyway, every field holds its values. -/
theorem filled_of_clear
    (clear : ∀ f ∈ allFields d, ∀ g ∈ allFields d, given g = true → g.isRepeated = false →
      d.sibling g f.number = true → m f.number = [] ∧ ∀ xs, values f xs → xs = []) :
    Filled d given values m ↔ (∀ n, n ∉ (allFields d).map FieldDescriptor.number → m n = []) ∧
      ∀ f ∈ allFields d, values f (m f.number) := by
  have empty : ∀ f ∈ allFields d, ∀ later, (∀ g ∈ later, g ∈ allFields d) →
      cleared d given later f.number = true → m f.number = [] ∧ ∀ xs, values f xs → xs = [] := by
    intro f hf later sub clears
    obtain ⟨g, hg, set⟩ := List.any_eq_true.mp clears
    simp only [Bool.and_eq_true, Bool.not_eq_true'] at set
    exact clear f hf g (sub g hg) set.1.1 set.1.2 set.2
  constructor
  · rintro ⟨unknown, fields⟩
    refine ⟨unknown, fun f hf => ?_⟩
    obtain ⟨front, later, split⟩ := List.append_of_mem hf
    obtain ⟨xs, holds, value⟩ := fields front f later split
    split_ifs at value with clears
    · have none := (empty f hf later (fun g hg => by simp [split, hg]) clears).2 xs holds
      rw [value, ← none]
      exact holds
    · rwa [value]
  · rintro ⟨unknown, fields⟩
    refine ⟨unknown, fun front f later split => ?_⟩
    have hf : f ∈ allFields d := by simp [split]
    refine ⟨m f.number, fields f hf, ?_⟩
    split_ifs with clears
    · exact (empty f hf later (fun g hg => by simp [split, hg]) clears).1
    · rfl

end Filled

/-- What a field holds that is set to `v`. -/
def held (f : FieldDescriptor D (Scalar F)) (v : Scalar F) : List (Node (Scalar F)) :=
  if f.absent v then [] else [.scalar v]

section Meaning

variable (lib : JsonLib S) (fl : Floats F) (sch : D → Descriptor D (Scalar F))

mutual

/-- The values that a JSON value stands for as the value of a field. -/
def FieldMeans : Json S → FieldDescriptor D (Scalar F) → List (Node (Scalar F)) → Prop
  | .null, f, xs => f.isRequired = false ∧ xs = []
  | .scalar s, f, xs => f.isRepeated = false ∧ f.cppType ≠ .message ∧
      ∃ v, jsonScalar lib fl f (.scalar s) = .ok v ∧ xs = held f v
  | .array size item, f, xs => f.isRepeated = true ∧
      List.Forall₂ (fun i x => ItemMeans (item i) f x) (List.range size) xs
  | .object member, f, xs => f.isRepeated = false ∧ f.cppType = .message ∧ ∃ s, xs = [.message s] ∧
      Filled (sch f.messageType) (fun g => !(member g.name).isNull)
        (fun g ys => FieldMeans (member g.name) g ys) s

/-- The same for an item of a repeated field. -/
def ItemMeans : Json S → FieldDescriptor D (Scalar F) → Node (Scalar F) → Prop
  | .object member, f, .message s => f.cppType = .message ∧
      Filled (sch f.messageType) (fun g => !(member g.name).isNull)
        (fun g ys => FieldMeans (member g.name) g ys) s
  | v, f, .scalar x => f.cppType ≠ .message ∧ jsonScalar lib fl f v = .ok x
  | _, _, .message _ => False

end

/-- The message that a JSON value stands for. -/
def Means (v : Json S) (t : D) (m : Msg (Scalar F)) : Prop :=
  match v with
  | .object member => Filled (sch t) (fun g => !(member g.name).isNull)
      (fun g ys => FieldMeans lib fl sch (member g.name) g ys) m
  | _ => False

end Meaning

section Reading

variable {lib : JsonLib S} {fl : Floats F} {sch : D → Descriptor D (Scalar F)}
  {d : Descriptor D (Scalar F)} {f : FieldDescriptor D (Scalar F)} {v : Json S}
  {member : List UInt8 → Json S} {m : Msg (Scalar F)} {xs : List (Node (Scalar F))}

/-- The field `f` gets through, and holds `xs` where it held nothing. -/
def Reads (lib : JsonLib S) (fl : Floats F) (sch : D → Descriptor D (Scalar F))
    (d : Descriptor D (Scalar F)) (v : Json S) (f : FieldDescriptor D (Scalar F))
    (xs : List (Node (Scalar F))) : Prop :=
  (json2pbField lib fl sch v d f Msg.new).1 = some 0 ∧
    (json2pbField lib fl sch v d f Msg.new).2 f.number = xs

/-- What a field that gets through does to the others. -/
theorem field_others (ok : (json2pbField lib fl sch v d f Msg.new).1 = some 0) {n : ℕ}
    (ne : n ≠ f.number) (m : Msg (Scalar F)) : (json2pbField lib fl sch v d f m).2 n =
      if !v.isNull && !f.isRepeated && d.sibling f n then [] else m n := by
  have clears : Clears d f v n ↔ (!v.isNull && !f.isRepeated && d.sibling f n) = true := by
    simp [Clears, and_assoc]
  rcases edit_other (field_edit ok) ne with ⟨clear, eq⟩ | ⟨keep, eq⟩
  · rw [eq, if_pos (clears.mp clear)]
  · rw [eq, if_neg fun clear => keep (clears.mpr clear)]

theorem fields_filled (ok : ∀ f ∈ allFields d,
      (json2pbField lib fl sch (member f.name) d f Msg.new).1 = some 0) :
    Filled d (fun g => !(member g.name).isNull)
      (fun f xs => (json2pbField lib fl sch (member f.name) d f Msg.new).2 f.number = xs)
      (steps (fun f m => json2pbField lib fl sch (member f.name) d f m) (allFields d) Msg.new).2 := by
  have locals : ∀ f ∈ allFields d, Local fun m =>
    json2pbField lib fl sch (member f.name) d f m := fun f _ => local_field
  obtain ⟨-, values⟩ := steps_done locals ((steps_ok_iff (m := Msg.new) locals).mpr ok)
  have others : ∀ (es : List (FieldDescriptor D (Scalar F))) (n : ℕ), (∀ g ∈ es, g ∈ allFields d) →
      (∀ g ∈ es, n ≠ g.number) → ∀ x : List (Node (Scalar F)),
      edited (editAt (fun f m => json2pbField lib fl sch (member f.name) d f m) n) es x =
        if cleared d (fun g => !(member g.name).isNull) es n then [] else x := by
    intro es n sub ne x
    apply edited_reset
    · intro g hg clear x
      exact (field_others (ok g (sub g hg)) (ne g hg) _).trans (if_pos clear)
    · intro g hg keep x
      exact (field_others (ok g (sub g hg)) (ne g hg) _).trans (if_neg (by rw [keep]; exact Bool.false_ne_true))
  constructor
  · intro n fresh
    rw [values, others _ n (fun g hg => hg) fun g hg same => fresh (List.mem_map.mpr ⟨g, hg, same.symm⟩)]
    exact ite_self []
  · intro front f later split
    have numbers : ((allFields d).map FieldDescriptor.number).Nodup := d.nodup
    rw [split, List.map_append, List.map_cons, List.nodup_append, List.nodup_cons] at numbers
    obtain ⟨-, ⟨after, -⟩, before⟩ := numbers
    have sub : ∀ g ∈ front ++ f :: later, g ∈ allFields d := fun g hg => split ▸ hg
    have first := others front f.number (fun g hg => sub g (List.mem_append_left _ hg)) fun g hg same =>
      before _ (List.mem_map_of_mem hg) _ List.mem_cons_self same.symm
    have last := others later f.number
      (fun g hg => sub g (List.mem_append_right _ (List.mem_cons_of_mem f hg)))
      fun g hg same => after (List.mem_map.mpr ⟨g, hg, same.symm⟩)
    refine ⟨_, rfl, ?_⟩
    rw [values, split, edited, List.foldl_append, List.foldl_cons, ← edited, ← edited, first, last]
    rw [show (Msg.new : Msg (Scalar F)) f.number = [] from rfl, ite_self]
    rfl

/-- Where each field is read as it should be, the message is. -/
theorem filled_iff (fields : ∀ f ∈ allFields d, ∀ xs,
      Reads lib fl sch d (member f.name) f xs ↔ FieldMeans lib fl sch (member f.name) f xs) :
    steps (fun f m => json2pbField lib fl sch (member f.name) d f m) (allFields d) Msg.new =
        (some 0, m) ↔
      Filled d (fun g => !(member g.name).isNull)
        (fun g ys => FieldMeans lib fl sch (member g.name) g ys) m := by
  have locals : ∀ f ∈ allFields d, Local fun m =>
    json2pbField lib fl sch (member f.name) d f m := fun f _ => local_field
  constructor
  · intro result
    have ok := (steps_ok_iff locals).mp (congrArg Prod.fst result)
    have filled := fields_filled ok
    rw [result] at filled
    exact filled.mono fun f hf xs value => (fields f hf xs).mp ⟨ok f hf, value⟩
  · intro filled
    have ok : ∀ f ∈ allFields d, (json2pbField lib fl sch (member f.name) d f Msg.new).1 = some 0 := by
      intro f hf
      obtain ⟨xs, means⟩ := filled.exists_values f hf
      exact ((fields f hf xs).mpr means).1
    have read := (fields_filled ok).mono fun f hf xs value => (fields f hf xs).mp ⟨ok f hf, value⟩
    apply Prod.ext ((steps_ok_iff locals).mpr ok)
    apply read.unique filled
    intro f hf xs ys means means'
    exact ((fields f hf xs).mpr means).2.symm.trans ((fields f hf ys).mpr means').2

/-- The items of a repeated field, read one after another. -/
theorem items_read {body : ℕ → Msg (Scalar F) → Status × Msg (Scalar F)}
    {P : ℕ → Node (Scalar F) → Prop} {is : List ℕ}
    (adds : ∀ i x, P i x → ∀ m, body i m = (some 0, addField f m x))
    (gets : ∀ i m, (body i m).1 = some 0 → ∃ x, P i x) :
    ((steps body is m).1 = some 0 ∧ (steps body is m).2 f.number = m f.number ++ xs) ↔
      List.Forall₂ P is xs := by
  have result : ∀ {ys : List (Node (Scalar F))}, List.Forall₂ P is ys → ∀ m,
      (steps body is m).1 = some 0 ∧ (steps body is m).2 f.number = m f.number ++ ys := by
    intro ys all
    induction all with
    | nil => exact fun m => ⟨rfl, (List.append_nil _).symm⟩
    | cons head _ ih =>
      intro m
      have first := adds _ _ head m
      obtain ⟨ok, value⟩ := ih (addField f m _)
      rw [steps_cons_ok (congrArg Prod.fst first), first]
      exact ⟨ok, by rw [value, addField_self, List.append_assoc]; rfl⟩
  constructor
  · rintro ⟨ok, value⟩
    have some_items : ∃ ys, List.Forall₂ P is ys := by
      clear value result
      induction is generalizing m with
      | nil => exact ⟨[], .nil⟩
      | cons i is ih =>
        have head : (body i m).1 = some 0 := by
          by_contra fail
          exact fail (steps_cons_fail fail ▸ ok)
        obtain ⟨x, first⟩ := gets i m head
        rw [steps_cons_ok head] at ok
        obtain ⟨ys, rest⟩ := ih ok
        exact ⟨x :: ys, .cons first rest⟩
    obtain ⟨ys, all⟩ := some_items
    have same := (result all m).2.symm.trans value
    rwa [← List.append_cancel_left same]
  · exact fun all => result all m

theorem itemMeans_scalar (scalar : f.cppType ≠ .message) {x : Node (Scalar F)} :
    ItemMeans lib fl sch v f x ↔ ∃ w, x = .scalar w ∧ jsonScalar lib fl f v = .ok w := by
  cases x with
  | scalar w => cases v <;> simp [ItemMeans, scalar]
  | message s => cases v <;> simp [ItemMeans, scalar]

theorem itemMeans_message (message : f.cppType = .message) {x : Node (Scalar F)} :
    ItemMeans lib fl sch v f x ↔ ∃ s, x = .message s ∧ Means lib fl sch v f.messageType s := by
  cases x with
  | scalar w => cases v <;> simp [ItemMeans, message]
  | message s => cases v <;> simp [ItemMeans, Means, message]

theorem jsonScalar_structure (v : Json S) (structured : (∃ size item, v = .array size item) ∨
    ∃ member, v = .object member) (x : Scalar F) : jsonScalar lib fl f v ≠ .ok x := by
  unfold jsonScalar
  rcases structured with ⟨size, item, rfl⟩ | ⟨member, rfl⟩ <;> cases f.cppType <;> simp [asString]

theorem reads_setScalar
    (eq : ∀ m, json2pbField lib fl sch v d f m = setScalar lib fl d f v m) :
    Reads lib fl sch d v f xs ↔ ∃ x, jsonScalar lib fl f v = .ok x ∧ xs = held f x := by
  unfold Reads
  rw [eq, setScalar]
  cases read : jsonScalar lib fl f v with
  | ok x =>
    have value : (setField d f Msg.new x) f.number = held f x := putField_self _
    simp only [value, true_and, Except.ok.injEq, exists_eq_left']
    exact eq_comm
  | error st => simp [jsonScalar_error read]

theorem reads_object (single : f.isRepeated = false) (message : f.cppType = .message) :
    Reads lib fl sch d (.object member) f xs ↔ ∃ s, xs = [.message s] ∧
      json2pb lib fl sch (.object member) f.messageType Msg.new = (some 0, s) := by
  unfold Reads
  rw [field_message single message]
  simp only [mutableField, putField_self]
  constructor
  · rintro ⟨ok, rfl⟩
    exact ⟨_, rfl, Prod.ext ok rfl⟩
  · rintro ⟨s, rfl, result⟩
    have fresh : subMessage ((Msg.new : Msg (Scalar F)) f.number) = Msg.new := rfl
    rw [fresh, result]
    exact ⟨rfl, rfl⟩

theorem reads_array {size : ℕ} {item : ℕ → Json S} (many : f.isRepeated = true)
    (inner : f.cppType = .message → ∀ i member, item i = .object member → ∀ s,
      json2pb lib fl sch (.object member) f.messageType Msg.new = (some 0, s) ↔
        Means lib fl sch (.object member) f.messageType s) :
    Reads lib fl sch d (.array size item) f xs ↔
      List.Forall₂ (fun i x => ItemMeans lib fl sch (item i) f x) (List.range size) xs := by
  by_cases message : f.cppType = .message
  · have eq : json2pbField lib fl sch (.array size item) d f Msg.new =
        steps (itemBody lib fl sch f item) (List.range size) Msg.new := by
      simp only [json2pbField, many, message, if_true]
      rfl
    rw [Reads, eq]
    apply items_read
    · intro i x holds m
      obtain ⟨s, rfl, means⟩ := (itemMeans_message message).mp holds
      cases here : item i with
      | object member =>
        rw [here] at means
        simp [itemBody, here, (inner message i member here s).mpr means]
      | _ => simp [here, Means] at means
    · intro i m ok
      cases here : item i with
      | object member =>
        simp only [itemBody, here] at ok
        have means := (inner message i member here _).mp (Prod.ext ok rfl)
        exact ⟨_, (itemMeans_message message).mpr ⟨_, rfl, means⟩⟩
      | _ => simp [itemBody, here] at ok
  · have eq : json2pbField lib fl sch (.array size item) d f Msg.new =
        steps (fun i m => addScalar lib fl f (item i) m) (List.range size) Msg.new := by
      simp only [json2pbField, many, message, if_true, if_false]
    rw [Reads, eq]
    apply items_read
    · intro i x holds m
      obtain ⟨w, rfl, read⟩ := (itemMeans_scalar message).mp holds
      simp [addScalar, read]
    · intro i m ok
      cases read : jsonScalar lib fl f (item i) with
      | ok w => exact ⟨.scalar w, (itemMeans_scalar message).mpr ⟨w, rfl, read⟩⟩
      | error st => exact absurd ok (by simpa [addScalar, read] using jsonScalar_error read)

/-- What a field holds after its JSON value is read. -/
theorem field_reads_iff : Reads lib fl sch d v f xs ↔ FieldMeans lib fl sch v f xs := by
  induction v generalizing d f xs with
  | null =>
    rw [Reads, FieldMeans, json2pbField]
    by_cases required : f.isRequired = true
    · simp [required]
    · simp [required, Msg.new, eq_comm]
  | scalar s =>
    rw [FieldMeans]
    by_cases many : f.isRepeated = true
    · simp [Reads, json2pbField, many]
    by_cases message : f.cppType = .message
    · simp [Reads, json2pbField, many, message]
    rw [reads_setScalar fun m => by simp [json2pbField, many, message]]
    simp [many, message]
  | array size item ih =>
    rw [FieldMeans]
    by_cases many : f.isRepeated = true
    · have inner : f.cppType = .message → ∀ i member, item i = .object member → ∀ s,
          json2pb lib fl sch (.object member) f.messageType Msg.new = (some 0, s) ↔
            Means lib fl sch (.object member) f.messageType s := by
        intro message i member here s
        -- an item is read as a singular field of its type would be
        let f' : FieldDescriptor D (Scalar F) := { f with isRepeated := false }
        have single : Reads lib fl sch d (item i) f' [.message s] ↔
          FieldMeans lib fl sch (item i) f' [.message s] := ih i
        have object : Reads lib fl sch d (.object member) f' [.message s] ↔ _ :=
          reads_object rfl message
        rw [here, object] at single
        simpa [FieldMeans, Means, message, f'] using single
      rw [reads_array many inner, and_iff_right many]
    · have structured : ∀ x, jsonScalar lib fl f (.array size item) ≠ .ok x :=
        jsonScalar_structure _ (.inl ⟨size, item, rfl⟩)
      by_cases message : f.cppType = .message
      · simp [Reads, json2pbField, many, message]
      · rw [reads_setScalar fun m => by simp [json2pbField, many, message]]
        simp [many, structured]
  | object member ih =>
    rw [FieldMeans]
    by_cases many : f.isRepeated = true
    · simp [Reads, json2pbField, many]
    by_cases message : f.cppType = .message
    · have inner : ∀ s, json2pb lib fl sch (.object member) f.messageType Msg.new = (some 0, s) ↔
          Filled (sch f.messageType) (fun g => !(member g.name).isNull)
            (fun g ys => FieldMeans lib fl sch (member g.name) g ys) s := by
        intro s
        rw [json2pb]
        exact filled_iff fun g _ xs => ih g.name
      rw [reads_object (Bool.eq_false_of_not_eq_true many) message]
      simp [inner, many, message]
    · have structured : ∀ x, jsonScalar lib fl f (.object member) ≠ .ok x :=
        jsonScalar_structure _ (.inr ⟨member, rfl⟩)
      rw [reads_setScalar fun m => by simp [json2pbField, many, message]]
      simp [message, structured]

/-- What `json2pb` makes of a new message: the message that the JSON value stands for. -/
theorem json2pb_iff {t : D} :
    json2pb lib fl sch v t Msg.new = (some 0, m) ↔ Means lib fl sch v t m := by
  cases v with
  | object member =>
    rw [json2pb, Means]
    exact filled_iff fun f _ xs => field_reads_iff
  | _ => simp [json2pb, Means]

end Reading

end Conet.Base.Pb2json
