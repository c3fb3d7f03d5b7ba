/- Module: Conet/Lib/DynMessage
   source: none (library)
   digest: Messages that are filled by reflection: their fields, the edits of them, and which edits
   forget what a message held before. -/

import Mathlib.Data.Int.Notation
import Mathlib.Data.List.Nodup

set_option autoImplicit false
set_option relaxedAutoImplicit false

namespace Conet.Lib.DynMessage

/-- One value of a field: a scalar, or a message by the values of its fields. -/
inductive Node (V : Type)
  | scalar (v : V)
  | message (fields : ℕ → List (Node V))

/-- The values of every field, by its number. A singular field has one value at most. -/
abbrev Msg (V : Type) := ℕ → List (Node V)

/-- What `New` makes. -/
def Msg.new {V : Type} : Msg V := fun _ => []

inductive CppType
  | int32
  | int64
  | uint32
  | uint64
  | double
  | float
  | bool
  | enum
  | string
  | message
  deriving DecidableEq

/-- A field, with `D` as the names of message types. -/
structure FieldDescriptor (D V : Type) where
  number : ℕ
  name : List UInt8
  cppType : CppType
  isRequired : Bool
  isRepeated : Bool
  /-- `TYPE_BYTES` among the strings -/
  isBytes : Bool
  oneof : Option ℕ
  /-- the values that are the same as none, the default of a field without presence -/
  absent : V → Bool
  enumNumber : ℤ → Bool
  messageType : D

structure Descriptor (D V : Type) where
  extensions : List (FieldDescriptor D V)
  fields : List (FieldDescriptor D V)
  nodup : ((extensions ++ fields).map FieldDescriptor.number).Nodup

variable {D V : Type}

/-- The number belongs to another member of the field's `oneof`. -/
def Descriptor.sibling (d : Descriptor D V) (f : FieldDescriptor D V) (n : ℕ) : Bool :=
  f.oneof.isSome && n != f.number && d.fields.any fun g => g.oneof == f.oneof && g.number == n

section Reflection

variable (d : Descriptor D V) (f : FieldDescriptor D V) (m : Msg V)

/-- The field gets the values `x`, the others of its `oneof` get none. -/
def putField (x : List (Node V)) : Msg V := fun n =>
  if n = f.number then x else if d.sibling f n then [] else m n

/-- `Set…`. -/
def setField (v : V) : Msg V := putField d f m (if f.absent v then [] else [.scalar v])

/-- `Add…` and `AddMessage`. -/
def addField (x : Node V) : Msg V := Function.update m f.number (m f.number ++ [x])

/-- The message that `MutableMessage` gives out. -/
def subMessage : List (Node V) → Msg V
  | [.message s] => s
  | _ => Msg.new

/-- `MutableMessage`, with the message edited to `s`. -/
def mutableField (s : Msg V) : Msg V := putField d f m [.message s]

end Reflection

/-! ### Edits at one field -/

/-- What the edits `es` make of the values `x`. -/
def edited {E X : Type} (e : E → X → X) (es : List E) (x : X) : X := es.foldl (fun x i => e i x) x

section Edits

variable {E X : Type} (e : E → X → X)

/-- The edit forgets the values before. -/
def Forgets (i : E) : Prop := ∀ x y, e i x = e i y

/-- The edit leaves the values as they are. -/
def Keeps (i : E) : Prop := ∀ x, e i x = x

variable {e} {es : List E} {i : E} {x y : X}

theorem edited_cons : edited e (i :: es) x = edited e es (e i x) := rfl

theorem edited_of_forgets (mem : i ∈ es) (forget : Forgets e i) : edited e es x = edited e es y := by
  induction es generalizing x y with
  | nil => simp at mem
  | cons j es ih =>
    rw [edited_cons, edited_cons]
    rcases List.mem_cons.mp mem with rfl | later
    · rw [forget x y]
    · exact ih later

theorem edited_of_keeps (keep : ∀ j ∈ es, Keeps e j) : edited e es x = x := by
  induction es with
  | nil => rfl
  | cons j es ih =>
    rw [edited_cons, keep j List.mem_cons_self]
    exact ih fun k hk => keep k (List.mem_cons_of_mem j hk)

/-- Where every edit forgets or keeps, two beginnings end alike if they are the same or one edit
forgets. -/
theorem edited_eq_iff (plain : ∀ j ∈ es, Forgets e j ∨ Keeps e j) :
    edited e es x = edited e es y ↔ x = y ∨ ∃ j ∈ es, Forgets e j := by
  by_cases forget : ∃ j ∈ es, Forgets e j
  · obtain ⟨j, mem, forgets⟩ := forget
    exact ⟨fun _ => .inr ⟨j, mem, forgets⟩, fun _ => edited_of_forgets mem forgets⟩
  · have keep : ∀ j ∈ es, Keeps e j := fun j mem =>
      (plain j mem).resolve_left fun forgets => forget ⟨j, mem, forgets⟩
    rw [edited_of_keeps keep, edited_of_keeps keep]
    exact ⟨.inl, fun same => same.resolve_right forget⟩

theorem edited_of_one (nodup : es.Nodup) (mem : i ∈ es) (keep : ∀ j ∈ es, j ≠ i → Keeps e j) :
    edited e es x = e i x := by
  induction es generalizing x with
  | nil => simp at mem
  | cons j es ih =>
    have rest : ∀ k ∈ es, k ≠ i → Keeps e k := fun k hk => keep k (List.mem_cons_of_mem j hk)
    obtain ⟨fresh, nodup⟩ := List.nodup_cons.mp nodup
    rw [edited_cons]
    by_cases first : j = i
    · subst first
      apply edited_of_keeps
      intro k hk
      exact rest k hk fun same => fresh (same ▸ hk)
    · rw [keep j List.mem_cons_self first]
      exact ih nodup ((List.mem_cons.mp mem).resolve_left (Ne.symm first)) rest

/-- Where every edit but `i` forgets or keeps, two beginnings end alike if `i` makes the same of them
or another edit forgets. -/
theorem edited_eq_iff_of_one (nodup : es.Nodup) (mem : i ∈ es)
    (plain : ∀ j ∈ es, j ≠ i → Forgets e j ∨ Keeps e j) :
    edited e es x = edited e es y ↔ e i x = e i y ∨ ∃ j ∈ es, j ≠ i ∧ Forgets e j := by
  by_cases forget : ∃ j ∈ es, j ≠ i ∧ Forgets e j
  · obtain ⟨j, mem, other, forgets⟩ := forget
    exact ⟨fun _ => .inr ⟨j, mem, other, forgets⟩, fun _ => edited_of_forgets mem forgets⟩
  · have keep : ∀ j ∈ es, j ≠ i → Keeps e j := fun j mem other =>
      (plain j mem other).resolve_left fun forgets => forget ⟨j, mem, other, forgets⟩
    rw [edited_of_one nodup mem keep, edited_of_one nodup mem keep]
    exact ⟨.inl, fun same => same.resolve_right forget⟩

theorem edited_reset {c : E → Bool} {x₀ : X} (reset : ∀ j ∈ es, c j = true → ∀ x, e j x = x₀)
    (keep : ∀ j ∈ es, c j = false → Keeps e j) : edited e es x = if es.any c then x₀ else x := by
  induction es generalizing x with
  | nil => rfl
  | cons j es ih =>
    have rest : ∀ {x : X}, edited e es x = if es.any c then x₀ else x := ih
      (fun k hk => reset k (List.mem_cons_of_mem j hk)) fun k hk => keep k (List.mem_cons_of_mem j hk)
    rw [edited_cons, rest, List.any_cons]
    cases resets : c j with
    | true =>
      rw [reset j List.mem_cons_self resets, Bool.true_or, if_pos rfl]
      exact ite_self x₀
    | false => rw [keep j List.mem_cons_self resets, Bool.false_or]

end Edits

/-! ### Edits that can fail -/

/-- What an edit returns; `none` where it does not. -/
abbrev Status := Option ℤ

/-- The edits `es`, up to the first that does not return 0. -/
def steps {E : Type} (body : E → Msg V → Status × Msg V) : List E → Msg V → Status × Msg V
  | [], m => (some 0, m)
  | i :: es, m =>
    match body i m with
    | (some 0, m) => steps body es m
    | r => r

section Steps

variable {E : Type} {body : E → Msg V → Status × Msg V} {es : List E}

theorem steps_cons_ok {i : E} {m : Msg V} (ok : (body i m).1 = some 0) :
    steps body (i :: es) m = steps body es (body i m).2 := by
  rcases body_eq : body i m with ⟨st, m'⟩
  rw [body_eq] at ok
  subst ok
  simp [steps, body_eq]

theorem steps_cons_fail {i : E} {m : Msg V} (fail : (body i m).1 ≠ some 0) :
    steps body (i :: es) m = body i m := by
  rcases body_eq : body i m with ⟨st, m'⟩
  rw [body_eq] at fail
  simp only [steps, body_eq]
  split
  · rename_i eq
    exact absurd (congrArg Prod.fst eq) fail
  · rfl

/-- What an edit returns does not depend on the message, and what it makes of a field depends on that
field alone. -/
structure Local (body : Msg V → Status × Msg V) : Prop where
  status : ∀ m m', (body m).1 = (body m').1
  values : ∀ m m' n, m n = m' n → (body m).2 n = (body m').2 n

theorem Local.return (st : Status) : Local fun m : Msg V => (st, m) where
  status _ _ := rfl
  values _ _ _ same := same

theorem Local.steps (each : ∀ i ∈ es, Local (body i)) : Local (steps body es) := by
  induction es with
  | nil => exact Local.return (some 0)
  | cons i es ih =>
    have head := each i List.mem_cons_self
    have rest := ih fun j hj => each j (List.mem_cons_of_mem i hj)
    constructor
    · intro m m'
      by_cases ok : (body i m).1 = some 0
      · rw [steps_cons_ok ok, steps_cons_ok (head.status m m' ▸ ok)]
        exact rest.status _ _
      · rw [steps_cons_fail ok, steps_cons_fail (head.status m m' ▸ ok), head.status m m']
    · intro m m' n same
      by_cases ok : (body i m).1 = some 0
      · rw [steps_cons_ok ok, steps_cons_ok (head.status m m' ▸ ok)]
        exact rest.values _ _ n (head.values m m' n same)
      · rw [steps_cons_fail ok, steps_cons_fail (head.status m m' ▸ ok)]
        exact head.values m m' n same

/-- What an edit makes of the field `n`. -/
def editAt (body : E → Msg V → Status × Msg V) (n : ℕ) (i : E) (x : List (Node V)) :
    List (Node V) :=
  (body i fun _ => x).2 n

/-- Edits that all return 0 are done at every field on its own. -/
theorem steps_done {m : Msg V} (each : ∀ i ∈ es, Local (body i))
    (ok : (steps body es m).1 = some 0) :
    (∀ i ∈ es, ∀ m, (body i m).1 = some 0) ∧
      ∀ n, (steps body es m).2 n = edited (editAt body n) es (m n) := by
  induction es generalizing m with
  | nil => exact ⟨by simp, fun n => rfl⟩
  | cons i es ih =>
    have local_i := each i List.mem_cons_self
    have head : (body i m).1 = some 0 := by
      by_contra fail
      exact fail (steps_cons_fail fail ▸ ok)
    rw [steps_cons_ok head] at ok ⊢
    obtain ⟨done, values⟩ := ih (fun j hj => each j (List.mem_cons_of_mem i hj)) ok
    refine ⟨?_, ?_⟩
    · intro j hj m'
      rcases List.mem_cons.mp hj with rfl | hj
      · exact local_i.status m' m ▸ head
      · exact done j hj m'
    · intro n
      rw [values, edited_cons, local_i.values m (fun _ => m n) n rfl]
      rfl

theorem steps_ok_iff {m : Msg V} (each : ∀ i ∈ es, Local (body i)) :
    (steps body es m).1 = some 0 ↔ ∀ i ∈ es, (body i m).1 = some 0 := by
  constructor
  · intro ok i hi
    exact (steps_done each ok).1 i hi m
  · intro ok
    induction es generalizing m with
    | nil => rfl
    | cons i es ih =>
      rw [steps_cons_ok (ok i List.mem_cons_self)]
      apply ih fun j hj => each j (List.mem_cons_of_mem i hj)
      intro j hj
      have same := (each j (List.mem_cons_of_mem i hj)).status
      exact (same _ m).trans (ok j (List.mem_cons_of_mem i hj))

theorem steps_keeps {n : ℕ} (keep : ∀ i ∈ es, ∀ m, (body i m).2 n = m n) (m : Msg V) :
    (steps body es m).2 n = m n := by
  induction es generalizing m with
  | nil => rfl
  | cons i es ih =>
    have head := keep i List.mem_cons_self m
    by_cases ok : (body i m).1 = some 0
    · rw [steps_cons_ok ok, ih fun j hj => keep j (List.mem_cons_of_mem i hj), head]
    · rw [steps_cons_fail ok, head]

/-- Edits that append to a field append to it together. -/
theorem steps_appends {n : ℕ} (each : ∀ i ∈ es, Local (body i))
    (append : ∀ i ∈ es, ∃ ys, ∀ m, (body i m).2 n = m n ++ ys) :
    ∃ ys, ∀ m, (steps body es m).2 n = m n ++ ys := by
  induction es with
  | nil => exact ⟨[], fun m => (List.append_nil _).symm⟩
  | cons i es ih =>
    have status := (each i List.mem_cons_self).status
    obtain ⟨ys, head⟩ := append i List.mem_cons_self
    obtain ⟨zs, rest⟩ := ih (fun j hj => each j (List.mem_cons_of_mem i hj))
      fun j hj => append j (List.mem_cons_of_mem i hj)
    by_cases ok : (body i Msg.new).1 = some 0
    · refine ⟨ys ++ zs, fun m => ?_⟩
      rw [steps_cons_ok ((status m _).trans ok), rest, head, List.append_assoc]
    · refine ⟨ys, fun m => ?_⟩
      rw [steps_cons_fail fun done => ok ((status _ m).trans done), head]

end Steps

section Reflection

variable {d : Descriptor D V} {f : FieldDescriptor D V} {n : ℕ} {m m' : Msg V}

theorem sibling_ne (sib : d.sibling f n = true) : n ≠ f.number := by
  unfold Descriptor.sibling at sib
  simp only [Bool.and_eq_true, bne_iff_ne] at sib
  exact sib.1.2

@[simp] theorem putField_self (x : List (Node V)) : putField d f m x f.number = x := by simp [putField]

theorem putField_of_ne {x : List (Node V)} (ne : n ≠ f.number) :
    putField d f m x n = if d.sibling f n then [] else m n := by simp [putField, ne]

@[simp] theorem addField_self (x : Node V) : addField f m x f.number = m f.number ++ [x] := by simp [addField]

theorem addField_of_ne {x : Node V} (ne : n ≠ f.number) : addField f m x n = m n := by simp [addField, ne]

theorem putField_congr {x y : List (Node V)} (values : n = f.number → x = y) (same : m n = m' n) :
    putField d f m x n = putField d f m' y n := by
  unfold putField
  split_ifs with own
  · exact values own
  · rfl
  · exact same

theorem addField_congr {x : Node V} (same : m n = m' n) : addField f m x n = addField f m' x n := by
  unfold addField
  by_cases own : n = f.number
  · subst own
    simp [same]
  · simp [own, same]

end Reflection

end Conet.Lib.DynMessage
