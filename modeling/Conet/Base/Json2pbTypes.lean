/- Module: Conet/Base/Json2pbTypes
   source: base/src/pb2json.cpp
   digest: JSON values of a type that a field cannot have: where json2pb rejects them, takes them for
   something else, or calls a conversion that throws. -/

import Conet.Base.Pb2json

set_option autoImplicit false
set_option relaxedAutoImplicit false

namespace Conet.Base.Pb2json

open Conet.Lib.DynMessage Conet.Base.QueryString

inductive JsonType
  | null
  | bool
  | number
  | string
  | array
  | object
  deriving DecidableEq

variable {D F S : Type}

def Json.type (kind : S → JsonType) : Json S → JsonType
  | .null => .null
  | .scalar s => kind s
  | .array _ _ => .array
  | .object _ => .object

/-- The types that stand for a field's type. Numbers and booleans may be written as strings, as the
writer does with 64 bits. -/
def representedBy : CppType → JsonType → Bool
  | .string, t => t == .string
  | .message, t => t == .object
  | .enum, t => t == .number
  | .bool, t => t == .bool || t == .string
  | _, t => t == .number || t == .string

section Misfits

variable (kind : S → JsonType) (sch : D → Descriptor D (Scalar F))

mutual

/-- A present field whose value has a type that the field cannot have, at any depth. -/
def Misfit : Json S → FieldDescriptor D (Scalar F) → Prop
  | .null, _ => False
  | .scalar s, f => f.isRepeated = true ∨ representedBy f.cppType (kind s) = false
  | .array size item, f =>
    if f.isRepeated then ∃ i < size, ItemMisfit (item i) f
    else representedBy f.cppType .array = false
  | .object member, f => f.isRepeated = true ∨ representedBy f.cppType .object = false ∨
      f.cppType = .message ∧ ∃ g ∈ allFields (sch f.messageType), Misfit (member g.name) g

/-- The same for an item of a repeated field. -/
def ItemMisfit : Json S → FieldDescriptor D (Scalar F) → Prop
  | .object member, f => representedBy f.cppType .object = false ∨
      f.cppType = .message ∧ ∃ g ∈ allFields (sch f.messageType), Misfit (member g.name) g
  | v, f => representedBy f.cppType (v.type kind) = false

end

/-- A document that does not fit a message type. -/
def Unfit (v : Json S) (t : D) : Prop :=
  match v with
  | .object member => ∃ f ∈ allFields (sch t), Misfit kind sch (member f.name) f
  | _ => True

inductive Check
  | fine
  /-- taken for something else -/
  | silent
  | rejected
  | thrown
  deriving DecidableEq

def scalarCheck (lib : JsonLib S) (f : FieldDescriptor D (Scalar F)) (v : Json S) : Check :=
  match f.cppType, v with
  | .string, .scalar s => if lib.isString s then .fine else .rejected
  | .string, _ => .rejected
  | .enum, .scalar s => if lib.isInt s ∧ f.enumNumber (lib.asInt s) = true then .fine else .rejected
  | .enum, _ => .rejected
  | _, .null => .silent
  | t, .scalar s => if representedBy t (kind s) then .fine else .silent
  | _, _ => .thrown

variable (lib : JsonLib S)

mutual

/-- The values that `json2pb` meets for a field, in its order. -/
def checks : Json S → FieldDescriptor D (Scalar F) → List Check
  | .null, f => if f.isRequired then [.rejected] else []
  | .scalar s, f =>
    if f.isRepeated then [.rejected]
    else if f.cppType = .message then [.rejected]
    else [scalarCheck kind lib f (.scalar s)]
  | .array size item, f =>
    if f.isRepeated then
      if f.cppType = .message then (List.range size).flatMap fun i => itemChecks (item i) f
      else (List.range size).map fun i => scalarCheck kind lib f (item i)
    else if f.cppType = .message then [.rejected]
    else [scalarCheck kind lib f (.array size item)]
  | .object member, f =>
    if f.isRepeated then [.rejected]
    else if f.cppType = .message then
      (allFields (sch f.messageType)).flatMap fun g => checks (member g.name) g
    else [scalarCheck kind lib f (.object member)]

/-- The same for an item of a repeated message. -/
def itemChecks : Json S → FieldDescriptor D (Scalar F) → List Check
  | .object member, f => (allFields (sch f.messageType)).flatMap fun g => checks (member g.name) g
  | _, _ => [.rejected]

end

end Misfits

def Check.stops : Check → Bool
  | .rejected => true
  | .thrown => true
  | _ => false

section Results

variable {E : Type} {body : E → Msg (Scalar F) → Status × Msg (Scalar F)} {es : List E}

end Results

section Checks

variable {kind : S → JsonType} {lib : JsonLib S} {fl : Floats F} {sch : D → Descriptor D (Scalar F)}
  {d : Descriptor D (Scalar F)} {f : FieldDescriptor D (Scalar F)} {v : Json S}

/-- What the JSON library says of strings and numbers goes with their types. -/
structure JsonLib.Typed (lib : JsonLib S) (kind : S → JsonType) : Prop where
  string : ∀ s, lib.isString s = true → kind s = .string
  int : ∀ s, lib.isInt s = true → kind s = .number

end Checks

/-- What is promised of a document: `json2pb` returns, and with a negative code if a present field has
a value of a type that it cannot have. -/
structure Rejects (kind : S → JsonType) (lib : JsonLib S) (fl : Floats F)
    (sch : D → Descriptor D (Scalar F)) (v : Json S) (t : D) (m : Msg (Scalar F)) : Prop where
  returns : (json2pb lib fl sch v t m).1 ≠ none
  negative : Unfit kind sch v t → ∃ c < 0, (json2pb lib fl sch v t m).1 = some c

def unitFloats : Floats Unit := ⟨fun _ => (), fun _ => (), id⟩

end Conet.Base.Pb2json
