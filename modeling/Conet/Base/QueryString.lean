/- Module: Conet/Base/QueryString
   source: base/src/query_string.rl, base/string2number.h, base/src/url_encode.cpp
   digest: The parser of query strings, and the message that it fills. -/

import Conet.Base.HttpParser
import Conet.Lib.DynMessage

set_option autoImplicit false
set_option relaxedAutoImplicit false

namespace Conet.Base.QueryString

open Conet.Lib.DynMessage Conet.Lib.Ragel Conet.Lib.Ragel.Machine Conet.Base.HttpParser

/-- The scalars of messages, with `F` for the floating point numbers. -/
inductive Scalar (F : Type)
  | num (n : ℤ)
  | float (x : F)
  | bool (b : Bool)
  | string (s : List UInt8)
  | enum (n : ℤ)

/-- What the C library makes of the text of a floating point number, and a `float` of a `double`. -/
structure Floats (F : Type) where
  strtod : List UInt8 → F
  strtof : List UInt8 → F
  narrow : F → F

/-! ### Numbers and escapes -/

def isSpace (c : UInt8) : Bool := c == 32 || (decide (9 ≤ c) && decide (c ≤ 13))

def isDigit (c : UInt8) : Bool := decide (48 ≤ c) && decide (c ≤ 57)

/-- The sign and the digits that `strtoll` and `strtoull` read. -/
def strtoDigits (s : List UInt8) : Bool × ℕ :=
  let s := s.dropWhile isSpace
  let (neg, s) := match s with
    | 45 :: s => (true, s)
    | 43 :: s => (false, s)
    | s => (false, s)
  (neg, (s.takeWhile isDigit).foldl (fun n c => n * 10 + (c.toNat - 48)) 0)

def strtoll (s : List UInt8) : ℤ :=
  let (neg, n) := strtoDigits s
  max (-2 ^ 63) (min (2 ^ 63 - 1) (if neg then -(n : ℤ) else n))

def strtoull (s : List UInt8) : ℕ :=
  let (neg, n) := strtoDigits s
  if 2 ^ 64 ≤ n then 2 ^ 64 - 1 else if neg then (2 ^ 64 - n) % 2 ^ 64 else n

/-- `string2number` for the C++ type of a field; `int64_t` for the others. -/
def string2number {F : Type} (fl : Floats F) (t : CppType) (s : List UInt8) : Scalar F :=
  match t with
  | .int32 => .num ((strtoll s).bmod (2 ^ 32))
  | .uint32 => .num (strtoll s % 2 ^ 32)
  | .uint64 => .num (strtoull s)
  | .double => .float (fl.strtod s)
  | .float => .float (fl.strtof s)
  | .bool => .bool (s.takeWhile (· != 0) == codes "true")
  | _ => .num (strtoll s)

def hexChar (c : UInt8) : Option ℕ :=
  if isDigit c then some (c.toNat - 48)
  else if 97 ≤ c ∧ c ≤ 102 then some (c.toNat - 87)
  else if 65 ≤ c ∧ c ≤ 70 then some (c.toNat - 55)
  else none

/-- `url_decode`. What is no escape stays as it is. -/
def urlDecode : List UInt8 → List UInt8
  | 37 :: a :: b :: cs =>
    match hexChar a, hexChar b with
    | some v, some v2 => UInt8.ofNat (v * 16 + v2) :: urlDecode cs
    | _, _ => 37 :: urlDecode (a :: b :: cs)
  | c :: cs => c :: urlDecode cs
  | [] => []

/-! ### The grammar -/

inductive QueryAction
  | startName
  | endName
  | startValue
  | endValue
  deriving DecidableEq

/-- `(any -- "=&")+`. -/
def text : Machine QueryAction := plus (strongDiff anyByte (lit (codes "=&")))

/-- `name "=" value`. -/
def pair : Machine QueryAction :=
  cats [(text.enter .startName).leave .endName, lit (codes "="),
    (text.enter .startValue).leave .endValue]

def queryString : Machine QueryAction :=
  (stamp (cat (opt pair) (star (cat (lit (codes "&")) pair))) 0).1

/-- The parser between two bytes, with the calls of `DO_VALUE` so far: the name, and the value as it
stands in the text. -/
structure Parser where
  machine : Machine QueryAction
  mark : ℕ
  name : List UInt8
  values : List (List UInt8 × List UInt8)

def Parser.act (buf : List UInt8) (p : ℕ) (s : Parser) : QueryAction → Parser
  | .startName => { s with mark := p }
  | .endName => { s with name := (buf.drop s.mark).take (p - s.mark) }
  | .startValue => { s with mark := p }
  | .endValue => { s with values := s.values ++ [(s.name, (buf.drop s.mark).take (p - s.mark))] }

/-- The generated loop from the position `p` on, with the leaving actions at the end. -/
def Parser.exec (buf : List UInt8) : ℕ → List UInt8 → Parser → ℤ × Parser
  | p, [], s =>
    if s.machine.nullable then (0, (ordered s.machine.out).foldl (Parser.act buf p) s) else (-1, s)
  | p, c :: cs, s =>
    if s.machine.deriv c = .void then (-1, s)
    else
      let s := { (s.machine.actions c).foldl (Parser.act buf p) s with
        machine := s.machine.deriv c }
      Parser.exec buf (p + 1) cs s

def parse (buf : List UInt8) : ℤ × Parser := Parser.exec buf 0 buf ⟨queryString, 0, [], []⟩

section Message

variable {D F : Type} (fl : Floats F) (d : Descriptor D (Scalar F))

/-- What `DO_VALUE` sets. -/
def assignment (x : List UInt8 × List UInt8) : Option (FieldDescriptor D (Scalar F) × Scalar F) :=
  match d.fields.find? fun f => f.name == x.1 with
  | none => none
  | some f =>
    match f.cppType with
    | .message => none
    | .enum =>
      -- `FindValueByNumber` takes an `int`
      let v2 := (strtoll x.2).bmod (2 ^ 32)
      if f.enumNumber v2 then some (f, .enum v2) else none
    | .string => some (f, .string (if f.isBytes then urlDecode x.2 else x.2))
    | t => some (f, string2number fl t x.2)

/-- `DO_VALUE` of `query_string_to_msg`. A `Set…` of a repeated field is fatal. -/
def doValue (x : List UInt8 × List UInt8) (m : Msg (Scalar F)) : Status × Msg (Scalar F) :=
  match assignment fl d x with
  | none => (some 0, m)
  | some (f, v) => if f.isRepeated then (none, m) else (some 0, setField d f m v)

def queryStringToMsg (buf : List UInt8) (m : Msg (Scalar F)) : Status × Msg (Scalar F) :=
  let r := steps (doValue fl d) (parse buf).2.values m
  (if r.1 = some 0 then some (parse buf).1 else r.1, r.2)

end Message

section Overwriting

variable {D F : Type} {fl : Floats F} {d : Descriptor D (Scalar F)} {buf : List UInt8}

/-- A value that is given to the field `n` or to another member of its `oneof`. -/
def Touches (fl : Floats F) (d : Descriptor D (Scalar F)) (x : List UInt8 × List UInt8) (n : ℕ) :
    Prop :=
  ∃ f v, assignment fl d x = some (f, v) ∧ (f.number = n ∨ d.sibling f n = true)

/-- Every field that `m` has gets a value from the query string. -/
def Overwrites (fl : Floats F) (d : Descriptor D (Scalar F)) (buf : List UInt8)
    (m : Msg (Scalar F)) : Prop :=
  ∀ n, m n = [] ∨ ∃ x ∈ (parse buf).2.values, Touches fl d x n

theorem local_put (st : Status) (f : FieldDescriptor D (Scalar F)) (x : List (Node (Scalar F))) :
    Local fun m => (st, putField d f m x) where
  status _ _ := rfl
  values _ _ _ same := putField_congr (fun _ => rfl) same

theorem local_doValue (x : List UInt8 × List UInt8) : Local (doValue fl d x) := by
  unfold doValue
  cases assignment fl d x with
  | none => exact Local.return _
  | some a =>
    obtain ⟨f, v⟩ := a
    dsimp only
    split
    · exact Local.return _
    · exact local_put _ f _

theorem doValue_edit (x : List UInt8 × List UInt8) {m : Msg (Scalar F)}
    (ok : (doValue fl d x m).1 = some 0) (n : ℕ) :
    (Touches fl d x n ∧ Forgets (editAt (doValue fl d) n) x) ∨
      ¬ Touches fl d x n ∧ Keeps (editAt (doValue fl d) n) x := by
  unfold Touches Forgets Keeps editAt
  unfold doValue at ok ⊢
  cases given : assignment fl d x with
  | none => simp
  | some a =>
    obtain ⟨f, v⟩ := a
    by_cases many : f.isRepeated = true
    · simp [given, many] at ok
    by_cases own : n = f.number
    · left
      subst own
      exact ⟨⟨f, v, rfl, .inl rfl⟩, by simp [many, setField]⟩
    by_cases sib : d.sibling f n = true
    · left
      exact ⟨⟨f, v, rfl, .inr sib⟩, by simp [many, setField, putField_of_ne own, sib]⟩
    · right
      constructor
      · rintro ⟨g, w, eq, touch⟩
        obtain ⟨rfl, rfl⟩ := Prod.mk.inj (Option.some.inj eq)
        rcases touch with same | same
        · exact own same.symm
        · exact sib same
      · simp [many, setField, putField_of_ne own, sib]

theorem queryStringToMsg_status (m m' : Msg (Scalar F)) :
    (queryStringToMsg fl d buf m).1 = (queryStringToMsg fl d buf m').1 := by
  simp only [queryStringToMsg, (Local.steps fun x _ => local_doValue x).status m m']

/-- Where the query string is accepted, the message is as if it had been new exactly when all it held
is overwritten. -/
theorem queryStringToMsg_eq_iff {m : Msg (Scalar F)} (ok : (queryStringToMsg fl d buf m).1 = some 0) :
    (queryStringToMsg fl d buf m).2 = (queryStringToMsg fl d buf Msg.new).2 ↔
      Overwrites fl d buf m := by
  have locals : ∀ x ∈ (parse buf).2.values, Local (doValue fl d x) := fun x _ => local_doValue x
  have done : (steps (doValue fl d) (parse buf).2.values m).1 = some 0 := by
    by_contra fail
    exact fail ((if_neg fail).symm.trans ok)
  have done' := ((Local.steps locals).status Msg.new m).trans done
  obtain ⟨each, values⟩ := steps_done locals done
  obtain ⟨-, values'⟩ := steps_done locals done'
  have edit := fun n x (mem : x ∈ (parse buf).2.values) => doValue_edit x (each x mem Msg.new) n
  simp only [queryStringToMsg, funext_iff]
  refine forall_congr' fun n => ?_
  rw [values, values', edited_eq_iff fun x mem => (edit n x mem).imp And.right And.right]
  apply or_congr Iff.rfl
  constructor
  · rintro ⟨x, mem, forgets⟩
    rcases edit n x mem with ⟨touches, -⟩ | ⟨-, keeps⟩
    · exact ⟨x, mem, touches⟩
    · have same := forgets [] [.message Msg.new]
      rw [keeps, keeps] at same
      simp at same
  · rintro ⟨x, mem, touches⟩
    rcases edit n x mem with ⟨-, forgets⟩ | ⟨apart, -⟩
    · exact ⟨x, mem, forgets⟩
    · exact absurd touches apart

end Overwriting

end Conet.Base.QueryString
