/- Module: Conet/Lib/Protobuf
   source: none (library)
   digest: The wire format of protobuf messages: varints, fields and sequences of fields. -/

import Conet.Lib.Bytes
import Mathlib.Tactic.Positivity

set_option autoImplicit false
set_option relaxedAutoImplicit false

namespace Conet.Lib.Protobuf

section Varint

/-- The base 128 digits of a number, lowest first, in at most `k + 1` bytes. -/
def groups : ℕ → ℕ → List UInt8
  | 0, v => [UInt8.ofNat v]
  | k + 1, v =>
    if v < 128 then [UInt8.ofNat v] else UInt8.ofNat (v % 128 + 128) :: groups k (v / 128)

def varint (v : ℕ) : List UInt8 := groups 9 v

/-- The number that at most `k` groups at the start of a text stand for, and what follows them. -/
def readGroups : ℕ → List UInt8 → Option (ℕ × List UInt8)
  | 0, _ => none
  | _ + 1, [] => none
  | k + 1, c :: bs =>
    if c.toNat < 128 then some (c.toNat, bs)
    else (readGroups k bs).map fun r => (c.toNat - 128 + 128 * r.1, r.2)

/-- The varint at the start of a text, as a number of 64 bits. -/
def readVarint (bs : List UInt8) : Option (ℕ × List UInt8) :=
  (readGroups 10 bs).map fun r => (r.1 % 2 ^ 64, r.2)

variable {k v n : ℕ} {bs rest : List UInt8}

theorem readGroups_groups (lt : v < 128 ^ (k + 1)) (rest : List UInt8) :
    readGroups (k + 1) (groups k v ++ rest) = some (v, rest) := by
  induction k generalizing v with
  | zero =>
    have byte : (UInt8.ofNat v).toNat = v := by
      rw [UInt8.toNat_ofNat']
      omega
    simp [groups, readGroups, byte, show v < 128 by omega]
  | succ k ih =>
    rw [groups]
    split_ifs with small
    · have byte : (UInt8.ofNat v).toNat = v := by
        rw [UInt8.toNat_ofNat']
        omega
      simp [readGroups, byte, small]
    · have byte : (UInt8.ofNat (v % 128 + 128)).toNat = v % 128 + 128 := by
        rw [UInt8.toNat_ofNat']
        omega
      have quot : v / 128 < 128 ^ (k + 1) := by
        rw [Nat.div_lt_iff_lt_mul (by omega), ← pow_succ]
        exact lt
      rw [List.cons_append, readGroups, byte, if_neg (by omega), ih quot]
      simp only [Option.map_some, Option.some.injEq, Prod.mk.injEq, and_true]
      omega

theorem readVarint_varint (lt : v < 2 ^ 64) (rest : List UInt8) :
    readVarint (varint v ++ rest) = some (v, rest) := by
  rw [readVarint, varint, readGroups_groups (by omega)]
  simp only [Option.map_some, Option.some.injEq, Prod.mk.injEq, and_true]
  omega

theorem groups_length_pos (k v : ℕ) : 0 < (groups k v).length := by
  cases k with
  | zero => simp [groups]
  | succ k =>
    rw [groups]
    split_ifs <;> simp

theorem groups_length_le {j : ℕ} (lt : v < 128 ^ (j + 1)) : (groups k v).length ≤ j + 1 := by
  induction k generalizing v j with
  | zero => simp [groups]
  | succ k ih =>
    rw [groups]
    split_ifs with small
    · simp
    · cases j with
      | zero => omega
      | succ j =>
        have quot : v / 128 < 128 ^ (j + 1) := by
          rw [Nat.div_lt_iff_lt_mul (by omega), ← pow_succ]
          exact lt
        have tail := ih quot
        rw [List.length_cons]
        omega

theorem varint_length_pos (v : ℕ) : 0 < (varint v).length := groups_length_pos 9 v

theorem varint_length_le_one (lt : v < 128) : (varint v).length ≤ 1 :=
  groups_length_le (by simpa using lt)

theorem varint_length_le_five (lt : v < 2 ^ 32) : (varint v).length ≤ 5 :=
  groups_length_le (lt.trans (by decide))

theorem varint_length_le_ten (lt : v < 2 ^ 64) : (varint v).length ≤ 10 :=
  groups_length_le (lt.trans (by decide))

/-- A varint ends inside the text that it is read from. -/
theorem readGroups_suffix (h : readGroups k bs = some (v, rest)) :
    ∃ c pre, c :: pre ++ rest = bs := by
  induction k generalizing bs v with
  | zero => simp [readGroups] at h
  | succ k ih =>
    cases bs with
    | nil => simp [readGroups] at h
    | cons c bs =>
      rw [readGroups] at h
      split_ifs at h
      · obtain ⟨-, rfl⟩ : c.toNat = v ∧ bs = rest := by simpa using h
        exact ⟨c, [], rfl⟩
      · obtain ⟨⟨v', rest'⟩, tail, eq⟩ := Option.map_eq_some_iff.mp h
        obtain ⟨-, rfl⟩ : _ ∧ rest' = rest := by simpa using eq
        obtain ⟨c', pre, rfl⟩ := ih tail
        exact ⟨c, c' :: pre, rfl⟩

theorem readVarint_suffix (h : readVarint bs = some (v, rest)) :
    v < 2 ^ 64 ∧ ∃ c pre, c :: pre ++ rest = bs := by
  obtain ⟨⟨v', rest'⟩, read, eq⟩ := Option.map_eq_some_iff.mp h
  obtain ⟨rfl, rfl⟩ : v' % 2 ^ 64 = v ∧ rest' = rest := by simpa using eq
  exact ⟨Nat.mod_lt _ (by positivity), readGroups_suffix read⟩

end Varint

inductive Value
  | varint (v : ℕ)
  | fixed64 (v : ℕ)
  | bytes (s : List UInt8)
  | fixed32 (v : ℕ)
  deriving DecidableEq

structure Field where
  num : ℕ
  value : Value
  deriving DecidableEq

section Field

def Value.wireType : Value → ℕ
  | .varint _ => 0
  | .fixed64 _ => 1
  | .bytes _ => 2
  | .fixed32 _ => 5

def Value.wire : Value → List UInt8
  | .varint v => Protobuf.varint v
  | .fixed64 v => leBytes 8 v
  | .bytes s => Protobuf.varint s.length ++ s
  | .fixed32 v => leBytes 4 v

def Field.wire (f : Field) : List UInt8 := varint (f.num * 8 + f.value.wireType) ++ f.value.wire

/-- The value of the given wire type at the start of a text, and what follows it. -/
def readValue : ℕ → List UInt8 → Option (Value × List UInt8)
  | 0, bs => (readVarint bs).map fun r => (.varint r.1, r.2)
  | 1, bs => if 8 ≤ bs.length then some (.fixed64 (leNat (bs.take 8)), bs.drop 8) else none
  | 2, bs => (readVarint bs).bind fun r =>
    if r.1 ≤ r.2.length then some (.bytes (r.2.take r.1), r.2.drop r.1) else none
  | 5, bs => if 4 ≤ bs.length then some (.fixed32 (leNat (bs.take 4)), bs.drop 4) else none
  | _, _ => none

/-- The field at the start of a text: a tag that is not zero, and a complete value. -/
def readField (bs : List UInt8) : Option (Field × List UInt8) :=
  (readVarint bs).bind fun t =>
    if t.1 = 0 then none
    else (readValue (t.1 % 8) t.2).map fun r => (⟨t.1 / 8, r.1⟩, r.2)

/-- The values that have a wire form of their own. -/
def Value.Fits : Value → Prop
  | .varint v => v < 2 ^ 64
  | .fixed64 v => v < 2 ^ 64
  | .bytes s => s.length < 2 ^ 64
  | .fixed32 v => v < 2 ^ 32

/-- A field number is at most 29 bits long. -/
structure Field.Fits (f : Field) : Prop where
  pos : 0 < f.num
  num : f.num < 2 ^ 29
  value : f.value.Fits

variable {f : Field} {v : Value} {t n : ℕ} {bs rest : List UInt8}

theorem readValue_wire (fits : v.Fits) (rest : List UInt8) :
    readValue v.wireType (v.wire ++ rest) = some (v, rest) := by
  cases v with
  | varint v => simp [Value.wireType, Value.wire, readValue, readVarint_varint fits]
  | fixed64 v =>
    have back : leNat (leBytes 8 v) = v := (leNat_leBytes 8 v).trans (Nat.mod_eq_of_lt fits)
    simp [Value.wireType, Value.wire, readValue, back]
  | bytes s =>
    simp [Value.wireType, Value.wire, readValue, readVarint_varint fits]
  | fixed32 v =>
    have back : leNat (leBytes 4 v) = v := (leNat_leBytes 4 v).trans (Nat.mod_eq_of_lt fits)
    simp [Value.wireType, Value.wire, readValue, back]

theorem Value.wireType_lt (v : Value) : v.wireType < 8 := by
  cases v <;> simp [Value.wireType]

/-- The tag of a field with a number below 16 takes a byte. -/
theorem Field.wire_length_le (lt : f.num < 16) (le : f.value.wire.length ≤ n) :
    f.wire.length ≤ 1 + n := by
  have type := f.value.wireType_lt
  rw [Field.wire, List.length_append]
  exact Nat.add_le_add (varint_length_le_one (by omega)) le

theorem readField_wire (fits : f.Fits) (rest : List UInt8) :
    readField (f.wire ++ rest) = some (f, rest) := by
  have type := f.value.wireType_lt
  have pos := fits.pos
  have num := fits.num
  have quot : (f.num * 8 + f.value.wireType) / 8 = f.num := by omega
  have rem : (f.num * 8 + f.value.wireType) % 8 = f.value.wireType := by omega
  rw [readField, Field.wire, List.append_assoc, readVarint_varint (by omega)]
  simp only [Option.bind_some, quot, rem, readValue_wire fits.value]
  rw [if_neg (by omega)]
  rfl

/-- A value ends inside the text that it is read from. -/
theorem readValue_suffix (h : readValue t bs = some (v, rest)) : ∃ pre, pre ++ rest = bs := by
  unfold readValue at h
  split at h
  · obtain ⟨⟨n, rest'⟩, read, eq⟩ := Option.map_eq_some_iff.mp h
    obtain ⟨-, rfl⟩ : _ ∧ rest' = rest := by simpa using eq
    obtain ⟨-, c, pre, eq⟩ := readVarint_suffix read
    exact ⟨c :: pre, eq⟩
  · split_ifs at h
    obtain ⟨-, rfl⟩ : _ ∧ _ = rest := by simpa using h
    exact ⟨_, List.take_append_drop 8 _⟩
  · obtain ⟨⟨n, rest'⟩, read, eq⟩ := Option.bind_eq_some_iff.mp h
    obtain ⟨-, c, pre, rfl⟩ := readVarint_suffix read
    split_ifs at eq
    obtain ⟨-, rfl⟩ : _ ∧ _ = rest := by simpa using eq
    exact ⟨c :: pre ++ rest'.take n, by simp⟩
  · split_ifs at h
    obtain ⟨-, rfl⟩ : _ ∧ _ = rest := by simpa using h
    exact ⟨_, List.take_append_drop 4 _⟩
  · simp at h

theorem readField_suffix (h : readField bs = some (f, rest)) : ∃ c pre, c :: pre ++ rest = bs := by
  obtain ⟨⟨t, rest'⟩, tag, eq⟩ := Option.bind_eq_some_iff.mp h
  obtain ⟨-, c, pre, rfl⟩ := readVarint_suffix tag
  split_ifs at eq
  obtain ⟨⟨v, rest''⟩, value, eq⟩ := Option.map_eq_some_iff.mp eq
  obtain ⟨-, rfl⟩ : _ ∧ rest'' = rest := by simpa using eq
  obtain ⟨pre', rfl⟩ := readValue_suffix value
  exact ⟨c, pre ++ pre', by simp⟩

@[simp] theorem readField_nil : readField [] = none := rfl

/-- A string lies in front of what follows its field. -/
theorem readField_bytes {s : List UInt8} (h : readField bs = some (f, rest))
    (hs : f.value = .bytes s) : ∃ pre, pre ++ s ++ rest = bs := by
  obtain ⟨⟨t, rest'⟩, tag, eq⟩ := Option.bind_eq_some_iff.mp h
  obtain ⟨-, c, pre, rfl⟩ := readVarint_suffix tag
  split_ifs at eq
  obtain ⟨⟨v, rest''⟩, value, eq⟩ := Option.map_eq_some_iff.mp eq
  obtain ⟨rfl, rfl⟩ : _ = f ∧ rest'' = rest := by simpa using eq
  obtain rfl : v = .bytes s := hs
  unfold readValue at value
  split at value
  · simp at value
  · split_ifs at value
    simp at value
  · obtain ⟨⟨n, rest₁⟩, read, cut⟩ := Option.bind_eq_some_iff.mp value
    obtain ⟨-, c', pre', rfl⟩ := readVarint_suffix read
    split_ifs at cut
    obtain ⟨rfl, rfl⟩ : rest₁.take n = s ∧ rest₁.drop n = rest'' := by simpa using cut
    exact ⟨c :: pre ++ c' :: pre', by simp⟩
  · split_ifs at value
    simp at value
  · simp at value

end Field

/-- The fields at the start of a text, each with what follows it, and what is left behind the last
one, which does not start with a field. -/
inductive Reads : List UInt8 → List (Field × List UInt8) → List UInt8 → Prop
  | stop {bs : List UInt8} (none : readField bs = none) : Reads bs [] bs
  | next {bs rest left : List UInt8} {f : Field} {fs : List (Field × List UInt8)}
      (read : readField bs = some (f, rest)) (tail : Reads rest fs left) :
      Reads bs ((f, rest) :: fs) left

def WellFormed (bs : List UInt8) : Prop := ∃ fs, Reads bs fs []

section Reads

variable {bs left left' : List UInt8} {fs fs' : List (Field × List UInt8)}

theorem Reads.unique (h : Reads bs fs left) (h' : Reads bs fs' left') :
    fs = fs' ∧ left = left' := by
  induction h generalizing fs' left' with
  | stop none =>
    cases h' with
    | stop => exact ⟨rfl, rfl⟩
    | next read => simp [none] at read
  | next read tail ih =>
    cases h' with
    | stop none => simp [none] at read
    | next read' tail' =>
      obtain ⟨rfl, rfl⟩ := Prod.mk.inj (Option.some.inj (read.symm.trans read'))
      obtain ⟨rfl, rfl⟩ := ih tail'
      exact ⟨rfl, rfl⟩

theorem Reads.mem {x : Field × List UInt8} (reads : Reads bs fs left) (hx : x ∈ fs) :
    ∃ pre bs', pre ++ bs' = bs ∧ readField bs' = some x := by
  induction reads with
  | stop => simp at hx
  | @next bs rest left f fs read tail ih =>
    rcases List.mem_cons.mp hx with rfl | hx
    · exact ⟨[], bs, rfl, read⟩
    · obtain ⟨pre, bs', eq, read'⟩ := ih hx
      obtain ⟨c, pre', rfl⟩ := readField_suffix read
      exact ⟨c :: pre' ++ pre, bs', by simp [eq], read'⟩

/-- All fields of a text, if it is a sequence of at most `n` of them. -/
def readFields : ℕ → List UInt8 → Option (List Field)
  | _, [] => some []
  | 0, _ :: _ => none
  | n + 1, c :: bs => (readField (c :: bs)).bind fun r => (readFields n r.2).map (r.1 :: ·)

theorem Reads.readFields (reads : Reads bs fs []) {n : ℕ} (enough : bs.length ≤ n) :
    readFields n bs = some (fs.map Prod.fst) := by
  generalize hl : ([] : List UInt8) = left at reads
  induction reads generalizing n with
  | stop =>
    subst hl
    cases n <;> rfl
  | @next bs rest left f fs read tail ih =>
    obtain ⟨c, pre, rfl⟩ := readField_suffix read
    simp only [List.length_append, List.length_cons] at enough
    obtain ⟨n, rfl⟩ : ∃ m, n = m + 1 := Nat.exists_eq_succ_of_ne_zero (by omega)
    rw [List.cons_append, Protobuf.readFields, ← List.cons_append, read, Option.bind_some,
      ih (by omega) hl]
    rfl

theorem reads_wire {fields : List Field} (fits : ∀ f ∈ fields, f.Fits) :
    ∃ fs, Reads (fields.flatMap Field.wire) fs [] ∧ fs.map Prod.fst = fields := by
  induction fields with
  | nil => exact ⟨[], .stop rfl, rfl⟩
  | cons f fields ih =>
    obtain ⟨fs, tail, map⟩ := ih fun g hg => fits g (by simp [hg])
    refine ⟨(f, fields.flatMap Field.wire) :: fs, .next ?_ tail, by simp [map]⟩
    rw [List.flatMap_cons]
    exact readField_wire (fits f (by simp)) _

end Reads

end Conet.Lib.Protobuf
