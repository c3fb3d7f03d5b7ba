/- Module: Conet/Base/PbcFields
   source: base/pbc.h, base/src/pbc.cpp
   digest: Streams of fields: pb_add_field, pb_eval_field_length, and the iteration with its eom. -/

import Conet.Base.Pbc

set_option autoImplicit false
set_option relaxedAutoImplicit false

namespace Conet.Base.Pbc

open Conet.Lib Conet.Lib.Protobuf

section Adding

def pbAddDdword (b : PbBuff) (val : ℕ) : PbBuff × ℤ :=
  if b.left < 8 then (b, -1)
  else ({ b with out := b.out ++ leBytes 8 val, left := toInt32 (b.left - 8) }, 0)

variable (mem : ℤ → UInt8)

/-- `pb_add_field`, which is `pb_add_field_val` of its members. -/
def pbAddField (b : PbBuff) (f : PbField) : PbBuff × ℤ :=
  match pbAddTag b f.type f.tag with
  | (b, 0) =>
    if f.type = wtVarint then pbAddVint b f.i64
    else if f.type = wtFixed64 then pbAddDdword b f.i64
    else if f.type = wtString then
      match pbAddVint b f.i32 with
      | (b, 0) => pbAdd b (slice mem f.data f.i32)
      | (b, _) => (b, -2)
    else if f.type = wtFixed32 then pbAddDword b f.i32
    else (b, -2)
  | (b, _) => (b, -1)

/-- Fields one after another, up to the first that is not accepted. -/
def pbAddFields (b : PbBuff) : List PbField → PbBuff × ℤ
  | [] => (b, 0)
  | f :: fs =>
    match pbAddField mem b f with
    | (b, 0) => pbAddFields b fs
    | (b, ret) => (b, ret)

end Adding

section Evaluating

/-- The loop of `pb_eval_vint_length`. -/
def pbEvalVintLoop : ℕ → ℕ → ℤ → ℤ
  | 0, _, len => len
  | n + 1, value, len => if value = 0 then len else pbEvalVintLoop n (value / 128) (len + 1)

def pbEvalVintLength (value : ℕ) : ℤ := if value = 0 then 1 else pbEvalVintLoop 10 value 0

def pbEvalTagLength (wiretype fieldNumber : ℕ) : ℤ :=
  pbEvalVintLength ((wiretype ||| fieldNumber <<< 3) % 2 ^ 32)

/-- `pb_eval_field_length`. A string's length is unsigned, and so is the sum. -/
def pbEvalFieldLength (f : PbField) : ℤ :=
  if f.type = wtVarint then pbEvalTagLength f.type f.tag + pbEvalVintLength f.i64
  else if f.type = wtFixed64 then pbEvalTagLength f.type f.tag + 8
  else if f.type = wtFixed32 then pbEvalTagLength f.type f.tag + 4
  else toInt32 (pbEvalTagLength f.type f.tag + pbEvalVintLength f.i32 + f.i32)

end Evaluating

section Iterating

variable (mem : ℤ → UInt8)

/-- The loop of `pb_decode_varint` with the cursor that it leaves, and whether it succeeds. -/
def pbDecodeVarintRest : ℕ → ℕ → ℕ → PbField → PbField × Bool
  | 0, _, _, f => (f, false)
  | n + 1, bitpos, result, f =>
    if bitpos ≥ 64 then (f, false)
    else
      match pbGetByte mem f with
      | none => (f, false)
      | some (byte, f) =>
        let result := (result ||| (byte.toNat % 128) <<< bitpos) % 2 ^ 64
        if byte.toNat ≥ 128 then pbDecodeVarintRest n ((bitpos + 7) % 256) result f
        else ({ f with i64 := result }, true)

/-- `pb_next`: `pb_decode_tag` with the `eom` that it leaves. Only the tag decides about it. -/
def pbNextEom (f : PbField) (eom : Bool) : Option PbField × Bool :=
  match pbDecodeVarintRest mem 11 0 0 f with
  | (at_, false) => (none, eom || decide (at_.left = 0))
  | (at_, true) => if at_.i64 = 0 then (none, true) else (pbDecodeTag mem f, eom)

/-- `pb_begin`. -/
def pbBeginEom (f : PbField) (data dlen : ℤ) : Option PbField × Bool :=
  pbNextEom mem { f with ptr := data, left := dlen } false

/-- At most `n` rounds of `for (f = pb_begin(..); f != pb_end(); f = pb_next(f))`: the fields as
they are seen in the body, and the last `eom`. -/
def pbIterate : ℕ → Option PbField × Bool → Option (List PbField × Bool)
  | _, (none, eom) => some ([], eom)
  | 0, (some _, _) => none
  | n + 1, (some f, eom) => (pbIterate n (pbNextEom mem f eom)).map fun r => (f :: r.1, r.2)

/-- What a field's type says that its value is. -/
def PbField.value (f : PbField) : Option Value :=
  if f.type = wtVarint then some (.varint f.i64)
  else if f.type = wtFixed64 then some (.fixed64 f.i64)
  else if f.type = wtString then some (.bytes (slice mem f.data f.i32))
  else if f.type = wtFixed32 then some (.fixed32 f.i32)
  else none

/-- A field's tag, its type and its value. -/
def PbField.entry (f : PbField) : ℕ × ℕ × Option Value := (f.tag, f.type, f.value mem)

end Iterating

structure PbField.Valid (f : PbField) : Prop where
  pos : 1 ≤ f.tag
  tag : f.tag < 2 ^ 29
  type : f.type = wtVarint ∨ f.type = wtFixed64 ∨ f.type = wtString ∨ f.type = wtFixed32
  i64 : f.i64 < 2 ^ 64

section Lengths

variable {k v n : ℕ}

theorem pbEvalVintLoop_eq (pos : 0 < v) (lt : v < 128 ^ (k + 1)) (len : ℤ) :
    pbEvalVintLoop (k + 1) v len = len + (groups k v).length := by
  induction k generalizing v len with
  | zero => simp [pbEvalVintLoop, groups, pos.ne']
  | succ k ih =>
    rw [pbEvalVintLoop, if_neg pos.ne', groups]
    split_ifs with small
    · have quot : v / 128 = 0 := by omega
      simp [quot, pbEvalVintLoop]
    · have quot : v / 128 < 128 ^ (k + 1) := by
        rw [Nat.div_lt_iff_lt_mul (by omega), ← pow_succ]
        exact lt
      rw [ih (by omega) quot, List.length_cons]
      push_cast
      ring

theorem pbEvalVintLength_eq (lt : v < 2 ^ 64) : pbEvalVintLength v = (varint v).length := by
  rw [pbEvalVintLength]
  split_ifs with zero
  · rw [zero]
    rfl
  · rw [pbEvalVintLoop_eq (by omega) (lt.trans (by decide)), varint, zero_add]

theorem pbEvalTagLength_eq (hk : k < 8) (hn : n < 2 ^ 29) :
    pbEvalTagLength k n = (varint (n * 8 + k)).length := by
  have tag : k ||| n <<< 3 = n * 8 + k := by
    rw [or_group (show k < 2 ^ 3 from hk)]
    omega
  rw [pbEvalTagLength, tag, Nat.mod_eq_of_lt (by omega), pbEvalVintLength_eq (by omega)]

end Lengths

section Fields

variable {mem : ℤ → UInt8} {f : PbField} {b : PbBuff} {size : ℕ}

theorem PbField.i32_lt (f : PbField) : f.i32 < 2 ^ 32 := Nat.mod_lt _ (by decide)

theorem PbField.Valid.field (valid : f.Valid) (mem : ℤ → UInt8) :
    ∃ v : Value, f.value mem = some v ∧ v.wireType = f.type ∧ v.Fits ∧ (⟨f.tag, v⟩ : Field).Fits := by
  have fits {v : Value} (hv : v.Fits) : (⟨f.tag, v⟩ : Field).Fits := ⟨valid.pos, valid.tag, hv⟩
  have low := f.i32_lt
  rcases valid.type with type | type | type | type
  · exact ⟨.varint f.i64, by simp [PbField.value, type], type.symm, valid.i64, fits valid.i64⟩
  · exact ⟨.fixed64 f.i64, by simp [PbField.value, type, wtVarint, wtFixed64], type.symm, valid.i64,
      fits valid.i64⟩
  · have short : (slice mem f.data f.i32).length < 2 ^ 64 := by
      rw [slice_length]
      omega
    exact ⟨.bytes (slice mem f.data f.i32), by
      simp [PbField.value, type, wtVarint, wtFixed64, wtString], type.symm, short, fits short⟩
  · exact ⟨.fixed32 f.i32, by simp [PbField.value, type, wtVarint, wtFixed64, wtString, wtFixed32],
      type.symm, low, fits low⟩

def PbField.wire (mem : ℤ → UInt8) (f : PbField) : List UInt8 :=
  ((f.value mem).map fun v => (⟨f.tag, v⟩ : Field).wire).getD []

theorem pbAddDdword_eq (nonneg : 0 ≤ b.left) (lt : b.left < 2 ^ 31) (v : ℕ) :
    pbAddDdword b v = pbAdd b (leBytes 8 v) := by
  have left : (b.left % 2 ^ 64).toNat = b.left.toNat := by omega
  rw [pbAddDdword, pbAdd, left, leBytes_length]
  by_cases no : b.left < 8
  · rw [if_pos no, if_pos (by omega)]
  · rw [if_neg no, if_neg (by omega)]
    rfl

/-- The checks of `pb_add_field` are those of its pieces. -/
theorem pbAddField_eq (valid : f.Valid) {v : Value} (value : f.value mem = some v)
    (nonneg : 0 ≤ b.left) (lt : b.left < 2 ^ 31) :
    ∃ ret, pbAddField mem b f = ((put b (pieces ⟨f.tag, v⟩)).1, ret) ∧
      (ret = 0 ↔ (put b (pieces ⟨f.tag, v⟩)).2 = true) := by
  have num : f.tag < 2 ^ 32 := valid.tag.trans (by decide)
  have low := f.i32_lt
  have tag {k : ℕ} (type : f.type = k) (hk : k < 8) (p : Piece) (ps : List Piece)
      (next : PbBuff → PbBuff × ℤ)
      (same : ∀ b' : PbBuff, 0 ≤ b'.left → b'.left < 2 ^ 31 → ∃ ret, next b' =
        ((put b' (p :: ps)).1, ret) ∧ (ret = 0 ↔ (put b' (p :: ps)).2 = true)) :
      ∃ ret, (match pbAddTag b f.type f.tag with
        | (b, 0) => next b
        | (b, _) => (b, -1)) =
        ((put b (.bytes (varint (f.tag * 8 + k)) :: p :: ps)).1, ret) ∧
        (ret = 0 ↔ (put b (.bytes (varint (f.tag * 8 + k)) :: p :: ps)).2 = true) := by
    rw [put_cons b _ (p :: ps), type, pbAddTag_eq b hk num, pbAdd_eq]
    by_cases ok : (put b [.bytes (varint (f.tag * 8 + k))]).2 = true
    · have after : 0 ≤ (put b [.bytes (varint (f.tag * 8 + k))]).1.left ∧
          (put b [.bytes (varint (f.tag * 8 + k))]).1.left < 2 ^ 31 := by
        rw [put] at ok ⊢
        split_ifs at ok ⊢ with no
        simp only [Piece.refused, decide_eq_true_eq] at no
        simp only [put, Piece.wire]
        rw [toInt32_of_lt (by omega) (by omega)]
        omega
      simpa [ok] using same _ after.1 after.2
    · exact ⟨-1, by simp [ok]⟩
  rcases valid.type with type | type | type | type
  · obtain rfl : v = .varint f.i64 := by simpa [PbField.value, type] using value.symm
    simp only [pbAddField, type, if_true] at tag ⊢
    refine tag rfl (by decide) _ [] (fun b => pbAddVint b f.i64) fun b' _ _ => ?_
    refine ⟨_, (pbAddVint_eq b' valid.i64).trans (pbAdd_eq b' _), ?_⟩
    split_ifs with ok <;> simp [ok]
  · obtain rfl : v = .fixed64 f.i64 := by
      simpa [PbField.value, type, wtVarint, wtFixed64] using value.symm
    simp only [pbAddField, type, wtVarint, wtFixed64, one_ne_zero, if_false, if_true] at tag ⊢
    refine tag rfl (by decide) _ [] (fun b => pbAddDdword b f.i64) fun b' nonneg' lt' => ?_
    refine ⟨_, (pbAddDdword_eq nonneg' lt' _).trans (pbAdd_eq b' _), ?_⟩
    split_ifs with ok <;> simp [ok]
  · obtain rfl : v = .bytes (slice mem f.data f.i32) := by
      simpa [PbField.value, type, wtVarint, wtFixed64, wtString] using value.symm
    simp only [pbAddField, type, wtVarint, wtFixed64, wtString, OfNat.ofNat_ne_zero,
      OfNat.ofNat_ne_one, if_false, if_true] at tag ⊢
    refine tag rfl (by decide) _ [_] (fun b => match pbAddVint b f.i32 with
      | (b, 0) => pbAdd b (slice mem f.data f.i32)
      | (b, _) => (b, -2)) fun b' _ _ => ?_
    rw [put_cons b' _ [_], slice_length]
    simp only [pbAddVint_eq b' (show f.i32 < 2 ^ 64 by omega), pbAdd_eq b' (varint f.i32)]
    by_cases ok : (put b' [.bytes (varint f.i32)]).2 = true
    · simp only [ok, if_true]
      refine ⟨_, pbAdd_eq _ _, ?_⟩
      split_ifs with ok' <;> simp [ok']
    · exact ⟨-2, by simp [ok]⟩
  · obtain rfl : v = .fixed32 f.i32 := by
      simpa [PbField.value, type, wtVarint, wtFixed64, wtString, wtFixed32] using value.symm
    simp only [pbAddField, type, wtVarint, wtFixed64, wtString, wtFixed32, OfNat.ofNat_ne_zero,
      OfNat.ofNat_ne_one, show (5 : ℕ) ≠ 2 by decide, if_false, if_true] at tag ⊢
    refine tag rfl (by decide) _ [] (fun b => pbAddDword b f.i32) fun b' _ _ => ?_
    refine ⟨_, pbAddDword_eq b' _, ?_⟩
    split_ifs with ok <;> simp [ok]

theorem PbField.Valid.text (valid : f.Valid) (mem : ℤ → UInt8) :
    ∃ v, f.value mem = some v ∧ (⟨f.tag, v⟩ : Field).Fits ∧ v.wireType = f.type ∧
      f.wire mem = (⟨f.tag, v⟩ : Field).wire := by
  obtain ⟨v, value, type, -, fits⟩ := valid.field mem
  exact ⟨v, value, fits, type, by simp [PbField.wire, value]⟩

/-- The evaluated length is the one that is written. -/
theorem pbEvalFieldLength_eq (valid : f.Valid) (mem : ℤ → UInt8) (lt : (f.wire mem).length < 2 ^ 31) :
    pbEvalFieldLength f = (f.wire mem).length := by
  have low := f.i32_lt
  obtain ⟨v, value, -, kind, wire⟩ := valid.text mem
  rw [wire, Field.wire, List.length_append] at lt ⊢
  have tag : pbEvalTagLength f.type f.tag = (varint (f.tag * 8 + v.wireType)).length := by
    rw [kind]
    refine pbEvalTagLength_eq ?_ valid.tag
    rcases valid.type with type | type | type | type <;> rw [type] <;> decide
  rw [pbEvalFieldLength, tag]
  rcases valid.type with type | type | type | type
  · obtain rfl : v = .varint f.i64 := by simpa [PbField.value, type] using value.symm
    rw [if_pos type, pbEvalVintLength_eq valid.i64]
    rfl
  · obtain rfl : v = .fixed64 f.i64 := by
      simpa [PbField.value, type, wtVarint, wtFixed64] using value.symm
    rw [if_neg (by rw [type]; decide), if_pos type]
    simp [Value.wire]
  · obtain rfl : v = .bytes (slice mem f.data f.i32) := by
      simpa [PbField.value, type, wtVarint, wtFixed64, wtString] using value.symm
    simp only [Value.wire, List.length_append, slice_length] at lt ⊢
    rw [if_neg (by rw [type]; decide), if_neg (by rw [type]; decide), if_neg (by rw [type]; decide),
      pbEvalVintLength_eq (show f.i32 < 2 ^ 64 by omega), toInt32_of_lt (by omega) (by omega)]
    push_cast
    ring
  · obtain rfl : v = .fixed32 f.i32 := by
      simpa [PbField.value, type, wtVarint, wtFixed64, wtString, wtFixed32] using value.symm
    rw [if_neg (by rw [type]; decide), if_neg (by rw [type]; decide), if_pos type]
    simp [Value.wire]

/-- A buffer of an `int`'s size that is not overrun. -/
structure Holds (b : PbBuff) (size : ℕ) : Prop where
  counts : Counts b size
  inside : b.out.length ≤ size
  lt : size < 2 ^ 31

theorem Holds.left (holds : Holds b size) : b.left = size - b.out.length := by
  have counts := holds.counts
  have inside := holds.inside
  have lt := holds.lt
  rw [Counts] at counts
  rw [counts, toInt32_of_lt (by omega) (by omega)]

theorem pbInitBuff_holds (lt : size < 2 ^ 31) : Holds (pbInitBuff size) size :=
  ⟨by simp [Counts, pbInitBuff], by simp [pbInitBuff], lt⟩

/-- A call writes the field, if there is room for it, and returns an error otherwise. -/
theorem Holds.add (holds : Holds b size) (valid : f.Valid) (mem : ℤ → UInt8) :
    Holds (pbAddField mem b f).1 size ∧
      ((pbAddField mem b f).2 = 0 ↔ b.out.length + (f.wire mem).length ≤ size) ∧
      ((pbAddField mem b f).2 = 0 → (pbAddField mem b f).1.out = b.out ++ f.wire mem) := by
  obtain ⟨counts, inside, lt⟩ := holds
  have left := (Holds.mk counts inside lt).left
  obtain ⟨v, value, -, -, wire⟩ := valid.text mem
  obtain ⟨ret, eq, zero⟩ := pbAddField_eq valid value (show 0 ≤ b.left by omega) (by omega)
  have laid := counts.put_laid (pieces ⟨f.tag, v⟩)
  rw [Prod.ext_iff] at laid
  have fits := laid_inside (L := size) (by omega) (by omega) (pieces ⟨f.tag, v⟩) (n := b.out.length)
  rw [eq, wire, ← text_pieces]
  have inside' : (put b (pieces ⟨f.tag, v⟩)).1.out.length ≤ size := by
    have first := laid.1
    dsimp only at first
    omega
  refine ⟨⟨counts.put _, inside', lt⟩, zero.trans ⟨fun ok => ?_, fun room => ?_⟩, fun ok => ?_⟩
  · rw [← List.length_append, ← put_ok ok]
    exact inside'
  · rw [show (put b (pieces ⟨f.tag, v⟩)).2 = _ from laid.2]
    exact laid_fits (by omega) (by omega) (.inl (by omega))
  · exact put_ok (zero.mp ok)

/-- Fields are written up to the first for which there is no room. -/
theorem Holds.addAll (holds : Holds b size) {fs : List PbField} (valid : ∀ f ∈ fs, f.Valid)
    (mem : ℤ → UInt8) :
    Holds (pbAddFields mem b fs).1 size ∧
      ((pbAddFields mem b fs).2 = 0 ↔ b.out.length + (fs.flatMap (PbField.wire mem)).length ≤ size) ∧
      ((pbAddFields mem b fs).2 = 0 →
        (pbAddFields mem b fs).1.out = b.out ++ fs.flatMap (PbField.wire mem)) := by
  induction fs generalizing b with
  | nil => exact ⟨holds, by simpa [pbAddFields] using holds.inside, by simp [pbAddFields]⟩
  | cons f fs ih =>
    obtain ⟨holds', room, out⟩ := holds.add (valid f (by simp)) mem
    rw [pbAddFields, List.flatMap_cons, List.length_append]
    rcases call : pbAddField mem b f with ⟨b', ret⟩
    rw [call] at holds' room out
    by_cases ok : ret = 0
    · subst ok
      obtain ⟨holds'', room', out'⟩ := ih holds' fun g hg => valid g (by simp [hg])
      rw [out rfl, List.length_append] at room'
      refine ⟨holds'', room'.trans (by omega), fun zero => ?_⟩
      rw [← List.append_assoc, ← out rfl]
      exact out' zero
    · have full : ¬ b.out.length + (f.wire mem).length ≤ size := fun fits => ok (room.mpr fits)
      have stops : (match (b', ret) with
          | (b, 0) => pbAddFields mem b fs
          | (b, ret) => (b, ret)) = (b', ret) := by
        split
        · rename_i eq
          exact absurd (congrArg Prod.snd eq) ok
        · rename_i eq
          exact eq.symm
      rw [stops]
      exact ⟨holds', ⟨fun zero => absurd zero ok, fun fits => absurd (by omega) full⟩,
        fun zero => absurd zero ok⟩

end Fields

section Iteration

variable {mem : ℤ → UInt8} {f : PbField} {bs rest : List UInt8} {fd : Field}

theorem pbDecodeVarintRest_eq (mem : ℤ → UInt8) (n bitpos result : ℕ) (f : PbField) :
    pbDecodeVarintLoop mem n bitpos result f =
      if (pbDecodeVarintRest mem n bitpos result f).2 then
        some (pbDecodeVarintRest mem n bitpos result f).1
      else none := by
  induction n generalizing bitpos result f with
  | zero => rfl
  | succ n ih =>
    rw [pbDecodeVarintLoop, pbDecodeVarintRest]
    by_cases long : bitpos ≥ 64
    · rw [if_pos long, if_pos long]
      rfl
    · rw [if_neg long, if_neg long]
      cases pbGetByte mem f with
      | none => rfl
      | some r =>
        obtain ⟨byte, f'⟩ := r
        dsimp only
        by_cases more : byte.toNat ≥ 128
        · simp only [if_pos more]
          exact ih _ _ _
        · simp only [if_neg more, if_true]

theorem pbNextEom_nil (unread : Unread mem f []) (eom : Bool) :
    pbNextEom mem f eom = (none, true) := by
  have left : f.left = 0 := unread.left
  simp [pbNextEom, pbDecodeVarintRest, pbGetByte_nil unread, left]

theorem pbNextEom_field (unread : Unread mem f bs) (lt : bs.length < 2 ^ 31)
    (read : readField bs = some (fd, rest)) (eom : Bool) :
    pbNextEom mem f eom = (some (f.take fd rest), eom) := by
  have whole : pbDecodeTag mem f = some (f.take fd rest) := by
    rw [pbDecodeTag_eq unread lt, read]
    rfl
  obtain ⟨⟨t, rest'⟩, tag, cut⟩ := Option.bind_eq_some_iff.mp read
  split_ifs at cut with zero
  have first := pbDecodeVarint_eq unread
  rw [pbDecodeVarint, pbDecodeVarintRest_eq, tag] at first
  rw [pbNextEom, whole]
  rcases run : pbDecodeVarintRest mem 11 0 0 f with ⟨g, ok⟩
  rw [run] at first
  cases ok with
  | false => simp at first
  | true =>
    obtain rfl : g = f.read t rest' := by simpa using first
    exact if_neg zero

/-- The field that was read is the one of the text. -/
theorem take_entry (unread : Unread mem f (fd.wire ++ rest)) (fits : fd.Fits)
    (lt : fd.wire.length < 2 ^ 31) :
    (f.take fd rest).entry mem = (fd.num, fd.value.wireType, some fd.value) := by
  obtain ⟨n, v⟩ := fd
  have num : n < 4294967296 := fits.num.trans (by decide)
  have value := fits.value
  cases v with
  | varint v =>
    simp [PbField.entry, PbField.take, PbField.value, PbField.read, num, Value.wireType, wtVarint, word]
  | fixed64 v =>
    simp [PbField.entry, PbField.take, PbField.value, PbField.read, num, Value.wireType, wtVarint,
      wtFixed64, word]
  | bytes s =>
    have split : (⟨n, .bytes s⟩ : Field).wire ++ rest =
        (varint (n * 8 + 2) ++ varint s.length) ++ (s ++ rest) := by
      simp [Field.wire, Value.wire, Value.wireType]
    have short : s.length < 4294967296 := by
      rw [Field.wire, Value.wire, List.length_append, List.length_append] at lt
      omega
    rw [split] at unread
    generalize varint (n * 8 + 2) ++ varint s.length = pre at unread
    have behind := (unread.skip (n := pre.length) (by simp)).1
    rw [List.drop_left] at behind
    have text := (behind.skip (n := s.length) (by simp)).2
    rw [List.take_left] at text
    have place : f.ptr + f.left - rest.length - s.length = (f.skip pre.length).ptr := by
      rw [unread.left]
      simp only [List.length_append, PbField.skip]
      push_cast
      ring
    simp [PbField.entry, PbField.take, PbField.value, PbField.read, num, Value.wireType, wtVarint,
      wtFixed64, wtString, word, PbField.i32, Nat.mod_eq_of_lt short, place, text]
  | fixed32 v =>
    have small : v < 4294967296 := value
    simp [PbField.entry, PbField.take, PbField.value, PbField.read, num, Value.wireType, wtVarint,
      wtFixed64, wtString, word, PbField.i32, wtFixed32, small]

theorem pbIterate_wire {fields : List Field} (fits : ∀ fd ∈ fields, fd.Fits)
    (lt : (fields.flatMap Field.wire).length < 2 ^ 31)
    (unread : Unread mem f (fields.flatMap Field.wire)) (eom : Bool) {n : ℕ}
    (enough : fields.length < n + 1) :
    ∃ seen, pbIterate mem n (pbNextEom mem f eom) = some (seen, true) ∧ seen.map (PbField.entry mem) =
      fields.map fun fd => (fd.num, fd.value.wireType, some fd.value) := by
  induction fields generalizing f n eom with
  | nil =>
    rw [pbNextEom_nil unread]
    exact ⟨[], by simp [pbIterate], rfl⟩
  | cons fd fields ih =>
    rw [List.flatMap_cons] at lt unread
    have read := readField_wire (fits fd (by simp)) (fields.flatMap Field.wire)
    have next := unread.next read
    rw [pbNextEom_field unread lt read]
    rw [List.length_append] at lt
    obtain ⟨n, rfl⟩ : ∃ m, n = m + 1 := Nat.exists_eq_succ_of_ne_zero (by simp at enough; omega)
    obtain ⟨seen, run, entries⟩ := ih (fun g hg => fits g (by simp [hg])) (by omega) next eom
      (n := n) (by simp at enough; omega)
    refine ⟨f.take fd (fields.flatMap Field.wire) :: seen, by simp [pbIterate, run], ?_⟩
    rw [List.map_cons, List.map_cons, entries, take_entry unread (fits fd (by simp)) (by omega)]

end Iteration

/-- Fields written into a buffer of `size` bytes. -/
structure Streams (mem : ℤ → UInt8) (fs : List PbField) (size : ℕ) : Prop where
  /-- Every call stays inside, uses what was evaluated, and is refused if that is too much. -/
  calls : ∀ pre f post, fs = pre ++ f :: post → (pbAddFields mem (pbInitBuff size) pre).2 = 0 →
    let b := (pbAddFields mem (pbInitBuff size) pre).1
    let r := pbAddField mem b f
    r.1.out.length ≤ size ∧ (r.2 = 0 ↔ b.out.length + (f.wire mem).length ≤ size) ∧
      (r.2 = 0 → r.1.out.length = b.out.length + pbEvalFieldLength f ∧
        r.1.left = b.left - pbEvalFieldLength f)
  /-- If there is room for all, they are read back, wherever their bytes are. -/
  back : (fs.flatMap (PbField.wire mem)).length ≤ size →
    let r := pbAddFields mem (pbInitBuff size) fs
    r.2 = 0 ∧ r.1.out = fs.flatMap (PbField.wire mem) ∧
      ∀ (mem' : ℤ → UInt8) (a : ℤ) (f : PbField) (n : ℕ), slice mem' a r.1.out.length = r.1.out →
        fs.length ≤ n → ∃ seen,
          pbIterate mem' n (pbBeginEom mem' f a r.1.out.length) = some (seen, true) ∧
          seen.map (PbField.entry mem') = fs.map (PbField.entry mem)

/-- The stream of fields comes back. -/
theorem field_stream (mem : ℤ → UInt8) (fs : List PbField) (size : ℕ) (valid : ∀ f ∈ fs, f.Valid)
    (lt : size < 2 ^ 31) : Streams mem fs size where
  calls pre f post split ok := by
    have validPre : ∀ g ∈ pre, g.Valid := fun g hg => valid g (by simp [split, hg])
    have validF : f.Valid := valid f (by simp [split])
    have before := ((pbInitBuff_holds lt).addAll validPre mem).1
    obtain ⟨after, room, out⟩ := before.add validF mem
    refine ⟨after.inside, room, fun zero => ?_⟩
    have fits := room.mp zero
    have length := congrArg List.length (out zero)
    rw [List.length_append] at length
    rw [pbEvalFieldLength_eq validF mem (by omega), after.left, before.left]
    omega
  back fits := by
    obtain ⟨holds, room, out⟩ := (pbInitBuff_holds lt).addAll valid mem
    have start : (pbInitBuff size).out = [] := rfl
    rw [start, List.length_nil, zero_add] at room
    rw [start, List.nil_append] at out
    have zero := room.mpr fits
    refine ⟨zero, out zero, fun mem' a f n text enough => ?_⟩
    rw [out zero] at text ⊢
    have fields : ∃ fields : List Field, (∀ fd ∈ fields, fd.Fits) ∧
        fs.flatMap (PbField.wire mem) = fields.flatMap Field.wire ∧
        (fields.map fun fd => (fd.num, fd.value.wireType, some fd.value)) =
          fs.map (PbField.entry mem) := by
      clear holds room out zero text fits enough
      induction fs with
      | nil => exact ⟨[], by simp, rfl, rfl⟩
      | cons g fs ih =>
        obtain ⟨fields, fits, wires, entries⟩ := ih fun h hh => valid h (by simp [hh])
        obtain ⟨v, value, fits', type, wire⟩ := (valid g (by simp)).text mem
        refine ⟨⟨g.tag, v⟩ :: fields, ?_, by simp [wire, wires], ?_⟩
        · intro fd mem
          rcases List.mem_cons.mp mem with rfl | mem
          · exact fits'
          · exact fits fd mem
        · rw [List.map_cons, List.map_cons, entries, PbField.entry, value, type]
    obtain ⟨fields, fits', wires, entries⟩ := fields
    have length : fields.length = fs.length := by simpa using congrArg List.length entries
    rw [wires] at text fits ⊢
    obtain ⟨seen, run, same⟩ := pbIterate_wire (n := n)
      (f := { f with ptr := a, left := (fields.flatMap Field.wire).length }) fits'
      (by omega) ⟨rfl, text⟩ false (by omega)
    exact ⟨seen, run, same.trans entries⟩

/-- A number and a string, in 16 bytes. -/
theorem field_stream_two :
    Streams (fun _ => 65) [⟨1, wtVarint, 300, 0, 0, 0⟩, ⟨2, wtString, 3, 0, 0, 0⟩] 16 := by
  refine field_stream _ _ _ (fun f mem => ?_) (by decide)
  rcases List.mem_cons.mp mem with rfl | mem
  · exact ⟨by decide, by decide, by decide, by decide⟩
  · rw [List.mem_singleton.mp mem]
    exact ⟨by decide, by decide, by decide, by decide⟩

end Conet.Base.Pbc
