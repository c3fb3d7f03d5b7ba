/- Module: Conet/Svrkit/CmdBaseSchema
   source: svrkit/rpc_base_pb.proto, svrkit/cmd_base.h
   digest: The message CmdBase of the schema with its standard encoding, beside the codec by hand. -/

import Conet.Svrkit.CmdBaseCodec

set_option autoImplicit false
set_option relaxedAutoImplicit false

namespace Conet.Svrkit.CmdBaseSchema

open Conet.Lib Conet.Lib.Protobuf Conet.Base.Pbc Conet.Svrkit.CmdBase Conet.Svrkit.CmdBaseParse
open Conet.Svrkit.CmdBaseCodec

/-- `message CmdBase`; all its fields are optional. `ret` stands for the `sint32` with its bits. -/
@[ext] structure Schema where
  type : Option UInt32
  cmdName : Option (List UInt8)
  cmdId : Option UInt64
  seqId : Option UInt64
  body : Option (List UInt8)
  ret : Option UInt32
  errmsg : Option (List UInt8)
  deriving DecidableEq

namespace Schema

def empty : Schema := ⟨none, none, none, none, none, none, none⟩

/-- What the accessors of a message return. -/
def values (m : Schema) : Content where
  type := m.type.getD 0
  cmdName := m.cmdName.getD []
  cmdId := m.cmdId.getD 0
  seqId := m.seqId.getD 0
  body := m.body.getD []
  ret := m.ret.getD 0
  errmsg := m.errmsg.getD []

/-- The number that a `sint32` is encoded as: twice a number that is not negative, and the odd ones
for the others. -/
def zigzag (r : UInt32) : ℕ := if r.toNat < 2 ^ 31 then 2 * r.toNat else 2 ^ 33 - 1 - 2 * r.toNat

def unzigzag (v : ℕ) : UInt32 :=
  if v % 2 = 0 then UInt32.ofNat (v % 2 ^ 32 / 2) else UInt32.ofNat (2 ^ 32 - 1 - v % 2 ^ 32 / 2)

/-- The fields of a message in its standard encoding. -/
def fields (m : Schema) : List Field :=
  (m.type.map fun v => ⟨1, .varint v.toNat⟩).toList ++
  (m.cmdName.map fun s => ⟨2, .bytes s⟩).toList ++
  (m.cmdId.map fun v => ⟨3, .varint v.toNat⟩).toList ++
  (m.seqId.map fun v => ⟨4, .varint v.toNat⟩).toList ++
  (m.body.map fun s => ⟨5, .bytes s⟩).toList ++
  (m.ret.map fun r => ⟨6, .varint (zigzag r)⟩).toList ++
  (m.errmsg.map fun s => ⟨7, .bytes s⟩).toList

def encode (m : Schema) : List UInt8 := m.fields.flatMap Field.wire

/-- A field with another wire type than the schema's is an unknown one. -/
def add (m : Schema) (f : Field) : Schema :=
  match f.num, f.value with
  | 1, .varint v => { m with type := some (UInt32.ofNat v) }
  | 2, .bytes s => { m with cmdName := some s }
  | 3, .varint v => { m with cmdId := some (UInt64.ofNat v) }
  | 4, .varint v => { m with seqId := some (UInt64.ofNat v) }
  | 5, .bytes s => { m with body := some s }
  | 6, .varint v => { m with ret := some (unzigzag v) }
  | 7, .bytes s => { m with errmsg := some s }
  | _, _ => m

/-- The message that a text is parsed to. -/
def decode (bs : List UInt8) : Option Schema := (readFields bs.length bs).map (·.foldl add empty)

end Schema

section Standard

open Schema

variable {m : Schema} {r : UInt32}

theorem unzigzag_zigzag (r : UInt32) : unzigzag (zigzag r) = r := by
  have lt : r.toNat < 2 ^ 32 := r.toNat_lt
  apply UInt32.toNat_inj.mp
  rw [unzigzag, zigzag]
  by_cases small : r.toNat < 2 ^ 31
  · rw [if_pos small, if_pos (by omega), UInt32.toNat_ofNat']
    omega
  · rw [if_neg small, if_neg (by omega), UInt32.toNat_ofNat']
    omega

theorem zigzag_eq_iff (r : UInt32) : UInt32.ofNat (zigzag r) = r ↔ r = 0 := by
  have lt : r.toNat < 2 ^ 32 := r.toNat_lt
  rw [← UInt32.toNat_inj, ← UInt32.toNat_inj, UInt32.toNat_ofNat', zigzag, UInt32.toNat_zero]
  by_cases small : r.toNat < 2 ^ 31
  · rw [if_pos small]
    omega
  · obtain ⟨k, hk⟩ := Nat.exists_eq_add_of_lt lt
    have odd : 2 ^ 33 - 1 - 2 * r.toNat = 2 * k + 1 := by omega
    have mod : (2 * k + 1) % 2 ^ 32 = 2 * k + 1 := Nat.mod_eq_of_lt (by omega)
    rewrite [if_neg small, odd, mod]
    omega

theorem foldl_toList {α β : Type} {add : α → Field → α} {h h' : α} {o : Option β} {f : β → Field}
    (yes : ∀ v, o = some v → add h (f v) = h') (no : o = none → h = h') :
    ((o.map f).toList).foldl add h = h' := by
  cases o with
  | none => exact no rfl
  | some v => exact yes v rfl

theorem foldl_fields (m : Schema) : m.fields.foldl Schema.add empty = m := by
  have type : ((m.type.map fun v => ⟨1, .varint v.toNat⟩).toList).foldl Schema.add empty =
      ⟨m.type, none, none, none, none, none, none⟩ :=
    foldl_toList (fun v h => by simp [Schema.add, empty, h]) fun h => by rw [h]; rfl
  have name : ((m.cmdName.map fun s => ⟨2, .bytes s⟩).toList).foldl Schema.add
      ⟨m.type, none, none, none, none, none, none⟩ =
      ⟨m.type, m.cmdName, none, none, none, none, none⟩ :=
    foldl_toList (fun v h => by simp [Schema.add, h]) fun h => by rw [h]
  have id : ((m.cmdId.map fun v => ⟨3, .varint v.toNat⟩).toList).foldl Schema.add
      ⟨m.type, m.cmdName, none, none, none, none, none⟩ =
      ⟨m.type, m.cmdName, m.cmdId, none, none, none, none⟩ :=
    foldl_toList (fun v h => by simp [Schema.add, h]) fun h => by rw [h]
  have seq : ((m.seqId.map fun v => ⟨4, .varint v.toNat⟩).toList).foldl Schema.add
      ⟨m.type, m.cmdName, m.cmdId, none, none, none, none⟩ =
      ⟨m.type, m.cmdName, m.cmdId, m.seqId, none, none, none⟩ :=
    foldl_toList (fun v h => by simp [Schema.add, h]) fun h => by rw [h]
  have body : ((m.body.map fun s => ⟨5, .bytes s⟩).toList).foldl Schema.add
      ⟨m.type, m.cmdName, m.cmdId, m.seqId, none, none, none⟩ =
      ⟨m.type, m.cmdName, m.cmdId, m.seqId, m.body, none, none⟩ :=
    foldl_toList (fun v h => by simp [Schema.add, h]) fun h => by rw [h]
  have ret : ((m.ret.map fun r => ⟨6, .varint (zigzag r)⟩).toList).foldl Schema.add
      ⟨m.type, m.cmdName, m.cmdId, m.seqId, m.body, none, none⟩ =
      ⟨m.type, m.cmdName, m.cmdId, m.seqId, m.body, m.ret, none⟩ :=
    foldl_toList (fun v h => by simp [Schema.add, h, unzigzag_zigzag]) fun h => by rw [h]
  have err : ((m.errmsg.map fun s => ⟨7, .bytes s⟩).toList).foldl Schema.add
      ⟨m.type, m.cmdName, m.cmdId, m.seqId, m.body, m.ret, none⟩ = m :=
    foldl_toList (fun v h => by simp [Schema.add, ← h]) fun h => by rw [← h]
  simp only [fields, List.foldl_append, type, name, id, seq, body, ret, err]

/-- For the codec by hand they add up to something else: it does not undo the zigzag. -/
theorem foldl_fields_content (m : Schema) {mem : ℤ → UInt8} :
    m.fields.foldl Content.add (content mem CmdBase.init) =
      { m.values with ret := UInt32.ofNat (zigzag (m.ret.getD 0)) } := by
  have type : ((m.type.map fun v => ⟨1, .varint v.toNat⟩).toList).foldl Content.add
      ⟨0, [], 0, 0, [], 0, []⟩ = ⟨m.type.getD 0, [], 0, 0, [], 0, []⟩ :=
    foldl_toList (fun v h => by simp [Content.add, h]) fun h => by rw [h]; rfl
  have name : ((m.cmdName.map fun s => ⟨2, .bytes s⟩).toList).foldl Content.add
      ⟨m.type.getD 0, [], 0, 0, [], 0, []⟩ =
      ⟨m.type.getD 0, m.cmdName.getD [], 0, 0, [], 0, []⟩ :=
    foldl_toList (fun v h => by simp [Content.add, h]) fun h => by rw [h]; rfl
  have id : ((m.cmdId.map fun v => ⟨3, .varint v.toNat⟩).toList).foldl Content.add
      ⟨m.type.getD 0, m.cmdName.getD [], 0, 0, [], 0, []⟩ =
      ⟨m.type.getD 0, m.cmdName.getD [], m.cmdId.getD 0, 0, [], 0, []⟩ :=
    foldl_toList (fun v h => by simp [Content.add, h]) fun h => by rw [h]; rfl
  have seq : ((m.seqId.map fun v => ⟨4, .varint v.toNat⟩).toList).foldl Content.add
      ⟨m.type.getD 0, m.cmdName.getD [], m.cmdId.getD 0, 0, [], 0, []⟩ =
      ⟨m.type.getD 0, m.cmdName.getD [], m.cmdId.getD 0, m.seqId.getD 0, [], 0, []⟩ :=
    foldl_toList (fun v h => by simp [Content.add, h]) fun h => by rw [h]; rfl
  have body : ((m.body.map fun s => ⟨5, .bytes s⟩).toList).foldl Content.add
      ⟨m.type.getD 0, m.cmdName.getD [], m.cmdId.getD 0, m.seqId.getD 0, [], 0, []⟩ =
      { m.values with ret := 0, errmsg := [] } :=
    foldl_toList (fun v h => by simp [Content.add, h, values]) fun h => by simp [h, values]
  have ret : ((m.ret.map fun r => ⟨6, .varint (zigzag r)⟩).toList).foldl Content.add
      { m.values with ret := 0, errmsg := [] } =
      { m.values with ret := UInt32.ofNat (zigzag (m.ret.getD 0)), errmsg := [] } :=
    foldl_toList (fun v h => by simp [Content.add, h]) fun h => by rw [h]; rfl
  have err : ((m.errmsg.map fun s => ⟨7, .bytes s⟩).toList).foldl Content.add
      { m.values with ret := UInt32.ofNat (zigzag (m.ret.getD 0)), errmsg := [] } =
      { m.values with ret := UInt32.ofNat (zigzag (m.ret.getD 0)) } :=
    foldl_toList (fun v h => by simp [Content.add, h, values]) fun h => by simp [h, values]
  rw [content_init]
  simp only [fields, List.foldl_append, type, name, id, seq, body, ret, err]

/-- The strings of a message have lengths of 64 bits. -/
structure Small (m : Schema) : Prop where
  cmdName : ∀ s, m.cmdName = some s → s.length < 2 ^ 64
  body : ∀ s, m.body = some s → s.length < 2 ^ 64
  errmsg : ∀ s, m.errmsg = some s → s.length < 2 ^ 64

theorem fields_cases {p : Field → Prop}
    (type : ∀ v, m.type = some v → p ⟨1, .varint v.toNat⟩)
    (name : ∀ s, m.cmdName = some s → p ⟨2, .bytes s⟩)
    (id : ∀ v, m.cmdId = some v → p ⟨3, .varint v.toNat⟩)
    (seq : ∀ v, m.seqId = some v → p ⟨4, .varint v.toNat⟩)
    (body : ∀ s, m.body = some s → p ⟨5, .bytes s⟩)
    (ret : ∀ r, m.ret = some r → p ⟨6, .varint (zigzag r)⟩)
    (err : ∀ s, m.errmsg = some s → p ⟨7, .bytes s⟩) : ∀ f ∈ m.fields, p f := by
  intro f hf
  simp only [fields, List.mem_append, Option.mem_toList, Option.map_eq_some_iff] at hf
  rcases hf with (((((⟨v, h, rfl⟩ | ⟨v, h, rfl⟩) | ⟨v, h, rfl⟩) | ⟨v, h, rfl⟩) | ⟨v, h, rfl⟩) |
    ⟨v, h, rfl⟩) | ⟨v, h, rfl⟩
  exacts [type v h, name v h, id v h, seq v h, body v h, ret v h, err v h]

theorem zigzag_lt (r : UInt32) : zigzag r < 2 ^ 64 := by
  have lt : r.toNat < 2 ^ 32 := r.toNat_lt
  rw [zigzag]
  by_cases small : r.toNat < 2 ^ 31
  · rw [if_pos small]
    omega
  · rw [if_neg small]
    omega

theorem fields_fits (small : Small m) : ∀ f ∈ m.fields, f.Fits := by
  refine fields_cases ?_ ?_ ?_ ?_ ?_ ?_ ?_ <;> intro v h <;> refine ⟨by simp, by simp, ?_⟩
  · exact lt_trans v.toNat_lt (by decide)
  · exact small.cmdName v h
  · exact v.toNat_lt
  · exact v.toNat_lt
  · exact small.body v h
  · exact zigzag_lt v
  · exact small.errmsg v h

theorem fields_typed : ∀ f ∈ m.fields, Typed f := by
  refine fields_cases ?_ ?_ ?_ ?_ ?_ ?_ ?_ <;> intros <;>
    simp [Typed, Value.wireType, wtVarint, wtString, wtFixed32]

theorem decode_wire {fields : List Field} (fits : ∀ f ∈ fields, f.Fits) :
    decode (fields.flatMap Field.wire) = some (fields.foldl Schema.add empty) := by
  obtain ⟨fs, reads, rfl⟩ := reads_wire fits
  rw [decode, reads.readFields le_rfl]
  rfl

/-- The standard encoding of the schema is read back. -/
theorem decode_encode (small : Small m) : decode m.encode = some m := by
  rw [encode, decode_wire (fields_fits small), foldl_fields]

end Standard

/-! ### The codec by hand -/

section Hand

open Schema

variable {mem : ℤ → UInt8} {c : CmdBase} {msg : Option Message} {m : Schema}

/-- The fields that `serialize_to` writes. -/
def toFields (mem : ℤ → UInt8) (c : CmdBase) : List Field :=
  headFields mem c ++ fieldIf (c.body.len > 0) ⟨5, .bytes (c.body.bytes mem)⟩

theorem serializeTo_eq {len : ℕ} (room : ((toFields mem c).flatMap Field.wire).length ≤ len)
    (int : len < 2 ^ 31) : serializeTo mem c len =
      ((toFields mem c).flatMap Field.wire, ((toFields mem c).flatMap Field.wire).length) := by
  have body := c.body.len.toNat_lt
  have reset (b : PbBuff) : serializeReset mem c b =
      (putAll b ((fieldIf (c.body.len > 0) ⟨5, .bytes (c.body.bytes mem)⟩).map pieces)).1 := by
    rw [putAll_fieldIf, serializeReset,
      pbAddString_eq b (by decide) (by rw [bytes_length]; omega)]
    rfl
  have all : serializeReset mem c (serializeCommon mem c (pbInitBuff len)) =
      (putAll (pbInitBuff len) ((toFields mem c).map pieces)).1 := by
    rw [reset, serializeCommon_eq, toFields, List.map_append, putAll_append]
    rfl
  have texts : ((toFields mem c).map pieces).flatMap text = (toFields mem c).flatMap Field.wire := by
    simp [List.flatMap_map, text_pieces]
  have start : Counts (pbInitBuff len) len := by simp [Counts, pbInitBuff]
  have laid : _ = laidAll len 0 ((toFields mem c).map pieces) := start.putAll_laid _
  have fits : (laidAll len 0 ((toFields mem c).map pieces)).2 = true :=
    laidAll_fits (by omega) (by rw [texts]; omega) (.inl (by omega))
  have out : (putAll (pbInitBuff len) ((toFields mem c).map pieces)).1.out =
      (toFields mem c).flatMap Field.wire :=
    (putAll_ok ((congrArg Prod.snd laid).trans fits)).trans texts
  have filling : Filling len (putAll (pbInitBuff len) ((toFields mem c).map pieces)).1 :=
    ⟨start.putAll _, putAll_size _ _⟩
  rw [serializeTo, all]
  simp only [filling.encodedLength, out]
  exact congrArg (Prod.mk _) (Nat.mod_eq_of_lt (by omega))

theorem exists_body (mem : ℤ → UInt8) (small : c.body.len.toNat < 2 ^ 31) : ∃ msg : Option Message,
    toFields mem c = headFields mem c ++ bodyField msg ∧ contentWith mem c msg = content mem c := by
  by_cases some : c.body.len > 0
  · refine ⟨Option.some ⟨c.body.bytes mem, by rwa [bytes_length]⟩, ?_, rfl⟩
    rw [toFields, fieldIf, if_pos some]
    rfl
  · have zero : c.body.len = 0 := by simpa using some
    refine ⟨none, ?_, ?_⟩
    · rw [toFields, fieldIf, if_neg some]
      rfl
    · have none : c.body.bytes mem = [] := by simp [RefStr.bytes, zero, slice]
      exact Content.ext rfl rfl rfl rfl none.symm rfl rfl

/-- The schema agrees on every field but the sixth. -/
theorem values_add {h : Schema} {f : Field} (typed : Typed f) (other : f.num ≠ 6) :
    (h.add f).values = h.values.add f := by
  obtain ⟨num, value⟩ := f
  have nums : num = 1 ∨ num = 2 ∨ num = 3 ∨ num = 4 ∨ num = 5 ∨ num = 7 := by
    simp only [Typed, List.mem_cons, Prod.mk.injEq, List.not_mem_nil, or_false] at typed
    simp only [ne_eq] at other
    omega
  rcases nums with rfl | rfl | rfl | rfl | rfl | rfl <;> cases value <;> rfl

theorem values_foldl {fields : List Field} (typed : ∀ f ∈ fields, Typed f)
    (other : ∀ f ∈ fields, f.num ≠ 6) (h : Schema) :
    (fields.foldl Schema.add h).values = fields.foldl Content.add h.values := by
  induction fields generalizing h with
  | nil => rfl
  | cons f fields ih =>
    rw [List.foldl_cons, ih (fun g hg => typed g (by simp [hg])) fun g hg => other g (by simp [hg]),
      values_add (typed f (by simp)) (other f (by simp)), List.foldl_cons]

/-- A `ret` as a fixed32 is an unknown field for the schema. -/
theorem foldl_ret (h : Schema) : (headFields mem c).foldl Schema.add h =
    (headFields mem { c with ret := 0 }).foldl Schema.add h := by
  have skip (h : Schema) :
      (fieldIf (c.ret > 0) ⟨6, .fixed32 c.ret.toNat⟩).foldl Schema.add h = h := by
    unfold fieldIf
    split_ifs <;> rfl
  simp only [headFields, List.foldl_append, skip]
  rfl

theorem headFields_num (zero : c.ret = 0) :
    ∀ f ∈ headFields mem c ++ bodyField msg, f.num ≠ 6 := by
  intro f hf
  rcases List.mem_append.mp hf with hf | hf
  · refine headFields_cases (p := fun f => f.num ≠ 6) ?_ ?_ ?_ ?_ ?_ ?_ f hf <;> simp [zero]
  · cases msg with
    | none => simp [bodyField] at hf
    | some m =>
      obtain rfl : f = ⟨5, .bytes m.bytes⟩ := by simpa [bodyField] using hf
      simp

theorem body_le (mem : ℤ → UInt8) (c : CmdBase) :
    c.body.len.toNat ≤ ((toFields mem c).flatMap Field.wire).length := by
  by_cases some : c.body.len > 0
  · simp only [toFields, fieldIf, if_pos some, List.flatMap_append, List.flatMap_cons, Field.wire,
      Value.wire, List.length_append, bytes_length]
    omega
  · have zero : c.body.len = 0 := by simpa using some
    simp [zero]

theorem decode_encoding (mem : ℤ → UInt8) (c : CmdBase) (msg : Option Message) :
    ∃ m, decode (encoding mem c msg) = some m ∧ m.values = { contentWith mem c msg with ret := 0 } := by
  refine ⟨_, decode_wire encoding_fits, ?_⟩
  rw [List.foldl_append, foldl_ret, ← List.foldl_append,
    values_foldl encoding_typed (headFields_num rfl)]
  exact @foldl_encoding mem mem _ msg

/-- What the schema makes of the bytes of `serialize_to`. -/
theorem decode_toFields (small : ((toFields mem c).flatMap Field.wire).length < 2 ^ 31) :
    ∃ m, decode ((toFields mem c).flatMap Field.wire) = some m ∧
      m.values = { content mem c with ret := 0 } := by
  have le := body_le mem c
  obtain ⟨msg, eq, body⟩ := exists_body mem (c := c) (by omega)
  rw [eq, ← body]
  exact decode_encoding mem c msg

/-- What the codec by hand makes of a standard encoding. -/
theorem parse_encode (start : PbField) {buff : ℤ} (small : Small m) (nonnull : 0 < buff)
    (held : slice mem buff m.encode.length = m.encode) (short : m.encode.length < 2 ^ 31) :
    content mem (parse mem start buff m.encode.length CmdBase.init).2 =
      { m.values with ret := UInt32.ofNat (zigzag (m.ret.getD 0)) } := by
  rw [content_parse fields_typed (fields_fits small) held short nonnull, foldl_fields_content]

theorem wire_le {f : Field} (mem : f ∈ m.fields) : f.wire.length ≤ m.encode.length := by
  obtain ⟨pre, post, eq⟩ := List.append_of_mem mem
  rw [encode, eq]
  simp only [List.flatMap_append, List.flatMap_cons, List.length_append]
  omega

theorem small_of_short (short : m.encode.length < 2 ^ 31) : Small m := by
  have string {n : ℕ} {s : List UInt8} (mem : ⟨n, .bytes s⟩ ∈ m.fields) : s.length < 2 ^ 64 := by
    have le := wire_le mem
    simp only [Field.wire, Value.wire, List.length_append] at le
    omega
  refine ⟨fun s h => string (n := 2) ?_, fun s h => string (n := 5) ?_,
    fun s h => string (n := 7) ?_⟩ <;>
    simp [fields, h]

end Hand

/-- The two codecs agree on a head that the code encodes, and on a message of the schema, exactly if
their `ret` is 0. -/
theorem schema_agrees_iff (mem : ℤ → UInt8) (c : CmdBase) (len : ℕ)
    (room : ((toFields mem c).flatMap Field.wire).length ≤ len) (int : len < 2 ^ 31) (m : Schema)
    (short : m.encode.length < 2 ^ 31) :
    ((Schema.decode ((serializeTo mem c len).1.take (serializeTo mem c len).2)).map Schema.values =
        some (content mem c) ↔ c.ret = 0) ∧
    ((∀ (mem' : ℤ → UInt8) (start : PbField) (buff : ℤ), 0 < buff →
        slice mem' buff m.encode.length = m.encode →
        content mem' (parse mem' start buff m.encode.length CmdBase.init).2 = m.values) ↔
      m.ret.getD 0 = 0) := by
  constructor
  · obtain ⟨d, decoded, values⟩ := decode_toFields (lt_of_le_of_lt room int)
    rw [serializeTo_eq room int, List.take_length, decoded, Option.map_some, values,
      Option.some.injEq]
    constructor
    · intro same
      exact (congrArg Content.ret same).symm
    · intro zero
      exact Content.ext rfl rfl rfl rfl rfl zero.symm rfl
  · have small := small_of_short short
    rw [← zigzag_eq_iff]
    constructor
    · intro same
      have held := slice_write (fun _ => 0) 1 m.encode
      have parsed := parse_encode ⟨0, 0, 0, 0, 0, 0⟩ small (by decide) held short
      exact congrArg Content.ret (parsed.symm.trans (same _ _ 1 (by decide) held))
    · intro zero mem' start buff nonnull held
      rw [parse_encode start small nonnull held short, zero]
      rfl

theorem schema_agrees_response :
    (Schema.decode ((serializeTo (fun _ => 0) response 16).1.take
      (serializeTo (fun _ => 0) response 16).2)).map Schema.values =
        some (content (fun _ => 0) response) :=
  (schema_agrees_iff (fun _ => 0) response 16 (by decide) (by decide)
    { Schema.empty with type := some 2 } (by decide)).1.mpr rfl

def failure : CmdBase := { response with ret := 1 }

/-- For the schema it is a success. -/
theorem schema_agrees_failure : ¬ ∀ (mem : ℤ → UInt8) (c : CmdBase) (len : ℕ),
    ((toFields mem c).flatMap Field.wire).length ≤ len → len < 2 ^ 31 →
    ∀ m : Schema, m.encode.length < 2 ^ 31 →
    (Schema.decode ((serializeTo mem c len).1.take (serializeTo mem c len).2)).map Schema.values =
      some (content mem c) ∧
    ∀ (mem' : ℤ → UInt8) (start : PbField) (buff : ℤ), 0 < buff →
      slice mem' buff m.encode.length = m.encode →
      content mem' (parse mem' start buff m.encode.length CmdBase.init).2 = m.values := by
  intro claim
  have same := (claim (fun _ => 0) failure 16 (by decide) (by decide) Schema.empty (by decide)).1
  have ret := congrArg (Option.map Content.ret) same
  revert ret
  decide

end Conet.Svrkit.CmdBaseSchema
