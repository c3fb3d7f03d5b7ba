/- Module: Conet/Svrkit/CmdBaseCodec
   source: svrkit/cmd_base.h, base/src/pbc.cpp
   digest: Packet heads written to buffers of every size, and read back. -/

import Conet.Svrkit.CmdBaseParse

set_option autoImplicit false
set_option relaxedAutoImplicit false

namespace Conet.Svrkit.CmdBaseCodec

open Conet.Lib Conet.Lib.Protobuf Conet.Base.Pbc Conet.Svrkit.CmdBase Conet.Svrkit.CmdBaseParse

section Fields

variable (mem : ℤ → UInt8) (c : CmdBase)

/-- A field that is left out unless `p`. -/
def fieldIf (p : Prop) [Decidable p] (f : Field) : List Field := if p then [f] else []

/-- The fields of a head, in the order in which they are written. -/
def headFields : List Field :=
  fieldIf (c.type > 0) ⟨1, .varint c.type.toNat⟩ ++
  fieldIf (c.cmdName.len > 0 ∧ c.cmdName.data ≠ 0) ⟨2, .bytes (c.cmdName.bytes mem)⟩ ++
  fieldIf (c.cmdId > 0) ⟨3, .varint c.cmdId.toNat⟩ ++
  fieldIf (c.seqId > 0) ⟨4, .varint c.seqId.toNat⟩ ++
  fieldIf (c.ret > 0) ⟨6, .fixed32 c.ret.toNat⟩ ++
  fieldIf (c.errmsg.len > 0) ⟨7, .bytes (c.errmsg.bytes mem)⟩

def bodyField : Option Message → List Field
  | none => []
  | some m => [⟨5, .bytes m.bytes⟩]

/-- The complete encoding of a head with a message as its body. -/
def encoding (msg : Option Message) : List UInt8 :=
  (headFields mem c ++ bodyField msg).flatMap Field.wire

def headPiecesAll : List (List Piece) := (headFields mem c).map pieces

variable {mem c}

@[simp] theorem bytes_length (s : RefStr) (mem : ℤ → UInt8) : (s.bytes mem).length = s.len.toNat :=
  slice_length _ _ _

theorem putAll_fieldIf (b : PbBuff) (p : Prop) [Decidable p] (f : Field) :
    (putAll b ((fieldIf p f).map pieces)).1 = if p then (put b (pieces f)).1 else b := by
  unfold fieldIf
  split_ifs <;> simp [putAll]

theorem serializeCommon_eq (b : PbBuff) :
    serializeCommon mem c b = (putAll b (headPiecesAll mem c)).1 := by
  have type := c.type.toNat_lt
  have id := c.cmdId.toNat_lt
  have seq := c.seqId.toNat_lt
  have name := c.cmdName.len.toNat_lt
  have err := c.errmsg.len.toNat_lt
  have varint (b : PbBuff) (n v : ℕ) (hn : n < 2 ^ 32) (hv : v < 2 ^ 64) :
      (pbAddVarint b n v).1 = (put b (pieces ⟨n, .varint v⟩)).1 := by
    rw [pbAddVarint_eq b hn hv]
    rfl
  have string (b : PbBuff) (n : ℕ) (t : List UInt8) (hn : n < 2 ^ 32) (ht : t.length < 2 ^ 64) :
      (pbAddString b n t).1 = (put b (pieces ⟨n, .bytes t⟩)).1 := pbAddString_eq b hn ht
  have fixed32 (b : PbBuff) (n v : ℕ) (hn : n < 2 ^ 32) :
      (pbAddFixed32 b n v).1 = (put b (pieces ⟨n, .fixed32 v⟩)).1 := pbAddFixed32_eq b hn v
  simp only [headPiecesAll, headFields, List.map_append, putAll_append, putAll_fieldIf,
    serializeCommon]
  rw [varint _ 1 _ (by decide) (by omega), varint _ 3 _ (by decide) (by omega),
    varint _ 4 _ (by decide) (by omega), fixed32 _ 6 _ (by decide),
    string _ 2 _ (by decide) (by rw [bytes_length]; omega),
    string _ 7 _ (by decide) (by rw [bytes_length]; omega)]

/-- Every field is there with a value that is not its default. -/
theorem headFields_cases {p : Field → Prop}
    (type : c.type > 0 → p ⟨1, .varint c.type.toNat⟩)
    (name : c.cmdName.len > 0 → c.cmdName.data ≠ 0 → p ⟨2, .bytes (c.cmdName.bytes mem)⟩)
    (id : c.cmdId > 0 → p ⟨3, .varint c.cmdId.toNat⟩)
    (seq : c.seqId > 0 → p ⟨4, .varint c.seqId.toNat⟩)
    (ret : c.ret > 0 → p ⟨6, .fixed32 c.ret.toNat⟩)
    (err : c.errmsg.len > 0 → p ⟨7, .bytes (c.errmsg.bytes mem)⟩) :
    ∀ f ∈ headFields mem c, p f := by
  intro f hf
  simp only [headFields, fieldIf, List.mem_append, List.mem_ite_nil_right, List.mem_singleton] at hf
  rcases hf with ((((⟨h, rfl⟩ | ⟨h, rfl⟩) | ⟨h, rfl⟩) | ⟨h, rfl⟩) | ⟨h, rfl⟩) | ⟨h, rfl⟩
  exacts [type h, name h.1 h.2, id h, seq h, ret h, err h]

theorem bytes_ne_nil {s : RefStr} (pos : s.len > 0) (mem : ℤ → UInt8) : s.bytes mem ≠ [] := by
  apply List.ne_nil_of_length_pos
  rw [bytes_length]
  exact pos

theorem headFields_real : ∀ f ∈ headPiecesAll mem c, ∀ p ∈ f, p.wire ≠ [] := by
  intro f hf
  obtain ⟨fd, hfd, rfl⟩ := List.mem_map.mp hf
  apply pieces_real
  revert fd
  refine fun fd hfd _ =>
    headFields_cases (p := fun fd => fd.value ≠ .bytes []) ?_ ?_ ?_ ?_ ?_ ?_ fd hfd
  all_goals simp +contextual [bytes_ne_nil]

theorem encoding_fits {msg : Option Message} : ∀ f ∈ headFields mem c ++ bodyField msg, f.Fits := by
  have type := c.type.toNat_lt
  have id := c.cmdId.toNat_lt
  have seq := c.seqId.toNat_lt
  have ret := c.ret.toNat_lt
  have name := c.cmdName.len.toNat_lt
  have err := c.errmsg.len.toNat_lt
  intro f hf
  rcases List.mem_append.mp hf with hf | hf
  · refine headFields_cases (p := Field.Fits) ?_ ?_ ?_ ?_ ?_ ?_ f hf <;> intros <;>
      refine ⟨by simp, by simp, ?_⟩ <;> simp only [Value.Fits, bytes_length] <;> omega
  · cases msg with
    | none => simp [bodyField] at hf
    | some m =>
      obtain rfl : f = ⟨5, .bytes m.bytes⟩ := by simpa [bodyField] using hf
      have small := m.small
      exact ⟨by simp, by simp, show m.bytes.length < 2 ^ 64 by omega⟩

end Fields

/-! ### Reading back -/

/-- What a head says, with the bytes of its strings. -/
@[ext] structure Content where
  type : UInt32
  cmdName : List UInt8
  cmdId : UInt64
  seqId : UInt64
  body : List UInt8
  ret : UInt32
  errmsg : List UInt8

/-- A null name says as little as an empty one. -/
def content (mem : ℤ → UInt8) (c : CmdBase) : Content where
  type := c.type
  cmdName := if c.cmdName.data = 0 then [] else c.cmdName.bytes mem
  cmdId := c.cmdId
  seqId := c.seqId
  body := c.body.bytes mem
  ret := c.ret
  errmsg := c.errmsg.bytes mem

/-- The contents of a head with a message as its body. -/
def contentWith (mem : ℤ → UInt8) (c : CmdBase) (msg : Option Message) : Content :=
  { content mem c with body := msg.elim [] Message.bytes }

/-- What a field adds, as long as its wire type is one that the parser expects for its number. -/
def Content.add (h : Content) (f : Field) : Content :=
  match f.num, f.value with
  | 1, .varint v => { h with type := UInt32.ofNat v }
  | 2, .bytes s => { h with cmdName := s }
  | 3, .varint v => { h with cmdId := UInt64.ofNat v }
  | 4, .varint v => { h with seqId := UInt64.ofNat v }
  | 5, .bytes s => { h with body := s }
  | 6, .varint v => { h with ret := UInt32.ofNat v }
  | 6, .fixed32 v => { h with ret := UInt32.ofNat v }
  | 7, .bytes s => { h with errmsg := s }
  | _, _ => h

/-- The wire types that the parser expects. -/
def Typed (f : Field) : Prop :=
  (f.num, f.value.wireType) ∈
    [(1, wtVarint), (2, wtString), (3, wtVarint), (4, wtVarint), (5, wtString), (6, wtVarint),
      (6, wtFixed32), (7, wtString)]

section Back

variable {mem : ℤ → UInt8} {f start : PbField} {bs left : List UInt8} {buff : ℤ}
  {fs : List (Field × List UInt8)} {fd : Field} {rest : List UInt8} {c : CmdBase}

theorem unread_bytes (unread : Unread mem f bs) (read : readField bs = some (fd, rest))
    {s : List UInt8} (value : fd.value = .bytes s) :
    slice mem (f.ptr + f.left - rest.length - s.length) s.length = s ∧
      f.ptr ≤ f.ptr + f.left - rest.length - s.length := by
  obtain ⟨pre, rfl⟩ := readField_bytes read value
  have left := unread.left
  simp only [List.length_append] at left
  have data : f.ptr + f.left - rest.length - s.length = f.ptr + pre.length := by omega
  rw [List.append_assoc] at unread
  obtain ⟨behind, -⟩ := unread.skip (n := pre.length) (by simp)
  rw [List.drop_left] at behind
  have here := (behind.skip (n := s.length) (by simp)).2
  rw [List.take_left] at here
  rw [data]
  exact ⟨here, by omega⟩

theorem initRefStr_bytes {s : List UInt8} {data : ℤ} (held : slice mem data s.length = s)
    (short : s.length < 2 ^ 32) : (initRefStr data (s.length % 2 ^ 32)).bytes mem = s := by
  have len : (UInt32.ofNat (s.length % 2 ^ 32)).toNat = s.length := by
    rw [UInt32.toNat_ofNat']
    omega
  simp only [RefStr.bytes, initRefStr, len, held]

theorem ofNat_low (v : ℕ) : UInt32.ofNat (v % 2 ^ 32) = UInt32.ofNat v := by
  apply UInt32.toNat_inj.mp
  simp only [UInt32.toNat_ofNat']
  omega

theorem content_parseField (unread : Unread mem f bs) (short : bs.length < 2 ^ 31)
    (nonnull : 0 < f.ptr) (read : readField bs = some (fd, rest)) (typed : Typed fd) :
    content mem (parseField c (f.take fd rest)) = (content mem c).add fd := by
  obtain ⟨num, value⟩ := fd
  cases value with
  | bytes s =>
    obtain ⟨held, above⟩ := unread_bytes unread read rfl
    obtain ⟨pre, rfl⟩ := readField_bytes read rfl
    simp only [List.length_append] at short
    have back := initRefStr_bytes held (by omega)
    have data : f.ptr + f.left - rest.length - s.length ≠ 0 := by omega
    have num : num = 2 ∨ num = 5 ∨ num = 7 := by
      simpa [Typed, Value.wireType, wtVarint, wtString, wtFixed32] using typed
    rcases num with rfl | rfl | rfl
    · have set : parseField c (f.take ⟨2, .bytes s⟩ rest) = { c with
          cmdName := initRefStr (f.ptr + f.left - rest.length - s.length) (s.length % 2 ^ 32) } :=
        rfl
      rw [set, content, back]
      exact Content.ext rfl (if_neg data) rfl rfl rfl rfl rfl
    · have set : parseField c (f.take ⟨5, .bytes s⟩ rest) = { c with
          body := initRefStr (f.ptr + f.left - rest.length - s.length) (s.length % 2 ^ 32) } := rfl
      rw [set, content, back]
      rfl
    · have set : parseField c (f.take ⟨7, .bytes s⟩ rest) = { c with
          errmsg := initRefStr (f.ptr + f.left - rest.length - s.length) (s.length % 2 ^ 32) } :=
        rfl
      rw [set, content, back]
      rfl
  | varint v =>
    have num : num = 1 ∨ num = 3 ∨ num = 4 ∨ num = 6 := by
      simpa [Typed, Value.wireType, wtVarint, wtString, wtFixed32] using typed
    rcases num with rfl | rfl | rfl | rfl
    · have set : parseField c (f.take ⟨1, .varint v⟩ rest) = { c with
          type := UInt32.ofNat (v % 2 ^ 32) } := rfl
      rw [set, ofNat_low]
      rfl
    · rfl
    · rfl
    · have set : parseField c (f.take ⟨6, .varint v⟩ rest) = { c with
          ret := UInt32.ofNat (v % 2 ^ 32) } := rfl
      rw [set, ofNat_low]
      rfl
  | fixed32 v =>
    obtain rfl : num = 6 := by
      simpa [Typed, Value.wireType, wtVarint, wtString, wtFixed32] using typed
    have set : parseField c (f.take ⟨6, .fixed32 v⟩ rest) = { c with
        ret := UInt32.ofNat ((53 / 2 ^ 32 * 2 ^ 32 + v) % 2 ^ 32) } := rfl
    rw [set, Nat.mul_add_mod_self_right, ofNat_low]
    rfl
  | fixed64 v => simp [Typed, Value.wireType, wtVarint, wtString, wtFixed32] at typed

/-- Fields of the right types add up to the contents of the parsed head. -/
theorem content_trail (reads : Reads bs fs left) (unread : Unread mem f bs)
    (short : bs.length < 2 ^ 31) (nonnull : 0 < f.ptr) (typed : ∀ x ∈ fs, Typed x.1) :
    content mem ((trail f fs).foldl parseField c) =
      (fs.map Prod.fst).foldl Content.add (content mem c) := by
  induction reads generalizing f c with
  | stop => rfl
  | @next bs rest left fd fs read tail ih =>
    obtain ⟨_, pre, rfl⟩ := readField_suffix read
    have ptr : 0 < (f.take fd rest).ptr := by
      have sum := unread.left
      simp only [List.length_append, List.length_cons] at sum
      simp only [PbField.take, PbField.read]
      omega
    rw [trail, List.foldl_cons, List.map_cons, List.foldl_cons,
      ← content_parseField unread short nonnull read (typed (fd, rest) (by simp))]
    exact ih (unread.next read) (by simp at short; omega) ptr fun x hx => typed x (by simp [hx])

/-- A text of fields of the right types is parsed to what they add up to. -/
theorem content_parse {fields : List Field} (typed : ∀ fd ∈ fields, Typed fd)
    (fits : ∀ fd ∈ fields, fd.Fits) {len : ℕ}
    (held : slice mem buff len = fields.flatMap Field.wire) (short : len < 2 ^ 31) (nonnull : 0 < buff) :
    content mem (parse mem start buff len CmdBase.init).2 =
      fields.foldl Content.add (content mem CmdBase.init) := by
  obtain ⟨fs, reads, rfl⟩ := reads_wire fits
  rw [← held] at reads
  have unread : Unread mem { start with ptr := buff, left := len } (slice mem buff len) :=
    ⟨by simp, by simp⟩
  rw [parse_eq short reads]
  refine content_trail reads unread (by simpa using short) nonnull fun x hx => typed _ ?_
  exact List.mem_map_of_mem hx

end Back

section Sum

variable {mem mem' : ℤ → UInt8} {c : CmdBase} {msg : Option Message}

theorem encoding_typed : ∀ f ∈ headFields mem c ++ bodyField msg, Typed f := by
  intro f hf
  rcases List.mem_append.mp hf with hf | hf
  · refine headFields_cases (p := Typed) ?_ ?_ ?_ ?_ ?_ ?_ f hf <;> intros <;>
      simp [Typed, Value.wireType, wtVarint, wtString, wtFixed32]
  · cases msg with
    | none => simp [bodyField] at hf
    | some m =>
      obtain rfl : f = ⟨5, .bytes m.bytes⟩ := by simpa [bodyField] using hf
      simp [Typed, Value.wireType, wtString]

theorem foldl_fieldIf {h h' : Content} {p : Prop} [Decidable p] {f : Field}
    (yes : p → h.add f = h') (no : ¬ p → h = h') : (fieldIf p f).foldl Content.add h = h' := by
  unfold fieldIf
  split_ifs with hp
  · exact yes hp
  · exact no hp

theorem content_init : content mem CmdBase.init = ⟨0, [], 0, 0, [], 0, []⟩ := rfl

/-- The fields that are written add up to what the head says. -/
theorem foldl_encoding : (headFields mem c ++ bodyField msg).foldl Content.add
    (content mem' CmdBase.init) = contentWith mem c msg := by
  have zero32 {x : UInt32} (h : ¬ x > 0) : x = 0 := by simpa using h
  have zero64 {x : UInt64} (h : ¬ x > 0) : x = 0 := by simpa using h
  have none {s : RefStr} (h : ¬ s.len > 0) : s.bytes mem = [] := by
    simp [RefStr.bytes, zero32 h, slice]
  have type : (fieldIf (c.type > 0) ⟨1, .varint c.type.toNat⟩).foldl Content.add
      ⟨0, [], 0, 0, [], 0, []⟩ = ⟨c.type, [], 0, 0, [], 0, []⟩ :=
    foldl_fieldIf (fun _ => by simp [Content.add]) fun h => by rw [zero32 h]
  have name : (fieldIf (c.cmdName.len > 0 ∧ c.cmdName.data ≠ 0)
      ⟨2, .bytes (c.cmdName.bytes mem)⟩).foldl Content.add ⟨c.type, [], 0, 0, [], 0, []⟩ =
      ⟨c.type, (content mem c).cmdName, 0, 0, [], 0, []⟩ :=
    foldl_fieldIf (fun h => by simp [Content.add, content, h.2]) fun h => by
      by_cases null : c.cmdName.data = 0
      · simp [content, null]
      · simp [content, none fun pos => h ⟨pos, null⟩]
  have id : (fieldIf (c.cmdId > 0) ⟨3, .varint c.cmdId.toNat⟩).foldl Content.add
      ⟨c.type, (content mem c).cmdName, 0, 0, [], 0, []⟩ =
      ⟨c.type, (content mem c).cmdName, c.cmdId, 0, [], 0, []⟩ :=
    foldl_fieldIf (fun _ => by simp [Content.add]) fun h => by rw [zero64 h]
  have seq : (fieldIf (c.seqId > 0) ⟨4, .varint c.seqId.toNat⟩).foldl Content.add
      ⟨c.type, (content mem c).cmdName, c.cmdId, 0, [], 0, []⟩ =
      ⟨c.type, (content mem c).cmdName, c.cmdId, c.seqId, [], 0, []⟩ :=
    foldl_fieldIf (fun _ => by simp [Content.add]) fun h => by rw [zero64 h]
  have ret : (fieldIf (c.ret > 0) ⟨6, .fixed32 c.ret.toNat⟩).foldl Content.add
      ⟨c.type, (content mem c).cmdName, c.cmdId, c.seqId, [], 0, []⟩ =
      ⟨c.type, (content mem c).cmdName, c.cmdId, c.seqId, [], c.ret, []⟩ :=
    foldl_fieldIf (fun _ => by simp [Content.add]) fun h => by rw [zero32 h]
  have err : (fieldIf (c.errmsg.len > 0) ⟨7, .bytes (c.errmsg.bytes mem)⟩).foldl Content.add
      ⟨c.type, (content mem c).cmdName, c.cmdId, c.seqId, [], c.ret, []⟩ =
      ⟨c.type, (content mem c).cmdName, c.cmdId, c.seqId, [], c.ret, c.errmsg.bytes mem⟩ :=
    foldl_fieldIf (fun _ => by simp [Content.add]) fun h => by rw [none h]
  rw [headFields, content_init]
  simp only [List.foldl_append, type, name, id, seq, ret, err]
  cases msg <;> rfl

/-- Wherever an encoding of less than 2^31 bytes lies, it is parsed to what was encoded. -/
theorem parse_encoding {start : PbField} {buff : ℤ}
    (held : slice mem' buff (encoding mem c msg).length = encoding mem c msg)
    (short : (encoding mem c msg).length < 2 ^ 31) (nonnull : 0 < buff) :
    content mem' (parse mem' start buff (encoding mem c msg).length CmdBase.init).2 =
      contentWith mem c msg := by
  rw [content_parse encoding_typed encoding_fits held short nonnull, foldl_encoding]

end Sum

/-! ### Writing -/

section Write

variable (mem : ℤ → UInt8) (c : CmdBase)

/-- How far the fields of a head get in a buffer of `L` bytes, and whether all of them are
complete. -/
def headLaid (L : ℤ) : ℕ × Bool := laidAll L 0 (headPiecesAll mem c)

/-- How far the header of a body of `n` bytes gets behind them. -/
def headerLaid (L : ℤ) (n : ℕ) : ℕ × Bool :=
  laid L (headLaid mem c L).1 (headPieces wtString 5 n)

variable {L : ℕ} {len : ℕ} {m : Message} {msg : Option Message} {b : PbBuff}

variable {mem c} in
theorem flatMap_headPiecesAll :
    (headPiecesAll mem c).flatMap text = (headFields mem c).flatMap Field.wire := by
  simp [headPiecesAll, List.flatMap_map, text_pieces]

variable {mem c} in
theorem encoding_some : encoding mem c (some m) = (headPiecesAll mem c).flatMap text ++
    text (headPieces wtString 5 m.bytes.length) ++ m.bytes := by
  simp [encoding, bodyField, flatMap_headPiecesAll, text, headPieces, Piece.wire, Field.wire,
    Value.wire, Value.wireType, wtString]

variable {mem c} in
theorem encoding_none : encoding mem c none = (headPiecesAll mem c).flatMap text := by
  simp [encoding, bodyField, flatMap_headPiecesAll]

/-- A buffer of `L` bytes in which something has been written. -/
structure Filling (L : ℕ) (b : PbBuff) : Prop where
  counts : Counts b L
  size : b.size = (pbInitBuff L).size

theorem Filling.encodedLength (filling : Filling L b) :
    (pbGetEncodedLength b % 2 ^ 32).toNat = b.out.length % 2 ^ 32 := by
  have left : b.left = toInt32 (L - b.out.length) := filling.counts
  have size : (b.size : ℤ) = toInt32 L % 2 ^ 64 := by
    rw [filling.size, pbInitBuff, Int.toNat_of_nonneg (Int.emod_nonneg _ (by decide))]
  rw [pbGetEncodedLength, left, size, toInt32_used, toInt32_emod]
  omega

theorem common_spec (L : ℕ) : Filling L (serializeCommon mem c (pbInitBuff L)) ∧
    (serializeCommon mem c (pbInitBuff L)).out.length = (headLaid mem c L).1 ∧
    ((headLaid mem c L).2 = true →
      (serializeCommon mem c (pbInitBuff L)).out = encoding mem c none) := by
  have start : Counts (pbInitBuff L) L := by simp [Counts, pbInitBuff]
  have laid : _ = headLaid mem c L := start.putAll_laid (headPiecesAll mem c)
  rw [serializeCommon_eq]
  refine ⟨⟨start.putAll _, putAll_size _ _⟩, congrArg Prod.fst laid, fun ok => ?_⟩
  rw [putAll_ok ((congrArg Prod.snd laid).trans ok), encoding_none]
  rfl

theorem header_spec (L : ℕ) (m : Message) : ∃ b,
    pbAddStringHead (serializeCommon mem c (pbInitBuff L)) 5 m.bytes.length =
      (b, if (headerLaid mem c L m.bytes.length).2 then 0 else -1) ∧
    Filling L b ∧ b.out.length = (headerLaid mem c L m.bytes.length).1 ∧
    ((headLaid mem c L).2 = true → (headerLaid mem c L m.bytes.length).2 = true →
      b.out ++ m.bytes = encoding mem c (some m)) := by
  obtain ⟨filling, length, full⟩ := common_spec mem c L
  have small := m.small
  have laid := filling.counts.put_laid (headPieces wtString 5 m.bytes.length)
  rw [length] at laid
  refine ⟨_, ?_, ⟨filling.counts.put _, (put_size _ _).trans filling.size⟩,
    congrArg Prod.fst laid, fun ok ok' => ?_⟩
  · rw [pbAddStringHead_eq _ (by decide) (by omega)]
    exact congrArg (Prod.mk _) (if_congr (by rw [headerLaid, ← laid]) rfl rfl)
  · rw [put_ok ((congrArg Prod.snd laid).trans ok'), full ok, encoding_none, encoding_some]

/-- What the serializers have in common: their error, and what they have written by then. -/
def fill (mem : ℤ → UInt8) (c : CmdBase) (L : ℕ) (msg : Option Message) : ℤ × List UInt8 :=
  let b := serializeCommon mem c (pbInitBuff L)
  match msg with
  | none => (0, b.out)
  | some m =>
    match pbAddStringHead b 5 m.bytes.length with
    | (b, 0) =>
      if (b.left - m.bytes.length) % 2 ^ 32 ≤ 0 then (-2, b.out) else (0, b.out ++ m.bytes)
    | (b, _) => (-1, b.out)

theorem impl_eq (pass : len % 2 ^ 32 ≤ (getMaybeSize c + byteSize msg) % 2 ^ 32) :
    serializeCmdBaseImpl mem c len msg (byteSize msg) =
      ⟨(fill mem c (len % 2 ^ 32) msg).1,
        if (fill mem c (len % 2 ^ 32) msg).1 = 0 then
          (fill mem c (len % 2 ^ 32) msg).2.length % 2 ^ 32 else len,
        (fill mem c (len % 2 ^ 32) msg).2⟩ := by
  rw [serializeCmdBaseImpl, if_neg (Nat.not_lt.mpr pass)]
  clear pass
  generalize len % 2 ^ 32 = L
  cases msg with
  | none =>
    obtain ⟨filling, -⟩ := common_spec mem c L
    simp only [fill, filling.encodedLength, if_true]
  | some m =>
    obtain ⟨b, add, filling, -⟩ := header_spec mem c L m
    have full : Filling L
        { b with out := b.out ++ m.bytes, left := toInt32 (b.left - m.bytes.length) } :=
      ⟨filling.counts.add m.bytes, filling.size⟩
    simp only [fill, byteSize, Option.elim_some, add]
    cases (headerLaid mem c L m.bytes.length).2 with
    | false => rfl
    | true =>
      simp only [if_true, full.encodedLength]
      by_cases none : (b.left - m.bytes.length) % 2 ^ 32 ≤ 0
      · simp only [if_pos none]
        rfl
      · simp only [if_neg none, if_true]

theorem send_eq (maxSize : ℕ) : sendCmdBase mem c maxSize msg =
    ⟨(fill mem c (maxSize - 4) msg).1, (fill mem c (maxSize - 4) msg).2,
      if (fill mem c (maxSize - 4) msg).1 = 0 then
        some ((htonl ((fill mem c (maxSize - 4) msg).2.length % 2 ^ 32) ++
          (fill mem c (maxSize - 4) msg).2).take
            ((fill mem c (maxSize - 4) msg).2.length % 2 ^ 32 + 4))
      else none⟩ := by
  unfold sendCmdBase
  generalize maxSize - 4 = L
  cases msg with
  | none =>
    obtain ⟨filling, -⟩ := common_spec mem c L
    simp only [fill, filling.encodedLength, if_true]
  | some m =>
    obtain ⟨b, add, filling, -⟩ := header_spec mem c L m
    have full : Filling L
        { b with out := b.out ++ m.bytes, left := toInt32 (b.left - m.bytes.length) } :=
      ⟨filling.counts.add m.bytes, filling.size⟩
    simp only [fill, byteSize, Option.elim_some, add]
    cases (headerLaid mem c L m.bytes.length).2 with
    | false => rfl
    | true =>
      simp only [if_true, full.encodedLength]
      by_cases none : (b.left - m.bytes.length) % 2 ^ 32 ≤ 0
      · simp only [if_pos none]
        rfl
      · simp only [if_neg none, if_true]

/-- The message would fill the buffer of `L` bytes exactly, as far as 32 bits can tell. -/
def Exact (mem : ℤ → UInt8) (c : CmdBase) (L : ℕ) (m : Message) : Prop :=
  L % 2 ^ 32 = ((headerLaid mem c L m.bytes.length).1 + m.bytes.length) % 2 ^ 32

theorem fill_none : fill mem c L none = (0, (fill mem c L none).2) ∧
    (fill mem c L none).2.length = (headLaid mem c L).1 ∧
    ((headLaid mem c L).2 = true → (fill mem c L none).2 = encoding mem c none) :=
  ⟨rfl, (common_spec mem c L).2⟩

theorem fill_refused (refused : (headerLaid mem c L m.bytes.length).2 = false) :
    (fill mem c L (some m)).1 = -1 ∧
    (fill mem c L (some m)).2.length = (headerLaid mem c L m.bytes.length).1 := by
  obtain ⟨b, add, -, length, -⟩ := header_spec mem c L m
  simp only [fill, add, refused]
  exact ⟨rfl, length⟩

theorem fill_accepted (ok : (headerLaid mem c L m.bytes.length).2 = true) : ∃ out,
    out.length = (headerLaid mem c L m.bytes.length).1 ∧
    (Exact mem c L m → fill mem c L (some m) = (-2, out)) ∧
    (¬ Exact mem c L m → fill mem c L (some m) = (0, out ++ m.bytes)) ∧
    ((headLaid mem c L).2 = true → out ++ m.bytes = encoding mem c (some m)) := by
  obtain ⟨b, add, filling, length, full⟩ := header_spec mem c L m
  have left : b.left = toInt32 (L - b.out.length) := filling.counts
  have room : (b.left - m.bytes.length) % 2 ^ 32 ≤ 0 ↔ Exact mem c L m := by
    rw [left, Exact, ← length]
    unfold toInt32
    omega
  refine ⟨b.out, length, fun exact => ?_, fun other => ?_, fun whole => full whole ok⟩
  · simp only [fill, add, ok, if_true, if_pos (room.mpr exact)]
  · simp only [fill, add, ok, if_true, if_neg (mt room.mp other)]

/-- What is written short of the last piece of the head is not the whole encoding. -/
theorem headLaid_short {L : ℤ} (short : (headLaid mem c L).2 = false) :
    (headLaid mem c L).1 < (encoding mem c none).length := by
  have less := laidAll_short headFields_real short
  rw [encoding_none]
  rwa [Nat.zero_add] at less

theorem headerLaid_le (L : ℤ) : (headerLaid mem c L m.bytes.length).1 + m.bytes.length ≤
    (headLaid mem c L).1 + ((encoding mem c (some m)).length - (encoding mem c none).length) ∧
    (headLaid mem c L).1 ≤ (headerLaid mem c L m.bytes.length).1 := by
  have header := laid_le_text L (headLaid mem c L).1 (headPieces wtString 5 m.bytes.length)
  rw [encoding_some, encoding_none]
  simp only [List.length_append, headerLaid]
  omega

/-- When a buffer that the writer takes for one of `L` bytes gets the whole encoding or an error,
and no byte behind its `n` bytes. -/
def Contained (mem : ℤ → UInt8) (c : CmdBase) (n L : ℕ) : Option Message → Prop
  | none => (headLaid mem c L).2 = true ∧ (encoding mem c none).length ≤ n
  | some m => (headerLaid mem c L m.bytes.length).1 ≤ n ∧
    ((headerLaid mem c L m.bytes.length).2 = false ∨ Exact mem c L m ∨
      (headLaid mem c L).2 = true ∧ (encoding mem c (some m)).length ≤ n)

theorem fill_contained_iff (n L : ℕ) (msg : Option Message) :
    ((fill mem c L msg).2.length ≤ n ∧
      ((fill mem c L msg).1 = 0 → (fill mem c L msg).2 = encoding mem c msg)) ↔
    Contained mem c n L msg := by
  cases msg with
  | none =>
    obtain ⟨zero, length, full⟩ := fill_none mem c (L := L)
    rw [zero, Contained]
    cases ok : (headLaid mem c L).2 with
    | true => simp [full ok]
    | false =>
      have less := headLaid_short mem c ok
      simp only [Bool.false_eq_true, false_and, iff_false, not_and, forall_const]
      intro _ whole
      rw [whole] at length
      omega
  | some m =>
    rw [Contained]
    cases ok : (headerLaid mem c L m.bytes.length).2 with
    | false =>
      obtain ⟨error, length⟩ := fill_refused mem c ok
      simp [error, length]
    | true =>
      obtain ⟨out, length, exact, done, full⟩ := fill_accepted mem c ok
      by_cases fits : Exact mem c L m
      · simp [exact fits, fits, length]
      · simp only [done fits, fits, Bool.true_eq_false, false_or, forall_const, ← length]
        cases whole : (headLaid mem c L).2 with
        | true =>
          rw [← full whole]
          simp only [true_and, and_true, List.length_append]
          omega
        | false =>
          have less := headLaid_short mem c whole
          have header := headerLaid_le mem c (m := m) (L : ℤ)
          simp only [Bool.false_eq_true, false_and, and_false, iff_false, not_and]
          intro _ eq
          have size := congrArg List.length eq
          have tail : (encoding mem c none).length ≤ (encoding mem c (some m)).length := by
            rw [encoding_some, encoding_none]
            simp only [List.length_append]
            omega
          simp only [List.length_append] at size
          omega

/-- For every message and head, `send_cmd_base` with a stream of `maxSize` bytes and
`serialize_cmd_base_impl` with a buffer of `len` bytes stay inside it and write all or report an
error exactly if they are `Contained`, or the estimate of the second one is below its buffer. -/
theorem encode_contained_iff (mem : ℤ → UInt8) (c : CmdBase) (msg : Option Message)
    (maxSize len : ℕ) (four : 4 ≤ maxSize) (int : maxSize < 2 ^ 31) :
    ((4 + (sendCmdBase mem c maxSize msg).written.length ≤ maxSize ∧
        ∀ data, (sendCmdBase mem c maxSize msg).data = some data →
          data = htonl (encoding mem c msg).length ++ encoding mem c msg) ↔
      Contained mem c (maxSize - 4) (maxSize - 4) msg) ∧
    (((serializeCmdBaseImpl mem c len msg (byteSize msg)).out.length ≤ len ∧
        ((serializeCmdBaseImpl mem c len msg (byteSize msg)).ret = 0 →
          (serializeCmdBaseImpl mem c len msg (byteSize msg)).out = encoding mem c msg)) ↔
      (getMaybeSize c + byteSize msg) % 2 ^ 32 < len % 2 ^ 32 ∨
        Contained mem c len (len % 2 ^ 32) msg) := by
  constructor
  · rw [send_eq, ← fill_contained_iff]
    have bound : 4 + (fill mem c (maxSize - 4) msg).2.length ≤ maxSize ↔
        (fill mem c (maxSize - 4) msg).2.length ≤ maxSize - 4 := by omega
    rw [bound]
    apply and_congr_right
    intro inside
    split_ifs with zero
    · have mod : (fill mem c (maxSize - 4) msg).2.length % 2 ^ 32 =
          (fill mem c (maxSize - 4) msg).2.length := Nat.mod_eq_of_lt (by omega)
      have all : (htonl (fill mem c (maxSize - 4) msg).2.length ++
          (fill mem c (maxSize - 4) msg).2).take ((fill mem c (maxSize - 4) msg).2.length + 4) =
          htonl (fill mem c (maxSize - 4) msg).2.length ++ (fill mem c (maxSize - 4) msg).2 := by
        apply List.take_of_length_le
        simp [htonl]
        omega
      rw [mod, all]
      simp only [Option.some.injEq, forall_eq', zero, forall_const]
      constructor
      · intro same
        exact (List.append_inj same (by simp [htonl])).2
      · intro same
        rw [same]
    · simp [zero]
  · by_cases pass : len % 2 ^ 32 ≤ (getMaybeSize c + byteSize msg) % 2 ^ 32
    · rw [impl_eq mem c pass, ← fill_contained_iff]
      exact (or_iff_right (Nat.not_lt.mpr pass)).symm
    · rw [serializeCmdBaseImpl, if_pos (Nat.not_le.mp pass)]
      exact iff_of_true ⟨Nat.zero_le _, fun zero => absurd zero (by simp)⟩
        (.inl (Nat.not_le.mp pass))

def response : CmdBase := { CmdBase.init with type := 2 }

def zeros (n : ℕ) (small : n < 2 ^ 31) : Message := ⟨List.replicate n 0, by simpa using small⟩

/-- A response with a name of two bytes, a number and an error. -/
def namedResponse : CmdBase := { response with cmdName := ⟨2, 1⟩, seqId := 300, ret := 1 }

/-- A message of three bytes fits into 64, behind this head. -/
theorem encode_contained_named :
    (4 + (sendCmdBase (fun _ => 0) namedResponse 64 (some (zeros 3 (by decide)))).written.length ≤ 64 ∧
      ∀ data, (sendCmdBase (fun _ => 0) namedResponse 64 (some (zeros 3 (by decide)))).data = some data →
        data = htonl (encoding (fun _ => 0) namedResponse (some (zeros 3 (by decide)))).length ++
          encoding (fun _ => 0) namedResponse (some (zeros 3 (by decide)))) ∧
    (serializeCmdBaseImpl (fun _ => 0) namedResponse 64 (some (zeros 3 (by decide))) 3).out.length ≤ 64 ∧
    ((serializeCmdBaseImpl (fun _ => 0) namedResponse 64 (some (zeros 3 (by decide))) 3).ret = 0 →
      (serializeCmdBaseImpl (fun _ => 0) namedResponse 64 (some (zeros 3 (by decide))) 3).out =
        encoding (fun _ => 0) namedResponse (some (zeros 3 (by decide)))) := by
  obtain ⟨send, impl⟩ := encode_contained_iff (fun _ => 0) namedResponse (some (zeros 3 (by decide))) 64 64
    (by decide) (by decide)
  exact ⟨send.mpr ⟨by decide, .inr (.inr ⟨by decide, by decide⟩)⟩,
    impl.mpr (.inr ⟨by decide, .inr (.inr ⟨by decide, by decide⟩)⟩)⟩

/-- 20 bytes where 8 are left: the difference is a large `uint32_t`. -/
theorem encode_contained_overrun : ¬ ∀ (mem : ℤ → UInt8) (c : CmdBase) (msg : Option Message)
    (maxSize len : ℕ), 4 ≤ maxSize → maxSize < 2 ^ 31 →
      (4 + (sendCmdBase mem c maxSize msg).written.length ≤ maxSize ∧
        ∀ data, (sendCmdBase mem c maxSize msg).data = some data →
          data = htonl (encoding mem c msg).length ++ encoding mem c msg) ∧
      (serializeCmdBaseImpl mem c len msg (byteSize msg)).out.length ≤ len ∧
      ((serializeCmdBaseImpl mem c len msg (byteSize msg)).ret = 0 →
        (serializeCmdBaseImpl mem c len msg (byteSize msg)).out = encoding mem c msg) := by
  intro claim
  have inside := (claim (fun _ => 0) response (some (zeros 20 (by decide))) 16 16 (by decide)
    (by decide)).1.1
  revert inside
  decide

end Write

/-! ### A buffer of the caller -/

section Caller

variable (mem : ℤ → UInt8) (c : CmdBase) (msg : Option Message)

/-- Wherever the bytes lie, they are parsed to the head and its body. -/
def ParsesBack (bs : List UInt8) : Prop :=
  ∀ (mem' : ℤ → UInt8) (start : PbField) (buff : ℤ), 0 < buff → slice mem' buff bs.length = bs →
    content mem' (parse mem' start buff bs.length CmdBase.init).2 = contentWith mem c msg

/-- What is promised of a serializer that gets a buffer of `len` bytes and writes `front` in front
of the encoding. -/
structure Faithful (len : ℕ) (front : List UInt8) (s : Serialized) : Prop where
  fits : s.ret = 0 ↔ front.length + (encoding mem c msg).length ≤ len
  done : s.ret = 0 → s.len = s.out.length ∧ s.out = front ++ encoding mem c msg ∧
    ParsesBack mem c msg (encoding mem c msg)
  failed : s.ret ≠ 0 → s.len = 0

/-- When `serialize_cmd_base_impl` writes the encoding into a buffer of `len` bytes: the buffer is
not larger than the estimate, nothing is refused, and a message does not fill it exactly. -/
structure Succeeds (len : ℕ) : Prop where
  pass : len % 2 ^ 32 ≤ (getMaybeSize c + byteSize msg) % 2 ^ 32
  head : (headLaid mem c (len % 2 ^ 32 : ℕ)).2 = true
  body : ∀ m, msg = some m → (headerLaid mem c (len % 2 ^ 32 : ℕ) m.bytes.length).2 = true ∧
    (encoding mem c msg).length ≠ len % 2 ^ 32
  fits : (encoding mem c msg).length ≤ len
  int : (encoding mem c msg).length < 2 ^ 31

variable {mem c msg} {m : Message} {L len : ℕ}

theorem pbBegin_negative {mem : ℤ → UInt8} {start : PbField} {buff dlen : ℤ} (neg : dlen < 1) :
    pbBegin mem start buff dlen = none := by
  simp [pbBegin, pbDecodeTag, pbDecodeVarint, pbDecodeVarintLoop, pbGetByte, neg]

theorem encoding_default {mem' : ℤ → UInt8}
    (default : content mem' CmdBase.init = contentWith mem c msg) :
    (encoding mem c msg).length ≤ 2 := by
  rw [content_init] at default
  simp only [contentWith, content, Content.mk.injEq] at default
  obtain ⟨type, name, id, seq, body, ret, err⟩ := default
  have empty {s : RefStr} (h : [] = s.bytes mem) : ¬ s.len > 0 := fun pos =>
    bytes_ne_nil pos mem h.symm
  have name' : ¬ (c.cmdName.len > 0 ∧ c.cmdName.data ≠ 0) := by
    rintro ⟨pos, nonnull⟩
    rw [if_neg nonnull] at name
    exact empty name pos
  have head : headFields mem c = [] := by
    simp [headFields, fieldIf, type.symm, id.symm, seq.symm, ret.symm, empty err, name']
  rw [encoding, head]
  cases msg with
  | none => simp [bodyField]
  | some m =>
    have none : m.bytes = [] := body.symm
    rw [bodyField, none]
    decide

/-- An encoding of 2^31 bytes or more is not parsed at all. -/
theorem parsesBack_iff (lt : (encoding mem c msg).length < 2 ^ 32) :
    ParsesBack mem c msg (encoding mem c msg) ↔ (encoding mem c msg).length < 2 ^ 31 := by
  constructor
  · intro back
    by_contra long
    have whole := back (write (fun _ => 0) 1 (encoding mem c msg)) ⟨0, 0, 0, 0, 0, 0⟩ 1 (by decide)
      (slice_write _ _ _)
    have dlen := toInt32_of_ge (x := (encoding mem c msg).length) (by omega) (by omega)
    rw [parse_none (pbBegin_negative (by omega))] at whole
    have short := encoding_default whole
    omega
  · intro short mem' start buff nonnull held
    exact parse_encoding held short nonnull

theorem exact_iff {L : ℕ} (head : (headLaid mem c L).2 = true)
    (header : (headerLaid mem c L m.bytes.length).2 = true) :
    Exact mem c L m ↔ L % 2 ^ 32 = (encoding mem c (some m)).length % 2 ^ 32 := by
  have first : (headLaid mem c L).1 = _ := laidAll_full head
  have second : (headerLaid mem c L m.bytes.length).1 = _ := laid_full header
  rw [Exact, second, first, encoding_some, List.length_append, List.length_append, Nat.zero_add]

theorem fill_done_iff (L : ℕ) : fill mem c L msg = (0, encoding mem c msg) ↔
    (headLaid mem c L).2 = true ∧ ∀ m, msg = some m →
      (headerLaid mem c L m.bytes.length).2 = true ∧ ¬ Exact mem c L m := by
  constructor
  · intro done
    have contained : Contained mem c (encoding mem c msg).length L msg :=
      (fill_contained_iff mem c _ L msg).mp (by simp [done])
    cases msg with
    | none => exact ⟨contained.1, by simp⟩
    | some m =>
      have accepted : (headerLaid mem c L m.bytes.length).2 = true := by
        by_contra refused
        have error := (fill_refused mem c (Bool.eq_false_of_not_eq_true refused)).1
        simp [done] at error
      have other : ¬ Exact mem c L m := by
        intro exact
        obtain ⟨out, -, error, -⟩ := fill_accepted mem c accepted
        simpa [done] using error exact
      obtain ⟨head, -⟩ : _ ∧ _ := (contained.2.resolve_left (by simp [accepted])).resolve_left other
      refine ⟨head, fun m' eq => ?_⟩
      obtain rfl := Option.some.inj eq
      exact ⟨accepted, other⟩
  · rintro ⟨head, body⟩
    cases msg with
    | none =>
      obtain ⟨eq, -, full⟩ := fill_none mem c (L := L)
      rw [eq, full head]
    | some m =>
      obtain ⟨accepted, other⟩ := body m rfl
      obtain ⟨out, -, -, done, full⟩ := fill_accepted mem c accepted
      rw [done other, full head]

/-- A buffer of 0 bytes has no room for the header of a body. -/
theorem headerLaid_zero (n : ℕ) : (headerLaid mem c 0 n).2 = false := by
  have nothing : (headLaid mem c 0).1 = 0 := by
    have inside := laidAll_inside (L := 0) (n := 0) (by decide) (by simp) (headPiecesAll mem c)
    rw [headLaid]
    omega
  by_contra ok
  have full := laid_full (Bool.eq_true_of_not_eq_false ok)
  have inside := laid_inside (L := 0) (n := 0) (by decide) (by simp) (headPieces wtString 5 n)
  have pos := varint_length_pos n
  rw [nothing] at full
  simp only [text, headPieces, Piece.wire, List.flatMap_cons, List.length_append] at full inside
  omega

theorem succeeds_iff (pass : len % 2 ^ 32 ≤ (getMaybeSize c + byteSize msg) % 2 ^ 32) :
    Succeeds mem c msg len ↔ fill mem c (len % 2 ^ 32) msg = (0, encoding mem c msg) ∧
      (encoding mem c msg).length ≤ len ∧ (encoding mem c msg).length < 2 ^ 31 := by
  rw [fill_done_iff]
  constructor
  · rintro ⟨-, head, body, fits, int⟩
    refine ⟨⟨head, fun m eq => ⟨(body m eq).1, fun exact => (body m eq).2 ?_⟩⟩, fits, int⟩
    subst eq
    have same := (exact_iff head (body m rfl).1).mp exact
    omega
  · rintro ⟨⟨head, body⟩, fits, int⟩
    refine ⟨pass, head, fun m eq => ⟨(body m eq).1, fun same => (body m eq).2 ?_⟩, fits, int⟩
    subst eq
    exact (exact_iff head (body m rfl).1).mpr (by omega)

theorem faithful_impl_iff (len : ℕ) :
    Faithful mem c msg len [] (serializeCmdBaseImpl mem c len msg (byteSize msg)) ↔
      (len = 0 ∧ msg ≠ none) ∨ Succeeds mem c msg len := by
  by_cases pass : len % 2 ^ 32 ≤ (getMaybeSize c + byteSize msg) % 2 ^ 32
  · rw [impl_eq mem c pass, succeeds_iff pass]
    by_cases zero : (fill mem c (len % 2 ^ 32) msg).1 = 0
    · simp only [zero, if_true]
      constructor
      · intro faithful
        obtain ⟨length, out, back⟩ := faithful.done rfl
        have fits := faithful.fits.mp rfl
        simp only [List.nil_append, List.length_nil, Nat.zero_add] at length out fits
        rw [out] at length
        refine .inr ⟨Prod.ext zero out, fits, (parsesBack_iff ?_).mp back⟩
        omega
      · rintro (⟨rfl, body⟩ | ⟨done, fits, int⟩)
        · obtain ⟨m, rfl⟩ := Option.ne_none_iff_exists'.mp body
          simp [(fill_refused mem c (headerLaid_zero m.bytes.length)).1] at zero
        · rw [done]
          refine ⟨by simp [fits], fun _ => ⟨Nat.mod_eq_of_lt (by simp only; omega), by simp, ?_⟩,
            by simp⟩
          exact (parsesBack_iff (by omega)).mpr int
    · constructor
      · intro faithful
        refine .inl ⟨?_, ?_⟩
        · exact (if_neg zero).symm.trans (faithful.failed zero)
        · rintro rfl
          exact zero rfl
      · rintro (⟨rfl, body⟩ | ⟨done, -⟩)
        · refine ⟨⟨fun z => absurd z zero, fun fits => ?_⟩, fun z => absurd z zero, fun _ => ?_⟩
          · obtain ⟨m, rfl⟩ := Option.ne_none_iff_exists'.mp body
            have pos := varint_length_pos m.bytes.length
            rw [encoding_some] at fits
            simp only [text, headPieces, Piece.wire, List.flatMap_cons, List.length_append] at fits
            omega
          · exact if_neg zero
        · exact absurd (congrArg Prod.fst done) zero
  · rw [serializeCmdBaseImpl, if_pos (Nat.not_le.mp pass)]
    constructor
    · intro faithful
      have zero : len = 0 := faithful.failed (by simp)
      simp [zero] at pass
    · rintro (⟨zero, -⟩ | succeeds)
      · simp [zero] at pass
      · exact absurd succeeds.pass pass

theorem impl_len (zero : (serializeCmdBaseImpl mem c len msg (byteSize msg)).ret = 0) :
    (serializeCmdBaseImpl mem c len msg (byteSize msg)).len =
      (serializeCmdBaseImpl mem c len msg (byteSize msg)).out.length % 2 ^ 32 := by
  have pass : len % 2 ^ 32 ≤ (getMaybeSize c + byteSize msg) % 2 ^ 32 := by
    by_contra no
    rw [serializeCmdBaseImpl, if_pos (Nat.not_le.mp no)] at zero
    simp at zero
  rw [impl_eq mem c pass] at zero ⊢
  exact if_pos zero

theorem faithful_buffer_iff (len : ℕ) :
    Faithful mem c msg len (htonl (encoding mem c msg).length) (serializeCmdBase mem c len msg) ↔
      len = 0 ∨ 4 < len ∧ Succeeds mem c msg (len - 4) := by
  have front : (htonl (encoding mem c msg).length).length = 4 := by simp [htonl]
  by_cases small : len ≤ 4
  · rw [serializeCmdBase, if_pos small]
    constructor
    · intro faithful
      exact .inl (faithful.failed (by simp))
    · rintro (rfl | ⟨more, -⟩)
      · exact ⟨by simp [front], by simp, by simp⟩
      · omega
  · have impl : Faithful mem c msg (len - 4) [] _ ↔ _ := faithful_impl_iff (len - 4)
    have room : 4 < len := by omega
    simp only [show len ≠ 0 by omega, show len - 4 ≠ 0 by omega, false_and, false_or, room,
      true_and] at impl ⊢
    rw [← impl, serializeCmdBase, if_neg small]
    have lt : (serializeCmdBaseImpl mem c (len - 4) msg (byteSize msg)).ret = 0 →
        (serializeCmdBaseImpl mem c (len - 4) msg (byteSize msg)).len < 2 ^ 32 := fun zero => by
      rw [impl_len zero]
      exact Nat.mod_lt _ (by decide)
    generalize serializeCmdBaseImpl mem c (len - 4) msg (byteSize msg) = s at lt ⊢
    have fits : (htonl (encoding mem c msg).length).length + (encoding mem c msg).length ≤ len ↔
        ([] : List UInt8).length + (encoding mem c msg).length ≤ len - 4 := by
      rw [front, List.length_nil]
      omega
    by_cases zero : s.ret = 0
    · simp only [zero, ne_eq, not_true_eq_false, if_false]
      have mod := Nat.mod_eq_of_lt (lt zero)
      rw [mod]
      constructor
      · rintro ⟨fits', done, -⟩
        obtain ⟨length, out, back⟩ := done rfl
        obtain ⟨-, out⟩ := List.append_inj out (by simp [htonl])
        have same : s.ret = 0 ↔ (0 : ℤ) = 0 := by simp [zero]
        refine ⟨same.trans (fits'.trans fits), fun _ => ⟨?_, out, back⟩, fun no => absurd zero no⟩
        simp only [List.length_append, htonl, beBytes_length] at length
        omega
      · rintro ⟨fits', done, -⟩
        obtain ⟨length, out, back⟩ := done zero
        rw [List.nil_append] at out
        have same : (0 : ℤ) = 0 ↔ s.ret = 0 := by simp [zero]
        refine ⟨same.trans (fits'.trans fits.symm), fun _ => ⟨?_, ?_, back⟩,
          fun no => absurd rfl no⟩
        · simp only [List.length_append, htonl, beBytes_length]
          have := lt zero
          omega
        · rw [length, out]
    · simp only [zero, ne_eq, not_false_eq_true, if_true]
      exact ⟨fun h => ⟨h.fits.trans fits, fun z => absurd z zero, h.failed⟩,
        fun h => ⟨h.fits.trans fits.symm, fun z => absurd z zero, h.failed⟩⟩

/-- Where the encoding fits, nothing but a success writes it. -/
theorem impl_done_iff {n : ℕ} (fits : (encoding mem c msg).length ≤ n)
    (int : (encoding mem c msg).length < 2 ^ 31) :
    (serializeCmdBaseImpl mem c n msg (byteSize msg)).ret = 0 ∧
      (serializeCmdBaseImpl mem c n msg (byteSize msg)).out = encoding mem c msg ↔
    Succeeds mem c msg n := by
  by_cases pass : n % 2 ^ 32 ≤ (getMaybeSize c + byteSize msg) % 2 ^ 32
  · rw [impl_eq mem c pass, succeeds_iff pass]
    simp only [fits, int, and_true, Prod.ext_iff]
  · rw [serializeCmdBaseImpl, if_pos (Nat.not_le.mp pass)]
    exact ⟨fun h => absurd h.1 (by simp), fun h => absurd h.pass pass⟩

theorem buffer_done_iff {n : ℕ} (fits : (encoding mem c msg).length + 4 ≤ n) (more : 4 < n)
    (int : (encoding mem c msg).length < 2 ^ 31) :
    (serializeCmdBase mem c n msg).ret = 0 ∧ (serializeCmdBase mem c n msg).out =
      htonl (encoding mem c msg).length ++ encoding mem c msg ↔ Succeeds mem c msg (n - 4) := by
  rw [← impl_done_iff (by omega) int, serializeCmdBase, if_neg (Nat.not_le.mpr more)]
  by_cases zero : (serializeCmdBaseImpl mem c (n - 4) msg (byteSize msg)).ret = 0
  · have len := impl_len zero
    simp only [zero, ne_eq, not_true_eq_false, if_false, true_and]
    constructor
    · intro same
      exact (List.append_inj same (by simp [htonl])).2
    · intro same
      rw [len, same, Nat.mod_mod, Nat.mod_eq_of_lt (by omega)]
  · simp [zero]

end Caller

/-- Both serializers keep their promises exactly for a buffer of no bytes, or when they succeed.
`send_rpc_rsp` and `proc_udp_rpc_pb` get what they send for a response that fits exactly then. -/
theorem serialize_faithful_iff (mem : ℤ → UInt8) (c : CmdBase) (msg : Option Message) (len : ℕ) :
    (Faithful mem c msg len [] (serializeCmdBaseImpl mem c len msg (byteSize msg)) ↔
      (len = 0 ∧ msg ≠ none) ∨ Succeeds mem c msg len) ∧
    (Faithful mem c msg len (htonl (encoding mem c msg).length) (serializeCmdBase mem c len msg) ↔
      len = 0 ∨ 4 < len ∧ Succeeds mem c msg (len - 4)) ∧
    ((encoding mem c msg).length + 4 ≤ 10240 →
      ((serializeCmdBase mem c 10240 msg).ret = 0 ∧ (serializeCmdBase mem c 10240 msg).out =
        htonl (encoding mem c msg).length ++ encoding mem c msg ↔ Succeeds mem c msg 10236)) ∧
    (∀ maxPacketSize < 2 ^ 31, (encoding mem c msg).length ≤ maxPacketSize →
      ((serializeCmdBaseImpl mem c maxPacketSize msg (byteSize msg)).ret = 0 ∧
        (serializeCmdBaseImpl mem c maxPacketSize msg (byteSize msg)).out = encoding mem c msg ↔
          Succeeds mem c msg maxPacketSize)) :=
  ⟨faithful_impl_iff len, faithful_buffer_iff len,
    fun fits => buffer_done_iff fits (by decide) (by omega),
    fun _ lt fits => impl_done_iff fits (by omega)⟩

/-- A response of two bytes does not get into 100. -/
theorem serialize_faithful_large : ¬ ∀ (mem : ℤ → UInt8) (c : CmdBase) (msg : Option Message)
    (len : ℕ), Faithful mem c msg len [] (serializeCmdBaseImpl mem c len msg (byteSize msg)) ∧
      Faithful mem c msg len (htonl (encoding mem c msg).length)
        (serializeCmdBase mem c len msg) := by
  intro claim
  have ret := (claim (fun _ => 0) response none 100).1.fits.mpr (by decide)
  revert ret
  decide

/-! ### A vector that grows -/

section Grow

variable {mem : ℤ → UInt8} {c : CmdBase} {msg : Option Message} {m : Message} {L len : ℕ}

/-- The strings of a head and its message. -/
def payload (c : CmdBase) (msg : Option Message) : ℕ :=
  c.body.len.toNat + c.cmdName.len.toNat + c.errmsg.len.toNat + byteSize msg

theorem fieldIf_wire_le {p : Prop} [Decidable p] {f : Field} {n : ℕ} (le : f.wire.length ≤ n) :
    ((fieldIf p f).flatMap Field.wire).length ≤ n := by
  unfold fieldIf
  split_ifs
  · simpa using le
  · simp

/-- The seven tags take a byte each, numbers ten, five or four, and lengths five. -/
theorem encoding_length_le (mem : ℤ → UInt8) (c : CmdBase) (msg : Option Message) :
    (encoding mem c msg).length ≤
      51 + c.cmdName.len.toNat + c.errmsg.len.toNat + byteSize msg := by
  have string (n : ℕ) (s : List UInt8) (tag : n < 16) (lt : s.length < 2 ^ 32) :
      (Field.wire ⟨n, .bytes s⟩).length ≤ 1 + (5 + s.length) := by
    refine Field.wire_length_le tag ?_
    rw [Value.wire, List.length_append]
    exact Nat.add_le_add_right (varint_length_le_five lt) _
  have type : (Field.wire ⟨1, .varint c.type.toNat⟩).length ≤ 1 + 5 :=
    Field.wire_length_le (by simp) (varint_length_le_five c.type.toNat_lt)
  have id : (Field.wire ⟨3, .varint c.cmdId.toNat⟩).length ≤ 1 + 10 :=
    Field.wire_length_le (by simp) (varint_length_le_ten c.cmdId.toNat_lt)
  have seq : (Field.wire ⟨4, .varint c.seqId.toNat⟩).length ≤ 1 + 10 :=
    Field.wire_length_le (by simp) (varint_length_le_ten c.seqId.toNat_lt)
  have ret : (Field.wire ⟨6, .fixed32 c.ret.toNat⟩).length ≤ 1 + 4 :=
    Field.wire_length_le (by simp) (by simp [Value.wire])
  have name := string 2 (c.cmdName.bytes mem) (by decide)
    (by rw [bytes_length]; exact c.cmdName.len.toNat_lt)
  have err := string 7 (c.errmsg.bytes mem) (by decide)
    (by rw [bytes_length]; exact c.errmsg.len.toNat_lt)
  have body : ((bodyField msg).flatMap Field.wire).length ≤ 6 + byteSize msg := by
    cases msg with
    | none => simp [bodyField]
    | some m =>
      have small := m.small
      have five := string 5 m.bytes (by decide) (by omega)
      simp only [bodyField, List.flatMap_cons, List.flatMap_nil, List.append_nil, byteSize,
        Option.elim_some]
      omega
  rw [bytes_length] at name err
  simp only [encoding, headFields, List.flatMap_append, List.length_append]
  have h₁ := fieldIf_wire_le (p := c.type > 0) type
  have h₂ := fieldIf_wire_le (p := c.cmdName.len > 0 ∧ c.cmdName.data ≠ 0) name
  have h₃ := fieldIf_wire_le (p := c.cmdId > 0) id
  have h₄ := fieldIf_wire_le (p := c.seqId > 0) seq
  have h₅ := fieldIf_wire_le (p := c.ret > 0) ret
  have h₆ := fieldIf_wire_le (p := c.errmsg.len > 0) err
  omega

theorem encoding_length_ge (some : c.errmsg.len > 0) :
    c.errmsg.len.toNat + 1 ≤ (encoding mem c msg).length := by
  have tag := varint_length_pos (7 * 8 + 2)
  have err : (fieldIf (c.errmsg.len > 0) ⟨7, .bytes (c.errmsg.bytes mem)⟩).flatMap Field.wire =
      varint (7 * 8 + 2) ++ (varint (c.errmsg.bytes mem).length ++ c.errmsg.bytes mem) := by
    simp [fieldIf, some, Field.wire, Value.wire, Value.wireType]
  simp only [encoding, headFields, List.flatMap_append, err, List.length_append, bytes_length]
  omega

theorem headPiecesAll_isDword (zero : c.ret = 0) :
    ∀ f ∈ headPiecesAll mem c, ∀ p ∈ f, p.isDword = false := by
  intro f hf
  obtain ⟨fd, hfd, rfl⟩ := List.mem_map.mp hf
  apply pieces_isDword
  refine headFields_cases (p := fun fd => fd.value.wireType ≠ wtFixed32) ?_ ?_ ?_ ?_ ?_ ?_ fd hfd
  all_goals simp [zero, Value.wireType, wtFixed32]

/-- There is room for all in a buffer of an `int` size, or of a larger one if there is no `ret`. -/
theorem laid_of_room (lt : L < 2 ^ 32) (room : (encoding mem c msg).length ≤ L)
    (dwords : L < 2 ^ 31 ∨ c.ret = 0) : (headLaid mem c L).2 = true ∧
      ∀ m, msg = some m → (headerLaid mem c L m.bytes.length).2 = true := by
  have short : (encoding mem c none).length ≤ (encoding mem c msg).length := by
    simp [encoding, bodyField]
  have head : (headLaid mem c L).2 = true := by
    apply laidAll_fits (by omega)
    · rw [← encoding_none]
      omega
    · rcases dwords with small | zero
      · exact .inl (by omega)
      · exact .inr (headPiecesAll_isDword zero)
  refine ⟨head, fun m eq => ?_⟩
  subst eq
  rw [headerLaid, headLaid, laidAll_full head]
  apply laid_fits (by omega)
  · rw [encoding_some] at room
    simp only [List.length_append] at room
    omega
  · exact .inr (by simp [headPieces, Piece.isDword])

theorem fill_fits (lt : L < 2 ^ 32) (room : (encoding mem c msg).length < L)
    (dwords : L < 2 ^ 31 ∨ c.ret = 0) : fill mem c L msg = (0, encoding mem c msg) := by
  obtain ⟨head, header⟩ := laid_of_room lt room.le dwords
  rw [fill_done_iff]
  refine ⟨head, fun m eq => ⟨header m eq, fun exact => ?_⟩⟩
  subst eq
  have same := (exact_iff head (header m rfl)).mp exact
  omega

/-- For a buffer of an `int` size the checks of the pieces are one check of the sum. -/
theorem succeeds_int (lt : len < 2 ^ 31) : Succeeds mem c msg len ↔
    len ≤ (getMaybeSize c + byteSize msg) % 2 ^ 32 ∧ (encoding mem c msg).length ≤ len ∧
      (msg ≠ none → (encoding mem c msg).length ≠ len) := by
  have mod : len % 2 ^ 32 = len := Nat.mod_eq_of_lt (by omega)
  constructor
  · rintro ⟨pass, -, body, fits, -⟩
    rw [mod] at pass
    refine ⟨pass, fits, fun some => ?_⟩
    obtain ⟨m, eq⟩ := Option.ne_none_iff_exists'.mp some
    rw [← mod]
    exact (body m eq).2
  · rintro ⟨pass, fits, body⟩
    obtain ⟨head, header⟩ := laid_of_room (by omega) fits (.inl lt)
    refine ⟨by rwa [mod], by rwa [mod], fun m eq => ?_, fits, by omega⟩
    rw [mod]
    exact ⟨header m eq, body (by simp [eq])⟩

/-- For a buffer of an `int` size nothing but a message is written behind its end. -/
theorem contained_int (lt : L < 2 ^ 31) : Contained mem c L L msg ↔
    (encoding mem c msg).length ≤ L ∨ ∃ m, msg = some m ∧
      ((headerLaid mem c L m.bytes.length).2 = false ∨ Exact mem c L m) := by
  have complete (fits : (encoding mem c msg).length ≤ L) : (headLaid mem c L).2 = true :=
    (laid_of_room (by omega) fits (.inl lt)).1
  cases msg with
  | none =>
    simp only [Contained, reduceCtorEq, false_and, exists_false, or_false]
    exact ⟨And.right, fun fits => ⟨complete fits, fits⟩⟩
  | some m =>
    have head : ((headLaid mem c L).1 : ℤ) ≤ L := laidAll_inside (by omega) (by simp) _
    have inside : ((headerLaid mem c L m.bytes.length).1 : ℤ) ≤ L :=
      laid_inside (by omega) head _
    simp only [Contained, Option.some.injEq, exists_eq_left', Nat.cast_le.mp inside, true_and]
    constructor
    · rintro (refused | exact | ⟨-, fits⟩)
      exacts [.inr (.inl refused), .inr (.inr exact), .inl fits]
    · rintro (fits | refused | exact)
      exacts [.inr (.inr ⟨complete fits, fits⟩), .inl refused, .inr (.inl exact)]

theorem vector_eq (lt : 68 + payload c msg < 2 ^ 32)
    (done : fill mem c (64 + payload c msg) msg = (0, encoding mem c msg)) :
    serializeCmdBaseVector mem c msg = ⟨0, 68 + payload c msg, encoding mem c msg,
      htonl (encoding mem c msg).length ++ encoding mem c msg⟩ := by
  have size : (getMaybeSize c + byteSize msg) % 2 ^ 32 = 68 + payload c msg := by
    rw [getMaybeSize, payload, sizeofCmdBase]
    rw [payload] at lt
    omega
  have len : (68 + payload c msg + 2 ^ 64 - 4) % 2 ^ 64 = 64 + payload c msg := by omega
  have mod : (64 + payload c msg) % 2 ^ 32 = 64 + payload c msg := Nat.mod_eq_of_lt (by omega)
  have le := encoding_length_le mem c msg
  have small : (encoding mem c msg).length % 2 ^ 32 = (encoding mem c msg).length :=
    Nat.mod_eq_of_lt (by rw [payload] at lt; omega)
  have all : (htonl (encoding mem c msg).length ++ encoding mem c msg).take
      ((encoding mem c msg).length + 4) =
      htonl (encoding mem c msg).length ++ encoding mem c msg := by
    apply List.take_of_length_le
    simp [htonl]
    omega
  rw [serializeCmdBaseVector, size, len, impl_eq mem c (by rw [mod, size]; omega), mod, done]
  simp only [if_true, ne_eq, not_true_eq_false, if_false, small, all]

/-- The promise of the growing serializer: success, nothing written behind the vector, the length in
front, and the head and its body behind it. -/
structure RoundTrip (mem : ℤ → UInt8) (c : CmdBase) (msg : Option Message) (v : Grown) : Prop where
  ret : v.ret = 0
  inside : 4 + v.written.length ≤ v.maxLen
  front : v.out.take 4 = beBytes 4 (v.out.drop 4).length
  back : ParsesBack mem c msg (v.out.drop 4)

theorem roundTrip_iff (lt : 68 + payload c msg < 2 ^ 32)
    (done : fill mem c (64 + payload c msg) msg = (0, encoding mem c msg)) :
    RoundTrip mem c msg (serializeCmdBaseVector mem c msg) ↔
      (encoding mem c msg).length < 2 ^ 31 := by
  have le := encoding_length_le mem c msg
  have drop : (htonl (encoding mem c msg).length ++ encoding mem c msg).drop 4 =
      encoding mem c msg := List.drop_left' (by simp [htonl])
  have take : (htonl (encoding mem c msg).length ++ encoding mem c msg).take 4 =
      htonl (encoding mem c msg).length := List.take_left' (by simp [htonl])
  have room : (encoding mem c msg).length < 2 ^ 32 := by
    rw [payload] at lt
    omega
  rw [vector_eq lt done, ← parsesBack_iff room]
  constructor
  · intro trip
    have back := trip.back
    rwa [drop] at back
  · intro back
    refine ⟨rfl, ?_, ?_, ?_⟩
    · simp only [payload]
      omega
    · simp only [take, drop]
      rfl
    · simpa only [drop] using back

end Grow

/-- A head with all its strings and a message that stay 64 bytes below the size of an `int` is
written to a vector and read back. -/
theorem vector_round_trip (mem : ℤ → UInt8) (c : CmdBase) (msg : Option Message)
    (small : 64 + payload c msg < 2 ^ 31) :
    RoundTrip mem c msg (serializeCmdBaseVector mem c msg) := by
  have le := encoding_length_le mem c msg
  have room : (encoding mem c msg).length < 64 + payload c msg := by
    rw [payload]
    omega
  exact (roundTrip_iff (by omega) (fill_fits (by omega) room (.inl small))).mpr (by omega)

theorem vector_round_trip_response :
    RoundTrip (fun _ => 0) response (some (zeros 3 (by decide)))
      (serializeCmdBaseVector (fun _ => 0) response (some (zeros 3 (by decide)))) :=
  vector_round_trip _ _ _ (by decide)

/-- An error message of 2^31 - 1 bytes. -/
def longError : CmdBase := { CmdBase.init with errmsg := ⟨2147483647, 1⟩ }

/-- Its packet is too long for an `int`. -/
theorem vector_round_trip_long : ¬ ∀ (mem : ℤ → UInt8) (c : CmdBase) (msg : Option Message),
    (c.cmdName.len > 0 → c.cmdName.data ≠ 0) → (c.errmsg.len > 0 → c.errmsg.data ≠ 0) →
    payload c msg < 2 ^ 31 → RoundTrip mem c msg (serializeCmdBaseVector mem c msg) := by
  intro claim
  have size : payload longError none = 2147483647 := rfl
  have trip := claim (fun _ => 0) longError none (by decide) (by decide) (by rw [size]; decide)
  have le : (encoding (fun _ => 0) longError none).length ≤ 51 + 0 + 2147483647 + 0 :=
    encoding_length_le _ _ _
  have ge : 2147483647 + 1 ≤ (encoding (fun _ => 0) longError none).length :=
    encoding_length_ge (c := longError) (by decide)
  have room : (encoding (fun _ => 0) longError none).length < 64 + payload longError none := by
    rw [size]
    omega
  have done := fill_fits (by rw [size]; decide) room (.inr rfl)
  have short := (roundTrip_iff (by rw [size]; decide) done).mp trip
  omega

end Conet.Svrkit.CmdBaseCodec
