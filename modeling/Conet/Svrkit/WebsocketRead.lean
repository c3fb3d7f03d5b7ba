/- Module: Conet/Svrkit/WebsocketRead
   source: svrkit/src/http_server.cpp
   digest: The frame reader on streams of well-formed frames, however they are split. -/

import Conet.Svrkit.Websocket

set_option autoImplicit false
set_option relaxedAutoImplicit false

namespace Conet.Svrkit.WebsocketRead

open Conet.Lib Conet.Svrkit.Websocket

/-- The three encodings of a payload length. -/
inductive LenForm
  | short
  | medium
  | long
  deriving DecidableEq

def LenForm.Fits : LenForm → ℕ → Prop
  | .short, n => n ≤ 125
  | .medium, n => n < 2 ^ 16
  | .long, n => n < 2 ^ 63

structure Frame where
  opcode : Fin 16
  rsv : Fin 8
  fin : Bool
  key : Option Key
  form : LenForm
  payload : List UInt8
  fits : form.Fits payload.length

namespace Frame

variable (f : Frame)

def shortLen : Fin 128 :=
  match f.form with
  | .short => Fin.ofNat 128 f.payload.length
  | .medium => 126
  | .long => 127

def head : Head := ⟨f.opcode, f.rsv, f.fin, f.shortLen, f.key.isSome⟩

def ext : List UInt8 :=
  match f.form with
  | .short => []
  | .medium => beBytes 2 f.payload.length
  | .long => beBytes 8 f.payload.length

def keyBytes : List UInt8 :=
  match f.key with
  | some k => k.bytes
  | none => []

def body : List UInt8 :=
  match f.key with
  | some k => applyMask k f.payload
  | none => f.payload

/-- The bytes after the extended length. -/
def tail : List UInt8 := f.keyBytes ++ f.body

def wire : List UInt8 := f.head.toBytes ++ (f.ext ++ f.tail)

def content : Fin 16 × Bool × List UInt8 := (f.opcode, f.fin, f.payload)

end Frame

def wires (fs : List Frame) : List UInt8 := fs.flatMap Frame.wire

/-- What `do_proc_pkg` learns from a packet. -/
def content (p : Packet) : Fin 16 × Bool × List UInt8 := (p.head.opcode, p.head.fin, p.unmasked)

section Codec

@[simp] theorem head_toBytes_length (h : Head) : h.toBytes.length = 2 := rfl

theorem head_ofBytes {h : Head} {b0 b1 : UInt8} (eq : [b0, b1] = h.toBytes) :
    Head.ofBytes b0 b1 = h := by
  obtain ⟨opcode, rsv, fin, payloadLen, mask⟩ := h
  obtain ⟨rfl, rfl⟩ : b0 = _ ∧ b1 = _ := by simpa [Head.toBytes] using eq
  have op := opcode.isLt
  have rs := rsv.isLt
  have len := payloadLen.isLt
  ext
  · cases fin <;> simp [Head.ofBytes]
    omega
  · cases fin <;> simp [Head.ofBytes] <;> omega
  · cases fin <;> simp [Head.ofBytes] <;> omega
  · cases mask <;> simp [Head.ofBytes]
  · cases mask <;> simp [Head.ofBytes] <;> omega

@[simp] theorem key_bytes_length (k : Key) : k.bytes.length = 4 := rfl

theorem key_ofBytes_bytes (k : Key) : Key.ofBytes k.bytes = k := by
  funext i
  match i with
  | 0 => rfl
  | 1 => rfl
  | 2 => rfl
  | 3 => rfl

@[simp] theorem applyMask_length (k : Key) (data : List UInt8) :
    (applyMask k data).length = data.length := by
  simp [applyMask]

theorem applyMask_applyMask (k : Key) (data : List UInt8) :
    applyMask k (applyMask k data) = data := by
  refine List.ext_getElem (by simp) fun i hi hi' => ?_
  simp only [applyMask, List.getElem_mapIdx]
  rw [UInt8.xor_assoc, UInt8.xor_self, UInt8.xor_zero]

@[simp] theorem body_length (f : Frame) : f.body.length = f.payload.length := by
  unfold Frame.body
  split <;> simp

end Codec

/-- The bytes that were received and not parsed yet. -/
def unread (c : Conn) : List UInt8 :=
  slice c.buffer c.prevDataPos (c.dataPos - c.prevDataPos).toNat

/-- The two cursors are in order and inside the buffer. -/
structure Sane (c : Conn) : Prop where
  nonneg : 0 ≤ c.prevDataPos
  le : c.prevDataPos ≤ c.dataPos
  inside : c.dataPos ≤ c.maxBufLen
  int64 : c.maxBufLen < 2 ^ 63

section Cursors

variable {c : Conn} {future xs ys chunk : List UInt8}

theorem Sane.unread_length (sane : Sane c) :
    ((unread c).length : ℤ) = c.dataPos - c.prevDataPos := by
  have le := sane.le
  simp only [unread, slice_length]
  omega

/-- Parsing the next bytes: what they are, and what is left. -/
theorem Sane.consume (sane : Sane c) (c' : Conn) (left : unread c ++ future = xs ++ ys)
    (enough : xs.length ≤ (unread c).length) (buffer : c'.buffer = c.buffer)
    (dataPos : c'.dataPos = c.dataPos) (prev : c'.prevDataPos = c.prevDataPos + xs.length)
    (max : c'.maxBufLen = c.maxBufLen) :
    slice c.buffer c.prevDataPos xs.length = xs ∧ unread c' ++ future = ys ∧ Sane c' := by
  have length := sane.unread_length
  have nonneg := sane.nonneg
  have inside := sane.inside
  have count : (c.dataPos - c.prevDataPos).toNat =
      xs.length + (c'.dataPos - c'.prevDataPos).toNat := by omega
  have split : unread c = slice c.buffer c.prevDataPos xs.length ++ unread c' := by
    rw [unread, unread, buffer, prev, count, slice_add, ← prev]
  rw [split, List.append_assoc] at left
  obtain ⟨first, rest⟩ := List.append_inj left (by simp)
  exact ⟨first, rest, ⟨by omega, by omega, by omega, max ▸ sane.int64⟩⟩

theorem Sane.receive (sane : Sane c) (fits : chunk.length ≤ c.maxBufLen - c.dataPos) :
    unread (receive c chunk) = unread c ++ chunk ∧ Sane (receive c chunk) := by
  have nonneg := sane.nonneg
  have le := sane.le
  refine ⟨?_, ⟨nonneg, ?_, ?_, sane.int64⟩⟩
  · have count : (c.dataPos + chunk.length - c.prevDataPos).toNat =
        (c.dataPos - c.prevDataPos).toNat + chunk.length := by omega
    have here : c.prevDataPos + ((c.dataPos - c.prevDataPos).toNat : ℤ) = c.dataPos := by omega
    simp only [unread, Websocket.receive]
    rw [count, slice_add, here, slice_write, slice_write_of_le (by omega)]
  · simp only [Websocket.receive]
    omega
  · simp only [Websocket.receive]
    omega

end Cursors

/-- The two header bytes of `f` have been parsed. -/
structure AtLen (c : Conn) (f : Frame) (post : List Frame) (future : List UInt8) : Prop where
  sane : Sane c
  state : c.state = .parsePayloadLen
  head : c.head = f.head
  left : unread c ++ future = f.ext ++ (f.tail ++ wires post)

/-- The length of `f` has been parsed. -/
structure AtMasking (c : Conn) (f : Frame) (post : List Frame) (future : List UInt8) : Prop where
  sane : Sane c
  state : c.state = .parseMasking
  head : c.head = f.head
  len : c.payloadLen = f.payload.length
  left : unread c ++ future = f.keyBytes ++ (f.body ++ wires post)

/-- All but the payload of `f` has been parsed. -/
structure AtBody (st : State) (c : Conn) (f : Frame) (post : List Frame) (future : List UInt8) :
    Prop where
  sane : Sane c
  state : c.state = st
  head : c.head = f.head
  len : c.payloadLen = f.payload.length
  key : ∀ k, f.key = some k → c.maskingKey = k
  left : unread c ++ future = f.body ++ wires post

/-- The part of the connection that parsing a header leaves alone. -/
def SameLog (c c' : Conn) : Prop := c'.packets = c.packets ∧ c'.maxBufLen = c.maxBufLen

section Blocks

variable {c : Conn} {f : Frame} {post : List Frame} {future : List UInt8}

theorem wires_cons (f : Frame) (post : List Frame) :
    wires (f :: post) = f.head.toBytes ++ (f.ext ++ (f.tail ++ wires post)) := by
  simp [wires, Frame.wire]

/-- `if (state == READ_PAYLOAD_LEN)`, when a frame is coming. -/
theorem readPayloadLen_spec (sane : Sane c) (state : c.state = .readPayloadLen)
    (left : unread c ++ future = wires (f :: post)) :
    ((unread c).length < 2 ∧ readPayloadLen c = .leave (1, c)) ∨
    2 ≤ (unread c).length ∧
      ∃ c', readPayloadLen c = .again c' ∧ AtLen c' f post future ∧ SameLog c c' := by
  have length := sane.unread_length
  by_cases short : c.dataPos - c.prevDataPos < 2
  · exact .inl ⟨by omega, by simp [readPayloadLen, state, short]⟩
  have turn : readPayloadLen c = _ := (if_pos state).trans (if_neg short)
  refine .inr ⟨by omega, _, turn, ?_, rfl, rfl⟩
  rw [wires_cons] at left
  obtain ⟨bytes, left', sane'⟩ := sane.consume { c with
    head := Head.ofBytes (c.buffer c.prevDataPos) (c.buffer (c.prevDataPos + 1))
    prevDataPos := c.prevDataPos + 2
    state := .parsePayloadLen } left (by simp; omega) rfl rfl rfl rfl
  refine ⟨sane', rfl, head_ofBytes ?_, left'⟩
  rw [← bytes]
  simp [slice, List.range_succ]

theorem ext_beNat (f : Frame) (h : f.form ≠ .short) : beNat f.ext = f.payload.length := by
  have fits := f.fits
  cases form : f.form with
  | short => exact absurd form h
  | medium =>
    simp only [form, LenForm.Fits] at fits
    simp only [Frame.ext, form, beNat_beBytes]
    exact Nat.mod_eq_of_lt (by omega)
  | long =>
    simp only [form, LenForm.Fits] at fits
    simp only [Frame.ext, form, beNat_beBytes]
    exact Nat.mod_eq_of_lt (by omega)

theorem parseExt {n : ℕ} (atLen : AtLen c f post future) (form : f.form ≠ .short)
    (width : f.ext.length = n)
    (turn : parsePayloadLen c = if n ≤ c.dataPos - c.prevDataPos then .again { c with
        payloadLen := beNat (slice c.buffer c.prevDataPos n)
        prevDataPos := c.prevDataPos + n
        state := .parseMasking }
      else .again c) :
    ((unread c).length < f.ext.length ∧ parsePayloadLen c = .again c) ∨
    f.ext.length ≤ (unread c).length ∧
      ∃ c', parsePayloadLen c = .again c' ∧ AtMasking c' f post future ∧ SameLog c c' := by
  subst width
  obtain ⟨sane, state, head, left⟩ := atLen
  have length := sane.unread_length
  rw [Frame.tail, List.append_assoc] at left
  split at turn
  · obtain ⟨bytes, left', sane'⟩ := sane.consume { c with
      payloadLen := beNat (slice c.buffer c.prevDataPos f.ext.length)
      prevDataPos := c.prevDataPos + f.ext.length
      state := .parseMasking } left (by omega) rfl rfl rfl rfl
    refine .inr ⟨by omega, _, turn, ⟨sane', rfl, head, ?_, left'⟩, rfl, rfl⟩
    rw [bytes, ext_beNat f form]
  · exact .inl ⟨by omega, turn⟩

/-- `if (state == PARSE_PAYLOAD_LEN)`: without all of the extended length nothing changes. -/
theorem parsePayloadLen_spec (atLen : AtLen c f post future) :
    ((unread c).length < f.ext.length ∧ parsePayloadLen c = .again c) ∨
    f.ext.length ≤ (unread c).length ∧
      ∃ c', parsePayloadLen c = .again c' ∧ AtMasking c' f post future ∧ SameLog c c' := by
  have short : c.head.payloadLen = f.shortLen := by rw [atLen.head]; rfl
  have state := atLen.state
  cases form : f.form with
  | short =>
    obtain ⟨sane, -, head, left⟩ := atLen
    have fits := f.fits
    simp only [form, LenForm.Fits] at fits
    have nil : f.ext = [] := by simp [Frame.ext, form]
    have val : (c.head.payloadLen : ℕ) = f.payload.length := by
      rw [short, Frame.shortLen, form]
      exact Nat.mod_eq_of_lt (by omega)
    have ne126 : c.head.payloadLen ≠ 126 := fun e => by
      rw [e] at val
      simp at val
      omega
    have ne127 : c.head.payloadLen ≠ 127 := fun e => by
      rw [e] at val
      simp at val
      omega
    have turn : parsePayloadLen c = _ := (if_pos state).trans ((if_neg ne126).trans (if_neg ne127))
    rw [nil, Frame.tail, List.nil_append, List.append_assoc] at left
    rw [nil]
    exact .inr ⟨Nat.zero_le _, _, turn, ⟨⟨sane.nonneg, sane.le, sane.inside, sane.int64⟩, rfl, head, val, left⟩,
      rfl, rfl⟩
  | medium =>
    have is126 : c.head.payloadLen = 126 := by rw [short, Frame.shortLen, form]
    exact parseExt atLen (by simp [form]) (by simp [Frame.ext, form])
      ((if_pos state).trans (if_pos is126))
  | long =>
    have is127 : c.head.payloadLen = 127 := by rw [short, Frame.shortLen, form]
    exact parseExt atLen (by simp [form]) (by simp [Frame.ext, form])
      ((if_pos state).trans ((if_neg (by simp [is127])).trans (if_pos is127)))

theorem parseMasking_spec (atMasking : AtMasking c f post future) :
    ((unread c).length < f.keyBytes.length ∧ parseMasking c = .leave (1, c)) ∨
    f.keyBytes.length ≤ (unread c).length ∧
      ∃ c', parseMasking c = .again c' ∧ AtBody .calcRestSize c' f post future ∧ SameLog c c' := by
  obtain ⟨sane, state, head, len, left⟩ := atMasking
  have length := sane.unread_length
  have mask : c.head.mask = f.key.isSome := by rw [head]; rfl
  cases key : f.key with
  | none =>
    have nil : f.keyBytes = [] := by simp [Frame.keyBytes, key]
    have turn : parseMasking c = _ := (if_pos state).trans (if_neg (by simp [mask, key]))
    rw [nil, List.nil_append] at left
    rw [nil]
    exact .inr ⟨Nat.zero_le _, _, turn,
      ⟨⟨sane.nonneg, sane.le, sane.inside, sane.int64⟩, rfl, head, len, by simp [key], left⟩, rfl, rfl⟩
  | some k =>
    have bytes : f.keyBytes = k.bytes := by simp [Frame.keyBytes, key]
    have masked : parseMasking c = if 4 ≤ c.dataPos - c.prevDataPos then _ else _ :=
      (if_pos state).trans (if_pos (by simp [mask, key]))
    rw [bytes] at left ⊢
    split at masked
    · obtain ⟨read, left', sane'⟩ := sane.consume { c with
        maskingKey := Key.ofBytes (slice c.buffer c.prevDataPos 4)
        prevDataPos := c.prevDataPos + 4
        state := .calcRestSize } left (by simp; omega) rfl rfl rfl rfl
      refine .inr ⟨by simp; omega, _, masked, ⟨sane', rfl, head, len, ?_, left'⟩, rfl, rfl⟩
      intro k' hk'
      obtain rfl : k = k' := by simpa [key] using hk'
      rw [key_bytes_length] at read
      simp only [read, key_ofBytes_bytes]
    · exact .inl ⟨by simp; omega, masked⟩

theorem payload_lt (f : Frame) : f.payload.length < 2 ^ 63 := by
  have fits := f.fits
  cases form : f.form <;> simp only [form, LenForm.Fits] at fits <;> omega

/-- `if (state == CALC_REST_SIZE)`: after it the whole payload has room in the buffer. -/
theorem calcRestSize_spec (body : AtBody .calcRestSize c f post future)
    (small : f.payload.length ≤ c.maxBufLen) :
    ∃ c', calcRestSize c = .again c' ∧ AtBody .readData c' f post future ∧ SameLog c c' ∧
      c'.prevDataPos + f.payload.length ≤ c'.maxBufLen := by
  obtain ⟨sane, state, head, len, key, left⟩ := body
  have le := sane.le
  have nonneg := sane.nonneg
  have inside := sane.inside
  have int64 : toInt64 c.payloadLen = f.payload.length := by
    rw [len, toInt64_of_lt (payload_lt f)]
  have turn : calcRestSize c = if c.maxBufLen - c.dataPos < toInt64 c.payloadLen then _ else _ :=
    if_pos state
  rw [int64] at turn
  split at turn
  · have same : unread { c with
        buffer := write c.buffer 0 (unread c)
        dataPos := c.dataPos - c.prevDataPos
        prevDataPos := 0
        state := .readData } = unread c := by
      have written := slice_write c.buffer 0 (unread c)
      simp only [unread, slice_length] at written
      simpa [unread] using written
    refine ⟨_, turn, ⟨⟨le_rfl, ?_, ?_, sane.int64⟩, rfl, head, len, key, same ▸ left⟩,
      ⟨rfl, rfl⟩, ?_⟩
    · simp only
      omega
    · simp only
      omega
    · simpa using small
  · refine ⟨_, turn, ⟨⟨nonneg, le, inside, sane.int64⟩, rfl, head, len, key, left⟩, ⟨rfl, rfl⟩, ?_⟩
    simp only
    omega

theorem readData_spec (body : AtBody .readData c f post future) :
    ((unread c).length < f.payload.length ∧ readData c = .leave (1, c)) ∨
    f.payload.length ≤ (unread c).length ∧
      ∃ c', readData c = .again c' ∧ AtBody .procMsg c' f post future ∧ SameLog c c' ∧
        unread c' = unread c := by
  obtain ⟨sane, state, head, len, key, left⟩ := body
  have length := sane.unread_length
  have int64 : toInt64 c.payloadLen = f.payload.length := by
    rw [len, toInt64_of_lt (payload_lt f)]
  have turn : readData c = if c.dataPos - c.prevDataPos < toInt64 c.payloadLen then _ else _ :=
    if_pos state
  rw [int64] at turn
  split at turn
  · exact .inl ⟨by omega, turn⟩
  · exact .inr ⟨by omega, _, turn, ⟨⟨sane.nonneg, sane.le, sane.inside, sane.int64⟩, rfl, head, len,
      key, left⟩, ⟨rfl, rfl⟩, rfl⟩

/-- What `do_proc_pkg` writes: the log, and nothing of the buffer after the payload. -/
theorem doProcPkg_fields (c : Conn) :
    ∃ buffer head toClose sendQueue msgs, doProcPkg c = { c with
      buffer := buffer
      head := head
      toClose := toClose
      sendQueue := sendQueue
      msgs := msgs
      packets := c.packets ++
        [⟨c.head, c.payloadLen, c.maskingKey, slice c.buffer c.prevDataPos c.payloadLen⟩] } ∧
    ∀ n, slice buffer (c.prevDataPos + c.payloadLen) n =
      slice c.buffer (c.prevDataPos + c.payloadLen) n := by
  unfold doProcPkg
  simp only
  split_ifs
  · exact ⟨_, _, _, _, _, rfl, fun _ => rfl⟩
  · exact ⟨_, _, _, _, _, rfl, fun _ => rfl⟩
  · refine ⟨_, _, _, _, _, rfl, fun n => slice_write_of_ge ?_⟩
    simp only [Packet.unmasked]
    split <;> simp

/-- `if (state == PROC_MSG)`: the packet is the frame. -/
theorem procMsg_spec (body : AtBody .procMsg c f post future)
    (enough : f.payload.length ≤ (unread c).length) :
    ∃ c' p, procMsg c = .again c' ∧ Sane c' ∧ c'.state = .readPayloadLen ∧
      unread c' ++ future = wires post ∧ c'.packets = c.packets ++ [p] ∧
      content p = f.content ∧ c'.maxBufLen = c.maxBufLen := by
  obtain ⟨sane, state, head, len, key, left⟩ := body
  have length := sane.unread_length
  have nonneg := sane.nonneg
  have inside := sane.inside
  have int64 := sane.int64
  obtain ⟨bytes, left', sane'⟩ := sane.consume
    { c with prevDataPos := c.prevDataPos + f.body.length } left (by simpa using enough)
    rfl rfl rfl rfl
  obtain ⟨buffer, head', toClose, sendQueue, msgs, eq, frame⟩ :=
    doProcPkg_fields { c with state := .readPayloadLen }
  have wrap : wrapInt64 (c.prevDataPos + c.payloadLen) = c.prevDataPos + f.body.length := by
    rw [body_length, len]
    exact wrapInt64_of_lt (by omega) (by omega)
  have turn : procMsg c = _ := if_pos state
  simp only [eq, wrap] at turn
  refine ⟨_, _, turn, ⟨sane'.nonneg, sane'.le, sane'.inside, sane'.int64⟩, rfl, ?_, rfl, ?_, rfl⟩
  · have same := frame (c.dataPos - (c.prevDataPos + f.body.length)).toNat
    simp only [len, ← body_length f] at same
    rw [← left']
    simp only [unread, same]
  · rw [← body_length f] at len
    simp only [content, Frame.content, head, Packet.unmasked, len, bytes, Frame.head]
    cases fkey : f.key with
    | none => simp [Frame.body, fkey]
    | some k => simp [Frame.body, fkey, key k fkey, applyMask_applyMask]

end Blocks

/-- Where the reader stands between two turns of its loop: `todo` are the frames it has not
delivered, of which the bytes `future` have not arrived. -/
inductive Phase (future : List UInt8) (c : Conn) : List Frame → Prop
  | head {todo : List Frame} (sane : Sane c) (state : c.state = .readPayloadLen)
      (left : unread c ++ future = wires todo) : Phase future c todo
  | masking {f : Frame} {post : List Frame} (masking : AtMasking c f post future) :
      Phase future c (f :: post)
  | body {f : Frame} {post : List Frame} (body : AtBody .readData c f post future) :
      Phase future c (f :: post)

/-- The blocks from some point of the turn on leave the loop in the middle of `f`, of which some
bytes are missing, or deliver it. -/
def Delivers (t : Turn Conn (ℤ × Conn)) (c : Conn) (f : Frame) (post : List Frame)
    (future : List UInt8) : Prop :=
  (∃ c', t = .leave (1, c') ∧ Phase future c' (f :: post) ∧ SameLog c c' ∧
    (wires post).length < future.length) ∨
  ∃ c' p, t = .again c' ∧ Phase future c' post ∧ c'.packets = c.packets ++ [p] ∧
    content p = f.content ∧ c'.maxBufLen = c.maxBufLen

section Turn

variable {c c₁ : Conn} {f : Frame} {post todo : List Frame} {future : List UInt8}
  {t : Turn Conn (ℤ × Conn)}

theorem Delivers.of_sameLog (same : SameLog c c₁) (delivers : Delivers t c₁ f post future) :
    Delivers t c f post future := by
  obtain ⟨packets, max⟩ := same
  rcases delivers with ⟨c', turn, phase, ⟨packets', max'⟩, missing⟩ |
    ⟨c', p, turn, phase, packets', hp, max'⟩
  · exact .inl ⟨c', turn, phase, ⟨packets'.trans packets, max'.trans max⟩, missing⟩
  · exact .inr ⟨c', p, turn, phase, packets ▸ packets', hp, max'.trans max⟩

theorem missing_of_short {xs : List UInt8} (left : unread c ++ future = xs ++ wires post)
    (short : (unread c).length < xs.length) : (wires post).length < future.length := by
  have lengths := congrArg List.length left
  simp only [List.length_append] at lengths
  omega

theorem deliver_body (body : AtBody .readData c f post future) :
    Delivers ((readData c).andThen procMsg) c f post future := by
  rcases readData_spec body with ⟨short, turn⟩ | ⟨enough, c₁, turn, body₁, same, unread₁⟩
  · rw [turn]
    have missing := missing_of_short body.left (by simpa using short)
    exact .inl ⟨c, rfl, .body body, ⟨rfl, rfl⟩, missing⟩
  · obtain ⟨c', p, turn', sane, state, left, packets, hp, max⟩ :=
      procMsg_spec body₁ (by rw [unread₁]; exact enough)
    rw [turn, Turn.again_andThen, turn']
    exact .of_sameLog same (.inr ⟨c', p, rfl, .head sane state left, packets, hp, max⟩)

theorem deliver_masking (masking : AtMasking c f post future)
    (small : f.payload.length ≤ c.maxBufLen) :
    Delivers ((parseMasking c).andThen fun c => (calcRestSize c).andThen fun c =>
      (readData c).andThen procMsg) c f post future := by
  rcases parseMasking_spec masking with ⟨short, turn⟩ | ⟨-, c₁, turn, body, same⟩
  · rw [turn]
    have left := masking.left
    rw [← List.append_assoc] at left
    have missing := missing_of_short left (by simp; omega)
    exact .inl ⟨c, rfl, .masking masking, ⟨rfl, rfl⟩, missing⟩
  · obtain ⟨c₂, turn₂, body₂, same₂, -⟩ := calcRestSize_spec body (same.2 ▸ small)
    rw [turn, Turn.again_andThen, turn₂, Turn.again_andThen]
    exact .of_sameLog same (.of_sameLog same₂ (deliver_body body₂))

theorem deliver_len (atLen : AtLen c f post future) (small : f.payload.length ≤ c.maxBufLen)
    (whole : f.ext.length ≤ (unread c).length) :
    Delivers ((parsePayloadLen c).andThen fun c => (parseMasking c).andThen fun c =>
      (calcRestSize c).andThen fun c => (readData c).andThen procMsg) c f post future := by
  rcases parsePayloadLen_spec atLen with ⟨short, -⟩ | ⟨-, c₁, turn, masking, same⟩
  · exact absurd whole (Nat.not_le.mpr short)
  · rw [turn, Turn.again_andThen]
    exact .of_sameLog same (deliver_masking masking (same.2 ▸ small))

end Turn

/-- The bytes that have not arrived begin inside the extended length of a frame: the last byte that
has arrived is the second header byte, or one of the length but not its last. -/
def Cut (fs : List Frame) (future : List UInt8) : Prop :=
  ∃ pre f post, fs = pre ++ f :: post ∧ (f.tail ++ wires post).length < future.length ∧
    future.length ≤ (f.ext ++ (f.tail ++ wires post)).length

section Turns

variable {c c' : Conn} {f : Frame} {post todo : List Frame} {future : List UInt8}

theorem Cut.cons (cut : Cut post future) : Cut (f :: post) future := by
  obtain ⟨pre, g, rest, rfl, cut⟩ := cut
  exact ⟨f :: pre, g, rest, rfl, cut⟩

theorem readTurn_delivers (phase : Phase future c (f :: post))
    (small : f.payload.length ≤ c.maxBufLen)
    (uncut : (f.tail ++ wires post).length < future.length →
      (f.ext ++ (f.tail ++ wires post)).length < future.length) :
    Delivers (readTurn c) c f post future := by
  unfold readTurn
  cases phase with
  | head sane state left =>
    rcases readPayloadLen_spec sane state left with ⟨short, turn⟩ | ⟨-, c₁, turn, atLen, same⟩
    · rw [turn]
      have split : unread c ++ future = f.wire ++ wires post := by
        rw [left, wires_cons, Frame.wire]
        simp
      have missing := missing_of_short split (by simp [Frame.wire]; omega)
      exact .inl ⟨c, rfl, .head sane state left, ⟨rfl, rfl⟩, missing⟩
    · rw [turn, Turn.again_andThen]
      refine .of_sameLog same (deliver_len atLen (same.2 ▸ small) ?_)
      by_contra short
      have lengths := congrArg List.length atLen.left
      simp only [List.length_append] at lengths uncut
      omega
  | masking masking =>
    have skip₁ : readPayloadLen c = .again c := if_neg (by simp [masking.state])
    have skip₂ : parsePayloadLen c = .again c := if_neg (by simp [masking.state])
    rw [skip₁, Turn.again_andThen, skip₂, Turn.again_andThen]
    exact deliver_masking masking small
  | body body =>
    have skip₁ : readPayloadLen c = .again c := if_neg (by simp [body.state])
    have skip₂ : parsePayloadLen c = .again c := if_neg (by simp [body.state])
    have skip₃ : parseMasking c = .again c := if_neg (by simp [body.state])
    have skip₄ : calcRestSize c = .again c := if_neg (by simp [body.state])
    rw [skip₁, Turn.again_andThen, skip₂, Turn.again_andThen, skip₃, Turn.again_andThen, skip₄,
      Turn.again_andThen]
    exact deliver_body body

/-- When every frame has been delivered the loop is left. -/
theorem readTurn_idle (phase : Phase future c []) : readTurn c = .leave (1, c) := by
  obtain ⟨sane, state, left⟩ | _ | _ := phase
  have length := sane.unread_length
  have nil : unread c = [] := (List.append_eq_nil_iff.mp left).1
  rw [nil] at length
  have turn : readPayloadLen c = .leave (1, c) := by
    simp only [readPayloadLen, state, if_true]
    rw [if_pos (by simp at length; omega)]
  rw [readTurn, turn, Turn.leave_andThen]

/-- The reader has delivered the frames `todo` up to the first one that is not complete. -/
structure Served (future : List UInt8) (c : Conn) (todo : List Frame) (r : ℤ × Conn) (done rest : List Frame) : Prop where
  ret : r.1 = 1
  split : todo = done ++ rest
  phase : Phase future r.2 rest
  packets : r.2.packets.map content = c.packets.map content ++ done.map Frame.content
  max : r.2.maxBufLen = c.maxBufLen
  missing : ∀ f post, rest = f :: post → (wires post).length < future.length

theorem read_returns (phase : Phase future c todo)
    (small : ∀ f ∈ todo, f.payload.length ≤ c.maxBufLen) (uncut : ¬ Cut todo future) :
    ∃ r, Loop.Returns readTurn c r ∧ ∃ done rest, Served future c todo r done rest := by
  induction todo generalizing c with
  | nil =>
    exact ⟨_, .of_leave (readTurn_idle phase), [], [], rfl, rfl, phase, by simp, rfl, by simp⟩
  | cons f post ih =>
    have uncut_f : (f.tail ++ wires post).length < future.length →
        (f.ext ++ (f.tail ++ wires post)).length < future.length := fun lt =>
      not_le.mp fun le => uncut ⟨[], f, post, rfl, lt, le⟩
    rcases readTurn_delivers phase (small f (by simp)) uncut_f with
      ⟨c', turn, phase', ⟨packets, max⟩, missing⟩ | ⟨c', p, turn, phase', packets, hp, max⟩
    · refine ⟨_, .of_leave turn, [], f :: post, rfl, rfl, phase', by simp [packets], max, ?_⟩
      intro g rest cons
      cases cons
      exact missing
    · have small' : ∀ g ∈ post, g.payload.length ≤ c'.maxBufLen := fun g hg =>
        max ▸ small g (List.mem_cons_of_mem _ hg)
      obtain ⟨r, returns, done, rest, served⟩ := ih phase' small' fun cut => uncut cut.cons
      refine ⟨r, (Loop.returns_again turn).mpr returns, f :: done, rest, served.ret,
        by simp [served.split], served.phase, ?_, served.max.trans max, served.missing⟩
      simp [served.packets, packets, hp]

/-- In the middle of an extended length a turn changes nothing. -/
theorem readTurn_stuck (atLen : AtLen c f post future)
    (short : (unread c).length < f.ext.length) : readTurn c = .again c := by
  have skip₁ : readPayloadLen c = .again c := if_neg (by simp [atLen.state])
  have stay : parsePayloadLen c = .again c := by
    rcases parsePayloadLen_spec atLen with ⟨-, turn⟩ | ⟨whole, -⟩
    · exact turn
    · exact absurd whole (Nat.not_le.mpr short)
  have skip₃ : parseMasking c = .again c := if_neg (by simp [atLen.state])
  have skip₄ : calcRestSize c = .again c := if_neg (by simp [atLen.state])
  have skip₅ : readData c = .again c := if_neg (by simp [atLen.state])
  have skip₆ : procMsg c = .again c := if_neg (by simp [atLen.state])
  simp only [readTurn, skip₁, stay, skip₃, skip₄, skip₅, skip₆, Turn.again_andThen]

/-- At the frame whose length is cut the reader comes to stand in the middle of it. -/
theorem readTurn_reaches_cut (phase : Phase future c (f :: post))
    (cut : (f.tail ++ wires post).length < future.length)
    (cut' : future.length ≤ (f.ext ++ (f.tail ++ wires post)).length) :
    ∃ c', readTurn c = .again c' ∧ AtLen c' f post future ∧ (unread c').length < f.ext.length := by
  cases phase with
  | head sane state left =>
    have lengths := congrArg List.length left
    rw [wires_cons] at lengths
    simp only [List.length_append, head_toBytes_length] at lengths cut cut'
    rcases readPayloadLen_spec sane state left with ⟨short, -⟩ | ⟨-, c₁, turn, atLen, -⟩
    · omega
    · have lengths₁ := congrArg List.length atLen.left
      simp only [List.length_append] at lengths₁
      have short : (unread c₁).length < f.ext.length := by omega
      refine ⟨c₁, ?_, atLen, short⟩
      have stuck := readTurn_stuck atLen short
      have skip : readPayloadLen c₁ = .again c₁ := if_neg (by simp [atLen.state])
      rw [readTurn, skip, Turn.again_andThen] at stuck
      rw [readTurn, turn, Turn.again_andThen, stuck]
  | masking masking =>
    have lengths := congrArg List.length masking.left
    simp only [Frame.tail, List.length_append] at lengths cut
    omega
  | body body =>
    have lengths := congrArg List.length body.left
    simp only [Frame.tail, List.length_append] at lengths cut
    omega

/-- When an extended length is cut the loop is not left. -/
theorem read_diverges (phase : Phase future c todo)
    (small : ∀ f ∈ todo, f.payload.length ≤ c.maxBufLen) (cut : Cut todo future) :
    Loop.Diverges readTurn c := by
  refine Loop.diverges_of_invariant (fun c =>
    (∃ todo, Phase future c todo ∧ (∀ f ∈ todo, f.payload.length ≤ c.maxBufLen) ∧
      Cut todo future) ∨
    ∃ f post, AtLen c f post future ∧ (unread c).length < f.ext.length) ?_ c
    (.inl ⟨todo, phase, small, cut⟩)
  rintro c (⟨todo, phase, small, pre, g, rest, rfl, lt, le⟩ | ⟨f, post, atLen, short⟩)
  · cases pre with
    | nil =>
      obtain ⟨c', turn, atLen, short⟩ := readTurn_reaches_cut phase lt le
      exact ⟨c', turn, .inr ⟨g, rest, atLen, short⟩⟩
    | cons f pre =>
      have all : future.length ≤ (wires (pre ++ g :: rest)).length := by
        refine le.trans ?_
        simp only [wires, Frame.wire, List.flatMap_append, List.flatMap_cons, List.length_append]
        omega
      rw [List.cons_append] at phase
      have uncut : (f.tail ++ wires (pre ++ g :: rest)).length < future.length →
          (f.ext ++ (f.tail ++ wires (pre ++ g :: rest))).length < future.length := by
        simp only [List.length_append]
        omega
      rcases readTurn_delivers phase (small f (by simp)) uncut with
        ⟨c', turn, -, -, missing⟩ | ⟨c', p, turn, phase', packets, hp, max⟩
      · exact absurd missing (Nat.not_lt.mpr all)
      · refine ⟨c', turn, .inl ⟨pre ++ g :: rest, phase', fun f hf => ?_, pre, g, rest, rfl, lt, le⟩⟩
        exact max ▸ small f (List.mem_cons_of_mem _ hf)
  · exact ⟨c, readTurn_stuck atLen short, .inr ⟨f, post, atLen, short⟩⟩

end Turns

/-- Successive `do_read` calls that all return 1, with the chunks that `recv` came back with. -/
inductive Reads : Conn → List (List UInt8) → Conn → Prop
  | nil {c : Conn} : Reads c [] c
  | cons {chunks : List (List UInt8)} {chunk : List UInt8} {c c' c'' : Conn} :
      DoRead c (.data chunk) (1, c') → Reads c' chunks c'' → Reads c (chunk :: chunks) c''

section Runs

variable {fs : List Frame} {max : ℤ} {chunks : List (List UInt8)} {chunk future : List UInt8}
  {c c' c'' : Conn}

/-- A connection between two reads: the frames `done` have been delivered. -/
structure Between (fs : List Frame) (max : ℤ) (future : List UInt8) (c : Conn) (done todo : List Frame) : Prop where
  split : fs = done ++ todo
  phase : Phase future c todo
  packets : c.packets.map content = done.map Frame.content
  max : c.maxBufLen = max
  missing : ∀ f post, todo = f :: post → (wires post).length < future.length

theorem Phase.sane (phase : Phase future c fs) : Sane c := by
  cases phase with
  | head sane => exact sane
  | masking masking => exact masking.sane
  | body body => exact body.sane

theorem Phase.receive (phase : Phase (chunk ++ future) c fs)
    (fits : chunk.length ≤ c.maxBufLen - c.dataPos) : Phase future (receive c chunk) fs := by
  have move : ∀ {xs}, unread c ++ (chunk ++ future) = xs →
      unread (Websocket.receive c chunk) ++ future = xs := by
    intro xs left
    rw [(phase.sane.receive fits).1, List.append_assoc, left]
  have sane := (phase.sane.receive fits).2
  cases phase with
  | head _ state left => exact .head sane state (move left)
  | masking masking =>
    exact .masking ⟨sane, masking.state, masking.head, masking.len, move masking.left⟩
  | body body =>
    exact .body ⟨sane, body.state, body.head, body.len, body.key, move body.left⟩

/-- Only bytes of frames that are not delivered are missing. -/
theorem Phase.length_le (phase : Phase future c fs) : future.length ≤ (wires fs).length := by
  cases phase with
  | head sane state left =>
    have lengths := congrArg List.length left
    simp only [List.length_append] at lengths
    omega
  | masking masking =>
    have lengths := congrArg List.length masking.left
    rw [wires_cons]
    simp only [Frame.tail, List.length_append] at lengths ⊢
    omega
  | body body =>
    have lengths := congrArg List.length body.left
    rw [wires_cons]
    simp only [Frame.tail, List.length_append] at lengths ⊢
    omega

theorem wires_append (fs gs : List Frame) : wires (fs ++ gs) = wires fs ++ wires gs :=
  List.flatMap_append

/-- A length that is cut belongs to a frame that is not delivered. -/
theorem cut_append {done todo : List Frame} (le : future.length ≤ (wires todo).length) :
    Cut (done ++ todo) future ↔ Cut todo future := by
  induction done with
  | nil => rfl
  | cons f done ih =>
    rw [List.cons_append, ← ih]
    refine ⟨?_, Cut.cons⟩
    rintro ⟨_ | ⟨g, pre⟩, h, post, split, lt, le'⟩
    · obtain ⟨rfl, rfl⟩ := List.cons.inj split
      rw [wires_append] at lt
      simp only [List.length_append] at lt
      omega
    · exact ⟨pre, h, post, (List.cons.inj split).2, lt, le'⟩

theorem between_init (nonneg : 0 ≤ max) (int64 : max < 2 ^ 63) :
    Between fs max (wires fs) (Conn.init max) [] fs where
  split := rfl
  phase := .head ⟨le_rfl, le_rfl, nonneg, int64⟩ rfl (by simp [unread, Conn.init])
  packets := rfl
  max := rfl
  missing := by
    rintro f post rfl
    rw [wires_cons]
    simp only [List.length_append, head_toBytes_length]
    omega

variable {done todo : List Frame}

/-- A read that is possible comes back unless it ends inside an extended length; then it never does. -/
theorem Between.read (between : Between fs max (chunk ++ future) c done todo)
    (small : ∀ f ∈ fs, f.payload.length ≤ max) (some : chunk ≠ [])
    (fits : chunk.length ≤ max - c.dataPos) :
    (Cut fs future ∧ ∀ r, ¬ DoRead c (.data chunk) r) ∨
    ¬ Cut fs future ∧ ∃ c', DoRead c (.data chunk) (1, c') ∧
      ∃ done' todo', Between fs max future c' done' todo' := by
  obtain ⟨rfl, phase, packets, rfl, missing⟩ := between
  have arrived := phase.receive fits
  have small' : ∀ f ∈ todo, f.payload.length ≤ (receive c chunk).maxBufLen := fun f hf =>
    small f (List.mem_append_right _ hf)
  have room : 0 < c.maxBufLen - c.dataPos := by
    have pos := List.length_pos_iff.mpr some
    omega
  rw [cut_append arrived.length_le]
  by_cases cut : Cut todo future
  · refine .inl ⟨cut, fun r read => ?_⟩
    have diverges := read_diverges arrived small' cut
    cases read with
    | full _ rest => omega
    | data _ _ returns => exact diverges.not_returns returns
  · obtain ⟨⟨ret, c'⟩, returns, done', rest, served⟩ := read_returns arrived small' cut
    obtain rfl : ret = 1 := served.ret
    refine .inr ⟨cut, c', .data some fits returns, done ++ done', rest, ?_⟩
    refine ⟨by rw [served.split, List.append_assoc], served.phase, ?_, served.max, served.missing⟩
    rw [served.packets, List.map_append, ← packets]
    rfl

theorem DoRead.unique (read : DoRead c (.data chunk) (1, c'))
    (read' : DoRead c (.data chunk) (1, c'')) : c' = c'' := by
  cases read with
  | data some fits returns =>
    cases read' with
    | data _ _ returns' => exact (Prod.ext_iff.mp (returns.unique returns')).2

theorem Reads.unique (reads : Reads c chunks c') (reads' : Reads c chunks c'') : c' = c'' := by
  induction reads with
  | nil =>
    cases reads'
    rfl
  | cons read _ ih =>
    cases reads' with
    | cons read' reads' =>
      cases DoRead.unique read read'
      exact ih reads'

theorem reads_append {pre post : List (List UInt8)} :
    Reads c (pre ++ post) c'' ↔ ∃ c', Reads c pre c' ∧ Reads c' post c'' := by
  induction pre generalizing c with
  | nil =>
    refine ⟨fun reads => ⟨c, .nil, reads⟩, ?_⟩
    rintro ⟨c', reads, reads'⟩
    cases reads
    exact reads'
  | cons chunk pre ih =>
    constructor
    · intro reads
      cases reads with
      | cons read reads =>
        obtain ⟨c', reads, reads'⟩ := ih.mp reads
        exact ⟨c', .cons read reads, reads'⟩
    · rintro ⟨c', reads, reads'⟩
      cases reads with
      | cons read reads => exact .cons read (ih.mpr ⟨c', reads, reads'⟩)

/-- After every sequence of successful reads the frames that are complete have been delivered. -/
theorem Reads.between (reads : Reads c chunks c')
    (between : Between fs max (chunks.flatten ++ future) c done todo)
    (small : ∀ f ∈ fs, f.payload.length ≤ max) :
    ∃ done' todo', Between fs max future c' done' todo' := by
  induction reads generalizing done todo with
  | nil => exact ⟨done, todo, between⟩
  | cons read _ ih =>
    rw [List.flatten_cons, List.append_assoc] at between
    obtain ⟨some, fits⟩ : _ ∧ _ := by
      cases read with
      | data some fits _ => exact ⟨some, fits⟩
    rcases between.read small some (between.max ▸ fits) with ⟨-, none⟩ | ⟨-, c₁, read₁, done', todo', between'⟩
    · exact absurd read (none _)
    · cases DoRead.unique read read₁
      exact ih between'

/-- `recv` never brings more than `do_read` asks for. -/
def Possible (c : Conn) (chunks : List (List UInt8)) : Prop :=
  ∀ pre chunk post c', chunks = pre ++ chunk :: post → Reads c pre c' →
    c'.dataPos < c'.maxBufLen → chunk.length ≤ c'.maxBufLen - c'.dataPos

/-- Every frame of the stream has been delivered when nothing is missing. -/
theorem Between.all (between : Between fs max [] c done todo) :
    c.packets.map content = fs.map Frame.content := by
  cases todo with
  | nil => rw [between.packets, between.split, List.append_nil]
  | cons f post => exact absurd (between.missing f post rfl) (by simp)

end Runs

/-- The reader delivers the frames of a stream, however it is split, exactly when no read finds the
buffer full and no chunk ends inside an extended length. -/
theorem reader_exact_iff (fs : List Frame) (max : ℤ) (chunks : List (List UInt8)) (nonneg : 0 ≤ max)
    (int64 : max < 2 ^ 63) (small : ∀ f ∈ fs, f.payload.length ≤ max - 14)
    (stream : chunks.flatten = wires fs) (some : ∀ chunk ∈ chunks, chunk ≠ [])
    (possible : Possible (Conn.init max) chunks) :
    (∃ c, Reads (Conn.init max) chunks c ∧ c.packets.map content = fs.map Frame.content) ↔
      ∀ pre chunk post c, chunks = pre ++ chunk :: post → Reads (Conn.init max) pre c →
        c.dataPos < max ∧ ¬ Cut fs post.flatten := by
  have small' : ∀ f ∈ fs, f.payload.length ≤ max := fun f hf => by
    have := small f hf
    omega
  have start : Between fs max (wires fs) _ [] fs := between_init nonneg int64
  have between : ∀ {pre post c}, chunks = pre ++ post → Reads (Conn.init max) pre c →
      ∃ done todo, Between fs max post.flatten c done todo := by
    rintro pre post c rfl reads
    rw [← stream, List.flatten_append] at start
    exact reads.between start small'
  constructor
  · rintro ⟨c, reads, -⟩ pre chunk post c₁ rfl reads₁
    obtain ⟨c₁', reads₁', reads₂⟩ := reads_append.mp reads
    cases reads₁.unique reads₁'
    obtain ⟨done, todo, between₁⟩ := between rfl reads₁
    cases reads₂ with
    | cons read _ =>
      have chunk_ne := some chunk (by simp)
      cases read with
      | data _ fits returns =>
        have pos := List.length_pos_iff.mpr chunk_ne
        rw [between₁.max] at fits
        refine ⟨by omega, fun cut => ?_⟩
        rw [List.flatten_cons] at between₁
        rcases between₁.read small' chunk_ne fits with ⟨-, none⟩ | ⟨uncut, -⟩
        · exact none _ (.data chunk_ne (between₁.max ▸ fits) returns)
        · exact uncut cut
  · intro condition
    -- no read along the chunks fails
    have onward : ∀ post pre c, chunks = pre ++ post → Reads (Conn.init max) pre c →
        ∃ c', Reads (Conn.init max) chunks c' := by
      intro post
      induction post with
      | nil => exact fun pre c split reads => ⟨c, by rwa [split, List.append_nil]⟩
      | cons chunk post ih =>
        intro pre c split reads
        obtain ⟨room, uncut⟩ := condition pre chunk post c split reads
        obtain ⟨done, todo, between₁⟩ := between split reads
        rw [List.flatten_cons] at between₁
        have fits := possible pre chunk post c split reads (between₁.max ▸ room)
        rw [between₁.max] at fits
        rcases between₁.read small' (some chunk (by simp [split])) fits with
          ⟨cut, -⟩ | ⟨-, c', read, -⟩
        · exact absurd cut uncut
        · exact ih (pre ++ [chunk]) c' (by simp [split])
            (reads_append.mpr ⟨c, reads, .cons read .nil⟩)
    obtain ⟨c, reads⟩ := onward chunks [] _ rfl .nil
    obtain ⟨done, todo, all⟩ := between (List.append_nil _).symm reads
    exact ⟨c, reads, all.all⟩

def helloFrame : Frame where
  opcode := 0x1
  rsv := 0
  fin := true
  key := some fun i => Fin.cases 1 (fun _ => 2) i
  form := .short
  payload := [7]
  fits := by simp [LenForm.Fits]

/-- A binary frame without a key. -/
def plainFrame : Frame where
  opcode := 0x2
  rsv := 0
  fin := true
  key := none
  form := .short
  payload := [5, 6]
  fits := by simp [LenForm.Fits]

/-- The first chunk ends within the key of the first frame, the second one within the second frame. -/
def threeChunks : List (List UInt8) :=
  [(wires [helloFrame, plainFrame]).take 3, ((wires [helloFrame, plainFrame]).drop 3).take 6,
    (wires [helloFrame, plainFrame]).drop 9]

theorem threeChunks_reads : ∃ c₁ c₂ : Conn,
    Reads (Conn.init 64) (threeChunks.take 1) c₁ ∧ Reads (Conn.init 64) (threeChunks.take 2) c₂ ∧
      c₁.dataPos < 32 ∧ c₁.maxBufLen = 64 ∧ c₂.dataPos < 32 ∧ c₂.maxBufLen = 64 := by
  have first : ∃ c₁ : Conn, DoRead (Conn.init 64) (.data (threeChunks.getD 0 [])) (1, c₁) ∧
      ∃ c₂ : Conn, DoRead c₁ (.data (threeChunks.getD 1 [])) (1, c₂) ∧
        c₁.dataPos < 32 ∧ c₁.maxBufLen = 64 ∧ c₂.dataPos < 32 ∧ c₂.maxBufLen = 64 :=
    ⟨_, .data (by decide) (by decide) ⟨2, rfl⟩, _, .data (by decide) (by decide) ⟨3, rfl⟩, by decide,
      by decide, by decide, by decide⟩
  obtain ⟨c₁, one, c₂, two, bounds⟩ := first
  exact ⟨c₁, c₂, .cons one .nil, .cons one (.cons two .nil), bounds⟩

theorem reader_exact_three_chunks :
    ∃ c, Reads (Conn.init 64) threeChunks c ∧
      c.packets.map content = [(0x1, true, [7]), (0x2, true, [5, 6])] := by
  obtain ⟨c₁, c₂, one, two, pos₁, max₁, pos₂, max₂⟩ := threeChunks_reads
  have parts : ∀ {pre post : List (List UInt8)} {chunk : List UInt8} {c : Conn},
      threeChunks = pre ++ chunk :: post → Reads (Conn.init 64) pre c →
        c.dataPos < 32 ∧ c.maxBufLen = 64 ∧ chunk.length ≤ 32 := by
    intro pre post chunk c split reads
    have taken : pre = threeChunks.take pre.length := by simp [split]
    have few : threeChunks.length = 3 := rfl
    rw [split, List.length_append, List.length_cons] at few
    have short : chunk.length ≤ 32 :=
      (show ∀ chunk ∈ threeChunks, chunk.length ≤ 32 by decide) chunk (by simp [split])
    rw [taken] at reads
    generalize pre.length = n at few reads
    obtain rfl | rfl | rfl : n = 0 ∨ n = 1 ∨ n = 2 := by omega
    · cases reads
      exact ⟨by decide, rfl, short⟩
    · rw [reads.unique one]
      exact ⟨pos₁, max₁, short⟩
    · rw [reads.unique two]
      exact ⟨pos₂, max₂, short⟩
  refine (reader_exact_iff [helloFrame, plainFrame] 64 threeChunks (by decide) (by decide) (by decide)
    rfl (by decide) ?_).mpr ?_
  · intro pre chunk post c split reads _
    obtain ⟨pos, max, short⟩ := parts split reads
    omega
  · intro pre chunk post c split reads
    obtain ⟨pos, max, -⟩ := parts split reads
    refine ⟨by omega, ?_⟩
    rintro ⟨pre, f, rest, frames, lt, le⟩
    have none : f.ext = [] :=
      (show ∀ f ∈ [helloFrame, plainFrame], f.ext = [] by simp [Frame.ext, helloFrame, plainFrame]) f
        (by simp [frames])
    rw [none, List.nil_append] at le
    exact absurd lt (not_lt.mpr le)

/-- A frame of 126 bytes, which needs the 16-bit length. -/
def mediumFrame : Frame where
  opcode := 0x2
  rsv := 0
  fin := true
  key := some fun _ => 1
  form := .medium
  payload := List.replicate 126 0
  fits := by simp [LenForm.Fits]

/-- When the first chunk ends before the 16-bit length `do_read` does not return. -/
theorem split_length_stops_reader :
    ([[0x82, 0xFE], mediumFrame.ext ++ mediumFrame.tail].flatten = wires [mediumFrame] ∧
      (∀ f ∈ [mediumFrame], (f.payload.length : ℤ) ≤ 1024 - 14)) ∧
    ¬ ∃ c, Reads (Conn.init 1024) [[0x82, 0xFE], mediumFrame.ext ++ mediumFrame.tail] c := by
  have stream : [[0x82, 0xFE], mediumFrame.ext ++ mediumFrame.tail].flatten = wires [mediumFrame] := by
    have head : [0x82, 0xFE] = mediumFrame.head.toBytes := by decide
    simp [wires, Frame.wire, head]
  refine ⟨⟨stream, by simp [mediumFrame]⟩, ?_⟩
  rintro ⟨c, reads⟩
  have start : Between [mediumFrame] 1024 (wires [mediumFrame]) (Conn.init 1024) [] [mediumFrame] :=
    between_init (by decide) (by decide)
  rw [← stream, List.flatten_cons] at start
  cases reads with
  | cons read _ =>
    rcases start.read (by simp [mediumFrame]) (by simp) (by decide) with ⟨-, none⟩ | ⟨uncut, -⟩
    · exact none _ read
    · exact uncut ⟨[], mediumFrame, [], rfl, by simp [mediumFrame, Frame.ext, wires], by simp [wires]⟩

end Conet.Svrkit.WebsocketRead
