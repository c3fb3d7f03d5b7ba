/- Module: Conet/Svrkit/WebsocketCodec
   source: svrkit/src/http_server.cpp
   digest: The frames that do_rsp queues, given back to the frame reader of do_read. -/

import Conet.Svrkit.WebsocketRead

set_option autoImplicit false
set_option relaxedAutoImplicit false

namespace Conet.Svrkit.WebsocketCodec

open Conet.Lib Conet.Svrkit.Websocket Conet.Svrkit.WebsocketRead

/-- The number of bytes of extended length that the reader expects after a header. -/
def extLen (h : Head) : ℕ :=
  if h.payloadLen = 126 then 2 else if h.payloadLen = 127 then 8 else 0

def keyLen (h : Head) : ℕ := if h.mask then 4 else 0

/-- The payload length that a header and its extended length announce. -/
def announced (h : Head) (ext : List UInt8) : ℕ :=
  if extLen h = 0 then h.payloadLen else beNat ext

section Blocks

variable {c : Conn}

theorem parsePayloadLen_eq (state : c.state = .parsePayloadLen) (le : c.prevDataPos ≤ c.dataPos) :
    parsePayloadLen c = .again (if (extLen c.head : ℤ) ≤ c.dataPos - c.prevDataPos then { c with
      payloadLen := announced c.head (slice c.buffer c.prevDataPos (extLen c.head))
      prevDataPos := c.prevDataPos + extLen c.head
      state := .parseMasking } else c) := by
  rw [parsePayloadLen, if_pos state]
  by_cases is126 : c.head.payloadLen = 126
  · have ext : extLen c.head = 2 := if_pos is126
    rw [if_pos is126]
    simp only [announced, ext, Nat.cast_ofNat, OfNat.ofNat_ne_zero, if_false]
    split <;> rfl
  by_cases is127 : c.head.payloadLen = 127
  · have ext : extLen c.head = 8 := (if_neg is126).trans (if_pos is127)
    rw [if_neg is126, if_pos is127]
    simp only [announced, ext, Nat.cast_ofNat, OfNat.ofNat_ne_zero, if_false]
    split <;> rfl
  · have ext : extLen c.head = 0 := (if_neg is126).trans (if_neg is127)
    rw [if_neg is126, if_neg is127, if_pos (by simp [ext]; omega)]
    simp [announced, ext]

theorem parseMasking_eq (state : c.state = .parseMasking) (le : c.prevDataPos ≤ c.dataPos) :
    parseMasking c = if (keyLen c.head : ℤ) ≤ c.dataPos - c.prevDataPos then .again { c with
        maskingKey :=
          if c.head.mask then Key.ofBytes (slice c.buffer c.prevDataPos 4) else c.maskingKey
        prevDataPos := c.prevDataPos + keyLen c.head
        state := .calcRestSize }
      else .leave (1, c) := by
  rw [parseMasking, if_pos state]
  by_cases mask : c.head.mask = true
  · have four : keyLen c.head = 4 := if_pos mask
    simp only [mask, four, if_true, Nat.cast_ofNat]
  · have zero : keyLen c.head = 0 := if_neg mask
    rw [if_neg mask, if_pos (by simp [zero]; omega)]
    simp [zero, mask]

/-- The part of a connection that the blocks after the masking key read. -/
structure Moved (c c' : Conn) : Prop where
  head : c'.head = c.head
  len : c'.payloadLen = c.payloadLen
  packets : c'.packets = c.packets
  sane : Sane c'
  unread : c'.dataPos - c'.prevDataPos = c.dataPos - c.prevDataPos

theorem calcRestSize_moved (state : c.state = .calcRestSize) (sane : Sane c) :
    ∃ c', calcRestSize c = .again c' ∧ c'.state = .readData ∧ Moved c c' := by
  have nonneg := sane.nonneg
  have le := sane.le
  have inside := sane.inside
  have turn : calcRestSize c = if c.maxBufLen - c.dataPos < toInt64 c.payloadLen then _ else _ :=
    if_pos state
  split at turn
  · refine ⟨_, turn, rfl, rfl, rfl, rfl, ⟨le_rfl, ?_, ?_, sane.int64⟩, ?_⟩ <;> simp only <;> omega
  · exact ⟨_, turn, rfl, rfl, rfl, rfl, ⟨nonneg, le, inside, sane.int64⟩, rfl⟩

end Blocks

/-- The rest of a turn delivers the packet `p`, whose payload starts after `n` more bytes. -/
structure Yields (c : Conn) (n : ℕ) (c' : Conn) (p : Packet) : Prop where
  state : c'.state = .readPayloadLen
  packets : c'.packets = c.packets ++ [p]
  head : p.head = c.head
  payload : p.payload.length = p.payloadLen
  rest : p.payloadLen < 2 ^ 63 → Sane c' ∧
    c'.dataPos - c'.prevDataPos = c.dataPos - c.prevDataPos - n - p.payloadLen

/-- The rest of a turn leaves the loop inside a frame. -/
def Waits (t : Turn Conn (ℤ × Conn)) (c : Conn) : Prop :=
  ∃ c', t = .leave (1, c') ∧ c'.packets = c.packets ∧ c'.state ≠ .readPayloadLen

section Turn

variable {c : Conn}

theorem readData_cases (state : c.state = .readData) (sane : Sane c) :
    Waits ((readData c).andThen procMsg) c ∨
    ∃ c' p, (readData c).andThen procMsg = .again c' ∧ Yields c 0 c' p ∧
      p.payloadLen = c.payloadLen := by
  have turn : readData c = if c.dataPos - c.prevDataPos < toInt64 c.payloadLen then _ else _ :=
    if_pos state
  split at turn
  case isTrue short => exact .inl ⟨c, by rw [turn, Turn.leave_andThen], rfl, by simp [state]⟩
  case isFalse enough =>
    obtain ⟨buffer, head, toClose, sendQueue, msgs, eq, -⟩ :=
      doProcPkg_fields { c with state := .readPayloadLen }
    have proc : procMsg { c with state := .procMsg } = _ := if_pos rfl
    simp only [eq] at proc
    refine .inr ⟨_, _, by rw [turn, Turn.again_andThen, proc], ⟨rfl, rfl, rfl, by simp, ?_⟩, rfl⟩
    intro lt
    have nonneg := sane.nonneg
    have inside := sane.inside
    have int64 := sane.int64
    simp only at lt
    rw [toInt64_of_lt lt] at enough
    have wrap : wrapInt64 (c.prevDataPos + c.payloadLen) = c.prevDataPos + c.payloadLen :=
      wrapInt64_of_lt (by omega) (by omega)
    refine ⟨⟨?_, ?_, inside, int64⟩, ?_⟩ <;> simp only [wrap] <;> omega

theorem parseMasking_cases (state : c.state = .parseMasking) (sane : Sane c) :
    Waits ((parseMasking c).andThen fun c => (calcRestSize c).andThen fun c =>
      (readData c).andThen procMsg) c ∨
    ∃ c' p, ((parseMasking c).andThen fun c => (calcRestSize c).andThen fun c =>
      (readData c).andThen procMsg) = .again c' ∧ Yields c (keyLen c.head) c' p ∧
      p.payloadLen = c.payloadLen := by
  obtain ⟨nonneg, le, inside, int64⟩ := sane
  have turn := parseMasking_eq state le
  split at turn
  case isFalse => exact .inl ⟨c, by rw [turn, Turn.leave_andThen], rfl, by simp [state]⟩
  case isTrue enough =>
    have sane' : Sane { c with
        maskingKey :=
          if c.head.mask then Key.ofBytes (slice c.buffer c.prevDataPos 4) else c.maskingKey
        prevDataPos := c.prevDataPos + keyLen c.head
        state := .calcRestSize } :=
      ⟨by simp only; omega, by simp only; omega, inside, int64⟩
    obtain ⟨c₁, turn₁, state₁, moved⟩ := calcRestSize_moved rfl sane'
    rw [turn, Turn.again_andThen, turn₁, Turn.again_andThen]
    rcases readData_cases state₁ moved.sane with
      ⟨c', turn', packets, state'⟩ | ⟨c', p, turn', yields, len⟩
    · exact .inl ⟨c', turn', packets.trans moved.packets, state'⟩
    · refine .inr ⟨c', p, turn', ⟨yields.state, ?_, yields.head.trans moved.head, yields.payload, ?_⟩,
        len.trans moved.len⟩
      · rw [yields.packets, moved.packets]
      · intro lt
        obtain ⟨sane', unread'⟩ := yields.rest lt
        have unread := moved.unread
        simp only at unread
        exact ⟨sane', by omega⟩

/-- What a turn that starts at a header can do: wait for the header, turn for ever in an incomplete
length, wait inside the frame, or deliver a packet. -/
theorem readTurn_cases (state : c.state = .readPayloadLen) (sane : Sane c) :
    (c.dataPos - c.prevDataPos < 2 ∧ readTurn c = .leave (1, c)) ∨
    (∃ c', readTurn c = .again c' ∧ readTurn c' = .again c') ∨
    Waits (readTurn c) c ∨
    ∃ c' p h, readTurn c = .again c' ∧
      h = Head.ofBytes (c.buffer c.prevDataPos) (c.buffer (c.prevDataPos + 1)) ∧
      Yields { c with head := h } (2 + extLen h + keyLen h) c' p ∧
      p.payloadLen = announced h (slice c.buffer (c.prevDataPos + 2) (extLen h)) := by
  obtain ⟨nonneg, le, inside, int64⟩ := sane
  have turn : readPayloadLen c = if c.dataPos - c.prevDataPos < 2 then _ else _ := if_pos state
  split at turn
  case isTrue short => exact .inl ⟨short, by rw [readTurn, turn, Turn.leave_andThen]⟩
  refine .inr ?_
  generalize Head.ofBytes (c.buffer c.prevDataPos) (c.buffer (c.prevDataPos + 1)) = h at turn ⊢
  set c₁ : Conn := { c with
    head := h
    prevDataPos := c.prevDataPos + 2
    state := .parsePayloadLen } with hc₁
  have turn₁ := parsePayloadLen_eq (c := c₁) rfl (by simp only [hc₁]; omega)
  split at turn₁
  case isFalse short =>
    -- the turn that follows finds the same incomplete length
    have skip : readPayloadLen c₁ = .again c₁ := if_neg (by simp [hc₁])
    have stays : readTurn c₁ = .again c₁ := by
      rw [readTurn, skip, Turn.again_andThen, turn₁]
      rfl
    refine .inl ⟨c₁, ?_, stays⟩
    rw [readTurn, skip, Turn.again_andThen] at stays
    rw [readTurn, turn, Turn.again_andThen, stays]
  case isTrue enough =>
    rw [readTurn, turn, Turn.again_andThen, turn₁, Turn.again_andThen]
    simp only [hc₁] at enough
    rcases parseMasking_cases rfl
      (⟨by simp only [hc₁]; omega, by simp only [hc₁]; omega, inside, int64⟩ : Sane { c₁ with
        payloadLen := announced c₁.head (slice c₁.buffer c₁.prevDataPos (extLen c₁.head))
        prevDataPos := c₁.prevDataPos + extLen c₁.head
        state := .parseMasking }) with ⟨c', turn', packets, state'⟩ | ⟨c', p, turn', yields, len⟩
    · exact .inr (.inl ⟨c', turn', packets, state'⟩)
    · refine .inr (.inr ⟨c', p, h, turn', rfl, ⟨yields.state, yields.packets, yields.head,
        yields.payload, ?_⟩, len⟩)
      intro lt
      obtain ⟨sane', unread'⟩ := yields.rest lt
      simp only [hc₁] at unread'
      exact ⟨sane', by push_cast; omega⟩

end Turn

section Log

variable {c c' : Conn} {r : ℤ}

/-- The log of packets is only added to. -/
def Logged (c₀ c : Conn) : Prop := ∃ added, c.packets = c₀.packets ++ added

/-- A block that leaves the log alone, or adds to it. -/
def Logs (block : Block) : Prop :=
  ∀ c₀ c, Logged c₀ c → (block c).Meets (Logged c₀) fun r => Logged c₀ r.2

theorem readPayloadLen_logs : Logs readPayloadLen := by
  intro c₀ c logged
  unfold readPayloadLen
  split_ifs <;> exact logged

theorem parsePayloadLen_logs : Logs parsePayloadLen := by
  intro c₀ c logged
  unfold parsePayloadLen
  split_ifs <;> exact logged

theorem parseMasking_logs : Logs parseMasking := by
  intro c₀ c logged
  unfold parseMasking
  split_ifs <;> exact logged

theorem calcRestSize_logs : Logs calcRestSize := by
  intro c₀ c logged
  unfold calcRestSize
  split_ifs <;> exact logged

theorem readData_logs : Logs readData := by
  intro c₀ c logged
  unfold readData
  split_ifs <;> exact logged

theorem procMsg_logs : Logs procMsg := by
  rintro c₀ c ⟨added, packets⟩
  unfold procMsg
  split_ifs
  · obtain ⟨buffer, head, toClose, sendQueue, msgs, eq, -⟩ :=
      doProcPkg_fields { c with state := .readPayloadLen }
    simp only [eq, Turn.Meets]
    exact ⟨_, by rw [packets, List.append_assoc]⟩
  · exact ⟨added, packets⟩

theorem readTurn_logs : Logs readTurn := fun c₀ c logged =>
  (readPayloadLen_logs c₀ c logged).andThen fun c logged =>
  (parsePayloadLen_logs c₀ c logged).andThen fun c logged =>
  (parseMasking_logs c₀ c logged).andThen fun c logged =>
  (calcRestSize_logs c₀ c logged).andThen fun c logged =>
  (readData_logs c₀ c logged).andThen (procMsg_logs c₀)

theorem read_logged (returns : Loop.Returns readTurn c (r, c')) : Logged c c' := by
  refine Loop.Returns.post (Logged c) (fun r => Logged c r.2) returns ⟨[], by simp⟩ ?_ ?_
  · intro s s' logged turn
    simpa [turn, Turn.Meets] using readTurn_logs c s logged
  · intro s r logged turn
    simpa [turn, Turn.Meets] using readTurn_logs c s logged

/-- A turn that changes nothing is the last that the reader makes. -/
theorem not_returns_of_stuck {r : ℤ × Conn} (turn : readTurn c = .again c')
    (stuck : readTurn c' = .again c') : ¬ Loop.Returns readTurn c r := by
  rw [Loop.returns_again turn]
  have diverges : Loop.Diverges readTurn c' :=
    Loop.diverges_of_invariant (· = c') (by rintro _ rfl; exact ⟨_, stuck, rfl⟩) c' rfl
  exact diverges.not_returns

end Log

/-- A new connection that receives the bytes takes them as exactly one frame, with this opcode and
this payload. -/
def Decodes (max : ℤ) (bytes : List UInt8) (opcode : Fin 16) (payload : List UInt8) : Prop :=
  ∃ c, DoRead (Conn.init max) (.data bytes) (1, c) ∧
    c.packets.map (fun q => (q.head.opcode, q.unmasked)) = [(opcode, payload)] ∧
    c.state = .readPayloadLen ∧ unread c = []

/-- The extended length that `do_rsp` writes. -/
def sentExt (p : Packet) : List UInt8 :=
  if 125 < p.payloadLen ∧ p.payloadLen ≤ 0xFFFF then beBytes 2 p.payloadLen
  else if p.payloadLen > 0xFFFF then leBytes 8 (htonl p.payloadLen)
  else []

/-- The masking key that `do_rsp` writes. -/
def sentKey (p : Packet) : List UInt8 := if p.maskingKey.isSet then p.maskingKey.bytes else []

section Decode

variable {p : Packet} {max : ℤ} {opcode : Fin 16} {payload : List UInt8}

theorem rspBytes_eq (p : Packet) :
    rspBytes p = p.head.toBytes ++ (sentExt p ++ (sentKey p ++ p.payload)) := by
  simp only [rspBytes, sentExt, sentKey, List.append_assoc]

theorem unmasked_length (p : Packet) : p.unmasked.length = p.payload.length := by
  unfold Packet.unmasked
  split <;> simp

theorem sane_received {bytes : List UInt8} (fits : bytes.length ≤ max) (int64 : max < 2 ^ 63) :
    Sane (receive (Conn.init max) bytes) ∧ unread (receive (Conn.init max) bytes) = bytes := by
  have sane : Sane (Conn.init max) := ⟨le_rfl, le_rfl, by simp only [Conn.init]; omega, int64⟩
  have room : bytes.length ≤ (Conn.init max).maxBufLen - (Conn.init max).dataPos := by
    simpa [Conn.init] using fits
  refine ⟨(sane.receive room).2, (sane.receive room).1.trans ?_⟩
  simp [unread, Conn.init]

/-- A run that delivers nothing and stops at the start of a frame has found no byte. -/
theorem returns_idle {c c' : Conn} (returns : Loop.Returns readTurn c (1, c'))
    (state : c.state = .readPayloadLen) (sane : Sane c) (packets : c'.packets = c.packets)
    (state' : c'.state = .readPayloadLen) (rest : unread c' = []) : unread c = [] := by
  rcases readTurn_cases state sane with ⟨-, turn⟩ | ⟨c₁, turn, stuck⟩ | ⟨c₁, turn, -, waits⟩ |
    ⟨c₁, q, h, turn, -, yields, -⟩
  · cases (Loop.returns_leave turn).mp returns
    exact rest
  · exact absurd returns (not_returns_of_stuck turn stuck)
  · cases (Loop.returns_leave turn).mp returns
    exact absurd state' waits
  · obtain ⟨added, log⟩ := read_logged ((Loop.returns_again turn).mp returns)
    rw [packets, yields.packets] at log
    simpa using congrArg List.length log

/-- Bytes that are taken as one frame have the length that their header announces. -/
theorem decodes_length {bytes tail : List UInt8} {h : Head} (split : bytes = h.toBytes ++ tail)
    (fits : bytes.length ≤ max) (int64 : max < 2 ^ 63) (bound : payload.length < 2 ^ 63)
    (decodes : Decodes max bytes opcode payload) :
    bytes.length = 2 + extLen h + keyLen h + payload.length ∧
    payload.length = announced h (slice (receive (Conn.init max) bytes).buffer 2 (extLen h)) := by
  obtain ⟨c, read, packets, state, rest⟩ := decodes
  obtain ⟨sane, left⟩ := sane_received fits int64
  have returns : Loop.Returns readTurn (receive (Conn.init max) bytes) (1, c) := by
    cases read with
    | data _ _ returns => exact returns
  have none : (receive (Conn.init max) bytes).packets = [] := rfl
  have start : (receive (Conn.init max) bytes).prevDataPos = 0 := rfl
  have state₀ : (receive (Conn.init max) bytes).state = .readPayloadLen := rfl
  generalize receive (Conn.init max) bytes = c₀ at *
  have count := sane.unread_length
  rw [left, start, sub_zero] at count
  have headBytes : Head.ofBytes (c₀.buffer 0) (c₀.buffer 1) = h := by
    have left₀ : unread c₀ ++ [] = h.toBytes ++ tail := by rw [left, split, List.append_nil]
    have first := (sane.consume { c₀ with prevDataPos := c₀.prevDataPos + 2 } left₀
      (by rw [left, split]; simp) rfl rfl rfl rfl).1
    refine head_ofBytes (first.symm ▸ ?_)
    simp [slice, start, List.range_succ]
  rcases readTurn_cases state₀ sane with ⟨-, turn⟩ | ⟨c', turn, stuck⟩ | ⟨c', turn, packets', -⟩ |
    ⟨c₁, q, h', turn, head, yields, len⟩
  · cases (Loop.returns_leave turn).mp returns
    simp [none] at packets
  · exact absurd returns (not_returns_of_stuck turn stuck)
  · cases (Loop.returns_leave turn).mp returns
    simp [packets', none] at packets
  · rw [start, zero_add, headBytes] at head
    subst head
    have returns₁ := (Loop.returns_again turn).mp returns
    have packets₁ : c₁.packets = [q] := by rw [yields.packets, none]; rfl
    obtain ⟨added, log⟩ := read_logged returns₁
    rw [log, packets₁, List.singleton_append, List.map_cons] at packets
    obtain ⟨same, nil⟩ := List.cons.inj packets
    rw [List.map_eq_nil_iff.mp nil, List.append_nil] at log
    have length : q.payloadLen = payload.length := by
      rw [← yields.payload, ← unmasked_length, (Prod.mk.inj same).2]
    obtain ⟨sane₁, rest₁⟩ := yields.rest (length ▸ bound)
    have idle := returns_idle returns₁ yields.state sane₁ log state rest
    have zero := sane₁.unread_length
    rw [idle, List.length_nil] at zero
    rw [start, zero_add] at len
    simp only [start, length] at rest₁
    exact ⟨by push_cast at *; omega, length ▸ len⟩

/-- The 64-bit length that `do_rsp` writes with `htonl`, as the reader reads it. -/
theorem beNat_htonl (n : ℕ) : beNat (leBytes 8 (htonl n)) = 256 ^ 4 * (n % 256 ^ 4) := by
  have eight : leBytes ((beBytes 4 n).length + 4) (htonl n) = beBytes 4 n ++ List.replicate 4 0 :=
    leBytes_leNat _ 4
  rw [beBytes_length] at eight
  rw [eight, beNat_append_replicate, beNat_beBytes]

theorem sentExt_length (p : Packet) : (sentExt p).length =
    if p.payloadLen ≤ 125 then 0 else if p.payloadLen ≤ 0xFFFF then 2 else 8 := by
  unfold sentExt
  split_ifs <;> first | omega | simp

theorem sentKey_length (p : Packet) : (sentKey p).length = if p.maskingKey.isSet then 4 else 0 := by
  unfold sentKey
  split <;> rfl

/-- The header that announces what `do_rsp` writes after it. -/
structure Agrees (p : Packet) : Prop where
  len : p.payloadLen ≤ 0xFFFF
  mask : p.head.mask = p.maskingKey.isSet
  short : p.head.payloadLen = shortLen p.payloadLen

/-- A packet that is taken back is one whose header agrees with what `do_rsp` writes after it. -/
theorem agrees_of_decodes (whole : p.payload.length = p.payloadLen)
    (fits : (rspBytes p).length ≤ max) (int64 : max < 2 ^ 63)
    (decodes : Decodes max (rspBytes p) opcode p.unmasked) : Agrees p := by
  have length : p.unmasked.length = p.payloadLen := (unmasked_length p).trans whole
  have total : (rspBytes p).length = 2 + (sentExt p).length + (sentKey p).length + p.payloadLen := by
    rw [rspBytes_eq]
    simp [whole]
    omega
  obtain ⟨count, announce⟩ := decodes_length (rspBytes_eq p) fits int64 (by omega) decodes
  rw [length] at count announce
  -- 0, 2, 8 and 0, 4 have different sums
  have same : extLen p.head = (sentExt p).length ∧ keyLen p.head = (sentKey p).length := by
    rw [sentExt_length, sentKey_length] at *
    unfold extLen keyLen at *
    split_ifs at * <;> omega
  have ext : slice (receive (Conn.init max) (rspBytes p)).buffer 2 (extLen p.head) = sentExt p := by
    rw [same.1, rspBytes_eq]
    exact slice_write_part _ 0 p.head.toBytes (sentExt p) _
  rw [ext] at announce
  obtain ⟨sameExt, sameKey⟩ := same
  rw [sentExt_length] at sameExt
  have le : p.payloadLen ≤ 0xFFFF := by
    by_contra long
    have eight : extLen p.head = 8 := by rw [sameExt, if_neg (by omega), if_neg long]
    have swapped : sentExt p = leBytes 8 (htonl p.payloadLen) := by
      rw [sentExt, if_neg (by omega), if_pos (by omega)]
    rw [announced, if_neg (by omega), swapped, beNat_htonl] at announce
    omega
  refine ⟨le, ?_, ?_⟩
  · rw [sentKey_length] at sameKey
    unfold keyLen at sameKey
    cases hm : p.head.mask <;> cases hk : p.maskingKey.isSet <;> simp [hm, hk] at sameKey <;> rfl
  · unfold shortLen
    split
    case isTrue small =>
      rw [if_pos small] at sameExt
      rw [announced, if_pos sameExt] at announce
      exact Fin.ext announce.symm
    case isFalse medium =>
      rw [if_neg medium, if_pos le] at sameExt
      by_contra not126
      rw [extLen, if_neg not126] at sameExt
      split_ifs at sameExt
      omega

/-- The frame that an agreeing packet is. -/
def frameOf (p : Packet) (whole : p.payload.length = p.payloadLen) (len : p.payloadLen ≤ 0xFFFF) :
    Frame where
  opcode := p.head.opcode
  rsv := p.head.rsv
  fin := p.head.fin
  key := if p.head.mask then some p.maskingKey else none
  form := if p.payloadLen ≤ 125 then .short else .medium
  payload := p.unmasked
  fits := by
    rw [unmasked_length, whole]
    split
    case isTrue small => exact small
    case isFalse => exact Nat.lt_of_le_of_lt len (by decide)

theorem frameOf_wire (whole : p.payload.length = p.payloadLen) (agrees : Agrees p) :
    (frameOf p whole agrees.len).wire = rspBytes p := by
  have length : p.unmasked.length = p.payloadLen := (unmasked_length p).trans whole
  obtain ⟨len, mask, short⟩ := agrees
  have head : (frameOf p whole len).head = p.head := by
    ext
    · rfl
    · rfl
    · rfl
    · simp only [Frame.head, Frame.shortLen, frameOf]
      rw [short, shortLen]
      split_ifs <;> simp [length]
      omega
    · simp only [Frame.head, frameOf]
      split <;> simp_all
  have ext : (frameOf p whole len).ext = sentExt p := by
    simp only [Frame.ext, frameOf, sentExt]
    split_ifs <;> simp [length] <;> omega
  have key : (frameOf p whole len).keyBytes = sentKey p := by
    simp only [Frame.keyBytes, frameOf, sentKey, mask]
    split_ifs <;> rfl
  have body : (frameOf p whole len).body = p.payload := by
    simp only [Frame.body, frameOf, Packet.unmasked]
    split_ifs <;> simp [applyMask_applyMask]
  rw [Frame.wire, Frame.tail, head, ext, key, body, rspBytes_eq]

theorem decodes_of_agrees (whole : p.payload.length = p.payloadLen)
    (fits : (rspBytes p).length ≤ max) (int64 : max < 2 ^ 63) (agrees : Agrees p) :
    Decodes max (rspBytes p) p.head.opcode p.unmasked := by
  obtain ⟨sane, left⟩ := sane_received fits int64
  set f := frameOf p whole agrees.len with hf
  have wire : wires [f] = rspBytes p := by
    rw [← frameOf_wire whole agrees, ← hf]
    simp [wires]
  have phase : Phase [] (receive (Conn.init max) (rspBytes p)) [f] :=
    .head sane rfl (by rw [left, wire, List.append_nil])
  have length : f.payload.length ≤ (rspBytes p).length := by
    rw [rspBytes_eq]
    simp [hf, frameOf, unmasked_length]
    omega
  have small : ∀ g ∈ [f], g.payload.length ≤ (receive (Conn.init max) (rspBytes p)).maxBufLen := by
    intro g hg
    obtain rfl := List.mem_singleton.mp hg
    simp only [receive, Conn.init]
    omega
  have uncut : ¬ Cut [f] [] := by
    rintro ⟨pre, g, post, -, lt, -⟩
    simp at lt
  obtain ⟨⟨ret, c⟩, returns, done, rest, served⟩ := read_returns phase small uncut
  obtain rfl : ret = 1 := served.ret
  cases rest with
  | cons g post => exact absurd (served.missing g post rfl) (by simp)
  | nil =>
    have packets := served.packets
    rw [← List.append_nil done, ← served.split] at packets
    simp only [receive, Conn.init, List.map_nil, List.nil_append, List.map_cons] at packets
    have some : rspBytes p ≠ [] := by simp [rspBytes_eq, Head.toBytes]
    refine ⟨c, .data some (by simpa [Conn.init] using fits) returns, ?_⟩
    cases served.phase with
    | head _ state nil =>
      refine ⟨?_, state, (List.append_eq_nil_iff.mp nil).1⟩
      have pairs := congrArg (List.map fun x : Fin 16 × Bool × List UInt8 => (x.1, x.2.2)) packets
      simpa [content, Frame.content, hf, frameOf, Function.comp_def] using pairs

end Decode

/-- What is sent through `do_rsp(ws_packet_t *)`: the calls of `do_rsp_with_mask`, the calls of
`do_rsp_close` that are defined, and the answers of `do_pong` to what `do_proc_pkg` got. -/
inductive Reply
  | message (data : List UInt8) (mask : Key) (isText : Bool)
  | close (data : Option (List UInt8)) (len : ℤ) (payload : List UInt8)
      (defined : closePayload data len = some payload)
  | pong (ping : Packet) (whole : ping.payload.length = ping.payloadLen)

namespace Reply

def send (c : Conn) : Reply → Option Conn
  | .message data mask isText => some (doRspWithMask c data mask isText)
  | .close data len _ _ => doRspClose c data len
  | .pong ping _ => some (doPong c ping)

def packet : Reply → Packet
  | .message data mask isText => maskPacket data mask isText
  | .close _ _ payload _ => closePacket payload
  | .pong ping _ => pongPacket ping

/-- The payload that the peer is to get. -/
def payload : Reply → List UInt8
  | .message data _ _ => data
  | .close _ _ payload _ => payload
  | .pong ping _ => ping.unmasked

/-- When the answer can be decoded: a 16-bit length is enough and, for a pong, the header that is
copied from the ping is the one that `do_rsp` would write. -/
def Sound : Reply → Prop
  | .message data _ _ => data.length ≤ 0xFFFF
  | .close _ _ payload _ => payload.length ≤ 0xFFFF
  | .pong ping _ => ping.payloadLen ≤ 0xFFFF ∧ ping.head.mask = ping.maskingKey.isSet ∧
      ping.head.payloadLen = shortLen ping.payloadLen

theorem send_queue (r : Reply) (c : Conn) :
    (r.send c).map Conn.sendQueue = some (c.sendQueue ++ [rspBytes r.packet]) := by
  cases r with
  | message data mask isText => rfl
  | close data len payload defined =>
    simp only [send, doRspClose, defined]
    rfl
  | pong ping whole => rfl

theorem packet_whole (r : Reply) : r.packet.payload.length = r.packet.payloadLen := by
  cases r with
  | message data mask isText =>
    simp only [packet, maskPacket]
    split <;> simp
  | close => rfl
  | pong ping whole => exact whole

theorem packet_unmasked (r : Reply) : r.packet.unmasked = r.payload := by
  cases r with
  | message data mask isText =>
    simp only [packet, maskPacket, Packet.unmasked, payload]
    split <;> simp [*, applyMask_applyMask]
  | close => rfl
  | pong => rfl

theorem agrees_iff (r : Reply) : Agrees r.packet ↔ r.Sound := by
  cases r with
  | message data mask isText =>
    refine ⟨fun agrees => agrees.len, fun len => ⟨len, ?_, rfl⟩⟩
    simp only [packet, maskPacket]
    split
    case isTrue set => rfl
    case isFalse zero =>
      rw [Bool.not_eq_true] at zero
      rw [zero]
      rfl
  | close data len payload defined =>
    exact ⟨fun agrees => agrees.len, fun len => ⟨len, rfl, rfl⟩⟩
  | pong ping whole =>
    exact ⟨fun ⟨len, mask, short⟩ => ⟨len, mask, short⟩,
      fun ⟨len, mask, short⟩ => ⟨len, mask, short⟩⟩

end Reply

/-- What is queued is one frame that the reader takes back exactly when a 16-bit length is enough
and the header says what follows it. -/
theorem rsp_decodes_iff (r : Reply) (c : Conn) (max : ℤ) (fits : (rspBytes r.packet).length ≤ max)
    (int64 : max < 2 ^ 63) :
    (∃ bytes, (r.send c).map Conn.sendQueue = some (c.sendQueue ++ [bytes]) ∧
      Decodes max bytes r.packet.head.opcode r.payload) ↔ r.Sound := by
  rw [← r.agrees_iff, ← r.packet_unmasked]
  constructor
  · rintro ⟨bytes, queue, decodes⟩
    rw [r.send_queue c] at queue
    obtain rfl : rspBytes r.packet = bytes := by simpa using queue
    exact agrees_of_decodes r.packet_whole fits int64 decodes
  · exact fun agrees => ⟨_, r.send_queue c, decodes_of_agrees r.packet_whole fits int64 agrees⟩

theorem rsp_decodes_text : ∃ bytes, ((Reply.message [104, 105] (fun _ => 7) true).send
    (Conn.init 64)).map Conn.sendQueue = some [bytes] ∧ Decodes 64 bytes 0x1 [104, 105] :=
  (rsp_decodes_iff (.message [104, 105] (fun _ => 7) true) (Conn.init 64) 64 (by decide)
    (by decide)).mpr (by simp [Reply.Sound])

/-- An empty ping that is masked with the key 0. -/
def zeroKeyPing : Packet := ⟨⟨0x9, 0, true, 0, true⟩, 0, fun _ => 0, []⟩

/-- A client that sends such a ping gets two bytes that the reader does not take as a frame. -/
theorem zero_key_pong_not_decoded :
    (∃ c, DoRead (Conn.init 64) (.data [0x89, 0x80, 0, 0, 0, 0]) (1, c) ∧
      c.packets.map content = [(0x9, true, [])] ∧ c.sendQueue = [[0x8A, 0x80]]) ∧
    ¬ ∃ bytes, ((Reply.pong zeroKeyPing rfl).send (Conn.init 64)).map Conn.sendQueue =
      some [bytes] ∧ Decodes 64 bytes 0xA [] := by
  constructor
  · exact ⟨_, .data (by simp) (by decide) ⟨2, rfl⟩, by decide, by decide⟩
  · rintro ⟨bytes, queue, decodes⟩
    have sent : rspBytes (pongPacket zeroKeyPing) = bytes := by
      have send := (Reply.pong zeroKeyPing rfl).send_queue (Conn.init 64)
      rw [send] at queue
      simpa [Reply.packet, Conn.init] using queue
    rw [← sent] at decodes
    have agrees := agrees_of_decodes rfl (by decide) (by decide) decodes
    exact absurd agrees.mask (by decide)

end Conet.Svrkit.WebsocketCodec
