/- Module: Conet/Svrkit/Websocket
   source: svrkit/src/http_server.cpp, svrkit/http_server.h
   digest: The websocket connection: the frame reader of do_read and the frames that do_rsp queues. -/

import Conet.Lib.Bytes
import Conet.Lib.Loop

set_option autoImplicit false
set_option relaxedAutoImplicit false

namespace Conet.Svrkit.Websocket

open Conet.Lib

-- The widths of the bit-fields, so that their literals share one instance.
instance neZeroOpcode : NeZero 16 := ⟨by decide⟩

instance neZeroRsv : NeZero 8 := ⟨by decide⟩

instance neZeroPayloadLen : NeZero 128 := ⟨by decide⟩

/-- `ws_packet_head_t`. -/
@[ext] structure Head where
  opcode : Fin 16
  rsv : Fin 8
  fin : Bool
  payloadLen : Fin 128
  mask : Bool
  deriving DecidableEq

/-- The bit-fields of the two header bytes, lowest bits first. -/
def Head.ofBytes (b0 b1 : UInt8) : Head where
  opcode := ⟨b0.toNat % 16, Nat.mod_lt _ (by decide)⟩
  rsv := ⟨b0.toNat / 16 % 8, Nat.mod_lt _ (by decide)⟩
  fin := decide (128 ≤ b0.toNat)
  payloadLen := ⟨b1.toNat % 128, Nat.mod_lt _ (by decide)⟩
  mask := decide (128 ≤ b1.toNat)

def Head.toBytes (h : Head) : List UInt8 :=
  [UInt8.ofNat (h.opcode + 16 * h.rsv + 128 * h.fin.toNat),
    UInt8.ofNat (h.payloadLen + 128 * h.mask.toNat)]

/-- The four bytes of a `uint32_t` masking key, in memory order. -/
abbrev Key := Fin 4 → UInt8

def Key.bytes (k : Key) : List UInt8 := [k 0, k 1, k 2, k 3]

/-- `masking_key > 0`. -/
def Key.isSet (k : Key) : Bool := k.bytes.any (· != 0)

/-- The four bytes at the front of a list, as `*(uint32_t *)` reads them. -/
def Key.ofBytes (bs : List UInt8) : Key := fun i => bs.getD i 0

/-- `data[i] ^= masking_key[i%4]` for every `i`. -/
def applyMask (k : Key) (data : List UInt8) : List UInt8 :=
  data.mapIdx fun i b => b ^^^ k (Fin.ofNat 4 i)

/-- `ws_packet_t`, with the bytes at `payload_data`. -/
structure Packet where
  head : Head
  payloadLen : ℕ
  maskingKey : Key
  payload : List UInt8

def Packet.unmasked (p : Packet) : List UInt8 :=
  if p.head.mask then applyMask p.maskingKey p.payload else p.payload

inductive State
  | readPayloadLen
  | parsePayloadLen
  | parseMasking
  | calcRestSize
  | readData
  | procMsg
  deriving DecidableEq

/-- The fields of a `websocket_conn_t` that the reader and the writer use. `head`, `payloadLen` and
`maskingKey` are those of `req_package`. -/
structure Conn where
  buffer : ℤ → UInt8
  maxBufLen : ℤ
  dataPos : ℤ
  prevDataPos : ℤ
  state : State
  head : Head
  payloadLen : ℕ
  maskingKey : Key
  toClose : Bool
  sendQueue : List (List UInt8)
  /-- the packets that were handed to `do_proc_pkg` -/
  packets : List Packet
  /-- the packets that were handed to `cb.do_msg`, with their payload in the clear -/
  msgs : List Packet

/-- `websocket_conn_t::websocket_conn_t`, with a new buffer. -/
def Conn.init (maxBufLen : ℤ) : Conn where
  buffer := fun _ => 0
  maxBufLen := maxBufLen
  dataPos := 0
  prevDataPos := 0
  state := .readPayloadLen
  head := ⟨0, 0, false, 0, false⟩
  payloadLen := 0
  maskingKey := fun _ => 0
  toClose := false
  sendQueue := []
  packets := []
  msgs := []

/-- `htonl` on a little-endian host: the bytes of the low 32 bits, swapped. -/
def htonl (n : ℕ) : ℕ := leNat (beBytes 4 n)

/-- The bytes that `do_rsp(ws_packet_t *)` queues. -/
def rspBytes (pkg : Packet) : List UInt8 :=
  pkg.head.toBytes ++
  (if 125 < pkg.payloadLen ∧ pkg.payloadLen ≤ 0xFFFF then beBytes 2 pkg.payloadLen
    else if pkg.payloadLen > 0xFFFF then leBytes 8 (htonl pkg.payloadLen)
    else []) ++
  (if pkg.maskingKey.isSet then pkg.maskingKey.bytes else []) ++
  pkg.payload

def doRsp (c : Conn) (pkg : Packet) : Conn := { c with sendQueue := c.sendQueue ++ [rspBytes pkg] }

/-- The packet that `do_pong` sends: the ping with another opcode. -/
def pongPacket (pkg : Packet) : Packet := { pkg with head := { pkg.head with opcode := 0xA } }

/-- `websocket_conn_t::do_pong`; it writes the opcode into `req_package`. -/
def doPong (c : Conn) (pkg : Packet) : Conn :=
  doRsp { c with head := { c.head with opcode := 0xA } } (pongPacket pkg)

/-- The 7-bit length that announces a payload. -/
def shortLen (payloadLen : ℕ) : Fin 128 :=
  if h : payloadLen ≤ 125 then ⟨payloadLen, by omega⟩
  else if payloadLen ≤ 0xFFFF then 126
  else 127

/-- The packet that `do_rsp_close` builds. -/
def closePacket (data : List UInt8) : Packet where
  head := ⟨0x8, 0, true, shortLen data.length, false⟩
  payloadLen := data.length
  maskingKey := fun _ => 0
  payload := data

/-- The payload of `do_rsp_close(data, len)`, for a `data` that is `NULL` or points at the given
bytes: nothing when there is no data, up to the first zero for a length of -1. -/
def closePayload (data : Option (List UInt8)) (len : ℤ) : Option (List UInt8) :=
  match data with
  | none => some []
  | some bs =>
    if len = -1 then some (bs.takeWhile (· ≠ 0))
    else if 0 ≤ len ∧ len ≤ bs.length then some (bs.take len.toNat)
    else none

/-- `websocket_conn_t::do_rsp_close`, where the source defines it. -/
def doRspClose (c : Conn) (data : Option (List UInt8)) (len : ℤ) : Option Conn :=
  (closePayload data len).map fun payload => doRsp c (closePacket payload)

/-- The packet that `do_rsp_with_mask` builds. -/
def maskPacket (data : List UInt8) (mask : Key) (isText : Bool) : Packet where
  head := ⟨if isText then 0x1 else 0x2, 0, true, shortLen data.length, mask.isSet⟩
  payloadLen := data.length
  maskingKey := if mask.isSet then mask else fun _ => 0
  payload := if mask.isSet then applyMask mask data else data

def doRspWithMask (c : Conn) (data : List UInt8) (mask : Key) (isText : Bool) : Conn :=
  doRsp c (maskPacket data mask isText)

/-- `websocket_conn_t::do_proc_pkg` on `req_package`, whose payload starts at `prev_data_pos`. -/
def doProcPkg (c : Conn) : Conn :=
  let pkg : Packet := ⟨c.head, c.payloadLen, c.maskingKey,
    slice c.buffer c.prevDataPos c.payloadLen⟩
  let c := { c with packets := c.packets ++ [pkg] }
  if pkg.head.opcode = 0x9 then doPong c pkg
  else if pkg.head.opcode = 0x0 ∨ pkg.head.fin = false then { c with toClose := true }
  else
    { c with
      buffer := write c.buffer c.prevDataPos pkg.unmasked
      msgs := c.msgs ++ [{ pkg with payload := pkg.unmasked }] }

/-- One `if (state == ...)` block of the loop of `do_read`: fall through, or `break`. -/
abbrev Block := Conn → Turn Conn (ℤ × Conn)

/-- `if (state == READ_PAYLOAD_LEN)`. -/
def readPayloadLen : Block := fun c =>
  if c.state = .readPayloadLen then
    if c.dataPos - c.prevDataPos < 2 then .leave (1, c)
    else .again { c with
      head := Head.ofBytes (c.buffer c.prevDataPos) (c.buffer (c.prevDataPos + 1))
      prevDataPos := c.prevDataPos + 2
      state := .parsePayloadLen }
  else .again c

/-- `if (state == PARSE_PAYLOAD_LEN)`. Neither of its length tests has an `else`. -/
def parsePayloadLen : Block := fun c =>
  if c.state = .parsePayloadLen then
    if c.head.payloadLen = 126 then
      if 2 ≤ c.dataPos - c.prevDataPos then .again { c with
        payloadLen := beNat (slice c.buffer c.prevDataPos 2)
        prevDataPos := c.prevDataPos + 2
        state := .parseMasking }
      else .again c
    else if c.head.payloadLen = 127 then
      if 8 ≤ c.dataPos - c.prevDataPos then .again { c with
        payloadLen := beNat (slice c.buffer c.prevDataPos 8)
        prevDataPos := c.prevDataPos + 8
        state := .parseMasking }
      else .again c
    else .again { c with payloadLen := c.head.payloadLen, state := .parseMasking }
  else .again c

/-- `if (state == PARSE_MASKING)`. -/
def parseMasking : Block := fun c =>
  if c.state = .parseMasking then
    if c.head.mask then
      if 4 ≤ c.dataPos - c.prevDataPos then .again { c with
        maskingKey := Key.ofBytes (slice c.buffer c.prevDataPos 4)
        prevDataPos := c.prevDataPos + 4
        state := .calcRestSize }
      else .leave (1, c)
    else .again { c with state := .calcRestSize }
  else .again c

/-- `if (state == CALC_REST_SIZE)`, with the `memmove` to the front of the buffer. -/
def calcRestSize : Block := fun c =>
  if c.state = .calcRestSize then
    if c.maxBufLen - c.dataPos < toInt64 c.payloadLen then .again { c with
      buffer := write c.buffer 0
        (slice c.buffer c.prevDataPos (c.dataPos - c.prevDataPos).toNat)
      dataPos := c.dataPos - c.prevDataPos
      prevDataPos := 0
      state := .readData }
    else .again { c with state := .readData }
  else .again c

/-- `if (state == READ_DATA)`. -/
def readData : Block := fun c =>
  if c.state = .readData then
    if c.dataPos - c.prevDataPos < toInt64 c.payloadLen then .leave (1, c)
    else .again { c with state := .procMsg }
  else .again c

/-- `if (state == PROC_MSG)`; `do_proc_pkg` returns 0. -/
def procMsg : Block := fun c =>
  if c.state = .procMsg then
    let c := doProcPkg { c with state := .readPayloadLen }
    .again { c with prevDataPos := wrapInt64 (c.prevDataPos + c.payloadLen) }
  else .again c

/-- The body of the `while(1)` of `do_read`. -/
def readTurn : Block := fun c =>
  (readPayloadLen c).andThen fun c => (parsePayloadLen c).andThen fun c =>
  (parseMasking c).andThen fun c => (calcRestSize c).andThen fun c =>
  (readData c).andThen procMsg

/-- `recv` into the buffer. -/
def receive (c : Conn) (chunk : List UInt8) : Conn :=
  { c with
    buffer := write c.buffer c.dataPos chunk
    dataPos := c.dataPos + chunk.length }

/-- What `recv` comes back with. -/
inductive Recv
  | data (chunk : List UInt8)
  | closed
  | interrupted
  | failed

/-- `websocket_conn_t::do_read`: its result and the connection after it. -/
inductive DoRead (c : Conn) : Recv → ℤ × Conn → Prop
  | full (r : Recv) (rest : c.maxBufLen - c.dataPos ≤ 0) : DoRead c r (-1, c)
  | failed (rest : 0 < c.maxBufLen - c.dataPos) : DoRead c .failed (-1, c)
  | interrupted (rest : 0 < c.maxBufLen - c.dataPos) : DoRead c .interrupted (1, c)
  | closed (rest : 0 < c.maxBufLen - c.dataPos) : DoRead c .closed (0, c)
  | data {chunk : List UInt8} {r : ℤ × Conn} (some : chunk ≠ [])
      (fits : chunk.length ≤ c.maxBufLen - c.dataPos)
      (returns : Loop.Returns readTurn (receive c chunk) r) : DoRead c (.data chunk) r

end Conet.Svrkit.Websocket
