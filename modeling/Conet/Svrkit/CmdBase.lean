/- Module: Conet/Svrkit/CmdBase
   source: svrkit/cmd_base.h, base/ref_str.h, base/net_tool.h
   digest: The head of an RPC packet: its parser and its serializers. -/

import Conet.Base.Pbc

set_option autoImplicit false
set_option relaxedAutoImplicit false

namespace Conet.Svrkit

open Conet.Lib Conet.Lib.Protobuf Conet.Base.Pbc

/-- `ref_str_t`; a null `data` is 0. -/
@[ext] structure RefStr where
  len : UInt32
  data : ℤ
  deriving DecidableEq

def initRefStr (start : ℤ) (len : ℕ) : RefStr := ⟨UInt32.ofNat len, start⟩

/-- The bytes that a `ref_str_t` stands for. -/
def RefStr.bytes (s : RefStr) (mem : ℤ → UInt8) : List UInt8 := slice mem s.data s.len.toNat

/-- `cmd_base_t`. -/
@[ext] structure CmdBase where
  type : UInt32
  cmdName : RefStr
  cmdId : UInt64
  seqId : UInt64
  body : RefStr
  ret : UInt32
  errmsg : RefStr
  deriving DecidableEq

namespace CmdBase

def init : CmdBase := ⟨0, ⟨0, 0⟩, 0, 0, ⟨0, 0⟩, 0, ⟨0, 0⟩⟩

/-- `sizeof(cmd_base_t)`, with the padding behind `type` and `ret`. -/
def sizeofCmdBase : ℕ := 80

def getMaybeSize (c : CmdBase) : ℕ :=
  (sizeofCmdBase - 3 * 4 + c.body.len.toNat + c.cmdName.len.toNat + c.errmsg.len.toNat) % 2 ^ 32

section Parse

variable (mem : ℤ → UInt8)

/-- The `switch` of `parse`. -/
def parseField (c : CmdBase) (f : PbField) : CmdBase :=
  match f.tag with
  | 1 => { c with type := UInt32.ofNat f.i32 }
  | 2 => { c with cmdName := initRefStr f.data f.i32 }
  | 3 => { c with cmdId := UInt64.ofNat f.i64 }
  | 4 => { c with seqId := UInt64.ofNat f.i64 }
  | 5 => { c with body := initRefStr f.data f.i32 }
  | 6 => { c with ret := UInt32.ofNat f.i32 }
  | 7 => { c with errmsg := initRefStr f.data f.i32 }
  | _ => c

/-- The loop of `parse`, for at most `n` fields. -/
def parseLoop : ℕ → Option PbField → CmdBase → CmdBase
  | n + 1, some f, c => parseLoop n (pbNext mem f) (parseField c f)
  | _, _, c => c

/-- `cmd_base_t::parse`: its return value and the head after it. `start` holds what its memory held
before; every field takes a byte at least. -/
def parse (start : PbField) (buff : ℤ) (len : ℕ) (c : CmdBase) : ℤ × CmdBase :=
  (0, parseLoop mem (len + 1) (pbBegin mem start buff (toInt32 len)) c)

end Parse

section Serialize

variable (mem : ℤ → UInt8)

def serializeCommon (c : CmdBase) (b : PbBuff) : PbBuff :=
  let b := if c.type > 0 then (pbAddVarint b 1 c.type.toNat).1 else b
  let b := if c.cmdName.len > 0 ∧ c.cmdName.data ≠ 0 then
    (pbAddString b 2 (c.cmdName.bytes mem)).1 else b
  let b := if c.cmdId > 0 then (pbAddVarint b 3 c.cmdId.toNat).1 else b
  let b := if c.seqId > 0 then (pbAddVarint b 4 c.seqId.toNat).1 else b
  let b := if c.ret > 0 then (pbAddFixed32 b 6 c.ret.toNat).1 else b
  if c.errmsg.len > 0 then (pbAddString b 7 (c.errmsg.bytes mem)).1 else b

def serializeReset (c : CmdBase) (b : PbBuff) : PbBuff :=
  if c.body.len > 0 then (pbAddString b 5 (c.body.bytes mem)).1 else b

/-- `serialize_to`: what it writes to `buff`, and `*out_len`. -/
def serializeTo (c : CmdBase) (len : ℕ) : List UInt8 × ℕ :=
  let b := serializeReset mem c (serializeCommon mem c (pbInitBuff len))
  (b.out, (pbGetEncodedLength b % 2 ^ 32).toNat)

/-- A message: the bytes that `SerializeWithCachedSizesToArray` writes, `ByteSize()` many. -/
structure Message where
  bytes : List UInt8
  /-- `ByteSize` is an `int`. -/
  small : bytes.length < 2 ^ 31

/-- `msg->ByteSize()`, 0 without a message. -/
def byteSize (msg : Option Message) : ℕ := msg.elim 0 fun m => m.bytes.length

/-- What a serializer returns, what it leaves in `*len`, and what it has written to its buffer. -/
structure Serialized where
  ret : ℤ
  len : ℕ
  out : List UInt8

/-- `serialize_cmd_base_impl`. The difference with `uint32_t` is not negative: the last check is
whether it is 0. -/
def serializeCmdBaseImpl (c : CmdBase) (len : ℕ) (msg : Option Message) (msgLen : ℕ) : Serialized :=
  let maxLen := len % 2 ^ 32
  if (getMaybeSize c + msgLen) % 2 ^ 32 < maxLen then ⟨-1, len, []⟩
  else
    let b := serializeCommon mem c (pbInitBuff maxLen)
    match msg with
    | none => ⟨0, (pbGetEncodedLength b % 2 ^ 32).toNat, b.out⟩
    | some m =>
      match pbAddStringHead b 5 msgLen with
      | (b, 0) =>
        if (b.left - msgLen) % 2 ^ 32 ≤ 0 then ⟨-2, len, b.out⟩
        else
          let b := { b with out := b.out ++ m.bytes, left := toInt32 (b.left - msgLen) }
          ⟨0, (pbGetEncodedLength b % 2 ^ 32).toNat, b.out⟩
      | (b, _) => ⟨-1, len, b.out⟩

/-- `htonl` as the bytes that are stored. -/
def htonl (n : ℕ) : List UInt8 := beBytes 4 n

/-- `serialize_cmd_base(char *, size_t *, …)`. What is written is `out` from the fifth byte on, and
the four bytes in front of it on success. -/
def serializeCmdBase (c : CmdBase) (len : ℕ) (msg : Option Message) : Serialized :=
  if len ≤ 4 then ⟨-1, len, []⟩
  else
    let s := serializeCmdBaseImpl mem c (len - 4) msg (byteSize msg)
    if s.ret ≠ 0 then s
    else ⟨0, (s.len % 2 ^ 32 + 4) % 2 ^ 64, htonl (s.len % 2 ^ 32) ++ s.out⟩

/-- `serialize_cmd_base(std::vector<char> *, …)`: the size that it gives the vector, what it writes
from the fifth byte on, and on success the vector in the end. -/
structure Grown where
  ret : ℤ
  maxLen : ℕ
  written : List UInt8
  out : List UInt8

def serializeCmdBaseVector (c : CmdBase) (msg : Option Message) : Grown :=
  let maxLen := (getMaybeSize c + byteSize msg) % 2 ^ 32
  let s := serializeCmdBaseImpl mem c ((maxLen + 2 ^ 64 - 4) % 2 ^ 64) msg (byteSize msg)
  if s.ret ≠ 0 then ⟨s.ret, maxLen, s.out, []⟩
  else
    let outLen := s.len % 2 ^ 32
    ⟨0, maxLen, s.out, (htonl outLen ++ s.out).take (outLen + 4)⟩

/-- `send_cmd_base` up to the call of `send_data`: the error that it returns instead, what it writes
to `ps->buff` from the fifth byte on, and what it passes to `send_data`. -/
structure Sent where
  ret : ℤ
  written : List UInt8
  data : Option (List UInt8)

def sendCmdBase (c : CmdBase) (maxSize : ℕ) (msg : Option Message) : Sent :=
  let b := serializeCommon mem c (pbInitBuff (maxSize - 4))
  let send (b : PbBuff) : Sent :=
    let outLen := (pbGetEncodedLength b % 2 ^ 32).toNat
    ⟨0, b.out, some ((htonl outLen ++ b.out).take (outLen + 4))⟩
  match msg with
  | none => send b
  | some m =>
    let rspLen := byteSize msg
    match pbAddStringHead b 5 rspLen with
    | (b, 0) =>
      if (b.left - rspLen) % 2 ^ 32 ≤ 0 then ⟨-2, b.out, none⟩
      else send { b with out := b.out ++ m.bytes, left := toInt32 (b.left - rspLen) }
    | (b, _) => ⟨-1, b.out, none⟩

end Serialize

end CmdBase

end Conet.Svrkit
