/- Module: Conet/Base/NetTool
   source: base/src/net_tool.cpp, base/net_tool.h
   digest: PacketStream: the reading of packets with their lengths in front of them. -/

import Conet.Lib.Frame
import Conet.Lib.Loop
import Conet.Base.Pbc

set_option autoImplicit false
set_option relaxedAutoImplicit false

namespace Conet.Base.NetTool

open Conet.Lib Conet.Lib.Frame Conet.Base.Pbc

/-- What `recv` comes back with: data, the end of the stream, `EAGAIN` or another error. -/
inductive Recv
  | data (chunk : List UInt8)
  | closed
  | again
  | failed
  deriving DecidableEq

/-- What `poll` comes back with, with the events that are looked at. -/
inductive Poll
  | timeout
  | failed
  | pollErr
  | pollIn
  | other
  deriving DecidableEq

/-- What the system calls for one piece of data come back with: the `recv` before `poll`, `poll`,
the `recv` after it, and whether the deadline has passed by then. -/
structure Attempt where
  early : Recv
  poll : Poll
  recv : Recv
  late : Bool
  deriving DecidableEq

/-- A positive number of bytes, or a return value that ends the reading. -/
inductive ReadResult
  | data (chunk : List UInt8)
  | fails (ret : ℤ)
  deriving DecidableEq

/-- The return value of `recv`. -/
def Recv.result : Recv → ReadResult
  | .data [] => .fails 0
  | .data (b :: bs) => .data (b :: bs)
  | .closed => .fails 0
  | .again => .fails (-1)
  | .failed => .fails (-1)

def readTimeout (hasData : Bool) (a : Attempt) : ReadResult :=
  if hasData ∧ a.early ≠ .again then a.early.result
  else
    match a.poll with
    | .timeout => .fails (-2)
    | .failed => .fails (-1)
    | .pollErr => .fails (-1)
    | .other => .fails (-1)
    | .pollIn => a.recv.result

/-- How the two functions `read_packet` get data: with `read_timeout` and a deadline, or with
`recv`. -/
structure Reader where
  read : Bool → Attempt → ReadResult
  late : Attempt → Bool

def withTimeout : Reader := ⟨readTimeout, Attempt.late⟩

def plain : Reader := ⟨fun _ a => a.recv.result, fun _ => false⟩

/-- `PacketStream`; `buff` is at address 0, and `max_size` is an `int`. -/
structure PacketStream where
  maxSize : ℤ
  mem : ℤ → UInt8
  prevPos : ℤ
  totalLen : ℤ
  isHttp : Bool

def PacketStream.init (s : PacketStream) : PacketStream := { s with prevPos := 0, totalLen := 0 }

/-- The buffer and `cur_len` while a packet is read, where and how much every `recv` was asked for,
and what they brought. -/
structure Buffer where
  mem : ℤ → UInt8
  curLen : ℤ
  asks : List (ℤ × ℤ)
  got : List UInt8

/-- How a loop of `read_packet` ends: the buffer is filled as far as needed, the function returns,
it waits for data, or `recv` brings more than it is asked for, which no `recv` does. -/
inductive Fill
  | full (b : Buffer) (script : List Attempt)
  | fails (ret : ℤ) (b : Buffer) (script : List Attempt)
  | waits (b : Buffer)
  | impossible

/-- The loops of `read_packet`, up to `need` bytes in the buffer. -/
def fill (r : Reader) (maxSize need : ℤ) : Bool → List Attempt → Buffer → Fill
  | _, [], b => if need ≤ b.curLen then .full b [] else .waits b
  | hasData, a :: script, b =>
    if need ≤ b.curLen then .full b (a :: script)
    else
      let asks := b.asks ++ [(b.curLen, maxSize - b.curLen)]
      match r.read hasData a with
      | .fails ret => .fails ret { b with asks := asks } script
      | .data chunk =>
        if chunk.length ≤ maxSize - b.curLen then
          let b : Buffer :=
            ⟨write b.mem b.curLen chunk, b.curLen + chunk.length, asks, b.got ++ chunk⟩
          if r.late a then .fails (-2) b script else fill r maxSize need false script b
        else .impossible

/-- How a call ends: it waits for data, `recv` brings more than it is asked for, a sum leaves the
range of `int`, it returns since a read fails or the deadline has passed, or it returns otherwise. -/
inductive ReadEnd
  | waits
  | impossible
  | undefined
  | failed (ret : ℤ)
  | returned (ret : ℤ)
  deriving DecidableEq

/-- What a call leaves behind: how it ends, the stream, `*pack` and `*pack_len`, the system calls
still to come, where and how much `recv` was asked for, and what was received. -/
structure ReadOut where
  outcome : ReadEnd
  stream : PacketStream
  pack : Option (ℤ × ℤ)
  script : List Attempt
  asks : List (ℤ × ℤ)
  got : List UInt8

/-- The leftover bytes are moved to the start of the buffer. -/
def compact (s : PacketStream) : Buffer :=
  if 0 < s.prevPos then
    let curLen := s.totalLen - s.prevPos
    ⟨write s.mem 0 (slice s.mem s.prevPos curLen.toNat), curLen, [], []⟩
  else ⟨s.mem, 0, [], []⟩

def isAlpha (c : UInt8) : Bool := (65 ≤ c && c ≤ 90) || (97 ≤ c && c ≤ 122)

/-- The part of `read_packet` from the length on. The sum with 4 is one of `int`s. -/
def readBody (r : Reader) (s : PacketStream) (script : List Attempt) (b : Buffer) : ReadOut :=
  let len : ℤ := announced (slice b.mem 0 4)
  let s := { s with mem := b.mem }
  if toInt32 len ≤ 0 then ⟨.returned (-1), s, none, script, b.asks, b.got⟩
  else if 2 ^ 31 ≤ len + 4 then ⟨.undefined, s, none, script, b.asks, b.got⟩
  else if len + 4 > s.maxSize then ⟨.returned (-4), s, none, script, b.asks, b.got⟩
  else
    match fill r s.maxSize (len + 4) false script b with
    | .waits b => ⟨.waits, { s with mem := b.mem }, none, [], b.asks, b.got⟩
    | .impossible => ⟨.impossible, s, none, script, b.asks, b.got⟩
    | .fails ret b script => ⟨.failed ret, { s with mem := b.mem }, none, script, b.asks, b.got⟩
    | .full b script =>
      ⟨.returned 1, { s with mem := b.mem, totalLen := b.curLen, prevPos := len + 4 },
        some (4, len), script, b.asks, b.got⟩

/-- Both functions `read_packet`. -/
def readPacketWith (r : Reader) (hasData : Bool) (s : PacketStream) (script : List Attempt) :
    ReadOut :=
  match fill r s.maxSize 4 hasData script (compact s) with
  | .waits b => ⟨.waits, { s with mem := b.mem }, none, [], b.asks, b.got⟩
  | .impossible => ⟨.impossible, s, none, script, [], []⟩
  | .fails ret b script => ⟨.failed ret, { s with mem := b.mem }, none, script, b.asks, b.got⟩
  | .full b script =>
    if s.isHttp && isAlpha (b.mem 0) then
      ⟨.returned (-10000), { s with mem := b.mem, prevPos := b.curLen }, none, script, b.asks, b.got⟩
    else readBody r s script b

/-- `read_packet(pack, pack_len, timeout, has_data)`. -/
def readPacketTimeout (hasData : Bool) (s : PacketStream) (script : List Attempt) : ReadOut :=
  readPacketWith withTimeout hasData s script

def readPacket (s : PacketStream) (script : List Attempt) : ReadOut :=
  readPacketWith plain false s script

/-- `next_packet`: its return value, the stream, `*pack` and `*pack_len`; nothing when the sum with
`prev_pos` leaves the range of `int`. The sums with the length are of unsigned numbers. -/
def nextPacket (s : PacketStream) : Option (ℤ × PacketStream × Option (ℤ × ℤ)) :=
  if 2 ^ 31 ≤ 4 + s.prevPos then none
  else if 4 + s.prevPos > s.totalLen then some (-1, s, none)
  else
    let curLen := (s.totalLen - s.prevPos) % 2 ^ 32
    let len : ℤ := announced (slice s.mem s.prevPos 4)
    if curLen < (len + 4) % 2 ^ 32 then some (-2, s, none)
    else some (0, { s with prevPos := toInt32 (s.prevPos + (len + 4)) },
      some (s.prevPos + 4, toInt32 len))

/-! ### System calls to come -/

section More

variable {r : Reader} {maxSize need : ℤ} {hasData : Bool} {script : List Attempt} {b : Buffer}

def Fill.more (more : List Attempt) : Fill → Fill
  | .full b script => .full b (script ++ more)
  | .fails ret b script => .fails ret b (script ++ more)
  | .waits b => .waits b
  | .impossible => .impossible

/-- A loop that ends does not look at the system calls to come. -/
theorem fill_more (more : List Attempt)
    (ends : ∀ b', fill r maxSize need hasData script b ≠ .waits b') :
    fill r maxSize need hasData (script ++ more) b =
      (fill r maxSize need hasData script b).more more := by
  induction script generalizing hasData b with
  | nil =>
    by_cases enough : need ≤ b.curLen
    · rw [fill, if_pos enough]
      cases more with
      | nil => exact if_pos enough
      | cons a more => exact if_pos enough
    · exact absurd (if_neg enough) (ends b)
  | cons a script ih =>
    rw [fill] at ends
    rw [List.cons_append, fill, fill]
    split at ends
    case isTrue enough =>
      rw [if_pos enough, if_pos enough]
      rfl
    case isFalse less =>
      rw [if_neg less, if_neg less]
      cases read : r.read hasData a with
      | fails ret => rfl
      | data chunk =>
        simp only [read] at ends ⊢
        split at ends
        case isTrue fits =>
          simp only [if_pos fits]
          split at ends
          case isTrue late =>
            simp only [if_pos late]
            rfl
          case isFalse early =>
            simp only [if_neg early]
            exact ih ends
        case isFalse exceeds =>
          simp only [if_neg exceeds]
          rfl

def ReadOut.more (more : List Attempt) (out : ReadOut) : ReadOut :=
  { out with script := out.script ++ more }

theorem readBody_more (s : PacketStream) (more : List Attempt)
    (ends : (readBody r s script b).outcome ≠ .waits) :
    readBody r s (script ++ more) b = ReadOut.more more (readBody r s script b) := by
  revert ends
  simp only [readBody]
  split_ifs with bad wrap large
  · exact fun _ => rfl
  · exact fun _ => rfl
  · exact fun _ => rfl
  · intro ends
    rw [fill_more more (fun b' waits => ends (by rw [waits]))]
    cases second : fill r s.maxSize ((announced (slice b.mem 0 4) : ℤ) + 4) false script b with
    | waits b' => exact absurd (by rw [second]) ends
    | full b' script' => rfl
    | fails ret b' script' => rfl
    | impossible => rfl

/-- A call that ends does not look at the system calls to come. -/
theorem readPacketWith_more (s : PacketStream) (more : List Attempt)
    (ends : (readPacketWith r hasData s script).outcome ≠ .waits) :
    readPacketWith r hasData s (script ++ more) =
      ReadOut.more more (readPacketWith r hasData s script) := by
  revert ends
  simp only [readPacketWith]
  intro ends
  rw [fill_more more (fun b' waits => ends (by rw [waits]))]
  cases first : fill r s.maxSize 4 hasData script (compact s) with
  | waits b => exact absurd (by rw [first]) ends
  | impossible => rfl
  | fails ret b script' => rfl
  | full b script' =>
    rw [first] at ends
    simp only [Fill.more] at ends ⊢
    split at ends
    case isTrue http =>
      rw [if_pos http, if_pos http]
      rfl
    case isFalse binary =>
      rw [if_neg binary, if_neg binary]
      exact readBody_more s more ends

end More

end Conet.Base.NetTool
