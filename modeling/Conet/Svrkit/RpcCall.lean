/- Module: Conet/Svrkit/RpcCall
   source: svrkit/src/rpc_pb_client.cpp, svrkit/rpc_pb_client.h, svrkit/src/rpc_pb_server.cpp
   digest: Calls over one connection, from the arguments of the caller to what it is told, through the
   bytes of both packets. -/

import Conet.Base.NetToolSend
import Conet.Svrkit.RpcTcpConn

set_option autoImplicit false
set_option relaxedAutoImplicit false

namespace Conet.Svrkit.RpcCall

open Conet.Base Conet.Lib Conet.Lib.Frame Conet.Lib.Protobuf Conet.Base.Pbc Conet.Base.NetTool
open Conet.Base.NetToolRead Conet.Svrkit.CmdBase Conet.Svrkit.CmdBaseCodec Conet.Svrkit.RpcServer
open Conet.Svrkit.RpcTcpConn
open Conet.Base.HttpParser (codes)

/-! ### The client -/

/-- What the system calls of a call come back with, and the two streams that the pool gives. -/
structure Way where
  timeout : ℤ
  startMs : UInt64
  sends : List NetToolSend.Attempt
  poll : Poll
  recvs : List Attempt
  sender : PacketStream
  reader : PacketStream

/-- What an answer tells the caller: `*retcode`, and `*errmsg` and the bytes of `*rsp` if they are
set. -/
structure Answer where
  retcode : UInt32
  errmsg : Option (List UInt8)
  rsp : Option (List UInt8)
  deriving DecidableEq

/-- How `rpc_pb_call_impl` ends: it waits, it leaves what the language defines or `recv` brings more
than it is asked for, it returns an error, or it returns 0. -/
inductive CallEnd
  | waits
  | undefined
  | fails (ret : ℤ)
  | answered (a : Answer)
  deriving DecidableEq

/-- `*req_base` as it is sent. -/
def asked (reqBase : CmdBase) (seqId : UInt64) : CmdBase :=
  { reqBase with type := requestType, seqId := seqId }

/-- The part of `rpc_pb_call_impl` behind `parse`. -/
def Answer.of (mem : ℤ → UInt8) (rspBase : CmdBase) : Answer :=
  if rspBase.ret ≠ 0 then
    ⟨rspBase.ret, if rspBase.errmsg.len > 0 then some (rspBase.errmsg.bytes mem) else none, none⟩
  else ⟨rspBase.ret, none, some (rspBase.body.bytes mem)⟩

/-- The part behind `poll`; the buffer of the stream is at `base`. -/
def readRsp (start : PbField) (base : ℤ) (w : Way) : CallEnd :=
  let out := readPacketTimeout true w.reader.init w.recvs
  match out.outcome with
  | .waits => .waits
  | .impossible => .undefined
  | .undefined => .undefined
  | .failed _ => .fails (-5)
  | .returned ret =>
    if ret ≤ 0 then .fails (-5)
    else
      match out.pack with
      | none => .undefined
      | some (off, len) =>
        let mem := bufferAt base out.stream
        let parsed := parse mem start (base + off) len.toNat init
        if parsed.1 ≠ 0 then .fails (-6) else .answered (.of mem parsed.2)

/-- `rpc_pb_call_impl`; `seqId` is `g_rpc_client_seq_id` behind its increment. -/
def rpcPbCallImpl (start : PbField) (base : ℤ) (mem : ℤ → UInt8) (reqBase : CmdBase)
    (req : Option Message) (seqId : UInt64) (w : Way) : CallEnd :=
  match (sendCmdBase mem (asked reqBase seqId) w.sender.maxSize.toNat req).data with
  | none => .fails (-4)
  | some data =>
    match NetToolSend.sendDataTimeout data w.timeout w.startMs w.sends with
    | none => .waits
    | some (ret, _) =>
      if ret ≤ 0 then .fails (-4)
      else
        match w.poll with
        | .timeout => .fails (-2)
        | .failed => .fails (-1)
        | .pollErr => .fails (-1)
        | .other => .fails (-1)
        | .pollIn => readRsp start base w

/-- What `rpc_pb_call` returns, `*retcode` and `*errmsg` if they are set, and `*a_rsp`. -/
structure Result (M : Type) where
  ret : ℤ
  retcode : Option UInt32
  errmsg : Option (List UInt8)
  aRsp : M

section Wire

variable {mem mem' : ℤ → UInt8} {c : CmdBase} {msg : Option Message} {p bs : List UInt8} {L : ℕ}
  {maxSize need : ℤ} {hasData : Bool} {script : List Attempt} {b : Buffer} {o : Overload}
  {s : PacketStream}

/-- A message is serialized where there is a byte to spare. -/
theorem fill_room (room : (encoding mem c msg).length < L) (small : L < 2 ^ 31) :
    fill mem c L msg = (0, encoding mem c msg) := by
  have dwords (n : ℕ) : (L : ℤ) - n < 2 ^ 31 := by omega
  have le : (encoding mem c none).length ≤ (encoding mem c msg).length := by
    simp [encoding, bodyField]
  have head : (headLaid mem c L).2 = true := by
    apply laidAll_fits
    · omega
    · rw [← encoding_none]
      omega
    · exact .inl (dwords 0)
  apply (fill_done_iff L).mpr
  refine ⟨head, ?_⟩
  rintro m rfl
  have full := laidAll_full head
  rw [← encoding_none] at full
  have header : (headerLaid mem c L m.bytes.length).2 = true := by
    apply laid_fits
    · omega
    · rw [encoding_some, List.length_append, List.length_append, ← encoding_none] at room
      rw [headLaid, full]
      omega
    · exact .inl (dwords _)
  refine ⟨header, fun exact => ?_⟩
  have same := (exact_iff head header).mp exact
  omega

theorem send_room (room : (encoding mem c msg).length + 4 < maxSize) (small : maxSize < 2 ^ 31) :
    (sendCmdBase mem c maxSize.toNat msg).data = some (frame (encoding mem c msg)) := by
  have filled : fill mem c (maxSize.toNat - 4) msg = (0, encoding mem c msg) :=
    fill_room (by omega) (by omega)
  have mod : (encoding mem c msg).length % 2 ^ 32 = (encoding mem c msg).length :=
    Nat.mod_eq_of_lt (by omega)
  rw [send_eq, filled]
  simp only [if_true, mod, Option.some.injEq]
  apply List.take_of_length_le
  simp [htonl, Nat.add_comm]

/-- There is room for all that comes, and the loop sees no `recv` that brings more than it is asked
for. -/
def Possible (maxSize : ℤ) : Fill → Prop
  | .full b script => b.curLen + (bytesOf script).length ≤ maxSize ∧ ∀ a ∈ script, Fine a
  | .impossible => False
  | _ => True

theorem fill_possible (fine : ∀ a ∈ script, Fine a)
    (room : b.curLen + (bytesOf script).length ≤ maxSize) :
    Possible maxSize (NetTool.fill o.reader maxSize need hasData script b) := by
  induction script generalizing hasData b with
  | nil =>
    rw [NetTool.fill]
    split_ifs
    · exact ⟨room, by simp⟩
    · trivial
  | cons a script ih =>
    obtain ⟨read, early⟩ := (fine a (by simp)).reads o hasData
    simp only [bytesOf, List.flatMap_cons, List.length_append] at room
    rw [NetTool.fill]
    by_cases enough : need ≤ b.curLen
    · rw [if_pos enough]
      exact ⟨by simpa [bytesOf] using room, fine⟩
    · simp only [if_neg enough, read, early, Bool.false_eq_true, if_false]
      rw [if_pos (by omega)]
      apply ih fun a mem => fine a (List.mem_cons_of_mem _ mem)
      simp only [bytesOf]
      omega

theorem read_possible (fine : ∀ a ∈ script, Fine a) (room : (bytesOf script).length ≤ s.maxSize)
    (start : s.prevPos = 0) : (o.read s script).outcome ≠ .impossible := by
  have empty : (compact s).curLen = 0 := by simp [compact, start]
  have first : Possible s.maxSize (NetTool.fill o.reader s.maxSize 4 o.hasData script (compact s)) :=
    fill_possible fine (by rw [empty]; omega)
  rw [Overload.read_eq, readPacketWith]
  cases filled : NetTool.fill o.reader s.maxSize 4 o.hasData script (compact s) with
  | impossible => exact absurd first (by simp [filled, Possible])
  | waits b => simp
  | fails ret b script' => simp
  | full b script' =>
    rw [filled] at first
    obtain ⟨room', fine'⟩ := first
    have second : Possible s.maxSize (NetTool.fill o.reader s.maxSize
        ((announced (slice b.mem 0 4) : ℤ) + 4) false script' b) := fill_possible fine' room'
    simp only [readBody]
    split_ifs
    · simp
    · simp
    · simp
    · simp
    · cases filled' : NetTool.fill o.reader s.maxSize _ false script' b with
      | impossible => exact absurd second (by simp [filled', Possible])
      | waits b => simp
      | fails ret b script' => simp
      | full b script' => simp

/-- The first byte of a length below 2^30 is not a letter. -/
theorem binary_of_lt (lt : p.length < 2 ^ 30) : Binary p := by
  intro b first
  obtain rfl : UInt8.ofNat (p.length / 256 / 256 / 256) = b := Option.some.inj first
  have low : (UInt8.ofNat (p.length / 256 / 256 / 256)).toNat < 64 := by
    rw [UInt8.toNat_ofNat']
    omega
  simp only [isAlpha, Bool.or_eq_false_iff, Bool.and_eq_false_iff, decide_eq_false_iff_not,
    UInt8.le_iff_toNat_le]
  exact ⟨.inl (by simp; omega), .inl (by simp; omega)⟩

/-- A stream that has just been initialised reads one frame. -/
theorem gives_frame (init : s.prevPos = 0 ∧ s.totalLen = 0) (small : s.maxSize < 2 ^ 31)
    (fine : ∀ a ∈ script, Fine a) (bytes : bytesOf script = frame p) (some : 0 < p.length)
    (fits : p.length + 4 ≤ s.maxSize) (plain : s.isHttp = false ∨ Binary p) :
    Gives (o.read s script) p := by
  have length := congrArg List.length bytes
  rw [frame_length] at length
  have short : Short p := by
    rw [Short]
    omega
  have held : Held s [] := by
    refine ⟨?_, ?_, ?_, rfl, fun _ => rfl⟩
    · omega
    · simp [init]
    · omega
  have possible : (o.read s script).outcome ≠ .impossible :=
    read_possible fine (by omega) init.1
  apply (gives_iff held (by omega) small fine possible).mpr
  rw [List.nil_append, bytes]
  refine ⟨short, ⟨[], by simp⟩, ?_⟩
  have len : announced (frame p) = p.length := by simpa using announced_frame short []
  rintro ⟨-, zero | large | ⟨http, b, first, letter⟩⟩
  · omega
  · omega
  · rcases plain with off | binary
    · simp [off] at http
    · simp [binary b first] at letter

end Wire

/-! ### The server -/

section Serve

variable {M : Type} {s : RpcPbServerBase M} {mem : ℤ → UInt8} {start : PbField} {text base data : ℤ}
  {pool : ℕ → PacketStream} {maxSize : ℤ} {c : Conn M} {p : List UInt8} {len : ℕ} {k : Content}
  {cmd : RpcPbCmd M} {r : Reply M} {out : ReadOut} {group more : List Attempt} {polls : List Polled}

def lookup (s : RpcPbServerBase M) (k : Content) : Option (RpcPbCmd M) :=
  if k.cmdId > 0 then s.cmdIdMaps k.cmdId else s.cmdMaps k.cmdName

def Named (k : Content) : Prop := k.cmdId > 0 ∨ k.cmdName ≠ []

theorem names_content {h : CmdBase} (named : Named (content mem h)) :
    Names h ∧ getRpcPbCmd s mem h = lookup s (content mem h) := by
  unfold Names getRpcPbCmd lookup
  by_cases id : h.cmdId > 0
  · have id' : (content mem h).cmdId > 0 := id
    rw [if_pos id, if_pos id']
    exact ⟨.inl id, rfl⟩
  · have id' : ¬ (content mem h).cmdId > 0 := id
    have name := named.resolve_left id'
    have nonnull : h.cmdName.data ≠ 0 := by
      intro null
      simp [content, null] at name
    have same : (content mem h).cmdName = h.cmdName.bytes mem := if_neg nonnull
    rw [if_neg id, if_neg id', same]
    refine ⟨.inr ?_, rfl⟩
    rw [same] at name
    have pos := List.length_pos_of_ne_nil name
    rw [bytes_length] at pos
    exact pos

theorem serveHead_respond {h : CmdBase} (request : h.type = requestType) (names : Names h)
    (found : getRpcPbCmd s mem h = some cmd) (quiet : Printable s cmd (h.body.bytes mem)) :
    Handled.of (serveHead s mem (tcpPath text) h) (target s mem h) =
      .answered (respond (cmd.rpcPbCallCb s.logged (h.body.bytes mem))) := by
  have served : serveHead s mem (tcpPath text) h =
      .ok (some (respond (cmd.rpcPbCallCb s.logged (h.body.bytes mem)))) :=
    (serveHead_found _ request names found).mpr ⟨quiet, rfl⟩
  have named : h.cmdId > 0 ∨ h.cmdName.len > 0 := names
  have target : target s mem h = .ok (some cmd) := by
    rw [RpcServer.target, if_pos named, found]
  rw [served, target]
  rfl

/-- What the server makes of a request for a command that it has. -/
theorem handle_respond (parsed : content mem (headOf mem start data len) = k)
    (request : k.type = requestType) (named : Named k) (found : lookup s k = some cmd)
    (quiet : Printable s cmd k.body) : handle s start text mem data len =
      .answered (respond (cmd.rpcPbCallCb s.logged k.body)) := by
  have served : ∀ h : CmdBase, content mem h = k →
      Handled.of (serveHead s mem (tcpPath text) h) (target s mem h) =
        .answered (respond (cmd.rpcPbCallCb s.logged k.body)) := by
    rintro h rfl
    obtain ⟨names, same⟩ := names_content (s := s) named
    exact serveHead_respond request names (same.trans found) quiet
  rw [handle, procTcpRpcPb, serve_eq]
  exact served _ parsed

/-- The text on a command that the server does not have. -/
def refusal (k : Content) : List UInt8 :=
  if k.cmdId > 0 then codes "unsuppored cmd_id:" ++ codes (toString k.cmdId.toNat)
  else codes "unsuppored cmd:" ++ k.cmdName

variable (text) in
theorem handle_refuse (parsed : content mem (headOf mem start data len) = k)
    (request : k.type = requestType) (named : Named k) (unknown : lookup s k = none) :
    ∃ h, content mem h = k ∧
      handle s start text mem data len = .ends (some (refuse text h (refusal k))) := by
  have served : ∀ h : CmdBase, content mem h = k →
      Handled.of (serveHead s mem (tcpPath text) h) (target s mem h) =
        .ends (some (refuse text h (refusal k))) := by
    rintro h rfl
    obtain ⟨names, same⟩ := names_content (s := s) named
    have unknown' : getRpcPbCmd s mem h = none := same.trans unknown
    have named' : h.cmdId > 0 ∨ h.cmdName.len > 0 := names
    have texts : unsuppored mem h = refusal (content mem h) := by
      unfold unsuppored refusal
      by_cases id : h.cmdId > 0
      · rw [if_pos id, if_pos (show (content mem h).cmdId > 0 from id)]
        rfl
      · have name := named.resolve_left (show ¬ (content mem h).cmdId > 0 from id)
        have nonnull : h.cmdName.data ≠ 0 := by
          intro null
          simp [content, null] at name
        rw [if_neg id, if_neg (show ¬ (content mem h).cmdId > 0 from id)]
        simp only [content, if_neg nonnull]
    have target : target s mem h = .error (unsuppored mem h) := by
      rw [RpcServer.target, if_pos named', unknown']
    rw [serveHead_unknown _ request names unknown', target, texts]
    rfl
  refine ⟨_, parsed, ?_⟩
  rw [handle, procTcpRpcPb, serve_eq]
  exact served _ parsed

theorem afterRead_handles (gives : Gives out p) (some : 0 < p.length)
    (answered : handle s start text (bufferAt base out.stream) (base + 4) p.length = .answered r) :
    afterRead s start text base out c = .again
      { c with requests := c.requests ++ [p], replies := c.replies ++ [r] } := by
  obtain ⟨outcome, pack, bytes⟩ := gives
  have len : ((p.length : ℤ)).toNat = p.length := Int.toNat_natCast _
  have pos : ¬ (p.length : ℤ) ≤ 0 := by omega
  simp only [afterRead, outcome, pack, len, answered, bytes, pos, if_false]
  rw [if_neg (by decide)]

theorem afterRead_ends {r : Option (Reply M)} (gives : Gives out p) (some : 0 < p.length)
    (ends : handle s start text (bufferAt base out.stream) (base + 4) p.length = .ends r) :
    afterRead s start text base out c =
      .leave (.closes, { c with replies := c.replies ++ r.toList }) := by
  obtain ⟨outcome, pack, bytes⟩ := gives
  have len : ((p.length : ℤ)).toNat = p.length := Int.toNat_natCast _
  have pos : ¬ (p.length : ℤ) ≤ 0 := by omega
  simp only [afterRead, outcome, pack, len, ends, pos, if_false]
  rw [if_neg (by decide)]

variable (s start text base) in
/-- A turn of the server reads the frame of a request, and what is behind it stays. -/
theorem turn_reads (sized : Pool pool maxSize) (ready : c.polls = .ready false :: polls)
    (script : c.script = group ++ more) (fine : ∀ a ∈ group, Fine a) (bytes : bytesOf group = frame p)
    (some : 0 < p.length) (fits : p.length + 4 ≤ maxSize) (lt : p.length < 2 ^ 30) :
    ∃ out, Gives out p ∧ connTurn s start text base pool c = afterRead s start text base out
      { c with polls := polls, script := more, round := c.round + 1 } := by
  have size : (streamOf pool c.round).maxSize = maxSize := sized.size c.round
  have small := sized.small
  have binary : Binary p := binary_of_lt lt
  have first : Gives ((Overload.timeout true).read (streamOf pool c.round) group) p :=
    gives_frame ⟨rfl, rfl⟩ (by omega) fine bytes some (by omega) (.inr binary)
  have outcome : (readPacketTimeout true (streamOf pool c.round) group).outcome = .returned 1 :=
    first.outcome
  have ends : (readPacketTimeout true (streamOf pool c.round) group).outcome ≠ .waits := by
    simp [outcome]
  have behind : readPacketTimeout true (streamOf pool c.round) (group ++ more) =
      ReadOut.more more (readPacketTimeout true (streamOf pool c.round) group) :=
    readPacketWith_more _ more ends
  have possible :
      (readPacketTimeout true (streamOf pool c.round) (group ++ more)).outcome ≠ .impossible := by
    rw [behind]
    simp [ReadOut.more, outcome]
  have gets : Gets withTimeout true group (frame p) [] := by
    rw [← bytes]
    exact fine_gets (o := .timeout true) fine
  obtain ⟨gives, rest⟩ := read_group sized gets some (by omega) binary possible
  refine ⟨_, gives, ?_⟩
  simp only [connTurn, ready, readTurn, script, rest]

/-- What an address of the buffer holds is the packet. -/
theorem gives_held (gives : Gives out p) :
    slice (bufferAt base out.stream) (base + 4) p.length = p := by
  rw [slice_bufferAt, gives.bytes]

end Serve


/-! ### A call -/

section Call

variable {M : Type} {mem : ℤ → UInt8} {start : PbField} {base : ℤ} {c : CmdBase} {msg : Option Message}
  {w : Way} {reqBase : CmdBase} {seqId : UInt64} {req : Option Message}

/-- What is given to `send_data` is taken as a whole and in time, and comes in pieces of any size. -/
structure Delivers (data : Option (List UInt8)) (timeout : ℤ) (startMs : UInt64)
    (sends : List NetToolSend.Attempt) (recvs : List Attempt) : Prop where
  taken : ∃ bs ret, data = some bs ∧ 0 < ret ∧
    NetToolSend.sendDataTimeout bs timeout startMs sends = some (ret, bs)
  fine : ∀ a ∈ recvs, Fine a
  bytes : data = some (bytesOf recvs)

theorem encoding_pos (type : c.type > 0) : 0 < (encoding mem c msg).length := by
  have pos := varint_length_pos (1 * 8 + wtVarint)
  have first : fieldIf (c.type > 0) ⟨1, .varint c.type.toNat⟩ = [⟨1, .varint c.type.toNat⟩] :=
    if_pos type
  simp only [encoding, headFields, first, List.append_assoc, List.cons_append, List.flatMap_cons,
    List.length_append, Field.wire, Value.wireType]
  exact Nat.lt_of_lt_of_le pos (Nat.le_add_right _ _)

/-- What an answer that says `k` tells the caller. -/
def Answer.said (k : Content) : Answer :=
  if k.ret ≠ 0 then ⟨k.ret, if k.errmsg = [] then none else some k.errmsg, none⟩
  else ⟨k.ret, none, some k.body⟩

theorem Answer.of_eq (mem : ℤ → UInt8) (h : CmdBase) : Answer.of mem h = .said (content mem h) := by
  have empty : h.errmsg.bytes mem = [] ↔ ¬ h.errmsg.len > 0 := by
    rw [← List.length_eq_zero_iff, bytes_length, gt_iff_lt, UInt32.lt_iff_toNat_lt]
    simp
  simp only [Answer.of, Answer.said, content, empty, ite_not]

theorem readRsp_answered (at_base : 0 < base) (type : c.type > 0) (small : w.reader.maxSize < 2 ^ 31)
    (plain : w.reader.isHttp = false) (fine : ∀ a ∈ w.recvs, Fine a)
    (bytes : bytesOf w.recvs = frame (encoding mem c msg))
    (fits : (encoding mem c msg).length + 4 ≤ w.reader.maxSize) :
    readRsp start base w = .answered (.said (contentWith mem c msg)) := by
  have pos : 0 < (encoding mem c msg).length := encoding_pos type
  have gives : Gives (readPacketTimeout true w.reader.init w.recvs) (encoding mem c msg) :=
    gives_frame (o := .timeout true) ⟨rfl, rfl⟩ small fine bytes pos fits (.inl plain)
  obtain ⟨outcome, pack, held⟩ := gives
  have parsed : content (bufferAt base (readPacketTimeout true w.reader.init w.recvs).stream)
      (parse (bufferAt base (readPacketTimeout true w.reader.init w.recvs).stream) start (base + 4)
        (encoding mem c msg).length CmdBase.init).2 = contentWith mem c msg :=
    parse_encoding (by rw [slice_bufferAt, held]) (by omega) (by omega)
  simp only [readRsp, outcome, pack, Int.toNat_natCast]
  rw [if_neg (by decide), if_neg (by simp [parse]), Answer.of_eq, parsed]

theorem Delivers.frame {p : List UInt8} {timeout : ℤ} {startMs : UInt64}
    {sends : List NetToolSend.Attempt} {recvs : List Attempt}
    (delivers : Delivers (some (frame p)) timeout startMs sends recvs) :
    (∃ ret, 0 < ret ∧ NetToolSend.sendDataTimeout (Frame.frame p) timeout startMs sends =
      some (ret, Frame.frame p)) ∧ bytesOf recvs = Frame.frame p := by
  obtain ⟨bs, ret, same, pos, taken⟩ := delivers.taken
  obtain rfl := Option.some.inj same
  exact ⟨⟨ret, pos, taken⟩, (Option.some.inj delivers.bytes).symm⟩

theorem rpcPbCallImpl_sent (room : (encoding mem (asked reqBase seqId) req).length + 4 <
      w.sender.maxSize) (small : w.sender.maxSize < 2 ^ 31)
    (taken : ∃ ret, 0 < ret ∧ NetToolSend.sendDataTimeout (frame (encoding mem (asked reqBase seqId) req))
      w.timeout w.startMs w.sends = some (ret, frame (encoding mem (asked reqBase seqId) req)))
    (poll : w.poll = .pollIn) : rpcPbCallImpl start base mem reqBase req seqId w =
      readRsp start base w := by
  obtain ⟨ret, pos, taken⟩ := taken
  simp only [rpcPbCallImpl, send_room room small, taken, poll]
  rw [if_neg (by omega)]

end Call

/-! ### Calls one after another -/

section Calls

/-- A call, its request on the way to the server, and the answer on its way back: the state of the server
when the request is there, and the command that is meant. -/
structure Exchange (M : Type) where
  mem : ℤ → UInt8
  reqBase : CmdBase
  req : Option M
  way : Way
  recvs : List Attempt
  server : RpcPbServerBase M
  cmd : RpcPbCmd M
  startMs : UInt64
  sends : List NetToolSend.Attempt

variable {M : Type} (serialize : M → Message) (start : PbField) (text base : ℤ) (mem : ℤ → UInt8)
  (pool : ℕ → PacketStream) (maxSize : ℤ)

/-- `send_pb` up to `send_data`, with the text of the reply at `text`. -/
def sendPb (r : Reply M) : Sent :=
  sendCmdBase (write mem text r.errmsg) r.head maxSize.toNat (r.rsp.map serialize)

namespace Exchange

variable (x : Exchange M) (seqId : UInt64)

def requestPacket : List UInt8 := encoding x.mem (asked x.reqBase seqId) (x.req.map serialize)

def question : Content := contentWith x.mem (asked x.reqBase seqId) (x.req.map serialize)

def body : List UInt8 := (x.req.map serialize).elim [] Message.bytes

def called : Called M := x.cmd.rpcPbCallCb x.server.logged (x.body serialize)

def reply : Reply M := respond (x.called serialize)

def replyPacket : List UInt8 :=
  encoding (fun _ => 0) (x.reply serialize).head ((x.reply serialize).rsp.map serialize)

def answer : Answer :=
  if (x.called serialize).ret ≠ 0 then ⟨(x.called serialize).ret, none, none⟩
  else ⟨0, none, some (((x.called serialize).rsp.map serialize).elim [] Message.bytes)⟩

/-- The request names a command, fits the streams and gets to the server. -/
structure Asks : Prop where
  named : Named (x.question serialize seqId)
  sender : (x.requestPacket serialize seqId).length + 4 < x.way.sender.maxSize
  senderSize : x.way.sender.maxSize < 2 ^ 31
  fits : (x.requestPacket serialize seqId).length + 4 ≤ maxSize
  request : Delivers (sendCmdBase x.mem (asked x.reqBase seqId) x.way.sender.maxSize.toNat
    (x.req.map serialize)).data x.way.timeout x.way.startMs x.way.sends x.recvs

/-- The reply `r` that is sent as the packet `p` fits the streams and gets to the client. -/
structure Replies (r : Reply M) (p : List UInt8) : Prop where
  sender : p.length + 4 < maxSize
  reader : p.length + 4 ≤ x.way.reader.maxSize
  readerSize : x.way.reader.maxSize < 2 ^ 31
  plain : x.way.reader.isHttp = false
  poll : x.way.poll = .pollIn
  response : Delivers (sendPb serialize text mem maxSize r).data 1000 x.startMs x.sends x.way.recvs

/-- The server has the command and can call it. -/
structure Goes : Prop where
  asks : x.Asks serialize maxSize seqId
  found : lookup x.server (x.question serialize seqId) = some x.cmd
  quiet : Printable x.server x.cmd (x.body serialize)
  replies : x.Replies serialize text mem maxSize (x.reply serialize) (x.replyPacket serialize)

/-- How `rpc_pb_call_impl` ends. -/
def ends : CallEnd :=
  rpcPbCallImpl start base x.mem x.reqBase (x.req.map serialize) seqId x.way

end Exchange

/-- The server's loop in as many turns as there are exchanges. -/
def serveAll : List (Exchange M) → Conn M → Option (Conn M)
  | [], c => some c
  | x :: xs, c =>
    match connTurn x.server start text base pool c with
    | .again c => serveAll xs c
    | _ => none

/-- How the calls end; `seqId` is `g_rpc_client_seq_id`. -/
def calls : UInt64 → List (Exchange M) → List CallEnd
  | _, [] => []
  | seqId, x :: xs => x.ends serialize start base (seqId + 1) :: calls (seqId + 1) xs

def GoAll : UInt64 → List (Exchange M) → Prop
  | _, [] => True
  | seqId, x :: xs => x.Goes serialize text mem maxSize (seqId + 1) ∧ GoAll (seqId + 1) xs

variable {serialize start text base mem pool maxSize} {x : Exchange M} {xs : List (Exchange M)}
  {seqId : UInt64} {c : Conn M} {polls : List Polled} {more : List Attempt}

theorem encoding_respond (mem mem' : ℤ → UInt8) (r : Called M) (msg : Option Message) :
    encoding mem (respond r).head msg = encoding mem' (respond r).head msg := by
  simp [encoding, headFields, fieldIf, respond, CmdBase.init]

theorem said_reply : Answer.said (contentWith mem (x.reply serialize).head
    ((x.reply serialize).rsp.map serialize)) = x.answer serialize := by
  change Answer.said ⟨responseType, [], 0, 0, _, (x.called serialize).ret, []⟩ = _
  unfold Answer.said Exchange.answer
  by_cases zero : (x.called serialize).ret = 0
  · simp only [zero, ne_eq, not_true_eq_false, if_false]
    rfl
  · simp only [zero, ne_eq, not_false_eq_true, if_true]

theorem Exchange.Replies.told {r : Reply M} (asks : x.Asks serialize maxSize seqId)
    (replies : x.Replies serialize text mem maxSize r
      (encoding (write mem text r.errmsg) r.head (r.rsp.map serialize)))
    (at_base : 0 < base) (small : maxSize < 2 ^ 31) (type : r.head.type > 0) :
    x.ends serialize start base seqId = .answered (.said
      (contentWith (write mem text r.errmsg) r.head (r.rsp.map serialize))) := by
  have request := asks.request
  have response := replies.response
  rw [send_room asks.sender asks.senderSize] at request
  rw [sendPb, send_room replies.sender small] at response
  rw [Exchange.ends, rpcPbCallImpl_sent asks.sender asks.senderSize request.frame.1 replies.poll,
    readRsp_answered at_base type replies.readerSize replies.plain response.fine response.frame.2
      replies.reader]

theorem Exchange.Goes.answered (goes : x.Goes serialize text mem maxSize seqId) (at_base : 0 < base)
    (small : maxSize < 2 ^ 31) :
    x.ends serialize start base seqId = .answered (x.answer serialize) := by
  have same : x.replyPacket serialize = encoding (write mem text (x.reply serialize).errmsg)
      (x.reply serialize).head ((x.reply serialize).rsp.map serialize) := encoding_respond _ _ _ _
  have replies := goes.replies
  rw [same] at replies
  have type : (x.reply serialize).head.type > 0 := show (2 : UInt32) > 0 by decide
  rw [replies.told goes.asks at_base small type]
  exact congrArg CallEnd.answered said_reply

variable (start text) in
theorem Exchange.Asks.reads (asks : x.Asks serialize maxSize seqId) (sized : Pool pool maxSize)
    (at_base : 0 < base) (low : maxSize ≤ 2 ^ 30) (ready : c.polls = .ready false :: polls)
    (script : c.script = x.recvs ++ more) :
    0 < (x.requestPacket serialize seqId).length ∧ ∃ out, Gives out (x.requestPacket serialize seqId) ∧
      connTurn x.server start text base pool c = afterRead x.server start text base out
        { c with polls := polls, script := more, round := c.round + 1 } ∧
      content (bufferAt base out.stream) (headOf (bufferAt base out.stream) start (base + 4)
        (x.requestPacket serialize seqId).length) = x.question serialize seqId := by
  have request := asks.request
  rw [send_room asks.sender asks.senderSize] at request
  have pos : 0 < (x.requestPacket serialize seqId).length :=
    encoding_pos (show (1 : UInt32) > 0 by decide)
  have fits := asks.fits
  have lt : (x.requestPacket serialize seqId).length < 2 ^ 30 := by omega
  obtain ⟨out, gives, turn⟩ := turn_reads x.server start text base sized ready script request.fine
    request.frame.2 pos fits lt
  refine ⟨pos, out, gives, turn, ?_⟩
  have short : (x.requestPacket serialize seqId).length < 2 ^ 31 := by omega
  exact parse_encoding (gives_held gives) short (by omega)

variable (start) in
theorem Exchange.Goes.turn (goes : x.Goes serialize text mem maxSize seqId) (sized : Pool pool maxSize)
    (at_base : 0 < base) (low : maxSize ≤ 2 ^ 30) (ready : c.polls = .ready false :: polls)
    (script : c.script = x.recvs ++ more) :
    connTurn x.server start text base pool c = .again ⟨polls, more, c.round + 1,
      c.requests ++ [x.requestPacket serialize seqId], c.replies ++ [x.reply serialize]⟩ := by
  obtain ⟨pos, out, gives, turn, parsed⟩ := goes.asks.reads start text sized at_base low ready script
  rw [turn]
  exact afterRead_handles gives pos (handle_respond parsed rfl goes.asks.named goes.found goes.quiet)

/-- Every call over a connection is told what its own handler returned for its own request, whatever
pieces the packets come in, and the server has answered no more than the calls. -/
theorem calls_answered (sized : Pool pool maxSize) (low : maxSize ≤ 2 ^ 30) (at_base : 0 < base)
    (go : GoAll serialize text mem maxSize seqId xs)
    (ready : c.polls = xs.map fun _ => .ready false) (script : c.script = xs.flatMap Exchange.recvs) :
    calls serialize start base seqId xs = xs.map (fun x => .answered (x.answer serialize)) ∧
      ∃ c', serveAll start text base pool xs c = some c' ∧ c'.script = [] ∧
        c'.replies = c.replies ++ xs.map fun x => x.reply serialize := by
  induction xs generalizing seqId c with
  | nil => exact ⟨rfl, c, rfl, script, by simp⟩
  | cons x xs ih =>
    obtain ⟨first, rest⟩ := go
    have turn := first.turn start sized at_base low ready script
    obtain ⟨told, c', served, spent, replies⟩ := ih rest (c := ⟨xs.map fun _ => .ready false,
      xs.flatMap Exchange.recvs, c.round + 1, c.requests ++ [x.requestPacket serialize (seqId + 1)],
      c.replies ++ [x.reply serialize]⟩) rfl rfl
    refine ⟨?_, c', ?_, spent, by simp [replies]⟩
    · rw [calls, first.answered at_base sized.small, told, List.map_cons]
    · rw [serveAll, turn]
      exact served

theorem name_le (mem : ℤ → UInt8) (head : CmdBase) (msg : Option Message) :
    (contentWith mem head msg).cmdName.length ≤ (encoding mem head msg).length := by
  simp only [contentWith, content]
  by_cases named : head.cmdName.len > 0 ∧ head.cmdName.data ≠ 0
  · have field : (⟨2, .bytes (head.cmdName.bytes mem)⟩ : Field) ∈ headFields mem head ++ bodyField msg := by
      simp [headFields, fieldIf, named]
    obtain ⟨pre, post, split⟩ := List.append_of_mem field
    simp only [if_neg named.2, encoding, split, List.flatMap_append, List.flatMap_cons,
      List.length_append, Field.wire, Value.wire]
    omega
  · have empty : (if head.cmdName.data = 0 then [] else head.cmdName.bytes mem) = [] := by
      split_ifs with null
      · rfl
      · have zero : head.cmdName.len.toNat = 0 := by
          simpa [null, UInt32.lt_iff_toNat_lt] using named
        rw [← List.length_eq_zero_iff, bytes_length, zero]
    simp [empty]

theorem refusal_length {k : Content} (name : k.cmdName.length < 2 ^ 30) : (refusal k).length < 2 ^ 31 := by
  have digits : (toString k.cmdId.toNat).length ≤ 20 :=
    (Nat.length_repr_le_iff (by decide)).mpr (lt_trans k.cmdId.toNat_lt (by decide))
  unfold refusal
  split_ifs
  · simp only [codes, List.length_append, List.length_map, String.length_toList] at digits ⊢
    have first : "unsuppored cmd_id:".length = 18 := by decide
    omega
  · simp only [codes, List.length_append, List.length_map, String.length_toList]
    have first : "unsuppored cmd:".length = 15 := by decide
    omega

/-- A call for a command that the server does not have is told so, with its name or its number, and the
server closes the connection. -/
theorem call_refused (asks : x.Asks serialize maxSize seqId) (sized : Pool pool maxSize)
    (at_base : 0 < base) (low : maxSize ≤ 2 ^ 30) (ready : c.polls = .ready false :: polls)
    (script : c.script = x.recvs ++ more)
    (unknown : lookup x.server (x.question serialize seqId) = none) :
    ∃ r, connTurn x.server start text base pool c =
        .leave (.closes, ⟨polls, more, c.round + 1, c.requests, c.replies ++ [r]⟩) ∧
      ∀ mem, x.Replies serialize text mem maxSize r
          (encoding (write mem text r.errmsg) r.head (r.rsp.map serialize)) →
        x.ends serialize start base seqId =
          .answered ⟨errUnsupporedCmd, some (refusal (x.question serialize seqId)), none⟩ := by
  obtain ⟨pos, out, gives, turn, parsed⟩ := asks.reads start text sized at_base low ready script
  obtain ⟨h, same, ends⟩ := handle_refuse text parsed rfl asks.named unknown
  refine ⟨refuse text h (refusal (x.question serialize seqId)), ?_, fun mem replies => ?_⟩
  · rw [turn, afterRead_ends gives pos ends]
    rfl
  · have type : h.type > 0 := by
      rw [show h.type = requestType from congrArg Content.type same]
      decide
    have name : (x.question serialize seqId).cmdName.length < 2 ^ 30 := by
      have le := name_le x.mem (asked x.reqBase seqId) (x.req.map serialize)
      have fits := asks.fits
      simp only [Exchange.question, Exchange.requestPacket] at le fits ⊢
      omega
    have short := refusal_length name
    have text' : (initRefStr text (refusal (x.question serialize seqId)).length).bytes
        (write mem text (refusal (x.question serialize seqId))) = refusal (x.question serialize seqId) := by
      rw [← Nat.mod_eq_of_lt (show (refusal (x.question serialize seqId)).length < 2 ^ 32 by omega)]
      exact initRefStr_bytes (slice_write _ _ _) (by omega)
    have some : refusal (x.question serialize seqId) ≠ [] := by
      unfold refusal
      split_ifs <;> simp [codes]
    rw [replies.told asks at_base sized.small type]
    simp only [contentWith, content, refuse, Answer.said, text', if_neg some]
    rw [if_pos (by decide)]

end Calls

section Examples

def clientStream : PacketStream := ⟨4096, fun _ => 0, 0, 0, false⟩

def serverStream : PacketStream := ⟨10240, fun _ => 0, 0, 0, false⟩

theorem pool_serverStream : Pool (fun _ => serverStream) 10240 := ⟨fun _ => rfl, by decide, by decide⟩

/-- Messages of one field with a number below 128. -/
def number (n : UInt8) : Message := ⟨[8, n], by simp⟩

def numbers : Prototype UInt8 where
  new := 0
  parseFromArray bs _ := if bs.length = 2 ∧ bs.head? = some 8 then (true, bs.getD 1 0) else (false, 0)
  clears _ _ _ := rfl

/-- The command with the number 1 adds one. -/
def succ : RpcPbCmd UInt8 where
  methodName := codes "succ"
  cmdId := 1
  reqPool := some ⟨numbers, []⟩
  rspPool := some ⟨numbers, []⟩
  proc req _ := ⟨0, [], id, fun _ => req.getD 0 + 1⟩

def succServer : RpcPbServerBase UInt8 :=
  ⟨fun _ => none, fun id => if id = 1 then some succ else none, true, true⟩

/-- A `send` of everything, after `EAGAIN` and a wait. -/
def sendsAll : List NetToolSend.Attempt := [⟨.again, .pollOut, .sent 100, 5⟩]

def oneByOne (bs : List UInt8) : List Attempt := bs.map fun b => brings [b]

/-- The successor of 3 is asked for; all packets come byte by byte. -/
def askSucc (cmdId : UInt64) (seqId : UInt8) : Exchange UInt8 where
  mem _ := 0
  reqBase := { CmdBase.init with cmdId := cmdId }
  req := some 3
  way := ⟨1000, 0, sendsAll, .pollIn, oneByOne (frame [8, 2, 42, 2, 8, 4]), clientStream, clientStream⟩
  recvs := oneByOne (frame [8, 1, 24, UInt8.ofNat cmdId.toNat, 32, seqId, 42, 2, 8, 3])
  server := succServer
  cmd := succ
  startMs := 0
  sends := sendsAll

theorem fine_oneByOne (bs : List UInt8) : ∀ a ∈ oneByOne bs, Fine a := by
  simp only [oneByOne, List.mem_map, forall_exists_index, and_imp]
  rintro a b - rfl
  exact fine_brings (by simp)

theorem goes_askSucc {seqId : UInt8} (first : seqId = 1 ∨ seqId = 2) :
    (askSucc 1 seqId).Goes number 0 (fun _ => 0) 10240 (UInt64.ofNat seqId.toNat) := by
  rcases first with rfl | rfl <;> constructor
  · exact ⟨.inl (by decide), by decide, by decide, by decide, ⟨_, _, rfl, by decide, rfl⟩,
      fine_oneByOne _, rfl⟩
  · rfl
  · exact fun _ _ _ _ => ⟨rfl, rfl⟩
  · exact ⟨by decide, by decide, by decide, rfl, rfl, ⟨_, _, rfl, by decide, rfl⟩, fine_oneByOne _, rfl⟩
  · exact ⟨.inl (by decide), by decide, by decide, by decide, ⟨_, _, rfl, by decide, rfl⟩,
      fine_oneByOne _, rfl⟩
  · rfl
  · exact fun _ _ _ _ => ⟨rfl, rfl⟩
  · exact ⟨by decide, by decide, by decide, rfl, rfl, ⟨_, _, rfl, by decide, rfl⟩, fine_oneByOne _, rfl⟩

theorem calls_answered_twice :
    calls number ⟨0, 0, 0, 0, 0, 0⟩ 1 0 [askSucc 1 1, askSucc 1 2] =
        [.answered ⟨0, none, some [8, 4]⟩, .answered ⟨0, none, some [8, 4]⟩] ∧
      ∃ c', serveAll ⟨0, 0, 0, 0, 0, 0⟩ 0 1 (fun _ => serverStream) [askSucc 1 1, askSucc 1 2]
          (Conn.init [.ready false, .ready false] ((askSucc 1 1).recvs ++ (askSucc 1 2).recvs)) =
            some c' ∧ c'.script = [] ∧
        c'.replies = [⟨⟨2, ⟨0, 0⟩, 0, 0, ⟨0, 0⟩, 0, ⟨0, 0⟩⟩, [], some 4⟩,
          ⟨⟨2, ⟨0, 0⟩, 0, 0, ⟨0, 0⟩, 0, ⟨0, 0⟩⟩, [], some 4⟩] := by
  have go : GoAll number 0 (fun _ => 0) 10240 0 [askSucc 1 1, askSucc 1 2] :=
    ⟨goes_askSucc (.inl rfl), goes_askSucc (.inr rfl), trivial⟩
  exact calls_answered (c := Conn.init [.ready false, .ready false]
    ((askSucc 1 1).recvs ++ (askSucc 1 2).recvs)) pool_serverStream (by decide) (by decide) go rfl
      (by simp [Conn.init])

/-- A command with the number 2 is asked for in vain. -/
theorem call_refused_two : ∃ r,
    connTurn succServer ⟨0, 0, 0, 0, 0, 0⟩ 0 1 (fun _ => serverStream)
        (Conn.init [.ready false] ((askSucc 2 1).recvs ++ [])) = .leave (.closes, ⟨[], [], 1, [], [r]⟩) ∧
      ∀ mem, (askSucc 2 1).Replies number 0 mem 10240 r
          (encoding (write mem 0 r.errmsg) r.head (r.rsp.map number)) →
        (askSucc 2 1).ends number ⟨0, 0, 0, 0, 0, 0⟩ 1 1 =
          .answered ⟨1, some (codes "unsuppored cmd_id:2"), none⟩ := by
  have asks : (askSucc 2 1).Asks number 10240 1 :=
    ⟨.inl (by decide), by decide, by decide, by decide, ⟨⟨_, _, rfl, by decide, rfl⟩,
      fine_oneByOne _, rfl⟩⟩
  exact call_refused (c := Conn.init [.ready false] ((askSucc 2 1).recvs ++ [])) asks pool_serverStream
    (by decide) (by decide) rfl rfl rfl

end Examples

end Conet.Svrkit.RpcCall
