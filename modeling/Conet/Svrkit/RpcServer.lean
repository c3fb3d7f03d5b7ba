/- Module: Conet/Svrkit/RpcServer
   source: svrkit/src/rpc_pb_server.cpp
   digest: The three ways in which a server answers a request: which requests crash it, and where
   the heads of the answers differ. -/

import Conet.Base.HttpParser
import Conet.Svrkit.CmdBaseCodec
import Conet.Svrkit.RpcServerBase

set_option autoImplicit false
set_option relaxedAutoImplicit false

namespace Conet.Svrkit.RpcServer

open Conet.Lib Conet.Base.Pbc Conet.Base.HttpParser Conet.Svrkit.CmdBase Conet.Svrkit.CmdBaseCodec

/-- `rpc_pb_server_base_t`: `cmd_maps` and `cmd_id_maps`, with `FLAGS_log_failed_rpc` and whether
`PLOG_ERROR` is enabled. -/
structure RpcPbServerBase (M : Type) where
  cmdMaps : List UInt8 → Option (RpcPbCmd M)
  cmdIdMaps : UInt64 → Option (RpcPbCmd M)
  logFailedRpc : Bool
  plogError : Bool

def RpcPbServerBase.logged {M : Type} (s : RpcPbServerBase M) : Bool := s.logFailedRpc && s.plogError

/-- A reply as it is handed to a serializer: the head, the `std::string` that its `errmsg` refers
to, and the message. -/
structure Reply (M : Type) where
  head : CmdBase
  errmsg : List UInt8
  rsp : Option M

/-- What the head of a reply says, whose `errmsg` is at `text`. -/
def Reply.said {M : Type} (mem : ℤ → UInt8) (text : ℤ) (r : Reply M) : Content :=
  content (write mem text r.errmsg) r.head

def requestType : UInt32 := 1

def responseType : UInt32 := 2

def errUnsupporedCmd : UInt32 := 1

section Paths

variable {M : Type} (s : RpcPbServerBase M) (mem : ℤ → UInt8) (start : PbField) (text : ℤ)

/-- `get_rpc_pb_cmd`, by the id of a head where it has one. -/
def getRpcPbCmd (c : CmdBase) : Option (RpcPbCmd M) :=
  if c.cmdId > 0 then s.cmdIdMaps c.cmdId else s.cmdMaps (c.cmdName.bytes mem)

def unsuppored (c : CmdBase) : List UInt8 :=
  if c.cmdId > 0 then codes "unsuppored cmd_id:" ++ codes (toString c.cmdId.toNat)
  else codes "unsuppored cmd:" ++ c.cmdName.bytes mem

/-- The variable `cmd` when the search is over, or the text on an unknown command. Without an id and
a name there is no search. -/
def target (c : CmdBase) : Except (List UInt8) (Option (RpcPbCmd M)) :=
  if c.cmdId > 0 ∨ c.cmdName.len > 0 then
    match getRpcPbCmd s mem c with
    | none => .error (unsuppored mem c)
    | some cmd => .ok (some cmd)
  else .ok none

/-- Where the three paths differ: the reply on an unknown command, and that after the call. -/
structure Path (M : Type) where
  unknown : CmdBase → List UInt8 → Reply M
  answer : CmdBase → Called M → Except Crash (Reply M)

/-- A path from the head of a packet to the reply. -/
def serveHead (path : Path M) (c : CmdBase) : Except Crash (Option (Reply M)) :=
  if c.type ≠ requestType then .ok none
  else
    match target s mem c with
    | .error errmsg => .ok (some (path.unknown c errmsg))
    | .ok none => .error .nullCmd
    | .ok (some cmd) =>
      let r := cmd.rpcPbCallCb s.logged (c.body.bytes mem)
      match r.crash with
      | some e => .error e
      | none => (path.answer c r).map some

/-- A path from the bytes of a packet on. -/
def serve (path : Path M) (data : ℤ) (len : ℕ) : Except Crash (Option (Reply M)) :=
  let parsed := parse mem start data len init
  if parsed.1 ≠ 0 then .ok none else serveHead s mem path parsed.2

/-- The request's head with an error in it. -/
def refuse (c : CmdBase) (errmsg : List UInt8) : Reply M :=
  ⟨{ c with ret := errUnsupporedCmd, errmsg := initRefStr text errmsg.length }, errmsg, none⟩

/-- The head with `type` and `ret` alone. -/
def respond (r : Called M) : Reply M :=
  ⟨{ init with type := responseType, ret := r.ret }, [], r.rsp⟩

/-- `send_rpc_rsp` up to the serializer. -/
def sendRpcRsp (c : CmdBase) (retcode : UInt32) (errmsg : List UInt8) (msg : Option M) : Reply M :=
  let head := { init with seqId := c.seqId, type := responseType, ret := retcode }
  ⟨if errmsg ≠ [] then { head with errmsg := initRefStr text errmsg.length } else head, errmsg, msg⟩

def tcpPath : Path M where
  unknown := refuse text
  answer _ r := .ok (respond r)

/-- `rsp->ByteSize()` is evaluated whether there is a response or not. -/
def udpPath : Path M where
  unknown := refuse text
  answer _ r := if r.rsp.isNone then .error .nullRsp else .ok (respond r)

/-- `async_proc_worker` takes over after the search. -/
def duplexPath : Path M where
  unknown c errmsg := sendRpcRsp text c (-2) errmsg none
  answer c r := .ok (sendRpcRsp text c r.ret r.errmsg r.rsp)

/-- One turn of the loop of `proc_tcp_rpc_pb`. -/
def procTcpRpcPb : ℤ → ℕ → Except Crash (Option (Reply M)) := serve s mem start (tcpPath text)

def procUdpRpcPb : ℤ → ℕ → Except Crash (Option (Reply M)) := serve s mem start (udpPath text)

def procData : ℤ → ℕ → Except Crash (Option (Reply M)) := serve s mem start (duplexPath text)

end Paths

/-! ### Crashes -/

section Crashes

variable {M : Type} {s : RpcPbServerBase M} {mem : ℤ → UInt8} {start : PbField} {text : ℤ}

/-- The head that a packet is parsed to. -/
def headOf (mem : ℤ → UInt8) (start : PbField) (data : ℤ) (len : ℕ) : CmdBase :=
  (parse mem start data len init).2

/-- A request names a command, by its id or by its name. -/
def Names (c : CmdBase) : Prop := c.cmdId > 0 ∨ c.cmdName.len > 0

/-- Where a command fails on a body and the failure is logged, it has both messages. -/
def Printable (s : RpcPbServerBase M) (cmd : RpcPbCmd M) (body : List UInt8) : Prop :=
  ∀ o, cmd.outcome body = some o → o.ret ≠ 0 → s.logged = true →
    cmd.reqPool.isSome ∧ cmd.rspPool.isSome

theorem crash_eq_none_iff {cmd : RpcPbCmd M} {body : List UInt8} :
    (cmd.rpcPbCallCb s.logged body).crash = none ↔ Printable s cmd body := by
  unfold Printable
  cases outcome : cmd.outcome body with
  | none => simp [(RpcPbCmd.rpcPbCallCb_rejected s.logged outcome).2.2.2]
  | some o =>
    rw [(RpcPbCmd.rpcPbCallCb_outcome s.logged outcome).2.2.2]
    simp

theorem rsp_isSome_iff {cmd : RpcPbCmd M} {body : List UInt8} :
    (cmd.rpcPbCallCb s.logged body).rsp.isSome ↔
      (cmd.outcome body).isSome ∧ cmd.rspPool.isSome := by
  cases outcome : cmd.outcome body with
  | none => simp [(RpcPbCmd.rpcPbCallCb_rejected s.logged outcome).2.1]
  | some o =>
    have void := (RpcPbCmd.rpcPbCallCb_outcome s.logged outcome).2.1
    rw [Option.isSome_iff_ne_none, Ne, void]
    simp [Option.isSome_iff_ne_none]

theorem serve_eq (path : Path M) (data : ℤ) (len : ℕ) :
    serve s mem start path data len = serveHead s mem path (headOf mem start data len) := by
  unfold serve headOf
  exact if_neg (by simp [parse])

/-- A path that gets to its end, by the cases of its head. -/
theorem serveHead_ok_iff (path : Path M) (c : CmdBase) :
    (∀ e, serveHead s mem path c ≠ .error e) ↔ (c.type = requestType →
      Names c ∧ ∀ cmd, getRpcPbCmd s mem c = some cmd → Printable s cmd (c.body.bytes mem) ∧
        ∀ e, path.answer c (cmd.rpcPbCallCb s.logged (c.body.bytes mem)) ≠ .error e) := by
  unfold serveHead
  by_cases request : c.type = requestType
  · simp only [request, not_true, if_false, forall_const, target, Names, ne_eq]
    by_cases names : c.cmdId > 0 ∨ c.cmdName.len > 0
    · simp only [names, if_true, true_and]
      cases getRpcPbCmd s mem c with
      | none => simp
      | some cmd =>
        simp only [Option.some.injEq, forall_eq', ← crash_eq_none_iff]
        cases (cmd.rpcPbCallCb s.logged (c.body.bytes mem)).crash with
        | some e => simp
        | none =>
          cases path.answer c (cmd.rpcPbCallCb s.logged (c.body.bytes mem)) <;> simp [Except.map]
    · simp [names]
  · simp [request]

/-- A request that asks for a command, and whose failure can be logged. -/
def Answerable (s : RpcPbServerBase M) (mem : ℤ → UInt8) (c : CmdBase) : Prop :=
  c.type = requestType → Names c ∧ ∀ cmd, getRpcPbCmd s mem c = some cmd →
    Printable s cmd (c.body.bytes mem)

/-- The command of a request accepts its body and has a response. -/
def Responds (s : RpcPbServerBase M) (mem : ℤ → UInt8) (c : CmdBase) : Prop :=
  c.type = requestType → ∀ cmd, getRpcPbCmd s mem c = some cmd →
    (cmd.outcome (c.body.bytes mem)).isSome ∧ cmd.rspPool.isSome

/-- The packets that crash no path. -/
theorem crash_free_iff (s : RpcPbServerBase M) (mem : ℤ → UInt8) (start : PbField) (text data : ℤ)
    (len : ℕ) :
    ((∀ e, procTcpRpcPb s mem start text data len ≠ .error e) ↔
      Answerable s mem (headOf mem start data len)) ∧
    ((∀ e, procData s mem start text data len ≠ .error e) ↔
      Answerable s mem (headOf mem start data len)) ∧
    ((∀ e, procUdpRpcPb s mem start text data len ≠ .error e) ↔
      Answerable s mem (headOf mem start data len) ∧
        Responds s mem (headOf mem start data len)) := by
  unfold procTcpRpcPb procData procUdpRpcPb
  simp only [serve_eq, serveHead_ok_iff, Answerable, Responds]
  generalize headOf mem start data len = c
  have udp (cmd : RpcPbCmd M) :
      (∀ e, (udpPath text).answer c (cmd.rpcPbCallCb s.logged (c.body.bytes mem)) ≠ .error e) ↔
        (cmd.outcome (c.body.bytes mem)).isSome ∧ cmd.rspPool.isSome := by
    rw [← rsp_isSome_iff (s := s)]
    unfold udpPath
    cases rsp : (cmd.rpcPbCallCb s.logged (c.body.bytes mem)).rsp <;> simp [rsp]
  refine ⟨by simp [tcpPath], by simp [duplexPath], ?_⟩
  simp only [udp]
  constructor
  · intro all
    refine ⟨fun request => ⟨(all request).1, fun cmd found => ((all request).2 cmd found).1⟩, ?_⟩
    intro request cmd found
    exact ((all request).2 cmd found).2
  · intro all request
    refine ⟨(all.1 request).1, ?_⟩
    intro cmd found
    exact ⟨(all.1 request).2 cmd found, all.2 request cmd found⟩

def bare : RpcPbServerBase Unit := ⟨fun _ => none, fun _ => none, true, true⟩

/-- A request with a type and nothing else. -/
def namelessMem (a : ℤ) : UInt8 := [0x08, 1].getD (a - 1).toNat 0

/-- A request without an id and a name is passed on with a null command. -/
theorem crash_free_nameless : ¬ ∀ (M : Type) (s : RpcPbServerBase M) (mem : ℤ → UInt8)
    (start : PbField) (text data : ℤ) (len : ℕ) (e : Crash),
      procTcpRpcPb s mem start text data len ≠ .error e ∧
      procData s mem start text data len ≠ .error e ∧
      procUdpRpcPb s mem start text data len ≠ .error e := by
  intro claim
  apply (claim Unit bare namelessMem ⟨0, 0, 0, 0, 0, 0⟩ 0 1 2 .nullCmd).1
  rfl

end Crashes

/-! ### Heads of replies -/

section Heads

variable {M : Type} {s : RpcPbServerBase M} {mem : ℤ → UInt8} {start : PbField} {text : ℤ}

/-- What every path ought to say to a request: the results of its handler, or that its body or its
command is not accepted. -/
def Says (s : RpcPbServerBase M) (mem : ℤ → UInt8) (c : CmdBase) (k : Content) : Prop :=
  k.type = responseType ∧ k.seqId = c.seqId ∧
    match getRpcPbCmd s mem c with
    | none => k.ret ≠ 0
    | some cmd =>
      match cmd.outcome (c.body.bytes mem) with
      | none => k.ret = RpcPbCmd.errParseReqBody
      | some o => k.ret = o.ret ∧ k.errmsg = o.errmsg

/-- A path replies, with a head that says `k`. -/
def RepliesWith (mem : ℤ → UInt8) (text : ℤ) (k : Content)
    (r : Except Crash (Option (Reply M))) : Prop :=
  ∃ reply, r = .ok (some reply) ∧ reply.said mem text = k

/-- The three paths say the same to a request, and that it ought to be. -/
def Agree (s : RpcPbServerBase M) (mem : ℤ → UInt8) (start : PbField) (text data : ℤ) (len : ℕ) :
    Prop :=
  let c := headOf mem start data len
  c.type = requestType → ∃ k, Says s mem c k ∧
    RepliesWith mem text k (procTcpRpcPb s mem start text data len) ∧
    RepliesWith mem text k (procUdpRpcPb s mem start text data len) ∧
    RepliesWith mem text k (procData s mem start text data len)

/-- A command that is found, that accepts its body and has a response. Its handler says no more than
a return value, which can be logged, to a request without a `seq_id`. -/
def Plain (s : RpcPbServerBase M) (mem : ℤ → UInt8) (c : CmdBase) : Prop :=
  Names c ∧ c.seqId = 0 ∧ ∃ cmd o, getRpcPbCmd s mem c = some cmd ∧
    cmd.outcome (c.body.bytes mem) = some o ∧ cmd.rspPool.isSome ∧ o.errmsg = [] ∧
    (o.ret ≠ 0 → s.logged = true → cmd.reqPool.isSome)

theorem said_respond (r : Called M) :
    (respond r).said mem text = ⟨responseType, [], 0, 0, [], r.ret, []⟩ := rfl

theorem said_refuse (mem : ℤ → UInt8) (text : ℤ) (c : CmdBase) (errmsg : List UInt8) :
    ((refuse text c errmsg : Reply M).said mem text).type = c.type := rfl

theorem said_sendRpcRsp (c : CmdBase) (retcode : UInt32) (msg : Option M) :
    (sendRpcRsp text c retcode [] msg).said mem text =
      ⟨responseType, [], 0, c.seqId, [], retcode, []⟩ := rfl

/-- A path on a command that is found, up to the reply. -/
theorem serveHead_found (path : Path M) {c : CmdBase} {cmd : RpcPbCmd M} {r : Reply M}
    (request : c.type = requestType) (names : Names c) (found : getRpcPbCmd s mem c = some cmd) :
    serveHead s mem path c = .ok (some r) ↔ Printable s cmd (c.body.bytes mem) ∧
      path.answer c (cmd.rpcPbCallCb s.logged (c.body.bytes mem)) = .ok r := by
  unfold serveHead target
  rw [← crash_eq_none_iff]
  have named : c.cmdId > 0 ∨ c.cmdName.len > 0 := names
  simp only [request, ne_eq, not_true, if_false, named, if_true, found]
  cases (cmd.rpcPbCallCb s.logged (c.body.bytes mem)).crash with
  | some e => simp
  | none => cases path.answer c (cmd.rpcPbCallCb s.logged (c.body.bytes mem)) <;> simp [Except.map]

theorem serveHead_unknown (path : Path M) {c : CmdBase} (request : c.type = requestType)
    (names : Names c) (unknown : getRpcPbCmd s mem c = none) :
    serveHead s mem path c = .ok (some (path.unknown c (unsuppored mem c))) := by
  unfold serveHead target
  have named : c.cmdId > 0 ∨ c.cmdName.len > 0 := names
  simp only [request, ne_eq, not_true, if_false, named, if_true, unknown]

theorem serveHead_nameless (path : Path M) {c : CmdBase} (request : c.type = requestType)
    (nameless : ¬ Names c) : serveHead s mem path c = .error .nullCmd := by
  unfold serveHead target
  have unnamed : ¬ (c.cmdId > 0 ∨ c.cmdName.len > 0) := nameless
  simp only [request, ne_eq, not_true, if_false, unnamed]

theorem udpPath_answer {c : CmdBase} {r : Called M} {reply : Reply M} :
    (udpPath text).answer c r = .ok reply ↔ r.rsp.isSome ∧ respond r = reply := by
  unfold udpPath
  cases rsp : r.rsp <;> simp [rsp]

theorem plain_of_agree {c : CmdBase} {k : Content} (request : c.type = requestType)
    (due : Says s mem c k)
    (tcp : RepliesWith mem text k (serveHead s mem (tcpPath text) c))
    (udp : RepliesWith mem text k (serveHead s mem (udpPath text) c)) : Plain s mem c := by
  obtain ⟨r, tcp, said⟩ := tcp
  obtain ⟨r', udp, -⟩ := udp
  obtain ⟨type, seq, result⟩ := due
  by_cases names : Names c
  · cases found : getRpcPbCmd s mem c with
    | none =>
      have eq := tcp.symm.trans (serveHead_unknown _ request names found)
      simp only [Except.ok.injEq, Option.some.injEq] at eq
      have type' := said_refuse (M := M) mem text c (unsuppored mem c)
      rw [← said, eq] at type
      exact absurd (request.symm.trans (type'.symm.trans type)) (by decide)
    | some cmd =>
      obtain ⟨printable, answer⟩ := (serveHead_found _ request names found).mp tcp
      obtain ⟨-, answer'⟩ := (serveHead_found _ request names found).mp udp
      obtain rfl := Except.ok.inj answer
      rw [← said, said_respond] at seq
      obtain ⟨accepted, rsp⟩ := rsp_isSome_iff.mp (udpPath_answer.mp answer').1
      obtain ⟨o, accepted⟩ := Option.isSome_iff_exists.mp accepted
      simp only [found, accepted] at result
      refine ⟨names, seq.symm, cmd, o, found, accepted, rsp, ?_, ?_⟩
      · rw [← result.2, ← said, said_respond]
      · intro ret on
        exact (printable o accepted ret on).1
  · exact absurd (tcp.symm.trans (serveHead_nameless _ request names)) (by simp)

theorem agree_of_plain {c : CmdBase} (request : c.type = requestType) (plain : Plain s mem c) :
    ∃ k, Says s mem c k ∧ RepliesWith mem text k (serveHead s mem (tcpPath text) c) ∧
      RepliesWith mem text k (serveHead s mem (udpPath text) c) ∧
      RepliesWith mem text k (serveHead s mem (duplexPath text) c) := by
  obtain ⟨names, seq, cmd, o, found, accepted, rsp, quiet, log⟩ := plain
  have printable : Printable s cmd (c.body.bytes mem) := by
    intro o' accepted' ret on
    obtain rfl := Option.some.inj (accepted.symm.trans accepted')
    exact ⟨log ret on, rsp⟩
  obtain ⟨ret, -, errmsg, -⟩ := RpcPbCmd.rpcPbCallCb_outcome s.logged accepted
  have responds : (cmd.rpcPbCallCb s.logged (c.body.bytes mem)).rsp.isSome := by
    apply rsp_isSome_iff.mpr
    exact ⟨by rw [accepted]; rfl, rsp⟩
  refine ⟨⟨responseType, [], 0, 0, [], o.ret, []⟩, ?_, ?_, ?_, ?_⟩
  · refine ⟨rfl, seq.symm, ?_⟩
    simp [found, accepted, quiet]
  · refine ⟨_, (serveHead_found _ request names found).mpr ⟨printable, rfl⟩, ?_⟩
    rw [said_respond, ret]
  · refine ⟨_, (serveHead_found _ request names found).mpr
      ⟨printable, udpPath_answer.mpr ⟨responds, rfl⟩⟩, ?_⟩
    rw [said_respond, ret]
  · refine ⟨_, (serveHead_found _ request names found).mpr ⟨printable, rfl⟩, ?_⟩
    rw [errmsg, quiet, said_sendRpcRsp, ret, seq]

/-- The requests that all paths answer alike. -/
theorem agree_iff (s : RpcPbServerBase M) (mem : ℤ → UInt8) (start : PbField) (text data : ℤ)
    (len : ℕ) : Agree s mem start text data len ↔
      ((headOf mem start data len).type = requestType → Plain s mem (headOf mem start data len)) := by
  unfold Agree
  simp only [procTcpRpcPb, procUdpRpcPb, procData, serve_eq]
  constructor
  · intro agree request
    obtain ⟨k, due, tcp, udp, -⟩ := agree request
    exact plain_of_agree request due tcp udp
  · intro plain request
    exact agree_of_plain request (plain request)

end Heads

/-- The one command of a server, which has nothing to say. -/
def ping : RpcPbCmd Unit where
  methodName := codes "ping"
  cmdId := 1
  reqPool := none
  rspPool := some ⟨⟨(), fun _ _ => (true, ()), fun _ _ _ => rfl⟩, []⟩
  proc _ _ := ⟨0, [], id, id⟩

def pingServer : RpcPbServerBase Unit := ⟨fun _ => none, fun _ => some ping, true, true⟩

/-- A request with `cmd_id` 1 and `seq_id` 5. -/
def numberedMem (a : ℤ) : UInt8 := [0x08, 1, 0x18, 1, 0x20, 5].getD (a - 1).toNat 0

/-- The response has no `seq_id`. -/
theorem agree_numbered : ¬ ∀ (M : Type) (s : RpcPbServerBase M) (mem : ℤ → UInt8) (start : PbField)
    (text data : ℤ) (len : ℕ), Agree s mem start text data len := by
  intro claim
  have agree := claim Unit pingServer numberedMem ⟨0, 0, 0, 0, 0, 0⟩ 0 1 6
  have head : headOf numberedMem ⟨0, 0, 0, 0, 0, 0⟩ 1 6 =
      ⟨1, ⟨0, 0⟩, 1, 5, ⟨0, 0⟩, 0, ⟨0, 0⟩⟩ := by decide
  obtain ⟨k, due, ⟨reply, tcp, said⟩, -⟩ := agree (by rw [head]; rfl)
  have seq : k.seqId = 5 := by rw [due.2.1, head]
  have sent : procTcpRpcPb pingServer numberedMem ⟨0, 0, 0, 0, 0, 0⟩ 0 1 6 =
      .ok (some ⟨{ init with type := responseType }, [], some ()⟩) := by rfl
  obtain rfl := Option.some.inj (Except.ok.inj (sent.symm.trans tcp))
  rw [← said] at seq
  exact absurd seq (by decide)

end Conet.Svrkit.RpcServer
