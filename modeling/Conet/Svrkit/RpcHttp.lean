/- Module: Conet/Svrkit/RpcHttp
   source: svrkit/src/rpc_pb_server_base.cpp, base/pb_obj_pool.h
   digest: Requests to one command over http and in binary form, and what of earlier requests their
   handler gets to see. -/

import Conet.Base.Pb2json
import Conet.Svrkit.RpcServerBase

set_option autoImplicit false
set_option relaxedAutoImplicit false

namespace Conet.Svrkit.RpcHttp

open Conet.Lib.DynMessage Conet.Base.QueryString Conet.Base.Pb2json

/-- A request, with what it is decoded from: the query string, the body of another http request, or
the body of a packet. -/
inductive Request
  | get (queryString : List UInt8)
  | post (body : List UInt8)
  | binary (body : List UInt8)

/-- A request, and what the handler makes of it. -/
structure Step (M : Type) where
  request : Request
  proc : Option M → Option M → Outcome M

/-- The prototype of a message class: `New` makes an empty message. -/
def Class (F : Type) : Type := { p : Prototype (Msg (Scalar F)) // p.new = Msg.new }

section Calls

variable {M : Type} (self : RpcPbCmd M)

/-- The call is over, and its response goes back to the pool. -/
def finish (r : Called M) : Called M := { r with cmd := r.cmd.releaseRsp r.rsp }

/-- `rpc_pb_http_call_cb` with the decoder of the request, without the text of the response. There is
no result where the decoder does not return. -/
def rpcPbHttpCallCb (decode : M → Status × M) : Option (Called M) :=
  let answer (r : Called M) : Called M := { finish r with ret := if r.ret ≠ 0 then -1 else 0 }
  match self.reqPool with
  | none => some (answer (self.callProc false none))
  | some p =>
    let (req1, p) := p.alloc
    let self := { self with reqPool := some p }
    match decode req1 with
    | (none, _) => none
    | (some ret, req1) =>
      if ret ≠ 0 then
        some { cmd := self.releaseReq (some req1), ret := -1, rsp := none, errmsg := [],
               received := none, crash := none }
      else some (answer (self.callProc false (some req1)))

end Calls

variable {D F S : Type}

section Serve

variable (lib : JsonLib S) (fl : Floats F) (sch : D → Descriptor D (Scalar F)) (t : D) (logged : Bool)

/-- A request to a command whose request messages are of the type `t`. -/
def serve (cmd : RpcPbCmd (Msg (Scalar F))) (s : Step (Msg (Scalar F))) :
    Option (Called (Msg (Scalar F))) :=
  let cmd := { cmd with proc := s.proc }
  match s.request with
  | .get queryString => rpcPbHttpCallCb cmd (queryStringToMsg fl (sch t) queryString)
  | .post body => rpcPbHttpCallCb cmd (json2pbText lib fl sch body t)
  | .binary body => some (finish (cmd.rpcPbCallCb logged body))

/-- `P` holds before every request of a sequence, as long as the server is up. -/
def Throughout (P : RpcPbCmd (Msg (Scalar F)) → Step (Msg (Scalar F)) → Prop) :
    RpcPbCmd (Msg (Scalar F)) → List (Step (Msg (Scalar F))) → Prop
  | _, [] => True
  | cmd, s :: ss => P cmd s ∧ ∀ r, serve lib fl sch t logged cmd s = some r → r.crash = none →
      Throughout P r.cmd ss

end Serve

/-- A command as it is registered; a `void` type has no class. -/
def registered (methodName : List UInt8) (cmdId : UInt64) (req rsp : Option (Class F)) :
    RpcPbCmd (Msg (Scalar F)) where
  methodName := methodName
  cmdId := cmdId
  reqPool := req.map fun c => ⟨c.1, []⟩
  rspPool := rsp.map fun c => ⟨c.1, []⟩
  proc _ _ := ⟨0, [], id, id⟩

/-- The command with nothing in its pools. -/
def renewed {M : Type} (cmd : RpcPbCmd M) : RpcPbCmd M :=
  { cmd with
    reqPool := cmd.reqPool.map fun p => { p with queue := [] }
    rspPool := cmd.rspPool.map fun p => { p with queue := [] } }

section Isolation

variable (lib : JsonLib S) (fl : Floats F) (sch : D → Descriptor D (Scalar F)) (t : D) (logged : Bool)

/-- The handler gets the messages that it would get from new ones: the request decoded into an empty
message, and an empty response. -/
def Clean (cmd : RpcPbCmd (Msg (Scalar F))) (s : Step (Msg (Scalar F))) : Prop :=
  ∀ r, serve lib fl sch t logged cmd s = some r →
    ∃ r', serve lib fl sch t logged (renewed cmd) s = some r' ∧ r.received = r'.received

/-- The request can be decoded, so that the handler is called. -/
def Accepted (cmd : RpcPbCmd (Msg (Scalar F))) (s : Step (Msg (Scalar F))) : Prop :=
  ∀ p, cmd.reqPool = some p →
    match s.request with
    | .get queryString => (queryStringToMsg fl (sch t) queryString Msg.new).1 = some 0
    | .post body => (json2pbText lib fl sch body t Msg.new).1 = some 0
    | .binary body => (p.objProto.parseFromArray body Msg.new).1 = true

/-- Nothing of the next request message is kept, and the next response message is empty. -/
def Harmless (cmd : RpcPbCmd (Msg (Scalar F))) (s : Step (Msg (Scalar F))) : Prop :=
  (∀ p, cmd.reqPool = some p →
    match s.request with
    | .get queryString => Base.QueryString.Overwrites fl (sch t) queryString p.top
    | .post body => ∀ v, lib.read body = some v → Base.Pb2json.Overwrites sch v t p.top
    | .binary _ => True) ∧
  ∀ p, cmd.rspPool = some p → p.top = Msg.new

def Fresh (cmd : RpcPbCmd (Msg (Scalar F))) : Prop :=
  (∀ p, cmd.reqPool = some p → p.objProto.new = Msg.new) ∧
    ∀ p, cmd.rspPool = some p → p.objProto.new = Msg.new

variable {lib fl sch t logged} {cmd : RpcPbCmd (Msg (Scalar F))} {s : Step (Msg (Scalar F))}

theorem rsp_top_iff (fresh : Fresh cmd) :
    cmd.rspPool.map PbObjPool.top = (renewed cmd).rspPool.map PbObjPool.top ↔
      ∀ p, cmd.rspPool = some p → p.top = Msg.new := by
  have new := fresh.2
  cases pool : cmd.rspPool with
  | none => simp [renewed, pool]
  | some p =>
    have top : ({ p with queue := [] } : PbObjPool (Msg (Scalar F))).top = Msg.new := new p pool
    simp [renewed, pool, top]

/-- An http request is clean when its decoder, if it gets through, makes the same of the pooled
message as of a new one, and the pooled response is empty. -/
theorem http_clean_iff (fresh : Fresh cmd)
    {decode : Msg (Scalar F) → Status × Msg (Scalar F)}
    (status : ∀ m m', (decode m).1 = (decode m').1) :
    (∀ r, rpcPbHttpCallCb cmd decode = some r →
      ∃ r', rpcPbHttpCallCb (renewed cmd) decode = some r' ∧ r.received = r'.received) ↔
    ((∀ p, cmd.reqPool = some p → (decode Msg.new).1 = some 0) →
      (∀ p, cmd.reqPool = some p → (decode p.top).2 = (decode Msg.new).2) ∧
      ∀ p, cmd.rspPool = some p → p.top = Msg.new) := by
  rw [← rsp_top_iff fresh]
  cases pool : cmd.reqPool with
  | none =>
    have renewed_pool : (renewed cmd).reqPool = none := by simp [renewed, pool]
    simp [rpcPbHttpCallCb, pool, renewed_pool, RpcPbCmd.callProc, finish]
  | some p =>
    have renewed_pool : (renewed cmd).reqPool = some { p with queue := [] } := by
      simp [renewed, pool]
    have top : ({ p with queue := [] } : PbObjPool (Msg (Scalar F))).top = Msg.new :=
      fresh.1 p pool
    have same := status p.top Msg.new
    simp only [rpcPbHttpCallCb, pool, renewed_pool, PbObjPool.alloc, top]
    rcases used : decode p.top with ⟨st, m⟩
    rcases made : decode Msg.new with ⟨st', m'⟩
    obtain rfl : st = st' := by rwa [used, made] at same
    cases st with
    | none => simp
    | some ret =>
      by_cases zero : ret = 0
      · subst zero
        simp [RpcPbCmd.callProc, finish, renewed, used]
      · simp [zero]

theorem binary_clean_iff (fresh : Fresh cmd) (body : List UInt8) :
    (finish (cmd.rpcPbCallCb logged body)).received =
        (finish ((renewed cmd).rpcPbCallCb logged body)).received ↔
      ((∀ p, cmd.reqPool = some p → (p.objProto.parseFromArray body Msg.new).1 = true) →
        ∀ p, cmd.rspPool = some p → p.top = Msg.new) := by
  rw [← rsp_top_iff fresh]
  cases pool : cmd.reqPool with
  | none =>
    have renewed_pool : (renewed cmd).reqPool = none := by simp [renewed, pool]
    simp [RpcPbCmd.rpcPbCallCb, pool, renewed_pool, RpcPbCmd.callProc, finish]
  | some p =>
    have renewed_pool : (renewed cmd).reqPool = some { p with queue := [] } := by
      simp [renewed, pool]
    have same (m : Msg (Scalar F)) :
        p.objProto.parseFromArray body m = p.objProto.parseFromArray body Msg.new :=
      p.objProto.clears body m Msg.new
    simp only [RpcPbCmd.rpcPbCallCb, pool, renewed_pool, PbObjPool.alloc, same]
    rcases parsed : p.objProto.parseFromArray body Msg.new with ⟨_ | _, m⟩
    · simp [finish, parsed]
    · simp [RpcPbCmd.callProc, finish, renewed, parsed]

/-- The requests that are clean on a command, from its pools. -/
theorem clean_iff (fresh : Fresh cmd) : Clean lib fl sch t logged cmd s ↔
    (Accepted lib fl sch t cmd s → Harmless lib fl sch t cmd s) := by
  have fresh' : Fresh { cmd with proc := s.proc } := fresh
  unfold Clean Accepted Harmless serve
  rcases s with ⟨_ | _ | _, proc⟩
  · rename_i queryString
    refine (http_clean_iff fresh' queryStringToMsg_status).trans ?_
    refine forall_congr' fun accepted => and_congr ?_ Iff.rfl
    refine forall_congr' fun p => forall_congr' fun pool => ?_
    exact queryStringToMsg_eq_iff ((queryStringToMsg_status _ _).trans (accepted p pool))
  · rename_i body
    refine (http_clean_iff fresh' (json2pbText_status body)).trans ?_
    refine forall_congr' fun accepted => and_congr ?_ Iff.rfl
    refine forall_congr' fun p => forall_congr' fun pool => ?_
    exact json2pbText_eq_iff ((json2pbText_status body _ _).trans (accepted p pool))
  · rename_i body
    simp only [Option.some.injEq, exists_eq_left', forall_eq']
    refine (binary_clean_iff fresh' body).trans ?_
    simp

/-- The two pools of a command have the prototypes of another's. -/
def SameProtos {M : Type} (cmd cmd' : RpcPbCmd M) : Prop :=
  cmd'.reqPool.map PbObjPool.objProto = cmd.reqPool.map PbObjPool.objProto ∧
    cmd'.rspPool.map PbObjPool.objProto = cmd.rspPool.map PbObjPool.objProto

theorem SameProtos.fresh {cmd' : RpcPbCmd (Msg (Scalar F))} (same : SameProtos cmd cmd')
    (fresh : Fresh cmd) : Fresh cmd' := by
  have keep {a b : Option (PbObjPool (Msg (Scalar F)))}
      (same : b.map PbObjPool.objProto = a.map PbObjPool.objProto)
      (new : ∀ p, a = some p → p.objProto.new = Msg.new) (p : PbObjPool (Msg (Scalar F)))
      (pool : b = some p) : p.objProto.new = Msg.new := by
    subst pool
    obtain ⟨q, pool, proto⟩ := Option.map_eq_some_iff.mp same.symm
    rw [← proto]
    exact new q pool
  exact ⟨keep same.1 fresh.1, keep same.2 fresh.2⟩

section Protos

variable {M : Type} {a b c : RpcPbCmd M}

theorem SameProtos.trans (ab : SameProtos a b) (bc : SameProtos b c) : SameProtos a c :=
  ⟨bc.1.trans ab.1, bc.2.trans ab.2⟩

theorem releaseReq_protos (req1 : Option M) : SameProtos a (a.releaseReq req1) := by
  refine ⟨?_, rfl⟩
  cases req1 <;> cases pool : a.reqPool <;> simp [RpcPbCmd.releaseReq, pool, PbObjPool.release]

theorem releaseRsp_protos (rsp : Option M) : SameProtos a (a.releaseRsp rsp) := by
  refine ⟨rfl, ?_⟩
  cases rsp <;> cases pool : a.rspPool <;> simp [RpcPbCmd.releaseRsp, pool, PbObjPool.release]

theorem callProc_protos (logged : Bool) (req1 : Option M) :
    SameProtos a (a.callProc logged req1).cmd := by
  have alloc : SameProtos a { a with rspPool := a.rspPool.map fun p : PbObjPool M => p.alloc.2 } := by
    refine ⟨rfl, ?_⟩
    cases pool : a.rspPool <;> simp [PbObjPool.alloc]
  exact alloc.trans (releaseReq_protos _)

theorem allocReq_protos {p : PbObjPool M} (pool : a.reqPool = some p) :
    SameProtos a { a with reqPool := some p.alloc.2 } := by
  simp [SameProtos, pool, PbObjPool.alloc]

theorem rpcPbCallCb_protos (logged : Bool) (body : List UInt8) :
    SameProtos a (a.rpcPbCallCb logged body).cmd := by
  unfold RpcPbCmd.rpcPbCallCb
  cases pool : a.reqPool with
  | none => exact callProc_protos _ _
  | some p =>
    dsimp only
    split
    · exact (allocReq_protos pool).trans (callProc_protos _ _)
    · exact (allocReq_protos pool).trans (releaseReq_protos _)

theorem http_protos {decode : M → Status × M} {r : Called M}
    (served : rpcPbHttpCallCb a decode = some r) : SameProtos a r.cmd := by
  revert served
  unfold rpcPbHttpCallCb
  cases pool : a.reqPool with
  | none =>
    rintro ⟨⟩
    exact (callProc_protos _ _).trans (releaseRsp_protos _)
  | some p =>
    dsimp only
    split
    · simp
    · split
      · rintro ⟨⟩
        exact (allocReq_protos pool).trans (releaseReq_protos _)
      · rintro ⟨⟩
        exact ((allocReq_protos pool).trans (callProc_protos _ _)).trans (releaseRsp_protos _)

end Protos

theorem serve_protos {r : Called (Msg (Scalar F))}
    (served : serve lib fl sch t logged cmd s = some r) : SameProtos cmd r.cmd := by
  unfold serve at served
  rcases s with ⟨_ | _ | _, proc⟩
  · exact http_protos (a := { cmd with proc := proc }) served
  · exact http_protos (a := { cmd with proc := proc }) served
  · obtain rfl := Option.some.inj served
    exact (rpcPbCallCb_protos (a := { cmd with proc := proc }) _ _).trans (releaseRsp_protos _)

theorem registered_fresh (methodName : List UInt8) (cmdId : UInt64) (req rsp : Option (Class F)) :
    Fresh (registered methodName cmdId req rsp) := by
  constructor
  · intro p pool
    obtain ⟨c, -, rfl⟩ := Option.map_eq_some_iff.mp pool
    exact c.2
  · intro p pool
    obtain ⟨c, -, rfl⟩ := Option.map_eq_some_iff.mp pool
    exact c.2

theorem throughout_congr {P Q : RpcPbCmd (Msg (Scalar F)) → Step (Msg (Scalar F)) → Prop}
    (same : ∀ cmd s, Fresh cmd → (P cmd s ↔ Q cmd s)) (fresh : Fresh cmd)
    (ss : List (Step (Msg (Scalar F)))) :
    Throughout lib fl sch t logged P cmd ss ↔ Throughout lib fl sch t logged Q cmd ss := by
  induction ss generalizing cmd with
  | nil => rfl
  | cons s ss ih =>
    refine and_congr (same cmd s fresh) (forall_congr' fun r => forall_congr' fun served => ?_)
    exact forall_congr' fun _ => ih ((serve_protos served).fresh fresh)

end Isolation

/-- The sequences of requests to a registered command that are clean throughout. -/
theorem requests_isolated_iff (lib : JsonLib S) (fl : Floats F) (sch : D → Descriptor D (Scalar F))
    (t : D) (logged : Bool) (methodName : List UInt8) (cmdId : UInt64) (req rsp : Option (Class F))
    (ss : List (Step (Msg (Scalar F)))) :
    Throughout lib fl sch t logged (Clean lib fl sch t logged)
        (registered methodName cmdId req rsp) ss ↔
      Throughout lib fl sch t logged
        (fun cmd s => Accepted lib fl sch t cmd s → Harmless lib fl sch t cmd s)
        (registered methodName cmdId req rsp) ss :=
  throughout_congr (fun _ _ fresh => clean_iff fresh) (registered_fresh methodName cmdId req rsp) ss

def noFields : Unit → Descriptor Unit (Scalar Unit) := fun _ => ⟨[], [], List.nodup_nil⟩

/-- A class whose messages parse from anything. -/
def anyClass : Class Unit := ⟨⟨Msg.new, fun _ _ => (true, Msg.new), fun _ _ _ => rfl⟩, rfl⟩

/-- A handler that puts a 5 into its response. -/
def answerFive : Step (Msg (Scalar Unit)) where
  request := .binary []
  proc _ _ := ⟨0, [], id, fun _ n => if n = 1 then [.scalar (.num 5)] else []⟩

/-- The second of two requests gets the response to the first. -/
theorem requests_isolated_twice : ¬ ∀ (D F S : Type) (lib : JsonLib S) (fl : Floats F)
    (sch : D → Descriptor D (Scalar F)) (t : D) (logged : Bool) (methodName : List UInt8)
    (cmdId : UInt64) (req rsp : Option (Class F)) (ss : List (Step (Msg (Scalar F)))),
    Throughout lib fl sch t logged (Clean lib fl sch t logged)
      (registered methodName cmdId req rsp) ss := by
  intro claim
  have clean := claim Unit Unit Unit ⟨fun _ => none, fun _ => false, fun _ => false, fun _ => 0,
    fun _ => []⟩ ⟨fun _ => (), fun _ => (), id⟩ noFields () true [] 1 none (some anyClass)
    [answerFive, answerFive]
  obtain ⟨r', fresh, received⟩ := (clean.2 _ rfl rfl).1 _ rfl
  obtain rfl := Option.some.inj fresh
  have response := congrArg (fun r => r.map fun m => m.2.map fun rsp => (rsp 1).length) received
  exact absurd response (by decide)

end Conet.Svrkit.RpcHttp
