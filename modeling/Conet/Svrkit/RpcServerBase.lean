/- Module: Conet/Svrkit/RpcServerBase
   source: svrkit/src/rpc_pb_server_base.cpp, svrkit/rpc_pb_server_base.h, base/pb_obj_pool.h, base/lifo.h
   digest: Registered commands, their message pools, and the call of a command's handler. -/

import Conet.Svrkit.CmdBase

set_option autoImplicit false
set_option relaxedAutoImplicit false

namespace Conet.Svrkit

/-- A class of messages with `New` and `ParseFromArray`, which clears its message first. -/
structure Prototype (M : Type) where
  new : M
  parseFromArray : List UInt8 → M → Bool × M
  clears : ∀ bs m m', parseFromArray bs m = parseFromArray bs m'

/-- `PbObjPool`: the prototype, and the messages that were released, the last one first. -/
structure PbObjPool (M : Type) where
  objProto : Prototype M
  queue : List M

namespace PbObjPool

variable {M : Type} (p : PbObjPool M)

/-- The message that `alloc` gives out. -/
def top : M := p.queue.headD p.objProto.new

def alloc : M × PbObjPool M := (p.top, { p with queue := p.queue.tail })

def release (m : M) : PbObjPool M := { p with queue := m :: p.queue }

end PbObjPool

/-- What a handler does: its return value, its `errmsg`, and what it makes of its messages. -/
structure Outcome (M : Type) where
  ret : UInt32
  errmsg : List UInt8
  editReq : M → M
  editRsp : M → M

/-- `rpc_pb_cmd_t`. A command with a `void` type has no `req_msg` or no `rsp_msg`, here no pool. -/
structure RpcPbCmd (M : Type) where
  methodName : List UInt8
  cmdId : UInt64
  reqPool : Option (PbObjPool M)
  rspPool : Option (PbObjPool M)
  proc : Option M → Option M → Outcome M

/-- The null pointers that can be dereferenced. -/
inductive Crash
  | nullCmd
  | nullReq
  | nullRsp
  deriving DecidableEq

/-- `rpc_pb_call_cb` after its run: the command with its pools, what it returns and leaves in `*rsp`
and `*errmsg`, the messages that the handler was called with, and the null pointer that it
dereferenced in the end. -/
structure Called (M : Type) where
  cmd : RpcPbCmd M
  ret : UInt32
  rsp : Option M
  errmsg : List UInt8
  received : Option (Option M × Option M)
  crash : Option Crash

namespace RpcPbCmd

variable {M : Type} (self : RpcPbCmd M)

def errParseReqBody : UInt32 := 2

/-- `req_pool.release(req1)`. -/
def releaseReq (req1 : Option M) : RpcPbCmd M :=
  { self with reqPool := self.reqPool.map fun p => req1.elim p p.release }

/-- `rsp_pool.release(rsp)`. -/
def releaseRsp (rsp : Option M) : RpcPbCmd M :=
  { self with rspPool := self.rspPool.map fun p => rsp.elim p p.release }

/-- The arguments of the log line: they are evaluated when `FLAGS_log_failed_rpc` is set and
`PLOG_ERROR` is enabled. -/
def logFailed (logged : Bool) (ret : UInt32) (req1 rsp1 : Option M) : Option Crash :=
  if ret ≠ 0 ∧ logged then
    match req1, rsp1 with
    | none, _ => some .nullReq
    | some _, none => some .nullRsp
    | some _, some _ => none
  else none

/-- From the allocation of the response on. -/
def callProc (logged : Bool) (req1 : Option M) : Called M :=
  let rsp1 := self.rspPool.map PbObjPool.top
  let self := { self with rspPool := self.rspPool.map fun p : PbObjPool M => p.alloc.2 }
  let o := self.proc req1 rsp1
  { cmd := self.releaseReq (req1.map o.editReq)
    ret := o.ret
    rsp := rsp1.map o.editRsp
    errmsg := o.errmsg
    received := some (req1, rsp1)
    crash := logFailed logged o.ret req1 rsp1 }

/-- `rpc_pb_call_cb`, with the body of the request. -/
def rpcPbCallCb (logged : Bool) (body : List UInt8) : Called M :=
  match self.reqPool with
  | none => self.callProc logged none
  | some p =>
    let (req1, p) := p.alloc
    let self := { self with reqPool := some p }
    match p.objProto.parseFromArray body req1 with
    | (true, req1) => self.callProc logged (some req1)
    | (false, req1) =>
      { cmd := self.releaseReq (some req1), ret := errParseReqBody, rsp := none, errmsg := [],
        received := none, crash := none }

/-! ### The outcome of a request -/

/-- The request message of a body; `none` where the body is not accepted. -/
def request (body : List UInt8) : Option (Option M) :=
  match self.reqPool with
  | none => some none
  | some p =>
    match p.objProto.parseFromArray body p.objProto.new with
    | (true, m) => some (some m)
    | (false, _) => none

/-- What the handler does with a body that is accepted. -/
def outcome (body : List UInt8) : Option (Outcome M) :=
  (self.request body).map fun req1 => self.proc req1 (self.rspPool.map PbObjPool.top)

variable {self} {logged : Bool} {body : List UInt8}

theorem request_isNone (accepted : (self.outcome body).isSome) :
    self.request body = some none ↔ self.reqPool = none := by
  revert accepted
  unfold outcome request
  cases self.reqPool with
  | none => simp
  | some p =>
    dsimp only
    rcases p.objProto.parseFromArray body p.objProto.new with ⟨_ | _, m⟩ <;> simp

/-- A body that is not accepted gets no response message. -/
theorem rpcPbCallCb_rejected (logged : Bool) (rejected : self.outcome body = none) :
    (self.rpcPbCallCb logged body).ret = errParseReqBody ∧
      (self.rpcPbCallCb logged body).rsp = none ∧
      (self.rpcPbCallCb logged body).errmsg = [] ∧
      (self.rpcPbCallCb logged body).crash = none := by
  revert rejected
  unfold outcome request rpcPbCallCb
  cases self.reqPool with
  | none => simp
  | some p =>
    dsimp only [PbObjPool.alloc]
    rw [p.objProto.clears body p.top p.objProto.new]
    rcases p.objProto.parseFromArray body p.objProto.new with ⟨_ | _, m⟩ <;> simp

theorem rpcPbCallCb_accepted (logged : Bool) {req1 : Option M} (accepted : self.request body = some req1) :
    ∃ cmd : RpcPbCmd M, cmd.rspPool = self.rspPool ∧ cmd.proc = self.proc ∧
      self.rpcPbCallCb logged body = cmd.callProc logged req1 := by
  revert accepted
  unfold request rpcPbCallCb
  cases self.reqPool with
  | none =>
    intro accepted
    obtain rfl : none = req1 := by simpa using accepted
    exact ⟨self, rfl, rfl, rfl⟩
  | some p =>
    dsimp only [PbObjPool.alloc]
    rw [p.objProto.clears body p.top p.objProto.new]
    rcases p.objProto.parseFromArray body p.objProto.new with ⟨_ | _, m⟩
    · simp
    · intro accepted
      obtain rfl : some m = req1 := by simpa using accepted
      exact ⟨{ self with reqPool := some { p with queue := p.queue.tail } }, rfl, rfl, rfl⟩

/-- Whether the log line has both messages to print. -/
theorem logFailed_eq_none {ret : UInt32} {req1 rsp1 : Option M} :
    logFailed logged ret req1 rsp1 = none ↔
      (ret ≠ 0 → logged = true → req1.isSome ∧ rsp1.isSome) := by
  unfold logFailed
  split_ifs with h
  · cases req1 <;> cases rsp1 <;> simp [h.1, h.2]
  · simp only [true_iff]
    intro ret on
    exact absurd ⟨ret, on⟩ h

/-- A body that is accepted: the handler's results are handed on, and the call gets to its end where
the log line is not printed or has both messages. -/
theorem rpcPbCallCb_outcome (logged : Bool) {o : Outcome M} (accepted : self.outcome body = some o) :
    (self.rpcPbCallCb logged body).ret = o.ret ∧
      ((self.rpcPbCallCb logged body).rsp = none ↔ self.rspPool = none) ∧
      (self.rpcPbCallCb logged body).errmsg = o.errmsg ∧
      ((self.rpcPbCallCb logged body).crash = none ↔ (o.ret ≠ 0 → logged = true →
        self.reqPool.isSome ∧ self.rspPool.isSome)) := by
  obtain ⟨req1, req, rfl⟩ := Option.map_eq_some_iff.mp accepted
  have void : req1.isSome ↔ self.reqPool.isSome := by
    rw [Option.isSome_iff_ne_none, Option.isSome_iff_ne_none, Ne, Ne,
      ← request_isNone (by rw [accepted]; rfl), req, Option.some.injEq]
  obtain ⟨cmd, pool, proc, called⟩ := rpcPbCallCb_accepted logged req
  rw [called]
  simp only [callProc, pool, proc, logFailed_eq_none, Option.map_eq_none_iff, Option.isSome_map,
    true_and, void]

end RpcPbCmd

end Conet.Svrkit
