/- Module: Conet/Svrkit/DuplexOutcome
   source: svrkit/src/rpc_pb_client_duplex.cpp, svrkit/src/rpc_pb_client.cpp,
   svrkit/src/rpc_pb_server.cpp, svrkit/cmd_base.h
   digest: What a caller of the duplex client sees of the result of a handler. -/

import Conet.Svrkit.Duplex
import Conet.Svrkit.RpcServer

set_option autoImplicit false
set_option relaxedAutoImplicit false

namespace Conet.Svrkit.Duplex

open Conet.Lib Conet.Lib.Protobuf Conet.Base.Pbc Conet.Svrkit.CmdBase Conet.Svrkit.CmdBaseCodec
open Conet.Svrkit.CmdBaseSchema Conet.Svrkit.RpcServer

section Statement

/-- `send_rpc_rsp` for the result of a handler: what it passes to `send_msg`, if it does. `text` is
where `errmsg` is in the memory `mem`. -/
def rspPacket (mem : ℤ → UInt8) (text : ℤ) (cmdBase : CmdBase) (retcode : UInt32)
    (errmsg : List UInt8) (msg : Option Message) : Option (List UInt8) :=
  let reply := sendRpcRsp text cmdBase retcode errmsg msg
  let s := serializeCmdBase (write mem text reply.errmsg) reply.head 10240 reply.rsp
  if s.ret = 0 then some (s.out.take s.len) else none

/-- The variables that a caller passes pointers to; of its response, the text that it was parsed
from. -/
@[ext] structure Variables where
  retcode : UInt32
  errmsg : List UInt8
  rsp : List UInt8

/-- What a handler has returned, as the variables of a caller. -/
def handled (ret : UInt32) (errmsg : List UInt8) (msg : Option Message) : Variables :=
  ⟨ret, errmsg, msg.elim [] Message.bytes⟩

/-- The variables when a call has returned. -/
def Returned.leaves (r : Returned) (v : Variables) : Variables :=
  ⟨r.retcode.getD v.retcode, r.errmsg.getD v.errmsg, r.rsp.getD v.rsp⟩

/-- The end of `rpc_pb_call_impl`, from `parse` on: the variables afterwards. `errmsg` and `rsp` are
whether the pointers are not null. -/
def callResult (mem : ℤ → UInt8) (rspBase : CmdBase) (errmsg rsp : Bool) (v : Variables) : Variables :=
  if rspBase.ret ≠ 0 then
    { v with
      retcode := rspBase.ret
      errmsg := if errmsg = true ∧ rspBase.errmsg.len > 0 then rspBase.errmsg.bytes mem else v.errmsg }
  else
    { v with
      retcode := rspBase.ret
      rsp := if rsp = true then rspBase.body.bytes mem else v.rsp }

def rpcPbCallImpl (mem : ℤ → UInt8) (start : PbField) (data : ℤ) (packetLen : ℕ)
    (errmsg rsp : Bool) (v : Variables) : Variables :=
  callResult mem (parse mem start data packetLen init).2 errmsg rsp v

/-- The same behind the pointers of a call; `errmsg` counts if the `ret` of the handler is not 0. -/
structure Same (ctx : ReqCtx) (ret : UInt32) (v w : Variables) : Prop where
  retcode : ctx.retcode = true → v.retcode = w.retcode
  errmsg : ret ≠ 0 → ctx.errmsg = true → v.errmsg = w.errmsg
  rsp : ctx.rsp = true → v.rsp = w.rsp

/-- A call that began with `v` in its variables ends with what the handler has returned, and with what
`rpc_pb_call_impl` makes of the same packet. -/
structure Reports (ctx : ReqCtx) (ret : UInt32) (errmsg : List UInt8) (msg : Option Message)
    (packet : List UInt8) (v after : Variables) : Prop where
  handler : Same ctx ret after (handled ret errmsg msg)
  sync : ∀ (mem : ℤ → UInt8) (start : PbField) (data : ℤ), 0 < data →
    slice mem data packet.length = packet →
    Same ctx ret after (rpcPbCallImpl mem start data packet.length ctx.errmsg ctx.rsp v)

/-- The packet of a response has room in the 10240 bytes of `send_rpc_rsp`. -/
structure Fits (mem : ℤ → UInt8) (text : ℤ) (cmdBase : CmdBase) (ret : UInt32) (errmsg : List UInt8)
    (msg : Option Message) : Prop where
  size : errmsg.length < 2 ^ 32
  room : 4 + (encoding (write mem text errmsg)
    (sendRpcRsp text cmdBase ret errmsg msg).head msg).length ≤ 10240

/-- The variables have the result of the handler before the call: `*retcode`, and all of them if the
handler fails. -/
structure Already (ctx : ReqCtx) (ret : UInt32) (errmsg : List UInt8) (msg : Option Message)
    (v : Variables) : Prop where
  retcode : ctx.retcode = true → v.retcode = ret
  failed : ret ≠ 0 → Same ctx ret v (handled ret errmsg msg)

end Statement

section Server

variable {mem : ℤ → UInt8} {text : ℤ} {cmdBase : CmdBase} {ret : UInt32} {errmsg : List UInt8}
  {msg : Option Message} {packet : List UInt8}

theorem contentWith_reply (small : errmsg.length < 2 ^ 32) :
    contentWith (write mem text errmsg) (sendRpcRsp text cmdBase ret errmsg msg).head msg =
      ⟨responseType, [], 0, cmdBase.seqId, msg.elim [] Message.bytes, ret, errmsg⟩ := by
  unfold sendRpcRsp
  by_cases none : errmsg = []
  · subst none
    rfl
  · have len : (UInt32.ofNat errmsg.length).toNat = errmsg.length := by
      rw [UInt32.toNat_ofNat', Nat.mod_eq_of_lt small]
    have held : (initRefStr text errmsg.length).bytes (write mem text errmsg) = errmsg := by
      rw [RefStr.bytes, initRefStr, len, slice_write]
    simp only [ne_eq, none, not_false_eq_true, if_true]
    exact Content.ext rfl rfl rfl rfl rfl rfl held

/-- A response that has room is sent whole, if it is sent. -/
theorem rspPacket_eq (fits : Fits mem text cmdBase ret errmsg msg)
    (sent : rspPacket mem text cmdBase ret errmsg msg = some packet) :
    packet.drop 4 =
      encoding (write mem text errmsg) (sendRpcRsp text cmdBase ret errmsg msg).head msg := by
  have room := fits.room
  have same : (sendRpcRsp text cmdBase ret errmsg msg).errmsg = errmsg := rfl
  have rsp : (sendRpcRsp text cmdBase ret errmsg msg).rsp = msg := rfl
  simp only [rspPacket, same, rsp] at sent
  generalize (sendRpcRsp text cmdBase ret errmsg msg).head = head at *
  generalize write mem text errmsg = mem' at *
  split at sent
  case isFalse => cases sent
  case isTrue zero =>
    obtain rfl := Option.some.inj sent
    rw [serializeCmdBase, if_neg (by decide)] at zero ⊢
    have done : (serializeCmdBaseImpl mem' head (10240 - 4) msg (byteSize msg)).ret = 0 := by
      by_contra error
      rw [if_pos error] at zero
      exact error zero
    have len := impl_len done
    have pass : (10240 - 4) % 2 ^ 32 ≤ (getMaybeSize head + byteSize msg) % 2 ^ 32 := by
      by_contra no
      rw [serializeCmdBaseImpl, if_pos (Nat.not_le.mp no)] at done
      simp at done
    have eq := impl_eq mem' head pass
    have filled := (fill_contained_iff mem' head 10236 10236 msg).mpr
      ((contained_int (by decide)).mpr (.inl (by omega)))
    have out : (serializeCmdBaseImpl mem' head (10240 - 4) msg (byteSize msg)).out =
        encoding mem' head msg := by
      rw [eq] at done ⊢
      exact filled.2 done
    rw [if_neg (not_not.mpr done), len, out]
    have mod : (encoding mem' head msg).length % 2 ^ 32 = (encoding mem' head msg).length :=
      Nat.mod_eq_of_lt (by omega)
    have mod' : ((encoding mem' head msg).length + 4) % 2 ^ 64 = (encoding mem' head msg).length + 4 :=
      Nat.mod_eq_of_lt (by omega)
    simp only [mod, mod']
    rw [List.take_of_length_le (by simp [htonl]; omega)]
    exact List.drop_left' (by simp [htonl])

end Server

section Client

variable {c c' : Client} {ch : ℕ} {packet : List UInt8} {buffered : List (List UInt8)}
  {respBase : Schema} {r : Returned}

/-- What a call has returned that ends when a response is read. -/
theorem returned_of_readRsp (reads : (c.channels ch).reader = .reading packet buffered)
    (full : packet ≠ []) (decoded : Schema.decode packet = some respBase)
    (step : Step c (.readRsp ch) c') (done : c'.returned = c.returned ++ [r]) :
    ∃ ctx, c.find respBase.values.seqId = some r.id ∧ c.ctxs r.id = some ctx ∧
      r = ⟨r.id, ctx.seqId, 0, none,
        if respBase.values.ret ≠ 0 ∧ ctx.errmsg = true then some respBase.values.errmsg else none,
        if ctx.rsp = true then some respBase.values.body else none⟩ := by
  have longer : c'.returned ≠ c.returned := by simp [done]
  unfold Step Client.step at step
  split at step
  case isTrue => cases step
  case isFalse =>
    simp only [Client.readRsp, reads, full, decoded, if_false] at step
    cases found : c.find respBase.values.seqId with
    | none =>
      simp only [found, Option.some.injEq] at step
      exact absurd (congrArg Client.returned step.symm) longer
    | some id =>
      cases pending : c.ctxs id with
      | none =>
        simp only [found, pending, Option.some.injEq] at step
        exact absurd (congrArg Client.returned step.symm) longer
      | some ctx =>
        simp only [found, pending, Option.some.injEq] at step
        have all := (congrArg Client.returned step).trans done
        obtain rfl := (List.cons.inj (List.append_cancel_left all)).1
        exact ⟨ctx, rfl, pending, rfl⟩

end Client

section Outcome

variable {mem : ℤ → UInt8} {text : ℤ} {cmdBase : CmdBase} {ret : UInt32} {errmsg : List UInt8}
  {msg : Option Message} {packet : List UInt8} {ctx : ReqCtx} {v after : Variables}

/-- `rpc_pb_call_impl` reports what a head says, and leaves the variables for which it says nothing. -/
theorem callResult_eq {rspBase : CmdBase} {k : Content} (same : CmdBaseCodec.content mem rspBase = k)
    (p q : Bool) : callResult mem rspBase p q v =
      if k.ret ≠ 0 then ⟨k.ret, if p = true ∧ k.errmsg ≠ [] then k.errmsg else v.errmsg, v.rsp⟩
      else ⟨k.ret, v.errmsg, if q = true then k.body else v.rsp⟩ := by
  subst same
  have some : rspBase.errmsg.len > 0 ↔ rspBase.errmsg.bytes mem ≠ [] := by
    rw [ne_eq, ← List.length_eq_zero_iff, bytes_length]
    exact UInt32.pos_iff_ne_zero.trans (not_congr UInt32.toNat_inj.symm)
  simp only [callResult, some]
  rfl

/-- The packet of a response, as the schema decodes it. -/
theorem decode_rspPacket (fits : Fits mem text cmdBase ret errmsg msg)
    (sent : rspPacket mem text cmdBase ret errmsg msg = some packet) :
    packet.drop 4 ≠ [] ∧ ∃ respBase, Schema.decode (packet.drop 4) = some respBase ∧
      respBase.values =
        ⟨responseType, [], 0, cmdBase.seqId, msg.elim [] Message.bytes, 0, errmsg⟩ := by
  obtain ⟨respBase, decoded, values⟩ := decode_encoding (write mem text errmsg)
    (sendRpcRsp text cmdBase ret errmsg msg).head msg
  rw [contentWith_reply fits.size, ← rspPacket_eq fits sent] at *
  refine ⟨fun nothing => ?_, respBase, decoded, values⟩
  rw [nothing] at decoded
  obtain rfl := Option.some.inj decoded
  have type : (0 : UInt32) = responseType := congrArg Content.type values
  exact absurd type (by decide)

/-- Of a response that leaves `*retcode` and `*errmsg` as they are, all is as reported exactly when
they are right before. -/
theorem reports_iff (fits : Fits mem text cmdBase ret errmsg msg)
    (sent : rspPacket mem text cmdBase ret errmsg msg = some packet)
    (after : Variables) (seen : after = ⟨v.retcode, v.errmsg,
      if ctx.rsp = true then msg.elim [] Message.bytes else v.rsp⟩) :
    Reports ctx ret errmsg msg (packet.drop 4) v after ↔ Already ctx ret errmsg msg v := by
  have whole := rspPacket_eq fits sent
  have short := fits.room
  rw [← whole] at short
  have sync (mem' : ℤ → UInt8) (start : PbField) (data : ℤ) (nonnull : 0 < data)
      (held : slice mem' data (packet.drop 4).length = packet.drop 4) :
      rpcPbCallImpl mem' start data (packet.drop 4).length ctx.errmsg ctx.rsp v =
        if ret ≠ 0 then ⟨ret, if ctx.errmsg = true ∧ errmsg ≠ [] then errmsg else v.errmsg, v.rsp⟩
        else ⟨ret, v.errmsg, if ctx.rsp = true then msg.elim [] Message.bytes else v.rsp⟩ := by
    rw [whole] at held short ⊢
    exact callResult_eq ((parse_encoding held (by omega) nonnull).trans (contentWith_reply fits.size)) _ _
  have rsp : ctx.rsp = true → after.rsp = msg.elim [] Message.bytes := by
    intro wants
    rw [seen, if_pos wants]
  have retcode : after.retcode = v.retcode := by rw [seen]
  have message : after.errmsg = v.errmsg := by rw [seen]
  constructor
  · intro reports
    have code : ctx.retcode = true → v.retcode = ret := by
      rw [← retcode]
      exact reports.handler.retcode
    refine ⟨code, fun fails => ⟨code, fun _ wants => ?_, fun wants => ?_⟩⟩
    · rw [← message]
      exact reports.handler.errmsg fails wants
    · have held := slice_write (fun _ => 0) 1 (packet.drop 4)
      have same := (reports.sync _ ⟨0, 0, 0, 0, 0, 0⟩ 1 (by decide) held).rsp wants
      rw [sync _ _ _ (by decide) held, if_pos fails, rsp wants] at same
      exact same.symm
  · intro already
    refine ⟨⟨?_, fun fails wants => ?_, rsp⟩, fun mem' start data nonnull held => ?_⟩
    · rw [retcode]
      exact already.retcode
    · rw [message]
      exact (already.failed fails).errmsg fails wants
    · rw [sync mem' start data nonnull held]
      by_cases fails : ret ≠ 0
      · have failed := already.failed fails
        rw [if_pos fails]
        refine ⟨fun wants => retcode.trans (already.retcode wants), fun _ wants => ?_, fun wants => ?_⟩
        · simp only [wants, true_and]
          rw [message, failed.errmsg fails wants]
          by_cases none : errmsg = []
          · rw [if_neg (not_not.mpr none)]
          · exact (if_pos none).symm
        · exact (rsp wants).trans (failed.rsp wants).symm
      · rw [if_neg fails]
        refine ⟨fun wants => retcode.trans (already.retcode wants), fun no => absurd no fails, ?_⟩
        intro wants
        rw [if_pos wants]
        exact rsp wants

end Outcome

/-- A call that ends with the response of the server reports the result of the handler exactly when
its variables have it before: `*retcode` is never written, and the server's `ret` is not decoded. -/
theorem call_reports_iff (mem : ℤ → UInt8) (text : ℤ) (cmdBase : CmdBase) (ret : UInt32)
    (errmsg : List UInt8) (msg : Option Message) (packet : List UInt8)
    (fits : Fits mem text cmdBase ret errmsg msg)
    (sent : rspPacket mem text cmdBase ret errmsg msg = some packet)
    (c c' : Client) (ch : ℕ) (buffered : List (List UInt8))
    (reads : (c.channels ch).reader = .reading (packet.drop 4) buffered)
    (step : Step c (.readRsp ch) c') (r : Returned) (done : c'.returned = c.returned ++ [r])
    (ctx : ReqCtx) (pending : c.ctxs r.id = some ctx) (v : Variables) :
    r.ret = 0 ∧ (Reports ctx ret errmsg msg (packet.drop 4) v (r.leaves v) ↔
      Already ctx ret errmsg msg v) := by
  obtain ⟨full, respBase, decoded, values⟩ := decode_rspPacket fits sent
  obtain ⟨ctx', -, pending', same⟩ := returned_of_readRsp reads full decoded step done
  obtain rfl := Option.some.inj (pending.symm.trans pending')
  rw [values] at same
  refine ⟨by rw [same], reports_iff fits sent _ ?_⟩
  rw [same]
  simp only [Returned.leaves, ne_eq, not_true_eq_false, false_and, if_false, Option.getD_none]
  by_cases wants : ctx.rsp = true
  · rw [if_pos wants, if_pos wants]
    rfl
  · rw [if_neg wants, if_neg wants]
    rfl

section Instances

/-- A response that is estimated at little more than the buffer is sent. -/
theorem exists_rspPacket (mem : ℤ → UInt8) (text : ℤ) (cmdBase : CmdBase) (ret : UInt32)
    (errmsg : List UInt8) (msg : Option Message) (large : 10168 ≤ errmsg.length + byteSize msg)
    (small : errmsg.length + byteSize msg < 10185) :
    Fits mem text cmdBase ret errmsg msg ∧
      ∃ packet, rspPacket mem text cmdBase ret errmsg msg = some packet := by
  have name : (sendRpcRsp text cmdBase ret errmsg msg).head.cmdName = ⟨0, 0⟩ := by
    unfold sendRpcRsp
    split_ifs <;> rfl
  have body : (sendRpcRsp text cmdBase ret errmsg msg).head.body = ⟨0, 0⟩ := by
    unfold sendRpcRsp
    split_ifs <;> rfl
  have error : (sendRpcRsp text cmdBase ret errmsg msg).head.errmsg.len.toNat = errmsg.length := by
    unfold sendRpcRsp
    by_cases none : errmsg = []
    · subst none
      rfl
    · simp only [ne_eq, none, not_false_eq_true, if_true, initRefStr]
      rw [UInt32.toNat_ofNat', Nat.mod_eq_of_lt (by omega)]
  have le := encoding_length_le (write mem text errmsg) (sendRpcRsp text cmdBase ret errmsg msg).head msg
  have zero : (⟨0, 0⟩ : RefStr).len.toNat = 0 := rfl
  rw [name, error, zero] at le
  have maybe : getMaybeSize (sendRpcRsp text cmdBase ret errmsg msg).head = 68 + errmsg.length := by
    rw [getMaybeSize, name, body, error, zero, sizeofCmdBase]
    omega
  have succeeds : Succeeds (write mem text errmsg) (sendRpcRsp text cmdBase ret errmsg msg).head msg
      10236 := (succeeds_int (by decide)).mpr ⟨by rw [maybe]; omega, by omega, fun _ => by omega⟩
  have done := (buffer_done_iff (n := 10240) (by omega) (by decide) (by omega)).mpr succeeds
  exact ⟨⟨by omega, by omega⟩, _, if_pos done.1⟩

/-- A call by number, whose response arrives. -/
def outcomeEvents (packet : List UInt8) : List Event :=
  [.call (.byId 1) none true true true, .connect 0, .readTest 0, .arrive 0 (.packets packet [])]

/-- The request that a server parses from it. -/
def outcomeRequest : CmdBase := { init with type := requestType, cmdId := 1, seqId := 1 }

theorem exists_returned {packet : List UInt8} (full : packet ≠ []) {respBase : Schema}
    (decoded : Schema.decode packet = some respBase) (number : respBase.values.seqId = 1) :
    ∃ c c' r, Run 0 (outcomeEvents packet) c ∧ (c.channels 0).reader = .reading packet [] ∧
      Step c (.readRsp 0) c' ∧ c'.returned = c.returned ++ [r] ∧
      c.ctxs r.id = some ⟨0, [], 1, none, true, true, true, 1⟩ := by
  obtain ⟨c, reached⟩ : ∃ c, (outcomeEvents packet).foldlM Client.step (.start 0) = some c := ⟨_, rfl⟩
  have alive : c.crashed = false := by
    obtain rfl := Option.some.inj reached
    rfl
  have reads : (c.channels 0).reader = .reading packet [] := by
    obtain rfl := Option.some.inj reached
    rfl
  have found : c.find 1 = some 0 := by
    obtain rfl := Option.some.inj reached
    rfl
  have pending : c.ctxs 0 = some ⟨0, [], 1, none, true, true, true, 1⟩ := by
    obtain rfl := Option.some.inj reached
    rfl
  have step : ∃ c', Step c (.readRsp 0) c' ∧ ∃ r, c'.returned = c.returned ++ [r] ∧ r.id = 0 := by
    simp only [Step, Client.step, alive, Client.readRsp, reads, full, decoded, number, found, pending,
      if_false, Bool.false_eq_true, Option.some.injEq, exists_eq_left']
    exact ⟨_, rfl, rfl⟩
  obtain ⟨c', step, r, done, id⟩ := step
  exact ⟨c, c', r, Trace.of_foldlM reached, reads, step, done, id ▸ pending⟩

theorem exists_message {n : ℕ} (small : n < 2 ^ 31) : ∃ m : Message, byteSize (some m) = n :=
  ⟨zeros n small, List.length_replicate⟩

/-- The response of a handler that succeeds is reported, if `*retcode` is 0 before. -/
theorem call_reports_success : ∃ (msg : Option Message) (packet : List UInt8) (r : Returned),
    rspPacket (fun _ => 0) 5 outcomeRequest 0 [] msg = some packet ∧ r.ret = 0 ∧
      Reports ⟨0, [], 1, none, true, true, true, 1⟩ 0 [] msg (packet.drop 4) ⟨0, [], []⟩
        (r.leaves ⟨0, [], []⟩) := by
  obtain ⟨m, size⟩ := exists_message (n := 10170) (by decide)
  obtain ⟨fits, packet, sent⟩ := exists_rspPacket (fun _ => 0) 5 outcomeRequest 0 [] (some m)
    (by rw [size]; decide) (by rw [size]; decide)
  obtain ⟨full, respBase, decoded, values⟩ := decode_rspPacket fits sent
  obtain ⟨c, c', r, -, reads, step, done, pending⟩ :=
    exists_returned full decoded (congrArg Content.seqId values)
  have reports := call_reports_iff _ 5 outcomeRequest 0 [] _ packet fits sent c c' 0 [] reads step r done
    _ pending ⟨0, [], []⟩
  exact ⟨_, packet, r, sent, reports.1, reports.2.mpr ⟨fun _ => rfl, fun no => absurd rfl no⟩⟩

/-- A handler that fails with 1: its caller sees a success. -/
theorem failure_lost : ¬ ∀ (mem : ℤ → UInt8) (text : ℤ) (cmdBase : CmdBase) (ret : UInt32)
    (errmsg : List UInt8) (msg : Option Message) (packet : List UInt8),
    rspPacket mem text cmdBase ret errmsg msg = some packet →
    ∀ (seqId : UInt64) (tr : List Event) (c c' : Client) (ch : ℕ) (buffered : List (List UInt8)),
    Run seqId tr c → (c.channels ch).reader = .reading (packet.drop 4) buffered →
    Step c (.readRsp ch) c' → ∀ r : Returned, c'.returned = c.returned ++ [r] → r.ret = 0 →
    ∀ ctx, c.ctxs r.id = some ctx → ∀ v : Variables,
      Reports ctx ret errmsg msg (packet.drop 4) v (r.leaves v) := by
  intro claim
  obtain ⟨m, size⟩ := exists_message (n := 10170) (by decide)
  obtain ⟨fits, packet, sent⟩ := exists_rspPacket (fun _ => 0) 5 outcomeRequest 1 [] (some m)
    (by rw [size]; decide) (by rw [size]; decide)
  obtain ⟨full, respBase, decoded, values⟩ := decode_rspPacket fits sent
  obtain ⟨c, c', r, run, reads, step, done, pending⟩ :=
    exists_returned full decoded (congrArg Content.seqId values)
  obtain ⟨ctx, -, -, same⟩ := returned_of_readRsp reads full decoded step done
  have reports := claim _ 5 outcomeRequest 1 [] _ packet sent 0 _ c c' 0 [] run reads step r done
    (by rw [same]) _ pending ⟨0, [], []⟩
  have code : (r.leaves ⟨0, [], []⟩).retcode = 1 := reports.handler.retcode rfl
  rw [same] at code
  exact absurd code (show (0 : UInt32) ≠ 1 by decide)

end Instances

end Conet.Svrkit.Duplex
