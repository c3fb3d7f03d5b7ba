/- Module: Conet/Svrkit/DuplexSend
   source: svrkit/src/rpc_pb_client_duplex.cpp, svrkit/cmd_base.h
   digest: Which packets of the duplex client carry the request that they are made for. -/

import Conet.Svrkit.Duplex

set_option autoImplicit false
set_option relaxedAutoImplicit false

namespace Conet.Svrkit.Duplex

open Conet.Lib Conet.Lib.Protobuf Conet.Base.Pbc Conet.Svrkit.CmdBase Conet.Svrkit.CmdBaseCodec
open Conet.Svrkit.CmdBaseParse

section Statement

/-- What the packet of a request is to say. -/
def ReqCtx.content (ctx : ReqCtx) : Content where
  type := 1
  cmdName := ctx.name
  cmdId := ctx.cmdId
  seqId := ctx.seqId
  body := ctx.req.elim [] Message.bytes
  ret := 0
  errmsg := []

/-- A packet has its length in front, and behind it what the server parses to the request. -/
def ReqCtx.In (ctx : ReqCtx) (packet : List UInt8) : Prop :=
  packet.take 4 = beBytes 4 (packet.drop 4).length ∧
    ∀ (mem : ℤ → UInt8) (start : PbField) (buff : ℤ), 0 < buff →
      slice mem buff (packet.drop 4).length = packet.drop 4 →
      CmdBaseCodec.content mem (parse mem start buff (packet.drop 4).length CmdBase.init).2 =
        ctx.content

/-- `send_proc` turns to a request. -/
def Takes (c : Client) (event : Event) (cmdBase : CmdBase) (mem : ℤ → UInt8) (ctx : ReqCtx) : Prop :=
  ∃ ch id queue sendDatas, event = .sendNext ch mem ∧ c.crashed = false ∧
    (c.channels ch).sender = .batch (id :: queue) sendDatas ∧ (c.channels ch).cmdBase = cmdBase ∧
    c.ctxs id = some ctx ∧ ctx.Lies mem

/-- For a request a packet is sent that does not carry it, or a null pointer is used. -/
def Spoils (c : Client) (event : Event) : Prop :=
  ∃ cmdBase mem ctx, Takes c event cmdBase mem ctx ∧
    ∀ cmdBase' data, sendData mem cmdBase ctx = some (cmdBase', data) →
      data.ret = 0 ∧ data.out ≠ [] ∧ ¬ ctx.In data.out

/-- The head still has the other field from a request before: a name that is not empty for a command
number, or a command number for a name; or there is neither number nor name. -/
def CmdBase.Mixes (cmdBase : CmdBase) (ctx : ReqCtx) : Prop :=
  if ctx.cmdId > 0 then 0 < cmdBase.cmdName.len else ctx.cmdName = 0 ∨ 0 < cmdBase.cmdId

def Mixes (c : Client) (event : Event) : Prop :=
  ∃ cmdBase mem ctx, Takes c event cmdBase mem ctx ∧ CmdBase.Mixes cmdBase ctx

def Command.name : Command → List UInt8
  | .byId _ => []
  | .byName _ name => name

/-- The bytes of the name and the message of a call. -/
def Event.size : Event → ℕ
  | .call command req _ _ _ => command.name.length + byteSize req
  | _ => 0

/-- The call with this number is made, and this is its context. -/
def Asks (id : ℕ) (ctx : ReqCtx) (c : Client) (event : Event) : Prop :=
  c.count = id ∧ ∃ command req rsp retcode errmsg,
    event = .call command req rsp retcode errmsg ∧
      ctx = command.ctx req rsp retcode errmsg (c.seqId + 1)

/-- This packet carries the request of this call. -/
def Carried (seqId : UInt64) (tr : List Event) (data : ℕ × List UInt8) : Prop :=
  ∃ ctx, Happens seqId (Asks data.1 ctx) tr ∧ ctx.In data.2

/-- Every request that `send_proc` turns to gets a packet that carries it, and what is sent for a call
carries its request. -/
structure Faithful (seqId : UInt64) (tr : List Event) : Prop where
  turns : ¬ Happens seqId Spoils tr
  sent : ∀ c, Run seqId tr c → ∀ data ∈ c.sent, Carried seqId tr data

end Statement

section Packet

variable {mem : ℤ → UInt8} {cmdBase : CmdBase} {ctx : ReqCtx}

/-- The head of `send_proc` between two requests. -/
structure Head (cmdBase : CmdBase) : Prop where
  type : cmdBase.type = 1
  body : cmdBase.body = ⟨0, 0⟩
  ret : cmdBase.ret = 0
  errmsg : cmdBase.errmsg = ⟨0, 0⟩
  named : 0 < cmdBase.cmdName.len → cmdBase.cmdName.data ≠ 0
  small : 64 + cmdBase.cmdName.len.toNat < 2 ^ 31

/-- A request that is not too large, and was made by one of the two functions. -/
structure Sized (ctx : ReqCtx) : Prop where
  small : 64 + ctx.name.length + byteSize ctx.req < 2 ^ 31
  byId : 0 < ctx.cmdId → ctx.name = []

theorem Head.payload (head : Head cmdBase) (msg : Option Message) :
    payload cmdBase msg = cmdBase.cmdName.len.toNat + byteSize msg := by
  simp [CmdBaseCodec.payload, head.body, head.errmsg]

theorem Head.encoding_lt (head : Head cmdBase) (mem : ℤ → UInt8) (msg : Option Message) :
    (encoding mem cmdBase msg).length < 64 + (cmdBase.cmdName.len.toNat + byteSize msg) := by
  have le := encoding_length_le mem cmdBase msg
  have none : cmdBase.errmsg.len.toNat = 0 := by rw [head.errmsg]; rfl
  omega

/-- The packet of a head is its encoding behind its length, also with a name from a request before. -/
theorem vector_head (head : Head cmdBase) {msg : Option Message} (size : 64 + byteSize msg < 2 ^ 31) :
    serializeCmdBaseVector mem cmdBase msg = ⟨0, 68 + payload cmdBase msg, encoding mem cmdBase msg,
      htonl (encoding mem cmdBase msg).length ++ encoding mem cmdBase msg⟩ := by
  have small := head.small
  have total := head.payload msg
  have room := head.encoding_lt mem msg
  exact vector_eq (by omega) (fill_fits (by omega) (by omega) (.inr head.ret))

/-- A packet carries a request exactly when it can be parsed, and its head is that of the request. -/
theorem in_iff (head : Head cmdBase) {msg : Option Message} (size : 64 + byteSize msg < 2 ^ 31) :
    ctx.In (htonl (encoding mem cmdBase msg).length ++ encoding mem cmdBase msg) ↔
      (encoding mem cmdBase msg).length < 2 ^ 31 ∧ contentWith mem cmdBase msg = ctx.content := by
  have drop : (htonl (encoding mem cmdBase msg).length ++ encoding mem cmdBase msg).drop 4 =
      encoding mem cmdBase msg := List.drop_left' (by simp [htonl])
  have take : (htonl (encoding mem cmdBase msg).length ++ encoding mem cmdBase msg).take 4 =
      htonl (encoding mem cmdBase msg).length := List.take_left' (by simp [htonl])
  have small := head.small
  have room := head.encoding_lt mem msg
  rw [ReqCtx.In, take, drop]
  constructor
  · rintro ⟨-, parses⟩
    have whole := parses (write (fun _ => 0) 1 (encoding mem cmdBase msg)) ⟨0, 0, 0, 0, 0, 0⟩ 1
      (by decide) (slice_write _ _ _)
    by_cases short : (encoding mem cmdBase msg).length < 2 ^ 31
    · rw [parse_encoding (slice_write _ _ _) short (by decide)] at whole
      exact ⟨short, whole⟩
    · -- a length that is negative as an `int`: nothing is parsed, not even the type
      have dlen := toInt32_of_ge (x := (encoding mem cmdBase msg).length) (by omega) (by omega)
      rw [parse_none (pbBegin_negative (by omega))] at whole
      have type := congrArg Content.type whole
      exact absurd type (show (0 : UInt32) ≠ 1 by decide)
  · rintro ⟨short, same⟩
    refine ⟨rfl, fun mem' start buff nonnull held => ?_⟩
    rw [parse_encoding held short nonnull, same]

theorem Head.byId (head : Head cmdBase) (cmdId seqId : UInt64) :
    Head { cmdBase with cmdId := cmdId, seqId := seqId } :=
  ⟨head.type, head.body, head.ret, head.errmsg, head.named, head.small⟩

theorem Head.byName (head : Head cmdBase) {cmdName : ℤ} (nonnull : cmdName ≠ 0) {n : ℕ}
    (small : 64 + n < 2 ^ 31) (seqId : UInt64) :
    Head { cmdBase with cmdName := initRefStr cmdName n, seqId := seqId } := by
  have len : (initRefStr cmdName n).len.toNat = n := by
    rw [initRefStr, UInt32.toNat_ofNat', Nat.mod_eq_of_lt (by omega)]
  exact ⟨head.type, head.body, head.ret, head.errmsg, fun _ => nonnull, by simp only [len]; omega⟩

theorem contentWith_eq (head : Head cmdBase) (msg : Option Message) :
    contentWith mem cmdBase msg =
      ⟨1, if cmdBase.cmdName.data = 0 then [] else cmdBase.cmdName.bytes mem, cmdBase.cmdId,
        cmdBase.seqId, msg.elim [] Message.bytes, 0, []⟩ := by
  rw [contentWith, CmdBaseCodec.content, head.type, head.ret, head.errmsg]
  rfl

theorem name_nil_iff (head : Head cmdBase) :
    (if cmdBase.cmdName.data = 0 then [] else cmdBase.cmdName.bytes mem) = [] ↔
      ¬ 0 < cmdBase.cmdName.len := by
  constructor
  · intro empty some
    rw [if_neg (head.named some)] at empty
    exact bytes_ne_nil some mem empty
  · intro none
    have zero : cmdBase.cmdName.len = 0 := by
      by_contra some
      exact none (UInt32.pos_iff_ne_zero.mpr some)
    split
    · rfl
    · simp [RefStr.bytes, zero, slice]

/-- What is to be shown of the head that a packet is made from. -/
theorem spoilt_iff_head {cmdBase' : CmdBase} (head : Head cmdBase')
    (size : 64 + byteSize ctx.req < 2 ^ 31)
    (made : sendData mem cmdBase ctx =
      some (cmdBase', serializeCmdBaseVector mem cmdBase' ctx.req)) :
    (∀ cmdBase' data, sendData mem cmdBase ctx = some (cmdBase', data) →
      data.ret = 0 ∧ data.out ≠ [] ∧ ¬ ctx.In data.out) ↔
      ¬ ((encoding mem cmdBase' ctx.req).length < 2 ^ 31 ∧
        contentWith mem cmdBase' ctx.req = ctx.content) := by
  rw [← in_iff head size]
  rw [vector_head head size] at made
  constructor
  · intro all
    exact (all _ _ made).2.2
  · intro not cmdBase'' data made'
    obtain ⟨rfl, rfl⟩ := Prod.mk.inj (Option.some.inj (made.symm.trans made'))
    refine ⟨rfl, fun nothing => ?_, not⟩
    have length := congrArg List.length nothing
    simp [htonl] at length

/-- A request gets a packet that carries it, or that does not, as the head has fields from a request
before. -/
theorem spoilt_iff (head : Head cmdBase) (sized : Sized ctx) (lies : ctx.Lies mem) :
    (∀ cmdBase' data, sendData mem cmdBase ctx = some (cmdBase', data) →
      data.ret = 0 ∧ data.out ≠ [] ∧ ¬ ctx.In data.out) ↔ CmdBase.Mixes cmdBase ctx := by
  have small := sized.small
  have size : 64 + byteSize ctx.req < 2 ^ 31 := by omega
  by_cases byId : ctx.cmdId > 0
  · have made : sendData mem cmdBase ctx = some ({ cmdBase with cmdId := ctx.cmdId, seqId := ctx.seqId },
        serializeCmdBaseVector mem { cmdBase with cmdId := ctx.cmdId, seqId := ctx.seqId } ctx.req) := by
      simp [sendData, byId]
    have head' := head.byId ctx.cmdId ctx.seqId
    have old : (if cmdBase.cmdName.data = 0 then [] else cmdBase.cmdName.bytes mem) = [] ↔
        ¬ 0 < cmdBase.cmdName.len := name_nil_iff head
    rw [spoilt_iff_head head' size made, CmdBase.Mixes, if_pos byId, not_iff_comm, ← old,
      contentWith_eq head']
    constructor
    · intro empty
      have none : cmdBase.cmdName.len.toNat = 0 := by
        have zero := old.mp empty
        rw [UInt32.pos_iff_ne_zero, not_not] at zero
        rw [zero]
        rfl
      have short := head'.encoding_lt mem ctx.req
      simp only [none] at short
      refine ⟨by omega, ?_⟩
      simp only [empty, ReqCtx.content, sized.byId byId]
    · rintro ⟨-, same⟩
      have name := congrArg Content.cmdName same
      simpa [ReqCtx.content, sized.byId byId] using name
  · have zero : ctx.cmdId = 0 := by
      by_contra some
      exact byId (UInt64.pos_iff_ne_zero.mpr some)
    rw [CmdBase.Mixes, if_neg byId]
    by_cases null : ctx.cmdName = 0
    · have none : sendData mem cmdBase ctx = none := by simp [sendData, byId, null]
      simp [none, null]
    · let named : CmdBase := { cmdBase with
        cmdName := initRefStr ctx.cmdName ctx.name.length
        seqId := ctx.seqId }
      have made : sendData mem cmdBase ctx =
          some (named, serializeCmdBaseVector mem named ctx.req) := by
        simp [sendData, byId, null, named]
      have head' : Head named := head.byName null (by omega) ctx.seqId
      have len : (initRefStr ctx.cmdName ctx.name.length).len.toNat = ctx.name.length := by
        rw [initRefStr, UInt32.toNat_ofNat', Nat.mod_eq_of_lt (by omega)]
      have name : (initRefStr ctx.cmdName ctx.name.length).bytes mem = ctx.name := by
        rw [RefStr.bytes, len]
        exact lies null
      have short := head'.encoding_lt mem ctx.req
      rw [spoilt_iff_head head' size made, or_iff_right null, not_iff_comm, contentWith_eq head']
      constructor
      · intro clean
        have none : cmdBase.cmdId = 0 := by
          by_contra some
          exact clean (UInt64.pos_iff_ne_zero.mpr some)
        rw [show named.cmdName.len.toNat = ctx.name.length from len] at short
        refine ⟨by omega, ?_⟩
        have nonnull : (initRefStr ctx.cmdName ctx.name.length).data ≠ 0 := null
        simp only [named, if_neg nonnull, name, none, ReqCtx.content, zero]
      · rintro ⟨-, same⟩ some
        have number : cmdBase.cmdId = ctx.cmdId := congrArg Content.cmdId same
        rw [number, zero] at some
        exact absurd some (by decide)

end Packet

section Run

variable {c c' : Client} {event : Event} {seqId : UInt64} {tr : List Event}

/-- What holds of all heads and of all pending requests. -/
structure Kept (H : CmdBase → Prop) (P : ReqCtx → Prop) (c : Client) : Prop where
  heads : ∀ ch, H (c.channels ch).cmdBase
  ctxs : ∀ id ctx, c.ctxs id = some ctx → P ctx

section Kept

variable {H : CmdBase → Prop} {P : ReqCtx → Prop}

theorem Kept.setChannel (kept : Kept H P c) {ch : ℕ} {channel : TcpChannel}
    (head : H channel.cmdBase) : Kept H P (c.setChannel ch channel) := by
  refine ⟨fun ch' => ?_, kept.ctxs⟩
  obtain ⟨same, -⟩ | ⟨same, -⟩ := channels_cases c ch channel ch'
  · rwa [same]
  · rw [same]
    exact kept.heads ch'

theorem Kept.finish (kept : Kept H P c) {id val : ℕ} {ctx : ReqCtx}
    {errmsg rsp : Option (List UInt8)} : Kept H P (c.finish id ctx val errmsg rsp) :=
  ⟨kept.heads, fun id' ctx' has => kept.ctxs id' ctx' (finish_ctxs has)⟩

/-- A step keeps it, if it holds of a fresh head and of a new request, and a request leaves it true of
the head. -/
theorem Kept.step (fresh : H freshHead)
    (sends : ∀ mem cmdBase ctx cmdBase' data, H cmdBase → P ctx →
      sendData mem cmdBase ctx = some (cmdBase', data) → H cmdBase')
    (kept : Kept H P c) (step : Step c event c')
    (asks : ∀ command req rsp retcode errmsg, event = .call command req rsp retcode errmsg →
      P (command.ctx req rsp retcode errmsg (c.seqId + 1))) : Kept H P c' := by
  cases Effect.of_step step with
  | call command req rsp retcode errmsg =>
    refine ⟨kept.heads, fun id ctx has => ?_⟩
    by_cases here : id = c.count
    · subst here
      simp only [Client.rpcCall, Function.update_self, Option.some.injEq] at has
      subst has
      exact asks command req rsp retcode errmsg rfl
    · simp only [Client.rpcCall, Function.update_of_ne here] at has
      exact kept.ctxs id ctx has
  | timeout => exact kept.finish
  | quiet event ch channel queue datas head =>
    obtain same | fresh' := head
    · exact kept.setChannel (same ▸ kept.heads ch)
    · exact kept.setChannel (fresh' ▸ fresh)
  | swap ch test =>
    have after : Kept H P (c.setChannel ch { c.channels ch with sender := .batch c.reqQueue [] }) :=
      kept.setChannel (kept.heads ch)
    exact ⟨after.heads, after.ctxs⟩
  | send ch mem id queue sendDatas ctx cmdBase data batch pending lies made =>
    apply kept.setChannel
    exact sends _ _ _ _ _ (kept.heads ch) (kept.ctxs id ctx pending) made
  | write ch ok sendDatas channel batch test head =>
    have after : Kept H P (c.setChannel ch channel) := kept.setChannel (head ▸ kept.heads ch)
    exact ⟨after.heads, after.ctxs⟩
  | answer ch packet buffered =>
    have next : Kept H P (c.setChannel ch ((c.channels ch).readNext buffered)) :=
      kept.setChannel (kept.heads ch)
    exact next.finish
  | crashSend => exact ⟨kept.heads, kept.ctxs⟩
  | crashRead => exact ⟨kept.heads, kept.ctxs⟩

theorem kept_of_run (fresh : H freshHead)
    (sends : ∀ mem cmdBase ctx cmdBase' data, H cmdBase → P ctx →
      sendData mem cmdBase ctx = some (cmdBase', data) → H cmdBase')
    (run : Run seqId tr c)
    (asks : ∀ c command req rsp retcode errmsg, .call command req rsp retcode errmsg ∈ tr →
      P (command.ctx req rsp retcode errmsg c)) : Kept H P c := by
  induction run with
  | init => exact ⟨fun ch => fresh, by simp [Client.start]⟩
  | step run step ih =>
    have before := ih fun number command req rsp retcode errmsg mem =>
      asks number command req rsp retcode errmsg (List.mem_append_left _ mem)
    exact before.step fresh sends step fun command req rsp retcode errmsg same =>
      asks _ command req rsp retcode errmsg (by simp [same])

end Kept

theorem head_fresh : Head freshHead := ⟨rfl, rfl, rfl, rfl, by decide, by decide⟩

theorem Head.sendData {cmdBase cmdBase' : CmdBase} {mem : ℤ → UInt8} {ctx : ReqCtx} {data : Grown}
    (head : Head cmdBase) (sized : Sized ctx)
    (made : sendData mem cmdBase ctx = some (cmdBase', data)) : Head cmdBase' := by
  have small := sized.small
  unfold Duplex.sendData at made
  by_cases byId : ctx.cmdId > 0
  · simp only [byId, if_true, Option.map_some, Option.some.injEq, Prod.mk.injEq] at made
    exact made.1 ▸ head.byId ctx.cmdId ctx.seqId
  · by_cases null : ctx.cmdName = 0
    · simp [byId, null] at made
    · simp only [byId, null, if_false, Option.map_some, Option.some.injEq, Prod.mk.injEq] at made
      exact made.1 ▸ head.byName null (by omega) ctx.seqId

theorem Command.sized {command : Command} {req : Option Message} {rsp retcode errmsg : Bool}
    (number : UInt64) (small : 64 + command.name.length + byteSize req < 2 ^ 31) :
    Sized (command.ctx req rsp retcode errmsg number) := by
  cases command with
  | byId cmdId => exact ⟨small, fun _ => rfl⟩
  | byName cmdName name => exact ⟨small, fun some => absurd some (by simp [Command.ctx])⟩

/-- Where no call is too large, all heads are heads of requests. -/
theorem prepared_of_run (run : Run seqId tr c) (small : ∀ event ∈ tr, 64 + event.size < 2 ^ 31) :
    Kept Head Sized c := by
  refine kept_of_run head_fresh (fun _ _ _ _ _ head sized made => head.sendData sized made) run ?_
  intro number command req rsp retcode errmsg mem
  exact Command.sized number (by simpa [Event.size, Nat.add_assoc] using small _ mem)

/-- Where the heads are heads of requests, a request is spoilt exactly when its head has old fields. -/
theorem spoils_iff (prepared : Kept Head Sized c) : Spoils c event ↔ Mixes c event := by
  have same : ∀ {cmdBase mem ctx}, Takes c event cmdBase mem ctx →
      ((∀ cmdBase' data, sendData mem cmdBase ctx = some (cmdBase', data) →
        data.ret = 0 ∧ data.out ≠ [] ∧ ¬ ctx.In data.out) ↔ CmdBase.Mixes cmdBase ctx) := by
    rintro cmdBase mem ctx ⟨ch, id, queue, sendDatas, -, -, -, rfl, pending, lies⟩
    exact spoilt_iff (prepared.heads ch) (prepared.ctxs id ctx pending) lies
  constructor
  · rintro ⟨cmdBase, mem, ctx, takes, spoilt⟩
    exact ⟨cmdBase, mem, ctx, takes, (same takes).mp spoilt⟩
  · rintro ⟨cmdBase, mem, ctx, takes, mixes⟩
    exact ⟨cmdBase, mem, ctx, takes, (same takes).mpr mixes⟩

theorem not_mixes_of_numbers (numbers : ∀ command req rsp retcode errmsg,
    .call command req rsp retcode errmsg ∈ tr → ∃ cmdId, command = .byId cmdId ∧ 0 < cmdId) :
    ¬ Happens seqId Mixes tr := by
  rintro ⟨pre, event, post, c, split, run, cmdBase, mem, ctx, takes, mixes⟩
  obtain ⟨ch, id, queue, sendDatas, -, -, -, rfl, pending, -⟩ := takes
  have kept : Kept (fun cmdBase => cmdBase.cmdName.len = 0) (fun ctx => 0 < ctx.cmdId) c := by
    refine kept_of_run rfl ?_ run fun number command req rsp retcode errmsg mem => ?_
    · intro mem cmdBase ctx cmdBase' data nameless byId made
      simp only [sendData, gt_iff_lt, byId, if_true, Option.map_some, Option.some.injEq,
        Prod.mk.injEq] at made
      exact made.1 ▸ nameless
    · obtain ⟨cmdId, rfl, some⟩ := numbers command req rsp retcode errmsg (by simp [split, mem])
      exact some
  rw [CmdBase.Mixes, if_pos (kept.ctxs id ctx pending), kept.heads ch] at mixes
  exact absurd mixes (by decide)

end Run

section Sent

variable {c c' : Client} {event : Event} {seqId : UInt64} {tr tr' : List Event}

theorem Carried.mono {data : ℕ × List UInt8} (carried : Carried seqId tr data) (part : tr <+: tr') :
    Carried seqId tr' data := by
  obtain ⟨ctx, asks, carries⟩ := carried
  exact ⟨ctx, asks.mono part, carries⟩

/-- All contexts are those of calls, and all packets carry requests. -/
structure AllCarried (seqId : UInt64) (tr : List Event) (c : Client) : Prop where
  asked : ∀ id ctx, c.ctxs id = some ctx → Happens seqId (Asks id ctx) tr
  batches : ∀ ch, ∀ data ∈ (c.channels ch).sender.sendDatas, Carried seqId tr data
  sent : ∀ data ∈ c.sent, Carried seqId tr data

theorem AllCarried.mono (all : AllCarried seqId tr c) (part : tr <+: tr') :
    AllCarried seqId tr' c :=
  ⟨fun id ctx has => (all.asked id ctx has).mono part,
    fun ch data mem => (all.batches ch data mem).mono part,
    fun data mem => (all.sent data mem).mono part⟩

theorem AllCarried.setChannel (all : AllCarried seqId tr c) {ch : ℕ} {channel : TcpChannel}
    (datas : ∀ data ∈ channel.sender.sendDatas, Carried seqId tr data) :
    AllCarried seqId tr (c.setChannel ch channel) := by
  refine ⟨all.asked, fun ch' => ?_, all.sent⟩
  obtain ⟨same, -⟩ | ⟨same, -⟩ := channels_cases c ch channel ch'
  · rwa [same]
  · rw [same]
    exact all.batches ch'

theorem AllCarried.finish (all : AllCarried seqId tr c) {id val : ℕ} {ctx : ReqCtx}
    {errmsg rsp : Option (List UInt8)} : AllCarried seqId tr (c.finish id ctx val errmsg rsp) := by
  refine ⟨fun id' ctx' has => all.asked id' ctx' (finish_ctxs has), fun ch data mem => ?_, all.sent⟩
  simp only [Client.finish, Sender.unlink_sendDatas] at mem
  exact all.batches ch data mem

/-- A packet is added for a request that is not spoilt. -/
theorem carried_of_send {ch : ℕ} {mem : ℤ → UInt8} {id : ℕ} {queue : List ℕ}
    {sendDatas : List (ℕ × List UInt8)} {ctx : ReqCtx} {cmdBase : CmdBase} {data : Grown}
    (all : AllCarried seqId tr c) (alive : c.crashed = false)
    (batch : (c.channels ch).sender = .batch (id :: queue) sendDatas)
    (pending : c.ctxs id = some ctx) (lies : ctx.Lies mem)
    (made : sendData mem (c.channels ch).cmdBase ctx = some (cmdBase, data))
    (unspoilt : ¬ Spoils c (.sendNext ch mem)) (sends : data.ret = 0 ∧ data.out ≠ []) :
    Carried seqId tr (id, data.out) := by
  refine ⟨ctx, all.asked id ctx pending, ?_⟩
  by_contra other
  apply unspoilt
  refine ⟨_, mem, ctx, ⟨ch, id, queue, sendDatas, rfl, alive, batch, rfl, pending, lies⟩, ?_⟩
  intro cmdBase' data' made'
  obtain ⟨rfl, rfl⟩ := Prod.mk.inj (Option.some.inj (made.symm.trans made'))
  exact ⟨sends.1, sends.2, other⟩

theorem alive_of_step (step : Step c event c') : c.crashed = false := by
  by_contra crashed
  simp [Step, Client.step, crashed] at step

theorem AllCarried.step (all : AllCarried seqId tr c) (run : Run seqId tr c) (step : Step c event c')
    (unspoilt : ¬ Spoils c event) : AllCarried seqId (tr ++ [event]) c' := by
  have alive := alive_of_step step
  have before := all.mono (List.prefix_append tr [event])
  cases Effect.of_step step with
  | call command req rsp retcode errmsg =>
    refine ⟨fun id ctx has => ?_, before.batches, before.sent⟩
    by_cases here : id = c.count
    · subst here
      simp only [Client.rpcCall, Function.update_self, Option.some.injEq] at has
      rw [Happens, Trace.happens_snoc step_functional run]
      exact .inr ⟨rfl, command, req, rsp, retcode, errmsg, rfl, has.symm⟩
    · simp only [Client.rpcCall, Function.update_of_ne here] at has
      exact before.asked id ctx has
  | timeout => exact before.finish
  | quiet event ch channel queue datas =>
    exact before.setChannel fun data mem => before.batches ch data (datas ▸ mem)
  | swap ch test =>
    have after : AllCarried seqId _ (c.setChannel ch
        { c.channels ch with sender := .batch c.reqQueue [] }) :=
      before.setChannel (by simp [Sender.sendDatas])
    exact ⟨after.asked, after.batches, after.sent⟩
  | send ch mem id queue sendDatas ctx cmdBase data batch pending lies made =>
    refine before.setChannel fun data' mem' => ?_
    have old : ∀ data ∈ sendDatas, Carried seqId (tr ++ [.sendNext ch mem]) data := by
      have here := before.batches ch
      rwa [batch] at here
    simp only [Sender.sendDatas] at mem'
    split at mem'
    case isTrue sends =>
      obtain inOld | inNew := List.mem_append.mp mem'
      · exact old data' inOld
      · rw [List.mem_singleton.mp inNew]
        exact carried_of_send before alive batch pending lies made unspoilt sends
    case isFalse => exact old data' mem'
  | write ch ok sendDatas channel batch test =>
    have after : AllCarried seqId _ (c.setChannel ch channel) :=
      before.setChannel (by simp [test, Sender.sendDatas])
    refine ⟨after.asked, after.batches, fun data mem => ?_⟩
    obtain inOld | inNew := List.mem_append.mp mem
    · exact before.sent data inOld
    · have here := before.batches ch data
      rw [batch] at here
      exact here inNew
  | answer ch packet buffered =>
    have next : AllCarried seqId _ (c.setChannel ch ((c.channels ch).readNext buffered)) :=
      before.setChannel (before.batches ch)
    exact next.finish
  | crashSend => exact ⟨before.asked, before.batches, before.sent⟩
  | crashRead => exact ⟨before.asked, before.batches, before.sent⟩

theorem allCarried_of_run (run : Run seqId tr c) (unspoilt : ¬ Happens seqId Spoils tr) :
    AllCarried seqId tr c := by
  induction run with
  | init => exact ⟨by simp [Client.start], by simp [Client.start, Sender.sendDatas], by simp [Client.start]⟩
  | step run step ih =>
    rw [Happens, Trace.happens_snoc step_functional run, not_or] at unspoilt
    exact (ih unspoilt.1).step run step unspoilt.2

theorem faithful_iff : Faithful seqId tr ↔ ¬ Happens seqId Spoils tr :=
  ⟨Faithful.turns, fun unspoilt => ⟨unspoilt, fun _ run => (allCarried_of_run run unspoilt).sent⟩⟩

theorem spoils_happens_iff (small : ∀ event ∈ tr, 64 + event.size < 2 ^ 31) :
    Happens seqId Spoils tr ↔ Happens seqId Mixes tr :=
  Trace.happens_congr fun _ _ _ part run =>
    spoils_iff (prepared_of_run run fun event mem => small event (part.subset mem))

end Sent

/-- The packets carry the requests that they are made for exactly when no head has a field from a
request before that its request does not set. -/
theorem faithful_iff_not_mixes (seqId : UInt64) (tr : List Event)
    (small : ∀ event ∈ tr, 64 + event.size < 2 ^ 31) : Faithful seqId tr ↔ ¬ Happens seqId Mixes tr := by
  rw [faithful_iff, spoils_happens_iff small]

/-- Two calls by number, sent with one `write_all`. -/
def numberEvents : List Event :=
  [.call (.byId 1) none true true true, .call (.byId 2) none true true true, .connect 0, .sendTest 0,
    .sendNext 0 fun _ => 0, .sendNext 0 fun _ => 0, .writeAll 0 true]

theorem numberEvents_faithful : Faithful 0 numberEvents := by
  apply (faithful_iff_not_mixes 0 numberEvents ?_).mpr
  · apply not_mixes_of_numbers
    intro command req rsp retcode errmsg mem
    simp only [numberEvents, List.mem_cons, Event.call.injEq, reduceCtorEq, List.not_mem_nil,
      or_false] at mem
    obtain ⟨rfl, -⟩ | ⟨rfl, -⟩ := mem
    · exact ⟨1, rfl, by decide⟩
    · exact ⟨2, rfl, by decide⟩
  · decide

/-- A call by number and a call by name, sent with one `write_all`. -/
def mixedEvents : List Event :=
  [.call (.byId 1) none true true true, .call (.byName 5 [97]) none true true true, .connect 0,
    .sendTest 0, .sendNext 0 fun _ => 97]

/-- The packet of the call by name has the number of the other. -/
theorem command_changed : ¬ ∀ (seqId : UInt64) (tr : List Event), Faithful seqId tr := by
  intro claim
  obtain ⟨c, reached⟩ : ∃ c, mixedEvents.foldlM Client.step (.start 0) = some c := ⟨_, rfl⟩
  have run : Run 0 mixedEvents c := Trace.of_foldlM reached
  have small : ∀ event ∈ mixedEvents, 64 + event.size < 2 ^ 31 := by decide
  have mixes : Mixes c (.sendNext 0 fun _ => 97) := by
    obtain rfl := Option.some.inj reached
    refine ⟨_, _, Command.ctx none true true true 2 (.byName 5 [97]),
      ⟨0, 1, [], _, rfl, rfl, rfl, rfl, rfl, ?_⟩, ?_⟩
    · decide
    · exact .inr (by decide)
  apply (claim 0 (mixedEvents ++ [.sendNext 0 fun _ => 97])).turns
  exact ⟨mixedEvents, _, [], c, rfl, run, (spoils_iff (prepared_of_run run small)).mpr mixes⟩

end Conet.Svrkit.Duplex
