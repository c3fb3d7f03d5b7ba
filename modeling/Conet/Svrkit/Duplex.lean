/- Module: Conet/Svrkit/Duplex
   source: svrkit/src/rpc_pb_client_duplex.cpp, svrkit/rpc_pb_client_duplex.h, base/hash_table_base.h
   digest: The duplex RPC client: its calls, their contexts and its channels, step by step. -/

import Conet.Lib.Trace
import Conet.Svrkit.CmdBaseSchema
import Mathlib.Logic.Function.Basic

set_option autoImplicit false
set_option relaxedAutoImplicit false

namespace Conet.Svrkit.Duplex

open Conet.Lib Conet.Svrkit.CmdBase Conet.Svrkit.CmdBaseSchema

/-- The two functions `rpc_call`. A name is a pointer, 0 if it is null, and the characters that it
points to as long as the call lasts. -/
inductive Command
  | byId (cmdId : UInt64)
  | byName (cmdName : ℤ) (name : List UInt8)
  deriving DecidableEq

/-- `ReqCtx`: of the pointers `m_rsp`, `m_retcode` and `m_errmsg`, whether they are not null. -/
structure ReqCtx where
  cmdName : ℤ
  name : List UInt8
  cmdId : UInt64
  req : Option Message
  rsp : Bool
  retcode : Bool
  errmsg : Bool
  seqId : UInt64

/-- The context that the two functions `rpc_call` begin, and `rpc_call_base` completes. -/
def Command.ctx (req : Option Message) (rsp retcode errmsg : Bool) (seqId : UInt64) :
    Command → ReqCtx
  | .byId cmdId => ⟨0, [], cmdId, req, rsp, retcode, errmsg, seqId⟩
  | .byName cmdName name => ⟨cmdName, name, 0, req, rsp, retcode, errmsg, seqId⟩

/-- What a call has returned, and what it has written through its pointers. `rsp` is the text that the
response message is parsed from. -/
structure Returned where
  id : ℕ
  seqId : UInt64
  ret : ℤ
  retcode : Option UInt32
  errmsg : Option (List UInt8)
  rsp : Option (List UInt8)
  deriving DecidableEq

/-- Where `send_proc` is: at its end, at the test of its loop, in `wait_on`, or in its loop over the
local queue, with what is in `send_datas`. -/
inductive Sender
  | ended
  | test
  | waits
  | batch (queue : List ℕ) (sendDatas : List (ℕ × List UInt8))
  deriving DecidableEq

/-- Where `read_proc` is: at its end, at the test of its loop, in `co_poll`, or in the loop of
`read_rsp`, with a packet and those that `next_packet` will return. -/
inductive Reader
  | ended
  | test
  | polls
  | reading (packet : List UInt8) (buffered : List (List UInt8))
  deriving DecidableEq

structure TcpChannel where
  connected : Bool
  stopFlag : Bool
  readStop : Bool
  sendStop : Bool
  cmdBase : CmdBase
  sender : Sender
  reader : Reader
  deriving DecidableEq

/-- `RpcPbClientDuplex`. A call is known by its number, under which `ctxs` has its context as long as
it lasts; `timers` are the calls with an armed timer. What has been passed to `write_all`, and what
the calls have returned, is kept. -/
structure Client where
  seqId : UInt64
  count : ℕ
  ctxs : ℕ → Option ReqCtx
  inQueue : List ℕ
  reqQueue : List ℕ
  timers : List ℕ
  channels : ℕ → TcpChannel
  sent : List (ℕ × List UInt8)
  returned : List Returned
  crashed : Bool

/-- The head that `send_proc` starts with, of the type `REQUEST_TYPE`. -/
def freshHead : CmdBase := { CmdBase.init with type := 1 }

/-- The constructor of `RpcPbClientDuplex`, and channels that are not connected yet. -/
def Client.start (seqId : UInt64) : Client where
  seqId := seqId
  count := 0
  ctxs := fun _ => none
  inQueue := []
  reqQueue := []
  timers := []
  channels := fun _ => ⟨false, false, false, false, freshHead, .ended, .ended⟩
  sent := []
  returned := []
  crashed := false

section Calls

/-- `list_del_init(&req_ctx.m_link)`, in the local queue of a sender. -/
def Sender.unlink (id : ℕ) : Sender → Sender
  | .batch queue sendDatas => .batch (queue.filter (· ≠ id)) sendDatas
  | sender => sender

namespace Client

variable (c : Client)

/-- `rpc_call_base`, up to `yield`; the wake-up of the senders is a step of its own. -/
def rpcCall (command : Command) (req : Option Message) (rsp retcode errmsg : Bool) : Client :=
  let seqId := c.seqId + 1
  { c with
    seqId := seqId
    count := c.count + 1
    ctxs := Function.update c.ctxs c.count (some (command.ctx req rsp retcode errmsg seqId))
    inQueue := c.count :: c.inQueue
    reqQueue := c.reqQueue ++ [c.count]
    timers := c.count :: c.timers }

/-- `m_in_queue.find`: the node that was added last comes first. -/
def find (seqId : UInt64) : Option ℕ :=
  c.inQueue.find? fun id => (c.ctxs id).any fun ctx => ctx.seqId = seqId

/-- The end of `rpc_call_base`: `resume` has passed `val` to the call, 1 from the timer. -/
def finish (id : ℕ) (ctx : ReqCtx) (val : ℕ) (errmsg rsp : Option (List UInt8)) : Client :=
  { c with
    ctxs := Function.update c.ctxs id none
    timers := c.timers.filter (· ≠ id)
    reqQueue := c.reqQueue.filter (· ≠ id)
    channels := fun ch =>
      { c.channels ch with sender := (c.channels ch).sender.unlink id }
    inQueue := c.inQueue.filter (· ≠ id)
    returned := c.returned ++ [{
      id := id
      seqId := ctx.seqId
      ret := if val = 1 then -1 else 0
      retcode := none
      errmsg := errmsg
      rsp := rsp }] }

/-- `proc_req_timeout`, when the wheel fires the timer of a call. -/
def procReqTimeout (id : ℕ) : Option Client :=
  if id ∈ c.timers then (c.ctxs id).map fun ctx => c.finish id ctx 1 none none else none

end Client

end Calls

section Channels

namespace Client

variable (c : Client)

def setChannel (ch : ℕ) (channel : TcpChannel) : Client :=
  { c with channels := Function.update c.channels ch channel }

/-- The loop of `mgr_proc`, where both coroutines have ended: it has connected, and starts `send_proc`
and `read_proc`. -/
def connect (ch : ℕ) : Option Client :=
  let channel := c.channels ch
  if channel.connected = false ∧ channel.stopFlag = false ∧ channel.sender = .ended ∧
      channel.reader = .ended then
    some (c.setChannel ch { channel with
      connected := true
      readStop := false
      sendStop := false
      cmdBase := freshHead
      sender := .test
      reader := .test })
  else none

/-- `mgr_proc` closes the connection when both have ended. -/
def close (ch : ℕ) : Option Client :=
  let channel := c.channels ch
  if channel.connected = true ∧ channel.sender = .ended ∧ channel.reader = .ended then
    some (c.setChannel ch { channel with connected := false })
  else none

/-- The test of the loop of `send_proc`, and the swap of the queues. -/
def sendTest (ch : ℕ) : Option Client :=
  let channel := c.channels ch
  if channel.sender = .test then
    if channel.stopFlag = false ∧ channel.readStop = false then
      if c.reqQueue = [] then some (c.setChannel ch { channel with sender := .waits })
      else
        some { c.setChannel ch { channel with sender := .batch c.reqQueue [] } with reqQueue := [] }
    else some (c.setChannel ch { channel with sender := .ended, sendStop := true })
  else none

def wake (ch : ℕ) : Option Client :=
  let channel := c.channels ch
  if channel.sender = .waits then some (c.setChannel ch { channel with sender := .test }) else none

end Client

/-- The head for a request, and its packet; nothing if `strlen` is called with a null pointer. -/
def sendData (mem : ℤ → UInt8) (cmdBase : CmdBase) (ctx : ReqCtx) : Option (CmdBase × Grown) :=
  let named :=
    if ctx.cmdId > 0 then some { cmdBase with cmdId := ctx.cmdId }
    else if ctx.cmdName = 0 then none
    else some { cmdBase with cmdName := initRefStr ctx.cmdName ctx.name.length }
  named.map fun cmdBase =>
    let cmdBase := { cmdBase with seqId := ctx.seqId }
    (cmdBase, serializeCmdBaseVector mem cmdBase ctx.req)

/-- The name of a request is where its pointer points to. -/
def ReqCtx.Lies (ctx : ReqCtx) (mem : ℤ → UInt8) : Prop :=
  ctx.cmdName ≠ 0 → slice mem ctx.cmdName ctx.name.length = ctx.name

instance (ctx : ReqCtx) (mem : ℤ → UInt8) : Decidable (ctx.Lies mem) :=
  inferInstanceAs (Decidable (_ → _))

/-- What `co_poll` and `read_packet` come to: nothing yet, an error, or a packet and those behind it
in the buffer. -/
inductive Arrival
  | nothing
  | fails
  | packets (packet : List UInt8) (buffered : List (List UInt8))
  deriving DecidableEq

/-- `read_proc` ends. -/
def TcpChannel.readEnds (channel : TcpChannel) : TcpChannel :=
  { channel with readStop := true, reader := .ended }

/-- `read_rsp` goes on to the next packet, or returns 0. -/
def TcpChannel.readNext (channel : TcpChannel) (buffered : List (List UInt8)) : TcpChannel :=
  { channel with
    reader := match buffered with
      | [] => .test
      | packet :: buffered => .reading packet buffered }

namespace Client

variable (c : Client)

/-- A turn of the loop over the local queue of `send_proc`, in which the memory is `mem`. -/
def sendNext (ch : ℕ) (mem : ℤ → UInt8) : Option Client :=
  let channel := c.channels ch
  match channel.sender with
  | .batch (id :: queue) sendDatas =>
    match c.ctxs id with
    | some ctx =>
      if ctx.Lies mem then
        match sendData mem channel.cmdBase ctx with
        | some (cmdBase, data) =>
          let sendDatas :=
            if data.ret = 0 ∧ data.out ≠ [] then sendDatas ++ [(id, data.out)] else sendDatas
          some (c.setChannel ch { channel with
            cmdBase := cmdBase
            sender := .batch queue sendDatas })
        | none => some { c with crashed := true }
      else none
    | none => some { c with crashed := true }
  | _ => none

/-- The call of `write_all` behind the loop; `ok` is that it does not fail. -/
def writeAll (ch : ℕ) (ok : Bool) : Option Client :=
  let channel := c.channels ch
  match channel.sender with
  | .batch [] sendDatas =>
    some { c.setChannel ch { channel with
        readStop := channel.readStop || (sendDatas ≠ [] && !ok)
        sender := .test } with
      sent := c.sent ++ sendDatas }
  | _ => none

/-- The test of the loop of `read_proc`. -/
def readTest (ch : ℕ) : Option Client :=
  let channel := c.channels ch
  if channel.reader = .test then
    if channel.stopFlag = false ∧ channel.sendStop = false then
      some (c.setChannel ch { channel with reader := .polls })
    else some (c.setChannel ch channel.readEnds)
  else none

def arrive (ch : ℕ) (arrival : Arrival) : Option Client :=
  let channel := c.channels ch
  if channel.reader = .polls then
    match arrival with
    | .nothing => some (c.setChannel ch { channel with reader := .test })
    | .fails => some (c.setChannel ch channel.readEnds)
    | .packets packet buffered =>
      some (c.setChannel ch { channel with reader := .reading packet buffered })
  else none

/-- A turn of the loop of `read_rsp`. The call that is resumed runs to its end before the next
packet is looked for. -/
def readRsp (ch : ℕ) : Option Client :=
  let channel := c.channels ch
  match channel.reader with
  | .reading packet buffered =>
    if packet = [] then some (c.setChannel ch { channel with reader := .test })
    else
      match Schema.decode packet with
      | none => some (c.setChannel ch channel.readEnds)
      | some respBase =>
        let resp := respBase.values
        match c.find resp.seqId with
        | none => some (c.setChannel ch channel.readEnds)
        | some id =>
          match c.ctxs id with
          | none => some { c with crashed := true }
          | some ctx =>
            let errmsg := if resp.ret ≠ 0 ∧ ctx.errmsg = true then some resp.errmsg else none
            let rsp := if ctx.rsp = true then some resp.body else none
            some ((c.setChannel ch (channel.readNext buffered)).finish id ctx 0 errmsg rsp)
  | _ => none

/-- `TcpChannel::stop` sets the flag. -/
def stop (ch : ℕ) : Client := c.setChannel ch { c.channels ch with stopFlag := true }

end Client

end Channels

section Steps

inductive Event
  | call (command : Command) (req : Option Message) (rsp retcode errmsg : Bool)
  | timeout (id : ℕ)
  | connect (ch : ℕ)
  | close (ch : ℕ)
  | stop (ch : ℕ)
  | sendTest (ch : ℕ)
  | wake (ch : ℕ)
  | sendNext (ch : ℕ) (mem : ℤ → UInt8)
  | writeAll (ch : ℕ) (ok : Bool)
  | readTest (ch : ℕ)
  | arrive (ch : ℕ) (arrival : Arrival)
  | readRsp (ch : ℕ)

/-- A step; there is none any more when a null pointer has been used. -/
def Client.step (c : Client) (event : Event) : Option Client :=
  if c.crashed then none
  else
    match event with
    | .call command req rsp retcode errmsg => some (c.rpcCall command req rsp retcode errmsg)
    | .timeout id => c.procReqTimeout id
    | .connect ch => c.connect ch
    | .close ch => c.close ch
    | .stop ch => some (c.stop ch)
    | .sendTest ch => c.sendTest ch
    | .wake ch => c.wake ch
    | .sendNext ch mem => c.sendNext ch mem
    | .writeAll ch ok => c.writeAll ch ok
    | .readTest ch => c.readTest ch
    | .arrive ch arrival => c.arrive ch arrival
    | .readRsp ch => c.readRsp ch

def Step (c : Client) (event : Event) (c' : Client) : Prop := c.step event = some c'

theorem step_functional (c : Client) (event : Event) (c₁ c₂ : Client) (step₁ : Step c event c₁)
    (step₂ : Step c event c₂) : c₁ = c₂ :=
  Option.some.inj (step₁.symm.trans step₂)

abbrev Run (seqId : UInt64) (tr : List Event) (c : Client) : Prop :=
  Trace (Client.start seqId) Step tr c

/-- In the run of `tr`, this happens. -/
abbrev Happens (seqId : UInt64) (P : Client → Event → Prop) (tr : List Event) : Prop :=
  Trace.Happens (Client.start seqId) Step P tr

end Steps

section Effects

def Sender.queue : Sender → List ℕ
  | .batch queue _ => queue
  | _ => []

def Sender.sendDatas : Sender → List (ℕ × List UInt8)
  | .batch _ sendDatas => sendDatas
  | _ => []

@[simp] theorem Sender.unlink_queue (id : ℕ) (sender : Sender) :
    (sender.unlink id).queue = sender.queue.filter (· ≠ id) := by
  cases sender <;> rfl

@[simp] theorem Sender.unlink_sendDatas (id : ℕ) (sender : Sender) :
    (sender.unlink id).sendDatas = sender.sendDatas := by
  cases sender <;> rfl

section Access

variable {c : Client} {ch id : ℕ}

@[simp] theorem setChannel_self (channel : TcpChannel) :
    (c.setChannel ch channel).channels ch = channel := by
  simp [Client.setChannel]

theorem setChannel_other {ch' : ℕ} (other : ch' ≠ ch) (channel : TcpChannel) :
    (c.setChannel ch channel).channels ch' = c.channels ch' := by
  simp [Client.setChannel, Function.update_of_ne other]

theorem channels_cases (c : Client) (ch : ℕ) (channel : TcpChannel) (ch' : ℕ) :
    (c.setChannel ch channel).channels ch' = channel ∧ ch' = ch ∨
      (c.setChannel ch channel).channels ch' = c.channels ch' ∧ ch' ≠ ch := by
  by_cases here : ch' = ch
  · exact .inl ⟨here ▸ setChannel_self channel, here⟩
  · exact .inr ⟨setChannel_other here channel, here⟩

/-- A context that is left when a call has returned was there before. -/
theorem finish_ctxs {ctx ctx' : ReqCtx} {val id' : ℕ} {errmsg rsp : Option (List UInt8)}
    (has : (c.finish id ctx val errmsg rsp).ctxs id' = some ctx') : c.ctxs id' = some ctx' := by
  by_cases here : id' = id
  · subst here
    simp [Client.finish] at has
  · simpa [Client.finish, here] using has

end Access

/-- The packet that a channel has before it is a response with this number. -/
def Client.Carries (c : Client) (ch : ℕ) (seqId : UInt64) : Prop :=
  ∃ packet buffered respBase, (c.channels ch).reader = .reading packet buffered ∧ packet ≠ [] ∧
    Schema.decode packet = some respBase ∧ respBase.values.seqId = seqId

/-- What a step can do. `quiet` are the steps that touch no request and no packet to send. -/
inductive Effect (c : Client) : Event → Client → Prop
  | call (command : Command) (req : Option Message) (rsp retcode errmsg : Bool) :
      Effect c (.call command req rsp retcode errmsg) (c.rpcCall command req rsp retcode errmsg)
  | timeout (id : ℕ) (ctx : ReqCtx) (armed : id ∈ c.timers) (pending : c.ctxs id = some ctx) :
      Effect c (.timeout id) (c.finish id ctx 1 none none)
  | quiet (event : Event) (ch : ℕ) (channel : TcpChannel)
      (queue : channel.sender.queue = (c.channels ch).sender.queue)
      (datas : channel.sender.sendDatas = (c.channels ch).sender.sendDatas)
      (head : channel.cmdBase = (c.channels ch).cmdBase ∨ channel.cmdBase = freshHead)
      (reader : event ≠ .connect ch → (c.channels ch).reader = .ended → channel.reader = .ended)
      (missed : ∀ ch' seqId, event = .readRsp ch' → c.Carries ch' seqId → c.find seqId = none)
      (untimed : ∀ id, event ≠ .timeout id) :
      Effect c event (c.setChannel ch channel)
  | swap (ch : ℕ) (test : (c.channels ch).sender = .test) :
      Effect c (.sendTest ch) { c.setChannel ch
        { c.channels ch with sender := .batch c.reqQueue [] } with reqQueue := [] }
  | send (ch : ℕ) (mem : ℤ → UInt8) (id : ℕ) (queue : List ℕ) (sendDatas : List (ℕ × List UInt8))
      (ctx : ReqCtx) (cmdBase : CmdBase) (data : Grown)
      (batch : (c.channels ch).sender = .batch (id :: queue) sendDatas)
      (pending : c.ctxs id = some ctx) (lies : ctx.Lies mem)
      (made : sendData mem (c.channels ch).cmdBase ctx = some (cmdBase, data)) :
      Effect c (.sendNext ch mem) (c.setChannel ch { c.channels ch with
        cmdBase := cmdBase
        sender := .batch queue
          (if data.ret = 0 ∧ data.out ≠ [] then sendDatas ++ [(id, data.out)] else sendDatas) })
  | write (ch : ℕ) (ok : Bool) (sendDatas : List (ℕ × List UInt8)) (channel : TcpChannel)
      (batch : (c.channels ch).sender = .batch [] sendDatas) (test : channel.sender = .test)
      (head : channel.cmdBase = (c.channels ch).cmdBase)
      (reader : channel.reader = (c.channels ch).reader) :
      Effect c (.writeAll ch ok) { c.setChannel ch channel with sent := c.sent ++ sendDatas }
  | answer (ch : ℕ) (packet : List UInt8) (buffered : List (List UInt8)) (respBase : Schema) (id : ℕ)
      (ctx : ReqCtx) (errmsg rsp : Option (List UInt8))
      (reads : (c.channels ch).reader = .reading packet buffered) (full : packet ≠ [])
      (decoded : Schema.decode packet = some respBase)
      (found : c.find respBase.values.seqId = some id) (pending : c.ctxs id = some ctx) :
      Effect c (.readRsp ch)
        ((c.setChannel ch ((c.channels ch).readNext buffered)).finish id ctx 0 errmsg rsp)
  | crashSend (ch : ℕ) (mem : ℤ → UInt8) (id : ℕ) (queue : List ℕ)
      (sendDatas : List (ℕ × List UInt8))
      (batch : (c.channels ch).sender = .batch (id :: queue) sendDatas)
      (bad : ∀ ctx, c.ctxs id = some ctx → sendData mem (c.channels ch).cmdBase ctx = none) :
      Effect c (.sendNext ch mem) { c with crashed := true }
  | crashRead (ch : ℕ) (seqId : UInt64) (id : ℕ) (found : c.find seqId = some id)
      (gone : c.ctxs id = none) : Effect c (.readRsp ch) { c with crashed := true }

variable {c c' : Client}

theorem Effect.of_quiet {event : Event} {ch : ℕ} {channel : TcpChannel}
    (other : ∀ ch' id, event ≠ .readRsp ch' ∧ event ≠ .timeout id)
    (queue : channel.sender.queue = (c.channels ch).sender.queue)
    (datas : channel.sender.sendDatas = (c.channels ch).sender.sendDatas)
    (head : channel.cmdBase = (c.channels ch).cmdBase ∨ channel.cmdBase = freshHead)
    (reader : event ≠ .connect ch → (c.channels ch).reader = .ended → channel.reader = .ended) :
    Effect c event (c.setChannel ch channel) :=
  .quiet event ch channel queue datas head reader (fun ch' _ same => absurd same (other ch' 0).1)
    fun id => (other 0 id).2

theorem Effect.of_sendTest {ch : ℕ} (step : c.sendTest ch = some c') :
    Effect c (.sendTest ch) c' := by
  simp only [Client.sendTest] at step
  split at step
  case isFalse => cases step
  case isTrue test =>
    split at step
    case isFalse =>
      obtain rfl := Option.some.inj step
      exact .of_quiet (by simp) (by rw [test]; rfl) (by rw [test]; rfl) (.inl rfl) fun _ ended => ended
    case isTrue =>
      split at step
      case isTrue =>
        obtain rfl := Option.some.inj step
        exact .of_quiet (by simp) (by rw [test]; rfl) (by rw [test]; rfl) (.inl rfl) fun _ ended => ended
      case isFalse =>
        obtain rfl := Option.some.inj step
        exact .swap ch test

theorem Effect.of_sendNext {ch : ℕ} {mem : ℤ → UInt8} (step : c.sendNext ch mem = some c') :
    Effect c (.sendNext ch mem) c' := by
  simp only [Client.sendNext] at step
  split at step
  case h_2 => cases step
  case h_1 id queue sendDatas batch =>
    split at step
    case h_2 gone =>
      obtain rfl := Option.some.inj step
      exact .crashSend ch mem id queue sendDatas batch fun ctx pending => by simp [gone] at pending
    case h_1 ctx pending =>
      split at step
      case isFalse => cases step
      case isTrue lies =>
        split at step
        case h_2 null =>
          obtain rfl := Option.some.inj step
          exact .crashSend ch mem id queue sendDatas batch fun ctx' pending' => by
            rw [Option.some.inj (pending'.symm.trans pending), null]
        case h_1 cmdBase data made =>
          obtain rfl := Option.some.inj step
          exact .send ch mem id queue sendDatas ctx cmdBase data batch pending lies made

theorem Effect.of_readTest {ch : ℕ} (step : c.readTest ch = some c') : Effect c (.readTest ch) c' := by
  simp only [Client.readTest] at step
  split at step
  case isFalse => cases step
  case isTrue test =>
    split at step
    case isTrue =>
      obtain rfl := Option.some.inj step
      exact .of_quiet (by simp) rfl rfl (.inl rfl) fun _ ended => by simp [test] at ended
    case isFalse =>
      obtain rfl := Option.some.inj step
      exact .of_quiet (by simp) rfl rfl (.inl rfl) fun _ _ => rfl

theorem Effect.of_arrive {ch : ℕ} {arrival : Arrival} (step : c.arrive ch arrival = some c') :
    Effect c (.arrive ch arrival) c' := by
  simp only [Client.arrive] at step
  split at step
  case isFalse => cases step
  case isTrue polls =>
    have none : ∀ channel : TcpChannel, (c.channels ch).reader = .ended → channel.reader = .ended :=
      fun _ ended => by simp [polls] at ended
    cases arrival with
    | nothing =>
      obtain rfl := Option.some.inj step
      exact .of_quiet (by simp) rfl rfl (.inl rfl) fun _ => none _
    | fails =>
      obtain rfl := Option.some.inj step
      exact .of_quiet (by simp) rfl rfl (.inl rfl) fun _ => none _
    | packets packet buffered =>
      obtain rfl := Option.some.inj step
      exact .of_quiet (by simp) rfl rfl (.inl rfl) fun _ => none _

theorem Effect.of_readRsp {ch : ℕ} (step : c.readRsp ch = some c') : Effect c (.readRsp ch) c' := by
  simp only [Client.readRsp] at step
  split at step
  case h_2 => cases step
  case h_1 packet buffered reads =>
    have same : ∀ {ch' seqId}, Event.readRsp ch = .readRsp ch' → c.Carries ch' seqId → packet ≠ [] ∧
        ∃ respBase, Schema.decode packet = some respBase ∧ respBase.values.seqId = seqId := by
      rintro ch' seqId ⟨⟩ ⟨packet', buffered', respBase, reads', full, decoded, number⟩
      obtain ⟨rfl, rfl⟩ := Reader.reading.inj (reads.symm.trans reads')
      exact ⟨full, respBase, decoded, number⟩
    split at step
    case isTrue empty =>
      obtain rfl := Option.some.inj step
      exact .quiet _ ch _ rfl rfl (.inl rfl) (fun _ ended => by simp [reads] at ended)
        (fun _ _ here carries => absurd empty (same here carries).1) (by simp)
    case isFalse full =>
      split at step
      case h_1 bad =>
        obtain rfl := Option.some.inj step
        refine .quiet _ ch _ rfl rfl (.inl rfl) (fun _ _ => rfl) (fun _ _ here carries => ?_) (by simp)
        obtain ⟨respBase, decoded, -⟩ := (same here carries).2
        simp [bad] at decoded
      case h_2 respBase decoded =>
        split at step
        case h_1 unknown =>
          obtain rfl := Option.some.inj step
          refine .quiet _ ch _ rfl rfl (.inl rfl) (fun _ _ => rfl) (fun _ _ here carries => ?_) (by simp)
          obtain ⟨respBase', decoded', rfl⟩ := (same here carries).2
          rw [← Option.some.inj (decoded.symm.trans decoded'), unknown]
        case h_2 id found =>
          split at step
          case h_1 gone =>
            obtain rfl := Option.some.inj step
            exact .crashRead ch _ id found gone
          case h_2 ctx pending =>
            obtain rfl := Option.some.inj step
            exact .answer ch packet buffered respBase id ctx _ _ reads full decoded found pending

theorem Effect.of_step {event : Event} (step : Step c event c') : Effect c event c' := by
  unfold Step Client.step at step
  split at step
  case isTrue => cases step
  case isFalse =>
    cases event with
    | call command req rsp retcode errmsg =>
      obtain rfl := Option.some.inj step
      exact .call command req rsp retcode errmsg
    | timeout id =>
      simp only [Client.procReqTimeout] at step
      split at step
      case isFalse => cases step
      case isTrue armed =>
        obtain ⟨ctx, pending, rfl⟩ := Option.map_eq_some_iff.mp step
        exact .timeout id ctx armed pending
    | connect ch =>
      simp only [Client.connect] at step
      split at step
      case isFalse => cases step
      case isTrue idle =>
        obtain rfl := Option.some.inj step
        exact .of_quiet (by simp) (by rw [idle.2.2.1]; rfl) (by rw [idle.2.2.1]; rfl) (.inr rfl)
          fun other => absurd rfl other
    | close ch =>
      simp only [Client.close] at step
      split at step
      case isFalse => cases step
      case isTrue =>
        obtain rfl := Option.some.inj step
        exact .of_quiet (by simp) rfl rfl (.inl rfl) fun _ ended => ended
    | stop ch =>
      obtain rfl := Option.some.inj step
      exact .of_quiet (by simp) rfl rfl (.inl rfl) fun _ ended => ended
    | sendTest ch => exact .of_sendTest step
    | wake ch =>
      simp only [Client.wake] at step
      split at step
      case isFalse => cases step
      case isTrue waits =>
        obtain rfl := Option.some.inj step
        exact .of_quiet (by simp) (by rw [waits]; rfl) (by rw [waits]; rfl) (.inl rfl) fun _ ended => ended
    | sendNext ch mem => exact .of_sendNext step
    | writeAll ch ok =>
      simp only [Client.writeAll] at step
      split at step
      case h_2 => cases step
      case h_1 sendDatas batch =>
        obtain rfl := Option.some.inj step
        exact .write ch ok sendDatas _ batch rfl rfl rfl
    | readTest ch => exact .of_readTest step
    | arrive ch arrival => exact .of_arrive step
    | readRsp ch => exact .of_readRsp step

end Effects

end Conet.Svrkit.Duplex
