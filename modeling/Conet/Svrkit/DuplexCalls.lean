/- Module: Conet/Svrkit/DuplexCalls
   source: svrkit/src/rpc_pb_client_duplex.cpp, base/hash_table_base.h
   digest: Every call of the duplex client returns once, for its own response or its own timer. -/

import Conet.Lib.Places
import Conet.Svrkit.Duplex

set_option autoImplicit false
set_option relaxedAutoImplicit false

namespace Conet.Svrkit.Duplex

open Conet.Lib Conet.Svrkit.CmdBase Conet.Svrkit.CmdBaseSchema

section Statement

def Client.Returns (c : Client) (id : ℕ) (ret : ℤ) : Prop := ∃ r ∈ c.returned, r.id = id ∧ r.ret = ret

/-- While the call is pending, a response with its number is processed. -/
def Answers (id : ℕ) (c : Client) (event : Event) : Prop :=
  ∃ ch ctx, event = .readRsp ch ∧ c.ctxs id = some ctx ∧ c.Carries ch ctx.seqId

/-- While the call is pending, its timer fires. -/
def Fires (id : ℕ) (c : Client) (event : Event) : Prop := event = .timeout id ∧ c.ctxs id ≠ none

/-- How the calls stand after a run. A call that has not returned is pending, with its timer armed. -/
structure Matched (seqId : UInt64) (tr : List Event) (c : Client) : Prop where
  alive : c.crashed = false
  pending : ∀ id, id < c.count → c.ctxs id ≠ none →
    id ∉ c.returned.map Returned.id ∧ id ∈ c.timers
  resumable : ∀ id, c.ctxs id ≠ none → ∃ c', Step c (.timeout id) c' ∧ c'.Returns id (-1)
  done : ∀ id, id < c.count → c.ctxs id = none → (c.returned.map Returned.id).count id = 1
  answered : ∀ id, c.Returns id 0 ↔ Happens seqId (Answers id) tr
  timedOut : ∀ id, c.Returns id (-1) ↔ Happens seqId (Fires id) tr
  either : ∀ r ∈ c.returned, r.ret = 0 ∨ r.ret = -1
  own : ∀ ch id ctx c', Step c (.readRsp ch) c' → c.ctxs id = some ctx → c'.ctxs id = none →
    c.Carries ch ctx.seqId
  sentOnce : (c.sent.map Prod.fst).Nodup
  unreferenced : ∀ id, c.ctxs id = none →
    id ∉ c.inQueue ∧ id ∉ c.reqQueue ∧ id ∉ c.timers ∧ ∀ ch, id ∉ (c.channels ch).sender.queue

/-- The command is given: its number is not 0, or its name is not a null pointer. -/
def Command.Given : Command → Prop
  | .byId cmdId => cmdId ≠ 0
  | .byName cmdName _ => cmdName ≠ 0

def Nameless (_ : Client) (event : Event) : Prop :=
  ∃ command req rsp retcode errmsg, event = .call command req rsp retcode errmsg ∧ ¬ command.Given

/-- A call whose number a pending call has, which has got it 2^64 calls before. -/
def Wraps (c : Client) (event : Event) : Prop :=
  ∃ command req rsp retcode errmsg, event = .call command req rsp retcode errmsg ∧
    ∃ id ctx, c.ctxs id = some ctx ∧ ctx.seqId = c.seqId + 1

end Statement

section Invariant

/-- Where the number of a request can be: in a queue, with a sender, or in what was sent. -/
inductive Place
  | reqQueue
  | channel (ch : ℕ)
  | sent
  deriving DecidableEq

def Client.places (c : Client) : Place → List ℕ
  | .reqQueue => c.reqQueue
  | .channel ch =>
    (c.channels ch).sender.queue ++ (c.channels ch).sender.sendDatas.map Prod.fst
  | .sent => c.sent.map Prod.fst

/-- All references are to pending calls, every request is in one place at most, and the calls that are
not pending have returned, each once. -/
structure Inv (c : Client) : Prop where
  made : ∀ id, c.ctxs id ≠ none → id < c.count
  inQueue : ∀ id, id ∈ c.inQueue ↔ c.ctxs id ≠ none
  timers : ∀ id, id ∈ c.timers ↔ c.ctxs id ≠ none
  reqQueue : ∀ id ∈ c.reqQueue, c.ctxs id ≠ none
  queue : ∀ ch, ∀ id ∈ (c.channels ch).sender.queue, c.ctxs id ≠ none
  places : Exclusive c.places
  placed : ∀ p, ∀ id ∈ c.places p, id < c.count
  returned : ∀ id, id ∈ c.returned.map Returned.id ↔ id < c.count ∧ c.ctxs id = none
  once : (c.returned.map Returned.id).Nodup

variable {c c' : Client} {ch id : ℕ} {ctx : ReqCtx} {channel : TcpChannel}

theorem Inv.start (seqId : UInt64) : Inv (.start seqId) where
  made := by simp [Client.start]
  inQueue := by simp [Client.start]
  timers := by simp [Client.start]
  reqQueue := by simp [Client.start]
  queue := by simp [Client.start, Sender.queue]
  places := by
    refine Exclusive.empty.mono fun p => ?_
    cases p <;> simp [Client.places, Client.start, Sender.queue, Sender.sendDatas]
  placed := by
    intro p
    cases p <;> simp [Client.places, Client.start, Sender.queue, Sender.sendDatas]
  returned := by simp [Client.start]
  once := by simp [Client.start]

theorem update_ne_none {id' : ℕ} :
    Function.update c.ctxs id (some ctx) id' ≠ none ↔ id' = id ∨ c.ctxs id' ≠ none := by
  by_cases here : id' = id
  · subst here
    simp
  · simp [here]

theorem update_none {id' : ℕ} :
    Function.update c.ctxs id none id' ≠ none ↔ c.ctxs id' ≠ none ∧ id' ≠ id := by
  by_cases here : id' = id
  · subst here
    simp
  · simp [here]

theorem Inv.rpcCall (inv : Inv c) (command : Command) (req : Option Message)
    (rsp retcode errmsg : Bool) : Inv (c.rpcCall command req rsp retcode errmsg) where
  made := by
    intro id pending
    have := (update_ne_none.mp pending).imp_right (inv.made id)
    simp only [Client.rpcCall]
    omega
  inQueue := by
    intro id
    rw [Client.rpcCall, List.mem_cons, inv.inQueue]
    exact update_ne_none.symm
  timers := by
    intro id
    rw [Client.rpcCall, List.mem_cons, inv.timers]
    exact update_ne_none.symm
  reqQueue := by
    intro id mem
    rw [Client.rpcCall, List.mem_append, List.mem_singleton] at mem
    exact update_ne_none.mpr (mem.symm.imp_right (inv.reqQueue id))
  queue := fun ch id mem => update_ne_none.mpr (.inr (inv.queue ch id mem))
  places := by
    have new : ∀ p, c.count ∉ c.places p := fun p mem => by
      have := inv.placed p _ mem
      omega
    have after : (c.rpcCall command req rsp retcode errmsg).places =
        Function.update c.places .reqQueue (c.places .reqQueue ++ [c.count]) := by
      funext p
      cases p <;> rfl
    rw [after]
    exact inv.places.add new _
  placed := by
    intro p id mem
    have old : id ∈ c.places p ∨ id = c.count := by
      cases p with
      | reqQueue =>
        simpa only [Client.places, Client.rpcCall, List.mem_append, List.mem_singleton] using mem
      | channel ch => exact .inl mem
      | sent => exact .inl mem
    have := old.imp_left (inv.placed p id)
    simp only [Client.rpcCall]
    omega
  returned := by
    intro id
    rw [Client.rpcCall, inv.returned]
    by_cases here : id = c.count
    · subst here
      simp
    · simp only [Function.update_of_ne here]
      constructor
      · rintro ⟨lt, done⟩
        exact ⟨by omega, done⟩
      · rintro ⟨lt, done⟩
        exact ⟨by omega, done⟩
  once := inv.once

/-- A channel changes, but neither its local queue nor what it has to send. -/
theorem Inv.setChannel (inv : Inv c) (queue : channel.sender.queue = (c.channels ch).sender.queue)
    (datas : channel.sender.sendDatas = (c.channels ch).sender.sendDatas) :
    Inv (c.setChannel ch channel) := by
  have queues : ∀ ch', ((c.setChannel ch channel).channels ch').sender.queue =
      (c.channels ch').sender.queue := by
    intro ch'
    by_cases here : ch' = ch
    · subst here
      simp [Client.setChannel, queue]
    · simp [Client.setChannel, Function.update_of_ne here]
  have sends : ∀ ch', ((c.setChannel ch channel).channels ch').sender.sendDatas =
      (c.channels ch').sender.sendDatas := by
    intro ch'
    by_cases here : ch' = ch
    · subst here
      simp [Client.setChannel, datas]
    · simp [Client.setChannel, Function.update_of_ne here]
  have places : (c.setChannel ch channel).places = c.places := by
    funext p
    cases p with
    | reqQueue => rfl
    | channel ch' => simp only [Client.places, queues, sends]
    | sent => rfl
  refine ⟨inv.made, inv.inQueue, inv.timers, inv.reqQueue, ?_, ?_, ?_, inv.returned, inv.once⟩
  · intro ch' id mem
    rw [queues] at mem
    exact inv.queue ch' id mem
  · rw [places]
    exact inv.places
  · rw [places]
    exact inv.placed

theorem Inv.finish (inv : Inv c) (pending : c.ctxs id = some ctx) (val : ℕ)
    (errmsg rsp : Option (List UInt8)) : Inv (c.finish id ctx val errmsg rsp) := by
  have less : ∀ p, ((c.finish id ctx val errmsg rsp).places p).Subperm (c.places p) := by
    intro p
    cases p with
    | reqQueue => exact List.filter_sublist.subperm
    | channel ch =>
      simp only [Client.places, Client.finish, Sender.unlink_queue, Sender.unlink_sendDatas]
      exact (List.filter_sublist.append (List.Sublist.refl _)).subperm
    | sent => exact List.Subperm.refl _
  have live : c.ctxs id ≠ none := by simp [pending]
  refine ⟨?_, ?_, ?_, ?_, ?_, inv.places.mono less, ?_, ?_, ?_⟩
  · exact fun id' still => inv.made id' (update_none.mp still).1
  · intro id'
    simp only [Client.finish, List.mem_filter, inv.inQueue, decide_eq_true_eq]
    exact update_none.symm
  · intro id'
    simp only [Client.finish, List.mem_filter, inv.timers, decide_eq_true_eq]
    exact update_none.symm
  · intro id' mem
    simp only [Client.finish, List.mem_filter, decide_eq_true_eq] at mem
    exact update_none.mpr ⟨inv.reqQueue id' mem.1, mem.2⟩
  · intro ch id' mem
    simp only [Client.finish, Sender.unlink_queue, List.mem_filter, decide_eq_true_eq] at mem
    exact update_none.mpr ⟨inv.queue ch id' mem.1, mem.2⟩
  · exact fun p id' mem => inv.placed p id' ((less p).subset mem)
  · intro id'
    simp only [Client.finish, List.map_append, List.mem_append, List.map_cons, List.map_nil,
      List.mem_singleton, inv.returned]
    by_cases here : id' = id
    · subst here
      simp [inv.made id' live]
    · simp [here]
  · simp only [Client.finish, List.map_append, List.map_cons, List.map_nil]
    refine inv.once.append (List.nodup_singleton id) ?_
    rw [List.disjoint_singleton, inv.returned]
    exact fun done => live done.2

theorem Inv.moved (inv : Inv c) (src dst : Place) (other : src ≠ dst)
    (places : c'.places =
      Function.update (Function.update c.places src []) dst (c.places dst ++ c.places src))
    (ctxs : c'.ctxs = c.ctxs) (count : c'.count = c.count) (inQueue : c'.inQueue = c.inQueue)
    (timers : c'.timers = c.timers) (returned : c'.returned = c.returned)
    (reqQueue : ∀ id ∈ c'.reqQueue, c.ctxs id ≠ none)
    (queue : ∀ ch, ∀ id ∈ (c'.channels ch).sender.queue, c.ctxs id ≠ none) : Inv c' := by
  refine ⟨?_, ?_, ?_, ?_, ?_, ?_, ?_, ?_, ?_⟩
  · rw [ctxs, count]
    exact inv.made
  · rw [inQueue, ctxs]
    exact inv.inQueue
  · rw [timers, ctxs]
    exact inv.timers
  · rw [ctxs]
    exact reqQueue
  · rw [ctxs]
    exact queue
  · rw [places]
    exact inv.places.move other
  · intro p id mem
    rw [places] at mem
    rw [count]
    by_cases here : p = dst
    · subst here
      rw [Function.update_self, List.mem_append] at mem
      exact mem.elim (inv.placed _ id) (inv.placed _ id)
    · rw [Function.update_of_ne here] at mem
      by_cases left : p = src
      · subst left
        simp at mem
      · rw [Function.update_of_ne left] at mem
        exact inv.placed p id mem
  · rw [returned, count, ctxs]
    exact inv.returned
  · rw [returned]
    exact inv.once

/-- The queue of requests becomes the local queue of a sender. -/
theorem Inv.swap (inv : Inv c) (test : (c.channels ch).sender = .test) :
    Inv { c.setChannel ch { c.channels ch with sender := .batch c.reqQueue [] } with
      reqQueue := [] } := by
  have cases := channels_cases c ch { c.channels ch with sender := .batch c.reqQueue [] }
  refine inv.moved .reqQueue (.channel ch) (by simp) ?_ rfl rfl rfl rfl rfl (by simp) ?_
  · funext p
    cases p with
    | reqQueue => rfl
    | channel ch' =>
      obtain ⟨same, rfl⟩ | ⟨same, other⟩ := cases ch'
      · simp [Client.places, test, Sender.queue, Sender.sendDatas]
      · simp [Client.places, same, other]
    | sent => rfl
  · intro ch' id mem
    obtain ⟨same, rfl⟩ | ⟨same, other⟩ := cases ch'
    · rw [same] at mem
      exact inv.reqQueue id mem
    · rw [same] at mem
      exact inv.queue ch' id mem

theorem Inv.write (inv : Inv c) {sendDatas : List (ℕ × List UInt8)}
    (batch : (c.channels ch).sender = .batch [] sendDatas) (test : channel.sender = .test) :
    Inv { c.setChannel ch channel with sent := c.sent ++ sendDatas } := by
  have cases := channels_cases c ch channel
  refine inv.moved (.channel ch) .sent (by simp) ?_ rfl rfl rfl rfl rfl inv.reqQueue ?_
  · funext p
    cases p with
    | reqQueue => rfl
    | channel ch' =>
      obtain ⟨same, rfl⟩ | ⟨same, other⟩ := cases ch'
      · simp [Client.places, test, Sender.queue, Sender.sendDatas]
      · simp [Client.places, same, other]
    | sent => simp [Client.places, batch, Sender.queue, Sender.sendDatas]
  · intro ch' id mem
    obtain ⟨same, rfl⟩ | ⟨same, other⟩ := cases ch'
    · rw [same, test] at mem
      simp [Sender.queue] at mem
    · rw [same] at mem
      exact inv.queue ch' id mem

/-- A sender goes through its local queue; `sendDatas'` is with the packet of the request, or without
it. -/
theorem Inv.send (inv : Inv c) {queue : List ℕ} {sendDatas sendDatas' : List (ℕ × List UInt8)}
    (batch : (c.channels ch).sender = .batch (id :: queue) sendDatas)
    (after : channel.sender = .batch queue sendDatas')
    (pushed : sendDatas' = sendDatas ∨ ∃ data, sendDatas' = sendDatas ++ [(id, data)]) :
    Inv (c.setChannel ch channel) := by
  have cases := channels_cases c ch channel
  have less : ∀ p, ((c.setChannel ch channel).places p).Subperm (c.places p) := by
    intro p
    cases p with
    | reqQueue => exact List.Subperm.refl _
    | sent => exact List.Subperm.refl _
    | channel ch' =>
      obtain ⟨same, rfl⟩ | ⟨same, other⟩ := cases ch'
      · simp only [Client.places, same, after, batch, Sender.queue, Sender.sendDatas]
        obtain rfl | ⟨data, rfl⟩ := pushed
        · exact (List.sublist_cons_self _ _).subperm
        · rw [List.map_append, ← List.append_assoc]
          exact List.perm_append_singleton _ _ |>.subperm
      · simp only [Client.places, same]
        exact List.Subperm.refl _
  refine ⟨inv.made, inv.inQueue, inv.timers, inv.reqQueue, ?_, inv.places.mono less, ?_,
    inv.returned, inv.once⟩
  · intro ch' id' mem
    obtain ⟨same, rfl⟩ | ⟨same, other⟩ := cases ch'
    · rw [same, after] at mem
      have earlier : id' ∈ (c.channels ch').sender.queue := by
        rw [batch]
        exact List.mem_cons_of_mem _ mem
      exact inv.queue ch' id' earlier
    · rw [same] at mem
      exact inv.queue ch' id' mem
  · exact fun p id' mem => inv.placed p id' ((less p).subset mem)

theorem Inv.step {event : Event} (inv : Inv c) (step : Step c event c') : Inv c' := by
  cases Effect.of_step step with
  | call command req rsp retcode errmsg => exact inv.rpcCall command req rsp retcode errmsg
  | timeout id ctx armed pending => exact inv.finish pending 1 none none
  | quiet event ch channel queue datas => exact inv.setChannel queue datas
  | swap ch test => exact inv.swap test
  | send ch mem id queue sendDatas ctx cmdBase data batch pending lies made =>
    refine inv.send batch rfl ?_
    split
    case isTrue => exact .inr ⟨data.out, rfl⟩
    case isFalse => exact .inl rfl
  | write ch ok sendDatas channel batch test => exact inv.write batch test
  | answer ch packet buffered respBase id ctx errmsg rsp reads full decoded found pending =>
    have next : Inv (c.setChannel ch ((c.channels ch).readNext buffered)) := inv.setChannel rfl rfl
    exact next.finish pending 0 errmsg rsp
  | crashSend => exact ⟨inv.1, inv.2, inv.3, inv.4, inv.5, inv.6, inv.7, inv.8, inv.9⟩
  | crashRead => exact ⟨inv.1, inv.2, inv.3, inv.4, inv.5, inv.6, inv.7, inv.8, inv.9⟩

end Invariant

section Numbers

variable {c c' : Client} {id : ℕ} {ctx : ReqCtx} {seqId : UInt64} {event : Event}

theorem find_seqId (found : c.find seqId = some id) (pending : c.ctxs id = some ctx) :
    ctx.seqId = seqId := by
  have holds := List.find?_some found
  simpa [pending] using holds

theorem find_ne_none (inv : Inv c) (pending : c.ctxs id = some ctx) :
    c.find ctx.seqId ≠ none := by
  intro none
  have mem := (inv.inQueue id).mpr (by simp [pending])
  have := List.find?_eq_none.mp none id mem
  simp [pending] at this

theorem pending_of_find (inv : Inv c) (found : c.find seqId = some id) : c.ctxs id ≠ none :=
  (inv.inQueue id).mp (List.mem_of_find?_eq_some found)

theorem sendData_ne_none {mem : ℤ → UInt8} {cmdBase : CmdBase}
    (given : 0 < ctx.cmdId ∨ ctx.cmdName ≠ 0) : sendData mem cmdBase ctx ≠ none := by
  unfold sendData
  by_cases byId : ctx.cmdId > 0
  · simp [byId]
  · simp [byId, given.resolve_left byId]

/-- Every pending call has a command and a number of its own, and no null pointer has been used. -/
structure Orderly (c : Client) : Prop where
  given : ∀ id ctx, c.ctxs id = some ctx → 0 < ctx.cmdId ∨ ctx.cmdName ≠ 0
  numbers : ∀ id id' ctx ctx', c.ctxs id = some ctx → c.ctxs id' = some ctx' →
    ctx.seqId = ctx'.seqId → id = id'
  alive : c.crashed = false

theorem Command.ctx_given {command : Command} (given : command.Given) (req : Option Message)
    (rsp retcode errmsg : Bool) (seqId : UInt64) :
    0 < (command.ctx req rsp retcode errmsg seqId).cmdId ∨
      (command.ctx req rsp retcode errmsg seqId).cmdName ≠ 0 := by
  cases command with
  | byId cmdId => exact .inl (UInt64.pos_iff_ne_zero.mpr given)
  | byName cmdName name => exact .inr given

@[simp] theorem Command.ctx_seqId (command : Command) (req : Option Message)
    (rsp retcode errmsg : Bool) (seqId : UInt64) :
    (command.ctx req rsp retcode errmsg seqId).seqId = seqId := by
  cases command <;> rfl

theorem Orderly.less (orderly : Orderly c)
    (less : ∀ id ctx, c'.ctxs id = some ctx → c.ctxs id = some ctx)
    (alive : c'.crashed = c.crashed) : Orderly c' where
  given := fun id ctx has => orderly.given id ctx (less id ctx has)
  numbers := fun id id' ctx ctx' has has' =>
    orderly.numbers id id' ctx ctx' (less id ctx has) (less id' ctx' has')
  alive := alive.trans orderly.alive

theorem Orderly.rpcCall (orderly : Orderly c) {command : Command} (given : command.Given)
    (req : Option Message) (rsp retcode errmsg : Bool)
    (new : ∀ id ctx, c.ctxs id = some ctx → ctx.seqId ≠ c.seqId + 1) :
    Orderly (c.rpcCall command req rsp retcode errmsg) := by
  have cases : ∀ id ctx, (c.rpcCall command req rsp retcode errmsg).ctxs id = some ctx →
      id = c.count ∧ ctx = command.ctx req rsp retcode errmsg (c.seqId + 1) ∨
        c.ctxs id = some ctx := by
    intro id ctx has
    by_cases here : id = c.count
    · subst here
      simp only [Client.rpcCall, Function.update_self, Option.some.injEq] at has
      exact .inl ⟨rfl, has.symm⟩
    · simp only [Client.rpcCall, Function.update_of_ne here] at has
      exact .inr has
  refine ⟨?_, ?_, orderly.alive⟩
  · intro id ctx has
    obtain ⟨-, rfl⟩ | old := cases id ctx has
    · exact Command.ctx_given given req rsp retcode errmsg _
    · exact orderly.given id ctx old
  · intro id id' ctx ctx' has has' same
    obtain ⟨rfl, rfl⟩ | old := cases id ctx has <;> obtain ⟨rfl, rfl⟩ | old' := cases id' ctx' has'
    · rfl
    · exact absurd (same.symm.trans (Command.ctx_seqId ..)) (new id' ctx' old')
    · exact absurd (same.trans (Command.ctx_seqId ..)) (new id ctx old)
    · exact orderly.numbers id id' ctx ctx' old old' same

theorem Orderly.step (orderly : Orderly c) (inv : Inv c) (step : Step c event c')
    (given : ¬ Nameless c event) (new : ¬ Wraps c event) : Orderly c' := by
  cases Effect.of_step step with
  | call command req rsp retcode errmsg =>
    have named : command.Given := by
      by_contra bad
      exact given ⟨command, req, rsp, retcode, errmsg, rfl, bad⟩
    refine orderly.rpcCall named req rsp retcode errmsg fun id ctx has same => ?_
    exact new ⟨command, req, rsp, retcode, errmsg, rfl, id, ctx, has, same⟩
  | timeout id ctx armed pending => exact orderly.less (fun id ctx => finish_ctxs) rfl
  | quiet => exact orderly.less (fun _ _ has => has) rfl
  | swap => exact orderly.less (fun _ _ has => has) rfl
  | send => exact orderly.less (fun _ _ has => has) rfl
  | write => exact orderly.less (fun _ _ has => has) rfl
  | answer => exact orderly.less (fun id ctx => finish_ctxs) rfl
  | crashSend ch mem id queue sendDatas batch bad =>
    have live : c.ctxs id ≠ none := inv.queue ch id (by simp [batch, Sender.queue])
    obtain ⟨ctx, pending⟩ := Option.ne_none_iff_exists'.mp live
    exact absurd (bad ctx pending) (sendData_ne_none (orderly.given id ctx pending))
  | crashRead ch seqId id found gone => exact absurd gone (pending_of_find inv found)

end Numbers

section Run

variable {c c' : Client} {id : ℕ} {event : Event} {seqId : UInt64} {tr : List Event}

theorem returns_finish {ctx : ReqCtx} {val id' : ℕ} {errmsg rsp : Option (List UInt8)} {ret : ℤ} :
    (c.finish id ctx val errmsg rsp).Returns id' ret ↔
      c.Returns id' ret ∨ id' = id ∧ ret = if val = 1 then -1 else 0 := by
  simp only [Client.Returns, Client.finish, List.mem_append, List.mem_singleton]
  constructor
  · rintro ⟨r, old | rfl, same, value⟩
    · exact .inl ⟨r, old, same, value⟩
    · exact .inr ⟨same.symm, value.symm⟩
  · rintro (⟨r, old, same⟩ | ⟨rfl, rfl⟩)
    · exact ⟨r, .inl old, same⟩
    · exact ⟨_, .inr rfl, rfl, rfl⟩

theorem returns_same {ret : ℤ} {p : Prop} (same : c'.returned = c.returned) (no : ¬ p) :
    c'.Returns id ret ↔ c.Returns id ret ∨ p := by
  rw [or_iff_left no, Client.Returns, Client.Returns, same]

/-- A call returns 0 in the step in which it is answered, and only there. -/
theorem returns_zero_step (inv : Inv c) (orderly : Orderly c) (step : Step c event c') :
    c'.Returns id 0 ↔ c.Returns id 0 ∨ Answers id c event := by
  cases Effect.of_step step with
  | call => exact returns_same rfl (by rintro ⟨_, _, ⟨⟩, _⟩)
  | timeout id' ctx armed pending =>
    rw [returns_finish]
    have no : ¬ Answers id c (.timeout id') := by rintro ⟨_, _, ⟨⟩, _⟩
    simp [no]
  | quiet event ch channel queue datas head reader missed =>
    refine returns_same rfl ?_
    rintro ⟨ch', ctx, same, pending, carries⟩
    exact find_ne_none inv pending (missed ch' _ same carries)
  | swap => exact returns_same rfl (by rintro ⟨_, _, ⟨⟩, _⟩)
  | send => exact returns_same rfl (by rintro ⟨_, _, ⟨⟩, _⟩)
  | write => exact returns_same rfl (by rintro ⟨_, _, ⟨⟩, _⟩)
  | answer ch packet buffered respBase id' ctx errmsg rsp reads full decoded found pending =>
    have number := find_seqId found pending
    have answers : Answers id c (.readRsp ch) ↔ id = id' := by
      constructor
      · rintro ⟨_, ctx', ⟨⟩, pending', packet', buffered', respBase', reads', -, decoded', number'⟩
        obtain ⟨rfl, rfl⟩ := Reader.reading.inj (reads.symm.trans reads')
        obtain rfl := Option.some.inj (decoded.symm.trans decoded')
        exact orderly.numbers id id' ctx' ctx pending' pending (number'.symm.trans number.symm)
      · rintro rfl
        exact ⟨ch, ctx, rfl, pending, packet, buffered, respBase, reads, full, decoded, number.symm⟩
    rw [answers, returns_finish]
    simp [Client.Returns, Client.setChannel]
  | crashSend => exact returns_same rfl (by rintro ⟨_, _, ⟨⟩, _⟩)
  | crashRead ch seqId id' found gone => exact absurd gone (pending_of_find inv found)

/-- A call returns -1 in the step in which its timer fires, and only there. -/
theorem returns_minusOne_step (inv : Inv c) (step : Step c event c') :
    c'.Returns id (-1) ↔ c.Returns id (-1) ∨ Fires id c event := by
  cases Effect.of_step step with
  | call => exact returns_same rfl (by rintro ⟨⟨⟩, _⟩)
  | timeout id' ctx armed pending =>
    have fires : Fires id c (.timeout id') ↔ id = id' := by
      constructor
      · rintro ⟨⟨⟩, -⟩
        rfl
      · rintro rfl
        exact ⟨rfl, by simp [pending]⟩
    rw [returns_finish, fires]
    simp
  | quiet event ch channel queue datas head reader missed untimed =>
    exact returns_same rfl fun fires => untimed id fires.1
  | swap => exact returns_same rfl (by rintro ⟨⟨⟩, _⟩)
  | send => exact returns_same rfl (by rintro ⟨⟨⟩, _⟩)
  | write => exact returns_same rfl (by rintro ⟨⟨⟩, _⟩)
  | answer ch packet buffered respBase id' ctx errmsg rsp =>
    have no : ¬ Fires id c (.readRsp ch) := by rintro ⟨⟨⟩, _⟩
    rw [returns_finish]
    simp [no, Client.Returns, Client.setChannel]
  | crashSend => exact returns_same rfl (by rintro ⟨⟨⟩, _⟩)
  | crashRead ch seqId id' found gone => exact absurd gone (pending_of_find inv found)

theorem rets_step (rets : ∀ r ∈ c.returned, r.ret = 0 ∨ r.ret = -1) (step : Step c event c') :
    ∀ r ∈ c'.returned, r.ret = 0 ∨ r.ret = -1 := by
  have finish : ∀ {c : Client} {id : ℕ} {ctx : ReqCtx} (val : ℕ) {errmsg rsp : Option (List UInt8)},
      (∀ r ∈ c.returned, r.ret = 0 ∨ r.ret = -1) →
      ∀ r ∈ (c.finish id ctx val errmsg rsp).returned, r.ret = 0 ∨ r.ret = -1 := by
    intro c id ctx val errmsg rsp rets r mem
    simp only [Client.finish, List.mem_append, List.mem_singleton] at mem
    obtain old | rfl := mem
    · exact rets r old
    · by_cases one : val = 1 <;> simp [one]
  cases Effect.of_step step with
  | call => exact rets
  | timeout => exact finish 1 rets
  | quiet => exact rets
  | swap => exact rets
  | send => exact rets
  | write => exact rets
  | answer => exact finish 0 rets
  | crashSend => exact rets
  | crashRead => exact rets

/-- A response ends no call but the one whose number it carries. -/
theorem readRsp_own {ch : ℕ} {ctx : ReqCtx} (step : Step c (.readRsp ch) c')
    (pending : c.ctxs id = some ctx) (done : c'.ctxs id = none) : c.Carries ch ctx.seqId := by
  generalize same : Event.readRsp ch = event at step
  cases Effect.of_step step with
  | call => cases same
  | timeout => cases same
  | quiet => exact absurd done (by simp [Client.setChannel, pending])
  | swap => cases same
  | send => cases same
  | write => cases same
  | answer ch' packet buffered respBase id' ctx' errmsg rsp reads full decoded found pending' =>
    cases same
    by_cases here : id = id'
    · subst here
      obtain rfl := Option.some.inj (pending.symm.trans pending')
      exact ⟨packet, buffered, respBase, reads, full, decoded, (find_seqId found pending).symm⟩
    · simp [Client.finish, Client.setChannel, here, pending] at done
  | crashSend => exact absurd done (by simp [pending])
  | crashRead => exact absurd done (by simp [pending])

/-- What holds in every state of a run in which all calls have a command, and numbers of their own. -/
structure RunInv (seqId : UInt64) (tr : List Event) (c : Client) : Prop where
  inv : Inv c
  orderly : Orderly c
  rets : ∀ r ∈ c.returned, r.ret = 0 ∨ r.ret = -1
  zero : ∀ id, c.Returns id 0 ↔ Happens seqId (Answers id) tr
  minusOne : ∀ id, c.Returns id (-1) ↔ Happens seqId (Fires id) tr

theorem runInv_of_run (run : Run seqId tr c) (given : ¬ Happens seqId Nameless tr)
    (new : ¬ Happens seqId Wraps tr) : RunInv seqId tr c := by
  induction run with
  | init =>
    have none : ∀ id ret, ¬ (Client.start seqId).Returns id ret := by
      simp [Client.Returns, Client.start]
    refine ⟨.start seqId, ⟨by simp [Client.start], by simp [Client.start], rfl⟩,
      by simp [Client.start], ?_, ?_⟩
    · exact fun id => iff_of_false (none id 0) Trace.not_happens_nil
    · exact fun id => iff_of_false (none id (-1)) Trace.not_happens_nil
  | step run step ih =>
    rw [Happens, Trace.happens_snoc step_functional run, not_or] at given new
    obtain ⟨inv, orderly, rets, zero, minusOne⟩ := ih given.1 new.1
    refine ⟨inv.step step, orderly.step inv step given.2 new.2, rets_step rets step, ?_, ?_⟩
    · intro id
      rw [returns_zero_step inv orderly step, zero, Happens, Happens, Trace.happens_snoc step_functional run]
    · intro id
      rw [returns_minusOne_step inv step, minusOne, Happens, Happens,
        Trace.happens_snoc step_functional run]

end Run

/-- Every call returns once, 0 for its own response and -1 for its own timer; its request is sent once
at most, and nothing refers to it when it has returned. -/
theorem calls_matched (seqId : UInt64) (tr : List Event) (c : Client) (run : Run seqId tr c)
    (given : ¬ Happens seqId Nameless tr) (new : ¬ Happens seqId Wraps tr) : Matched seqId tr c := by
  obtain ⟨inv, orderly, rets, zero, minusOne⟩ := runInv_of_run run given new
  refine ⟨orderly.alive, ?_, ?_, ?_, zero, minusOne, rets, ?_, inv.places.nodup .sent, ?_⟩
  · intro id lt pending
    exact ⟨fun done => pending ((inv.returned id).mp done).2, (inv.timers id).mpr pending⟩
  · intro id pending
    obtain ⟨ctx, has⟩ := Option.ne_none_iff_exists'.mp pending
    refine ⟨c.finish id ctx 1 none none, ?_, returns_finish.mpr (.inr ⟨rfl, rfl⟩)⟩
    simp [Step, Client.step, orderly.alive, Client.procReqTimeout, (inv.timers id).mpr pending, has]
  · intro id lt done
    exact List.count_eq_one_of_mem inv.once ((inv.returned id).mpr ⟨lt, done⟩)
  · intro ch id ctx c' step pending done
    exact readRsp_own step pending done
  · intro id done
    have no : ¬ c.ctxs id ≠ none := not_not.mpr done
    exact ⟨fun mem => no ((inv.inQueue id).mp mem), fun mem => no (inv.reqQueue id mem),
      fun mem => no ((inv.timers id).mp mem), fun ch mem => no (inv.queue ch id mem)⟩

/-- Two calls, of which the first is answered and the second times out. -/
def twoCalls : List Event :=
  [.call (.byId 1) none true true true, .call (.byName 5 []) none true true true, .connect 0,
    .sendTest 0, .sendNext 0 fun _ => 0, .sendNext 0 fun _ => 0, .writeAll 0 true, .readTest 0,
    .arrive 0 (.packets [0x20, 1] []), .readRsp 0, .timeout 1]

theorem calls_matched_two : ∃ c, Run 0 twoCalls c ∧ Matched 0 twoCalls c := by
  obtain ⟨c, reached⟩ : ∃ c, twoCalls.foldlM Client.step (.start 0) = some c := ⟨_, rfl⟩
  have run : Run 0 twoCalls c := Trace.of_foldlM reached
  refine ⟨c, run, calls_matched 0 twoCalls c run ?_ ?_⟩
  · rintro ⟨pre, event, post, s, split, -, command, req, rsp, retcode, errmsg, rfl, bad⟩
    have mem : .call command req rsp retcode errmsg ∈ twoCalls := by
      rw [split]
      simp
    simp only [twoCalls, List.mem_cons, Event.call.injEq, reduceCtorEq, List.not_mem_nil,
      or_false] at mem
    obtain ⟨rfl, -⟩ | ⟨rfl, -⟩ := mem
    · exact bad (show (1 : UInt64) ≠ 0 by decide)
    · exact bad (show (5 : ℤ) ≠ 0 by decide)
  · rintro ⟨pre, event, post, s, split, before, command, req, rsp, retcode, errmsg, rfl, id, ctx, has,
      same⟩
    match pre with
    | [] =>
      obtain rfl := before.unique step_functional .init
      simp [Client.start] at has
    | [first] =>
      obtain ⟨rfl, -⟩ := List.cons.inj split
      obtain rfl := before.unique step_functional (Trace.init.step rfl)
      by_cases zero : id = 0
      · subst zero
        obtain rfl := Option.some.inj has
        exact absurd same (by decide)
      · simp [Client.rpcCall, Client.start, zero] at has
    | first :: second :: pre =>
      have mem : .call command req rsp retcode errmsg ∈ twoCalls.drop 2 := by
        rw [split]
        simp
      simp [twoCalls] at mem

section Needed

/-- A call by the number 0: its name is a null pointer, and is taken for a string. -/
def nullEvents : List Event :=
  [.call (.byId 0) none true true true, .connect 0, .sendTest 0, .sendNext 0 fun _ => 0]

theorem null_not_matched : ¬ ∀ (seqId : UInt64) (tr : List Event) (c : Client), Run seqId tr c →
    ¬ Happens seqId Wraps tr → Matched seqId tr c := by
  intro claim
  obtain ⟨c, reached⟩ : ∃ c, nullEvents.foldlM Client.step (.start 0) = some c := ⟨_, rfl⟩
  have crashed : c.crashed = true := by
    obtain rfl := Option.some.inj reached
    rfl
  have single : ¬ Happens 0 Wraps nullEvents := by
    rintro ⟨pre, event, post, s, split, before, command, req, rsp, retcode, errmsg, rfl, id, ctx, has, -⟩
    cases pre with
    | nil =>
      obtain rfl := before.unique step_functional .init
      simp [Client.start] at has
    | cons first pre =>
      have mem : .call command req rsp retcode errmsg ∈ nullEvents.tail := by
        rw [split]
        simp
      simp [nullEvents] at mem
  have matched := claim 0 nullEvents c (Trace.of_foldlM reached) single
  simp [matched.alive] at crashed

/-- A call whose response is not looked at. -/
def plainCall : Event := .call (.byId 1) none false false false

/-- After `n` calls, of which the first has the number 1. -/
theorem after_calls (n : ℕ) : ∃ c, Run 0 (List.replicate n plainCall) c ∧ c.seqId = UInt64.ofNat n ∧
    c.count = n ∧ c.channels = (Client.start 0).channels ∧ c.returned = [] ∧ c.crashed = false ∧
    (0 < n → ∃ ctx, c.ctxs 0 = some ctx ∧ ctx.seqId = 1) := by
  induction n with
  | zero => exact ⟨.start 0, .init, rfl, rfl, rfl, rfl, rfl, by simp⟩
  | succ n ih =>
    obtain ⟨c, run, seqId, count, channels, returned, alive, first⟩ := ih
    have step : Step c plainCall (c.rpcCall (.byId 1) none false false false) := by
      simp [Step, Client.step, alive, plainCall]
    refine ⟨c.rpcCall (.byId 1) none false false false, ?_, ?_, ?_, channels, returned, alive,
      fun _ => ?_⟩
    · rw [List.replicate_succ']
      exact run.step step
    · simp [Client.rpcCall, seqId]
    · simp [Client.rpcCall, count]
    · by_cases zero : n = 0
      · subst zero
        refine ⟨Command.ctx none false false false (c.seqId + 1) (.byId 1), ?_, ?_⟩
        · simp only [Client.rpcCall, count, Function.update_self]
        · rw [Command.ctx_seqId, seqId]
          rfl
      · obtain ⟨ctx, has, number⟩ := first (by omega)
        have other : 0 ≠ c.count := by omega
        exact ⟨ctx, by simp [Client.rpcCall, Function.update_of_ne other, has], number⟩

/-- A channel that is connected, with its reader somewhere. -/
def readingChannel (reader : Reader) : TcpChannel :=
  ⟨true, false, false, false, freshHead, .test, reader⟩

/-- A response with the number 1 comes when no channel has been used yet. -/
theorem arrive_one {seqId : UInt64} {tr : List Event} {c : Client} (run : Run seqId tr c)
    (alive : c.crashed = false)
    (channels : c.channels = (Client.start 0).channels) :
    ∃ c₁, Run seqId (tr ++ [.connect 0] ++ [.readTest 0] ++ [.arrive 0 (.packets [0x20, 1] [])]) c₁ ∧
      c₁.ctxs = c.ctxs ∧ c₁.inQueue = c.inQueue ∧ c₁.returned = c.returned ∧ c₁.crashed = false ∧
      (c₁.channels 0).reader = .reading [0x20, 1] [] := by
  have connect : Step c (.connect 0) (c.setChannel 0 (readingChannel .test)) := by
    simp [Step, Client.step, alive, Client.connect, channels, Client.start, readingChannel]
  have polls : Step (c.setChannel 0 (readingChannel .test)) (.readTest 0)
      ((c.setChannel 0 (readingChannel .test)).setChannel 0 (readingChannel .polls)) := by
    simp [Step, Client.step, alive, Client.readTest, Client.setChannel, readingChannel]
  have arrive : Step ((c.setChannel 0 (readingChannel .test)).setChannel 0 (readingChannel .polls))
      (.arrive 0 (.packets [0x20, 1] []))
      (((c.setChannel 0 (readingChannel .test)).setChannel 0 (readingChannel .polls)).setChannel 0
        (readingChannel (.reading [0x20, 1] []))) := by
    simp [Step, Client.step, alive, Client.arrive, Client.setChannel, readingChannel]
  refine ⟨_, ((run.step connect).step polls).step arrive, rfl, rfl, rfl, alive, ?_⟩
  simp [Client.setChannel, readingChannel]

theorem wrap_not_matched : ¬ ∀ (seqId : UInt64) (tr : List Event) (c : Client), Run seqId tr c →
    ¬ Happens seqId Nameless tr → Matched seqId tr c := by
  intro claim
  obtain ⟨c, run, seqId, count, channels, returned, alive, first⟩ := after_calls (2 ^ 64)
  obtain ⟨ctx, has, number⟩ := first (by decide)
  -- one call more has the number 1, too
  have step : Step c plainCall (c.rpcCall (.byId 1) none false false false) := by
    simp [Step, Client.step, alive, plainCall]
  have other : 0 ≠ c.count := by omega
  obtain ⟨c₁, run₁, ctxs, inQueue, returned₁, alive₁, reads⟩ :=
    arrive_one (run.step step) alive channels
  have pending : c₁.ctxs 0 = some ctx := by
    simp [ctxs, Client.rpcCall, Function.update_of_ne other, has]
  have last : c₁.ctxs c.count =
      some (Command.ctx none false false false (c.seqId + 1) (.byId 1)) := by
    simp only [ctxs, Client.rpcCall, Function.update_self]
  have wrapped : c.seqId + 1 = 1 := by
    rw [seqId]
    decide
  have found : c₁.find 1 = some c.count := by
    simp [Client.find, inQueue, Client.rpcCall, last, wrapped]
  have decoded : ∃ respBase, Schema.decode [0x20, 1] = some respBase ∧ respBase.values.seqId = 1 :=
    ⟨_, rfl, rfl⟩
  obtain ⟨respBase, decoded, one⟩ := decoded
  obtain ⟨c₂, step₂⟩ : ∃ c₂, Step c₁ (.readRsp 0) c₂ := by
    simp [Step, Client.step, alive₁, Client.readRsp, reads, decoded, one, found, last]
  have answers : Answers 0 c₁ (.readRsp 0) :=
    ⟨0, ctx, rfl, pending, [0x20, 1], [], respBase, reads, by simp, decoded, one.trans number.symm⟩
  have plain : ∀ event ∈ List.replicate (2 ^ 64) plainCall ++ [plainCall] ++ [.connect 0] ++
      [.readTest 0] ++ [.arrive 0 (.packets [0x20, 1] [])] ++ [.readRsp 0],
      event = plainCall ∨ ∀ command req rsp retcode errmsg,
        event ≠ .call command req rsp retcode errmsg := by
    intro event mem
    simp only [List.mem_append, List.mem_singleton] at mem
    obtain (((((mem | mem) | mem) | mem) | mem) | mem) := mem
    · exact .inl (List.eq_of_mem_replicate mem)
    · exact .inl mem
    all_goals exact .inr (by simp [mem])
  have given : ¬ Happens 0 Nameless (List.replicate (2 ^ 64) plainCall ++ [plainCall] ++
      [.connect 0] ++ [.readTest 0] ++ [.arrive 0 (.packets [0x20, 1] [])] ++ [.readRsp 0]) := by
    rintro ⟨pre, event, post, s, split, -, command, req, rsp, retcode, errmsg, rfl, bad⟩
    obtain same | none := plain (.call command req rsp retcode errmsg) (by rw [split]; simp)
    · cases same
      exact bad (show (1 : UInt64) ≠ 0 by decide)
    · exact none _ _ _ _ _ rfl
  have matched := claim 0 _ c₂ (run₁.step step₂) given
  obtain ⟨r, mem, zero, -⟩ := (matched.answered 0).mpr ⟨_, .readRsp 0, [], c₁, rfl, run₁, answers⟩
  have none : c₁.returned = [] := by rw [returned₁]; exact returned
  have only : r.id = c.count := by
    simp only [Step, Client.step, alive₁, Client.readRsp, reads, decoded, one, found, last] at step₂
    obtain rfl := Option.some.inj step₂
    simp only [Client.finish, Client.setChannel, none, List.nil_append, List.mem_singleton] at mem
    rw [mem]
  omega

/-- Neither condition can be left out. -/
theorem calls_not_matched :
    (¬ ∀ (seqId : UInt64) (tr : List Event) (c : Client), Run seqId tr c →
      ¬ Happens seqId Wraps tr → Matched seqId tr c) ∧
    ¬ ∀ (seqId : UInt64) (tr : List Event) (c : Client), Run seqId tr c →
      ¬ Happens seqId Nameless tr → Matched seqId tr c :=
  ⟨null_not_matched, wrap_not_matched⟩

end Needed

end Conet.Svrkit.Duplex
