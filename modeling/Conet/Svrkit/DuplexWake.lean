/- Module: Conet/Svrkit/DuplexWake
   source: svrkit/src/rpc_pb_client_duplex.cpp, svrkit/rpc_pb_client_duplex.h,
     core/src/wait_queue.cpp
   digest: When the senders of the duplex client are woken: no request waits for one that sleeps. -/

import Conet.Svrkit.Duplex

set_option autoImplicit false
set_option relaxedAutoImplicit false

namespace Conet.Svrkit.DuplexWake

open Conet.Lib Conet.Svrkit.CmdBase Conet.Svrkit.Duplex

/-! ### The client with its wait queue -/

/-- The client with `m_req_num` and `m_req_wait`: the channels whose senders wait, and its timer. -/
structure Sys where
  client : Client
  reqNum : ℕ
  waiters : List ℕ
  armed : Bool

def wakeAll (c : Client) : List ℕ → Client
  | [] => c
  | ch :: chs => wakeAll (c.setChannel ch { c.channels ch with sender := .test }) chs

namespace Sys

variable (s : Sys)

/-- `WaitQueue::wakeup_all`. -/
def wakeSenders : Sys :=
  { s with
    client := wakeAll s.client s.waiters
    waiters := [] }

/-- `CondWaitQueue::wakeup_all` with `is_send_data`: the senders are woken for a hundred requests,
and for fewer the timer is to do so. -/
def wakeupAll : Sys :=
  if 100 ≤ s.reqNum then { s.wakeSenders with armed := false } else { s with armed := true }

def wakes : List Event := if 100 ≤ s.reqNum then s.waiters.map Event.wake else []

/-- `rpc_call_base`, up to `wakeup_all`. -/
def call (command : Command) (req : Option Message) (rsp retcode errmsg : Bool) : Sys :=
  { s with
    client := s.client.rpcCall command req rsp retcode errmsg
    reqNum := s.reqNum + 1 }

/-- `TcpChannel::stop`, up to `wakeup_all`. -/
def stop (ch : ℕ) : Sys := { s with client := s.client.stop ch }

/-- The test of `send_proc` has left the client so: the sender waits, or has taken all requests. -/
def tested (ch : ℕ) (c : Client) : Sys :=
  match (c.channels ch).sender with
  | .waits => { s with client := c, waiters := s.waiters ++ [ch] }
  | .batch .. => { s with client := c, reqNum := 0 }
  | _ => { s with client := c }

end Sys

/-- The steps of the client that do not concern the wait queue. -/
def Apart : Event → Prop
  | .call .. | .stop _ | .wake _ | .sendTest _ => False
  | _ => True

/-- The steps, each with the steps of the client that it consists of. -/
inductive Step : Sys → List Event → Sys → Prop
  | call {s : Sys} (command : Command) (req : Option Message) (rsp retcode errmsg : Bool)
      (alive : s.client.crashed = false) :
      Step s (.call command req rsp retcode errmsg :: (s.call command req rsp retcode errmsg).wakes)
        (s.call command req rsp retcode errmsg).wakeupAll
  | stop {s : Sys} (ch : ℕ) (alive : s.client.crashed = false) :
      Step s (.stop ch :: (s.stop ch).wakes) (s.stop ch).wakeupAll
  /-- `timeout_proc`. -/
  | fire {s : Sys} (armed : s.armed = true) (alive : s.client.crashed = false) :
      Step s (s.waiters.map Event.wake) { s.wakeSenders with armed := false }
  /-- The loop of `wakeup_all` comes to a sender that waits anew. -/
  | again {s : Sys} (ch : ℕ) (waits : ch ∈ s.waiters) (alive : s.client.crashed = false) :
      Step s [.wake ch]
        { s with
          client := wakeAll s.client [ch]
          waiters := s.waiters.erase ch }
  | test {s : Sys} (ch : ℕ) (c : Client) (step : s.client.step (.sendTest ch) = some c) :
      Step s [.sendTest ch] (s.tested ch c)
  | other {s : Sys} (event : Event) (c : Client) (step : s.client.step event = some c)
      (apart : Apart event) : Step s [event] { s with client := c }

def Sys.start (seqId : UInt64) : Sys := ⟨.start seqId, 0, [], false⟩

/-! ### What the steps of the client leave alone -/

section Calm

variable {c c' c'' : Client} {ch : ℕ}

/-- The same senders wait, nothing is stopped, and no request is queued. -/
structure Calm (c c' : Client) : Prop where
  waits : ∀ ch, (c'.channels ch).sender = .waits ↔ (c.channels ch).sender = .waits
  flag : ∀ ch, (c'.channels ch).stopFlag = (c.channels ch).stopFlag
  queue : c'.reqQueue.Sublist c.reqQueue

theorem Calm.refl (c : Client) : Calm c c := ⟨fun _ => .rfl, fun _ => rfl, .refl _⟩

theorem Calm.trans (calm : Calm c c') (calm' : Calm c' c'') : Calm c c'' :=
  ⟨fun ch => (calm'.waits ch).trans (calm.waits ch),
    fun ch => (calm'.flag ch).trans (calm.flag ch), calm'.queue.trans calm.queue⟩

theorem calm_channel {channel : TcpChannel}
    (waits : channel.sender = .waits ↔ (c.channels ch).sender = .waits)
    (flag : channel.stopFlag = (c.channels ch).stopFlag) : Calm c (c.setChannel ch channel) := by
  refine ⟨fun ch' => ?_, fun ch' => ?_, .refl _⟩
  · obtain ⟨eq, rfl⟩ | ⟨eq, -⟩ := channels_cases c ch channel ch'
    · rw [eq, waits]
    · rw [eq]
  · obtain ⟨eq, rfl⟩ | ⟨eq, -⟩ := channels_cases c ch channel ch'
    · rw [eq, flag]
    · rw [eq]

theorem calm_finish (id : ℕ) (ctx : ReqCtx) (val : ℕ) (errmsg rsp : Option (List UInt8)) :
    Calm c (c.finish id ctx val errmsg rsp) := by
  refine ⟨fun ch => ?_, fun ch => rfl, List.filter_sublist⟩
  show (c.channels ch).sender.unlink id = .waits ↔ _
  cases (c.channels ch).sender <;> simp [Sender.unlink]

theorem calm_sendNext {mem : ℤ → UInt8} (step : c.sendNext ch mem = some c') : Calm c c' := by
  simp only [Client.sendNext] at step
  split at step
  case h_2 => cases step
  case h_1 id queue sendDatas batch =>
    split at step
    case h_2 =>
      obtain rfl := Option.some.inj step
      exact ⟨fun _ => .rfl, fun _ => rfl, .refl _⟩
    case h_1 =>
      split at step
      case isFalse => cases step
      case isTrue =>
        split at step
        case h_2 =>
          obtain rfl := Option.some.inj step
          exact ⟨fun _ => .rfl, fun _ => rfl, .refl _⟩
        case h_1 =>
          obtain rfl := Option.some.inj step
          exact calm_channel (by simp [batch]) rfl

theorem calm_readRsp (step : c.readRsp ch = some c') : Calm c c' := by
  simp only [Client.readRsp] at step
  split at step
  case h_2 => cases step
  case h_1 packet buffered reads =>
    split at step
    case isTrue =>
      obtain rfl := Option.some.inj step
      exact calm_channel .rfl rfl
    case isFalse =>
      split at step
      case h_1 =>
        obtain rfl := Option.some.inj step
        exact calm_channel .rfl rfl
      case h_2 =>
        split at step
        case h_1 =>
          obtain rfl := Option.some.inj step
          exact calm_channel .rfl rfl
        case h_2 =>
          split at step
          case h_1 =>
            obtain rfl := Option.some.inj step
            exact ⟨fun _ => .rfl, fun _ => rfl, .refl _⟩
          case h_2 =>
            obtain rfl := Option.some.inj step
            have read : Calm c (c.setChannel ch ((c.channels ch).readNext buffered)) :=
              calm_channel .rfl rfl
            exact read.trans (calm_finish ..)

theorem calm_step {event : Event} (step : c.step event = some c') (apart : Apart event) :
    Calm c c' := by
  unfold Client.step at step
  split at step
  case isTrue => cases step
  case isFalse =>
    cases event with
    | call | stop | wake | sendTest => exact apart.elim
    | timeout id =>
      simp only [Client.procReqTimeout] at step
      split at step
      case isFalse => cases step
      case isTrue =>
        obtain ⟨ctx, pending, rfl⟩ := Option.map_eq_some_iff.mp step
        exact calm_finish ..
    | connect ch =>
      simp only [Client.connect] at step
      split at step
      case isFalse => cases step
      case isTrue idle =>
        obtain rfl := Option.some.inj step
        exact calm_channel (by simp [idle.2.2.1]) rfl
    | close ch =>
      simp only [Client.close] at step
      split at step
      case isFalse => cases step
      case isTrue =>
        obtain rfl := Option.some.inj step
        exact calm_channel .rfl rfl
    | sendNext ch mem => exact calm_sendNext step
    | writeAll ch ok =>
      simp only [Client.writeAll] at step
      split at step
      case h_2 => cases step
      case h_1 sendDatas batch =>
        obtain rfl := Option.some.inj step
        have written : Calm c (c.setChannel ch { c.channels ch with
            readStop := (c.channels ch).readStop || (sendDatas ≠ [] && !ok)
            sender := .test }) := calm_channel (by simp [batch]) rfl
        exact ⟨written.waits, written.flag, written.queue⟩
    | readTest ch =>
      simp only [Client.readTest] at step
      split at step
      case isFalse => cases step
      case isTrue =>
        split at step
        case isTrue =>
          obtain rfl := Option.some.inj step
          exact calm_channel .rfl rfl
        case isFalse =>
          obtain rfl := Option.some.inj step
          exact calm_channel .rfl rfl
    | arrive ch arrival =>
      simp only [Client.arrive] at step
      split at step
      case isFalse => cases step
      case isTrue =>
        cases arrival with
        | nothing | fails | packets =>
          obtain rfl := Option.some.inj step
          exact calm_channel .rfl rfl
    | readRsp ch => exact calm_readRsp step

end Calm

/-! ### The senders that are woken -/

section Wake

variable {c : Client} {ch : ℕ} {chs : List ℕ} {seqId : UInt64} {events : List Event}

theorem wakeAll_waits : ((wakeAll c chs).channels ch).sender = .waits ↔
    (c.channels ch).sender = .waits ∧ ch ∉ chs := by
  induction chs generalizing c with
  | nil => simp [wakeAll]
  | cons first chs ih =>
    rw [wakeAll, ih]
    obtain ⟨eq, rfl⟩ | ⟨eq, other⟩ :=
      channels_cases c first { c.channels first with sender := .test } ch
    · simp
    · simp [eq, other]

theorem wakeAll_flag : ((wakeAll c chs).channels ch).stopFlag = (c.channels ch).stopFlag := by
  induction chs generalizing c with
  | nil => rfl
  | cons first chs ih =>
    rw [wakeAll, ih]
    obtain ⟨eq, rfl⟩ | ⟨eq, -⟩ :=
      channels_cases c first { c.channels first with sender := .test } ch
    · rw [eq]
    · rw [eq]

@[simp] theorem wakeAll_queue : (wakeAll c chs).reqQueue = c.reqQueue := by
  induction chs generalizing c with
  | nil => rfl
  | cons first chs ih =>
    rw [wakeAll, ih]
    rfl

theorem run_wakeAll (run : Run seqId events c) (alive : c.crashed = false) (nodup : chs.Nodup)
    (waits : ∀ ch ∈ chs, (c.channels ch).sender = .waits) :
    Run seqId (events ++ chs.map Event.wake) (wakeAll c chs) := by
  induction chs generalizing c events with
  | nil => simpa [wakeAll] using run
  | cons first chs ih =>
    obtain ⟨apart, nodup⟩ := List.nodup_cons.mp nodup
    have wake : c.step (.wake first) =
        some (c.setChannel first { c.channels first with sender := .test }) := by
      simp [Client.step, Client.wake, alive, waits first List.mem_cons_self]
    have rest := ih (run.step wake) alive nodup fun ch mem => ?_
    · simpa [wakeAll] using rest
    · rw [setChannel_other (ne_of_mem_of_not_mem mem apart)]
      exact waits ch (List.mem_cons_of_mem _ mem)

end Wake

/-! ### No request waits for a sender that sleeps -/

section Keep

variable {s s' : Sys} {ch : ℕ} {seqId : UInt64} {events : List Event} {tr : List (List Event)}

/-- The wait queue has the senders that wait, and `m_req_num` counts no request too few. -/
structure Queued (s : Sys) : Prop where
  waits : ∀ ch, ch ∈ s.waiters ↔ (s.client.channels ch).sender = .waits
  nodup : s.waiters.Nodup
  num : s.client.reqQueue.length ≤ s.reqNum

structure Inv (s : Sys) : Prop extends Queued s where
  flush : s.waiters ≠ [] → s.client.reqQueue ≠ [] → s.armed = true ∧ s.reqNum < 100
  stops : ∀ ch ∈ s.waiters, (s.client.channels ch).stopFlag = true → s.armed = true

theorem inv_start (seqId : UInt64) : Inv (Sys.start seqId) where
  waits ch := by simp [Sys.start, Client.start]
  nodup := List.nodup_nil
  num := Nat.le_refl 0
  flush some := absurd rfl some
  stops ch mem := by cases mem

theorem Queued.wakeSenders {armed : Bool} (queued : Queued s) :
    Inv { s.wakeSenders with armed } where
  waits ch := by
    show ch ∈ [] ↔ ((wakeAll s.client s.waiters).channels ch).sender = .waits
    rw [wakeAll_waits, queued.waits]
    simp
  nodup := List.nodup_nil
  num := by
    show (wakeAll s.client s.waiters).reqQueue.length ≤ s.reqNum
    rw [wakeAll_queue]
    exact queued.num
  flush some := absurd rfl some
  stops ch mem := by cases mem

theorem Queued.wakeupAll (queued : Queued s) : Inv s.wakeupAll := by
  unfold Sys.wakeupAll
  split_ifs with many
  · exact queued.wakeSenders
  · exact ⟨⟨queued.waits, queued.nodup, queued.num⟩, fun _ _ => ⟨rfl, Nat.lt_of_not_le many⟩,
      fun _ _ _ => rfl⟩

theorem Queued.call (queued : Queued s) (command : Command) (req : Option Message)
    (rsp retcode errmsg : Bool) : Queued (s.call command req rsp retcode errmsg) := by
  refine ⟨queued.waits, queued.nodup, ?_⟩
  show (s.client.reqQueue ++ [s.client.count]).length ≤ s.reqNum + 1
  rw [List.length_append]
  exact Nat.succ_le_succ queued.num

theorem Queued.stop (queued : Queued s) (ch : ℕ) : Queued (s.stop ch) := by
  refine ⟨fun ch' => ?_, queued.nodup, queued.num⟩
  show ch' ∈ s.waiters ↔ ((s.client.stop ch).channels ch').sender = .waits
  rw [queued.waits, Client.stop]
  obtain ⟨eq, rfl⟩ | ⟨eq, -⟩ :=
    channels_cases s.client ch { s.client.channels ch with stopFlag := true } ch'
  · rw [eq]
  · rw [eq]

/-- The sender is woken that the loop of `wakeup_all` comes to again. -/
theorem Inv.again (inv : Inv s) (ch : ℕ) : Inv
    { s with
      client := wakeAll s.client [ch]
      waiters := s.waiters.erase ch } where
  waits ch' := by
    show ch' ∈ s.waiters.erase ch ↔ ((wakeAll s.client [ch]).channels ch').sender = .waits
    rw [wakeAll_waits, inv.nodup.mem_erase_iff, inv.waits, List.mem_singleton, and_comm]
  nodup := inv.nodup.erase ch
  num := inv.num
  flush some queue := by
    refine inv.flush ?_ queue
    rintro none
    simp [none] at some
  stops ch' mem flag := by
    have flag : ((wakeAll s.client [ch]).channels ch').stopFlag = true := flag
    rw [wakeAll_flag] at flag
    exact inv.stops ch' (List.mem_of_mem_erase mem) flag

theorem Inv.calm {c : Client} (inv : Inv s) (calm : Calm s.client c) :
    Inv { s with client := c } where
  waits ch := (inv.waits ch).trans (calm.waits ch).symm
  nodup := inv.nodup
  num := calm.queue.length_le.trans inv.num
  flush some queue := inv.flush some fun none => queue (List.sublist_nil.mp (none ▸ calm.queue))
  stops ch mem flag := inv.stops ch mem ((calm.flag ch).symm.trans flag)

/-- A sender begins to wait, where there is no request. -/
theorem Inv.wait (inv : Inv s) (test : (s.client.channels ch).sender = .test)
    (run : (s.client.channels ch).stopFlag = false) (none : s.client.reqQueue = []) : Inv
      { s with
        client := s.client.setChannel ch { s.client.channels ch with sender := .waits }
        waiters := s.waiters ++ [ch] } := by
  have apart : ch ∉ s.waiters := by simp [inv.waits, test]
  refine ⟨⟨fun ch' => ?_, ?_, inv.num⟩, fun _ some => absurd none some, fun ch' mem flag => ?_⟩
  · obtain ⟨eq, rfl⟩ | ⟨eq, other⟩ :=
      channels_cases s.client ch { s.client.channels ch with sender := .waits } ch'
    · simp
    · simp [eq, other, inv.waits]
  · exact List.nodup_append_comm.mpr (List.nodup_cons.mpr ⟨apart, inv.nodup⟩)
  · obtain ⟨eq, rfl⟩ | ⟨eq, other⟩ :=
      channels_cases s.client ch { s.client.channels ch with sender := .waits } ch'
    · simp [run] at flag
    · rw [eq] at flag
      obtain old | new := List.mem_append.mp mem
      · exact inv.stops ch' old flag
      · exact absurd (List.mem_singleton.mp new) other

theorem Inv.take (inv : Inv s) (test : (s.client.channels ch).sender = .test) : Inv
    { s with
      client :=
        { s.client.setChannel ch
            { s.client.channels ch with sender := .batch s.client.reqQueue [] } with
          reqQueue := [] }
      reqNum := 0 } := by
  have taken : Calm s.client (s.client.setChannel ch
      { s.client.channels ch with sender := .batch s.client.reqQueue [] }) :=
    calm_channel (by simp [test]) rfl
  have calm := inv.calm taken
  exact ⟨⟨calm.waits, calm.nodup, Nat.le_refl 0⟩, fun _ some => absurd rfl some, calm.stops⟩

theorem Inv.test {c : Client} (inv : Inv s) (step : s.client.step (.sendTest ch) = some c) :
    Inv (s.tested ch c) := by
  unfold Client.step at step
  split at step
  case isTrue => cases step
  case isFalse =>
    simp only [Client.sendTest] at step
    split at step
    case isFalse => cases step
    case isTrue test =>
      split at step
      case isFalse =>
        obtain rfl := Option.some.inj step
        have ended : Calm s.client (s.client.setChannel ch
            { s.client.channels ch with sender := .ended, sendStop := true }) :=
          calm_channel (by simp [test]) rfl
        simpa [Sys.tested] using inv.calm ended
      case isTrue run =>
        split at step
        case isTrue none =>
          obtain rfl := Option.some.inj step
          simpa [Sys.tested] using inv.wait test run.1 none
        case isFalse =>
          obtain rfl := Option.some.inj step
          simpa [Sys.tested, Client.setChannel] using inv.take test

theorem Inv.step (inv : Inv s) (step : Step s events s') : Inv s' := by
  cases step with
  | call command req rsp retcode errmsg alive =>
    exact (inv.toQueued.call command req rsp retcode errmsg).wakeupAll
  | stop ch alive => exact (inv.toQueued.stop ch).wakeupAll
  | fire armed alive => exact inv.toQueued.wakeSenders
  | again ch waits alive => exact inv.again ch
  | test ch c step => exact inv.test step
  | other event c step apart => exact inv.calm (calm_step step apart)

theorem run_wakeupAll (queued : Queued s) (alive : s.client.crashed = false)
    (run : Run seqId events s.client) : Run seqId (events ++ s.wakes) s.wakeupAll.client := by
  unfold Sys.wakes Sys.wakeupAll
  split_ifs with many
  · exact run_wakeAll run alive queued.nodup fun ch mem => (queued.waits ch).mp mem
  · simpa using run

theorem Inv.run (inv : Inv s) {past : List Event} (run : Run seqId past s.client)
    (step : Step s events s') : Run seqId (past ++ events) s'.client := by
  cases step with
  | call command req rsp retcode errmsg alive =>
    have called : Run seqId (past ++ [.call command req rsp retcode errmsg])
        (s.call command req rsp retcode errmsg).client :=
      run.step (by simp [Duplex.Step, Client.step, alive, Sys.call])
    have woken := run_wakeupAll (inv.toQueued.call command req rsp retcode errmsg) alive called
    simpa using woken
  | stop ch alive =>
    have stopped : Run seqId (past ++ [.stop ch]) (s.stop ch).client :=
      run.step (by simp [Duplex.Step, Client.step, alive, Sys.stop])
    have woken := run_wakeupAll (inv.toQueued.stop ch) alive stopped
    simpa using woken
  | fire armed alive =>
    exact run_wakeAll run alive inv.nodup fun ch mem => (inv.waits ch).mp mem
  | again ch waits alive =>
    have waits : ∀ ch' ∈ [ch], (s.client.channels ch').sender = .waits := by
      intro ch' mem
      obtain rfl := List.mem_singleton.mp mem
      exact (inv.waits ch').mp waits
    exact run_wakeAll run alive (List.nodup_singleton ch) waits
  | test ch c step =>
    have eq : (s.tested ch c).client = c := by
      unfold Sys.tested
      split <;> rfl
    rw [eq]
    exact run.step step
  | other event c step apart => exact run.step step

/-- The sender of a channel waits, and a request comes. -/
def asked : List (List Event) :=
  [[.connect 0], [.sendTest 0], [.call (.byId 1) none false false false]]

theorem asked_run : ∃ s, Trace (Sys.start 0) Step asked s := by
  have start : Trace (Sys.start 0) Step [] (Sys.start 0) := .init
  have connected := start.step (.other (.connect 0) _ rfl trivial)
  have waits := connected.step (.test 0 _ rfl)
  exact ⟨_, waits.step (.call (.byId 1) none false false false rfl)⟩

end Keep

end Conet.Svrkit.DuplexWake
