/- Module: Conet/Svrkit/DuplexRead
   source: svrkit/src/rpc_pb_client_duplex.cpp
   digest: What a response that comes after its request has timed out does to its channel. -/

import Conet.Svrkit.Duplex

set_option autoImplicit false
set_option relaxedAutoImplicit false

namespace Conet.Svrkit.Duplex

open Conet.Lib Conet.Svrkit.CmdBase Conet.Svrkit.CmdBaseSchema

/-- The packet that `read_rsp` has before it is the response to a request that has timed out. -/
def Late (c : Client) (ch : ℕ) (buffered : List (List UInt8)) : Prop :=
  ∃ packet respBase, (c.channels ch).reader = .reading packet buffered ∧ packet ≠ [] ∧
    Schema.decode packet = some respBase ∧ c.find respBase.values.seqId = none ∧
    ∃ r ∈ c.returned, r.seqId = respBase.values.seqId ∧ r.ret = -1

/-- A packet is dropped: the calls and the other channels stay as they are, the packets behind it are
read next, and the connection stays in use. -/
structure Isolated (c : Client) (ch : ℕ) (buffered : List (List UInt8)) (c' : Client) : Prop where
  ctxs : c'.ctxs = c.ctxs
  inQueue : c'.inQueue = c.inQueue
  timers : c'.timers = c.timers
  returned : c'.returned = c.returned
  others : ∀ ch', ch' ≠ ch → c'.channels ch' = c.channels ch'
  delivers : (c'.channels ch).reader = ((c.channels ch).readNext buffered).reader
  stays : (c'.channels ch).readStop = (c.channels ch).readStop

section Late

variable {c c' : Client} {ch : ℕ} {buffered : List (List UInt8)} {tr : List Event}

/-- `read_rsp` returns an error for a sequence number that it does not find. -/
theorem readRsp_late (late : Late c ch buffered) :
    c.readRsp ch = some (c.setChannel ch (c.channels ch).readEnds) := by
  obtain ⟨packet, respBase, reads, some, decoded, unknown, -⟩ := late
  simp [Client.readRsp, reads, some, decoded, unknown]

theorem readNext_ne_ended (channel : TcpChannel) : (channel.readNext buffered).reader ≠ .ended := by
  cases buffered <;> simp [TcpChannel.readNext]

theorem readRsp_reads (step : Step c (.readRsp ch) c') : (c.channels ch).reader ≠ .ended := by
  intro ended
  unfold Step Client.step at step
  split at step
  case isTrue => cases step
  case isFalse => simp [Client.readRsp, ended] at step

/-- A reader that has ended stays so until `mgr_proc` has connected anew, which it does when the old
connection is closed. -/
theorem ended_step {event : Event} (step : Step c event c') (ended : (c.channels ch).reader = .ended)
    (same : event ≠ .connect ch) : (c'.channels ch).reader = .ended := by
  have keeps : ∀ {ch' : ℕ} {channel : TcpChannel},
      (ch = ch' → channel.reader = .ended) → ((c.setChannel ch' channel).channels ch).reader = .ended := by
    intro ch' channel own
    by_cases here : ch = ch'
    · subst here
      rw [setChannel_self]
      exact own rfl
    · rw [setChannel_other here]
      exact ended
  cases Effect.of_step step with
  | call => exact ended
  | timeout => exact ended
  | quiet event ch' channel queue datas head reader =>
    apply keeps
    rintro rfl
    exact reader same ended
  | swap ch' => exact keeps fun here => here ▸ ended
  | send ch' => exact keeps fun here => here ▸ ended
  | write ch' ok sendDatas channel batch test head reader =>
    exact keeps fun here => reader.trans (here ▸ ended)
  | answer ch' packet buffered respBase id ctx errmsg rsp reads =>
    refine keeps fun here => ?_
    subst here
    rw [reads] at ended
    cases ended
  | crashSend => exact ended
  | crashRead => exact ended

/-- No packet is read any more over the connection of a reader that has ended. -/
theorem no_response_until_connect {tr : List Event} (run : Trace c Step tr c')
    (ended : (c.channels ch).reader = .ended) (same : .connect ch ∉ tr) :
    (c'.channels ch).reader = .ended ∧ .readRsp ch ∉ tr := by
  induction run with
  | init => exact ⟨ended, by simp⟩
  | step run step ih =>
    rw [List.mem_append, not_or, List.mem_singleton] at same
    obtain ⟨still, before⟩ := ih same.1
    refine ⟨ended_step step still (Ne.symm same.2), ?_⟩
    rw [List.mem_append, not_or, List.mem_singleton]
    refine ⟨before, ?_⟩
    rintro rfl
    exact readRsp_reads step still

/-- After a late response nothing is read any more over the connection, neither what is in the buffer
nor what still comes. -/
structure Lost (c : Client) (ch : ℕ) : Prop where
  readStop : (c.channels ch).readStop = true
  ended : (c.channels ch).reader = .ended
  silent : ∀ tr c', Trace c Step tr c' → .connect ch ∉ tr → .readRsp ch ∉ tr

theorem lost_of_late (step : Step c (.readRsp ch) c') (late : Late c ch buffered) : Lost c' ch := by
  have alive : c.crashed = false := by
    unfold Step Client.step at step
    split at step
    case isTrue => cases step
    case isFalse up => simpa using up
  have after : c' = c.setChannel ch (c.channels ch).readEnds := by
    simpa [Step, Client.step, alive, readRsp_late late] using step.symm
  have ended : (c'.channels ch).reader = .ended := by rw [after, setChannel_self]; rfl
  refine ⟨by rw [after, setChannel_self]; rfl, ended, ?_⟩
  intro tr c'' run same
  exact (no_response_until_connect run ended same).2

theorem not_isolated (step : Step c (.readRsp ch) c') (late : Late c ch buffered) :
    ¬ Isolated c ch buffered c' := by
  intro isolated
  exact readNext_ne_ended _ (isolated.delivers.symm.trans (lost_of_late step late).ended)

end Late

/-- In a run, the channel `ch` reads a packet. -/
def Reads (seqId : UInt64) (tr : List Event) (ch : ℕ) (c c' : Client) : Prop :=
  ∃ pre post, tr = pre ++ .readRsp ch :: post ∧ Run seqId pre c ∧ Step c (.readRsp ch) c'

/-- Every late response of a run is dropped, and affects nothing else. -/
def IsolatesLate (seqId : UInt64) (tr : List Event) : Prop :=
  ∀ ch c c' buffered, Reads seqId tr ch c c' → Late c ch buffered → Isolated c ch buffered c'

/-- A late response is never isolated: a run is as it should be exactly when no late response is read
in it. -/
theorem isolatesLate_iff (seqId : UInt64) (tr : List Event) :
    IsolatesLate seqId tr ↔
      ∀ ch c c' buffered, Reads seqId tr ch c c' → ¬ Late c ch buffered := by
  constructor
  · intro isolates ch c c' buffered reads late
    have isolated := isolates ch c c' buffered reads late
    obtain ⟨pre, post, -, -, step⟩ := reads
    exact not_isolated step late isolated
  · intro none ch c c' buffered reads late
    exact absurd late (none ch c c' buffered reads)

/-- Two calls are sent; the first times out, and its response comes in front of that of the second. -/
def lateEvents : List Event :=
  [.call (.byId 1) none true true true, .call (.byId 2) none true true true, .connect 0, .sendTest 0,
    .sendNext 0 fun _ => 0, .sendNext 0 fun _ => 0, .writeAll 0 true, .timeout 0, .readTest 0,
    .arrive 0 (.packets [0x20, 1] [[0x20, 2]])]

/-- The response to the second call is lost with the connection. -/
theorem response_lost : ¬ ∀ (seqId : UInt64) (tr : List Event), IsolatesLate seqId tr := by
  intro claim
  obtain ⟨c, reached⟩ : ∃ c, lateEvents.foldlM Client.step (.start 0) = some c := ⟨_, rfl⟩
  have step : Step c (.readRsp 0) (c.setChannel 0 (c.channels 0).readEnds) := by
    obtain rfl := Option.some.inj reached
    rfl
  have reads : Reads 0 (lateEvents ++ [.readRsp 0]) 0 c (c.setChannel 0 (c.channels 0).readEnds) :=
    ⟨lateEvents, [], rfl, Trace.of_foldlM reached, step⟩
  have late : Late c 0 [[0x20, 2]] := by
    obtain rfl := Option.some.inj reached
    exact ⟨[0x20, 1], _, rfl, by decide, rfl, rfl, ⟨0, 1, -1, none, none, none⟩, by decide, rfl, rfl⟩
  exact not_isolated step late (claim 0 _ 0 c _ [[0x20, 2]] reads late)

end Conet.Svrkit.Duplex
