/- Module: Conet/Svrkit/RpcTcpConn
   source: svrkit/src/rpc_pb_server.cpp
   digest: The loop that answers the requests of a connection, with a stream from the pool in every
   turn. -/

import Conet.Base.NetToolRead
import Conet.Svrkit.RpcServer

set_option autoImplicit false
set_option relaxedAutoImplicit false

namespace Conet.Svrkit.RpcTcpConn

open Conet.Lib Conet.Lib.Frame Conet.Lib.Loop Conet.Base.Pbc Conet.Base.NetTool
open Conet.Base.NetToolRead Conet.Svrkit.CmdBase Conet.Svrkit.CmdBaseCodec Conet.Svrkit.RpcServer

/-- What is made of a packet: an answer, after which the loop goes on, an answer or nothing, after
which it is left, or a null pointer that is dereferenced. -/
inductive Handled (M : Type)
  | answered (reply : Reply M)
  | ends (reply : Option (Reply M))
  | crashed (e : Crash)

/-- What a turn finds before it reads: `to_stop`, or what `co_poll` comes back with, with `POLLERR` or
`POLLHUP` or without. -/
inductive Polled
  | stopped
  | timeout
  | interrupted
  | failed
  | ready (hangup : Bool)
  deriving DecidableEq

/-- The connection: what the turns to come find, the system calls to come, the number of turns that have
read, the packets that were answered, and the answers. -/
structure Conn (M : Type) where
  polls : List Polled
  script : List Attempt
  round : ℕ
  requests : List (List UInt8)
  replies : List (Reply M)

/-- How the loop is left: there is no more data, `recv` brings more than it is asked for, or the
connection is closed. -/
inductive ConnEnd
  | waits
  | impossible
  | closes
  deriving DecidableEq

section Conn

variable {M : Type} (s : RpcPbServerBase M) (start : PbField) (text base : ℤ)

/-- The loop goes on after the answer of a command that was found. -/
def Handled.of (served : Except Crash (Option (Reply M)))
    (found : Except (List UInt8) (Option (RpcPbCmd M))) : Handled M :=
  match served, found with
  | .error e, _ => .crashed e
  | .ok none, _ => .ends none
  | .ok (some r), .ok _ => .answered r
  | .ok (some r), .error _ => .ends (some r)

/-- The part of a turn from `parse` on, when sending succeeds and the handler does not ask to
close. -/
def handle (mem : ℤ → UInt8) (data : ℤ) (len : ℕ) : Handled M :=
  .of (procTcpRpcPb s mem start text data len) (target s mem (headOf mem start data len))

/-- The memory with the buffer of a stream at `base`. -/
def bufferAt (stream : PacketStream) (a : ℤ) : UInt8 := stream.mem (a - base)

/-- The stream that the pool gives for a turn, after `init`. -/
def streamOf (pool : ℕ → PacketStream) (round : ℕ) : PacketStream :=
  { (pool round).init with isHttp := true }

/-- The part of a turn after `read_packet`. -/
def afterRead (out : ReadOut) (c : Conn M) : Turn (Conn M) (ConnEnd × Conn M) :=
  match out.outcome with
  | .waits => .leave (.waits, c)
  | .impossible => .leave (.impossible, c)
  | .undefined => .undefined
  | .failed _ => .leave (.closes, c)
  | .returned ret =>
    if ret ≤ 0 then .leave (.closes, c)
    else
      match out.pack with
      | none => .leave (.closes, c)
      | some (off, len) =>
        if len ≤ 0 then .leave (.closes, c)
        else
          match handle s start text (bufferAt base out.stream) (base + off) len.toNat with
          | .crashed _ => .undefined
          | .ends r => .leave (.closes, { c with replies := c.replies ++ r.toList })
          | .answered r => .again { c with
              requests := c.requests ++ [slice out.stream.mem off len.toNat]
              replies := c.replies ++ [r] }

/-- The part of a turn behind `co_poll`; `pool` gives the stream, with whatever is left in it. -/
def readTurn (pool : ℕ → PacketStream) (c : Conn M) : Turn (Conn M) (ConnEnd × Conn M) :=
  let out := readPacketTimeout true (streamOf pool c.round) c.script
  afterRead s start text base out { c with script := out.script, round := c.round + 1 }

/-- One turn of the loop of `proc_tcp_rpc_pb`. -/
def connTurn (pool : ℕ → PacketStream) (c : Conn M) : Turn (Conn M) (ConnEnd × Conn M) :=
  match c.polls with
  | [] => .leave (.waits, c)
  | .stopped :: polls => .leave (.closes, { c with polls := polls })
  | .timeout :: polls => .again { c with polls := polls }
  | .interrupted :: polls => .again { c with polls := polls }
  | .failed :: polls => .leave (.closes, { c with polls := polls })
  | .ready true :: polls => .leave (.closes, { c with polls := polls })
  | .ready false :: polls => readTurn s start text base pool { c with polls := polls }

def Conn.init (polls : List Polled) (script : List Attempt) : Conn M := ⟨polls, script, 0, [], []⟩

/-- A request that the loop answers, wherever it stands. -/
def WellFormed (p : List UInt8) : Prop := ∀ (mem : ℤ → UInt8) (data : ℤ), 0 < data →
  slice mem data p.length = p → ∃ r, handle s start text mem data p.length = .answered r

/-- All requests are answered, each once and in order, however the loop is left then. -/
def AnswersAll (pool : ℕ → PacketStream) (polls : List Polled) (script : List Attempt)
    (ps : List (List UInt8)) : Prop :=
  ∃ e, ∃ c : Conn M, Returns (connTurn s start text base pool) (Conn.init polls script) (e, c) ∧
    c.requests = ps

end Conn

/-- How many turns read, before the server stops, `co_poll` fails or the peer hangs up. -/
def turns : List Polled → ℕ
  | [] => 0
  | .stopped :: _ => 0
  | .timeout :: polls => turns polls
  | .interrupted :: polls => turns polls
  | .failed :: _ => 0
  | .ready true :: _ => 0
  | .ready false :: polls => turns polls + 1

/-- Every request comes in time and with calls of `recv` that bring nothing else. -/
def Separate (script : List Attempt) (ps : List (List UInt8)) : Prop :=
  ∃ (groups : List (List Attempt)) (tail : List Attempt), script = groups.flatten ++ tail ∧
    List.Forall₂ (fun group p => Gets withTimeout true group (frame p) []) groups ps

/-- A frame that is not taken for an http request. -/
def Binary (p : List UInt8) : Prop := ∀ c ∈ (frame p).head?, isAlpha c = false

section Run

variable {M : Type} {s : RpcPbServerBase M} {start : PbField} {text base : ℤ}
  {pool : ℕ → PacketStream} {maxSize : ℤ} {c c' : Conn M} {p : List UInt8}
  {ps : List (List UInt8)} {polls : List Polled} {script : List Attempt}

/-- The streams of the pool have buffers of one size. -/
structure Pool (pool : ℕ → PacketStream) (maxSize : ℤ) : Prop where
  size : ∀ n, (pool n).maxSize = maxSize
  big : 4 < maxSize
  small : maxSize < 2 ^ 31

theorem handle_answered {mem : ℤ → UInt8} {data : ℤ} {len : ℕ} {r : Reply M}
    {cmd : Option (RpcPbCmd M)} (served : procTcpRpcPb s mem start text data len = .ok (some r))
    (found : target s mem (headOf mem start data len) = .ok cmd) :
    handle s start text mem data len = .answered r := by
  rw [handle, served, found, Handled.of]

theorem held_streamOf (sized : Pool pool maxSize) (round : ℕ) : Held (streamOf pool round) [] := by
  have big := sized.big
  have size := sized.size round
  refine ⟨le_rfl, rfl, ?_, rfl, fun _ => rfl⟩
  simp only [streamOf, PacketStream.init]
  omega

theorem reads_streamOf (sized : Pool pool maxSize) (round : ℕ) (script : List Attempt) :
    Reads withTimeout true (streamOf pool round) [] script
      (readPacketTimeout true (streamOf pool round) script) := by
  have size : (streamOf pool round).maxSize = maxSize := sized.size round
  exact read_reads (.timeout true) (held_streamOf sized round) (by rw [size]; exact sized.small)
    (by rw [size]; exact sized.big)

theorem slice_bufferAt (stream : PacketStream) (off : ℤ) (n : ℕ) :
    slice (bufferAt base stream) (base + off) n = slice stream.mem off n := by
  simp only [slice, bufferAt]
  refine List.map_congr_left fun i _ => ?_
  rw [show base + off + i - base = off + i by ring]

theorem afterRead_answers {out : ReadOut} (at_base : 0 < base)
    (wellFormed : WellFormed s start text p) (pos : 0 < p.length) (gives : Gives out p) :
    ∃ r, afterRead s start text base out c = .again
      { c with requests := c.requests ++ [p], replies := c.replies ++ [r] } := by
  obtain ⟨outcome, pack, bytes⟩ := gives
  have len : ((p.length : ℤ)).toNat = p.length := Int.toNat_natCast _
  obtain ⟨r, answered⟩ := wellFormed (bufferAt base out.stream) (base + 4) (by omega)
    (by rw [slice_bufferAt, bytes])
  have some : ¬ (p.length : ℤ) ≤ 0 := by omega
  refine ⟨r, ?_⟩
  simp only [afterRead, outcome, pack, len, answered, bytes, some, if_false]
  rw [if_neg (by decide)]

/-- After a packet has been handled the loop goes on, or it is left with the requests so far. -/
theorem afterRead_again {out : ReadOut} (turn : afterRead s start text base out c = .again c') :
    ∃ ret off len, out.outcome = .returned ret ∧ 0 < ret ∧ out.pack = some (off, len) ∧
      c'.script = c.script ∧ c'.polls = c.polls ∧
      c'.requests = c.requests ++ [slice out.stream.mem off len.toNat] := by
  rw [afterRead] at turn
  cases outcome : out.outcome with
  | waits => simp [outcome] at turn
  | impossible => simp [outcome] at turn
  | undefined => simp [outcome] at turn
  | failed ret => simp [outcome] at turn
  | returned ret =>
    by_cases neg : ret ≤ 0
    · simp [outcome, neg] at turn
    · rcases pack : out.pack with _ | ⟨off, len⟩
      · simp [outcome, neg, pack] at turn
      · by_cases void : len ≤ 0
        · simp [outcome, neg, pack, void] at turn
        · cases handled : handle s start text (bufferAt base out.stream) (base + off) len.toNat with
          | crashed e => simp [outcome, neg, pack, void, handled] at turn
          | ends r => simp [outcome, neg, pack, void, handled] at turn
          | answered r =>
            obtain rfl : _ = c' := by simpa [outcome, neg, pack, void, handled] using turn
            exact ⟨ret, off, len, rfl, by omega, rfl, rfl, rfl, rfl⟩

theorem afterRead_leave {out : ReadOut} {e : ConnEnd}
    (turn : afterRead s start text base out c = .leave (e, c')) : c'.requests = c.requests := by
  rw [afterRead] at turn
  cases outcome : out.outcome with
  | waits =>
    obtain ⟨-, rfl⟩ : _ ∧ c = c' := by simpa [outcome] using turn
    rfl
  | impossible =>
    obtain ⟨-, rfl⟩ : _ ∧ c = c' := by simpa [outcome] using turn
    rfl
  | undefined => simp [outcome] at turn
  | failed ret =>
    obtain ⟨-, rfl⟩ : _ ∧ c = c' := by simpa [outcome] using turn
    rfl
  | returned ret =>
    by_cases neg : ret ≤ 0
    · obtain ⟨-, rfl⟩ : _ ∧ c = c' := by simpa [outcome, neg] using turn
      rfl
    · rcases pack : out.pack with _ | ⟨off, len⟩
      · obtain ⟨-, rfl⟩ : _ ∧ c = c' := by simpa [outcome, neg, pack] using turn
        rfl
      · by_cases void : len ≤ 0
        · obtain ⟨-, rfl⟩ : _ ∧ c = c' := by simpa [outcome, neg, pack, void] using turn
          rfl
        · cases handled : handle s start text (bufferAt base out.stream) (base + off) len.toNat with
          | crashed e => simp [outcome, neg, pack, void, handled] at turn
          | answered r => simp [outcome, neg, pack, void, handled] at turn
          | ends r =>
            obtain ⟨-, rfl⟩ : _ ∧ _ = c' := by
              simpa [outcome, neg, pack, void, handled] using turn
            rfl

/-- A turn that reads, and after which the loop goes on, has taken a packet. -/
theorem readTurn_again (sized : Pool pool maxSize)
    (turn : readTurn s start text base pool c = .again c') : c'.polls = c.polls ∧
      ∃ p got rest, Took withTimeout true (streamOf pool c.round) [] c.script
        (readPacketTimeout true (streamOf pool c.round) c.script) p got rest ∧
      c'.script = (readPacketTimeout true (streamOf pool c.round) c.script).script ∧
      c'.requests = c.requests ++ [p] := by
  have reads := reads_streamOf sized c.round c.script
  rw [readTurn] at turn
  obtain ⟨ret, off, len, outcome, pos, pack, script, polls, requests⟩ := afterRead_again turn
  rcases reads.returns ret outcome with ⟨rfl, p, got, rest, took⟩ | ⟨neg, -⟩
  · obtain ⟨rfl, rfl⟩ := Prod.mk.inj (Option.some.inj (took.pack.symm.trans pack))
    refine ⟨polls, p, got, rest, took, script, ?_⟩
    rw [requests, Int.toNat_natCast, took.here]
  · omega

/-- A turn after which the loop goes on has found nothing to read, or it has taken a packet. -/
theorem turn_again (sized : Pool pool maxSize) (turn : connTurn s start text base pool c = .again c') :
    (turns c.polls = turns c'.polls ∧ c'.script = c.script ∧ c'.requests = c.requests) ∨
    (turns c.polls = turns c'.polls + 1 ∧
      ∃ p got rest, Took withTimeout true (streamOf pool c.round) [] c.script
        (readPacketTimeout true (streamOf pool c.round) c.script) p got rest ∧
      c'.script = (readPacketTimeout true (streamOf pool c.round) c.script).script ∧
      c'.requests = c.requests ++ [p]) := by
  rw [connTurn] at turn
  rcases polls : c.polls with _ | ⟨_ | _ | _ | _ | _ | _, polls⟩
  · simp [polls] at turn
  · simp [polls] at turn
  · obtain rfl : _ = c' := by simpa [polls] using turn
    exact .inl ⟨rfl, rfl, rfl⟩
  · obtain rfl : _ = c' := by simpa [polls] using turn
    exact .inl ⟨rfl, rfl, rfl⟩
  · simp [polls] at turn
  · simp only [polls] at turn
    obtain ⟨same, took⟩ := readTurn_again sized turn
    refine .inr ⟨?_, took⟩
    rw [same, turns]
  · simp [polls] at turn

theorem readTurn_leave {e : ConnEnd} (turn : readTurn s start text base pool c = .leave (e, c')) :
    c'.requests = c.requests := by
  rw [readTurn] at turn
  have kept := afterRead_leave turn
  exact kept

theorem turn_leave {e : ConnEnd} (turn : connTurn s start text base pool c = .leave (e, c')) :
    c'.requests = c.requests := by
  rw [connTurn] at turn
  rcases polls : c.polls with _ | ⟨_ | _ | _ | _ | _ | _, polls⟩
  · obtain ⟨-, rfl⟩ : _ ∧ c = c' := by simpa [polls] using turn
    rfl
  · obtain ⟨-, rfl⟩ : _ ∧ _ = c' := by simpa [polls] using turn
    rfl
  · simp [polls] at turn
  · simp [polls] at turn
  · obtain ⟨-, rfl⟩ : _ ∧ _ = c' := by simpa [polls] using turn
    rfl
  · simp only [polls] at turn
    have kept := readTurn_leave turn
    exact kept
  · obtain ⟨-, rfl⟩ : _ ∧ _ = c' := by simpa [polls] using turn
    rfl

/-- The packets of a run are in the bytes that came. -/
theorem returns_requests (sized : Pool pool maxSize) (once : ∀ a ∈ c.script, Once a) {e : ConnEnd}
    (returns : Returns (connTurn s start text base pool) c (e, c')) :
    ∃ qs, c'.requests = c.requests ++ qs ∧ (stream qs).length ≤ (bytesOf c.script).length := by
  let inv : Conn M → Prop := fun d => (∀ a ∈ d.script, Once a) ∧ ∃ qs,
    d.requests = c.requests ++ qs ∧
      (stream qs).length + (bytesOf d.script).length ≤ (bytesOf c.script).length
  let post : ConnEnd × Conn M → Prop := fun t => ∃ qs, t.2.requests = c.requests ++ qs ∧
    (stream qs).length ≤ (bytesOf c.script).length
  have start : inv c := ⟨once, [], by simp, by simp⟩
  refine Returns.post inv post returns start ?_ ?_
  · rintro d d' ⟨once', qs, requests, le⟩ turn
    rcases turn_again sized turn with ⟨-, script, same⟩ | ⟨-, p, got, rest, took, script, more⟩
    · refine ⟨by rwa [script], qs, ?_, by rwa [script]⟩
      rw [same, requests]
    · have brings := took.brings (o := .timeout true) once'
      have bytes := congrArg List.length brings.bytes
      have frames := congrArg List.length took.frame
      rw [← script] at bytes
      simp only [List.length_append, frame_length, List.nil_append] at bytes frames
      refine ⟨fun a ha => once' a (brings.sub a (by rwa [← script])), qs ++ [p], ?_, ?_⟩
      · rw [more, requests, List.append_assoc]
      · simp only [stream_append, stream_cons, stream_nil, List.append_nil, List.length_append,
          frame_length]
        omega
  · rintro d ⟨e, d'⟩ ⟨-, qs, requests, le⟩ turn
    refine ⟨qs, ?_, by omega⟩
    rw [turn_leave turn, requests]

theorem binary_of_took {out : ReadOut} {got rest : List UInt8} {round : ℕ}
    (took : Took withTimeout true (streamOf pool round) [] script out p got rest) : Binary p := by
  intro b hb
  by_contra letter
  apply took.unrefused
  have frames := took.frame
  rw [List.nil_append] at frames ⊢
  refine ⟨?_, .inr (.inr ⟨rfl, b, ?_, by simpa using letter⟩)⟩
  · rw [frames, List.length_append, frame_length]
    omega
  · rw [frames, List.head?_append]
    simp only [Option.mem_def] at hb ⊢
    rw [hb]
    rfl

/-- A run that answers all requests reads them one by one. -/
theorem separate_of_returns (sized : Pool pool maxSize) (once : ∀ a ∈ c.script, Once a)
    (sent : bytesOf c.script <+: stream ps) {e : ConnEnd}
    (returns : Returns (connTurn s start text base pool) c (e, c'))
    (all : c'.requests = c.requests ++ ps) :
    Separate c.script ps ∧ ps.length ≤ turns c.polls ∧ ∀ p ∈ ps, Binary p := by
  obtain ⟨n, run⟩ := returns
  induction n generalizing c ps with
  | zero => cases run
  | succ n ih =>
    rw [Loop.run] at run
    cases turn : connTurn s start text base pool c with
    | undefined => simp [turn] at run
    | leave t =>
      obtain rfl : t = (e, c') := by simpa [turn] using run
      obtain rfl : ps = [] := by simpa [turn_leave turn] using all
      exact ⟨⟨[], c.script, rfl, .nil⟩, Nat.zero_le _, by simp⟩
    | again c₁ =>
      rw [turn] at run
      rcases turn_again sized turn with ⟨idle, script, same⟩ | ⟨one, p, got, rest, took, script, requests⟩
      · rw [← script] at sent once ⊢
        rw [← same] at all
        rw [idle]
        exact ih once sent all run
      · have brings := took.brings (o := .timeout true) once
        have once' : ∀ a ∈ c₁.script, Once a := fun a ha =>
          once a (brings.sub a (by rwa [← script]))
        obtain ⟨qs, more, le⟩ := returns_requests sized once' ⟨n, run⟩
        obtain rfl : ps = p :: qs := by
          rw [all, requests, List.append_assoc] at more
          exact List.append_cancel_left more
        have frames := took.frame
        rw [List.nil_append] at frames
        rw [brings.bytes, ← script, frames, stream_cons, List.append_assoc,
          List.prefix_append_right_inj] at sent
        have none : rest = [] := by
          have length := sent.length_le
          rw [List.length_append] at length
          exact List.eq_nil_of_length_eq_zero (by omega)
        rw [none, List.nil_append] at sent
        rw [none, List.append_nil] at frames
        obtain ⟨⟨groups, tail, parts, whole⟩, enough, binary⟩ := ih once' sent more run
        obtain ⟨used, split, group⟩ := took.gets.used
        rw [← script, parts] at split
        rw [frames] at group
        refine ⟨⟨used :: groups, tail, by simp [split], .cons group whole⟩, ?_, ?_⟩
        · rw [List.length_cons]
          omega
        · intro q hq
          rcases List.mem_cons.mp hq with rfl | hq
          · exact binary_of_took took
          · exact binary q hq

/-- Where no data is left, a turn that reads leaves the loop. -/
theorem readTurn_leaves (sized : Pool pool maxSize) (once : ∀ a ∈ c.script, Once a)
    (none : bytesOf c.script = []) : ∃ e c', readTurn s start text base pool c = .leave (e, c') := by
  have reads := reads_streamOf sized c.round c.script
  have empty : ∀ {got script'}, Gets withTimeout true c.script got script' → got = [] := by
    intro got script' gets
    have bytes := (gets_brings (o := .timeout true) gets once).bytes
    rw [none] at bytes
    exact (List.append_eq_nil_iff.mp bytes.symm).1
  have unrefused : ∀ {got script'}, Gets withTimeout true c.script got script' →
      ¬ Refused (streamOf pool c.round) ([] ++ got) := by
    intro got script' gets refused
    rw [empty gets] at refused
    exact absurd refused.1 (by decide)
  rw [readTurn]
  cases outcome : (readPacketTimeout true (streamOf pool c.round) c.script).outcome with
  | waits =>
    simp only [afterRead, outcome]
    exact ⟨_, _, rfl⟩
  | impossible =>
    simp only [afterRead, outcome]
    exact ⟨_, _, rfl⟩
  | failed ret =>
    simp only [afterRead, outcome]
    exact ⟨_, _, rfl⟩
  | undefined =>
    obtain ⟨got, script', gets, refused⟩ := reads.undefined outcome
    exact absurd refused (unrefused gets)
  | returned ret =>
    rcases reads.returns ret outcome with ⟨-, p, got, rest, took⟩ | ⟨-, got, script', gets, refused⟩
    · have frames := congrArg List.length took.frame
      rw [empty took.gets, List.length_append, List.length_append, frame_length] at frames
      simp only [List.length_nil] at frames
      omega
    · exact absurd refused (unrefused gets)

theorem turn_timeout {round : ℕ} {requests : List (List UInt8)} {replies : List (Reply M)} :
    connTurn s start text base pool ⟨.timeout :: polls, script, round, requests, replies⟩ =
      .again ⟨polls, script, round, requests, replies⟩ := rfl

theorem turn_interrupted {round : ℕ} {requests : List (List UInt8)} {replies : List (Reply M)} :
    connTurn s start text base pool ⟨.interrupted :: polls, script, round, requests, replies⟩ =
      .again ⟨polls, script, round, requests, replies⟩ := rfl

/-- Where no data is left, the loop ends without another request. -/
theorem returns_idle (sized : Pool pool maxSize) (once : ∀ a ∈ c.script, Once a)
    (none : bytesOf c.script = []) : ∃ e c', Returns (connTurn s start text base pool) c (e, c') ∧
      c'.requests = c.requests := by
  obtain ⟨polls, script, round, requests, replies⟩ := c
  induction polls with
  | nil => exact ⟨_, _, .of_leave rfl, rfl⟩
  | cons polled polls ih =>
    obtain ⟨e, c', returns, same⟩ := ih once none
    rcases polled with _ | _ | _ | _ | _ | _
    · exact ⟨_, _, .of_leave rfl, rfl⟩
    · exact ⟨e, c', (returns_again turn_timeout).mpr returns, same⟩
    · exact ⟨e, c', (returns_again turn_interrupted).mpr returns, same⟩
    · exact ⟨_, _, .of_leave rfl, rfl⟩
    · obtain ⟨e, c', turn⟩ : ∃ e c', readTurn s start text base pool
          ⟨polls, script, round, requests, replies⟩ = .leave (e, c') :=
        readTurn_leaves sized once none
      have kept := readTurn_leave turn
      exact ⟨e, c', .of_leave turn, kept⟩
    · exact ⟨_, _, .of_leave rfl, rfl⟩

/-- A `read_packet` that gets one frame, whatever is behind it. -/
theorem read_group (sized : Pool pool maxSize) {round : ℕ} {group more : List Attempt}
    (gets : Gets withTimeout true group (frame p) []) (pos : 0 < p.length)
    (le : p.length ≤ maxSize - 4) (binary : Binary p) (possible :
      (readPacketTimeout true (streamOf pool round) (group ++ more)).outcome ≠ .impossible) :
    Gives (readPacketTimeout true (streamOf pool round) (group ++ more)) p ∧
      (readPacketTimeout true (streamOf pool round) (group ++ more)).script = more := by
  have size : (streamOf pool round).maxSize = maxSize := sized.size round
  have small := sized.small
  have big := sized.big
  have short : Short p := by
    rw [Short]
    omega
  have reads := reads_streamOf sized round group
  have unrefused : ∀ {got script'}, Gets withTimeout true group got script' →
      ¬ Refused (streamOf pool round) ([] ++ got) := by
    intro got script' part refused
    obtain ⟨_, rest, -, split⟩ := part.split gets
    rw [List.nil_append, ← refused_append (by simpa using refused.1) rest, ← split] at refused
    have len : announced (frame p) = p.length := by simpa using announced_frame short []
    rcases refused with ⟨-, zero | large | ⟨-, c, hc, letter⟩⟩
    · omega
    · omega
    · rw [binary c hc] at letter
      cases letter
  have ends : (readPacketTimeout true (streamOf pool round) group).outcome ≠ .waits := by
    intro waits
    obtain ⟨-, got, part, unfinished⟩ := reads.waits waits
    obtain ⟨_, rest, last, split⟩ := part.split gets
    cases last
    rw [List.append_nil] at split
    rw [List.nil_append, ← split] at unfinished
    exact absurd unfinished (by simpa using not_unfinished_frame short [])
  have behind : readPacketTimeout true (streamOf pool round) (group ++ more) =
      ReadOut.more more (readPacketTimeout true (streamOf pool round) group) :=
    readPacketWith_more _ more ends
  rw [behind] at possible ⊢
  cases outcome : (readPacketTimeout true (streamOf pool round) group).outcome with
  | waits => exact absurd outcome ends
  | impossible => exact absurd outcome possible
  | failed ret =>
    obtain ⟨got, stops⟩ := reads.failed ret outcome
    exact absurd stops gets.not_stops
  | undefined =>
    obtain ⟨got, script', part, refused⟩ := reads.undefined outcome
    exact absurd refused (unrefused part)
  | returned ret =>
    rcases reads.returns ret outcome with ⟨rfl, p', got, rest, took⟩ | ⟨-, got, script', part, refused⟩
    · obtain ⟨_, rest', last, split⟩ := took.gets.split gets
      have frames := took.frame
      have inside := took.inside
      have fits := took.held.fits
      have same := took.maxSize
      have short' : Short p' := by
        rw [Short]
        omega
      rw [List.nil_append] at frames
      rw [frames, List.append_assoc, ← List.append_nil (frame p)] at split
      obtain ⟨rfl, none⟩ := frame_inj short short' split
      have spent := Gets.nil_of_nil (o := .timeout true) last
        (List.append_eq_nil_iff.mp none.symm).2
      exact ⟨⟨outcome, took.pack, took.here⟩, by simp [ReadOut.more, spent]⟩
    · exact absurd refused (unrefused part)

theorem readTurn_answers (at_base : 0 < base) (wellFormed : WellFormed s start text p)
    (pos : 0 < p.length)
    (gives : Gives (readPacketTimeout true (streamOf pool c.round) c.script) p) :
    ∃ r, readTurn s start text base pool c = .again
      ⟨c.polls, (readPacketTimeout true (streamOf pool c.round) c.script).script, c.round + 1,
        c.requests ++ [p], c.replies ++ [r]⟩ := by
  rw [readTurn]
  exact afterRead_answers at_base wellFormed pos gives

theorem readTurn_impossible (impossible :
    (readPacketTimeout true (streamOf pool c.round) c.script).outcome = .impossible) :
    ∃ c', readTurn s start text base pool c = .leave (.impossible, c') := by
  simp only [readTurn, afterRead, impossible]
  exact ⟨_, rfl⟩

/-- The requests of a run whose system calls can be grouped. -/
theorem returns_of_groups (sized : Pool pool maxSize) (at_base : 0 < base)
    {groups : List (List Attempt)} {tail : List Attempt} {requests : List (List UInt8)}
    {replies : List (Reply M)} {round : ℕ}
    (whole : List.Forall₂ (fun group p => Gets withTimeout true group (frame p) []) groups ps)
    (once : ∀ a ∈ tail, Once a) (rest : bytesOf tail = []) (enough : ps.length ≤ turns polls)
    (binary : ∀ p ∈ ps, Binary p) (valid : ∀ p ∈ ps, 0 < p.length ∧ p.length ≤ maxSize - 4)
    (wellFormed : ∀ p ∈ ps, WellFormed s start text p)
    (possible : ∀ c', ¬ Returns (connTurn s start text base pool)
      ⟨polls, groups.flatten ++ tail, round, requests, replies⟩ (.impossible, c')) :
    ∃ e c', Returns (connTurn s start text base pool)
      ⟨polls, groups.flatten ++ tail, round, requests, replies⟩ (e, c') ∧
      c'.requests = requests ++ ps := by
  induction polls generalizing groups ps round requests replies with
  | nil =>
    obtain rfl : ps = [] := List.eq_nil_of_length_eq_zero (Nat.le_zero.mp enough)
    exact ⟨_, _, .of_leave rfl, by simp⟩
  | cons polled polls ih =>
    cases whole with
    | nil =>
      obtain ⟨e, c', returns, same⟩ : ∃ e c', Returns (connTurn s start text base pool)
          ⟨polled :: polls, tail, round, requests, replies⟩ (e, c') ∧ c'.requests = requests :=
        returns_idle sized once rest
      exact ⟨e, c', returns, by simpa using same⟩
    | @cons group p groups ps gets whole =>
      rcases polled with _ | _ | _ | _ | _ | _
      · simp [turns] at enough
      · obtain ⟨e, c', returns, all⟩ := ih (.cons gets whole) enough binary valid wellFormed
          fun c' returns => possible c' ((returns_again turn_timeout).mpr returns)
        exact ⟨e, c', (returns_again turn_timeout).mpr returns, all⟩
      · obtain ⟨e, c', returns, all⟩ := ih (.cons gets whole) enough binary valid wellFormed
          fun c' returns => possible c' ((returns_again turn_interrupted).mpr returns)
        exact ⟨e, c', (returns_again turn_interrupted).mpr returns, all⟩
      · simp [turns] at enough
      · obtain ⟨pos, le⟩ := valid p (by simp)
        rw [List.flatten_cons, List.append_assoc] at possible ⊢
        let c : Conn M := ⟨polls, group ++ (groups.flatten ++ tail), round, requests, replies⟩
        have here : connTurn s start text base pool
            ⟨.ready false :: polls, group ++ (groups.flatten ++ tail), round, requests, replies⟩ =
              readTurn s start text base pool c := rfl
        have fits : (readPacketTimeout true (streamOf pool round)
            (group ++ (groups.flatten ++ tail))).outcome ≠ .impossible := by
          intro impossible
          obtain ⟨c', turn⟩ : ∃ c', readTurn s start text base pool c = .leave (.impossible, c') :=
            readTurn_impossible impossible
          exact possible c' (.of_leave (here.trans turn))
        obtain ⟨gives, behind⟩ := read_group sized gets pos le (binary p (by simp)) fits
        obtain ⟨r, turn⟩ := readTurn_answers (c := c) at_base (wellFormed p (by simp)) pos gives
        rw [behind] at turn
        have possible' : ∀ c', ¬ Returns (connTurn s start text base pool)
            ⟨polls, groups.flatten ++ tail, round + 1, requests ++ [p], replies ++ [r]⟩
              (.impossible, c') := fun c' returns =>
          possible c' ((returns_again (here.trans turn)).mpr returns)
        obtain ⟨e, c', returns, all⟩ := ih whole (Nat.le_of_succ_le_succ enough)
          (fun q hq => binary q (List.mem_cons_of_mem _ hq))
          (fun q hq => valid q (List.mem_cons_of_mem _ hq))
          (fun q hq => wellFormed q (List.mem_cons_of_mem _ hq)) possible'
        exact ⟨e, c', (returns_again (here.trans turn)).mpr returns, by simpa using all⟩
      · simp [turns] at enough

theorem bytesOf_groups {o : Overload} {groups : List (List Attempt)} {hasData : Bool}
    (whole : List.Forall₂ (fun group p => Gets o.reader hasData group (frame p) []) groups ps)
    (once : ∀ a ∈ groups.flatten, Once a) : bytesOf groups.flatten = stream ps := by
  induction whole with
  | nil => rfl
  | cons gets whole ih =>
    simp only [List.flatten_cons, List.mem_append] at once ⊢
    have first := (gets_brings gets fun a ha => once a (.inl ha)).bytes
    rw [bytesOf_append, ih fun a ha => once a (.inr ha), first, stream_cons]
    simp [bytesOf]

/-- All requests that a client sends are answered if and only if each of them comes in time and with
calls of `recv` of its own, none starts like an http request, and the loop reads often enough before the
server stops, `co_poll` fails or the peer hangs up. -/
theorem answersAll_iff (s : RpcPbServerBase M) (start : PbField) (text : ℤ)
    (sized : Pool pool maxSize) (at_base : 0 < base) (once : ∀ a ∈ script, Once a)
    (valid : ∀ p ∈ ps, 0 < p.length ∧ p.length ≤ maxSize - 4)
    (wellFormed : ∀ p ∈ ps, WellFormed s start text p) (sent : bytesOf script <+: stream ps)
    (possible : ∀ c, ¬ Returns (connTurn s start text base pool) (Conn.init polls script)
      (.impossible, c)) :
    AnswersAll s start text base pool polls script ps ↔
      Separate script ps ∧ ps.length ≤ turns polls ∧ ∀ p ∈ ps, Binary p := by
  constructor
  · rintro ⟨e, c, returns, rfl⟩
    exact separate_of_returns sized once sent returns rfl
  · rintro ⟨⟨groups, tail, rfl, whole⟩, enough, binary⟩
    simp only [List.mem_append] at once
    have brought := bytesOf_groups (o := .timeout true) whole fun a ha => once a (.inl ha)
    rw [bytesOf_append, brought] at sent
    have none : bytesOf tail = [] := by
      have length := sent.length_le
      rw [List.length_append] at length
      exact List.eq_nil_of_length_eq_zero (by omega)
    obtain ⟨e, c, returns, all⟩ := returns_of_groups sized at_base whole (fun a ha => once a (.inr ha))
      none enough binary valid wellFormed possible
    exact ⟨e, c, returns, all⟩

end Run

/-- A request for the command `ping`. -/
def pingRequest : List UInt8 := [0x08, 1, 0x18, 1]

def fresh : PbField := ⟨0, 0, 0, 0, 0, 0⟩

theorem wellFormed_pingRequest : WellFormed pingServer fresh 0 pingRequest := by
  intro mem data nonnull held
  let asked : CmdBase := { CmdBase.init with type := 1, cmdId := 1 }
  have bytes : encoding (fun _ => 0) asked none = pingRequest := by decide
  have parsed : content mem (headOf mem fresh data (encoding (fun _ => 0) asked none).length) =
      contentWith (fun _ => 0) asked none :=
    parse_encoding (by rw [bytes]; exact held) (by rw [bytes]; decide) nonnull
  rw [bytes] at parsed
  have request : (headOf mem fresh data pingRequest.length).type = requestType :=
    congrArg Content.type parsed
  have id : (headOf mem fresh data pingRequest.length).cmdId = 1 := congrArg Content.cmdId parsed
  have names : (headOf mem fresh data pingRequest.length).cmdId > 0 ∨
      (headOf mem fresh data pingRequest.length).cmdName.len > 0 := .inl (by rw [id]; decide)
  have found : getRpcPbCmd pingServer mem (headOf mem fresh data pingRequest.length) = some ping := by
    rw [getRpcPbCmd, id]
    rfl
  have quiet : Printable pingServer ping
      ((headOf mem fresh data pingRequest.length).body.bytes mem) := by
    intro o outcome
    obtain rfl := Option.some.inj outcome
    simp [ping]
  obtain ⟨reply, served⟩ : ∃ reply, procTcpRpcPb pingServer mem fresh 0 data pingRequest.length =
      .ok (some reply) := by
    rw [procTcpRpcPb, serve_eq]
    exact ⟨_, (serveHead_found _ request names found).mpr ⟨quiet, rfl⟩⟩
  have target : target pingServer mem (headOf mem fresh data pingRequest.length) =
      .ok (some ping) := by
    rw [RpcServer.target, if_pos names, found]
  exact ⟨reply, handle_answered served target⟩

/-- A stream with a buffer of 64 bytes. -/
def smallStream : PacketStream := ⟨64, fun _ => 0, 0, 0, false⟩

theorem pool_smallStream : Pool (fun _ => smallStream) 64 := ⟨fun _ => rfl, by decide, by decide⟩

/-- A `recv` finds one byte and then, after `poll`, the rest. -/
def inPieces : List Attempt :=
  [⟨.data [0], .pollIn, .data [0], false⟩, brings [0, 0], brings (4 :: pingRequest)]

theorem gets_whole {bs : List UInt8} (some : bs ≠ []) : Gets withTimeout true [brings bs] bs [] := by
  obtain ⟨read, late⟩ := (fine_brings some).reads (.timeout true) true
  have gets : Gets withTimeout true [brings bs] (bs ++ []) [] := .cons read late .nil
  rwa [List.append_nil] at gets

theorem gets_inPieces : Gets withTimeout true inPieces (frame pingRequest) [] := by
  change Gets withTimeout true inPieces ([0] ++ ([0, 0] ++ ((4 :: pingRequest) ++ []))) []
  exact .cons rfl rfl (.cons rfl rfl (.cons rfl rfl .nil))

/-- The second request comes in pieces, after a time without data. -/
theorem answersAll_apart : AnswersAll pingServer fresh 0 1 (fun _ => smallStream)
    [.ready false, .timeout, .interrupted, .ready false, .ready true]
    (brings (frame pingRequest) :: inPieces) [pingRequest, pingRequest] := by
  obtain ⟨c', returns⟩ : ∃ c, Returns (connTurn pingServer fresh 0 1 fun _ => smallStream)
      (Conn.init [.ready false, .timeout, .interrupted, .ready false, .ready true]
        (brings (frame pingRequest) :: inPieces)) (.closes, c) := ⟨_, 5, rfl⟩
  apply (answersAll_iff pingServer fresh 0 pool_smallStream (by decide) ?_ ?_ ?_ ⟨[], rfl⟩ ?_).mpr
  · refine ⟨⟨[[brings (frame pingRequest)], inPieces], [], rfl, ?_⟩, by decide, ?_⟩
    · exact .cons (gets_whole (frame_ne_nil _)) (.cons gets_inPieces .nil)
    · have head : (frame pingRequest).head? = some 0 := rfl
      simp [Binary, head, isAlpha]
  · simp [Once, inPieces, brings]
  · simp [pingRequest]
  · simp [wellFormed_pingRequest]
  · intro c impossible
    simpa using returns.unique impossible

/-- Two requests come with one `recv`: the second one is lost. -/
theorem second_request_lost : ¬ ∀ (M : Type) (s : RpcPbServerBase M) (start : PbField)
    (text base : ℤ) (pool : ℕ → PacketStream) (maxSize : ℤ) (script : List Attempt)
    (ps : List (List UInt8)), Pool pool maxSize → 0 < base → (∀ a ∈ script, Fine a) →
    (∀ p ∈ ps, 0 < p.length ∧ p.length ≤ maxSize - 4) → (∀ p ∈ ps, WellFormed s start text p) →
    bytesOf script = stream ps → ∀ polls, polls = ps.map (fun _ => .ready false) →
    (∀ c, ¬ Returns (connTurn s start text base pool) (Conn.init polls script) (.impossible, c)) →
    AnswersAll s start text base pool polls script ps := by
  intro claim
  obtain ⟨c', returns, one⟩ : ∃ c, Returns (connTurn pingServer fresh 0 1 fun _ => smallStream)
      (Conn.init [.ready false, .ready false] [brings (frame pingRequest ++ frame pingRequest)])
      (.waits, c) ∧ c.requests.length = 1 := ⟨_, ⟨2, rfl⟩, rfl⟩
  obtain ⟨e, c, returns', both⟩ := claim Unit pingServer fresh 0 1 (fun _ => smallStream) 64
    [brings (frame pingRequest ++ frame pingRequest)] [pingRequest, pingRequest] pool_smallStream
    (by decide) (by simp [fine_brings, frame_ne_nil]) (by simp [pingRequest])
    (by simp [wellFormed_pingRequest]) rfl [.ready false, .ready false] rfl
    (fun c impossible => by simpa using returns.unique impossible)
  obtain rfl := (Prod.mk.inj (returns.unique returns')).2
  rw [both] at one
  cases one

end Conet.Svrkit.RpcTcpConn
