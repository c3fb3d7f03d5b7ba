/- Module: Conet/Svrkit/Channel
   source: svrkit/src/channel.cpp, svrkit/channel.h
   digest: The transmit queue of a channel: what is sent, and when buffers are freed. -/

import Conet.Lib.Trace
import Mathlib.Data.Int.Notation
import Mathlib.Data.List.Nodup
import Mathlib.Data.List.Range

set_option autoImplicit false
set_option relaxedAutoImplicit false

namespace Conet.Svrkit.Channel

open Conet.Lib

/-- `tx_data_t`, with the number of the call of `send_msg` that it comes from. A null `free_fn` is
`none`. -/
structure TxData where
  id : ℕ
  data : ℕ
  len : ℤ
  freeFn : Option ℕ
  freeArg : ℕ
  deriving DecidableEq

/-- Where `do_write_co` is: at the test of its loop, in `wait_on`, in the loop over the local queue,
in `send_data`, behind it, in the loop after a failure, or at its end. -/
inductive Writer
  | test
  | waits
  | batch (rest : List TxData)
  | sends (t : TxData) (rest : List TxData)
  | sent (t : TxData) (ret : ℤ) (rest : List TxData)
  | clears (rest : List TxData)
  | ended
  deriving DecidableEq

/-- The channel is in use, in its destructor, or gone. -/
inductive Life
  | up
  | dying
  | gone
  deriving DecidableEq

/-- `channel_t`, with the number of the calls of `send_msg`; `writer` is `w_co`. -/
structure Chan where
  txQueue : List TxData
  pendingTxNum : ℤ
  toStop : Bool
  rStop : Bool
  wStop : Bool
  writer : Option Writer
  life : Life
  count : ℕ
  deriving DecidableEq

def Chan.init : Chan := ⟨[], 0, false, false, false, none, .up, 0⟩

/-- What happens to a channel. `free` is the call of `free_fn`, if there is one, and the return of
the item to the pool; `wake` is any wake-up of the writer. -/
inductive Event
  | sendMsg (t : TxData)
  | start
  | stop
  | join
  | readerEnds
  | wake
  | test
  | hand (t : TxData)
  | returned (t : TxData) (ret : ℤ)
  | free (t : TxData)
  | next
  | destroy
  | gone
  deriving DecidableEq

section Steps

def sendMsg (c : Chan) (t : TxData) : Option Chan :=
  if t.id = c.count then
    some { c with
      txQueue := c.txQueue ++ [t]
      pendingTxNum := c.pendingTxNum + 1
      count := c.count + 1 }
  else none

/-- The test of the loop of `do_write_co`, and the swap of the queues. -/
def writerTest (c : Chan) : Chan :=
  if c.toStop = false ∧ c.rStop = false then
    if c.txQueue = [] then { c with writer := some .waits }
    else { c with txQueue := [], writer := some (.batch c.txQueue) }
  else { c with wStop := true, writer := some .ended }

/-- `do_write_co` frees an item after it has been sent, or among the rest of a batch that has failed. -/
def writerFree (c : Chan) (t : TxData) : Option Chan :=
  match c.writer with
  | some (.sent t' ret rest) =>
    if t = t' then some { c with
      pendingTxNum := c.pendingTxNum - 1
      writer := some (if ret ≤ 0 then .clears rest else .batch rest) }
    else none
  | some (.clears (t' :: rest)) => if t = t' then some { c with writer := some (.clears rest) } else none
  | _ => none

/-- The end of a loop over the local queue. -/
def writerNext (c : Chan) : Option Chan :=
  match c.writer with
  | some (.batch []) => some { c with writer := some .test }
  | some (.clears []) => some { c with wStop := true, writer := some .ended }
  | _ => none

/-- A step of an object that is in use. `stop` sets `to_stop`, as the first line of `stop()` does, a
callback that fails and the server; `join` is where `stop()` has waited for the writer. -/
def stepUp (c : Chan) : Event → Option Chan
  | .sendMsg t => sendMsg c t
  | .start => some (if c.writer = none then { c with writer := some .test } else c)
  | .stop => some { c with toStop := true }
  | .join => if c.toStop = true ∧ c.writer = some .ended then some { c with writer := none } else none
  | .readerEnds => some { c with rStop := true }
  | .wake => if c.writer = some .waits then some { c with writer := some .test } else none
  | .test => if c.writer = some .test then some (writerTest c) else none
  | .hand t =>
    match c.writer with
    | some (.batch (t' :: rest)) => if t = t' then some { c with writer := some (.sends t rest) } else none
    | _ => none
  | .returned t ret =>
    match c.writer with
    | some (.sends t' rest) => if t = t' then some { c with writer := some (.sent t ret rest) } else none
    | _ => none
  | .free t => writerFree c t
  | .next => writerNext c
  | .destroy => some { c with life := .dying }
  | .gone => none

/-- A step of the destructor, which frees what is in `tx_queue`. -/
def stepDying (c : Chan) : Event → Option Chan
  | .free t =>
    match c.txQueue with
    | t' :: queue => if t = t' then some { c with txQueue := queue } else none
    | [] => none
  | .gone => if c.txQueue = [] then some { c with life := .gone } else none
  | _ => none

/-- A step. The destructor does not ask for the writer; one that is still there does not go on when
the object it works on is taken away. -/
def step (c : Chan) (e : Event) : Option Chan :=
  match c.life with
  | .up => stepUp c e
  | .dying => stepDying c e
  | .gone => none

def Step (c : Chan) (e : Event) (c' : Chan) : Prop := step c e = some c'

end Steps

/-- The items passed to `send_msg`. -/
def accepted (tr : List Event) : List TxData :=
  tr.filterMap fun | .sendMsg t => some t | _ => none

/-- The items passed to `send_data`. -/
def handed (tr : List Event) : List TxData :=
  tr.filterMap fun | .hand t => some t | _ => none

def freed (tr : List Event) : List TxData :=
  tr.filterMap fun | .free t => some t | _ => none

/-- No item is freed in its send attempt or before it. -/
def Ordered (tr : List Event) : Prop := ∀ pre t post, tr = pre ++ .free t :: post →
  (.hand t ∈ pre → ∃ ret, .returned t ret ∈ pre) ∧ .hand t ∉ post

/-- The items sent are a first part of those accepted, each at most once; every item is freed at most
once, after its send attempt, and once when the channel is gone. -/
structure Safe (tr : List Event) (c : Chan) : Prop where
  prefixed : handed tr <+: accepted tr
  sentOnce : (handed tr).Nodup
  freedOnce : (freed tr).Nodup
  known : ∀ t ∈ freed tr, t ∈ accepted tr
  ordered : Ordered tr
  all : c.life = .gone → freed tr = accepted tr

/-- The items that the writer has in its local queue, and the one that it sends. -/
def held : Option Writer → List TxData
  | some (.batch rest) => rest
  | some (.sends t rest) => t :: rest
  | some (.sent t _ rest) => t :: rest
  | some (.clears rest) => rest
  | _ => []

/-- The writer sends no more when it is at its test, or started again. -/
def ending (c : Chan) : Bool := c.toStop || c.life != .up

/-- How far sending is ahead of freeing: the items in `early` were freed before the destructor ran. -/
def Ahead (tr : List Event) (early : List TxData) (ending : Bool) : Option Writer → Prop
  | some (.sends t _) => handed tr = early ++ [t]
  | some (.sent t ret _) => handed tr = early ++ [t] ∧ .returned t ret ∈ tr
  | some (.batch _) => handed tr = early
  | some .waits => handed tr = early
  | some .test => handed tr <+: early ∧ (ending = false → handed tr = early)
  | none => handed tr <+: early ∧ (ending = false → handed tr = early)
  | some (.clears _) => handed tr <+: early
  | some .ended => handed tr <+: early

/-- The invariant of a run: the destructor frees the items in `late`, past the ones that a writer holds. -/
structure Inv (tr : List Event) (c : Chan) (early late : List TxData) : Prop where
  freed : freed tr = early ++ late
  split : accepted tr = early ++ held c.writer ++ late ++ c.txQueue
  ids : (accepted tr).map TxData.id = List.range c.count
  ahead : Ahead tr early (ending c) c.writer
  ordered : Ordered tr
  up : c.life = .up → late = []
  gone : c.life = .gone → c.txQueue = []

section Run

variable {tr : List Event} {c c' : Chan} {e : Event} {t : TxData} {w : Option Writer}
  {done : Bool} {early late : List TxData}

@[simp] theorem accepted_append (tr tr' : List Event) :
    accepted (tr ++ tr') = accepted tr ++ accepted tr' := List.filterMap_append

@[simp] theorem handed_append (tr tr' : List Event) :
    handed (tr ++ tr') = handed tr ++ handed tr' := List.filterMap_append

@[simp] theorem freed_append (tr tr' : List Event) :
    freed (tr ++ tr') = freed tr ++ freed tr' := List.filterMap_append

theorem mem_freed : t ∈ freed tr ↔ .free t ∈ tr := by
  simp only [freed, List.mem_filterMap]
  constructor
  · rintro ⟨e, mem, same⟩
    cases e <;> simp at same
    rwa [← same]
  · intro mem
    exact ⟨.free t, mem, rfl⟩

theorem mem_handed : t ∈ handed tr ↔ .hand t ∈ tr := by
  simp only [handed, List.mem_filterMap]
  constructor
  · rintro ⟨e, mem, same⟩
    cases e <;> simp at same
    rwa [← same]
  · intro mem
    exact ⟨.hand t, mem, rfl⟩

/-- An event is added: a buffer that is freed has been sent before or not at all, and one that is
sent has not been freed. -/
theorem Ordered.snoc (ordered : Ordered tr)
    (frees : ∀ t, e = .free t → t ∈ handed tr → ∃ ret, .returned t ret ∈ tr)
    (hands : ∀ t, e = .hand t → t ∉ freed tr) : Ordered (tr ++ [e]) := by
  intro pre t post split
  rcases List.eq_nil_or_concat post with rfl | ⟨post, last, rfl⟩
  · obtain ⟨rfl, same⟩ := List.append_inj' split rfl
    refine ⟨fun mem => frees t (List.cons.inj same).1 (mem_handed.mpr mem), by simp⟩
  · rw [List.concat_eq_append, ← List.cons_append, ← List.append_assoc] at split
    obtain ⟨earlier, same⟩ := List.append_inj' split rfl
    obtain rfl := (List.cons.inj same).1
    obtain ⟨before, after⟩ := ordered pre t post earlier
    refine ⟨before, ?_⟩
    rw [List.concat_eq_append, List.mem_append, List.mem_singleton]
    rintro (mem | rfl)
    · exact after mem
    · refine hands t rfl (mem_freed.mpr ?_)
      simp [earlier]

theorem Ahead.mono (ahead : Ahead tr early done w) (hands : handed [e] = []) :
    Ahead (tr ++ [e]) early done w := by
  have hand : handed (tr ++ [e]) = handed tr := by rw [handed_append, hands, List.append_nil]
  rcases w with _ | _ | _ | _ | _ | _ | _ | _
  case some.sent =>
    simp only [Ahead, hand] at ahead ⊢
    exact ⟨ahead.1, by simp [ahead.2]⟩
  all_goals simpa only [Ahead, hand] using ahead

theorem Ahead.ending (ahead : Ahead tr early done w) : Ahead tr early true w := by
  rcases w with _ | _ | _ | _ | _ | _ | _ | _
  case none => exact ⟨ahead.1, by simp⟩
  case some.test => exact ⟨ahead.1, by simp⟩
  all_goals exact ahead

theorem Ahead.prefixed (ahead : Ahead tr early done w) : handed tr <+: early ++ held w := by
  rcases w with _ | _ | _ | _ | _ | _ | _ | _
  case none => simpa [held] using ahead.1
  case some.test => simpa [held] using ahead.1
  case some.waits => simp [held, show handed tr = early from ahead]
  case some.batch => simp [held, show handed tr = early from ahead]
  case some.sends t rest =>
    rw [held, show handed tr = early ++ [t] from ahead]
    exact ⟨rest, by simp⟩
  case some.sent t ret rest =>
    rw [held, ahead.1]
    exact ⟨rest, by simp⟩
  case some.clears rest =>
    exact List.IsPrefix.trans ahead (List.prefix_append ..)
  case some.ended =>
    exact List.IsPrefix.trans ahead (List.prefix_append ..)

theorem Inv.nodup (inv : Inv tr c early late) : (accepted tr).Nodup := by
  apply List.Nodup.of_map TxData.id
  rw [inv.ids]
  exact List.nodup_range

theorem Inv.handed_prefix (inv : Inv tr c early late) : handed tr <+: accepted tr := by
  rw [inv.split, List.append_assoc]
  exact inv.ahead.prefixed.trans (List.prefix_append ..)

theorem Inv.freed_sublist (inv : Inv tr c early late) : (Channel.freed tr).Sublist (accepted tr) := by
  rw [inv.split, inv.freed]
  refine List.Sublist.trans ?_ (List.sublist_append_left ..)
  exact (List.sublist_append_left ..).append (List.Sublist.refl late)

/-- When the channel is gone, the items that a writer held are the ones that were not freed. -/
theorem Inv.safe_iff_held (inv : Inv tr c early late) : Safe tr c ↔ (c.life = .gone → held c.writer = []) := by
  constructor
  · intro safe gone
    have all := safe.all gone
    rw [inv.freed, inv.split, inv.gone gone] at all
    simpa using congrArg List.length all
  · intro none
    refine ⟨inv.handed_prefix, inv.nodup.sublist inv.handed_prefix.sublist, inv.nodup.sublist inv.freed_sublist,
      fun t mem => inv.freed_sublist.subset mem, inv.ordered, fun gone => ?_⟩
    rw [inv.freed, inv.split, inv.gone gone, none gone]
    simp

theorem Inv.init : Inv [] .init [] [] :=
  ⟨rfl, rfl, rfl, ⟨List.prefix_rfl, fun _ => rfl⟩, fun pre t post split => by simp at split, fun _ => rfl,
    fun gone => by cases gone⟩

/-- An event without a buffer: the items stay where they are, in the queue or with the writer. -/
theorem Inv.quiet (inv : Inv tr c early late) (accepts : accepted [e] = []) (hands : handed [e] = [])
    (frees : Channel.freed [e] = [])
    (items : held c'.writer ++ late ++ c'.txQueue = held c.writer ++ late ++ c.txQueue)
    (count : c'.count = c.count) (ahead : Ahead tr early (Channel.ending c') c'.writer)
    (up : c'.life = .up → late = []) (gone : c'.life = .gone → c'.txQueue = []) :
    Inv (tr ++ [e]) c' early late := by
  refine ⟨?_, ?_, ?_, ahead.mono hands, inv.ordered.snoc ?_ ?_, up, gone⟩
  · rw [freed_append, frees, List.append_nil, inv.freed]
  · rw [accepted_append, accepts, List.append_nil, inv.split]
    simpa using items.symm
  · rw [accepted_append, accepts, List.append_nil, inv.ids, count]
  · rintro t rfl
    simp [Channel.freed] at frees
  · rintro t rfl
    simp [handed] at hands

/-- The next item is freed, by the writer or by the destructor. -/
theorem Inv.frees {early' late' : List TxData} (inv : Inv tr c early late)
    (order : early' ++ late' = early ++ late ++ [t])
    (items : early' ++ held c'.writer ++ late' ++ c'.txQueue = early ++ held c.writer ++ late ++ c.txQueue)
    (count : c'.count = c.count) (sent : t ∈ handed tr → ∃ ret, .returned t ret ∈ tr)
    (ahead : Ahead tr early' (Channel.ending c') c'.writer)
    (up : c'.life = .up → late' = []) (gone : c'.life = .gone → c'.txQueue = []) :
    Inv (tr ++ [.free t]) c' early' late' := by
  have same : accepted [.free t] = [] := rfl
  refine ⟨?_, ?_, ?_, ahead.mono rfl, inv.ordered.snoc ?_ (by simp), up, gone⟩
  · rw [freed_append, inv.freed, order]
    rfl
  · rw [accepted_append, same, List.append_nil, inv.split, items]
  · rw [accepted_append, same, List.append_nil, inv.ids, count]
  · rintro t' same' mem
    obtain rfl := Event.free.inj same'
    exact sent mem

/-- The next item of the local queue goes to `send_data`. -/
theorem Inv.hand (inv : Inv tr c early []) {rest : List TxData} (writer : c.writer = some (.batch (t :: rest))) :
    Inv (tr ++ [.hand t]) { c with writer := some (.sends t rest) } early [] := by
  have split := inv.split
  have ahead := inv.ahead
  rw [writer] at split ahead
  refine ⟨?_, ?_, ?_, ?_, inv.ordered.snoc (by simp) ?_, fun _ => rfl, inv.gone⟩
  · simpa [Channel.freed] using inv.freed
  · simpa [accepted, held] using split
  · simpa [accepted] using inv.ids
  · have hands : handed tr = early := ahead
    rw [Ahead, handed_append, hands]
    rfl
  · rintro t' same
    obtain rfl := Event.hand.inj same
    have nodup := inv.nodup
    rw [split, List.append_assoc, List.append_assoc] at nodup
    intro before
    rw [inv.freed, List.append_nil] at before
    exact List.disjoint_of_nodup_append nodup before (by simp [held])

section Up

variable (up : c.life = .up)
include up

theorem Inv.sendMsg (inv : Inv tr c early []) (step : sendMsg c t = some c') :
    Inv (tr ++ [.sendMsg t]) c' early [] := by
  rw [Channel.sendMsg] at step
  split_ifs at step with id
  obtain rfl := Option.some.inj step
  have more : accepted [.sendMsg t] = [t] := rfl
  have same : Channel.freed [.sendMsg t] = [] := rfl
  refine ⟨?_, ?_, ?_, inv.ahead.mono rfl, inv.ordered.snoc (by simp) (by simp), fun _ => rfl, ?_⟩
  · rw [freed_append, same, List.append_nil, inv.freed]
  · rw [accepted_append, more, inv.split]
    simp
  · rw [accepted_append, more, List.map_append, inv.ids, List.map_singleton, id, List.range_succ]
  · simp [up]

theorem Inv.writerFree (inv : Inv tr c early []) (step : writerFree c t = some c') :
    Inv (tr ++ [.free t]) c' (early ++ [t]) [] := by
  have ahead := inv.ahead
  rw [Channel.writerFree] at step
  split at step
  case h_1 t' ret rest writer =>
    split at step
    case isFalse => cases step
    case isTrue equal =>
      subst equal
      obtain rfl := Option.some.inj step
      rw [writer] at ahead
      obtain ⟨one, returned⟩ := ahead
      refine inv.frees (by simp) ?_ rfl (fun _ => ⟨_, returned⟩) ?_ (fun _ => rfl) (by simp [up])
      · rw [writer]
        split <;> simp [held]
      · dsimp only
        split
        · exact one ▸ List.prefix_rfl
        · exact one
  case h_2 t' rest writer =>
    split_ifs at step with equal
    subst equal
    obtain rfl := Option.some.inj step
    rw [writer] at ahead
    have behind : handed tr <+: early := ahead
    refine inv.frees (by simp) (by simp [writer, held]) rfl ?_ (behind.trans (List.prefix_append ..))
      (fun _ => rfl) (by simp [up])
    intro sent
    have nodup := inv.nodup
    rw [inv.split, List.append_assoc, List.append_assoc] at nodup
    exact absurd (by simp [writer, held]) (List.disjoint_of_nodup_append nodup (behind.subset sent))
  case h_3 => cases step

theorem Inv.writerTest (inv : Inv tr c early []) (writer : c.writer = some .test) :
    Inv (tr ++ [.test]) (writerTest c) early [] := by
  have ahead := inv.ahead
  rw [writer] at ahead
  rw [Channel.writerTest]
  split
  case isTrue going =>
    have same : handed tr = early := ahead.2 (by simp [Channel.ending, going.1, up])
    split
    case isTrue none =>
      exact inv.quiet rfl rfl rfl (by simp [writer, held]) rfl same (fun _ => rfl) (by simp [up])
    case isFalse =>
      exact inv.quiet rfl rfl rfl (by simp [writer, held]) rfl same (fun _ => rfl) (by simp [up])
  case isFalse =>
    exact inv.quiet rfl rfl rfl (by simp [writer, held]) rfl ahead.1 (fun _ => rfl) (by simp [up])

theorem Inv.returned (inv : Inv tr c early []) {rest : List TxData} {ret : ℤ}
    (writer : c.writer = some (.sends t rest)) :
    Inv (tr ++ [.returned t ret]) { c with writer := some (.sent t ret rest) } early [] := by
  have ahead := inv.ahead
  rw [writer] at ahead
  have one : handed tr = early ++ [t] := ahead
  refine ⟨?_, ?_, ?_, ?_, inv.ordered.snoc (by simp) (by simp), fun _ => rfl, by simp [up]⟩
  · simpa [Channel.freed] using inv.freed
  · simpa [accepted, writer, held] using inv.split
  · simpa [accepted] using inv.ids
  · exact ⟨by simpa [handed] using one, by simp⟩

theorem Inv.writerNext (inv : Inv tr c early []) (step : writerNext c = some c') :
    Inv (tr ++ [.next]) c' early [] := by
  have ahead := inv.ahead
  rw [Channel.writerNext] at step
  split at step
  case h_1 writer =>
    obtain rfl := Option.some.inj step
    rw [writer] at ahead
    have same : handed tr = early := ahead
    exact inv.quiet rfl rfl rfl (by simp [writer, held]) rfl ⟨same ▸ List.prefix_rfl, fun _ => same⟩
      (fun _ => rfl) (by simp [up])
  case h_2 writer =>
    obtain rfl := Option.some.inj step
    rw [writer] at ahead
    exact inv.quiet rfl rfl rfl (by simp [writer, held]) rfl ahead (fun _ => rfl) (by simp [up])
  case h_3 => cases step

/-- What one step does to an object that is in use. -/
theorem Inv.stepUp (inv : Inv tr c early []) (step : stepUp c e = some c') :
    ∃ early', Inv (tr ++ [e]) c' early' [] := by
  have ahead := inv.ahead
  cases e with
  | sendMsg t => exact ⟨early, inv.sendMsg up step⟩
  | free t => exact ⟨_, inv.writerFree up step⟩
  | next => exact ⟨early, inv.writerNext up step⟩
  | start =>
    obtain rfl := Option.some.inj step
    refine ⟨early, ?_⟩
    split
    · rename_i none
      rw [none] at ahead
      exact inv.quiet rfl rfl rfl (by simp [none, held]) rfl ahead (fun _ => rfl) inv.gone
    · exact inv.quiet rfl rfl rfl rfl rfl ahead (fun _ => rfl) inv.gone
  | stop =>
    obtain rfl := Option.some.inj step
    exact ⟨early, inv.quiet rfl rfl rfl rfl rfl ahead.ending (fun _ => rfl) inv.gone⟩
  | readerEnds =>
    obtain rfl := Option.some.inj step
    exact ⟨early, inv.quiet rfl rfl rfl rfl rfl ahead (fun _ => rfl) inv.gone⟩
  | join =>
    simp only [Channel.stepUp] at step
    split_ifs at step with ended
    obtain rfl := Option.some.inj step
    rw [ended.2] at ahead
    exact ⟨early, inv.quiet rfl rfl rfl (by simp [ended.2, held]) rfl
      ⟨ahead, by simp [Channel.ending, ended.1]⟩ (fun _ => rfl) inv.gone⟩
  | wake =>
    simp only [Channel.stepUp] at step
    split_ifs at step with writer
    obtain rfl := Option.some.inj step
    rw [writer] at ahead
    have same : handed tr = early := ahead
    exact ⟨early, inv.quiet rfl rfl rfl (by simp [writer, held]) rfl
      ⟨same ▸ List.prefix_rfl, fun _ => same⟩ (fun _ => rfl) inv.gone⟩
  | test =>
    simp only [Channel.stepUp] at step
    split_ifs at step with writer
    obtain rfl := Option.some.inj step
    exact ⟨early, inv.writerTest up writer⟩
  | hand t =>
    simp only [Channel.stepUp] at step
    split at step
    case h_1 t' rest writer =>
      split_ifs at step with equal
      subst equal
      obtain rfl := Option.some.inj step
      exact ⟨early, inv.hand writer⟩
    case h_2 => cases step
  | returned t ret =>
    simp only [Channel.stepUp] at step
    split at step
    case h_1 t' rest writer =>
      split_ifs at step with equal
      subst equal
      obtain rfl := Option.some.inj step
      exact ⟨early, inv.returned up writer⟩
    case h_2 => cases step
  | destroy =>
    obtain rfl := Option.some.inj step
    have done : Channel.ending { c with life := .dying } = true := by simp [Channel.ending]
    exact ⟨early, inv.quiet rfl rfl rfl rfl rfl (done ▸ ahead.ending) (fun _ => rfl) (by simp)⟩
  | gone => cases step

end Up

theorem Inv.stepDying (inv : Inv tr c early late) (dying : c.life = .dying)
    (step : stepDying c e = some c') : ∃ late', Inv (tr ++ [e]) c' early late' := by
  cases e with
  | free t =>
    simp only [Channel.stepDying] at step
    split at step
    case h_1 t' queue items =>
      split_ifs at step with equal
      subst equal
      obtain rfl := Option.some.inj step
      refine ⟨late ++ [t], inv.frees (by simp) (by simp [items]) rfl ?_ inv.ahead (by simp [dying])
        (by simp [dying])⟩
      -- what is in the queue has not been sent
      intro sent
      have nodup := inv.nodup
      rw [inv.split, items, List.append_assoc] at nodup
      exact absurd (by simp) (List.disjoint_of_nodup_append nodup (inv.ahead.prefixed.subset sent))
    case h_2 => cases step
  | gone =>
    simp only [Channel.stepDying] at step
    split_ifs at step with empty
    obtain rfl := Option.some.inj step
    have done : Channel.ending { c with life := .gone } = true := by simp [Channel.ending]
    exact ⟨late, inv.quiet rfl rfl rfl rfl rfl (done ▸ inv.ahead.ending) (by simp) fun _ => empty⟩
  | _ => cases step

theorem Inv.step (inv : Inv tr c early late) (step : Step c e c') :
    ∃ early' late', Inv (tr ++ [e]) c' early' late' := by
  rw [Step, Channel.step] at step
  split at step
  case h_1 up =>
    obtain rfl := inv.up up
    obtain ⟨early', inv'⟩ := inv.stepUp up step
    exact ⟨early', [], inv'⟩
  case h_2 dying =>
    obtain ⟨late', inv'⟩ := inv.stepDying dying step
    exact ⟨early, late', inv'⟩
  case h_3 => cases step

/-- The destructor is not run while the writer has a local queue. -/
def Settled (c : Chan) (e : Event) : Prop := e = .destroy → held c.writer = []

/-- A channel in use is taken away by `destroy` alone, and from then on the writer stays as it is. -/
theorem step_life (step : Step c e c') :
    (c.life = .up ∧ (e = .destroy ∧ c'.writer = c.writer ∨ e ≠ .destroy ∧ c'.life = .up)) ∨
      (c.life ≠ .up ∧ c'.life ≠ .up ∧ c'.writer = c.writer) := by
  rw [Step, Channel.step] at step
  split at step
  case h_1 up =>
    refine .inl ⟨up, ?_⟩
    cases e with
    | destroy =>
      obtain rfl := Option.some.inj step
      exact .inl ⟨rfl, rfl⟩
    | gone => cases step
    | _ =>
      refine .inr ⟨by simp, ?_⟩
      simp only [Channel.stepUp, Channel.sendMsg, Channel.writerFree, Channel.writerNext, Channel.writerTest] at step
      grind
  case h_2 dying =>
    refine .inr ⟨by simp [dying], ?_⟩
    cases e with
    | free t =>
      simp only [Channel.stepDying] at step
      split at step
      · split_ifs at step
        obtain rfl := Option.some.inj step
        simp [dying]
      · cases step
    | gone =>
      simp only [Channel.stepDying] at step
      split_ifs at step
      obtain rfl := Option.some.inj step
      simp
    | _ => cases step
  case h_3 => cases step

/-- A run is settled exactly when its writer holds nothing once the channel is taken away. -/
theorem settled_iff (run : Trace Chan.init Step tr c) :
    Trace Chan.init (fun c e c' => Step c e c' ∧ Settled c e) tr c ↔ (c.life ≠ .up → held c.writer = []) := by
  constructor
  · intro settled
    refine settled.invariant (fun _ c => c.life ≠ .up → held c.writer = []) (fun life => rfl) ?_
    rintro tr c e c' none ⟨step, settled⟩ life
    rcases step_life step with ⟨up, ⟨rfl, same⟩ | ⟨-, up'⟩⟩ | ⟨life₀, -, same⟩
    · rw [same]
      exact settled rfl
    · exact absurd up' life
    · rw [same]
      exact none life₀
  · intro none
    induction run with
    | init => exact .init
    | step run step ih =>
      rcases step_life step with ⟨up, ⟨rfl, same⟩ | ⟨other, up'⟩⟩ | ⟨life₀, life, same⟩
      · have life : ∀ {c c'}, Step c .destroy c' → c.life = .up → c'.life ≠ .up := by
          intro c c' step up
          rw [Step, Channel.step, up] at step
          obtain rfl := Option.some.inj step
          simp
        exact (ih fun life₀ => absurd up life₀).step ⟨step, fun _ => same ▸ none (life step up)⟩
      · exact (ih fun life₀ => absurd up life₀).step ⟨step, fun e => absurd e other⟩
      · refine (ih fun _ => same ▸ none life).step ⟨step, ?_⟩
        rintro rfl
        rw [Step, Channel.step] at step
        split at step
        · contradiction
        · cases step
        · cases step

/-- In every run of a channel, the items sent are a first part of the ones accepted, and every item
is freed once, after its send attempt, exactly when the channel, if it is gone, was not taken away while
its writer had a local queue. -/
theorem safe_iff (run : Trace Chan.init Step tr c) : Safe tr c ↔
    (c.life = .gone → Trace Chan.init (fun c e c' => Step c e c' ∧ Settled c e) tr c) := by
  obtain ⟨early, late, inv⟩ := run.invariant (fun tr c => ∃ early late, Inv tr c early late)
    ⟨[], [], Inv.init⟩ fun ⟨early, late, inv⟩ step => inv.step step
  rw [inv.safe_iff_held]
  refine forall_congr' fun gone => ?_
  rw [settled_iff run]
  simp [gone]

end Run

def item (id : ℕ) : TxData := ⟨id, 0, 1, some 0, 0⟩

/-- Three items; the first send fails, the second item goes down with its batch, and the third one
is freed by the destructor. -/
def failingRun : List Event :=
  [.start, .test, .sendMsg (item 0), .sendMsg (item 1), .wake, .test, .hand (item 0),
    .sendMsg (item 2), .returned (item 0) (-1), .free (item 0), .free (item 1), .next, .stop, .join,
    .destroy, .free (item 2), .gone]

theorem safe_failingRun : ∃ c, c.life = .gone ∧ Safe failingRun c := by
  have run : failingRun.foldlM step Chan.init =
    some ⟨[], 2, true, false, true, none, .gone, 3⟩ := by decide
  have trace := Trace.of_foldlM run
  exact ⟨_, rfl, (safe_iff trace).mpr fun _ => (settled_iff trace).mpr fun _ => rfl⟩

/-- The channel is taken away while the first of two items is being sent. -/
def destroyedRun : List Event :=
  [.sendMsg (item 0), .sendMsg (item 1), .start, .test, .hand (item 0), .sendMsg (item 2), .destroy,
    .free (item 2), .gone]

theorem local_queue_lost : ¬ ∀ tr c, Trace Chan.init Step tr c → Safe tr c := by
  intro claim
  have run : destroyedRun.foldlM step Chan.init =
    some ⟨[], 3, false, false, false, some (.sends (item 0) [item 1]), .gone, 3⟩ := by decide
  have all := (claim _ _ (Trace.of_foldlM run)).all rfl
  simp [destroyedRun, freed, accepted] at all

end Conet.Svrkit.Channel
