/- Module: Conet/Base/PLog
   source: base/plog.h, base/src/plog.cpp
   digest: The log queue: what threads add is written once and in order, and the log thread is woken. -/

import Conet.Base.LlistRun
import Mathlib.Algebra.Group.Nat.Defs
import Mathlib.Data.Finset.Card
import Mathlib.Tactic.Common

set_option autoImplicit false
set_option relaxedAutoImplicit false

namespace Conet.Base.PLog

open Conet.Lib
open Conet.Base.LlistRun (stackStep)

universe u v

variable {T : Type u} {α : Type v} [DecidableEq T]

/-- Where a thread is in `Add`. -/
inductive Pc (α : Type v)
  | idle
  /-- before `llist_add` -/
  | checked (item : α)
  /-- before `__sync_fetch_and_add(&m_queue_len, 1)` -/
  | added
  /-- before the write to `m_work_notify` -/
  | notify

/-- Where the log thread is in `MainProc`; `cleaning` when it will not come back to the loop. -/
inductive LogPc (α : Type v)
  /-- before the test of `m_stop_flags` -/
  | top
  /-- before `llist_empty` -/
  | check
  /-- before `llist_del_all` -/
  | take (cleaning : Bool)
  /-- in `ProcLog`, before the write of the first item -/
  | proc (cleaning : Bool) (items : List α)
  /-- in `ProcLog`, before `__sync_fetch_and_add(&m_queue_len, -1)` -/
  | sub (cleaning : Bool) (items : List α)
  | poll
  /-- before the read of `m_work_notify` -/
  | read
  | done

structure State (T : Type u) (α : Type v) where
  /-- the stack of `m_request_queue` -/
  queue : List α
  queueLen : ℤ
  /-- the counter of the eventfd `m_work_notify` -/
  notify : ℕ
  stopFlags : Bool
  pc : T → Pc α
  log : LogPc α
  /-- what has been written to `m_fd` -/
  file : List α

inductive Event (α : Type v)
  | none
  | pushed (item : α)

/-- A `write` of one to a nonblocking eventfd. -/
def eventfdWrite (n : ℕ) : ℕ := if n < 2 ^ 64 - 2 then n + 1 else n

inductive Step : State T α → Event α → State T α → Prop
  | stop {s : State T α} : Step s .none { s with stopFlags := true }
  /-- `Add` returns `-1` at once when `m_stop_flags` is set. -/
  | check {s : State T α} (t : T) (item : α) (idle : s.pc t = .idle) (go : s.stopFlags = false) :
      Step s .none { s with pc := Function.update s.pc t (.checked item) }
  | push {s : State T α} (t : T) (item : α) (here : s.pc t = .checked item) :
      Step s (.pushed item)
        { s with
          queue := stackStep s.queue (.added (.single item) s.queue.isEmpty)
          pc := Function.update s.pc t .added }
  | count {s : State T α} (t : T) (here : s.pc t = .added) :
      Step s .none
        { s with
          queueLen := s.queueLen + 1
          pc := Function.update s.pc t (if s.queueLen ≤ 0 then .notify else .idle) }
  | notify {s : State T α} (t : T) (here : s.pc t = .notify) :
      Step s .none
        { s with notify := eventfdWrite s.notify, pc := Function.update s.pc t .idle }
  | loop {s : State T α} (here : s.log = .top) :
      Step s .none { s with log := if s.stopFlags then .take true else .check }
  | empty {s : State T α} (here : s.log = .check) :
      Step s .none { s with log := if s.queue.isEmpty then .poll else .take false }
  | delAll {s : State T α} (cleaning : Bool) (first : Option α) (here : s.log = .take cleaning) :
      Step s .none
        { s with
          queue := stackStep s.queue (.deletedAll first)
          -- `llist_reverse_order`
          log := .proc cleaning s.queue.reverse }
  | write {s : State T α} (cleaning : Bool) (item : α) (items : List α)
      (here : s.log = .proc cleaning (item :: items)) :
      Step s .none { s with file := s.file ++ [item], log := .sub cleaning items }
  | uncount {s : State T α} (cleaning : Bool) (items : List α) (here : s.log = .sub cleaning items) :
      Step s .none { s with queueLen := s.queueLen - 1, log := .proc cleaning items }
  | finish {s : State T α} (cleaning : Bool) (here : s.log = .proc cleaning []) :
      Step s .none { s with log := if cleaning then .done else .top }
  /-- `poll` returns after its 1 ms, or is interrupted. -/
  | timeout {s : State T α} (here : s.log = .poll) : Step s .none { s with log := .top }
  | ready {s : State T α} (here : s.log = .poll) (some : 0 < s.notify) :
      Step s .none { s with log := .read }
  | read {s : State T α} (here : s.log = .read) :
      Step s .none { s with notify := 0, log := .top }
  /-- the destructor, which has joined the log thread -/
  | destroy {s : State T α} (here : s.log = .done) :
      Step s .none { s with stopFlags := true, log := .take true }

/-- After `Start`. -/
def State.init : State T α where
  queue := []
  queueLen := 0
  notify := 0
  stopFlags := false
  pc _ := .idle
  log := .top
  file := []

/-- The items that `Add` has pushed, oldest first. -/
def pushed (tr : List (Event α)) : List α :=
  tr.filterMap fun ev => match ev with
    | .pushed item => some item
    | .none => none

/-- The items that have been taken and not been written. -/
def LogPc.items : LogPc α → List α
  | .proc _ items | .sub _ items => items
  | _ => []

/-- The items that have been taken and are still counted. -/
def LogPc.held : LogPc α → ℕ
  | .proc _ items => items.length
  | .sub _ items => items.length + 1
  | _ => 0

variable {s s' : State T α} {tr : List (Event α)} {ev : Event α}

/-- The threads of `counting` have pushed an item that is not counted yet. -/
structure Counts (s : State T α) (counting : Finset T) : Prop where
  mem : ∀ t, t ∈ counting ↔ s.pc t = .added
  queueLen : s.queueLen = s.queue.length + s.log.held - counting.card

structure Inv (tr : List (Event α)) (s : State T α) : Prop where
  order : pushed tr = s.file ++ s.log.items ++ s.queue.reverse
  counts : ∃ counting, Counts s counting
  wake : s.log = .poll → s.queueLen ≤ 0 ∨ 0 < s.notify ∨ ∃ t, s.pc t = .notify

theorem pushed_none : pushed (tr ++ [.none]) = pushed tr := by
  simp [pushed]

theorem pushed_push {item : α} : pushed (tr ++ [.pushed item]) = pushed tr ++ [item] := by
  simp [pushed]

theorem eventfdWrite_pos (n : ℕ) : 0 < eventfdWrite n := by
  unfold eventfdWrite
  split_ifs <;> omega

omit [DecidableEq T] in
/-- The log thread moves: what counts is the length of what it holds. -/
theorem Counts.log {counting : Finset T} (counts : Counts s counting) (pc : s'.pc = s.pc)
    (len : s'.queueLen - s'.queue.length - s'.log.held = s.queueLen - s.queue.length - s.log.held) :
    Counts s' counting where
  mem t := by rw [pc, counts.mem]
  queueLen := by
    have := counts.queueLen
    omega

theorem Counts.move {counting : Finset T} {t : T} {pc : Pc α} (counts : Counts s counting)
    (here : s.pc t ≠ .added) (there : pc ≠ .added) (moved : s'.pc = Function.update s.pc t pc)
    (queue : s'.queue = s.queue) (len : s'.queueLen = s.queueLen) (log : s'.log = s.log) :
    Counts s' counting where
  mem u := by
    by_cases same : u = t
    · simp [moved, same, counts.mem, here, there]
    · simp [moved, same, counts.mem]
  queueLen := by rw [queue, len, log, counts.queueLen]

theorem notify_update {t u : T} {pc : Pc α} (there : s.pc u = .notify) (here : s.pc t ≠ .notify) :
    Function.update s.pc t pc u = .notify := by
  have ne : u ≠ t := by
    rintro rfl
    exact here there
  rw [Function.update_of_ne ne, there]

theorem Inv.check (inv : Inv tr s) {t : T} (item : α) (idle : s.pc t = .idle) :
    Inv (tr ++ [.none]) { s with pc := Function.update s.pc t (.checked item) } := by
  obtain ⟨counting, counts⟩ := inv.counts
  refine ⟨pushed_none.trans inv.order, ⟨counting, ?_⟩, fun polls => ?_⟩
  · exact counts.move (by simp [idle]) (by simp) rfl rfl rfl rfl
  · refine (inv.wake polls).imp_right (Or.imp_right ?_)
    rintro ⟨u, there⟩
    exact ⟨u, notify_update there (by simp [idle])⟩

theorem Inv.push (inv : Inv tr s) {t : T} {item : α} (here : s.pc t = .checked item) :
    Inv (tr ++ [.pushed item])
      { s with
        queue := stackStep s.queue (.added (.single item) s.queue.isEmpty)
        pc := Function.update s.pc t .added } := by
  obtain ⟨counting, counts⟩ := inv.counts
  have out : t ∉ counting := by simp [counts.mem, here]
  refine ⟨?_, ⟨insert t counting, fun u => ?_, ?_⟩, fun polls => ?_⟩
  · simp [pushed_push, inv.order, stackStep, LlistRun.Batch.entries, LlistRun.Batch.single]
  · by_cases same : u = t
    · simp [same]
    · simp [same, counts.mem]
  · have := counts.queueLen
    simp [Finset.card_insert_of_notMem out, stackStep, LlistRun.Batch.entries, LlistRun.Batch.single]
    omega
  · refine (inv.wake polls).imp_right (Or.imp_right ?_)
    rintro ⟨u, there⟩
    exact ⟨u, notify_update there (by simp [here])⟩

/-- The thread that counts an item where nothing was counted is the one that notifies. -/
theorem Inv.count (inv : Inv tr s) {t : T} (here : s.pc t = .added) :
    Inv (tr ++ [.none])
      { s with
        queueLen := s.queueLen + 1
        pc := Function.update s.pc t (if s.queueLen ≤ 0 then .notify else .idle) } := by
  obtain ⟨counting, counts⟩ := inv.counts
  have mem : t ∈ counting := (counts.mem t).mpr here
  refine ⟨pushed_none.trans inv.order, ⟨counting.erase t, fun u => ?_, ?_⟩, fun polls => ?_⟩
  · by_cases same : u = t
    · subst same
      split_ifs <;> simp
    · simp [same, counts.mem]
  · have := counts.queueLen
    have := Finset.card_erase_add_one mem
    simp only
    omega
  · by_cases low : s.queueLen ≤ 0
    · exact .inr (.inr ⟨t, by simp [low]⟩)
    · obtain some | ⟨u, there⟩ := (inv.wake polls).resolve_left low
      · exact .inr (.inl some)
      · exact .inr (.inr ⟨u, notify_update there (by simp [here])⟩)

theorem Inv.notify (inv : Inv tr s) {t : T} (here : s.pc t = .notify) :
    Inv (tr ++ [.none])
      { s with notify := eventfdWrite s.notify, pc := Function.update s.pc t .idle } := by
  obtain ⟨counting, counts⟩ := inv.counts
  refine ⟨pushed_none.trans inv.order, ⟨counting, ?_⟩, fun _ => .inr (.inl (eventfdWrite_pos _))⟩
  exact counts.move (by simp [here]) (by simp) rfl rfl rfl rfl

omit [DecidableEq T] in
/-- The log thread goes on with what it holds, and sleeps only where nothing is counted. -/
theorem Inv.turn (inv : Inv tr s) (queue : s'.queue = s.queue) (len : s'.queueLen = s.queueLen)
    (pc : s'.pc = s.pc) (file : s'.file = s.file) (items : s'.log.items = s.log.items)
    (held : s'.log.held = s.log.held) (low : s'.log = .poll → s.queueLen ≤ 0) :
    Inv (tr ++ [.none]) s' := by
  obtain ⟨counting, counts⟩ := inv.counts
  refine ⟨pushed_none.trans ?_, ⟨counting, counts.log pc ?_⟩, fun polls => .inl ?_⟩
  · rw [inv.order, file, items, queue]
  · rw [len, queue, held]
  · rw [len]
    exact low polls

omit [DecidableEq T] in
theorem Inv.empty (inv : Inv tr s) (here : s.log = .check) :
    Inv (tr ++ [.none]) { s with log := if s.queue.isEmpty then .poll else .take false } := by
  obtain ⟨counting, counts⟩ := inv.counts
  refine inv.turn rfl rfl rfl rfl ?_ ?_ fun polls => ?_
  · simp only [here]
    split_ifs <;> rfl
  · simp only [here]
    split_ifs <;> rfl
  · have none : s.queue.isEmpty := by
      by_contra some
      simp [some] at polls
    have len := counts.queueLen
    have held : s.log.held = 0 := by rw [here]; rfl
    rw [List.isEmpty_iff.mp none, List.length_nil, held] at len
    omega

omit [DecidableEq T] in
theorem Inv.delAll (inv : Inv tr s) {cleaning : Bool} (first : Option α) (here : s.log = .take cleaning) :
    Inv (tr ++ [.none])
      { s with
        queue := stackStep s.queue (.deletedAll first)
        log := .proc cleaning s.queue.reverse } := by
  obtain ⟨counting, counts⟩ := inv.counts
  refine ⟨pushed_none.trans ?_, ⟨counting, counts.log rfl ?_⟩, nofun⟩
  · simp [inv.order, here, LogPc.items, stackStep]
  · simp [here, LogPc.held, stackStep]

omit [DecidableEq T] in
theorem Inv.write (inv : Inv tr s) {cleaning : Bool} {item : α} {items : List α}
    (here : s.log = .proc cleaning (item :: items)) :
    Inv (tr ++ [.none]) { s with file := s.file ++ [item], log := .sub cleaning items } := by
  obtain ⟨counting, counts⟩ := inv.counts
  refine ⟨pushed_none.trans ?_, ⟨counting, counts.log rfl ?_⟩, nofun⟩
  · simp [inv.order, here, LogPc.items]
  · simp [here, LogPc.held]

omit [DecidableEq T] in
theorem Inv.uncount (inv : Inv tr s) {cleaning : Bool} {items : List α}
    (here : s.log = .sub cleaning items) :
    Inv (tr ++ [.none]) { s with queueLen := s.queueLen - 1, log := .proc cleaning items } := by
  obtain ⟨counting, counts⟩ := inv.counts
  refine ⟨pushed_none.trans ?_, ⟨counting, counts.log rfl ?_⟩, nofun⟩
  · simp [inv.order, here, LogPc.items]
  · simp [here, LogPc.held]
    omega

theorem Inv.step (inv : Inv tr s) (step : Step s ev s') : Inv (tr ++ [ev]) s' := by
  cases step with
  | stop => exact ⟨pushed_none.trans inv.order, inv.counts.imp fun _ c => c.log rfl rfl, inv.wake⟩
  | check t item idle go => exact inv.check item idle
  | push t item here => exact inv.push here
  | count t here => exact inv.count here
  | notify t here => exact inv.notify here
  | loop here =>
    refine inv.turn rfl rfl rfl rfl ?_ ?_ ?_ <;> simp only [here] <;> split_ifs
    · rfl
    · rfl
    · rfl
    · rfl
    · exact nofun
    · exact nofun
  | empty here => exact inv.empty here
  | delAll cleaning first here => exact inv.delAll first here
  | write cleaning item items here => exact inv.write here
  | uncount cleaning items here => exact inv.uncount here
  | finish cleaning here =>
    cases cleaning
    · exact inv.turn rfl rfl rfl rfl (by rw [here]; rfl) (by rw [here]; rfl) nofun
    · exact inv.turn rfl rfl rfl rfl (by rw [here]; rfl) (by rw [here]; rfl) nofun
  | timeout here => exact inv.turn rfl rfl rfl rfl (by rw [here]; rfl) (by rw [here]; rfl) nofun
  | ready here => exact inv.turn rfl rfl rfl rfl (by rw [here]; rfl) (by rw [here]; rfl) nofun
  | read here => exact inv.turn rfl rfl rfl rfl (by rw [here]; rfl) (by rw [here]; rfl) nofun
  | destroy here => exact inv.turn rfl rfl rfl rfl (by rw [here]; rfl) (by rw [here]; rfl) nofun

omit [DecidableEq T] in
theorem inv_init : Inv [] (State.init : State T α) where
  order := rfl
  counts := ⟨∅, by simp [State.init], rfl⟩
  wake := nofun

theorem inv_run (run : Trace State.init (Step (T := T)) tr s) : Inv tr s :=
  run.invariant Inv inv_init fun inv step => inv.step step

/-- What the threads add is written in the order in which they push it, each item once: what is not in
the file yet is with the log thread or in the queue. -/
theorem written_in_order (run : Trace State.init (Step (T := T)) tr s) :
    pushed tr = s.file ++ s.log.items ++ s.queue.reverse :=
  (inv_run run).order

/-- The log thread does not sleep on a queue with items in it, unless the thread that pushed one is
still before its count or its write to the eventfd. -/
theorem poll_wakes (run : Trace State.init (Step (T := T)) tr s) (polls : s.log = .poll)
    (some : s.queue ≠ []) (pushing : ∀ t, s.pc t ≠ .added ∧ s.pc t ≠ .notify) :
    0 < s.notify ∧ s.queueLen = s.queue.length := by
  have inv := inv_run run
  obtain ⟨counting, counts⟩ := inv.counts
  have none : counting = ∅ := Finset.eq_empty_of_forall_notMem fun t mem =>
    (pushing t).1 ((counts.mem t).mp mem)
  have len : s.queueLen = s.queue.length := by
    simp [counts.queueLen, none, polls, LogPc.held]
  have pos := List.length_pos_iff.mpr some
  refine ⟨?_, len⟩
  obtain low | woken | ⟨t, there⟩ := inv.wake polls
  · omega
  · exact woken
  · exact absurd there (pushing t).2

section Examples

/-- The log thread has found nothing, and then a thread has added `5`. -/
def asleep : State Unit ℕ where
  queue := [5]
  queueLen := 1
  notify := 1
  stopFlags := false
  pc := [.checked 5, .added, .notify, .idle].foldl (fun pc here => Function.update pc () here)
    fun _ => .idle
  log := .poll
  file := []

theorem asleep_run : Trace State.init Step
    [.none, .none, .none, .pushed 5, .none, .none] asleep := by
  have loops : Step (State.init : State Unit ℕ) .none { State.init with log := .check } :=
    .loop rfl
  have polls := (Trace.init.step loops).step (.empty rfl)
  have added := (polls.step (.check () 5 rfl rfl)).step (.push () 5 rfl)
  exact (added.step (.count () rfl)).step (.notify () rfl)

theorem written_in_order_asleep : pushed [.none, .none, .none, .pushed 5, .none, .none] = [5] :=
  written_in_order asleep_run

theorem poll_wakes_asleep : 0 < asleep.notify ∧ asleep.queueLen = 1 :=
  poll_wakes asleep_run rfl (by decide) fun _ => ⟨nofun, nofun⟩

end Examples

end Conet.Base.PLog
