/- Module: Conet/Core/Dispatch
   source: core/src/dispatch.cpp, core/dispatch.h, base/list.h
   digest: The dispatcher's two queues of tasks with their counters, and its rounds step by step. -/

import Conet.Base.ListRings
import Conet.Lib.Trace

set_option autoImplicit false
set_option relaxedAutoImplicit false

namespace Conet.Core.Dispatch

open Conet.Lib Conet.Base.ListHead Conet.Base.ListRings

universe u

/-- The two queues, and the `delay_list` on the stack of `proc_tasks`. -/
inductive Head
  | tasks
  | delayTasks
  | delayList
  deriving DecidableEq

/-- `dispatch_mgr_t` and the `link_to`s of the tasks. -/
structure Mgr (T : Type u) where
  links : Links (Node Head T)
  taskNum : UInt32
  delayTaskNum : UInt32

/-- Where `proc_tasks` is. Its loops are at the test with `t` and `n`, or inside the call of a
`proc`, with the saved `n`. -/
inductive Pc (T : Type u)
  | idle
  | atTask (t n : Node Head T) (num : ℕ)
  | inTask (t : T) (n : Node Head T) (num : ℕ)
  | guard (num : ℕ)
  | atDelay (t n : Node Head T) (num : ℕ)
  | inDelay (t : T) (n : Node Head T) (autoDel : Bool) (num : ℕ)
  | leaving (num : ℕ)

structure Sys (T : Type u) where
  mgr : Mgr T
  pc : Pc T
  /-- the tasks that `registry_delay_task(proc, arg)` has allocated -/
  created : T → Bool
  deleted : T → Bool

inductive Event (T : Type u)
  | registry (t : T)
  | unregistry (t : T)
  | delay (t : T) (linked : Bool)
  | unregistryDelay (t : T)
  | registryDelayTask (t : T)
  | enter
  | call (t : T)
  | returned (t : T) (ret : ℤ)
  | looped
  | phase
  | run (t : T)
  | finished (t : T) (ret : ℤ) (deleted : Bool)
  | ended
  | leave (num : ℕ)
  deriving DecidableEq

variable {T : Type u}

/-- `dispatch_mgr_t::dispatch_mgr_t`. -/
def Mgr.init : Mgr T where
  links := ⟨id, id⟩
  taskNum := 0
  delayTaskNum := 0

def Sys.init : Sys T where
  mgr := Mgr.init
  pc := .idle
  created := fun _ => false
  deleted := fun _ => false

/-- The control is not inside `proc_tasks` itself: nothing is going on, or a `proc` is. -/
def Pc.Outside : Pc T → Prop
  | .idle => True
  | .inTask .. => True
  | .inDelay .. => True
  | _ => False

/-- `if(ret >0) ++num`. -/
def count (num : ℕ) (ret : ℤ) : ℕ := if 0 < ret then num + 1 else num

variable [DecidableEq T]

def registry (m : Mgr T) (t : T) : Mgr T where
  links :=
    if listEmpty m.links (.item t) then listAddTail m.links (.item t) (.head .tasks)
    else listMoveTail m.links (.item t) (.head .tasks)
  taskNum := m.taskNum + 1
  delayTaskNum := m.delayTaskNum

def delay (m : Mgr T) (t : T) : Mgr T :=
  if listEmpty m.links (.item t) then
    { links := listAddTail m.links (.item t) (.head .delayTasks)
      taskNum := m.taskNum
      delayTaskNum := m.delayTaskNum + 1 }
  else m

def unregistry (m : Mgr T) (t : T) : Mgr T where
  links := listDelInit m.links (.item t)
  taskNum := m.taskNum - 1
  delayTaskNum := m.delayTaskNum

def unregistryDelay (m : Mgr T) (t : T) : Mgr T where
  links := listDelInit m.links (.item t)
  taskNum := m.taskNum
  delayTaskNum := m.delayTaskNum - 1

/-- `registry_delay_task(proc, arg)`, whose new task is `t`. -/
def registryDelayTask (m : Mgr T) (t : T) : Mgr T :=
  delay { m with links := initListHead m.links (.item t) } t

/-- `proc_tasks` from its first guard on. -/
def enter (m : Mgr T) : Pc T :=
  if 0 < m.taskNum then
    let t := m.links.next (.head .tasks)
    .atTask t (m.links.next t) 0
  else .guard 0

/-- `proc_tasks` from its second guard on, up to the second loop. -/
def guardDelay (m : Mgr T) (num : ℕ) : Mgr T × Pc T :=
  if m.delayTaskNum ≤ 0 then (m, .leaving num)
  else
    let links := initListHead m.links (.head .delayList)
    let links := listSwap links (.head .delayList) (.head .delayTasks) .spare
    let t := links.next (.head .delayList)
    ({ m with links := links, delayTaskNum := 0 }, .atDelay t (links.next t) num)

/-- One step: a call of one of the five operations while `proc_tasks` is not running itself, or one
step of `proc_tasks`. The caller knows its own tasks only, and these are not `auto_del`. There is no
step where a loop meets the head of another queue, which it takes for a task. -/
inductive Step (autoDel : T → Bool) : Sys T → Event T → Sys T → Prop
  | registry (s : Sys T) (t : T) (out : s.pc.Outside) (own : autoDel t = false) :
      Step autoDel s (.registry t) { s with mgr := registry s.mgr t }
  | unregistry (s : Sys T) (t : T) (out : s.pc.Outside) (own : autoDel t = false) :
      Step autoDel s (.unregistry t) { s with mgr := unregistry s.mgr t }
  | delay (s : Sys T) (t : T) (out : s.pc.Outside) (own : autoDel t = false) :
      Step autoDel s (.delay t (!listEmpty s.mgr.links (.item t))) { s with mgr := delay s.mgr t }
  | unregistryDelay (s : Sys T) (t : T) (out : s.pc.Outside) (own : autoDel t = false) :
      Step autoDel s (.unregistryDelay t) { s with mgr := unregistryDelay s.mgr t }
  | registryDelayTask (s : Sys T) (t : T) (out : s.pc.Outside) (auto : autoDel t = true)
      (fresh : s.created t = false) :
      Step autoDel s (.registryDelayTask t)
        { s with mgr := registryDelayTask s.mgr t, created := Function.update s.created t true }
  | enter (s : Sys T) (idle : s.pc = .idle) : Step autoDel s .enter { s with pc := enter s.mgr }
  | call (s : Sys T) (t : T) (n : Node Head T) (num : ℕ) (pc : s.pc = .atTask (.item t) n num) :
      Step autoDel s (.call t) { s with pc := .inTask t n num }
  | returned (s : Sys T) (t : T) (n : Node Head T) (num : ℕ) (ret : ℤ)
      (pc : s.pc = .inTask t n num) :
      Step autoDel s (.returned t ret)
        { s with pc := .atTask n (s.mgr.links.next n) (count num ret) }
  | looped (s : Sys T) (n : Node Head T) (num : ℕ) (pc : s.pc = .atTask (.head .tasks) n num) :
      Step autoDel s .looped { s with pc := .guard num }
  | phase (s : Sys T) (num : ℕ) (pc : s.pc = .guard num) :
      Step autoDel s .phase
        { s with mgr := (guardDelay s.mgr num).1, pc := (guardDelay s.mgr num).2 }
  | run (s : Sys T) (t : T) (n : Node Head T) (num : ℕ) (pc : s.pc = .atDelay (.item t) n num) :
      Step autoDel s (.run t)
        { s with
          mgr := { s.mgr with links := listDelInit s.mgr.links (.item t) }
          pc := .inDelay t n (autoDel t) num }
  | finished (s : Sys T) (t : T) (n : Node Head T) (del : Bool) (num : ℕ) (ret : ℤ)
      (pc : s.pc = .inDelay t n del num) :
      Step autoDel s (.finished t ret del)
        { s with
          pc := .atDelay n (s.mgr.links.next n) (count num ret)
          deleted := if del then Function.update s.deleted t true else s.deleted }
  | ended (s : Sys T) (n : Node Head T) (num : ℕ) (pc : s.pc = .atDelay (.head .delayList) n num) :
      Step autoDel s .ended { s with pc := .leaving num }
  | leave (s : Sys T) (num : ℕ) (pc : s.pc = .leaving num) :
      Step autoDel s (.leave num) { s with pc := .idle }

def Run (autoDel : T → Bool) : List (Event T) → Sys T → Prop := Trace Sys.init (Step autoDel)

section Specs

variable {m : Mgr T} {L : Head → List T} {t : T}

/-- The lists after `t` has been unlinked and appended to the list of `k`. -/
def moved (L : Head → List T) (t : T) (k : Head) : Head → List T :=
  Function.update (fun j => (L j).erase t) k ((L k).erase t ++ [t])

omit [DecidableEq T] in
theorem init_rings : Rings (Mgr.init : Mgr T).links (fun _ => []) :=
  ⟨fun _ => Circular.nil_iff.mpr ⟨rfl, rfl⟩, fun _ _ => Circular.nil_iff.mpr ⟨rfl, rfl⟩⟩

theorem registry_rings (rings : Rings m.links L) (t : T) :
    Rings (registry m t).links (moved L t .tasks) := by
  have relinked := rings.relink t .tasks
  unfold registry
  dsimp only
  split_ifs with alone
  · have free := (rings.empty_iff t).mp alone
    rwa [listDelInit_of_nil (rings.alone t free)] at relinked
  · rwa [listMoveTail_eq _ (by simp)]

theorem delay_free (rings : Rings m.links L) (free : ∀ k, t ∉ L k) :
    Rings (delay m t).links (Function.update L .delayTasks (L .delayTasks ++ [t])) ∧
      (delay m t).taskNum = m.taskNum ∧ (delay m t).delayTaskNum = m.delayTaskNum + 1 := by
  rw [delay, if_pos ((rings.empty_iff t).mpr free)]
  exact ⟨rings.append free .delayTasks, rfl, rfl⟩

theorem registryDelayTask_eq (rings : Rings m.links L) (free : ∀ k, t ∉ L k) :
    registryDelayTask m t = delay m t := by
  rw [registryDelayTask, initListHead_of_nil (rings.alone t free)]

def swapped (L : Head → List T) : Head → List T :=
  Function.update (Function.update L .delayList (L .delayTasks)) .delayTasks []

theorem guardDelay_spec (rings : Rings m.links L) (empty : L .delayList = [])
    (some : m.delayTaskNum ≠ 0) (num : ℕ) : ∃ m' n,
      guardDelay m num = (m', .atDelay (follow .delayList (L .delayTasks)) n num) ∧
      Rings m'.links (swapped L) ∧ m'.taskNum = m.taskNum ∧ m'.delayTaskNum = 0 ∧
      n = m'.links.next (follow .delayList (L .delayTasks)) := by
  have pos : ¬ m.delayTaskNum ≤ 0 := by
    simpa using some
  have alone : Circular m.links (.head .delayList) [] := by
    simpa [empty] using rings.circ .delayList
  have swap := rings.swap (show Head.delayList ≠ .delayTasks by simp)
  rw [empty] at swap
  have first := swap.next_head .delayList
  simp only [ne_eq, reduceCtorEq, not_false_eq_true, Function.update_of_ne,
    Function.update_self] at first
  refine ⟨{ m with
    links := listSwap m.links (.head .delayList) (.head .delayTasks) .spare
    delayTaskNum := 0 }, _, ?_, swap, rfl, rfl, rfl⟩
  rw [guardDelay, if_neg pos, initListHead_of_nil alone]
  simp only [first]

theorem guardDelay_skip (none : m.delayTaskNum = 0) (num : ℕ) :
    guardDelay m num = (m, .leaving num) := by
  simp [guardDelay, none]

end Specs

end Conet.Core.Dispatch
