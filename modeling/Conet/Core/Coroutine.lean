/- Module: Conet/Core/Coroutine
   source: core/src/coroutine.cpp, core/src/coroutine_env.cpp, core/coroutine_env.h
   digest: The coroutines of one thread: the run queue, resume, yield and the end of a coroutine. -/

import Conet.Base.ListRings

set_option autoImplicit false
set_option relaxedAutoImplicit false

namespace Conet.Core.Coroutine

open Conet.Lib Conet.Base.ListHead Conet.Base.ListRings

universe u v

/-- The lists that a `coroutine_t::wait_to` can hang on: the run queue of the environment, the
`exit_notify_queue` of a coroutine, the `exit_notify_t::queue` that takes it over when the coroutine
has ended, and any other list that is passed to `yield`. -/
inductive Head (C : Type u) (W : Type v)
  | runQueue
  | exitNotifyQueue (co : C)
  | notifier (co : C)
  | waitList (w : W)
  deriving DecidableEq

/-- The lists that can be passed to `yield`. The others are known to `resume` and to
`proc_exit_notify` only. -/
def Head.IsWaitList {C : Type u} {W : Type v} : Head C W → Prop
  | .runQueue => False
  | .exitNotifyQueue _ => True
  | .notifier _ => False
  | .waitList _ => True

inductive State
  | create
  | running
  | suspend
  | stop
  deriving DecidableEq

/-- Where a saved context goes on: at the start of `co_main_helper2`, or after the `jump_fcontext`
of `resume`, of `yield` or of `co_return_p`. -/
inductive Point
  | start
  | resume
  | yield
  | coReturn
  deriving DecidableEq

/-- The `void *` that a jump hands over. -/
inductive Val (C : Type u)
  | num (v : ℤ)
  | co (co : C)
  deriving DecidableEq

/-- The tasks that the end of a coroutine leaves to the dispatcher. -/
inductive DelayTask (C : Type u)
  | procExitNotify (co : C)
  | delayDel
  deriving DecidableEq

/-- `coroutine_env_t`, the `coroutine_t`s, and the `exit_notify_t` that the end of a coroutine
makes. A coroutine that has not been allocated yet is one in the state `CREATE`. -/
structure Env (C : Type u) (W : Type v) where
  links : Links (Node (Head C W) C)
  main : C
  currCo : C
  state : C → State
  /-- nothing is saved in a context that has not been left or made yet -/
  fctx : C → Option Point
  retVal : C → ℤ
  isEndDelete : C → Bool
  /-- `exit_notify_t::ret_val` -/
  notifyRet : C → ℤ
  /-- what has been given to the dispatcher, oldest first -/
  delayed : List (DelayTask C)
  delayDelList : List C
  /-- where `curr_co` goes on after the last jump, and with what -/
  point : Option Point
  val : Val C

variable {C : Type u} {W : Type v} [DecidableEq C] [DecidableEq W]

/-- `coroutine_env_t::coroutine_env_t`. -/
def Env.init (main : C) (isEndDelete : C → Bool) : Env C W where
  links := listAddTail ⟨id, id⟩ (.item main) (.head .runQueue)
  main := main
  currCo := main
  state := Function.update (fun _ => .create) main .running
  fctx := fun _ => none
  retVal := fun _ => 0
  isEndDelete := isEndDelete
  notifyRet := fun _ => 0
  delayed := []
  delayDelList := []
  point := none
  val := .num 0

/-- `resume(env, co, val)` up to its jump. -/
def resume (e : Env C W) (co : C) (val : Val C) : Env C W :=
  let cur := e.currCo
  let fctx := if e.state co = .create then Function.update e.fctx co (some .start) else e.fctx
  let val := if e.state co = .create then .co co else val
  let links := if listEmpty e.links (.item co) then e.links else listDelInit e.links (.item co)
  { e with
    currCo := co
    state := Function.update e.state co .running
    links := listAddTail (listDelInit links (.item cur)) (.item cur) (.head .runQueue)
    fctx := Function.update fctx cur (some .resume)
    point := fctx co
    val := val }

/-- `yield(wait_to, val)` from the pop on, which left `links`, up to its jump. -/
def yieldTo (e : Env C W) (last : C) (links : Links (Node (Head C W) C))
    (waitTo : Option (Head C W)) (val : Val C) : Env C W :=
  let cur := e.currCo
  { e with
    currCo := last
    links := match waitTo with
      | some k => listAddTail (listDelInit links (.item cur)) (.item cur) (.head k)
      | none => links
    state := Function.update (Function.update e.state cur .suspend) last .running
    fctx := Function.update e.fctx cur (some .yield)
    point := e.fctx last
    val := val }

/-- `yield(wait_to, val)` up to its jump; nothing when it aborts on an empty run queue. -/
def yield (e : Env C W) (waitTo : Option (Head C W)) (val : Val C) : Option (Env C W) :=
  match listPopTail e.links (.head .runQueue) with
  | (some (.item last), links) => some (yieldTo e last links waitTo val)
  | _ => none

/-- `co_return_p` from the choice of `last` on, up to its jump. -/
def returnTo (e : Env C W) (co last : C) : Env C W :=
  { e with
    links := listDelInit e.links (.item last)
    currCo := last
    state := Function.update e.state last .running
    fctx := Function.update e.fctx co (some .coReturn)
    point := e.fctx last
    val := .num 0 }

/-- `co_return_p`; nothing when it comes back to `co_main_helper2`, whose end is the end of the
thread. -/
def coReturnP (e : Env C W) (co : C) : Option (Env C W) :=
  if listEmpty e.links (.head .runQueue) then none
  else match e.links.prev (.head .runQueue) with
    | .item last => some (returnTo e co last)
    | _ => none

/-- The part of `co_main_helper2` that hands the waiters over to an `exit_notify_t`. -/
def exitNotify (e : Env C W) (co : C) : Env C W :=
  if listEmpty e.links (.head (.exitNotifyQueue co)) then e
  else
    let links := initListHead e.links (.head (.notifier co))
    let links := listAdd links (.head (.notifier co)) (.head (.exitNotifyQueue co))
    { e with
      links := listDelInit links (.head (.exitNotifyQueue co))
      notifyRet := Function.update e.notifyRet co (e.retVal co)
      delayed := e.delayed ++ [.procExitNotify co] }

/-- The part of `co_main_helper2` that puts the deletion of `co` off. -/
def endDelete (e : Env C W) (co : C) : Env C W :=
  if e.isEndDelete co then
    { e with
      delayDelList := e.delayDelList ++ [co]
      delayed := if DelayTask.delayDel ∈ e.delayed then e.delayed else e.delayed ++ [.delayDel] }
  else e

/-- `co_main_helper2` from the end of `pfn` on, which has returned `ret`. -/
def coMainHelper2 (e : Env C W) (ret : ℤ) : Option (Env C W) :=
  let co := e.currCo
  let stopped := { e with
    retVal := Function.update e.retVal co ret
    state := Function.update e.state co .stop
    links := listDelInit e.links (.item co) }
  coReturnP (endDelete (exitNotify stopped co) co) co

section Specs

variable {e : Env C W} {L : Head C W → List C} {pre : List C} {co last : C}

/-- The lists after `co` has been unlinked and appended to the list of `k`. -/
def relinked (L : Head C W → List C) (co : C) (k : Head C W) : Head C W → List C :=
  Function.update (fun j => (L j).erase co) k ((L k).erase co ++ [co])

/-- The lists after `last` has been popped and `cur` linked in what it passed. -/
def yieldLists (L : Head C W → List C) (cur last : C) : Option (Head C W) → Head C W → List C
  | some k => relinked (fun j => (L j).erase last) cur k
  | none => fun j => (L j).erase last

/-- The lists after the waiters for `co` have been handed over. -/
def handedOver (L : Head C W → List C) (co : C) : Head C W → List C :=
  if L (.exitNotifyQueue co) = [] then L
  else Function.update (Function.update L (.exitNotifyQueue co) []) (.notifier co)
    (L (.exitNotifyQueue co))

theorem init_rings (main : C) (isEndDelete : C → Bool) :
    Rings (Env.init main isEndDelete : Env C W).links
      (Function.update (fun _ => []) .runQueue [main]) := by
  have empty : Rings (⟨id, id⟩ : Links (Node (Head C W) C)) (fun _ => []) :=
    ⟨fun _ => Circular.nil_iff.mpr ⟨rfl, rfl⟩, fun _ _ => Circular.nil_iff.mpr ⟨rfl, rfl⟩⟩
  exact empty.append (h := main) (by simp) .runQueue

theorem resume_rings (rings : Rings e.links L) (co : C) (val : Val C) :
    Rings (resume e co val).links (relinked (fun k => (L k).erase co) e.currCo .runQueue) := by
  have unlinked : Rings (if listEmpty e.links (.item co) then e.links
      else listDelInit e.links (.item co)) (fun k => (L k).erase co) := by
    split_ifs with alone
    · have free := (rings.empty_iff co).mp alone
      simpa [List.erase_of_not_mem (free _)] using rings
    · exact rings.unlink co
  exact unlinked.relink e.currCo .runQueue

/-- Unlinking a coroutine right before it is resumed changes nothing. -/
theorem resume_unlinked (rings : Rings e.links L) (co : C) (val : Val C) :
    resume { e with links := listDelInit e.links (.item co) } co val = resume e co val := by
  have alone : listEmpty (listDelInit e.links (.item co)) (.item co) = true :=
    ((rings.unlink co).empty_iff co).mpr (rings.notMem_erase co)
  have links : (if listEmpty e.links (.item co) then e.links else listDelInit e.links (.item co)) =
      listDelInit e.links (.item co) := by
    split_ifs with empty
    · exact (listDelInit_of_nil (rings.alone co ((rings.empty_iff co).mp empty))).symm
    · rfl
  simp only [resume, alone, links, ↓reduceIte]

theorem yield_eq (rings : Rings e.links L) (split : L .runQueue = pre ++ [last])
    (waitTo : Option (Head C W)) (val : Val C) :
    yield e waitTo val = some (yieldTo e last (listDelInit e.links (.item last)) waitTo val) := by
  have nonempty : listEmpty e.links (.head .runQueue) ≠ true := by
    rw [Ne, listEmpty_iff (rings.circ _), split]
    simp
  simp [yield, listPopTail, nonempty, rings.prev_head split]

theorem yieldTo_rings (rings : Rings e.links L) (last : C) (waitTo : Option (Head C W))
    (val : Val C) :
    Rings (yieldTo e last (listDelInit e.links (.item last)) waitTo val).links
      (yieldLists L e.currCo last waitTo) := by
  cases waitTo with
  | none => exact rings.unlink last
  | some k => exact (rings.unlink last).relink e.currCo k

theorem coReturnP_eq (rings : Rings e.links L) (split : L .runQueue = pre ++ [last]) (co : C) :
    coReturnP e co = some (returnTo e co last) := by
  have nonempty : listEmpty e.links (.head .runQueue) ≠ true := by
    rw [Ne, listEmpty_iff (rings.circ _), split]
    simp
  simp [coReturnP, nonempty, rings.prev_head split]

theorem exitNotify_rings (rings : Rings e.links L) (idle : L (.notifier co) = []) :
    Rings (exitNotify e co).links (handedOver L co) := by
  have empty := listEmpty_iff (rings.circ (.exitNotifyQueue co))
  unfold exitNotify handedOver
  by_cases none : L (.exitNotifyQueue co) = []
  · rw [if_pos (empty.mpr (by simp [none])), if_pos none]
    exact rings
  · rw [if_neg (by simpa [empty] using none), if_neg none]
    have alone : Circular e.links (.head (.notifier co)) [] := by
      simpa [idle] using rings.circ (.notifier co)
    simpa [initListHead_of_nil alone] using rings.handOver (by simp) idle

/-- What the end of the running coroutine comes to: control goes to `last`. -/
structure Ended (e e' : Env C W) (last : C) (ret : ℤ) (waiters : List C) : Prop where
  main : e'.main = e.main
  currCo : e'.currCo = last
  state : e'.state = Function.update (Function.update e.state e.currCo .stop) last .running
  fctx : e'.fctx = Function.update e.fctx e.currCo (some .coReturn)
  retVal : e'.retVal = Function.update e.retVal e.currCo ret
  point : e'.point = e.fctx last
  notifyRet : e'.notifyRet =
    if waiters = [] then e.notifyRet else Function.update e.notifyRet e.currCo ret
  notifies : ∀ c, e'.delayed.count (.procExitNotify c) = e.delayed.count (.procExitNotify c) +
    if c = e.currCo ∧ waiters ≠ [] then 1 else 0

theorem coMainHelper2_ended (rings : Rings e.links L) (split : L .runQueue = pre ++ [last])
    (free : ∀ k, e.currCo ∉ L k) (idle : L (.notifier e.currCo) = []) (ret : ℤ) :
    ∃ e', coMainHelper2 e ret = some e' ∧
      Ended e e' last ret (L (.exitNotifyQueue e.currCo)) ∧
      Rings e'.links (fun k => (handedOver L e.currCo k).erase last) := by
  set stopped : Env C W := { e with
    retVal := Function.update e.retVal e.currCo ret
    state := Function.update e.state e.currCo .stop
    links := listDelInit e.links (.item e.currCo) } with hstopped
  have rings₁ : Rings stopped.links L := by
    have unlinked := rings.unlink e.currCo
    rwa [show (fun k => (L k).erase e.currCo) = L from
      funext fun k => List.erase_of_not_mem (free k)] at unlinked
  have rings₂ : Rings (endDelete (exitNotify stopped e.currCo) e.currCo).links
      (handedOver L e.currCo) := by
    have links : (endDelete (exitNotify stopped e.currCo) e.currCo).links =
        (exitNotify stopped e.currCo).links := by
      unfold endDelete
      split <;> rfl
    rw [links]
    exact exitNotify_rings rings₁ idle
  have split₂ : handedOver L e.currCo .runQueue = pre ++ [last] := by
    unfold handedOver
    split_ifs
    · exact split
    · simpa using split
  have empty := listEmpty_iff (rings₁.circ (.exitNotifyQueue e.currCo))
  refine ⟨_, coReturnP_eq rings₂ split₂ e.currCo, ?_, rings₂.unlink last⟩
  by_cases none : L (.exitNotifyQueue e.currCo) = []
  · have notified : exitNotify stopped e.currCo = stopped := by
      rw [exitNotify, if_pos (empty.mpr (by simp [none]))]
    rw [notified]
    unfold endDelete
    split_ifs <;> constructor <;> simp [returnTo, none, hstopped]
  · have occupied : listEmpty stopped.links (.head (.exitNotifyQueue e.currCo)) ≠ true := by
      simpa [empty] using none
    unfold endDelete exitNotify
    simp only [if_neg occupied]
    have notified : ∀ c rest, (DelayTask.procExitNotify e.currCo :: rest).count
        (.procExitNotify c) = rest.count (.procExitNotify c) + if c = e.currCo then 1 else 0 := by
      intro c rest
      by_cases hc : c = e.currCo
      · simp [hc]
      · have ne : e.currCo ≠ c := fun h => hc h.symm
        simp [hc, ne]
    split_ifs <;> constructor <;> simp [returnTo, none, hstopped, notified]

end Specs

end Conet.Core.Coroutine
