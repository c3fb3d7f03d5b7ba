/- Module: Conet/Core/PthreadCond
   source: core/src/pthread_hook.cpp
   digest: The hooked condition variables: wait lists, schedule queues, signal and broadcast. -/

import Conet.Base.ListHead
import Conet.Base.Llist
import Mathlib.Logic.Function.Basic

set_option autoImplicit false
set_option relaxedAutoImplicit false

namespace Conet.Core.PthreadCond

open Conet.Lib Conet.Base.ListHead Conet.Base.Llist

universe u v w

/-- The list nodes: `pcond_mgr_t::wait_list` of each condition, the `notify_queue` on the stack of
`pthread_cond_signal_help`, and `pcond_ctx_t::wait_item` of each wait call. -/
inductive Node (K : Type u) (C : Type v)
  | waitList (k : K)
  | notifyQueue
  | item (c : C)
  deriving DecidableEq

/-- The conditions `K`, the wait calls `C` with their `pcond_ctx_t`, and the `pthread_mgr_t` of
each thread `M`. -/
structure Sys (K : Type u) (C : Type v) (M : Type w) where
  links : Links (Node K C)
  /-- `pcond_ctx_t::link_to_schedule.next` -/
  linkToSchedule : C → Option C
  /-- `pcond_ctx_t::pmgr` -/
  pmgr : C → M
  retTimeout : C → Bool
  /-- `pcond_schedule_queue.first` -/
  scheduleFirst : M → Option C
  /-- what has been written to `pcond_event_notify` -/
  notified : M → Nat
  /-- the wait call has been made -/
  started : C → Bool
  /-- `pcond_ctx_t::tm` is linked in the timer wheel -/
  armed : C → Bool
  /-- every context ever pushed on the thread's queue, in order -/
  scheduled : M → List C
  /-- every context whose coroutine the thread has resumed, in order -/
  resumed : M → List C

variable {K : Type u} {C : Type v} {M : Type w} [DecidableEq K] [DecidableEq C] [DecidableEq M]

/-- `pthread_mgr_t::add_to_pcond_schedule`, called on `ctx->pmgr`. -/
def addToPcondSchedule (s : Sys K C M) (ctx : C) : Sys K C M :=
  let m := s.pmgr ctx
  let added := llistAdd s.linkToSchedule (s.scheduleFirst m) ctx
  { s with
    links := if listEmpty s.links (.item ctx) then s.links else listDelInit s.links (.item ctx)
    linkToSchedule := added.1
    scheduleFirst := Function.update s.scheduleFirst m added.2
    notified := Function.update s.notified m (s.notified m + 1)
    scheduled := Function.update s.scheduled m (s.scheduled m ++ [ctx]) }

/-- No wait call has been made yet. The manager of a call not made yet has no meaning. -/
def init (pmgr : C → M) : Sys K C M where
  links := ⟨id, id⟩
  linkToSchedule := fun _ => none
  pmgr := pmgr
  retTimeout := fun _ => false
  scheduleFirst := fun _ => none
  notified := fun _ => 0
  started := fun _ => false
  armed := fun _ => false
  scheduled := fun _ => []
  resumed := fun _ => []

/-- `pthread_cond_timedwait` with a deadline, up to its `yield`; the call runs on thread `m`. -/
def pthreadCondTimedwait (s : Sys K C M) (c : C) (k : K) (m : M) : Sys K C M :=
  { s with
    links := listAddTail (initListHead s.links (.item c)) (.item c) (.waitList k)
    pmgr := Function.update s.pmgr c m
    retTimeout := Function.update s.retTimeout c false
    started := Function.update s.started c true
    armed := Function.update s.armed c true }

/-- The wheel unlinks the handle of `c` and calls `proc_pthread_cond_timeout`. -/
def procPthreadCondTimeout (s : Sys K C M) (c : C) : Sys K C M :=
  addToPcondSchedule
    { s with
      armed := Function.update s.armed c false
      retTimeout := Function.update s.retTimeout c true } c

/-- The locked part of `pthread_cond_signal_help`: what goes to `notify_queue`. -/
def detachWaiters (h : Links (Node K C)) (k : K) (onlyOne : Bool) : Links (Node K C) :=
  let h := initListHead h .notifyQueue
  if onlyOne then
    match listPopHead h (.waitList k) with
    | (some first, h) => listAddTail h first .notifyQueue
    | (none, h) => h
  else listDelInit (listAddTail h (.waitList k) .notifyQueue) (.waitList k)

/-- The system and the counter `cnt` of `pthread_cond_signal_help`. -/
structure Signalling (K : Type u) (C : Type v) (M : Type w) where
  sys : Sys K C M
  cnt : Nat

/-- The body of the loop over `notify_queue`. -/
def notifyBody (it : Node K C) (s : Signalling K C M) :
    Turn (Signalling K C M) (Signalling K C M) :=
  match it with
  | .item ctx => .again ⟨addToPcondSchedule s.sys ctx, s.cnt + 1⟩
  | _ => .undefined

def signalNext (s : Signalling K C M) : Node K C → Node K C := s.sys.links.next

def notifyLoop : SafeCursor (Node K C) (Signalling K C M) →
    Turn (SafeCursor (Node K C) (Signalling K C M)) (Signalling K C M) :=
  forEachSafe signalNext .notifyQueue notifyBody

/-- `pthread_cond_signal_help`, with a bound on the turns of its loop. -/
def pthreadCondSignalHelp (s : Sys K C M) (k : K) (onlyOne : Bool) (fuel : Nat) :
    Outcome (Signalling K C M) :=
  if listEmpty s.links (.waitList k) then .returned ⟨s, 0⟩
  else Loop.run notifyLoop fuel
    (forEachStart signalNext .notifyQueue ⟨{ s with links := detachWaiters s.links k onlyOne }, 0⟩)

/-- `pthread_cond_signal_help` returns with the system and the count of `t`. -/
def SignalHelp (s : Sys K C M) (k : K) (onlyOne : Bool) (t : Signalling K C M) : Prop :=
  ∃ fuel, pthreadCondSignalHelp s k onlyOne fuel = .returned t

/-- The contexts `ws k` wait on condition `k`, oldest first, and `queue m` is the chain of
`pcond_schedule_queue` of thread `m`, newest first. -/
structure Holds (s : Sys K C M) (ws : K → List C) (queue : M → List C) : Prop where
  waiting : ∀ k, Circular s.links (.waitList k) ((ws k).map .item)
  notify : Circular s.links .notifyQueue []
  chain : ∀ m, Chain s.linkToSchedule (s.scheduleFirst m) (queue m)
  apart : ∀ k c m, c ∈ ws k → c ∉ queue m

/-- Those a signal has to wake: the first waiter, or all of them. -/
def chosen (onlyOne : Bool) (ws : List C) : List C := if onlyOne then ws.take 1 else ws

/-- The chosen waiters leave the wait list, each is pushed once on the schedule queue of its own
thread, their number is returned, and nothing else moves. -/
def Delivers (s : Sys K C M) (ws : K → List C) (queue : M → List C) (k : K) (onlyOne : Bool) :
    Prop :=
  ∃ t, SignalHelp s k onlyOne t ∧ t.cnt = (chosen onlyOne (ws k)).length ∧
    (∀ k', Circular t.sys.links (.waitList k')
      ((if k' = k then (ws k).drop (chosen onlyOne (ws k)).length else ws k').map .item)) ∧
    ∀ m, Chain t.sys.linkToSchedule (t.sys.scheduleFirst m)
      (((chosen onlyOne (ws k)).filter (fun c => s.pmgr c = m)).reverse ++ queue m)

section Detach

variable {h : Links (Node K C)} {k : K} {c : C} {cs : List C}

theorem detach_one (waiting : Circular h (.waitList k) ((c :: cs).map .item))
    (notify : Circular h .notifyQueue []) :
    Circular (detachWaiters h k true) (.waitList k) (cs.map .item) ∧
    Circular (detachWaiters h k true) .notifyQueue [.item c] ∧
    ∀ a zs, Circular h a zs → a ∉ Node.waitList k :: (c :: cs).map .item → a ≠ .notifyQueue →
      Circular (detachWaiters h k true) a zs := by
  have first : h.next (.waitList k) = .item c := waiting.next_head
  have pop : detachWaiters h k true =
      listAddTail (listDelInit h (.item c)) (.item c) .notifyQueue := by
    simp [detachWaiters, initListHead_of_nil notify, listPopHead, listEmpty, first]
  have split : Circular h (.waitList k) ([] ++ Node.item c :: cs.map .item) := waiting
  have rest : Circular (listDelInit h (.item c)) (.waitList k) (cs.map .item) :=
    listDelInit_circular split
  have keep : ∀ a zs, Circular h a zs → a ∉ Node.waitList k :: (c :: cs).map .item →
      Circular (listDelInit h (.item c)) a zs := fun a zs circ apart =>
    listDelInit_frame waiting (by simp) circ apart
  have notify' := keep _ _ notify (by simp)
  have alone := listDelInit_self h (Node.item c : Node K C)
  rw [pop]
  refine ⟨?_, ?_, ?_⟩
  · exact listAddTail_frame notify' rest (by simp) (alone.notMem_of_nil rest (by simp))
  · exact listAddTail_circular notify' (by simp)
  · intro a zs circ apart hne
    exact listAddTail_frame notify' (keep a zs circ apart) (by simpa using hne)
      (alone.notMem_of_nil (keep a zs circ apart) (fun e => apart (by simp [e])))

/-- The broadcast branch inserts the head `wait_list` into `notify_queue` and takes it out again:
both heads end up alone and the waiters hang on neither. -/
theorem detach_all (notify : Circular h .notifyQueue []) :
    (detachWaiters h k false).next .notifyQueue = .notifyQueue := by
  obtain ⟨-, hp⟩ := Circular.nil_iff.mp notify
  simp [detachWaiters, initListHead_of_nil notify, hp]

end Detach

section Schedule

variable {s : Sys K C M} {c : C} {a : Node K C} {xs ys zs : List (Node K C)}

theorem addToPcondSchedule_links (linked : Circular s.links a (xs ++ .item c :: ys)) :
    (addToPcondSchedule s c).links = listDelInit s.links (.item c) := by
  have hne : s.links.next (.item c) ≠ .item c := by
    rw [linked.next_of_split]
    intro e
    have hmem : Node.item c ∈ ys ++ [a] := e ▸ List.head_mem (by simp)
    have hnd := List.perm_middle.nodup_iff.mp linked.nodup_tail
    rcases List.mem_append.mp hmem with hy | ha
    · exact (List.nodup_cons.mp hnd).1 (List.mem_append_right _ hy)
    · exact linked.head_notMem (by simp [← List.mem_singleton.mp ha])
  simp [addToPcondSchedule, listEmpty, hne]

theorem addToPcondSchedule_links_alone (alone : Circular s.links (.item c) []) :
    (addToPcondSchedule s c).links = s.links := by
  simp [addToPcondSchedule, listEmpty, (Circular.nil_iff.mp alone).1]

/-- Scheduling a context that is in no queue pushes it on the queue of its own thread. -/
theorem addToPcondSchedule_chain {queue : M → List C}
    (chain : ∀ m, Chain s.linkToSchedule (s.scheduleFirst m) (queue m))
    (fresh : ∀ m, c ∉ queue m) (m : M) :
    Chain (addToPcondSchedule s c).linkToSchedule ((addToPcondSchedule s c).scheduleFirst m)
      (([c].filter (fun c => s.pmgr c = m)).reverse ++ queue m) := by
  by_cases hm : s.pmgr c = m
  · subst hm
    simpa [addToPcondSchedule] using llistAdd_chain (chain (s.pmgr c)) (fresh _)
  · have first : (addToPcondSchedule s c).scheduleFirst m = s.scheduleFirst m := by
      simp [addToPcondSchedule, Function.update_of_ne (Ne.symm hm)]
    simp only [List.filter_cons, hm, decide_false, List.filter_nil]
    rw [first]
    refine (chain m).congr fun z hz => Function.update_of_ne ?_ _ _
    rintro rfl
    exact fresh m hz

end Schedule

section Signal

variable {s : Sys K C M} {ws : K → List C} {queue : M → List C} {k : K} {c : C} {cs : List C}

theorem signalHelp_empty (holds : Holds s ws queue) (hk : ws k = []) (onlyOne : Bool)
    {t : Signalling K C M} : SignalHelp s k onlyOne t ↔ t = ⟨s, 0⟩ := by
  have empty : listEmpty s.links (.waitList k) = true :=
    (listEmpty_iff (holds.waiting k)).mpr (by simp [hk])
  simp [SignalHelp, pthreadCondSignalHelp, empty, eq_comm]

theorem signalHelp_nonempty (holds : Holds s ws queue) (hk : ws k ≠ []) (onlyOne : Bool)
    {t : Signalling K C M} : SignalHelp s k onlyOne t ↔ Loop.Returns notifyLoop
      (forEachStart signalNext .notifyQueue
        ⟨{ s with links := detachWaiters s.links k onlyOne }, 0⟩) t := by
  have empty : ¬ listEmpty s.links (.waitList k) = true := fun h =>
    hk (by simpa using (listEmpty_iff (holds.waiting k)).mp h)
  simp [SignalHelp, pthreadCondSignalHelp, empty, Loop.Returns]

/-- A signal moves the oldest waiter of the condition to the queue of its thread. -/
theorem signal_one (holds : Holds s ws queue) (hk : ws k = c :: cs) :
    ∃ links, SignalHelp s k true ⟨{ addToPcondSchedule s c with links := links }, 1⟩ ∧
      Circular links (.waitList k) (cs.map .item) ∧ Circular links .notifyQueue [] ∧
      Circular links (.item c) [] ∧
      ∀ a zs, Circular s.links a zs → a ∉ Node.waitList k :: (c :: cs).map .item →
        a ≠ .notifyQueue → Circular links a zs := by
  obtain ⟨rest, taken, keep⟩ := detach_one (hk ▸ holds.waiting k) holds.notify
  set h := detachWaiters s.links k true with hh
  set s' : Sys K C M := { s with links := h } with hs'
  have first : h.next .notifyQueue = .item c := taken.next_head
  have second : h.next (.item c) = .notifyQueue := taken.next_of_cons
  have split : Circular s'.links .notifyQueue ([] ++ Node.item c :: []) := taken
  have links : (addToPcondSchedule s' c).links = listDelInit h (.item c) :=
    addToPcondSchedule_links split
  have back : Circular (listDelInit h (.item c)) .notifyQueue [] := listDelInit_circular split
  refine ⟨listDelInit h (.item c), ?_, ?_, back, listDelInit_self _ _, ?_⟩
  · refine (signalHelp_nonempty holds (by simp [hk]) true).mpr ⟨2, ?_⟩
    have start : forEachStart signalNext .notifyQueue (⟨s', 0⟩ : Signalling K C M) =
        ⟨.item c, .notifyQueue, ⟨s', 0⟩⟩ := by
      simp [forEachStart, signalNext, hs', first, second]
    have final : addToPcondSchedule s' c =
        { addToPcondSchedule s c with links := listDelInit h (.item c) } := by
      rw [← links]
      rfl
    rw [start]
    simp [Loop.run, notifyLoop, forEachSafe, notifyBody, final]
  · exact listDelInit_frame taken (by simp) rest (by simp)
  · intro a zs circ apart hne
    refine listDelInit_frame taken (by simp) (keep a zs circ apart hne) ?_
    simp only [List.map_cons, List.mem_cons, not_or] at apart
    simp [hne, apart.2.1]

end Signal

/-- A signal always moves the first waiter; a broadcast does its work only when nobody waits. -/
theorem signal_delivers_iff (s : Sys K C M) (ws : K → List C) (queue : M → List C)
    (holds : Holds s ws queue) (k : K) (onlyOne : Bool) :
    Delivers s ws queue k onlyOne ↔ onlyOne = true ∨ ws k = [] := by
  cases hk : ws k with
  | nil =>
    refine iff_of_true ⟨⟨s, 0⟩, (signalHelp_empty holds hk onlyOne).mpr rfl, ?_, ?_, ?_⟩
      (Or.inr rfl)
    · simp [chosen, hk]
    · intro k'
      by_cases he : k' = k
      · simpa [he, hk, chosen] using holds.waiting k
      · simpa [he] using holds.waiting k'
    · intro m
      simpa [chosen, hk] using holds.chain m
  | cons c cs =>
    simp only [reduceCtorEq, or_false]
    constructor
    · -- a broadcast leaves `notify_queue` empty, so the loop schedules nobody
      rintro ⟨t, help, count, -⟩
      by_contra hone
      have hone : onlyOne = false := by simpa using hone
      subst hone
      have ret := (signalHelp_nonempty holds (by simp [hk]) false).mp help
      have none_taken : notifyLoop (forEachStart signalNext .notifyQueue
          ⟨{ s with links := detachWaiters s.links k false }, 0⟩) =
          .leave (⟨{ s with links := detachWaiters s.links k false }, 0⟩ : Signalling K C M) := by
        simp [notifyLoop, forEachSafe, forEachStart, signalNext, detach_all holds.notify]
      obtain rfl := (Loop.returns_leave none_taken).mp ret
      simp [chosen, hk] at count
    · rintro rfl
      obtain ⟨links, help, rest, -, -, keep⟩ := signal_one holds hk
      refine ⟨_, help, by simp [chosen, hk], ?_, ?_⟩
      · intro k'
        by_cases he : k' = k
        · subst he
          simpa [chosen, hk] using rest
        · simpa [he] using keep _ _ (holds.waiting k') (by simpa using he) (by simp)
      · intro m
        have fresh : ∀ m, c ∉ queue m := fun m => holds.apart k c m (by simp [hk])
        simpa [chosen, hk] using addToPcondSchedule_chain holds.chain fresh m

/-- Wait call 0 waits on condition 0 on thread 0. -/
def oneWaiting : Sys Nat Nat Nat := pthreadCondTimedwait (init fun _ => 0) 0 0 0

theorem oneWaiting_holds :
    Holds oneWaiting (fun k => if k = 0 then [0] else []) (fun _ => []) where
  waiting := by
    intro k
    by_cases hk : k = 0
    · subst hk
      exact ⟨by simp only [Lib.Path, List.map, ↓reduceIte]; decide, by decide⟩
    · rw [if_neg hk]
      refine Circular.nil_iff.mpr ?_
      simp [oneWaiting, pthreadCondTimedwait, init, initListHead, hk]
  notify := Circular.nil_iff.mpr (by decide)
  chain := fun _ => rfl
  apart := by simp

theorem signal_delivers_one_waiting :
    Holds oneWaiting (fun k => if k = 0 then [0] else []) (fun _ => []) ∧
    (Delivers oneWaiting (fun k => if k = 0 then [0] else []) (fun _ => []) 0 true ↔
      true = true ∨ (fun k => if k = 0 then [0] else [] : Nat → List Nat) 0 = []) :=
  ⟨oneWaiting_holds, signal_delivers_iff _ _ _ oneWaiting_holds 0 true⟩

/-- A broadcast to one waiter returns 0 and schedules nobody. -/
theorem broadcast_drops_waiter :
    ¬ Delivers oneWaiting (fun k => if k = 0 then [0] else []) (fun _ => []) 0 false := by
  rintro ⟨t, help, count, -⟩
  have run : ∃ t', SignalHelp oneWaiting 0 false t' ∧ t'.cnt = 0 := ⟨_, ⟨1, rfl⟩, rfl⟩
  obtain ⟨t', help', count'⟩ := run
  have nonempty : (fun k => if k = 0 then [0] else [] : Nat → List Nat) 0 ≠ [] := by simp
  have same := ((signalHelp_nonempty oneWaiting_holds nonempty false).mp help).unique
    ((signalHelp_nonempty oneWaiting_holds nonempty false).mp help')
  rw [same, count'] at count
  exact absurd count (by decide)

end Conet.Core.PthreadCond
