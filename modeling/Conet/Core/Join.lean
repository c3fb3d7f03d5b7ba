/- Module: Conet/Core/Join
   source: core/src/coroutine.cpp, core/src/dispatch.cpp
   digest: Waits for the end of one coroutine, with and without a timeout, and who wakes them. -/

import Conet.Core.CoroutineRun
import Conet.Lib.Trace
import Conet.Lib.Waiting

set_option autoImplicit false
set_option relaxedAutoImplicit false

namespace Conet.Core.Join

open Conet.Lib Conet.Lib.Waiting Conet.Base.ListHead Conet.Base.ListRings Conet.Core.Coroutine

universe u v

variable {C : Type u} {W : Type v}

/-- `proc_exit_notify` between two turns of its loop: who runs it, and its `next`. -/
structure Drain (C : Type u) (W : Type v) where
  runner : C
  next : Node (Head C W) C

/-- The coroutines, and those among them that wait for the end of one, `target`. -/
structure Sys (C : Type u) (W : Type v) where
  env : Env C W
  /-- `wait_th` is linked in the timer wheel -/
  armed : C → Bool
  /-- inside a `wait(target)`, and whether it is one with a timeout -/
  inside : C → Option Bool
  /-- inside a `wait(target)` still, but resumed: it returns before anything else happens -/
  resumed : Option C
  /-- the loop over the waiters for `target` -/
  drain : Option (Drain C W)

inductive Event (C : Type u)
  | passed (co : C) (ret : ℤ)
  | entered (co : C) (timed : Bool)
  | notified (co : C) (ret : ℤ)
  | expired (co : C)
  | returned (co : C) (ret : ℤ)
  | stopped (ret : ℤ)
  | other

section Calls

variable [DecidableEq C] [DecidableEq W]

/-- `wait(target)`, and `wait(target, ms)` when there is an `ms`, up to the `yield`. -/
def waitEnter (s : Sys C W) (target : C) (ms : Option UInt32) : Option (Sys C W) :=
  let cur := s.env.currCo
  (yield s.env (some (.exitNotifyQueue target)) (.num 0)).map fun env =>
    { s with
      env := env
      armed := if ms.isSome then Function.update s.armed cur true else s.armed
      inside := Function.update s.inside cur (some ms.isSome) }

/-- `wait` from its `yield` on. -/
def waitLeave (s : Sys C W) (co : C) : Sys C W :=
  { s with
    armed := if s.inside co = some true then Function.update s.armed co false else s.armed
    inside := Function.update s.inside co none
    resumed := none }

/-- The wheel unlinks the handle of `co` and calls `wait_timeout_handle`. -/
def waitTimeoutHandle (s : Sys C W) (co : C) : Sys C W :=
  { s with
    env := resume { s.env with links := listDelInit s.env.links (.item co) } co (.num (-1))
    armed := Function.update s.armed co false
    resumed := some co }

/-- `proc_exit_notify` up to its loop; the dispatcher has taken it off its list. -/
def procExitNotify (s : Sys C W) (target : C) : Sys C W :=
  { s with
    env := { s.env with delayed := s.env.delayed.erase (.procExitNotify target) }
    drain := some ⟨s.env.currCo, s.env.links.next (.head (.notifier target))⟩ }

/-- A turn of the loop of `proc_exit_notify`, whose `it` is the link of `co`. -/
def notifyTurn (s : Sys C W) (target : C) (d : Drain C W) (co : C) : Sys C W :=
  let next := s.env.links.next d.next
  let env : Env C W := { s.env with links := listDelInit s.env.links (.item co) }
  if env.state co = .stop then { s with env := env, drain := some ⟨d.runner, next⟩ }
  else
    { s with
      env := resume env co (.num (env.notifyRet target))
      resumed := some co
      drain := some ⟨d.runner, next⟩ }

/-- Control is neither with a waiter that is on its way out nor with the loop of
`proc_exit_notify`. -/
def Free (s : Sys C W) : Prop :=
  s.resumed = none ∧ ∀ d, s.drain = some d → s.env.currCo ≠ d.runner

/-- One step. The waiters are resumed by `proc_exit_notify` and by their timers only. The wheel is
run by the dispatcher as well as `proc_exit_notify`, so no timer fires before its loop is over. -/
inductive Step (target : C) : Sys C W → Event C → Sys C W → Prop
  | passed (s : Sys C W) (free : Free s) (stopped : s.env.state target = .stop) :
      Step target s (.passed s.env.currCo (s.env.retVal target)) s
  | enter (s s' : Sys C W) (free : Free s) (ms : Option UInt32)
      (ne : s.env.currCo ≠ s.env.main) (live : s.env.state target ≠ .stop)
      (enters : waitEnter s target ms = some s') :
      Step target s (.entered s.env.currCo ms.isSome) s'
  | leave (s : Sys C W) (co : C) (ret : ℤ) (leaves : s.resumed = some co)
      (val : s.env.val = .num ret) : Step target s (.returned co ret) (waitLeave s co)
  | expire (s : Sys C W) (co : C) (still : s.resumed = none) (undrained : s.drain = none)
      (armed : s.armed co = true) : Step target s (.expired co) (waitTimeoutHandle s co)
  | take (s : Sys C W) (free : Free s) (delayed : .procExitNotify target ∈ s.env.delayed) :
      Step target s .other (procExitNotify s target)
  | skip (s : Sys C W) (d : Drain C W) (co : C) (still : s.resumed = none)
      (drain : s.drain = some d) (runs : s.env.currCo = d.runner) (it : d.next = .item co)
      (stopped : s.env.state co = .stop) : Step target s .other (notifyTurn s target d co)
  | notify (s : Sys C W) (d : Drain C W) (co : C) (still : s.resumed = none)
      (drain : s.drain = some d) (runs : s.env.currCo = d.runner) (it : d.next = .item co)
      (live : s.env.state co ≠ .stop) :
      Step target s (.notified co (s.env.notifyRet target)) (notifyTurn s target d co)
  | drained (s : Sys C W) (d : Drain C W) (still : s.resumed = none) (drain : s.drain = some d)
      (runs : s.env.currCo = d.runner) (it : d.next = .head (.notifier target)) :
      Step target s .other { s with drain := none }
  | resume (s : Sys C W) (free : Free s) (co : C) (val : Val C)
      (idle : s.env.state co = .create ∨ s.env.state co = .suspend) (out : s.inside co = none) :
      Step target s .other { s with env := resume s.env co val }
  | yield (s : Sys C W) (free : Free s) (env : Env C W) (waitTo : Option (Head C W)) (val : Val C)
      (ne : s.env.currCo ≠ s.env.main) (list : ∀ k, waitTo = some k → k.IsWaitList)
      (elsewhere : waitTo ≠ some (.exitNotifyQueue target))
      (yields : yield s.env waitTo val = some env) : Step target s .other { s with env := env }
  | stop (s : Sys C W) (free : Free s) (env : Env C W) (ret : ℤ) (ne : s.env.currCo ≠ s.env.main)
      (runs : s.env.currCo = target) (ends : coMainHelper2 s.env ret = some env) :
      Step target s (.stopped ret) { s with env := env }
  | ret (s : Sys C W) (free : Free s) (env : Env C W) (ret : ℤ) (ne : s.env.currCo ≠ s.env.main)
      (another : s.env.currCo ≠ target) (ends : coMainHelper2 s.env ret = some env) :
      Step target s .other { s with env := env }
  | task (s : Sys C W) (free : Free s) (t : DelayTask C) (ne : t ≠ .procExitNotify target) :
      Step target s .other { s with env := { s.env with delayed := s.env.delayed.erase t } }

def Sys.init (main : C) (isEndDelete : C → Bool) : Sys C W where
  env := Env.init main isEndDelete
  armed := fun _ => false
  inside := fun _ => none
  resumed := none
  drain := none

def Run (main target : C) (isEndDelete : C → Bool) : List (Event C) → Sys C W → Prop :=
  Trace (Sys.init main isEndDelete) (Step target)

end Calls

def seen : Event C → List (Obs C)
  | .entered co timed => [.entered co timed]
  | .notified co ret => [.woken co ret]
  | .expired co => [.expired co (-1)]
  | .returned co ret => [.returned co ret]
  | _ => []

def history (tr : List (Event C)) : List (Obs C) := tr.flatMap seen

variable [DecidableEq C]

/-- The coroutines that called `wait` and have been neither notified nor timed out since, oldest
first. -/
def waiters (tr : List (Event C)) : List C := (queued (history tr)).map Prod.fst

/-- What the end of `target` owes those who wait for it. -/
structure Joined (target : C) (s : Sys C W) (tr : List (Event C)) : Prop where
  /-- a call has returned once, or is still inside -/
  once : ∀ co, calls co (history tr) = returns co (history tr) + if (s.inside co).isSome then 1 else 0
  /-- it returns -1 when its timer fired while it was queued, and else the result of `target` -/
  value : ∀ tr₁ co ret tr₂, tr = tr₁ ++ .returned co ret :: tr₂ → ∃ tr₀,
    (ret = -1 ∧ tr₁ = tr₀ ++ [.expired co] ∧ (co, true) ∈ queued (history tr₀)) ∨
    (tr₁ = tr₀ ++ [.notified co ret] ∧ .stopped ret ∈ tr₀)
  passed : ∀ tr₁ co ret tr₂, tr = tr₁ ++ .passed co ret :: tr₂ → .stopped ret ∈ tr₁
  /-- there is one result of `target` -/
  result : ∀ ret, .stopped ret ∈ tr → s.env.state target = .stop ∧ s.env.retVal target = ret
  /-- nobody hangs on the two queues who is not inside a wait -/
  linked : ∀ k co, k = .exitNotifyQueue target ∨ k = .notifier target → Linked s.env.links k co →
    (s.inside co).isSome ∧ s.resumed ≠ some co
  /-- waits without a timeout are woken in the order they began -/
  order : untimedWoken (history tr) <+: untimedEntered (history tr)
  /-- a timed wait can expire as long as it is queued -/
  timer : ∀ co, (co, true) ∈ queued (history tr) → s.armed co = true
  /-- a waiter that has been resumed is running, and returns -/
  leaves : ∀ co, s.resumed = some co → s.env.currCo = co ∧ ∃ ret, s.env.val = .num ret
  /-- the waiters of a coroutine that has stopped are with a task that the dispatcher holds, -/
  held : s.env.state target = .stop → .procExitNotify target ∉ s.env.delayed → s.drain = none →
    s.resumed = none → ∀ co, s.inside co = none
  /-- or with its loop, which takes them one after the other until none is left -/
  drains : ∀ d, s.drain = some d → d.next = follow (.notifier target) (waiters tr) ∧
    ∀ co ∈ waiters tr, s.env.state co ≠ .stop

/-- The list that the waiters for `target` hang on. -/
def home (e : Env C W) (target : C) : Head C W :=
  if e.state target = .stop then .notifier target else .exitNotifyQueue target

/-- The coroutines and the waiters at any moment, against their history. -/
structure Inv (target : C) (s : Sys C W) (L : Head C W → List C) (tr : List (Event C)) : Prop where
  switching : ∃ tr', CoroutineRun.Inv s.env L tr'
  served : Served (history tr)
  fifo : Fifo (history tr)
  waiting : L (home s.env target) = waiters tr
  vacant : s.env.state target = .stop → L (.exitNotifyQueue target) = []
  still : s.resumed = none → leaving (history tr) = none
  resumed : ∀ co, s.resumed = some co → s.env.currCo = co ∧
    ∃ ret, s.env.val = .num ret ∧ leaving (history tr) = some (co, ret)
  inside : ∀ co, (s.inside co).isSome ↔ Waits co (history tr)
  timers : ∀ co timed, (co, timed) ∈ queued (history tr) →
    s.inside co = some timed ∧ s.armed co = timed
  armed : ∀ co, s.armed co = true → s.inside co = some true
  stopped : ∀ ret, .stopped ret ∈ tr ↔ s.env.state target = .stop ∧ s.env.retVal target = ret
  task : .procExitNotify target ∈ s.env.delayed ∨ s.drain.isSome →
    s.env.state target = .stop ∧ s.env.notifyRet target = s.env.retVal target
  held : s.env.state target = .stop → waiters tr ≠ [] →
    .procExitNotify target ∈ s.env.delayed ∨ s.drain.isSome
  single : s.env.delayed.count (.procExitNotify target) + (if s.drain.isSome then 1 else 0) ≤ 1
  drain : ∀ d, s.drain = some d → d.next = follow (.notifier target) (waiters tr)

section Steps

variable {target : C} {s s' : Sys C W} {L L' : Head C W → List C} {tr : List (Event C)} {co : C}

omit [DecidableEq C] in
@[simp] theorem history_snoc (ev : Event C) : history (tr ++ [ev]) = history tr ++ seen ev := by
  simp [history]

theorem Inv.suspended (inv : Inv target s L tr) (mem : co ∈ waiters tr) :
    s.env.state co = .suspend := by
  obtain ⟨tr', switching⟩ := inv.switching
  rw [← inv.waiting] at mem
  refine (switching.waiting _ co mem ?_).1
  unfold home
  split_ifs <;> simp

/-- The running coroutine is inside no wait, unless it is the one that has just been resumed. -/
theorem Inv.outside (inv : Inv target s L tr) (still : s.resumed = none) :
    s.inside s.env.currCo = none := by
  obtain ⟨tr', switching⟩ := inv.switching
  rw [← Option.not_isSome_iff_eq_none, inv.inside, Waits, inv.still still]
  rintro (mem | ⟨ret, leaves⟩)
  · have suspended := inv.suspended mem
    simp [switching.cur_running] at suspended
  · simp at leaves

/-- What a step that does not concern the waiters leaves as it is. -/
structure Quiet (target : C) (e e' : Env C W) (L L' : Head C W → List C) : Prop where
  switching : ∃ tr', CoroutineRun.Inv e' L' tr'
  queue : L' (.exitNotifyQueue target) = L (.exitNotifyQueue target)
  notifier : L' (.notifier target) = L (.notifier target)
  stop : e'.state target = .stop ↔ e.state target = .stop
  retVal : e'.retVal target = e.retVal target
  notifyRet : e'.notifyRet target = e.notifyRet target
  delayed : e'.delayed.count (.procExitNotify target) = e.delayed.count (.procExitNotify target)

theorem Inv.quiet (inv : Inv target s L tr) (still : s.resumed = none) {e : Env C W}
    (quiet : Quiet target s.env e L L') {ev : Event C} (unseen : seen ev = [])
    (goes : ∀ ret, ev ≠ .stopped ret) : Inv target { s with env := e } L' (tr ++ [ev]) := by
  have hist : history (tr ++ [ev]) = history tr := by simp [unseen]
  have waiters' : waiters (tr ++ [ev]) = waiters tr := by rw [waiters, hist, waiters]
  have mem : DelayTask.procExitNotify target ∈ e.delayed ↔
      DelayTask.procExitNotify target ∈ s.env.delayed := by
    rw [← List.count_pos_iff, quiet.delayed, List.count_pos_iff]
  constructor
  · exact quiet.switching
  · exact hist.symm ▸ inv.served
  · exact hist.symm ▸ inv.fifo
  · have waiting := inv.waiting
    rw [waiters', ← waiting]
    unfold home
    simp only [quiet.stop]
    split_ifs
    · exact quiet.notifier
    · exact quiet.queue
  · intro stop
    rw [quiet.queue]
    exact inv.vacant (quiet.stop.mp stop)
  · exact hist.symm ▸ inv.still
  · intro co resumed
    simp [still] at resumed
  · exact hist.symm ▸ inv.inside
  · exact hist.symm ▸ inv.timers
  · exact inv.armed
  · intro ret
    rw [List.mem_append, inv.stopped, quiet.stop, quiet.retVal]
    simpa using fun h => absurd h.symm (goes ret)
  · intro task
    rw [quiet.stop, quiet.notifyRet, quiet.retVal]
    exact inv.task (task.imp_left mem.mp)
  · intro stop left
    rw [mem]
    exact inv.held (quiet.stop.mp stop) (waiters' ▸ left)
  · rw [quiet.delayed]
    exact inv.single
  · exact waiters'.symm ▸ inv.drain

variable [DecidableEq W]

section States

variable {e : Env C W} {tr' : List (CoroutineRun.Event C W)} {last c : C} {rest : List C}

theorem yieldTo_stop (switching : CoroutineRun.Inv e L tr')
    (stack : CoroutineRun.pending tr' = last :: rest) {links : Links (Node (Head C W) C)}
    {waitTo : Option (Head C W)} {val : Val C} :
    (yieldTo e last links waitTo val).state c = .stop ↔ e.state c = .stop := by
  have running := switching.running
  by_cases hlast : c = last
  · simp [yieldTo, hlast, (running last).mpr (by simp [stack])]
  by_cases hcur : c = e.currCo
  · have ne : e.currCo ≠ last := hcur ▸ hlast
    simp [yieldTo, hcur, ne, switching.cur_running]
  · simp [yieldTo, hlast, hcur]

theorem resume_stop (idle : e.state co = .create ∨ e.state co = .suspend) {val : Val C} :
    (resume e co val).state c = .stop ↔ e.state c = .stop := by
  by_cases hco : c = co
  · rcases idle with idle | idle <;> simp [resume, hco, idle]
  · simp [resume, hco]

omit [DecidableEq W] in
theorem switching_delayed (switching : CoroutineRun.Inv e L tr') (delayed : List (DelayTask C)) :
    CoroutineRun.Inv { e with delayed := delayed } L tr' :=
  ⟨switching.rings, switching.queue, switching.apart, switching.nodup, switching.bottom,
    switching.running, switching.waiting, switching.saved, switching.notifier⟩

end States

theorem Inv.enter (inv : Inv target s L tr) (still : s.resumed = none)
    (ms : Option UInt32) (ne : s.env.currCo ≠ s.env.main) (live : s.env.state target ≠ .stop)
    (enters : waitEnter s target ms = some s') :
    ∃ L', Inv target s' L' (tr ++ [.entered s.env.currCo ms.isSome]) := by
  obtain ⟨tr', switching⟩ := inv.switching
  obtain ⟨last, rest, stack, started, split⟩ := switching.pending_of_ne ne
  set cur := s.env.currCo with hcur
  have out : s.inside cur = none := inv.outside still
  have idle : ¬ Waits cur (history tr) := fun h => by simpa [out] using (inv.inside cur).mpr h
  have fresh : cur ∉ waiters tr := fun h => idle (.inl h)
  obtain rfl : { s with
      env := yieldTo s.env last (listDelInit s.env.links (.item last))
        (some (.exitNotifyQueue target)) (.num 0)
      armed := if ms.isSome then Function.update s.armed cur true else s.armed
      inside := Function.update s.inside cur (some ms.isSome) } = s' := by
    simpa [waitEnter, yield_eq switching.rings split] using enters
  have hung : ∀ k : Head C W, some (Head.exitNotifyQueue target) = some k → k.IsWaitList := by
    rintro k ⟨⟩
    trivial
  have next := switching.yieldTo stack split started hung (.num 0)
  have lists : yieldLists L cur last (some (.exitNotifyQueue target)) (.exitNotifyQueue target) =
      L (.exitNotifyQueue target) ++ [cur] := by
    rw [switching.yield_lists stack (by simp), if_pos rfl]
  have waiters' : waiters (tr ++ [.entered cur ms.isSome]) = waiters tr ++ [cur] := by
    simp [waiters, seen, stepQueue]
  set env := yieldTo s.env last (listDelInit s.env.links (.item last))
    (some (.exitNotifyQueue target)) (.num 0) with henv
  have live' : env.state target ≠ .stop := fun stop =>
    live ((yieldTo_stop switching stack).mp stop)
  have unended : ¬ (.procExitNotify target ∈ s.env.delayed ∨ s.drain.isSome) := fun h =>
    live (inv.task h).1
  have queued' : queued (history (tr ++ [.entered cur ms.isSome])) =
      queued (history tr) ++ [(cur, ms.isSome)] := by
    simp [seen, stepQueue]
  refine ⟨_, ⟨_, next⟩, ?_, ?_, ?_, ?_, ?_, ?_, ?_, ?_, ?_, ?_, ?_, ?_, ?_, ?_⟩
  · rw [history_snoc]
    exact inv.served.entered (inv.still still) cur _ fresh
  · rw [history_snoc]
    exact inv.fifo.snoc (by simp)
  · have waiting := inv.waiting
    rw [home, if_neg live] at waiting
    rw [home, if_neg live', waiters', lists, waiting]
  · exact fun stop => absurd stop live'
  · simp [seen, stepLeaving]
  · intro co resumed
    simp [still] at resumed
  · intro co
    rw [history_snoc, show seen (.entered cur ms.isSome) = [.entered cur ms.isSome] from rfl,
      waits_entered (inv.still still), ← inv.inside]
    by_cases hco : co = cur <;> simp [hco]
  · intro co timed mem
    rw [queued', List.mem_append, List.mem_singleton, Prod.mk.injEq] at mem
    rcases mem with mem | ⟨hco, htimed⟩
    · have hco : co ≠ cur := by
        rintro rfl
        exact fresh (List.mem_map.mpr ⟨_, mem, rfl⟩)
      obtain ⟨inside, armed⟩ := inv.timers co timed mem
      constructor
      · simpa [hco] using inside
      · dsimp only
        split_ifs <;> simpa [hco] using armed
    · rw [hco, htimed]
      cases ms with
      | none =>
        have unarmed : s.armed cur = false := by
          by_contra h
          simpa [out] using inv.armed cur (by simpa using h)
        simpa using unarmed
      | some ms => simp
  · intro co armed
    by_cases hco : co = cur
    · rw [hco] at armed ⊢
      cases ms with
      | none => simpa [out] using inv.armed cur (by simpa using armed)
      | some ms => simp
    · have old : s.armed co = true := by
        split_ifs at armed <;> simpa [hco] using armed
      simpa [hco] using inv.armed co old
  · intro ret
    have none := inv.stopped ret
    simpa [live, live'] using none
  · exact fun h => absurd h unended
  · exact fun stop => absurd stop live'
  · exact inv.single
  · intro d drain
    exact absurd (.inr (by simp [show s.drain = some d from drain])) unended

/-- After a waiter has been unlinked and resumed, by its timer or by `proc_exit_notify`. -/
theorem Inv.unlink (inv : Inv target s L tr) (still : s.resumed = none) (mem : co ∈ waiters tr)
    {ev : Event C} {o : Obs C} {ret : ℤ} (hseen : seen ev = [o])
    (goes : ∀ ret, ev ≠ .stopped ret) (served : Served (history tr ++ [o]))
    (oldest : ∀ c v, o = .woken c v → (waiters tr).head? = some c)
    (queue : ∀ q, stepQueue q o = q.filter fun x => x.1 ≠ co)
    (leaves : stepLeaving o = some (co, ret)) {armed : C → Bool} {drain : Option (Drain C W)}
    (kept : ∀ c, c ≠ co → armed c = s.armed c) (off : armed co = true → s.armed co = true)
    (loop : drain.isSome = s.drain.isSome)
    (next : ∀ d, drain = some d → d.next = follow (.notifier target) ((waiters tr).erase co)) :
    ∃ L', Inv target { s with
      env := resume s.env co (.num ret), armed := armed, resumed := some co, drain := drain }
      L' (tr ++ [ev]) := by
  obtain ⟨tr', switching⟩ := inv.switching
  have idle := inv.suspended mem
  have next' := switching.resume (.inr idle) (.num ret)
  have lists : ∀ k, k ≠ Head.runQueue → relinked (fun k => (L k).erase co) s.env.currCo .runQueue k =
      (L k).erase co := fun k hk => switching.resume_lists co hk
  have waiters' : waiters (tr ++ [ev]) = (waiters tr).erase co := by
    simp only [waiters, history_snoc, hseen, queued_snoc, queue, keys_filter]
    rw [inv.served.nodup.erase_eq_filter co]
    exact List.filter_congr fun x _ => by simp [bne, beq_eq_decide]
  have stop : ∀ c, (resume s.env co (.num ret)).state c = .stop ↔ s.env.state c = .stop :=
    fun c => resume_stop (.inr idle)
  have queued' : ∀ x, x ∈ queued (history (tr ++ [ev])) ↔ x ∈ queued (history tr) ∧ x.1 ≠ co := by
    simp [hseen, queue]
  refine ⟨_, ⟨_, next'⟩, ?_, ?_, ?_, ?_, ?_, ?_, ?_, ?_, ?_, ?_, ?_, ?_, ?_, ?_⟩
  · rw [history_snoc, hseen]
    exact served
  · rw [history_snoc, hseen]
    apply inv.fifo.snoc
    intro c v e
    rw [← List.head?_map]
    exact oldest c v e
  · have waiting := inv.waiting
    have home' : home (resume s.env co (.num ret)) target = home s.env target := by
      simp only [home, stop]
    rw [home', waiters', lists, waiting]
    unfold home
    split_ifs <;> simp
  · intro stopped
    rw [lists _ (by simp), inv.vacant ((stop _).mp stopped)]
    rfl
  · simp
  · rintro c ⟨⟩
    refine ⟨rfl, ret, ?_, by simp [hseen, leaves]⟩
    simp [resume, idle]
  · intro c
    rw [history_snoc, hseen, waits_resumed (inv.still still) mem queue leaves]
    exact inv.inside c
  · intro c timed hc
    obtain ⟨old, hne⟩ := (queued' _).mp hc
    obtain ⟨inside, old⟩ := inv.timers c timed old
    exact ⟨inside, (kept c hne).trans old⟩
  · intro c hc
    apply inv.armed
    by_cases hne : c = co
    · exact hne ▸ off (hne ▸ hc)
    · exact (kept c hne) ▸ hc
  · intro v
    rw [List.mem_append, inv.stopped, stop]
    simpa [resume] using fun h => absurd h.symm (goes v)
  · intro task
    rw [stop]
    exact inv.task (by rwa [loop] at task)
  · intro stopped left
    rw [loop]
    apply inv.held ((stop _).mp stopped)
    rintro empty
    rw [waiters', empty] at left
    exact left rfl
  · rw [loop]
    exact inv.single
  · intro d hd
    rw [waiters']
    exact next d hd

omit [DecidableEq W] in
theorem Inv.leave (inv : Inv target s L tr) {ret : ℤ} (leaves : s.resumed = some co)
    (val : s.env.val = .num ret) :
    Inv target (waitLeave s co) L (tr ++ [.returned co ret]) := by
  obtain ⟨runs, v, hv, leaving⟩ := inv.resumed co leaves
  obtain rfl : v = ret := by simpa [hv] using val
  have off := inv.served.not_queued leaving
  have queued' : queued (history (tr ++ [.returned co v])) = queued (history tr) := by
    simp [seen, stepQueue]
  have waiters' : waiters (tr ++ [.returned co v]) = waiters tr := by
    rw [waiters, queued', waiters]
  constructor
  · exact inv.switching
  · rw [history_snoc]
    exact inv.served.returned leaving
  · rw [history_snoc]
    exact inv.fifo.snoc (by simp)
  · exact waiters'.symm ▸ inv.waiting
  · exact inv.vacant
  · simp [seen, stepLeaving]
  · simp [waitLeave]
  · intro c
    rw [history_snoc, show seen (.returned co v) = [.returned co v] from rfl,
      waits_returned inv.served leaving, ← inv.inside]
    by_cases hc : c = co <;> simp [waitLeave, hc]
  · intro c timed mem
    rw [queued'] at mem
    have hc : c ≠ co := by
      rintro rfl
      exact off (List.mem_map.mpr ⟨_, mem, rfl⟩)
    obtain ⟨inside, armed⟩ := inv.timers c timed mem
    refine ⟨by simpa [waitLeave, hc] using inside, ?_⟩
    unfold waitLeave
    dsimp only
    split_ifs <;> simpa [hc] using armed
  · intro c armed
    unfold waitLeave at armed ⊢
    dsimp only at armed ⊢
    split_ifs at armed with timed
    · have hc : c ≠ co := by
        rintro rfl
        simp at armed
      rw [Function.update_of_ne hc] at armed ⊢
      exact inv.armed c armed
    · have hc : c ≠ co := by
        rintro rfl
        exact timed (inv.armed c armed)
      rw [Function.update_of_ne hc]
      exact inv.armed c armed
  · intro w
    simpa [waitLeave] using inv.stopped w
  · exact inv.task
  · exact waiters'.symm ▸ inv.held
  · exact inv.single
  · exact waiters'.symm ▸ inv.drain

theorem Inv.stop (inv : Inv target s L tr) (still : s.resumed = none) {env : Env C W} {ret : ℤ}
    (ne : s.env.currCo ≠ s.env.main) (runs : s.env.currCo = target)
    (ends : coMainHelper2 s.env ret = some env) :
    ∃ L', Inv target { s with env := env } L' (tr ++ [.stopped ret]) := by
  obtain ⟨tr', switching⟩ := inv.switching
  obtain ⟨last, rest, stack, started, split⟩ := switching.pending_of_ne ne
  have running : s.env.state target = .running := runs ▸ switching.cur_running
  have idle : L (.notifier s.env.currCo) = [] :=
    switching.notifier _ (by simp [switching.cur_running])
  obtain ⟨env', ends', ended, rings⟩ :=
    coMainHelper2_ended switching.rings split (switching.free started) idle ret
  obtain rfl : env' = env := Option.some.inj (ends'.symm.trans ends)
  have next := switching.ended stack split ended rings
  have unended : ¬ (.procExitNotify target ∈ s.env.delayed ∨ s.drain.isSome) := fun h => by
    simpa [running] using (inv.task h).1
  have hist : history (tr ++ [.stopped ret]) = history tr := by simp [seen]
  have waiters' : waiters (tr ++ [.stopped ret]) = waiters tr := by rw [waiters, hist, waiters]
  have waiting : L (.exitNotifyQueue target) = waiters tr := by
    simpa [home, running] using inv.waiting
  have stopped : env'.state target = .stop := by
    have hne : target ≠ last := by
      rintro rfl
      have nodup := switching.nodup
      simp [stack, runs] at nodup
    simp [ended.state, hne, runs]
  have retVal : env'.retVal target = ret := by simp [ended.retVal, runs]
  have count : s.env.delayed.count (.procExitNotify target) = 0 :=
    List.count_eq_zero.mpr fun h => unended (.inl h)
  have quiet : s.drain = none := by
    by_contra h
    exact unended (.inr (Option.isSome_iff_ne_none.mpr h))
  have lists : ∀ k, k ≠ Head.runQueue → (handedOver L s.env.currCo k).erase last =
      handedOver L s.env.currCo k := fun k hk => switching.ended_lists stack hk
  have notifies := ended.notifies target
  rw [runs] at idle notifies
  simp only [count, waiting, true_and, Nat.zero_add] at notifies
  refine ⟨_, ⟨_, next⟩, ?_, ?_, ?_, ?_, ?_, ?_, ?_, ?_, ?_, ?_, ?_, ?_, ?_, ?_⟩
  · exact hist.symm ▸ inv.served
  · exact hist.symm ▸ inv.fifo
  · rw [home, if_pos stopped, lists _ (by simp), waiters', ← waiting, handedOver, runs]
    split_ifs with empty
    · rw [idle, empty]
    · simp
  · intro _
    rw [lists _ (by simp), handedOver, runs]
    split_ifs with empty
    · exact empty
    · simp
  · exact hist.symm ▸ inv.still
  · intro co resumed
    simp [still] at resumed
  · exact hist.symm ▸ inv.inside
  · exact hist.symm ▸ inv.timers
  · exact inv.armed
  · intro v
    have before := inv.stopped v
    simp only [running, reduceCtorEq, false_and, iff_false] at before
    rw [List.mem_append, or_iff_right before]
    simp [stopped, retVal, eq_comm]
  · intro task
    have left : waiters tr ≠ [] := by
      rintro empty
      rcases task with task | task
      · rw [← List.count_pos_iff, notifies, if_neg (by simp [empty])] at task
        omega
      · simp [quiet] at task
    refine ⟨stopped, ?_⟩
    rw [ended.notifyRet, if_neg (by rwa [runs, waiting]), runs, Function.update_self, retVal]
  · intro _ left
    left
    rw [← List.count_pos_iff, notifies, if_pos (by rwa [waiters'] at left)]
    omega
  · dsimp only
    rw [notifies, quiet]
    split_ifs <;> simp at *
  · intro d hd
    simp [quiet] at hd

omit [DecidableEq W] in
/-- When the dispatcher has taken `proc_exit_notify`. -/
theorem Inv.take (inv : Inv target s L tr)
    (delayed : .procExitNotify target ∈ s.env.delayed) :
    Inv target (procExitNotify s target) L (tr ++ [.other]) := by
  obtain ⟨tr', switching⟩ := inv.switching
  obtain ⟨stop, notifyRet⟩ := inv.task (.inl delayed)
  have waiting : L (.notifier target) = waiters tr := by simpa [home, stop] using inv.waiting
  have count := List.count_pos_iff.mpr delayed
  have single := inv.single
  have hist : history (tr ++ [.other]) = history tr := by simp [seen]
  have waiters' : waiters (tr ++ [.other]) = waiters tr := by rw [waiters, hist, waiters]
  constructor
  · exact ⟨tr', switching_delayed switching _⟩
  · exact hist.symm ▸ inv.served
  · exact hist.symm ▸ inv.fifo
  · exact waiters'.symm ▸ inv.waiting
  · exact inv.vacant
  · exact hist.symm ▸ inv.still
  · exact hist.symm ▸ inv.resumed
  · exact hist.symm ▸ inv.inside
  · exact hist.symm ▸ inv.timers
  · exact inv.armed
  · intro ret
    simpa [procExitNotify] using inv.stopped ret
  · exact fun _ => ⟨stop, notifyRet⟩
  · exact fun _ _ => .inr rfl
  · simp only [procExitNotify, List.count_erase_self, Option.isSome_some, ↓reduceIte]
    omega
  · rintro d ⟨⟩
    rw [waiters', ← waiting]
    exact switching.rings.next_head _

omit [DecidableEq W] in
/-- The loop of `proc_exit_notify` is at the waiter that has waited longest. -/
theorem Inv.at_head (inv : Inv target s L tr) {d : Drain C W} (drain : s.drain = some d)
    (it : d.next = .item co) : ∃ rest, waiters tr = co :: rest ∧
      s.env.links.next d.next = follow (.notifier target) rest := by
  obtain ⟨tr', switching⟩ := inv.switching
  have next := inv.drain d drain
  have stop := (inv.task (.inr (by simp [drain]))).1
  have waiting : L (.notifier target) = waiters tr := by simpa [home, stop] using inv.waiting
  cases hw : waiters tr with
  | nil => simp [hw, it, follow] at next
  | cons c rest =>
    obtain rfl : co = c := by simpa [hw, it, follow] using next
    refine ⟨rest, rfl, ?_⟩
    rw [it]
    exact switching.rings.next_first (waiting.trans hw)

theorem Inv.notify (inv : Inv target s L tr) (still : s.resumed = none) {d : Drain C W}
    (drain : s.drain = some d) (it : d.next = .item co) (live : s.env.state co ≠ .stop) :
    ∃ L', Inv target (notifyTurn s target d co) L' (tr ++ [.notified co (s.env.notifyRet target)]) := by
  obtain ⟨tr', switching⟩ := inv.switching
  obtain ⟨rest, hw, next⟩ := inv.at_head drain it
  have mem : co ∈ waiters tr := by simp [hw]
  have turn : notifyTurn s target d co = { s with
      env := resume s.env co (.num (s.env.notifyRet target))
      resumed := some co
      drain := some ⟨d.runner, follow (.notifier target) rest⟩ } := by
    rw [notifyTurn, if_neg live, resume_unlinked switching.rings, next]
  rw [turn]
  refine inv.unlink still mem rfl (by simp) (inv.served.woken (inv.still still) co _ mem) ?_
    (fun _ => rfl) rfl (fun _ _ => rfl) id (by simp [drain]) ?_
  · rintro c v ⟨⟩
    simp [hw]
  · rintro d ⟨⟩
    simp [hw]

omit [DecidableEq W] in
theorem Inv.drained (inv : Inv target s L tr) {d : Drain C W} (drain : s.drain = some d)
    (it : d.next = .head (.notifier target)) :
    Inv target { s with drain := none } L (tr ++ [.other]) := by
  have empty : waiters tr = [] := by
    have next := inv.drain d drain
    cases hw : waiters tr with
    | nil => rfl
    | cons c rest => simp [hw, it, follow] at next
  have single := inv.single
  have hist : history (tr ++ [.other]) = history tr := by simp [seen]
  have waiters' : waiters (tr ++ [.other]) = waiters tr := by rw [waiters, hist, waiters]
  constructor
  · exact inv.switching
  · exact hist.symm ▸ inv.served
  · exact hist.symm ▸ inv.fifo
  · exact waiters'.symm ▸ inv.waiting
  · exact inv.vacant
  · exact hist.symm ▸ inv.still
  · exact hist.symm ▸ inv.resumed
  · exact hist.symm ▸ inv.inside
  · exact hist.symm ▸ inv.timers
  · exact inv.armed
  · intro ret
    simpa using inv.stopped ret
  · exact fun task => inv.task (task.imp_right (by simp))
  · exact fun _ left => absurd (waiters'.trans empty) left
  · simp only [Option.isSome_none, Bool.false_eq_true, ↓reduceIte]
    omega
  · simp

theorem Inv.expire (inv : Inv target s L tr) (still : s.resumed = none) (undrained : s.drain = none)
    (armed : s.armed co = true) :
    (co, true) ∈ queued (history tr) ∧
      ∃ L', Inv target (waitTimeoutHandle s co) L' (tr ++ [.expired co]) := by
  obtain ⟨tr', switching⟩ := inv.switching
  have inside := inv.armed co armed
  have waits : co ∈ waiters tr := by
    rcases (inv.inside co).mp (by simp [inside]) with mem | ⟨ret, leaves⟩
    · exact mem
    · simp [inv.still still] at leaves
  have timed : (co, true) ∈ queued (history tr) := by
    obtain ⟨⟨c, timed⟩, mem, rfl⟩ := List.mem_map.mp waits
    obtain rfl : true = timed := by simpa [inside] using (inv.timers c timed mem).1
    exact mem
  refine ⟨timed, ?_⟩
  rw [waitTimeoutHandle, resume_unlinked switching.rings]
  refine inv.unlink still waits rfl (by simp) (inv.served.expired (inv.still still) co _ timed)
    (by simp) (fun _ => rfl) rfl (fun c hc => by simp [hc]) (by simp) rfl ?_
  intro d hd
  simp [undrained] at hd

omit [DecidableEq W] in
/-- Whoever is inside no wait hangs on neither of the two queues. -/
theorem Inv.off (inv : Inv target s L tr) (out : s.inside co = none) :
    co ∉ L (.exitNotifyQueue target) ∧ co ∉ L (.notifier target) := by
  obtain ⟨tr', switching⟩ := inv.switching
  have waiting := inv.waiting
  have notIn : co ∉ waiters tr := fun mem => by
    simpa [out] using (inv.inside co).mpr (.inl mem)
  by_cases stop : s.env.state target = .stop
  · rw [home, if_pos stop] at waiting
    exact ⟨by simp [inv.vacant stop], waiting ▸ notIn⟩
  · rw [home, if_neg stop] at waiting
    exact ⟨waiting ▸ notIn, by simp [switching.notifier target stop]⟩

theorem quiet_resume (inv : Inv target s L tr)
    (idle : s.env.state co = .create ∨ s.env.state co = .suspend) (out : s.inside co = none)
    (val : Val C) : ∃ L', Quiet target s.env (resume s.env co val) L L' := by
  obtain ⟨tr', switching⟩ := inv.switching
  obtain ⟨off₁, off₂⟩ := inv.off out
  refine ⟨_, ⟨⟨_, switching.resume idle val⟩, ?_, ?_, resume_stop idle, rfl, rfl, rfl⟩⟩
  · rw [switching.resume_lists co (by simp), List.erase_of_not_mem off₁]
  · rw [switching.resume_lists co (by simp), List.erase_of_not_mem off₂]

theorem quiet_yield (inv : Inv target s L tr) {env : Env C W} {waitTo : Option (Head C W)}
    {val : Val C} (ne : s.env.currCo ≠ s.env.main) (list : ∀ k, waitTo = some k → k.IsWaitList)
    (elsewhere : waitTo ≠ some (.exitNotifyQueue target))
    (yields : yield s.env waitTo val = some env) : ∃ L', Quiet target s.env env L L' := by
  obtain ⟨tr', switching⟩ := inv.switching
  obtain ⟨last, rest, stack, started, split⟩ := switching.pending_of_ne ne
  rw [yield_eq switching.rings split] at yields
  obtain rfl := Option.some.inj yields
  refine ⟨_, ⟨⟨_, switching.yieldTo stack split started list val⟩, ?_, ?_,
    yieldTo_stop switching stack, rfl, rfl, rfl⟩⟩
  · rw [switching.yield_lists stack (by simp), if_neg elsewhere]
  · rw [switching.yield_lists stack (by simp), if_neg fun h => list (.notifier target) h]

theorem quiet_ret (inv : Inv target s L tr) {env : Env C W} {ret : ℤ}
    (ne : s.env.currCo ≠ s.env.main) (another : s.env.currCo ≠ target)
    (ends : coMainHelper2 s.env ret = some env) : ∃ L', Quiet target s.env env L L' := by
  obtain ⟨tr', switching⟩ := inv.switching
  obtain ⟨last, rest, stack, started, split⟩ := switching.pending_of_ne ne
  have idle : L (.notifier s.env.currCo) = [] :=
    switching.notifier _ (by simp [switching.cur_running])
  obtain ⟨env', ends', ended, rings⟩ :=
    coMainHelper2_ended switching.rings split (switching.free started) idle ret
  obtain rfl : env' = env := Option.some.inj (ends'.symm.trans ends)
  have running := switching.running last
  refine ⟨_, ⟨⟨_, switching.ended stack split ended rings⟩, ?_, ?_, ?_, ?_, ?_, ?_⟩⟩
  · rw [switching.ended_lists stack (by simp), handedOver]
    split_ifs <;> simp [another.symm]
  · rw [switching.ended_lists stack (by simp), handedOver]
    split_ifs <;> simp [another.symm]
  · by_cases hlast : target = last
    · simp [ended.state, hlast, running.mpr (by simp [stack])]
    · simp [ended.state, hlast, another.symm]
  · simp [ended.retVal, another.symm]
  · rw [ended.notifyRet]
    split_ifs <;> simp [another.symm]
  · simp [ended.notifies, another.symm]

theorem Inv.step (inv : Inv target s L tr) {ev : Event C} (step : Step target s ev s') :
    ∃ L', Inv target s' L' (tr ++ [ev]) := by
  cases step with
  | passed free stopped =>
    have quiet : Quiet target s.env s.env L L :=
      ⟨inv.switching, rfl, rfl, Iff.rfl, rfl, rfl, rfl⟩
    exact ⟨L, inv.quiet free.1 quiet rfl (by simp)⟩
  | enter _ free ms ne live enters => exact inv.enter free.1 ms ne live enters
  | leave co ret leaves val => exact ⟨L, inv.leave leaves val⟩
  | expire co still undrained armed => exact (inv.expire still undrained armed).2
  | take free delayed => exact ⟨L, inv.take delayed⟩
  | skip d co still drain runs it stopped =>
    obtain ⟨rest, hw, -⟩ := inv.at_head drain it
    have suspended : s.env.state co = .suspend := inv.suspended (by simp [hw])
    simp [stopped] at suspended
  | notify d co still drain runs it live => exact inv.notify still drain it live
  | drained d still drain runs it => exact ⟨L, inv.drained drain it⟩
  | resume free co val idle out =>
    obtain ⟨L', quiet⟩ := quiet_resume inv idle out val
    exact ⟨L', inv.quiet free.1 quiet rfl (by simp)⟩
  | yield free env waitTo val ne list elsewhere yields =>
    obtain ⟨L', quiet⟩ := quiet_yield inv ne list elsewhere yields
    exact ⟨L', inv.quiet free.1 quiet rfl (by simp)⟩
  | stop free env ret ne runs ends => exact inv.stop free.1 ne runs ends
  | ret free env ret ne another ends =>
    obtain ⟨L', quiet⟩ := quiet_ret inv ne another ends
    exact ⟨L', inv.quiet free.1 quiet rfl (by simp)⟩
  | task free t ne =>
    obtain ⟨tr', switching⟩ := inv.switching
    have quiet : Quiet target s.env { s.env with delayed := s.env.delayed.erase t } L L :=
      ⟨⟨tr', switching_delayed switching _⟩, rfl, rfl, Iff.rfl, rfl, rfl,
        List.count_erase_of_ne ne.symm⟩
    exact ⟨L, inv.quiet free.1 quiet rfl (by simp)⟩

end Steps

section Runs

variable [DecidableEq W] {main target : C} {isEndDelete : C → Bool} {s : Sys C W}
  {tr tr₁ tr₂ : List (Event C)} {ev : Event C} {co : C}

theorem inv_init (main target : C) (isEndDelete : C → Bool) :
    Inv target (Sys.init main isEndDelete : Sys C W)
      (Function.update (fun _ => []) .runQueue [main]) [] := by
  have live : (Sys.init main isEndDelete : Sys C W).env.state target ≠ .stop := by
    by_cases h : target = main <;> simp [Sys.init, Env.init, h]
  constructor
  · exact ⟨[], CoroutineRun.inv_init main isEndDelete⟩
  · exact .nil
  · intro tr₁ c v tr₂ split
    simp [history] at split
  · simp [home, live, waiters, history, queued]
  · exact fun stop => absurd stop live
  · simp [history, leaving]
  · simp [Sys.init]
  · simp [Sys.init, Waits, history, queued, leaving]
  · simp [history, queued]
  · simp [Sys.init]
  · simp [live]
  · simp [Sys.init, Env.init]
  · exact fun stop => absurd stop live
  · simp [Sys.init, Env.init]
  · simp [Sys.init]

theorem Run.inv (run : Run main target isEndDelete tr s) : ∃ L, Inv target s L tr := by
  apply run.invariant fun tr s => ∃ L, Inv target s L tr
  · exact ⟨_, inv_init main target isEndDelete⟩
  · rintro tr s ev s' ⟨L, inv⟩ step
    exact inv.step step

theorem Run.cause (run : Run main target isEndDelete tr s) (resumed : s.resumed = some co) :
    ∃ tr₀, (tr = tr₀ ++ [.expired co] ∧ s.env.val = .num (-1) ∧
        (co, true) ∈ queued (history tr₀)) ∨
      ∃ ret, tr = tr₀ ++ [.notified co ret] ∧ s.env.val = .num ret ∧ .stopped ret ∈ tr₀ := by
  cases run with
  | init => simp [Sys.init] at resumed
  | @step tr s₀ _ ev run step =>
    obtain ⟨L, inv⟩ := Run.inv run
    refine ⟨tr, ?_⟩
    cases step with
    | passed free => simp [free.1] at resumed
    | enter _ free ms ne live enters =>
      obtain ⟨env, -, rfl⟩ := Option.map_eq_some_iff.mp enters
      simp [free.1] at resumed
    | leave => simp [waitLeave] at resumed
    | expire c still undrained armed =>
      obtain rfl : c = co := by simpa [waitTimeoutHandle] using resumed
      have timed := (inv.expire still undrained armed).1
      have suspended := inv.suspended (List.mem_map.mpr ⟨_, timed, rfl⟩)
      exact .inl ⟨rfl, by simp [waitTimeoutHandle, resume, suspended], timed⟩
    | take free => simp [procExitNotify, free.1] at resumed
    | skip d c still drain runs it stopped => simp [notifyTurn, stopped, still] at resumed
    | notify d c still drain runs it live =>
      obtain rfl : c = co := by simpa [notifyTurn, live] using resumed
      obtain ⟨rest, hw, -⟩ := inv.at_head drain it
      have suspended : s₀.env.state c = .suspend := inv.suspended (by simp [hw])
      obtain ⟨stop, same⟩ := inv.task (.inr (by simp [drain]))
      refine .inr ⟨_, rfl, by simp [notifyTurn, resume, suspended], ?_⟩
      exact (inv.stopped _).mpr ⟨stop, same.symm⟩
    | drained d still => simp [still] at resumed
    | resume free => simp [free.1] at resumed
    | yield free => simp [free.1] at resumed
    | stop free => simp [free.1] at resumed
    | ret free => simp [free.1] at resumed
    | task free => simp [free.1] at resumed

/-- Any order of waits, of the end of `target`, of the timers and of the task that notifies. -/
theorem run_joined (run : Run main target isEndDelete tr s) : Joined target s tr := by
  obtain ⟨L, inv⟩ := run.inv
  obtain ⟨tr', switching⟩ := inv.switching
  constructor
  · intro co
    rcases inv.served.balance co with ⟨h, e⟩ | ⟨h, e⟩
    · rw [e, if_pos ((inv.inside co).mpr h)]
    · rw [e, if_neg fun h' => h ((inv.inside co).mp h')]
      rfl
  · rintro tr₁ co ret tr₂ rfl
    obtain ⟨s₁, s₂, run₁, step⟩ := run.split
    cases step with
    | leave _ _ leaves val =>
      obtain ⟨tr₀, ⟨hist, hval, timed⟩ | ⟨v, hist, hval, stopped⟩⟩ := Run.cause run₁ leaves
      · exact ⟨tr₀, .inl ⟨by simpa [val] using hval, hist, timed⟩⟩
      · obtain rfl : ret = v := by simpa [val] using hval
        exact ⟨tr₀, .inr ⟨hist, stopped⟩⟩
  · rintro tr₁ co ret tr₂ rfl
    obtain ⟨s₁, s₂, run₁, step⟩ := run.split
    obtain ⟨L₁, inv₁⟩ := Run.inv run₁
    cases step with
    | passed free stopped => exact (inv₁.stopped _).mpr ⟨stopped, rfl⟩
  · exact fun ret => (inv.stopped ret).mp
  · rintro k co hk linked
    have mem := switching.rings.linked_iff.mp linked
    constructor
    · by_contra out
      have off := inv.off (Option.not_isSome_iff_eq_none.mp out)
      rcases hk with rfl | rfl
      · exact off.1 mem
      · exact off.2 mem
    · intro resumed
      have suspended := (switching.waiting k co mem (by rcases hk with rfl | rfl <;> simp)).1
      rw [← (inv.resumed co resumed).1, switching.cur_running] at suspended
      simp at suspended
  · exact ⟨_, inv.served.order inv.fifo⟩
  · exact fun co mem => (inv.timers co true mem).2
  · intro co resumed
    obtain ⟨runs, ret, val, -⟩ := inv.resumed co resumed
    exact ⟨runs, ret, val⟩
  · intro stop gone undrained still co
    rw [← Option.not_isSome_iff_eq_none, inv.inside]
    rintro (mem | ⟨v, leaves⟩)
    · rcases inv.held stop (List.ne_nil_of_mem mem) with h | h
      · exact gone h
      · simp [undrained] at h
    · simp [inv.still still] at leaves
  · intro d drain
    refine ⟨inv.drain d drain, fun co mem => ?_⟩
    simp [inv.suspended mem]

/-- Coroutine 1 waits for coroutine 2 with a timeout, and is notified of its end. -/
theorem run_joined_notified : ∃ s : Sys ℕ Unit,
    Run 0 2 (fun _ => false) [.other, .entered 1 true, .other, .stopped 7, .other, .notified 1 7,
      .returned 1 7] s ∧
    Joined 2 s [.other, .entered 1 true, .other, .stopped 7, .other, .notified 1 7,
      .returned 1 7] := by
  have start : Run 0 2 (fun _ => false) [] (Sys.init 0 fun _ => false : Sys ℕ Unit) := .init
  have first := start.step (.resume _ ⟨rfl, by simp [Sys.init]⟩ 1 (.num 0) (.inl rfl) rfl)
  have entered := first.step (.enter _ _ ⟨rfl, by simp [Sys.init]⟩ (some 5) (by decide) (by decide) rfl)
  have stopped := (entered.step (.resume _ ⟨rfl, by simp [Sys.init]⟩ 2 (.num 0) (.inl rfl) rfl)).step
    (.stop _ ⟨rfl, by simp [Sys.init]⟩ _ 7 (by decide) rfl rfl)
  have taken := stopped.step (.take _ ⟨rfl, by simp [Sys.init]⟩ (by decide))
  have notified := taken.step (.notify _ _ 1 rfl rfl rfl rfl (by decide))
  have returned := notified.step (.leave _ 1 7 rfl rfl)
  exact ⟨_, returned, run_joined returned⟩

end Runs

end Conet.Core.Join
