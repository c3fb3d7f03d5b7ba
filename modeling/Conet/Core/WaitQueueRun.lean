/- Module: Conet/Core/WaitQueueRun
   source: core/src/wait_queue.cpp
   digest: Waits, single wake-ups and timer expiries on one wait queue, in any order. -/

import Conet.Core.WaitQueue
import Conet.Lib.Trace
import Conet.Lib.Waiting

set_option autoImplicit false
set_option relaxedAutoImplicit false

namespace Conet.Core.WaitQueueRun

open Conet.Lib Conet.Lib.Waiting Conet.Base.ListHead Conet.Core.WaitQueue

universe u

variable {C : Type u}

/-- The queue, the coroutines that are inside `wait_on`, and the one among them that has been
resumed: control is with it, and it returns from `wait_on` before anything else happens. -/
structure Sys (C : Type u) where
  q : Queue C
  inside : C → Bool
  resumed : Option C

inductive Event (C : Type u)
  | entered (co : C) (ms : ℤ)
  | wakeupHead (woken : Option C) (ret : ℤ)
  | wakeupTail (woken : Option C) (ret : ℤ)
  | expired (co : C)
  | returned (co : C) (ret : ℤ)

section Calls

variable [DecidableEq C]

/-- `WaitQueue::wakeup_head` up to its `resume`: the coroutine resumed, and the result. -/
def wakeupHead (q : Queue C) : Option C × ℤ × Queue C :=
  if listEmpty q.links .queue then (none, 0, q)
  else match q.links.next .queue with
    | .item co => (some co, 1, { q with links := listDelInit q.links (.item co) })
    | .queue => (none, 0, q)

/-- `WaitQueue::wakeup_tail` up to its `resume`. -/
def wakeupTail (q : Queue C) : Option C × ℤ × Queue C :=
  if listEmpty q.links .queue then (none, 0, q)
  else match q.links.prev .queue with
    | .item co => (some co, 1, { q with links := listDelInit q.links (.item co) })
    | .queue => (none, 0, q)

/-- The wheel unlinks the handle of `co` and calls `wait_queue_item_timeout`. -/
def waitQueueItemTimeout (q : Queue C) (co : C) : Queue C :=
  { q with
    armed := Function.update q.armed co false
    expiredFlag := Function.update q.expiredFlag co true
    links := listDelInit q.links (.item co) }

/-- One step. A coroutine is inside one `wait_on` at a time, and the wheel fires only handles that
are armed. -/
inductive Step : Sys C → Event C → Sys C → Prop
  | waitOn (s : Sys C) (co : C) (ms : ℤ) (still : s.resumed = none) (out : s.inside co = false) :
      Step s (.entered co ms)
        { q := waitOnEnter s.q co ms, inside := Function.update s.inside co true, resumed := none }
  | wakeupHead (s : Sys C) (still : s.resumed = none) :
      Step s (.wakeupHead (wakeupHead s.q).1 (wakeupHead s.q).2.1)
        { s with q := (wakeupHead s.q).2.2, resumed := (wakeupHead s.q).1 }
  | wakeupTail (s : Sys C) (still : s.resumed = none) :
      Step s (.wakeupTail (wakeupTail s.q).1 (wakeupTail s.q).2.1)
        { s with q := (wakeupTail s.q).2.2, resumed := (wakeupTail s.q).1 }
  | expire (s : Sys C) (co : C) (still : s.resumed = none) (armed : s.q.armed co = true) :
      Step s (.expired co) { s with q := waitQueueItemTimeout s.q co, resumed := some co }
  | leave (s : Sys C) (co : C) (leaves : s.resumed = some co) :
      Step s (.returned co (if s.q.expiredFlag co then -1 else 0))
        { q := waitOnLeave s.q co, inside := Function.update s.inside co false, resumed := none }

def Sys.init : Sys C where
  q := Queue.init
  inside := fun _ => false
  resumed := none

def Run : List (Event C) → Sys C → Prop := Trace Sys.init Step

end Calls

def seen : Event C → List (Obs C)
  | .entered co ms => [.entered co (decide (0 ≤ ms))]
  | .wakeupHead woken _ => woken.toList.map fun co => .woken co 0
  | .wakeupTail woken _ => woken.toList.map fun co => .woken co 0
  | .expired co => [.expired co (-1)]
  | .returned co ret => [.returned co ret]

def history (tr : List (Event C)) : List (Obs C) := tr.flatMap seen

variable [DecidableEq C]

/-- The coroutines that called `wait_on` and have not been unlinked since, oldest first. -/
def waiters (tr : List (Event C)) : List C := (queued (history tr)).map Prod.fst

/-- What a wait queue owes its callers. -/
structure Fair (s : Sys C) (tr : List (Event C)) : Prop where
  /-- a call has returned once, or it is still queued or just being resumed -/
  once : ∀ co, calls co (history tr) = returns co (history tr) +
    if co ∈ waiters tr ∨ s.resumed = some co then 1 else 0
  /-- it returns -1 when its timer fired, and 0 when it was woken -/
  value : ∀ tr₁ co ret tr₂, tr = tr₁ ++ .returned co ret :: tr₂ → ∃ tr₀,
    (ret = -1 ∧ tr₁ = tr₀ ++ [.expired co]) ∨
    (ret = 0 ∧ (tr₁ = tr₀ ++ [.wakeupHead (some co) 1] ∨ tr₁ = tr₀ ++ [.wakeupTail (some co) 1]))
  expired : ∀ tr₁ co tr₂, tr = tr₁ ++ .expired co :: tr₂ → co ∈ waiters tr₁
  head : ∀ tr₁ woken ret tr₂, tr = tr₁ ++ .wakeupHead woken ret :: tr₂ →
    woken = (waiters tr₁).head? ∧ ret = if waiters tr₁ = [] then 0 else 1
  tail : ∀ tr₁ woken ret tr₂, tr = tr₁ ++ .wakeupTail woken ret :: tr₂ →
    woken = (waiters tr₁).getLast? ∧ ret = if waiters tr₁ = [] then 0 else 1
  queue : Circular s.q.links .queue ((waiters tr).map .item)
  waitNum : s.resumed = none → s.q.waitNum = (waiters tr).length

/-- The queue at any moment, against its history. -/
structure Inv (s : Sys C) (tr : List (Event C)) : Prop where
  served : Served (history tr)
  circ : Circular s.q.links .queue ((waiters tr).map .item)
  alone : ∀ co, co ∉ waiters tr → Circular s.q.links (.item co) []
  resumed : leaving (history tr) =
    s.resumed.map fun co => (co, if s.q.expiredFlag co then -1 else 0)
  waitNum : s.q.waitNum = (waiters tr).length + if s.resumed.isSome then 1 else 0
  armed : ∀ co, s.q.armed co = true →
    0 ≤ s.q.ms co ∧ ((co, true) ∈ queued (history tr) ∨ s.resumed = some co)
  fresh : ∀ co, co ∈ waiters tr → s.q.expiredFlag co = false
  inside : ∀ co, s.inside co = true ↔ Waits co (history tr)

section Steps

variable {s s' : Sys C} {tr : List (Event C)} {co : C}

omit [DecidableEq C] in
@[simp] theorem history_snoc (ev : Event C) : history (tr ++ [ev]) = history tr ++ seen ev := by
  simp [history]

theorem inv_init : Inv (Sys.init : Sys C) [] where
  served := .nil
  circ := Circular.nil_iff.mpr ⟨rfl, rfl⟩
  alone := fun _ _ => Circular.nil_iff.mpr ⟨rfl, rfl⟩
  resumed := rfl
  waitNum := rfl
  armed := by simp [Sys.init, Queue.init]
  fresh := by simp [waiters, history, queued]
  inside := by simp [Sys.init, Waits, history, queued, Waiting.leaving]

theorem Inv.still (inv : Inv s tr) (still : s.resumed = none) : leaving (history tr) = none := by
  rw [inv.resumed, still]
  rfl

theorem Inv.nodup (inv : Inv s tr) : (waiters tr).Nodup := inv.served.nodup

theorem Inv.waitOn (inv : Inv s tr) (still : s.resumed = none) (out : s.inside co = false)
    (ms : ℤ) :
    Inv { q := waitOnEnter s.q co ms, inside := Function.update s.inside co true, resumed := none }
      (tr ++ [.entered co ms]) := by
  have idle : ¬ Waits co (history tr) := fun h => by simp [(inv.inside co).mpr h] at out
  have fresh : co ∉ waiters tr := fun h => idle (.inl h)
  have alone := inv.alone co fresh
  have waiters' : waiters (tr ++ [.entered co ms]) = waiters tr ++ [co] := by
    simp [waiters, seen, stepQueue]
  have links : (waitOnEnter s.q co ms).links = listAddTail s.q.links (.item co) .queue := by
    simp [waitOnEnter, initListHead_of_nil alone]
  constructor
  · rw [history_snoc]
    exact inv.served.entered (inv.still still) co _ fresh
  · rw [waiters', links]
    simpa using listAddTail_circular inv.circ (n := .item co) (by simpa using fresh)
  · intro c hc
    rw [waiters', List.mem_append, List.mem_singleton, not_or] at hc
    rw [links]
    exact listAddTail_frame inv.circ (inv.alone c hc.1) (by simpa using hc.1)
      (by simpa using Ne.symm hc.2)
  · simp [seen, stepLeaving]
  · have num := inv.waitNum
    simp only [still, Option.isSome_none, Bool.false_eq_true, ↓reduceIte, Int.add_zero] at num
    simp [waiters', waitOnEnter, num]
  · intro c hc
    by_cases hco : c = co
    · subst hco
      have timed : 0 ≤ ms := by simpa [waitOnEnter] using hc
      simp [waitOnEnter, seen, stepQueue, timed]
    · have old := inv.armed c (by simpa [waitOnEnter, hco] using hc)
      simp only [still, reduceCtorEq, or_false] at old
      simp [waitOnEnter, hco, seen, stepQueue, old]
  · intro c hc
    by_cases hco : c = co
    · simp [waitOnEnter, hco]
    · rw [waiters', List.mem_append, List.mem_singleton, or_iff_left hco] at hc
      simpa [waitOnEnter, hco] using inv.fresh c hc
  · intro c
    rw [history_snoc, show seen (.entered co ms) = [.entered co (decide (0 ≤ ms))] from rfl,
      waits_entered (inv.still still), ← inv.inside]
    by_cases hco : c = co <;> simp [hco]

/-- A waiter is unlinked and resumed, by a waker or by its timer. -/
theorem Inv.unlink (inv : Inv s tr) (still : s.resumed = none) (mem : co ∈ waiters tr)
    {ev : Event C} {o : Obs C} {v : ℤ} (hseen : seen ev = [o]) (served : Served (history tr ++ [o]))
    (queue : ∀ q, stepQueue q o = q.filter fun x => x.1 ≠ co)
    (leaves : stepLeaving o = some (co, v)) {q : Queue C}
    (links : q.links = listDelInit s.q.links (.item co)) (num : q.waitNum = s.q.waitNum)
    (ms : q.ms = s.q.ms) (armed : ∀ c, q.armed c = true → s.q.armed c = true)
    (flag : ∀ c, c ≠ co → q.expiredFlag c = s.q.expiredFlag c)
    (value : v = if q.expiredFlag co then -1 else 0) :
    Inv { s with q := q, resumed := some co } (tr ++ [ev]) := by
  obtain ⟨pre, post, split⟩ := List.append_of_mem mem
  have waiters' : waiters (tr ++ [ev]) = (waiters tr).filter fun c => c ≠ co := by
    simp only [waiters, history_snoc, hseen, queued_snoc, queue, keys_filter]
  have nodup : (pre ++ co :: post).Nodup := split ▸ inv.nodup
  have hco : co ∉ pre ++ post :=
    (List.nodup_cons.mp (List.perm_middle.nodup_iff.mp nodup)).1
  have rest : waiters (tr ++ [ev]) = pre ++ post := by
    have keep : ∀ l : List C, co ∉ l → l.filter (fun c => c ≠ co) = l := fun l hl =>
      List.filter_eq_self.mpr fun c hc => by simpa using fun e : c = co => hl (e ▸ hc)
    rw [List.mem_append, not_or] at hco
    rw [waiters', split, List.filter_append, keep pre hco.1,
      List.filter_cons_of_neg (by simp), keep post hco.2]
  have circ : Circular s.q.links .queue (pre.map .item ++ .item co :: post.map .item) := by
    simpa [split] using inv.circ
  constructor
  · rw [history_snoc, hseen]
    exact served
  · rw [rest, links]
    simpa using listDelInit_circular circ
  · intro c hc
    rw [links]
    by_cases hne : c = co
    · exact hne ▸ listDelInit_self _ _
    · have old : c ∉ waiters tr := by
        rw [rest] at hc
        simpa [split, hne] using hc
      exact listDelInit_frame inv.circ (by simpa using mem) (inv.alone c old) (by simpa using old)
  · simp [hseen, leaves, value]
  · have length : (waiters tr).length = (pre ++ post).length + 1 := by
      simp [split]
      omega
    have old := inv.waitNum
    simp only [still, Option.isSome_none, Bool.false_eq_true, ↓reduceIte, Int.add_zero] at old
    simp only [rest, num, old, length, Option.isSome_some, ↓reduceIte]
    push_cast
    rfl
  · intro c hc
    obtain ⟨pos, old⟩ := inv.armed c (armed c hc)
    refine ⟨ms ▸ pos, ?_⟩
    by_cases hne : c = co
    · simp [hne]
    · simp only [still, reduceCtorEq, or_false] at old
      left
      simp [hseen, queue, old, hne]
  · intro c hc
    rw [waiters', List.mem_filter] at hc
    have hne : c ≠ co := by simpa using hc.2
    rw [flag c hne]
    exact inv.fresh c hc.1
  · intro c
    rw [history_snoc, hseen, waits_resumed (inv.still still) mem queue leaves]
    exact inv.inside c

theorem Inv.leave (inv : Inv s tr) (leaves : s.resumed = some co) :
    Inv { q := waitOnLeave s.q co, inside := Function.update s.inside co false, resumed := none }
      (tr ++ [.returned co (if s.q.expiredFlag co then -1 else 0)]) := by
  have leaving : leaving (history tr) = some (co, if s.q.expiredFlag co then -1 else 0) := by
    rw [inv.resumed, leaves]
    rfl
  have off : co ∉ waiters tr := inv.served.not_queued leaving
  have waiters' : waiters (tr ++ [.returned co (if s.q.expiredFlag co then -1 else 0)]) =
      waiters tr := by
    simp [waiters, seen, stepQueue]
  constructor
  · rw [history_snoc]
    exact inv.served.returned leaving
  · rw [waiters']
    exact inv.circ
  · rw [waiters']
    exact inv.alone
  · simp [seen, stepLeaving]
  · have num := inv.waitNum
    simp only [leaves, Option.isSome_some, ↓reduceIte] at num
    simp [waiters', waitOnLeave, num]
  · intro c hc
    have old : s.q.armed c = true ∧ c ≠ co := by
      by_cases hne : c = co
      · subst hne
        simp only [waitOnLeave] at hc
        split_ifs at hc with timed
        · simp at hc
        · exact absurd (inv.armed c hc).1 timed
      · simp only [waitOnLeave] at hc
        split_ifs at hc with timed
        · exact ⟨by simpa [hne] using hc, hne⟩
        · exact ⟨hc, hne⟩
    obtain ⟨pos, still⟩ := inv.armed c old.1
    have queuedStill := still.resolve_right fun e => old.2 (Option.some.inj (leaves.symm.trans e)).symm
    exact ⟨pos, .inl (by simpa [seen, stepQueue] using queuedStill)⟩
  · rw [waiters']
    exact inv.fresh
  · intro c
    rw [history_snoc, show ∀ v, seen (.returned co v) = [.returned co v] from fun _ => rfl,
      waits_returned inv.served leaving, ← inv.inside]
    by_cases hco : c = co <;> simp [hco]

theorem Inv.wakeupHead_eq (inv : Inv s tr) :
    ((waiters tr).head? = none → wakeupHead s.q = (none, 0, s.q)) ∧
    ∀ co, (waiters tr).head? = some co →
      wakeupHead s.q = (some co, 1, { s.q with links := listDelInit s.q.links (.item co) }) := by
  have empty := listEmpty_iff inv.circ
  have next := inv.circ.next_head
  unfold wakeupHead
  cases hw : waiters tr with
  | nil => simp [empty, hw]
  | cons x xs =>
    simp only [hw, List.map_cons, List.cons_append, List.head_cons] at next
    simp [empty, hw, next]

theorem Inv.wakeupTail_eq (inv : Inv s tr) :
    ((waiters tr).getLast? = none → wakeupTail s.q = (none, 0, s.q)) ∧
    ∀ co, (waiters tr).getLast? = some co →
      wakeupTail s.q = (some co, 1, { s.q with links := listDelInit s.q.links (.item co) }) := by
  have empty := listEmpty_iff inv.circ
  have prev := inv.circ.prev_last
  unfold wakeupTail
  rcases List.eq_nil_or_concat' (waiters tr) with hw | ⟨xs, x, hw⟩
  · simp [empty, hw]
  · simp only [hw, List.map_append, List.map_cons, List.map_nil] at prev
    rw [List.getLast_cons (by simp), List.getLast_append_singleton] at prev
    simp [empty, hw, prev]

theorem Inv.woken (inv : Inv s tr) (still : s.resumed = none) (mem : co ∈ waiters tr)
    {ev : Event C} (hseen : seen ev = [.woken co 0]) :
    Inv { s with q := { s.q with links := listDelInit s.q.links (.item co) }, resumed := some co }
      (tr ++ [ev]) :=
  inv.unlink still mem hseen (inv.served.woken (inv.still still) co 0 mem) (fun _ => rfl) rfl rfl
    rfl rfl (fun _ h => h) (fun _ _ => rfl) (by simp [inv.fresh co mem])

theorem Inv.step (inv : Inv s tr) {ev : Event C} (step : Step s ev s') : Inv s' (tr ++ [ev]) := by
  -- a wake-up of an empty queue changes nothing
  have idle : ∀ {ev : Event C}, seen ev = [] → s.resumed = none →
      Inv { s with resumed := none } (tr ++ [ev]) := by
    intro ev hseen still
    have same : history (tr ++ [ev]) = history tr := by simp [hseen]
    have same' : waiters (tr ++ [ev]) = waiters tr := by rw [waiters, same, waiters]
    obtain ⟨q, inside, resumed⟩ := s
    obtain rfl : resumed = none := still
    exact ⟨same.symm ▸ inv.served, same'.symm ▸ inv.circ, same'.symm ▸ inv.alone,
      same.symm ▸ inv.resumed, same'.symm ▸ inv.waitNum, same.symm ▸ inv.armed,
      same'.symm ▸ inv.fresh, same.symm ▸ inv.inside⟩
  cases step with
  | waitOn co ms still out => exact inv.waitOn still out ms
  | wakeupHead still =>
    obtain ⟨none, some⟩ := inv.wakeupHead_eq
    cases first : (waiters tr).head? with
    | none =>
      rw [none first]
      exact idle rfl still
    | some co =>
      rw [some co first]
      exact inv.woken still (List.mem_of_mem_head? first) rfl
  | wakeupTail still =>
    obtain ⟨none, some⟩ := inv.wakeupTail_eq
    cases last : (waiters tr).getLast? with
    | none =>
      rw [none last]
      exact idle rfl still
    | some co =>
      rw [some co last]
      exact inv.woken still (List.mem_of_getLast? last) rfl
  | expire co still armed =>
    have queued := (inv.armed co armed).2.resolve_right (by simp [still])
    refine inv.unlink still (List.mem_map.mpr ⟨_, queued, rfl⟩) rfl
      (inv.served.expired (inv.still still) co (-1) queued) (fun _ => rfl) rfl rfl rfl rfl ?_ ?_ ?_
    · intro c hc
      by_cases hne : c = co <;> simp_all [waitQueueItemTimeout]
    · intro c hne
      simp [waitQueueItemTimeout, hne]
    · simp [waitQueueItemTimeout]
  | leave co leaves => exact inv.leave leaves

end Steps

section Runs

variable {s : Sys C} {tr tr₁ tr₂ : List (Event C)} {ev : Event C} {co : C}

theorem Run.inv (run : Run tr s) : Inv s tr :=
  run.invariant (fun tr s => Inv s tr) inv_init fun inv step => inv.step step

theorem Run.cause (run : Run tr s) (resumed : s.resumed = some co) : ∃ tr₀,
    (s.q.expiredFlag co = true ∧ tr = tr₀ ++ [.expired co]) ∨
    (s.q.expiredFlag co = false ∧
      (tr = tr₀ ++ [.wakeupHead (some co) 1] ∨ tr = tr₀ ++ [.wakeupTail (some co) 1])) := by
  cases run with
  | init => simp [Sys.init] at resumed
  | @step tr s₀ _ ev run step =>
    have inv := Run.inv run
    refine ⟨tr, ?_⟩
    cases step with
    | waitOn => simp at resumed
    | wakeupHead still =>
      obtain ⟨none, some⟩ := inv.wakeupHead_eq
      cases first : (waiters tr).head? with
      | none => simp [none first] at resumed
      | some c =>
        rw [some c first] at resumed ⊢
        obtain rfl : c = co := by simpa using resumed
        exact .inr ⟨inv.fresh c (List.mem_of_mem_head? first), .inl rfl⟩
    | wakeupTail still =>
      obtain ⟨none, some⟩ := inv.wakeupTail_eq
      cases last : (waiters tr).getLast? with
      | none => simp [none last] at resumed
      | some c =>
        rw [some c last] at resumed ⊢
        obtain rfl : c = co := by simpa using resumed
        exact .inr ⟨inv.fresh c (List.mem_of_getLast? last), .inr rfl⟩
    | expire c still armed =>
      obtain rfl : c = co := by simpa using resumed
      exact .inl ⟨by simp [waitQueueItemTimeout], rfl⟩
    | leave => simp at resumed

end Runs

end Conet.Core.WaitQueueRun
