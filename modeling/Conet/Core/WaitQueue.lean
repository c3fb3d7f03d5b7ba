/- Module: Conet/Core/WaitQueue
   source: core/src/wait_queue.cpp, core/wait_queue.h
   digest: The wait queue of coroutines and its wake-up loops over the live list. -/

import Conet.Base.ListHead
import Mathlib.Data.List.Basic

set_option autoImplicit false
set_option relaxedAutoImplicit false

namespace Conet.Core.WaitQueue

open Conet.Lib Conet.Base.ListHead

universe u

/-- The list nodes of one queue. A suspended coroutine is inside one `wait_on`, so its `WaitItem`
is named by the coroutine. -/
inductive Node (C : Type u)
  | queue
  | item (co : C)
  deriving DecidableEq

/-- `WaitQueue`, the live `WaitItem`s on the coroutines' stacks, and the results of the `wait_on`
calls that have returned so far. -/
structure Queue (C : Type u) where
  links : Links (Node C)
  waitNum : Int
  /-- the `ms` of the `wait_on` the coroutine is in -/
  ms : C → Int
  /-- `WaitItem::tm` is linked in the timer wheel -/
  armed : C → Bool
  expiredFlag : C → Bool
  returned : List (C × Int)

/-- What a coroutine does when it is resumed, given the coroutines resumed before it: finish
(`none`), or call `wait_on(ms)` on the same queue again before it yields back. -/
abbrev Behaviour (C : Type u) := List C → C → Option Int

variable {C : Type u}

/-- The coroutines that have been resumed, in order. -/
def Queue.resumed (q : Queue C) : List C := q.returned.map Prod.fst

variable [DecidableEq C]

/-- `WaitQueue::wait_on` up to its `yield`. -/
def waitOnEnter (q : Queue C) (co : C) (ms : Int) : Queue C where
  links := listAddTail (initListHead q.links (.item co)) (.item co) .queue
  waitNum := q.waitNum + 1
  ms := Function.update q.ms co ms
  armed := Function.update q.armed co (decide (0 ≤ ms))
  expiredFlag := Function.update q.expiredFlag co false
  returned := q.returned

/-- `WaitQueue::wait_on` from its `yield` on. -/
def waitOnLeave (q : Queue C) (co : C) : Queue C :=
  { q with
    waitNum := q.waitNum - 1
    armed := if 0 ≤ q.ms co then Function.update q.armed co false else q.armed
    returned := q.returned ++ [(co, if q.expiredFlag co then -1 else 0)] }

/-- `conet::resume(co)`: control comes back when the coroutine finishes or yields again. -/
def resume (act : Behaviour C) (q : Queue C) (co : C) : Queue C :=
  match act q.resumed co with
  | none => waitOnLeave q co
  | some ms => waitOnEnter (waitOnLeave q co) co ms

/-- The steps shared by all wake-ups: `list_del_init(&it->link)`, then `resume(it->co)`. -/
def wakeOne (act : Behaviour C) (q : Queue C) (co : C) : Queue C :=
  resume act { q with links := listDelInit q.links (.item co) } co

/-- The queue and the counter `n` of a wake-up loop. -/
structure Wake (C : Type u) where
  q : Queue C
  n : Int

/-- The loop body shared by the wake-up functions; `stop` is their `if (n >= num) break`. -/
def wakeupBody (act : Behaviour C) (stop : Int → Bool) (it : Node C) (w : Wake C) :
    Turn (Wake C) (Wake C) :=
  match it with
  | .queue => .undefined
  | .item co =>
    if stop (w.n + 1) then .leave ⟨wakeOne act w.q co, w.n + 1⟩
    else .again ⟨wakeOne act w.q co, w.n + 1⟩

def nextOf (w : Wake C) : Node C → Node C := w.q.links.next

def prevOf (w : Wake C) : Node C → Node C := w.q.links.prev

def wakeupAll (act : Behaviour C) :
    SafeCursor (Node C) (Wake C) → Turn (SafeCursor (Node C) (Wake C)) (Wake C) :=
  forEachSafe nextOf .queue (wakeupBody act fun _ => false)

def wakeupHeadN (act : Behaviour C) (num : Int) :
    SafeCursor (Node C) (Wake C) → Turn (SafeCursor (Node C) (Wake C)) (Wake C) :=
  forEachSafe nextOf .queue (wakeupBody act fun n => decide (num ≤ n))

def wakeupTailN (act : Behaviour C) (num : Int) :
    SafeCursor (Node C) (Wake C) → Turn (SafeCursor (Node C) (Wake C)) (Wake C) :=
  forEachSafe prevOf .queue (wakeupBody act fun n => decide (num ≤ n))

/-- The forward loops begin at the oldest waiter. -/
def startHead (q : Queue C) : SafeCursor (Node C) (Wake C) := forEachStart nextOf .queue ⟨q, 0⟩

/-- The reverse loop begins at the newest waiter. -/
def startTail (q : Queue C) : SafeCursor (Node C) (Wake C) := forEachStart prevOf .queue ⟨q, 0⟩

/-- `WaitQueue::WaitQueue`. -/
def Queue.init : Queue C where
  links := ⟨id, id⟩
  waitNum := 0
  ms := fun _ => 0
  armed := fun _ => false
  expiredFlag := fun _ => false
  returned := []

/-- The coroutines `xs` wait, oldest first, and none has been resumed yet. -/
structure Waiting (q : Queue C) (xs : List C) : Prop where
  circ : Circular q.links .queue (xs.map .item)
  fresh : q.returned = []

/-- The loop returns, having resumed exactly `expected`, in that order, and returns their number. -/
def Wakes (loop : SafeCursor (Node C) (Wake C) → Turn (SafeCursor (Node C) (Wake C)) (Wake C))
    (start : SafeCursor (Node C) (Wake C)) (expected : List C) : Prop :=
  ∃ w, Loop.Returns loop start w ∧ w.q.resumed = expected ∧ w.n = expected.length

/-- Every coroutine of `xs` but the last finishes when it is resumed after those before it. -/
def AllButLastFinish (act : Behaviour C) (log xs : List C) : Prop :=
  ∀ pre x post, xs = pre ++ x :: post → post ≠ [] → act (log ++ pre) x = none

/-- The coroutine itself when it waits again, nothing when it finishes. -/
def rewait (act : Behaviour C) (log : List C) (co : C) : List C :=
  if (act log co).isSome then [co] else []

section Resume

variable {act : Behaviour C} {co : C} {l xs ys : List C}

theorem wakeOne_resumed (act : Behaviour C) (q : Queue C) (co : C) :
    (wakeOne act q co).resumed = q.resumed ++ [co] := by
  unfold wakeOne resume
  split <;> simp [Queue.resumed, waitOnLeave, waitOnEnter]

theorem resume_circular {q : Queue C} (circ : Circular q.links .queue (l.map .item))
    (alone : Circular q.links (.item co) []) (hco : co ∉ l) :
    Circular (resume act q co).links .queue ((l ++ rewait act q.resumed co).map .item) := by
  unfold resume rewait
  cases act q.resumed co with
  | none => simpa [waitOnLeave] using circ
  | some ms =>
    have fresh : Node.item co ∉ Node.queue :: l.map .item := by simpa using hco
    simpa [waitOnEnter, waitOnLeave, initListHead_of_nil alone] using
      listAddTail_circular circ fresh

theorem wakeOne_circular (act : Behaviour C) {q : Queue C}
    (circ : Circular q.links .queue ((xs ++ co :: ys).map .item)) :
    Circular (wakeOne act q co).links .queue
      ((xs ++ ys ++ rewait act q.resumed co).map .item) := by
  have nodup : (xs ++ co :: ys).Nodup := circ.nodup_tail.of_map
  have hco : co ∉ xs ++ ys :=
    (List.nodup_cons.mp (List.perm_middle.nodup_iff.mp nodup)).1
  have rest : Circular (listDelInit q.links (.item co)) .queue ((xs ++ ys).map .item) := by
    simp only [List.map_append, List.map_cons] at circ ⊢
    exact listDelInit_circular circ
  exact resume_circular (q := { q with links := listDelInit q.links (.item co) }) rest
    (listDelInit_self _ _) hco

end Resume

section Forward

/-- A forward loop is about to test `pos`: it stands on the first waiter of the list `l`, with
the second one saved in `n`, or it has come back to the head. -/
def AtFront (c : SafeCursor (Node C) (Wake C)) (l log : List C) : Prop :=
  c.st.q.resumed = log ∧ c.st.n = log.length ∧
    match l with
    | [] => c.pos = .queue
    | x :: l => Circular c.st.q.links .queue ((x :: l).map .item) ∧ c.pos = .item x ∧
        c.n = (l.map Node.item ++ [Node.queue]).head (by simp)

variable {act : Behaviour C} {stop : Int → Bool} {x : C} {l log xs : List C}
  {c : SafeCursor (Node C) (Wake C)}

omit [DecidableEq C] in
theorem atFront_start {q : Queue C} (waiting : Waiting q xs) : AtFront (startHead q) xs [] := by
  refine ⟨by simp [startHead, forEachStart, Queue.resumed, waiting.fresh], rfl, ?_⟩
  cases xs with
  | nil => exact waiting.circ.next_head
  | cons x xs =>
    have first : q.links.next .queue = .item x := waiting.circ.next_head
    refine ⟨waiting.circ, first, ?_⟩
    simpa [startHead, forEachStart, nextOf, first] using waiting.circ.next_of_cons

/-- One turn resumes the first waiter. What it appends to the queue is walked later unless the
saved cursor was already the head. -/
theorem front_turn (act : Behaviour C) (stop : Int → Bool) (front : AtFront c (x :: l) log) :
    (stop (log.length + 1) = true ∧ ∃ w,
        forEachSafe nextOf .queue (wakeupBody act stop) c = .leave w ∧
        w.q.resumed = log ++ [x] ∧ w.n = log.length + 1) ∨
      (stop (log.length + 1) = false ∧ ∃ c',
        forEachSafe nextOf .queue (wakeupBody act stop) c = .again c' ∧
        AtFront c' (if l = [] then [] else l ++ rewait act log x) (log ++ [x])) := by
  obtain ⟨hlog, hn, circ, hpos, hnext⟩ := front
  set q' := wakeOne act c.st.q x with hq'
  have resumed : q'.resumed = log ++ [x] := by rw [hq', wakeOne_resumed, hlog]
  have circ' : Circular q'.links .queue ((l ++ rewait act log x).map .item) := by
    have circ0 : Circular c.st.q.links .queue (([] ++ x :: l).map .item) := circ
    simpa [hq', hlog] using wakeOne_circular act circ0
  have turn : forEachSafe nextOf .queue (wakeupBody act stop) c =
      if stop (log.length + 1) then .leave ⟨q', log.length + 1⟩
      else .again ⟨c.n, q'.links.next c.n, ⟨q', log.length + 1⟩⟩ := by
    unfold forEachSafe
    rw [hpos, if_neg (by simp)]
    simp only [wakeupBody, hn, ← hq']
    cases stop (log.length + 1) <;> rfl
  rw [turn]
  cases hstop : stop (log.length + 1) with
  | true => exact Or.inl ⟨rfl, _, rfl, resumed, rfl⟩
  | false =>
    refine Or.inr ⟨rfl, _, rfl, resumed, by simp, ?_⟩
    cases l with
    | nil => simpa using hnext
    | cons y l =>
      simp only [List.cons_append, reduceCtorEq, ↓reduceIte]
      refine ⟨circ', by simpa using hnext, ?_⟩
      simpa [hnext] using circ'.next_of_cons

theorem front_done (front : AtFront c [] log) :
    forEachSafe nextOf .queue (wakeupBody act stop) c = .leave c.st := by
  simp [forEachSafe, front.2.2]

/-- However the coroutines behave, a forward loop that returns has resumed at least as many
coroutines as there were in front of it, unless it was told to stop. -/
theorem front_returns_length {w : Wake C} (front : AtFront c l log)
    (ret : Loop.Returns (forEachSafe nextOf .queue (wakeupBody act stop)) c w) :
    w.n = w.q.resumed.length ∧ (log.length + l.length ≤ w.q.resumed.length ∨ stop w.n = true) := by
  obtain ⟨fuel, ret⟩ := ret
  induction fuel generalizing c l log with
  | zero => simp [Loop.run] at ret
  | succ fuel ih =>
    cases l with
    | nil =>
      obtain rfl : c.st = w := by simpa [Loop.run, front_done front] using ret
      refine ⟨by rw [front.2.1, front.1], Or.inl ?_⟩
      simp [front.1]
    | cons x l =>
      rcases front_turn act stop front with
        ⟨hstop, w', turn, hw, hn⟩ | ⟨-, c', turn, front'⟩
      · obtain rfl : w' = w := by simpa [Loop.run, turn] using ret
        exact ⟨by simp [hw, hn], Or.inr (hn ▸ hstop)⟩
      · obtain ⟨hn, hlen | hstop⟩ := ih front' (by simpa [Loop.run, turn] using ret)
        · refine ⟨hn, Or.inl ?_⟩
          have grown : l.length ≤
              (if l = [] then [] else l ++ rewait act log x).length := by
            split_ifs with hl <;> simp [*]
          simp only [List.length_append, List.length_cons, List.length_nil] at hlen ⊢
          omega
        · exact ⟨hn, Or.inr hstop⟩

/-- Told to stop after `num` coroutines, and with at least that many in front of it. -/
theorem front_takes (act : Behaviour C) (num : Int) (k : Nat) (front : AtFront c l log)
    (hk : k + 1 ≤ l.length) (hnum : num = log.length + (k + 1 : Nat)) :
    ∃ w, Loop.Returns (wakeupHeadN act num) c w ∧ w.q.resumed = log ++ l.take (k + 1) ∧
      w.n = num := by
  induction k generalizing c l log with
  | zero =>
    obtain ⟨x, l, rfl⟩ := List.exists_cons_of_length_pos hk
    rcases front_turn act (fun n => decide (num ≤ n)) front with
      ⟨-, w, turn, hw, hn⟩ | ⟨hstop, -⟩
    · exact ⟨w, .of_leave turn, by simpa using hw, by simp [hn, hnum]⟩
    · simp [hnum] at hstop
  | succ k ih =>
    obtain ⟨x, l, rfl⟩ := List.exists_cons_of_length_pos (Nat.zero_lt_of_lt hk)
    simp only [List.length_cons] at hk
    have hl : l ≠ [] := by rintro rfl; simp at hk
    rcases front_turn act (fun n => decide (num ≤ n)) front with
      ⟨hstop, -⟩ | ⟨-, c', turn, front'⟩
    · simp only [decide_eq_true_eq] at hstop
      omega
    · rw [if_neg hl] at front'
      obtain ⟨w, ret, hw, hn⟩ := ih front' (by simp; omega) (by simp [hnum]; omega)
      refine ⟨w, (Loop.returns_again turn).mpr ret, ?_, hn⟩
      rw [hw, List.take_append_of_le_length (by omega)]
      simp

/-- Never told to stop, and nobody but the last waits again. -/
theorem front_completes (act : Behaviour C) (stop : Int → Bool) (front : AtFront c l log) (finish : AllButLastFinish act log l)
    (hstop : ∀ n : Nat, n ≤ log.length + l.length → stop n = false) :
    ∃ w, Loop.Returns (forEachSafe nextOf .queue (wakeupBody act stop)) c w ∧
      w.q.resumed = log ++ l ∧ w.n = (log ++ l).length := by
  induction l generalizing c log with
  | nil => exact ⟨c.st, .of_leave (front_done front), by simp [front.1], by simp [front.2.1]⟩
  | cons x l ih =>
    rcases front_turn act stop front with ⟨hs, -⟩ | ⟨-, c', turn, front'⟩
    · have := hstop (log.length + 1) (by simp)
      simp [hs] at this
    · have kept : (if l = [] then [] else l ++ rewait act log x) = l := by
        split_ifs with hl
        · exact hl.symm
        · have : act log x = none := by simpa using finish [] x l rfl hl
          simp [rewait, this]
      rw [kept] at front'
      obtain ⟨w, ret, hw, hn⟩ := ih front'
        (fun pre y post he hp => by simpa using finish (x :: pre) y post (by simp [he]) hp)
        (fun n hle => hstop n (by simp at hle ⊢; omega))
      exact ⟨w, (Loop.returns_again turn).mpr ret, by simp [hw], by simp [hn]⟩

/-- A forward loop that returned having resumed just what was queued met no re-waiter early. -/
theorem front_finish_of_returns {w : Wake C} (front : AtFront c l log)
    (ret : Loop.Returns (forEachSafe nextOf .queue (wakeupBody act stop)) c w)
    (hw : w.q.resumed.length = log.length + l.length)
    (hstop : ∀ n : Nat, n ≤ log.length + l.length → stop n = false) :
    AllButLastFinish act log l := by
  induction l generalizing c log with
  | nil => intro pre x post he; simp at he
  | cons x l ih =>
    rcases front_turn act stop front with ⟨hs, -⟩ | ⟨-, c', turn, front'⟩
    · have := hstop (log.length + 1) (by simp)
      simp [hs] at this
    have ret' := (Loop.returns_again turn).mp ret
    by_cases hl : l = []
    · intro pre y post he hp
      subst hl
      have := congrArg List.length he
      have : 0 < post.length := List.length_pos_iff.mpr hp
      simp at *
      omega
    · rw [if_neg hl] at front'
      obtain ⟨hn, hlen | hs⟩ := front_returns_length front' ret'
      · have none_again : act log x = none := by
          by_contra hne
          have : (rewait act log x).length = 1 := by
            simp [rewait, Option.isSome_iff_ne_none.mpr hne]
          simp only [List.length_append, List.length_cons, List.length_nil] at hlen hw
          omega
        have kept : l ++ rewait act log x = l := by simp [rewait, none_again]
        rw [kept] at front'
        have rest := ih front' ret' (by simp at hw ⊢; omega)
          (fun n hle => hstop n (by simp at hle ⊢; omega))
        intro pre y post he hp
        cases pre with
        | nil =>
          obtain ⟨rfl, rfl⟩ : x = y ∧ l = post := by simpa using he
          simpa using none_again
        | cons z pre =>
          obtain ⟨rfl, tail⟩ : x = z ∧ l = pre ++ y :: post := by simpa using he
          simpa using rest pre y post tail hp
      · have := hstop w.q.resumed.length (by omega)
        simp [hn, this] at hs

end Forward

section Backward

/-- The reverse loop is about to test `pos`: it stands on the newest of the waiters `r` it has
not seen yet (newest first), and those that waited again hang behind it. -/
def AtBack (c : SafeCursor (Node C) (Wake C)) (r again log : List C) : Prop :=
  c.st.q.resumed = log ∧ c.st.n = log.length ∧
    match r with
    | [] => c.pos = .queue
    | x :: r => Circular c.st.q.links .queue ((r.reverse ++ x :: again).map .item) ∧
        c.pos = .item x ∧ c.n = (r.map Node.item ++ [Node.queue]).head (by simp)

variable {act : Behaviour C} {x : C} {r again log xs : List C}
  {c : SafeCursor (Node C) (Wake C)}

omit [DecidableEq C] in
theorem prev_of_reverse {h : Links (Node C)}
    (circ : Circular h .queue ((r.reverse ++ x :: again).map .item)) :
    h.prev (.item x) = (r.map Node.item ++ [Node.queue]).head (by simp) := by
  simp only [List.map_append, List.map_cons] at circ
  rw [circ.prev_of_split]
  cases r <;> simp

omit [DecidableEq C] in
theorem atBack_start {q : Queue C} (waiting : Waiting q xs) :
    AtBack (startTail q) xs.reverse [] [] := by
  refine ⟨by simp [startTail, forEachStart, Queue.resumed, waiting.fresh], rfl, ?_⟩
  cases hr : xs.reverse with
  | nil =>
    obtain rfl : xs = [] := by simpa using hr
    simpa [startTail, forEachStart, prevOf] using waiting.circ.prev_last
  | cons x r =>
    obtain rfl : xs = r.reverse ++ [x] := by simpa using congrArg List.reverse hr
    have last : q.links.prev .queue = .item x := by simpa using waiting.circ.prev_last
    refine ⟨waiting.circ, last, ?_⟩
    simpa [startTail, forEachStart, prevOf, last] using prev_of_reverse waiting.circ

theorem back_turn (act : Behaviour C) (num : Int) (back : AtBack c (x :: r) again log) :
    (num ≤ log.length + 1 ∧ ∃ w, wakeupTailN act num c = .leave w ∧
        w.q.resumed = log ++ [x] ∧ w.n = log.length + 1) ∨
      (log.length + 1 < num ∧ ∃ c', wakeupTailN act num c = .again c' ∧
        AtBack c' r (again ++ rewait act log x) (log ++ [x])) := by
  obtain ⟨hlog, hn, circ, hpos, hnext⟩ := back
  set q' := wakeOne act c.st.q x with hq'
  have resumed : q'.resumed = log ++ [x] := by rw [hq', wakeOne_resumed, hlog]
  have circ' : Circular q'.links .queue
      ((r.reverse ++ again ++ rewait act log x).map .item) := by
    simpa [hq', hlog] using wakeOne_circular act circ
  have turn : wakeupTailN act num c =
      if num ≤ log.length + 1 then .leave ⟨q', log.length + 1⟩
      else .again ⟨c.n, q'.links.prev c.n, ⟨q', log.length + 1⟩⟩ := by
    unfold wakeupTailN forEachSafe
    rw [hpos, if_neg (by simp)]
    simp only [wakeupBody, hn, ← hq', decide_eq_true_eq]
    by_cases hle : num ≤ log.length + 1 <;> simp [hle, prevOf]
  rw [turn]
  by_cases hle : num ≤ log.length + 1
  · rw [if_pos hle]
    exact Or.inl ⟨hle, _, rfl, resumed, rfl⟩
  · rw [if_neg hle]
    refine Or.inr ⟨by omega, _, rfl, resumed, by simp, ?_⟩
    cases r with
    | nil => simpa using hnext
    | cons y r =>
      have circ'' : Circular q'.links .queue
          ((r.reverse ++ y :: (again ++ rewait act log x)).map .item) := by
        simpa using circ'
      refine ⟨circ'', by simpa using hnext, ?_⟩
      simpa [hnext] using prev_of_reverse circ''

theorem back_done {num : Int} (back : AtBack c [] again log) :
    wakeupTailN act num c = .leave c.st := by
  simp [wakeupTailN, forEachSafe, back.2.2]

/-- The reverse loop never meets those that wait again: they hang behind its cursor. -/
theorem back_takes {num : Int} {k : Nat} (back : AtBack c r again log)
    (hnum : num = log.length + (k + 1 : Nat)) :
    ∃ w, Loop.Returns (wakeupTailN act num) c w ∧ w.q.resumed = log ++ r.take (k + 1) ∧
      w.n = (log ++ r.take (k + 1)).length := by
  induction r generalizing c log again k with
  | nil => exact ⟨c.st, .of_leave (back_done back), by simp [back.1], by simp [back.2.1]⟩
  | cons x r ih =>
    rcases back_turn act num back with ⟨hle, w, turn, hw, hn⟩ | ⟨hlt, c', turn, back'⟩
    · obtain rfl : k = 0 := by omega
      exact ⟨w, .of_leave turn, by simpa using hw, by simp [hn]⟩
    · obtain ⟨k, rfl⟩ : ∃ j, k = j + 1 := ⟨k - 1, by omega⟩
      obtain ⟨w, ret, hw, hn⟩ := ih (k := k) back' (by simp [hnum]; omega)
      exact ⟨w, (Loop.returns_again turn).mpr ret, by simp [hw], by simp [hn]⟩

end Backward

section Exact

variable {q : Queue C} {xs : List C} (act : Behaviour C) (num : Int)

theorem wakeupAll_exact_iff (waiting : Waiting q xs) :
    Wakes (wakeupAll act) (startHead q) xs ↔ AllButLastFinish act [] xs := by
  have front := atFront_start waiting
  constructor
  · rintro ⟨w, ret, hw, -⟩
    exact front_finish_of_returns front ret (by simp [hw]) (fun _ _ => rfl)
  · intro finish
    obtain ⟨w, ret, hw, hn⟩ := front_completes act (fun _ => false) front finish (fun _ _ => rfl)
    exact ⟨w, ret, by simpa using hw, by simpa using hn⟩

theorem wakeupHeadN_exact_iff (waiting : Waiting q xs) :
    Wakes (wakeupHeadN act num) (startHead q) (xs.take num.toNat) ↔
      xs = [] ∨ 1 ≤ num ∧ (num ≤ xs.length ∨ AllButLastFinish act [] xs) := by
  have front := atFront_start waiting
  have below : num > xs.length → ∀ n : Nat, n ≤ ([] : List C).length + xs.length →
      decide (num ≤ (n : Int)) = false := by
    intro hlt n hn
    simp only [List.length_nil, decide_eq_false_iff_not] at hn ⊢
    omega
  constructor
  · rintro ⟨w, ret, hw, -⟩
    cases xs with
    | nil => exact Or.inl rfl
    | cons x xs =>
      have positive : 1 ≤ num := by
        by_contra hnum
        rcases front_turn act (fun n => decide (num ≤ n)) front with
          ⟨-, w', turn, hw', -⟩ | ⟨hstop, -⟩
        · obtain rfl := (Loop.returns_leave turn).mp ret
          have : num.toNat = 0 := by omega
          simp [hw, this] at hw'
        · simp only [List.length_nil, decide_eq_false_iff_not] at hstop
          omega
      refine Or.inr ⟨positive, ?_⟩
      by_cases hlt : num ≤ (x :: xs).length
      · exact Or.inl hlt
      · refine Or.inr (front_finish_of_returns front ret ?_ (below (by omega)))
        rw [hw, List.take_of_length_le (by omega)]
        simp
  · rintro (rfl | ⟨positive, cases⟩)
    · exact ⟨_, .of_leave (front_done front), by simp [front.1], by simp [front.2.1]⟩
    by_cases hle : num ≤ xs.length
    · obtain ⟨k, hk⟩ : ∃ k : Nat, num = k + 1 := ⟨(num - 1).toNat, by omega⟩
      obtain ⟨w, ret, hw, hn⟩ := front_takes act num k front (by omega) (by simp [hk])
      have toNat : num.toNat = k + 1 := by omega
      refine ⟨w, ret, by simp [hw, toNat], ?_⟩
      rw [hn, toNat, List.length_take, Nat.min_eq_left (by omega)]
      exact hk
    · obtain ⟨w, ret, hw, hn⟩ := front_completes act (fun n => decide (num ≤ n)) front
        (cases.resolve_left hle) (below (by omega))
      have all : xs.take num.toNat = xs := List.take_of_length_le (by omega)
      exact ⟨w, ret, by simpa [all] using hw, by simpa [all] using hn⟩

theorem wakeupTailN_exact_iff (waiting : Waiting q xs) :
    Wakes (wakeupTailN act num) (startTail q) (xs.reverse.take num.toNat) ↔
      xs = [] ∨ 1 ≤ num := by
  have back := atBack_start waiting
  constructor
  · rintro ⟨w, ret, hw, -⟩
    by_contra hnot
    obtain ⟨hne, hnum⟩ := not_or.mp hnot
    obtain ⟨x, r, hr⟩ := List.exists_cons_of_ne_nil (mt List.reverse_eq_nil_iff.mp hne)
    rw [hr] at back
    rcases back_turn act num back with ⟨-, w', turn, hw', -⟩ | ⟨hlt, -⟩
    · obtain rfl := (Loop.returns_leave turn).mp ret
      have : num.toNat = 0 := by omega
      simp [hw, this] at hw'
    · simp only [List.length_nil] at hlt
      omega
  · intro h
    by_cases hnum : 1 ≤ num
    · obtain ⟨k, hk⟩ : ∃ k : Nat, num = k + 1 := ⟨(num - 1).toNat, by omega⟩
      have toNat : num.toNat = k + 1 := by omega
      rw [toNat]
      exact back_takes back (by simp [hk])
    · obtain rfl : xs = [] := h.resolve_right hnum
      exact ⟨_, .of_leave (back_done back), by simp [back.1], by simp [back.2.1]⟩

/-- The wake-up functions resume exactly those queued at the call when nobody they can still walk
into waits again, and when the bound they test only after the first wake-up is positive. -/
theorem wakeup_exact_iff (q : Queue C) (xs : List C) (waiting : Waiting q xs)
    (act : Behaviour C) (num : Int) :
    (Wakes (wakeupAll act) (startHead q) xs ↔ AllButLastFinish act [] xs) ∧
    (Wakes (wakeupHeadN act num) (startHead q) (xs.take num.toNat) ↔
      xs = [] ∨ 1 ≤ num ∧ (num ≤ xs.length ∨ AllButLastFinish act [] xs)) ∧
    (Wakes (wakeupTailN act num) (startTail q) (xs.reverse.take num.toNat) ↔
      xs = [] ∨ 1 ≤ num) :=
  ⟨wakeupAll_exact_iff act waiting, wakeupHeadN_exact_iff act num waiting,
    wakeupTailN_exact_iff act num waiting⟩

end Exact

section Sample

/-- Coroutines 0 and 1 wait without a timeout, 0 first. -/
def twoWaiting : Queue Nat := waitOnEnter (waitOnEnter Queue.init 0 (-1)) 1 (-1)

theorem twoWaiting_waiting : Waiting twoWaiting [0, 1] :=
  ⟨⟨by simp only [Lib.Path, List.map]; decide, by decide⟩, rfl⟩

/-- Coroutine 0 loops on `wait_on` once, as `TcpChannel::send_proc` does while its request queue
is empty; every other resume ends the coroutine. -/
def zeroWaitsAgain : Behaviour Nat := fun log co => if log = [] ∧ co = 0 then some (-1) else none

theorem wakeup_exact_two_finish :
    Waiting twoWaiting [0, 1] ∧
    (Wakes (wakeupAll zeroWaitsAgain) (startHead twoWaiting) [0, 1] ↔
      AllButLastFinish zeroWaitsAgain [] [0, 1]) :=
  ⟨twoWaiting_waiting, (wakeup_exact_iff twoWaiting [0, 1] twoWaiting_waiting zeroWaitsAgain 1).1⟩

/-- Coroutine 0 waits again while 1 is still to be woken, and `wakeup_all` resumes it twice. -/
theorem wakeup_all_resumes_twice :
    ¬ Wakes (wakeupAll zeroWaitsAgain) (startHead twoWaiting) [0, 1] := by
  rintro ⟨w, ret, hw, -⟩
  have run : ∃ w', Loop.Returns (wakeupAll zeroWaitsAgain) (startHead twoWaiting) w' ∧
      w'.q.resumed = [0, 1, 0] := ⟨_, ⟨4, rfl⟩, by decide⟩
  obtain ⟨w', ret', hw'⟩ := run
  rw [ret.unique ret', hw'] at hw
  exact absurd hw (by decide)

end Sample

end Conet.Core.WaitQueue
