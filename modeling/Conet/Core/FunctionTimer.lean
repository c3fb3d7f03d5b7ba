/- Module: Conet/Core/FunctionTimer
   source: core/src/coroutine.cpp, core/src/timewheel.cpp
   digest: Functions that are run in a coroutine of their own when the wheel fires their handle. -/

import Conet.Core.TimerService
import Conet.Lib.Trace

set_option autoImplicit false
set_option relaxedAutoImplicit false

namespace Conet.Core.FunctionTimer

open Conet.Lib Conet.Core.TimerService

section Timers

/-- What `set_timeout_impl` arms; `t` is the deadline that it computes. -/
def setTimeoutImpl (timeout interval : ℤ) (t : ℕ) : Timer :=
  if timeout ≤ 0 ∧ interval = 0 then .now else .due t interval

/-- Where the coroutine of a `TimeoutHandle` is: before its start, in `fn`, in a `yield` of `fn`, in that
of `proc`, or at its end, where the handle has been deleted. -/
inductive Co
  | create
  | running
  | inFn
  | inProc
  | ended
  deriving DecidableEq

/-- `TimeoutHandle`; and what it was made for, what was armed, how often `fn` has been called and the
wheel has fired, and how often `fn` had been called when the id was first cancelled. -/
structure TimeoutHandle where
  mInter : ℤ
  exitFlag : Bool
  co : Co
  inter : Bool
  ms : ℤ
  armed : Timer
  calls : ℕ
  fired : ℕ
  cancelled : Option ℕ

namespace TimeoutHandle

variable (h : TimeoutHandle)

def move (co : Co) : TimeoutHandle := { h with co }

def call : TimeoutHandle :=
  { h with
    co := .running
    calls := h.calls + 1 }

def stop : TimeoutHandle :=
  { h with
    exitFlag := true
    cancelled := some (h.cancelled.getD h.calls) }

def fire : TimeoutHandle := { h with fired := h.fired + 1 }

end TimeoutHandle

/-- In the place of one that has not been made. -/
def blank : TimeoutHandle := ⟨0, true, .ended, false, 0, .now, 0, 0, some 0⟩

/-- That `do_now_task` is to read `interval` of a handle when it comes back from its function; what it
finds if the handle has been deleted, and the deadline it then arms. -/
structure Reading where
  id : ℕ
  interval : ℤ
  t : ℕ

/-- The handles by their id; those that have not been deleted are in the map. `m_id`; what the wheel
holds; and the timers' coroutines that are running, the current one first, each resumed by the next. -/
structure World where
  tm : ℕ → TimeoutHandle
  mId : ℕ
  wheel : Service ℕ
  stack : List ℕ
  reading : Option Reading

namespace World

variable (w : World) (id : ℕ)

def setHandle (h : TimeoutHandle) : World := { w with tm := Function.update w.tm id h }

/-- `TimeoutHandle::TimeoutHandle`, with the `add` of the manager. -/
def setTimer (inter : Bool) (ms : ℤ) (t : ℕ) : World :=
  let armed := setTimeoutImpl ms (if inter then ms else 0) t
  { w.setHandle (w.mId + 1) ⟨0, false, .create, inter, ms, armed, 0, 0, none⟩ with
    mId := w.mId + 1
    wheel := Function.update w.wheel (w.mId + 1) (some armed) }

def setTimeout (ms : ℤ) (t : ℕ) : World := w.setTimer false ms t

def setInterval (ms : ℤ) (t : ℕ) : World := w.setTimer true ms t

/-- The condition of the loop of `proc`, and what comes next. -/
def loop : World :=
  if (w.tm id).exitFlag then w.setHandle id ((w.tm id).move .ended)
  else { w.setHandle id (w.tm id).call with stack := id :: w.stack }

/-- `resume` of a timer's coroutine. The current one cannot be resumed: its context is not saved. -/
def resume : Option World :=
  match (w.tm id).co with
  | .create | .inProc => some (w.loop id)
  | .inFn => some { w.setHandle id ((w.tm id).move .running) with stack := id :: w.stack }
  | .running =>
    if w.stack.head? = some id then none else some { w with stack := id :: w.stack.erase id }
  | .ended => none

/-- The map throws if it does not have the id. -/
def cancelTimeout : Option World :=
  if (w.tm id).co = .ended then none else (w.setHandle id (w.tm id).stop).resume id

def cancelInterval : Option World := w.cancelTimeout id

/-- `do_now_task` goes on, if it is its turn. -/
def settle : World :=
  match w.stack, w.reading with
  | [], some r =>
    let interval := if (w.tm r.id).co = .ended then r.interval else 0
    { w with
      wheel :=
        if interval = 0 then w.wheel
        else Function.update w.wheel r.id (some (setTimeoutImpl interval interval r.t))
      reading := none }
  | _, _ => w

def timeoutCb : Option World := (w.setHandle id (w.tm id).fire).resume id

/-- The wheel fires a handle that is due, in `do_now_task` or in `check`, if no function is running. -/
def fire (t : ℕ) (garbage : ℤ) : Option World :=
  if w.stack ≠ [] then some w
  else
    match w.wheel id with
    | none => some w
    | some .now =>
      let w := { w with
        wheel := Function.update w.wheel id none
        reading := some ⟨id, garbage, t⟩ }
      (w.timeoutCb id).map settle
    | some (.due _ interval) =>
      let armed := if interval = 0 then none else some (setTimeoutImpl interval interval t)
      { w with wheel := Function.update w.wheel id armed }.timeoutCb id

/-- The current `fn` yields. -/
def yield : World :=
  match w.stack with
  | [] => w
  | cur :: rest => { w.setHandle cur ((w.tm cur).move .inFn) with stack := rest }.settle

/-- The current `fn` returns to `proc`. -/
def finish : World :=
  match w.stack with
  | [] => w
  | cur :: rest =>
    let co := if (w.tm cur).mInter = 0 then .ended else .inProc
    { w.setHandle cur ((w.tm cur).move co) with stack := rest }.settle

/-- What a `fn` waits for happens. -/
def wake : Option World := if (w.tm id).co = .inFn then w.resume id else some w

end World

def start : World := ⟨fun _ => blank, 0, fun _ => none, [], none⟩

inductive Event
  | setTimeout (ms : ℤ) (t : ℕ)
  | setInterval (ms : ℤ) (t : ℕ)
  | cancel (id : ℕ)
  | fire (id t : ℕ) (garbage : ℤ)
  | yield
  | finish
  | wake (id : ℕ)

def step (w : Option World) (event : Event) : Option World :=
  w.bind fun w =>
    match event with
    | .setTimeout ms t => some (w.setTimeout ms t)
    | .setInterval ms t => some (w.setInterval ms t)
    | .cancel id => w.cancelTimeout id
    | .fire id t garbage => w.fire id t garbage
    | .yield => some w.yield
    | .finish => some w.finish
    | .wake id => w.wake id

def run (events : List Event) : Option World := events.foldl step (some start)

end Timers

/-! What the timers are to do. -/

section Spec

/-- A one-shot function is called once, when the wheel fires the handle, which is armed until then; an
interval function every time, and the handle stays armed; neither is called after it was cancelled; and
the wheel does not hold the handle after it was deleted. -/
structure TimeoutHandle.Good (timer : Option Timer) (h : TimeoutHandle) : Prop where
  oneShot : h.inter = false → h.cancelled = none →
    h.calls = 0 ∧ timer = some h.armed ∨ h.calls = 1 ∧ timer = none
  interval : h.inter = true → h.cancelled = none →
    h.calls = h.fired ∧ ∃ t, timer = some (.due t h.ms)
  cancelled : ∀ calls, h.cancelled = some calls → h.calls = calls
  deleted : h.co = .ended → timer = none

/-- Nothing has been thrown, no coroutine has been resumed that cannot be, and see above. -/
def Good (w : Option World) : Prop := ∃ w', w = some w' ∧ ∀ id, (w'.tm id).Good (w'.wheel id)

/-- The interval that `do_now_task` is to read, if `fn` gives way to it, is 0; `gone` are the handles that
have been deleted by then. -/
def World.Clean (w : World) (gone : ℕ → Prop) : Prop :=
  ∀ r, w.reading = some r → gone r.id → r.interval = 0

def Event.Fair (w : World) : Event → Prop
  | setTimeout _ _ => True
  | setInterval ms _ => ms ≠ 0
  | cancel id => (w.tm id).co = .inFn ∨ (w.tm id).co = .running ∧ w.stack.head? ≠ some id
  | fire id _ _ =>
    w.stack = [] → w.wheel id ≠ none → (w.tm id).inter = true →
      (w.tm id).co = .create ∨ (w.tm id).cancelled ≠ none
  | yield => ∀ cur, w.stack = [cur] → w.Clean fun id => (w.tm id).co = .ended
  | finish =>
    ∀ cur rest, w.stack = cur :: rest →
      w.wheel cur = none ∧ (rest = [] → w.Clean fun id => (w.tm id).co = .ended ∨ id = cur)
  | wake _ => True

end Spec

section Invariant

variable {w w' : World} {h h' : TimeoutHandle} {id : ℕ}

structure TimeoutHandle.Inv (timer : Option Timer) (h : TimeoutHandle) : Prop where
  inter : h.mInter = 0
  create : h.co = .create → h.calls = 0 ∧ h.exitFlag = false ∧ h.cancelled = none
  begun : h.co = .running ∨ h.co = .inFn → 1 ≤ h.calls
  never : h.co ≠ .inProc
  once : h.inter = false → h.armed = .now ∨ ∃ t, h.armed = .due t 0
  period : h.inter = true → ∀ t, timer ≠ some (.due t 0)

structure World.Coherent (w : World) : Prop where
  fresh : ∀ id, w.mId < id → w.tm id = blank
  handles : ∀ id, (w.tm id).Inv (w.wheel id)
  running : ∀ id, id ∈ w.stack ↔ (w.tm id).co = .running
  nodup : w.stack.Nodup
  reading : ∀ r, w.reading = some r → r.id ≤ w.mId

structure World.Inv (w : World) : Prop extends w.Coherent where
  idle : w.stack = [] → w.reading = none

theorem blank_inv : blank.Inv none := by
  constructor <;> simp [blank]

theorem blank_good : blank.Good none := by
  constructor <;> simp [blank]

theorem start_inv : start.Inv :=
  ⟨⟨fun _ _ => rfl, fun _ => blank_inv, by simp [start, blank], List.nodup_nil, by simp [start]⟩,
    fun _ => rfl⟩

theorem setTimeoutImpl_due {interval : ℤ} (repeats : interval ≠ 0) (timeout : ℤ) (t : ℕ) :
    setTimeoutImpl timeout interval t = .due t interval :=
  if_neg fun both => repeats both.2

theorem World.Coherent.known (coherent : w.Coherent) (made : (w.tm id).co ≠ .ended) : id ≤ w.mId := by
  by_contra later
  rw [coherent.fresh id (by omega)] at made
  exact made rfl

/-- One handle is replaced, and what the wheel holds of it. -/
def World.put (w : World) (id : ℕ) (h : TimeoutHandle) (timer : Option Timer) (stack : List ℕ)
    (reading : Option Reading) : World :=
  ⟨Function.update w.tm id h, w.mId, Function.update w.wheel id timer, stack, reading⟩

theorem setHandle_eq (w : World) (id : ℕ) (h : TimeoutHandle) (stack : List ℕ) :
    { w.setHandle id h with stack } = w.put id h (w.wheel id) stack w.reading := by
  simp [World.setHandle, World.put]

theorem put_coherent (coherent : w.Coherent) (old : id ≤ w.mId) {timer : Option Timer} (here : h.Inv timer)
    {stack : List ℕ} (running : ∀ j, j ∈ stack ↔ if j = id then h.co = .running else j ∈ w.stack)
    (nodup : stack.Nodup) {reading : Option Reading} (reads : ∀ r, reading = some r → r.id ≤ w.mId) :
    (w.put id h timer stack reading).Coherent := by
  refine ⟨?_, ?_, ?_, nodup, reads⟩
  · intro j later
    change w.mId < j at later
    have other : j ≠ id := by omega
    exact (Function.update_of_ne other ..).trans (coherent.fresh j later)
  · intro j
    dsimp only [World.put]
    by_cases same : j = id
    · subst same
      rw [Function.update_self, Function.update_self]
      exact here
    · rw [Function.update_of_ne same, Function.update_of_ne same]
      exact coherent.handles j
  · intro j
    dsimp only [World.put]
    rw [running j]
    by_cases same : j = id
    · subst same
      rw [Function.update_self, if_pos rfl]
    · rw [Function.update_of_ne same, if_neg same]
      exact coherent.running j

/-- A coroutine that has been started, or has ended. -/
theorem TimeoutHandle.Inv.started {timer timer' : Option Timer} (inv : h.Inv timer)
    (kind : h'.mInter = h.mInter ∧ h'.inter = h.inter ∧ h'.armed = h.armed)
    (place : h'.co = .ended ∨ (h'.co = .running ∨ h'.co = .inFn) ∧ 1 ≤ h'.calls)
    (period : h.inter = true → ∀ t, timer' ≠ some (.due t 0)) : h'.Inv timer' := by
  obtain ⟨plain, inter, armed⟩ := kind
  refine ⟨plain.trans inv.inter, ?_, ?_, ?_, ?_, ?_⟩
  · intro created
    simp [created] at place
  · intro begun
    obtain gone | ⟨-, called⟩ := place
    · simp [gone] at begun
    · exact called
  · intro between
    simp [between] at place
  · rw [inter, armed]
    exact inv.once
  · rwa [inter]

theorem put_push (inv : w.Inv) (away : id ∉ w.stack) (old : id ≤ w.mId) {timer : Option Timer}
    (here : h.Inv timer) (runs : h.co = .running) {reading : Option Reading}
    (reads : ∀ r, reading = some r → r.id ≤ w.mId) :
    (w.put id h timer (id :: w.stack) reading).Inv := by
  refine ⟨put_coherent inv.toCoherent old here ?_ (List.nodup_cons.mpr ⟨away, inv.nodup⟩) reads, ?_⟩
  · intro j
    by_cases same : j = id
    · simp [same, runs]
    · simp [same]
  · simp [World.put]

theorem put_pop (inv : w.Inv) {rest : List ℕ} (stack : w.stack = id :: rest) {timer : Option Timer}
    (here : h.Inv timer) (gave : h.co ≠ .running) :
    (w.put id h timer rest w.reading).Coherent := by
  have nodup := inv.nodup
  rw [stack] at nodup
  obtain ⟨away, nodup⟩ := List.nodup_cons.mp nodup
  have runs : (w.tm id).co = .running := (inv.running id).mp (stack ▸ List.mem_cons_self)
  have old : id ≤ w.mId := inv.known (by rw [runs]; decide)
  refine put_coherent inv.toCoherent old here ?_ nodup inv.reading
  intro j
  by_cases same : j = id
  · subst same
    simp [away, gave]
  · simp [same, stack]

theorem put_good (good : ∀ j, (w.tm j).Good (w.wheel j)) (timer : Option Timer) (stack : List ℕ)
    (reading : Option Reading) :
    (∀ j, ((w.put id h timer stack reading).tm j).Good ((w.put id h timer stack reading).wheel j)) ↔
      h.Good timer := by
  constructor
  · intro all
    have here := all id
    dsimp only [World.put] at here
    rwa [Function.update_self, Function.update_self] at here
  · intro here j
    dsimp only [World.put]
    by_cases same : j = id
    · subst same
      rwa [Function.update_self, Function.update_self]
    · rw [Function.update_of_ne same, Function.update_of_ne same]
      exact good j

end Invariant

section Settle

variable {w : World}

theorem settle_busy (busy : w.stack ≠ [] ∨ w.reading = none) : w.settle = w := by
  unfold World.settle
  split
  · rename_i r free reads
    obtain running | none := busy
    · exact absurd free running
    · rw [reads] at none
      cases none
  · rfl

theorem settle_free {r : Reading} (free : w.stack = []) (reads : w.reading = some r) :
    w.settle =
      { w with
        wheel :=
          if (w.tm r.id).co = .ended ∧ r.interval ≠ 0 then
            Function.update w.wheel r.id (some (.due r.t r.interval))
          else w.wheel
        reading := none } := by
  unfold World.settle
  split
  · rename_i r' _ reads'
    rw [reads] at reads'
    obtain rfl := Option.some.inj reads'
    by_cases gone : (w.tm r.id).co = .ended
    · by_cases zero : r.interval = 0
      · simp [gone, zero]
      · simp [gone, zero, setTimeoutImpl_due zero]
    · simp [gone]
  · rename_i other
    exact absurd reads (other r free)

theorem settle_inv (coherent : w.Coherent) : w.settle.Inv := by
  by_cases busy : w.stack ≠ [] ∨ w.reading = none
  · rw [settle_busy busy]
    refine ⟨coherent, fun free => ?_⟩
    obtain running | none := busy
    · exact absurd free running
    · exact none
  · simp only [not_or, not_not] at busy
    obtain ⟨r, reads⟩ := Option.ne_none_iff_exists'.mp busy.2
    rw [settle_free busy.1 reads]
    refine ⟨⟨coherent.fresh, ?_, coherent.running, coherent.nodup, by simp⟩, fun _ => rfl⟩
    intro j
    dsimp only
    split
    · rename_i armed
      by_cases same : j = r.id
      · subst same
        rw [Function.update_self]
        have inv := coherent.handles r.id
        refine ⟨inv.inter, inv.create, inv.begun, inv.never, inv.once, ?_⟩
        intro _ t eq
        exact armed.2 (Timer.due.inj (Option.some.inj eq)).2
      · rw [Function.update_of_ne same]
        exact coherent.handles j
    · exact coherent.handles j

theorem settle_good_iff : (∀ j, (w.settle.tm j).Good (w.settle.wheel j)) ↔
    (∀ j, (w.tm j).Good (w.wheel j)) ∧ (w.stack = [] → w.Clean fun id => (w.tm id).co = .ended) := by
  by_cases busy : w.stack ≠ [] ∨ w.reading = none
  · rw [settle_busy busy]
    refine ⟨fun good => ⟨good, fun free r reads => ?_⟩, fun both => both.1⟩
    obtain running | none := busy
    · exact absurd free running
    · rw [none] at reads
      cases reads
  · simp only [not_or, not_not] at busy
    obtain ⟨r, reads⟩ := Option.ne_none_iff_exists'.mp busy.2
    rw [settle_free busy.1 reads]
    by_cases armed : (w.tm r.id).co = .ended ∧ r.interval ≠ 0
    · simp only [armed, ne_eq, not_false_eq_true, and_self, if_true]
      constructor
      · intro good
        have here := (good r.id).deleted armed.1
        rw [Function.update_self] at here
        cases here
      · intro ⟨_, clean⟩
        exact absurd (clean busy.1 r reads armed.1) armed.2
    · simp only [armed, if_false]
      refine ⟨fun good => ⟨good, fun _ r' reads' gone => ?_⟩, fun both => both.1⟩
      rw [reads] at reads'
      obtain rfl := Option.some.inj reads'
      by_contra other
      exact armed ⟨gone, other⟩

end Settle

section Steps

variable {w w' : World} {h : TimeoutHandle} {id : ℕ}

theorem setTimer_inv (inv : w.Inv) (inter : Bool) (ms : ℤ) (t : ℕ) : (w.setTimer inter ms t).Inv := by
  have new : w.tm (w.mId + 1) = blank := inv.fresh _ (Nat.lt_succ_self _)
  have handle : TimeoutHandle.Inv (some (setTimeoutImpl ms (if inter then ms else 0) t))
      ⟨0, false, .create, inter, ms, setTimeoutImpl ms (if inter then ms else 0) t, 0, 0, none⟩ := by
    refine ⟨rfl, by simp, by simp, by simp, ?_, ?_⟩
    · intro oneShot
      simp only at oneShot
      simp only [oneShot, Bool.false_eq_true, if_false, setTimeoutImpl]
      split
      · exact .inl rfl
      · exact .inr ⟨t, rfl⟩
    · intro repeats t' eq
      simp only at repeats
      simp only [repeats, if_true, setTimeoutImpl] at eq
      split at eq
      · cases eq
      · rename_i due
        have zero : ms = 0 := (Timer.due.inj (Option.some.inj eq)).2
        exact due ⟨by omega, zero⟩
  refine ⟨⟨?_, ?_, ?_, inv.nodup, ?_⟩, inv.idle⟩
  · intro j later
    change w.mId + 1 < j at later
    have other : j ≠ w.mId + 1 := by omega
    exact (Function.update_of_ne other ..).trans (inv.fresh j (by omega))
  · intro j
    dsimp only [World.setTimer, World.setHandle]
    by_cases same : j = w.mId + 1
    · subst same
      rw [Function.update_self, Function.update_self]
      exact handle
    · rw [Function.update_of_ne same, Function.update_of_ne same]
      exact inv.handles j
  · intro j
    dsimp only [World.setTimer, World.setHandle]
    by_cases same : j = w.mId + 1
    · subst same
      rw [Function.update_self, inv.running, new]
      simp [blank]
    · rw [Function.update_of_ne same]
      exact inv.running j
  · intro r reads
    have := inv.reading r reads
    dsimp only [World.setTimer]
    omega

theorem setTimer_good_iff (good : ∀ j, (w.tm j).Good (w.wheel j)) (inter : Bool) (ms : ℤ) (t : ℕ) :
    (∀ j, ((w.setTimer inter ms t).tm j).Good ((w.setTimer inter ms t).wheel j)) ↔
      (inter = true → ms ≠ 0) := by
  constructor
  · intro all repeats zero
    have here := (all (w.mId + 1)).interval
    dsimp only [World.setTimer, World.setHandle] at here
    rw [Function.update_self, Function.update_self] at here
    obtain ⟨-, t', eq⟩ := here repeats rfl
    rw [repeats, zero] at eq
    cases eq
  · intro period j
    dsimp only [World.setTimer, World.setHandle]
    by_cases same : j = w.mId + 1
    · subst same
      rw [Function.update_self, Function.update_self]
      refine ⟨fun _ _ => .inl ⟨rfl, rfl⟩, ?_, by simp, by simp⟩
      intro repeats _
      simp only at repeats
      refine ⟨rfl, t, ?_⟩
      rw [repeats, if_pos rfl, setTimeoutImpl_due (period repeats)]
    · rw [Function.update_of_ne same, Function.update_of_ne same]
      exact good j

/-- What cancelling does, by where the coroutine is. -/
theorem cancelTimeout_eq (w : World) (id : ℕ) (never : (w.tm id).co ≠ .inProc) :
    w.cancelTimeout id =
      match (w.tm id).co with
      | .create => some (w.put id ((w.tm id).stop.move .ended) (w.wheel id) w.stack w.reading)
      | .inFn => some (w.put id ((w.tm id).stop.move .running) (w.wheel id) (id :: w.stack) w.reading)
      | .running =>
        if w.stack.head? = some id then none
        else some (w.put id (w.tm id).stop (w.wheel id) (id :: w.stack.erase id) w.reading)
      | _ => none := by
  unfold World.cancelTimeout World.resume
  cases place : (w.tm id).co with
  | inProc => exact absurd place never
  | create | inFn | running | ended =>
    simp [place, World.setHandle, World.put, World.loop, TimeoutHandle.stop]

theorem mem_cons_erase {stack : List ℕ} (nodup : stack.Nodup) (mem : id ∈ stack) (j : ℕ) :
    j ∈ id :: stack.erase id ↔ j ∈ stack := by
  rw [List.mem_cons, nodup.mem_erase_iff]
  constructor
  · rintro (rfl | ⟨-, old⟩)
    · exact mem
    · exact old
  · intro old
    by_cases same : j = id
    · exact .inl same
    · exact .inr ⟨same, old⟩

theorem cancelTimeout_inv (inv : w.Inv) (done : w.cancelTimeout id = some w') : w'.Inv := by
  have hinv := inv.handles id
  rw [cancelTimeout_eq w id hinv.never] at done
  cases place : (w.tm id).co with
  | create =>
    rw [place] at done
    obtain rfl := Option.some.inj done
    have old := inv.known (by rw [place]; decide)
    have here : ((w.tm id).stop.move .ended).Inv (w.wheel id) :=
      hinv.started ⟨rfl, rfl, rfl⟩ (.inl rfl) hinv.period
    refine ⟨put_coherent inv.toCoherent old here ?_ inv.nodup inv.reading, inv.idle⟩
    intro j
    by_cases same : j = id
    · subst same
      simp [inv.running, place, TimeoutHandle.move]
    · simp [same]
  | inFn =>
    rw [place] at done
    obtain rfl := Option.some.inj done
    have old := inv.known (by rw [place]; decide)
    have away : id ∉ w.stack := by simp [inv.running, place]
    have here : ((w.tm id).stop.move .running).Inv (w.wheel id) :=
      hinv.started ⟨rfl, rfl, rfl⟩ (.inr ⟨.inl rfl, hinv.begun (.inr place)⟩) hinv.period
    exact put_push inv away old here rfl inv.reading
  | running =>
    rw [place] at done
    simp only at done
    split at done
    · cases done
    · obtain rfl := Option.some.inj done
      have old := inv.known (by rw [place]; decide)
      have onStack : id ∈ w.stack := (inv.running id).mpr place
      have here : (w.tm id).stop.Inv (w.wheel id) :=
        hinv.started ⟨rfl, rfl, rfl⟩ (.inr ⟨.inl place, hinv.begun (.inl place)⟩) hinv.period
      refine ⟨put_coherent inv.toCoherent old here ?_ ?_ inv.reading, by simp [World.put]⟩
      · intro j
        rw [mem_cons_erase inv.nodup onStack]
        by_cases same : j = id
        · subst same
          simp [onStack, place, TimeoutHandle.stop]
        · simp [same]
      · refine List.nodup_cons.mpr ⟨?_, inv.nodup.erase id⟩
        simp [inv.nodup.mem_erase_iff]
  | inProc => exact absurd place hinv.never
  | ended =>
    rw [place] at done
    cases done

theorem stop_good {timer : Option Timer} (good : h.Good timer) (co : Co) (lives : co ≠ .ended) :
    (h.stop.move co).Good timer := by
  refine ⟨by simp [TimeoutHandle.move, TimeoutHandle.stop], by simp [TimeoutHandle.move, TimeoutHandle.stop],
    ?_, fun gone => absurd gone lives⟩
  intro calls eq
  have first : h.cancelled.getD h.calls = calls := Option.some.inj eq
  cases before : h.cancelled with
  | none => rwa [before] at first
  | some n =>
    rw [before, Option.getD_some] at first
    exact good.cancelled calls (before.trans (congrArg some first))

theorem cancelTimeout_good_iff (inv : w.Inv) (good : ∀ j, (w.tm j).Good (w.wheel j)) (id : ℕ) :
    Good (w.cancelTimeout id) ↔ (Event.cancel id).Fair w := by
  have hinv := inv.handles id
  rw [cancelTimeout_eq w id hinv.never, Event.Fair]
  cases place : (w.tm id).co with
  | create =>
    -- the handle is deleted, and the wheel holds it
    refine iff_of_false ?_ (by simp)
    intro ⟨w', eq, all⟩
    obtain rfl := Option.some.inj eq
    have gone := ((put_good good _ _ _).mp all).deleted rfl
    obtain ⟨zero, -, alone⟩ := hinv.create place
    cases kind : (w.tm id).inter with
    | false =>
      obtain ⟨-, armed⟩ | ⟨one, -⟩ := (good id).oneShot kind alone
      · rw [armed] at gone
        cases gone
      · omega
    | true =>
      obtain ⟨-, t, armed⟩ := (good id).interval kind alone
      rw [armed] at gone
      cases gone
  | inFn =>
    refine iff_of_true ⟨_, rfl, (put_good good _ _ _).mpr ?_⟩ (by simp)
    exact stop_good (good id) .running (by decide)
  | running =>
    by_cases current : w.stack.head? = some id
    · refine iff_of_false ?_ (by simp [current])
      intro ⟨w', eq, _⟩
      simp [current] at eq
    · simp only [current, if_false]
      refine iff_of_true ⟨_, rfl, (put_good good _ _ _).mpr ?_⟩ (by simp [current])
      have same : (w.tm id).stop = (w.tm id).stop.move .running := by
        simp [TimeoutHandle.move, TimeoutHandle.stop, place]
      exact same ▸ stop_good (good id) .running (by decide)
  | inProc => exact absurd place hinv.never
  | ended =>
    refine iff_of_false ?_ (by simp)
    intro ⟨w', eq, _⟩
    cases eq

/-- What the wheel holds of a handle that it has fired. -/
def rearmed (t : ℕ) : Timer → Option Timer
  | .now => none
  | .due _ interval => if interval = 0 then none else some (.due t interval)

theorem rearmed_period (t : ℕ) (timer : Timer) (t' : ℕ) : rearmed t timer ≠ some (.due t' 0) := by
  cases timer with
  | now => simp [rearmed]
  | due _ interval =>
    by_cases zero : interval = 0 <;> simp [rearmed, zero]

/-- What `timeout_cb` does, by where the coroutine is, if it is not running. -/
theorem timeoutCb_eq (w : World) (id : ℕ) (hinv : (w.tm id).Inv (w.wheel id))
    (away : (w.tm id).co ≠ .running) :
    w.timeoutCb id =
      match (w.tm id).co with
      | .create => some (w.put id (w.tm id).fire.call (w.wheel id) (id :: w.stack) w.reading)
      | .inFn =>
        some (w.put id ((w.tm id).fire.move .running) (w.wheel id) (id :: w.stack) w.reading)
      | _ => none := by
  unfold World.timeoutCb World.resume
  cases place : (w.tm id).co with
  | create =>
    simp [place, (hinv.create place).2.1, World.loop, World.setHandle, World.put, TimeoutHandle.fire]
  | inFn => simp [place, World.setHandle, World.put, TimeoutHandle.fire]
  | ended => simp [place, World.setHandle, TimeoutHandle.fire]
  | running => exact absurd place away
  | inProc => exact absurd place hinv.never

/-- What is left to `do_now_task`. -/
def toRead (reading : Option Reading) (id t : ℕ) (garbage : ℤ) : Timer → Option Reading
  | .now => some ⟨id, garbage, t⟩
  | .due _ _ => reading

theorem fire_eq (inv : w.Inv) (free : w.stack = []) {timer : Timer} (armed : w.wheel id = some timer)
    (t : ℕ) (garbage : ℤ) :
    w.fire id t garbage =
      match (w.tm id).co with
      | .create =>
        some (w.put id (w.tm id).fire.call (rearmed t timer) [id] (toRead w.reading id t garbage timer))
      | .inFn =>
        some (w.put id ((w.tm id).fire.move .running) (rearmed t timer) [id]
          (toRead w.reading id t garbage timer))
      | _ => none := by
  have hinv := inv.handles id
  have away : (w.tm id).co ≠ .running := by
    rw [ne_eq, ← inv.running, free]
    exact List.not_mem_nil
  have again : ∀ timer', (w.tm id).Inv (rearmed t timer') := fun timer' =>
    ⟨hinv.inter, hinv.create, hinv.begun, hinv.never, hinv.once, fun _ t' => rearmed_period t timer' t'⟩
  unfold World.fire
  rw [if_neg (not_not.mpr free), armed]
  cases timer with
  | now =>
    have cb := timeoutCb_eq
      { w with
        wheel := Function.update w.wheel id (rearmed t .now)
        reading := some ⟨id, garbage, t⟩ } id (by simpa using again .now) away
    dsimp only [rearmed] at cb ⊢
    rw [cb]
    cases place : (w.tm id).co with
    | create | inFn =>
      rw [Option.map_some, settle_busy (.inl (List.cons_ne_nil _ _))]
      simp [World.put, toRead, free]
    | ended | inProc | running => rfl
  | due _ interval =>
    have same : (if interval = 0 then none else some (setTimeoutImpl interval interval t)) =
        if interval = 0 then none else some (.due t interval) := by
      by_cases zero : interval = 0
      · simp [zero]
      · simp [zero, setTimeoutImpl_due zero]
    have cb := timeoutCb_eq
      { w with wheel := Function.update w.wheel id (rearmed t (.due t interval)) } id
      (by simpa using again (.due t interval)) away
    dsimp only [rearmed] at cb ⊢
    rw [same, cb]
    cases place : (w.tm id).co with
    | create | inFn => simp [World.put, toRead, free]
    | ended | inProc | running => rfl

theorem fire_still (t : ℕ) (garbage : ℤ) (still : w.stack ≠ [] ∨ w.wheel id = none) :
    w.fire id t garbage = some w := by
  unfold World.fire
  by_cases free : w.stack = []
  · obtain busy | unarmed := still
    · exact absurd free busy
    · simp [free, unarmed]
  · exact if_pos free

theorem fire_inv (inv : w.Inv) {t : ℕ} {garbage : ℤ} (done : w.fire id t garbage = some w') :
    w'.Inv := by
  by_cases still : w.stack ≠ [] ∨ w.wheel id = none
  · rw [fire_still t garbage still] at done
    exact Option.some.inj done ▸ inv
  · simp only [not_or, not_not] at still
    obtain ⟨timer, armed⟩ := Option.ne_none_iff_exists'.mp still.2
    have hinv := inv.handles id
    have away : id ∉ w.stack := by simp [still.1]
    have period : (w.tm id).inter = true → ∀ t', rearmed t timer ≠ some (.due t' 0) :=
      fun _ t' => rearmed_period t timer t'
    have reads : id ≤ w.mId → ∀ r, toRead w.reading id t garbage timer = some r → r.id ≤ w.mId := by
      intro old r eq
      cases timer with
      | now => exact Option.some.inj eq ▸ old
      | due _ _ => exact inv.reading r eq
    rw [fire_eq inv still.1 armed] at done
    cases place : (w.tm id).co with
    | create =>
      rw [place] at done
      have old := inv.known (by rw [place]; decide)
      have here : (w.tm id).fire.call.Inv (rearmed t timer) :=
        hinv.started ⟨rfl, rfl, rfl⟩ (.inr ⟨.inl rfl, Nat.succ_pos _⟩) period
      have pushed := put_push inv away old here rfl (reads old)
      rw [still.1] at pushed
      exact Option.some.inj done ▸ pushed
    | inFn =>
      rw [place] at done
      have old := inv.known (by rw [place]; decide)
      have here : ((w.tm id).fire.move .running).Inv (rearmed t timer) :=
        hinv.started ⟨rfl, rfl, rfl⟩ (.inr ⟨.inl rfl, hinv.begun (.inr place)⟩) period
      have pushed := put_push inv away old here rfl (reads old)
      rw [still.1] at pushed
      exact Option.some.inj done ▸ pushed
    | running | inProc | ended =>
      rw [place] at done
      cases done

theorem fire_good_iff (inv : w.Inv) (good : ∀ j, (w.tm j).Good (w.wheel j)) (id t : ℕ) (garbage : ℤ) :
    Good (w.fire id t garbage) ↔ (Event.fire id t garbage).Fair w := by
  rw [Event.Fair]
  by_cases still : w.stack ≠ [] ∨ w.wheel id = none
  · rw [fire_still t garbage still]
    refine iff_of_true ⟨w, rfl, good⟩ fun free armed => ?_
    obtain busy | unarmed := still
    · exact absurd free busy
    · exact absurd unarmed armed
  · simp only [not_or, not_not] at still
    obtain ⟨free, held⟩ := still
    obtain ⟨timer, armed⟩ := Option.ne_none_iff_exists'.mp held
    have hinv := inv.handles id
    have here := good id
    rw [armed] at here hinv
    have lives : (w.tm id).co ≠ .ended := by
      intro gone
      have := here.deleted gone
      cases this
    rw [fire_eq inv free armed]
    cases place : (w.tm id).co with
    | create =>
      refine iff_of_true ⟨_, rfl, (put_good good _ _ _).mpr ?_⟩ (by simp)
      obtain ⟨zero, -, alone⟩ := hinv.create place
      refine ⟨?_, ?_, ?_, ?_⟩
      · intro kind _
        obtain ⟨-, same⟩ | ⟨one, -⟩ := here.oneShot kind alone
        · refine .inr ⟨congrArg (· + 1) zero, ?_⟩
          obtain now | ⟨t', due⟩ := hinv.once kind
          · rw [Option.some.inj same, now]
            rfl
          · rw [Option.some.inj same, due]
            rfl
        · omega
      · intro kind _
        obtain ⟨calls, t', same⟩ := here.interval kind alone
        have period : (w.tm id).ms ≠ 0 := by
          intro none
          rw [none] at same
          exact hinv.period kind t' same
        refine ⟨congrArg (· + 1) calls, t, ?_⟩
        rw [Option.some.inj same]
        exact if_neg period
      · intro calls eq
        change (w.tm id).cancelled = some calls at eq
        rw [alone] at eq
        cases eq
      · intro gone
        cases gone
    | inFn =>
      have called := hinv.begun (.inr place)
      constructor
      · intro ⟨w', eq, all⟩ _ _ kind
        obtain rfl := Option.some.inj eq
        refine .inr fun alone => ?_
        have after := ((put_good good _ _ _).mp all).interval kind alone
        have before := here.interval kind alone
        have more : (w.tm id).calls = (w.tm id).fired + 1 := after.1
        omega
      · intro fair
        refine ⟨_, rfl, (put_good good _ _ _).mpr ⟨?_, ?_, here.cancelled, ?_⟩⟩
        · intro kind alone
          obtain ⟨zero, -⟩ | ⟨-, none⟩ := here.oneShot kind alone
          · omega
          · cases none
        · intro kind alone
          obtain created | cancelled := fair free held kind
          · cases created
          · exact absurd alone cancelled
        · intro gone
          cases gone
    | running =>
      rw [← inv.running, free] at place
      exact absurd place List.not_mem_nil
    | inProc => exact absurd place hinv.never
    | ended => exact absurd place lives

theorem yield_eq {cur : ℕ} {rest : List ℕ} (stack : w.stack = cur :: rest) :
    w.yield = (w.put cur ((w.tm cur).move .inFn) (w.wheel cur) rest w.reading).settle := by
  unfold World.yield
  rw [stack]
  exact congrArg World.settle (setHandle_eq w cur _ rest)

theorem finish_eq (inv : w.Inv) {cur : ℕ} {rest : List ℕ} (stack : w.stack = cur :: rest) :
    w.finish = (w.put cur ((w.tm cur).move .ended) (w.wheel cur) rest w.reading).settle := by
  unfold World.finish
  rw [stack]
  dsimp only
  rw [(inv.handles cur).inter, if_pos rfl]
  exact congrArg World.settle (setHandle_eq w cur _ rest)

theorem yield_inv (inv : w.Inv) : w.yield.Inv := by
  cases stack : w.stack with
  | nil => simpa only [World.yield, stack] using inv
  | cons cur rest =>
    have runs : (w.tm cur).co = .running := (inv.running cur).mp (stack ▸ List.mem_cons_self)
    have hinv := inv.handles cur
    rw [yield_eq stack]
    apply settle_inv
    apply put_pop inv stack _ (by simp [TimeoutHandle.move])
    exact hinv.started ⟨rfl, rfl, rfl⟩ (.inr ⟨.inr rfl, hinv.begun (.inl runs)⟩) hinv.period

theorem finish_inv (inv : w.Inv) : w.finish.Inv := by
  cases stack : w.stack with
  | nil => simpa only [World.finish, stack] using inv
  | cons cur rest =>
    have hinv := inv.handles cur
    rw [finish_eq inv stack]
    apply settle_inv
    apply put_pop inv stack _ (by simp [TimeoutHandle.move])
    exact hinv.started ⟨rfl, rfl, rfl⟩ (.inl rfl) hinv.period

theorem yield_good_iff (inv : w.Inv) (good : ∀ j, (w.tm j).Good (w.wheel j)) :
    (∀ j, (w.yield.tm j).Good (w.yield.wheel j)) ↔ Event.yield.Fair w := by
  rw [Event.Fair]
  cases stack : w.stack with
  | nil =>
    have still : w.yield = w := by simp only [World.yield, stack]
    rw [still]
    exact iff_of_true good (by simp)
  | cons cur rest =>
    have runs : (w.tm cur).co = .running := (inv.running cur).mp (stack ▸ List.mem_cons_self)
    have waits : ((w.tm cur).move .inFn).Good (w.wheel cur) :=
      ⟨(good cur).oneShot, (good cur).interval, (good cur).cancelled, by simp [TimeoutHandle.move]⟩
    have gone : ∀ id, ((w.put cur ((w.tm cur).move .inFn) (w.wheel cur) rest w.reading).tm id).co =
        .ended ↔ (w.tm id).co = .ended := by
      intro id
      dsimp only [World.put]
      by_cases same : id = cur
      · subst same
        rw [Function.update_self, runs]
        simp [TimeoutHandle.move]
      · rw [Function.update_of_ne same]
    rw [yield_eq stack, settle_good_iff, put_good good]
    simp only [gone]
    constructor
    · intro ⟨_, clean⟩ cur' eq
      exact clean (List.cons.inj eq).2
    · intro fair
      refine ⟨waits, fun none => fair cur ?_⟩
      exact congrArg (cur :: ·) none

theorem finish_good_iff (inv : w.Inv) (good : ∀ j, (w.tm j).Good (w.wheel j)) :
    (∀ j, (w.finish.tm j).Good (w.finish.wheel j)) ↔ Event.finish.Fair w := by
  rw [Event.Fair]
  cases stack : w.stack with
  | nil =>
    have still : w.finish = w := by simp only [World.finish, stack]
    rw [still]
    exact iff_of_true good (by simp)
  | cons cur rest =>
    have deleted : ((w.tm cur).move .ended).Good (w.wheel cur) ↔ w.wheel cur = none := by
      refine ⟨fun after => after.deleted rfl, fun none => ?_⟩
      exact ⟨(good cur).oneShot, (good cur).interval, (good cur).cancelled, fun _ => none⟩
    have gone : ∀ id, ((w.put cur ((w.tm cur).move .ended) (w.wheel cur) rest w.reading).tm id).co =
        .ended ↔ (w.tm id).co = .ended ∨ id = cur := by
      intro id
      dsimp only [World.put]
      by_cases same : id = cur
      · subst same
        rw [Function.update_self]
        simp [TimeoutHandle.move]
      · rw [Function.update_of_ne same]
        simp [same]
    rw [finish_eq inv stack, settle_good_iff, put_good good, deleted]
    simp only [gone]
    constructor
    · intro both cur' rest' eq
      obtain ⟨rfl, rfl⟩ := List.cons.inj eq
      exact both
    · exact fun fair => fair cur rest rfl

theorem wake_eq (w : World) (id : ℕ) : w.wake id =
    if (w.tm id).co = .inFn then
      some (w.put id ((w.tm id).move .running) (w.wheel id) (id :: w.stack) w.reading)
    else some w := by
  unfold World.wake World.resume
  by_cases waits : (w.tm id).co = .inFn
  · simp [waits, World.setHandle, World.put]
  · simp [waits]

theorem wake_inv (inv : w.Inv) (done : w.wake id = some w') : w'.Inv := by
  rw [wake_eq] at done
  split at done
  · rename_i waits
    have hinv := inv.handles id
    have away : id ∉ w.stack := by simp [inv.running, waits]
    have here : ((w.tm id).move .running).Inv (w.wheel id) :=
      hinv.started ⟨rfl, rfl, rfl⟩ (.inr ⟨.inl rfl, hinv.begun (.inr waits)⟩) hinv.period
    have old := inv.known (by rw [waits]; decide)
    exact Option.some.inj done ▸ put_push inv away old here rfl inv.reading
  · exact Option.some.inj done ▸ inv

theorem wake_good (good : ∀ j, (w.tm j).Good (w.wheel j)) (id : ℕ) : Good (w.wake id) := by
  rw [wake_eq]
  split
  · refine ⟨_, rfl, (put_good good _ _ _).mpr ?_⟩
    exact ⟨(good id).oneShot, (good id).interval, (good id).cancelled, by simp [TimeoutHandle.move]⟩
  · exact ⟨w, rfl, good⟩

end Steps

section Main

theorem step_inv {w : World} (inv : w.Inv) (event : Event) :
    ∀ w', step (some w) event = some w' → w'.Inv := by
  intro w' done
  cases event with
  | setTimeout ms t => exact Option.some.inj done ▸ setTimer_inv inv false ms t
  | setInterval ms t => exact Option.some.inj done ▸ setTimer_inv inv true ms t
  | cancel id => exact cancelTimeout_inv inv done
  | fire id t garbage => exact fire_inv inv done
  | yield => exact Option.some.inj done ▸ yield_inv inv
  | finish => exact Option.some.inj done ▸ finish_inv inv
  | wake id => exact wake_inv inv done

theorem good_some (w : World) : Good (some w) ↔ ∀ j, (w.tm j).Good (w.wheel j) := by
  constructor
  · intro ⟨w', eq, good⟩
    exact Option.some.inj eq ▸ good
  · exact fun good => ⟨w, rfl, good⟩

theorem step_good_iff {w : World} (inv : w.Inv) (good : ∀ j, (w.tm j).Good (w.wheel j))
    (event : Event) : Good (step (some w) event) ↔ event.Fair w := by
  cases event with
  | setTimeout ms t =>
    refine iff_of_true ((good_some _).mpr ?_) trivial
    exact (setTimer_good_iff good false ms t).mpr (by simp)
  | setInterval ms t =>
    refine (good_some _).trans ((setTimer_good_iff good true ms t).trans ?_)
    simp [Event.Fair]
  | cancel id => exact cancelTimeout_good_iff inv good id
  | fire id t garbage => exact fire_good_iff inv good id t garbage
  | yield => exact (good_some _).trans (yield_good_iff inv good)
  | finish => exact (good_some _).trans (finish_good_iff inv good)
  | wake id => exact iff_of_true (wake_good good id) trivial

/-- In every state of a run the timers are what they are to be, exactly when each of its events is one
that they can take. -/
theorem timers_good_iff (events : List Event) :
    (∀ past, past <+: events → Good (run past)) ↔
      ∀ past event, past ++ [event] <+: events → ∀ w, run past = some w → event.Fair w := by
  let inv : Option World → Prop := fun s => ∀ w, s = some w → w.Inv
  have keeps : ∀ (s : Option World) (event : Event), inv s → inv (step s event) := by
    intro s event before w' done
    cases s with
    | none => cases done
    | some w => exact step_inv (before w rfl) event w' done
  have good_iff : ∀ (s : Option World) (event : Event), inv s → Good s →
      (Good (step s event) ↔ ∀ w, s = some w → event.Fair w) := by
    intro s event before ⟨w, eq, good⟩
    subst eq
    rw [step_good_iff (before w rfl) good event]
    simp
  have init : inv (some start) := fun w eq => Option.some.inj eq ▸ start_inv
  have good : Good (some start) := ⟨start, rfl, fun _ => blank_good⟩
  exact foldl_good_iff keeps good_iff init good events

/-- An interval function is called once, and its handle is deleted while the wheel holds it. -/
theorem interval_deleted : ¬ ∀ events : List Event, Good (run events) := by
  intro claim
  obtain ⟨w, eq, good⟩ := claim [.setInterval 10 110, .fire 1 120 0, .finish]
  have held : (run [.setInterval 10 110, .fire 1 120 0, .finish]).map
      (fun w => ((w.tm 1).co, (w.wheel 1).isSome)) = some (.ended, true) := by decide
  rw [eq, Option.map_some] at held
  obtain ⟨gone, armed⟩ := Prod.mk.inj (Option.some.inj held)
  rw [(good 1).deleted gone] at armed
  cases armed

end Main

end Conet.Core.FunctionTimer
