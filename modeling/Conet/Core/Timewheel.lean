/- Module: Conet/Core/Timewheel
   source: core/src/timewheel.cpp, core/timewheel.h, base/time_helper.h
   digest: The timer wheel: arming, cancelling, the now list and the slot scan of check. -/

import Conet.Base.ListRings
import Conet.Lib.Bytes
import Mathlib.Data.Nat.Log
import Mathlib.Order.Monotone.Basic

set_option autoImplicit false
set_option relaxedAutoImplicit false

namespace Conet.Core.Timewheel

open Conet.Lib Conet.Base.ListHead Conet.Base.ListRings

universe u

/-- The successive readings of `get_cur_ms`. They are milliseconds of a `timeval`, far from the
range in which a deadline would not fit an `int64_t`. -/
structure Clock where
  read : ℕ → ℕ
  mono : Monotone read
  bound : ∀ n, read n < 2 ^ 63 - 2 ^ 31

def timeDiff (a b : ℕ) : ℤ := toInt64 a - toInt64 b

def timeAfterEq (a b : ℕ) : Bool := decide (0 ≤ toInt64 a - toInt64 b)

/-- The list heads of a wheel and the `LIST_HEAD(queue)` on the stack of `do_now_task`. -/
inductive Head
  | slot (i : ℕ)
  | nowList
  | queue
  deriving DecidableEq

/-- What the users of a wheel see and do: they arm and cancel handles, the wheel calls `fn`. -/
inductive Event (H : Type u)
  | armed (h : H)
  | cancelled (h : H)
  | called (h : H)
  deriving DecidableEq

/-- A `timewheel_t` and the `timeout_handle_t`s that are used with it. -/
structure Wheel (H : Type u) where
  links : Links (Node Head H)
  timeout : H → ℕ
  interval : H → ℤ
  /-- `obj->tw` is this wheel, not `NULL` -/
  tw : H → Bool
  pos : ℕ
  prevMs : ℕ
  taskNum : ℤ
  slotNum : ℕ
  slotNumMask : ℕ
  /-- `delay_task` is linked in the dispatcher -/
  delayTask : Bool
  /-- the number of clock readings so far -/
  reads : ℕ
  log : List (Event H)

/-- The handles that the `fn` of a handle cancels when it is called after the given events. -/
abbrev Callbacks (H : Type u) := List (Event H) → H → List H

/-- Callbacks that do not touch the wheel. -/
def Callbacks.none {H : Type u} : Callbacks H := fun _ _ => []

/-- `timewheel_t::timewheel_t`, with handles that went through `init_timeout_handle`. -/
def Wheel.init {H : Type u} (clk : Clock) (slotNum : ℕ) : Wheel H where
  links := ⟨id, id⟩
  timeout := fun _ => 0
  interval := fun _ => 0
  tw := fun _ => false
  pos := clk.read 0 &&& (2 ^ (Nat.log 2 slotNum + 2) - 1)
  prevMs := clk.read 0
  taskNum := 0
  slotNum := 2 ^ (Nat.log 2 slotNum + 2)
  slotNumMask := 2 ^ (Nat.log 2 slotNum + 2) - 1
  delayTask := true
  reads := 1
  log := []

variable {H : Type u} [DecidableEq H]

def cancelTimeout (w : Wheel H) (obj : H) : Wheel H :=
  let linked := !listEmpty w.links (.item obj)
  { w with
    links := if linked then listDelInit w.links (.item obj) else w.links
    taskNum := if linked ∧ w.tw obj ∧ 0 < w.timeout obj then w.taskNum - 1 else w.taskNum
    tw := Function.update w.tw obj false }

/-- The deadline `t` of `set_timeout_impl`: `cur_ms + timeout` in `uint64_t`, not before
`prev_ms`. -/
def deadline (clk : Clock) (w : Wheel H) (timeout : ℤ) : ℕ :=
  let t := ((clk.read w.reads + timeout) % 2 ^ 64).toNat
  if t < w.prevMs then w.prevMs else t

def setTimeoutImpl (clk : Clock) (w : Wheel H) (obj : H) (timeout interval : ℤ) : Wheel H :=
  let w := { w with
    links := listDelInit w.links (.item obj)
    interval := Function.update w.interval obj interval
    tw := Function.update w.tw obj true }
  if timeout ≤ 0 ∧ interval = 0 then
    { w with
      links := listAddTail w.links (.item obj) (.head .nowList)
      delayTask := true }
  else
    let t := deadline clk w timeout
    { w with
      timeout := Function.update w.timeout obj t
      taskNum := w.taskNum + 1
      links := listAddTail w.links (.item obj) (.head (.slot (t &&& w.slotNumMask)))
      reads := w.reads + 1 }

/-- A `cancel_timeout` call of a user. -/
def userCancel (w : Wheel H) (obj : H) : Wheel H :=
  { cancelTimeout w obj with log := w.log ++ [.cancelled obj] }

/-- `timewheel_t::set_timeout` as a user calls it. -/
def setTimeout (clk : Clock) (w : Wheel H) (obj : H) (timeout : ℤ) : Wheel H :=
  { setTimeoutImpl clk w obj timeout 0 with log := w.log ++ [.armed obj] }

/-- `timewheel_t::set_interval` as a user calls it. -/
def setInterval (clk : Clock) (w : Wheel H) (obj : H) (interval : ℤ) : Wheel H :=
  { setTimeoutImpl clk w obj interval interval with log := w.log ++ [.armed obj] }

/-- `obj->fn(obj->arg)`. -/
def callFn (cs : Callbacks H) (w : Wheel H) (obj : H) : Wheel H :=
  (cs w.log obj).foldl userCancel { w with log := w.log ++ [.called obj] }

/-- The first steps for a due handle in `check`: `cancel_timeout`, and for an interval handle
`set_timeout_impl`. -/
def rearm (clk : Clock) (w : Wheel H) (t1 : H) : Wheel H :=
  let w := cancelTimeout w t1
  if w.interval t1 ≠ 0 then setTimeoutImpl clk w t1 (w.interval t1) (w.interval t1) else w

/-- The handling of a due handle in `check`. -/
def fire (cs : Callbacks H) (clk : Clock) (w : Wheel H) (t1 : H) : Wheel H :=
  callFn cs (rearm clk w t1) t1

/-- The wheel and the counter `cnt` of `check`. -/
structure Walk (H : Type u) where
  w : Wheel H
  cnt : ℤ

/-- The local variables of the slot scan of `check`. -/
structure Scan (H : Type u) where
  c : SafeCursor (Node Head H) (Walk H)
  pos : ℕ
  endPos : ℕ
  curMs : ℕ

/-- Where `check` is: at its entry or in the scan. -/
inductive CheckAt (H : Type u)
  | enter (w : Wheel H) (curMs : ℕ)
  | scan (s : Scan H)

def checkBody (cs : Callbacks H) (clk : Clock) (curMs : ℕ) (it : Node Head H) (st : Walk H) :
    Turn (Walk H) (Walk H) :=
  match it with
  | .item t1 =>
    if timeAfterEq curMs (st.w.timeout t1) then .again ⟨fire cs clk st.w t1, st.cnt + 1⟩
    else .again st
  | _ => .undefined

def walkNext (st : Walk H) : Node Head H → Node Head H := st.w.links.next

/-- `if (cur_ms == 0) cur_ms = get_cur_ms();` -/
def checkCurMs (clk : Clock) (w : Wheel H) (curMs : ℕ) : ℕ :=
  if curMs = 0 then clk.read w.reads else curMs

def endPos (w : Wheel H) (curMs : ℕ) : ℕ :=
  if (w.slotNum : ℤ) ≤ timeDiff curMs w.prevMs then (w.pos + w.slotNum - 1) &&& w.slotNumMask
  else curMs &&& w.slotNumMask

/-- The last two assignments of `check`. -/
def Wheel.setNow (w : Wheel H) (curMs : ℕ) : Wheel H :=
  { w with pos := curMs &&& w.slotNumMask, prevMs := curMs }

/-- `timewheel_t::check`, turn by turn. -/
def check (cs : Callbacks H) (clk : Clock) : CheckAt H → Turn (CheckAt H) (Walk H)
  | .enter w cur =>
    let curMs := checkCurMs clk w cur
    let w := { w with reads := if cur = 0 then w.reads + 1 else w.reads }
    if w.taskNum ≤ 0 then .leave ⟨w.setNow curMs, 0⟩
    else if timeDiff curMs w.prevMs ≤ 0 then .leave ⟨w, 0⟩
    else .again (.scan
      ⟨forEachStart walkNext (.head (.slot w.pos)) ⟨w, 0⟩, w.pos, endPos w curMs, curMs⟩)
  | .scan s =>
    match forEachSafe walkNext (.head (.slot s.pos)) (checkBody cs clk s.curMs) s.c with
    | .again c => .again (.scan { s with c := c })
    | .undefined => .undefined
    | .leave st =>
      if s.pos = s.endPos then .leave { st with w := st.w.setNow s.curMs }
      else
        let pos := (s.pos + 1) &&& st.w.slotNumMask
        .again (.scan { s with c := forEachStart walkNext (.head (.slot pos)) st, pos := pos })

/-- The handling of a handle in `do_now_task`. -/
def runNow (cs : Callbacks H) (clk : Clock) (w : Wheel H) (it : H) : Wheel H :=
  let w := callFn cs { w with links := listDelInit w.links (.item it) } it
  if w.interval it ≠ 0 then setTimeoutImpl clk w it (w.interval it) (w.interval it) else w

def nowBody (cs : Callbacks H) (clk : Clock) (it : Node Head H) (w : Wheel H) :
    Turn (Wheel H) (Wheel H) :=
  match it with
  | .item it => .again (runNow cs clk w it)
  | _ => .undefined

def wheelNext (w : Wheel H) : Node Head H → Node Head H := w.links.next

/-- `do_now_task`, turn by turn. -/
def doNowTask (cs : Callbacks H) (clk : Clock) :
    SafeCursor (Node Head H) (Wheel H) → Turn (SafeCursor (Node Head H) (Wheel H)) (Wheel H) :=
  forEachSafe wheelNext (.head .queue) (nowBody cs clk)

/-- `do_now_task` up to its loop. -/
def doNowStart (w : Wheel H) : SafeCursor (Node Head H) (Wheel H) :=
  forEachStart wheelNext (.head .queue)
    { w with
      links := listSwap (initListHead w.links (.head .queue)) (.head .queue) (.head .nowList)
        .spare }

theorem timeAfterEq_iff {a b : ℕ} (ha : a < 2 ^ 63) (hb : b < 2 ^ 63) :
    timeAfterEq a b = true ↔ b ≤ a := by
  simp [timeAfterEq, toInt64_of_lt ha, toInt64_of_lt hb]

theorem timeDiff_eq {a b : ℕ} (ha : a < 2 ^ 63) (hb : b < 2 ^ 63) :
    timeDiff a b = (a : ℤ) - b := by
  simp [timeDiff, toInt64_of_lt ha, toInt64_of_lt hb]

section Links

variable {clk : Clock} {w : Wheel H} {L : Head → List H}

theorem cancelTimeout_rings (rings : Rings w.links L) (h : H) :
    Rings (cancelTimeout w h).links (fun k => (L k).erase h) := by
  have unlinked := rings.unlink h
  cases empty : listEmpty w.links (.item h) with
  | false => simpa [cancelTimeout, empty] using unlinked
  | true =>
    rw [listDelInit_of_nil (rings.alone h ((rings.empty_iff h).mp empty))] at unlinked
    simpa [cancelTimeout, empty] using unlinked

/-- The lists after a handle is linked anew at the tail of `k`. -/
def moved (L : Head → List H) (h : H) (k : Head) : Head → List H :=
  Function.update (fun k => (L k).erase h) k ((L k).erase h ++ [h])

/-- Taking a handle off twice is taking it off once. -/
theorem moved_erase (rings : Rings w.links L) (h : H) :
    moved (fun k => (L k).erase h) h = moved L h := by
  have same : ∀ k, ((L k).erase h).erase h = (L k).erase h := fun k =>
    List.erase_of_not_mem (rings.nodup k).not_mem_erase
  funext k
  simp [moved, same]

/-- The head that `set_timeout_impl` links the handle to. -/
def target (clk : Clock) (w : Wheel H) (timeout interval : ℤ) : Head :=
  if timeout ≤ 0 ∧ interval = 0 then .nowList
  else .slot (deadline clk w timeout &&& w.slotNumMask)

theorem setTimeoutImpl_rings (clk : Clock) (rings : Rings w.links L) (h : H)
    (timeout interval : ℤ) :
    Rings (setTimeoutImpl clk w h timeout interval).links
      (moved L h (target clk w timeout interval)) := by
  have unlinked := rings.unlink h
  have free : ∀ k, h ∉ (L k).erase h := fun k => (rings.nodup k).not_mem_erase
  unfold setTimeoutImpl target
  split_ifs
  · exact unlinked.append free .nowList
  · exact unlinked.append free _

/-- Cancelling a batch of handles leaves the others where they are. -/
theorem userCancels_rings (rings : Rings w.links L) (hs : List H) :
    Rings (hs.foldl userCancel w).links (fun k => (L k).filter (· ∉ hs)) := by
  induction hs generalizing w L with
  | nil => simpa using rings
  | cons h hs ih =>
    have rest := ih (w := userCancel w h) (cancelTimeout_rings rings h)
    have same : (fun k => ((L k).erase h).filter (· ∉ hs)) =
        fun k => (L k).filter (· ∉ h :: hs) := by
      funext k
      rw [(rings.nodup k).erase_eq_filter, List.filter_filter]
      refine List.filter_congr fun x _ => ?_
      by_cases hx : x = h <;> simp [hx]
    rw [same] at rest
    exact rest

/-- What a batch of `cancel_timeout` calls writes besides the links. -/
theorem userCancels_fields (w : Wheel H) (hs : List H) :
    ∃ links taskNum tw, hs.foldl userCancel w =
      { w with links := links, taskNum := taskNum, tw := tw, log := w.log ++ hs.map .cancelled } := by
  induction hs generalizing w with
  | nil => exact ⟨w.links, w.taskNum, w.tw, by simp⟩
  | cons h hs ih =>
    obtain ⟨links, taskNum, tw, eq⟩ := ih (userCancel w h)
    refine ⟨links, taskNum, tw, ?_⟩
    rw [List.foldl_cons, eq]
    simp [userCancel, cancelTimeout]

/-- The lists when the `fn` of a due handle is called: an interval handle is linked again, a
one-shot handle is off the wheel. -/
def rearmed (clk : Clock) (w : Wheel H) (L : Head → List H) (h : H) : Head → List H :=
  if w.interval h = 0 then fun k => (L k).erase h
  else moved L h (.slot (deadline clk w (w.interval h) &&& w.slotNumMask))

theorem rearm_rings (clk : Clock) (rings : Rings w.links L) (h : H) :
    Rings (rearm clk w h).links (rearmed clk w L h) := by
  have off := cancelTimeout_rings rings h
  unfold rearm rearmed
  by_cases hi : w.interval h = 0
  · simpa [hi, cancelTimeout] using off
  · have linked := setTimeoutImpl_rings clk off h (w.interval h) (w.interval h)
    simpa [hi, moved_erase rings h, target, deadline, cancelTimeout] using linked

/-- What the re-arming of a due handle writes besides the links. -/
theorem rearm_fields (clk : Clock) (w : Wheel H) (h : H) :
    ∃ links taskNum tw, rearm clk w h =
      { w with
        links := links
        taskNum := taskNum
        tw := tw
        timeout := if w.interval h = 0 then w.timeout
          else Function.update w.timeout h (deadline clk w (w.interval h))
        reads := if w.interval h = 0 then w.reads else w.reads + 1 } := by
  refine ⟨(rearm clk w h).links, (rearm clk w h).taskNum, (rearm clk w h).tw, ?_⟩
  by_cases hi : w.interval h = 0
  · simp [rearm, hi, cancelTimeout]
  · simp [rearm, hi, setTimeoutImpl, deadline, cancelTimeout]

theorem fire_rings (cs : Callbacks H) (clk : Clock) (rings : Rings w.links L) (h : H) :
    Rings (fire cs clk w h).links (fun k => (rearmed clk w L h k).filter (· ∉ cs w.log h)) := by
  obtain ⟨links, taskNum, tw, eq⟩ := rearm_fields clk w h
  have log : (rearm clk w h).log = w.log := by simp [eq]
  have called : Rings ({ rearm clk w h with log := w.log ++ [.called h] } : Wheel H).links
      (rearmed clk w L h) := rearm_rings clk rings h
  simpa only [fire, callFn, log] using userCancels_rings called (cs w.log h)

theorem fire_fields (cs : Callbacks H) (clk : Clock) (w : Wheel H) (h : H) :
    ∃ links taskNum tw, fire cs clk w h =
      { w with
        links := links
        taskNum := taskNum
        tw := tw
        timeout := if w.interval h = 0 then w.timeout
          else Function.update w.timeout h (deadline clk w (w.interval h))
        reads := if w.interval h = 0 then w.reads else w.reads + 1
        log := w.log ++ .called h :: (cs w.log h).map .cancelled } := by
  obtain ⟨links, taskNum, tw, eq⟩ := rearm_fields clk w h
  obtain ⟨links', taskNum', tw', eq'⟩ := userCancels_fields
    { rearm clk w h with log := (rearm clk w h).log ++ [.called h] } (cs (rearm clk w h).log h)
  refine ⟨links', taskNum', tw', ?_⟩
  unfold fire callFn
  rw [eq', eq]
  simp

end Links

end Conet.Core.Timewheel
