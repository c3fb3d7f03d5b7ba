/- Module: Conet/Core/TimewheelCount
   source: core/src/timewheel.cpp
   digest: The counter and the slots of a wheel over whole runs, with handles that are armed again. -/

import Conet.Core.TimewheelRun
import Mathlib.Data.Set.Card

set_option autoImplicit false
set_option relaxedAutoImplicit false

namespace Conet.Core.TimewheelCount

open Conet.Lib Conet.Base.ListHead Conet.Base.ListRings Conet.Core.Timewheel
  Conet.Core.TimewheelScan Conet.Core.TimewheelInv Conet.Core.TimerService
  Conet.Core.TimewheelRun

universe u

variable {H : Type u} [DecidableEq H]

/-- The calls made on a wheel, and a reading of the clock in between. -/
inductive Call (H : Type u)
  | setTimeout (obj : H) (timeout : ℤ)
  | setInterval (obj : H) (interval : ℤ)
  | cancelTimeout (obj : H)
  | doNowTask
  | check (curMs : ℕ)
  | getCurMs

/-- One call, with callbacks that leave the wheel alone. -/
inductive Does (clk : Clock) (w : Wheel H) : Call H → Wheel H → Prop
  | setTimeout (obj : H) (timeout : ℤ) :
      Does clk w (.setTimeout obj timeout) (setTimeout clk w obj timeout)
  | setInterval (obj : H) (interval : ℤ) :
      Does clk w (.setInterval obj interval) (setInterval clk w obj interval)
  | cancelTimeout (obj : H) : Does clk w (.cancelTimeout obj) (userCancel w obj)
  | doNowTask {r : Wheel H}
      (returns : Loop.Returns (doNowTask .none clk) (doNowStart { w with delayTask := false }) r) :
      Does clk w .doNowTask r
  | check {curMs : ℕ} {r : Walk H} (returns : Loop.Returns (check .none clk) (.enter w curMs) r) :
      Does clk w (.check curMs) r.w
  | getCurMs : Does clk w .getCurMs { w with reads := w.reads + 1 }

/-- The states of a new wheel after calls that all meet `ok`. -/
inductive Reached (clk : Clock) (slotNum : ℕ) (ok : Wheel H → Call H → Prop) : Wheel H → Prop
  | init : Reached clk slotNum ok (Wheel.init clk slotNum)
  | step {w w' : Wheel H} {c : Call H} : Reached clk slotNum ok w → ok w c → Does clk w c w' →
      Reached clk slotNum ok w'

/-- The handles that are linked in slots. -/
def inSlots (w : Wheel H) : Set H := {h | ∃ i, Linked w.links (.slot i) h}

/-- Delays and intervals are `int`s, times are `uint64_t`s. -/
def Typed : Call H → Prop
  | .setTimeout _ timeout => -2 ^ 31 ≤ timeout ∧ timeout < 2 ^ 31
  | .setInterval _ interval => -2 ^ 31 ≤ interval ∧ interval < 2 ^ 31
  | .check curMs => curMs < 2 ^ 64
  | _ => True

/-- A check for the time `cur` gives this handle no deadline before `cur`, whatever the clock reads then. -/
def Rearms (clk : Clock) (w : Wheel H) (cur : ℕ) (h : H) : Prop :=
  ∀ n, w.reads ≤ n → cur ≤ deadline clk { w with reads := n } (w.interval h)

/-- A handle is armed when it is in no slot, and not with the deadline 0; no handle of the now list is
cancelled that still has the deadline of an earlier arming; no check puts a handle before its own time. -/
def Counted (clk : Clock) (w : Wheel H) : Call H → Prop
  | .setTimeout obj _ => obj ∉ inSlots w
  | .setInterval obj interval => obj ∉ inSlots w ∧ (interval ≠ 0 → 0 < deadline clk w interval)
  | .cancelTimeout obj => Clean w (.cancelTimeout obj)
  | .check cur => 0 < timeDiff (checkCurMs clk w cur) w.prevMs →
    ∀ h ∈ inSlots w, timeAfterEq (checkCurMs clk w cur) (w.timeout h) = true → w.interval h ≠ 0 →
      Rearms clk (entered w cur) (checkCurMs clk w cur) h
  | _ => True

section Steps

variable {clk : Clock} {w w' : Wheel H} {L : Head → List H} {A : List H} {h : H}

/-- The wheel after the first statement of `set_timeout_impl`. -/
def unlinked (w : Wheel H) (h : H) : Wheel H := { w with links := listDelInit w.links (.item h) }

end Steps

section Check

variable {clk : Clock} {w w₀ : Wheel H} {L L₀ : Head → List H} {A passed rest post : List H} {h : H}
  {cur prev t left a : ℕ} {s : Scan H}

theorem elapsed_cases (fits : cur < 2 ^ 64) (prev_fits : prev < 2 ^ 64) (elapsed : 0 < timeDiff cur prev) :
    (prev < cur ∧ timeDiff cur prev = cur - prev) ∨ (cur < prev ∧ 2 ^ 63 ≤ prev) := by
  unfold timeDiff toInt64 at *
  split_ifs at elapsed ⊢ <;> omega

theorem late_of_not_due (fits : cur < 2 ^ 64) (t_fits : t < 2 ^ 64) (elapsed : 0 < timeDiff cur prev)
    (from_prev : prev ≤ t) (not_due : timeAfterEq cur t = false) : cur ≤ t := by
  unfold timeAfterEq timeDiff toInt64 at *
  split_ifs at elapsed not_due <;> simp at not_due <;> omega

/-- The scan of a check for the time `cur`, which gives no handle a deadline before `cur`. -/
structure Scanning (clk : Clock) (w₀ : Wheel H) (cur : ℕ) (s : Scan H) (L : Head → List H)
    (passed rest : List H) (left : ℕ) (A : List H) (a : ℕ) : Prop
    extends Swept (cur ≤ ·) w₀ cur s L passed rest left a where
  rep : Rep s.c.st.w L A
  reads : w₀.reads ≤ s.c.st.w.reads
  interval : s.c.st.w.interval = w₀.interval
  rearms : ∀ i, ∀ h ∈ L (.slot i), timeAfterEq cur (s.c.st.w.timeout h) = true →
    w₀.interval h ≠ 0 → Rearms clk w₀ cur h

omit [DecidableEq H] in
theorem Scanning.again (scan : Scanning clk w₀ cur s L passed (h :: post) left A a)
    (due : timeAfterEq s.curMs (s.c.st.w.timeout h) = true) (hi : s.c.st.w.interval h ≠ 0) :
    cur ≤ deadline clk s.c.st.w (s.c.st.w.interval h) := by
  have on : h ∈ L (.slot s.pos) := by simp [scan.ring.split]
  have le := scan.rearms s.pos h on (scan.curMs ▸ due) (scan.interval ▸ hi) _ scan.reads
  simpa only [deadline, scan.prevMs, scan.interval] using le

theorem Scanning.fire (scan : Scanning clk w₀ cur s L passed (h :: post) left A a)
    (elapsed : 0 < timeDiff cur w₀.prevMs) (due : timeAfterEq s.curMs (s.c.st.w.timeout h) = true) :
    ∃ passed' rest' A', Scanning clk w₀ cur (advance s (TimewheelScan.fired .none clk s.c.st h))
      (rearmed clk s.c.st.w L h) passed' rest' left A' a := by
  have on : h ∈ L (.slot s.pos) := by simp [scan.ring.split]
  have pos : s.c.st.w.interval h ≠ 0 → 0 < deadline clk s.c.st.w (s.c.st.w.interval h) := by
    intro hi
    have le := scan.again due hi
    have from_prev := prev_le_deadline clk s.c.st.w (s.c.st.w.interval h)
    rw [scan.prevMs] at from_prev
    by_contra zero
    obtain ⟨rfl, prev⟩ : cur = 0 ∧ w₀.prevMs = 0 := by omega
    simp [prev, timeDiff] at elapsed
  obtain ⟨passed', rest', swept, -⟩ := scan.toSwept.fire clk due (scan.again due)
  obtain ⟨A', rep⟩ := scan.rep.fire on pos
  obtain ⟨links, taskNum, tw, eq⟩ := fire_fields Callbacks.none clk s.c.st.w h
  refine ⟨passed', rest', A', swept, rep, ?_, ?_, ?_⟩
  · refine scan.reads.trans ?_
    simp only [advance, TimewheelScan.fired, eq]
    split <;> omega
  · simp [advance, TimewheelScan.fired, eq, scan.interval]
  · intro i g hg due' hi
    rcases (mem_rearmed clk scan.rep.rings).mp hg with ⟨hg, other⟩ | ⟨rfl, -⟩
    · refine scan.rearms i g hg ?_ hi
      rwa [← fire_timeout Callbacks.none clk s.c.st.w other]
    · exact scan.rearms s.pos g on (scan.curMs ▸ due) hi

omit [DecidableEq H] in
/-- When the scan stops, no handle is before `cur`. -/
theorem Scanning.clean (scan : Scanning clk w₀ cur s L passed [] left A a) (layout₀ : Layout w₀ L₀)
    (home₀ : w₀.pos = w₀.prevMs &&& w₀.slotNumMask) (prev : w₀.prevMs < 2 ^ 64) (fits : cur < 2 ^ 64)
    (elapsed : 0 < timeDiff cur w₀.prevMs) (hp : s.pos = s.endPos) {i : ℕ} (on : h ∈ L (.slot i)) :
    cur ≤ s.c.st.w.timeout h := by
  have placed := scan.rep.placed i h on
  have from_prev := scan.prevMs ▸ placed.later
  rcases elapsed_cases fits prev elapsed with ⟨-, diff⟩ | ⟨lt, -⟩
  · by_contra late
    exact late (scan.toSwept.clean layout₀ home₀ diff hp on placed.home from_prev (not_le.mp late).le)
  · exact lt.le.trans from_prev

theorem Scanning.turn {p : CheckAt H} (scan : Scanning clk w₀ cur s L passed rest left A a)
    (fits : cur < 2 ^ 64) (elapsed : 0 < timeDiff cur w₀.prevMs)
    (again : check .none clk (.scan s) = .again p) :
    ∃ s L passed rest left A a, p = .scan s ∧ Scanning clk w₀ cur s L passed rest left A a := by
  cases rest with
  | nil =>
    rw [check_slot_done scan.ring.pos] at again
    split at again
    · cases again
    · rename_i hp
      cases again
      obtain ⟨left', rfl, swept⟩ := scan.toSwept.nextSlot hp
      exact ⟨_, _, _, _, _, _, _, rfl, swept, scan.rep, scan.reads, scan.interval, scan.rearms⟩
  | cons h post =>
    cases due : timeAfterEq s.curMs (s.c.st.w.timeout h) with
    | true =>
      cases (check_fire scan.ring.pos due).symm.trans again
      obtain ⟨passed', rest', A', scan'⟩ := scan.fire elapsed due
      exact ⟨_, _, _, _, _, _, _, rfl, scan'⟩
    | false =>
      cases (check_skip scan.ring.pos due).symm.trans again
      have on : h ∈ L (.slot s.pos) := by simp [scan.ring.split]
      have placed := scan.rep.placed _ h on
      have late : cur ≤ s.c.st.w.timeout h := late_of_not_due fits placed.fits elapsed
        (scan.prevMs ▸ placed.later) (scan.curMs ▸ due)
      exact ⟨_, _, _, _, _, _, _, rfl, scan.toSwept.skip late, scan.rep, scan.reads, scan.interval,
        scan.rearms⟩

omit [DecidableEq H] in
/-- A check for a time that the clock has reached is counted when no interval is negative. -/
theorem counted_of_clock (nonneg : ∀ h, 0 ≤ w.interval h) (ints : ∀ h, w.interval h < 2 ^ 31)
    (now : cur ≤ clk.read w.reads) : Counted clk w (.check cur) := by
  intro _ h _ _ hi n later
  have pos : 0 < w.interval h := lt_of_le_of_ne (nonneg h) (Ne.symm hi)
  have cur_le := checkCurMs_le now
  have mono := clk.mono later
  have at_deadline := deadline_of_pos clk { entered w cur with reads := n } pos (ints h)
  refine Int.ofNat_le.mp (le_trans (le_max_of_le_right ?_) at_deadline.ge)
  have le := cur_le.trans mono
  change (checkCurMs clk w cur : ℤ) ≤ clk.read n + w.interval h
  omega

end Check

section Runs

variable {clk : Clock} {n : ℕ} {w w' : Wheel H}

end Runs

end Conet.Core.TimewheelCount
