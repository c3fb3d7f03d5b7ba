/- Module: Conet/Core/TimewheelCancel
   source: core/src/timewheel.cpp
   digest: Callbacks that cancel handles while check or do_now_task walks a list. -/

import Conet.Core.TimewheelInv
import Mathlib.Data.List.Infix

set_option autoImplicit false
set_option relaxedAutoImplicit false

namespace Conet.Core.TimewheelCancel

open Conet.Lib Conet.Base.ListHead Conet.Base.ListRings Conet.Core.Timewheel
  Conet.Core.TimewheelScan Conet.Core.TimewheelInv

universe u

variable {H : Type u} [DecidableEq H]

/-- The handle was cancelled and has not been armed again since. -/
def cancelled (log : List (Event H)) (h : H) : Bool :=
  log.foldl (fun c e => match e with
    | .armed g => c && g != h
    | .cancelled g => c || g == h
    | .called _ => c) false

/-- No `fn` is called between the cancelling of its handle and the next arming. -/
def CancelSafe (log : List (Event H)) : Prop :=
  ∀ before h after, log = before ++ .called h :: after → cancelled before h = false

/-- What the events so far say about the lists of the wheel. -/
structure Settled (log : List (Event H)) (L : Head → List H) : Prop where
  safe : CancelSafe log
  off : ∀ h k, cancelled log h = true → h ∉ L k

section Logs

variable {log log' : List (Event H)} {h g : H} {hs : List H} {L L' : Head → List H}

@[simp] theorem cancelled_called : cancelled (log ++ [.called g]) h = cancelled log h := by
  simp [cancelled]

theorem cancelled_cancels :
    cancelled (log ++ hs.map .cancelled) h = (cancelled log h || decide (h ∈ hs)) := by
  induction hs generalizing log with
  | nil => simp
  | cons g hs ih =>
    have step : cancelled (log ++ [.cancelled g]) h = (cancelled log h || g == h) := by
      simp [cancelled]
    rw [List.map_cons, List.append_cons, ih, step, Bool.or_assoc]
    congr 1
    by_cases hg : h = g
    · simp [hg]
    · simp [hg, Ne.symm hg]

theorem CancelSafe.of_prefix (safe : CancelSafe log') (pre : log <+: log') : CancelSafe log := by
  obtain ⟨t, rfl⟩ := pre
  intro before h after eq
  exact safe before h (after ++ t) (by simp [eq])

theorem cancelSafe_called (safe : CancelSafe log) (live : cancelled log h = false) :
    CancelSafe (log ++ [.called h]) := by
  intro before g after eq
  rcases List.eq_nil_or_concat after with rfl | ⟨after, e, rfl⟩
  · obtain ⟨rfl, e⟩ := List.append_inj' eq rfl
    cases e
    exact live
  · have eq' : log ++ [.called h] = (before ++ .called g :: after) ++ [e] := by simp [eq]
    exact safe before g after (List.append_inj' eq' rfl).1

theorem cancelSafe_cancels (safe : CancelSafe log) : CancelSafe (log ++ hs.map .cancelled) := by
  intro before g after eq
  rcases List.append_eq_append_iff.mp eq with ⟨mid, rfl, tail⟩ | ⟨mid, rfl, tail⟩
  · have hmem : Event.called g ∈ hs.map Event.cancelled := by simp [tail]
    simp at hmem
  · cases mid with
    | nil =>
      have hmem : Event.called g ∈ hs.map Event.cancelled := by
        rw [show hs.map Event.cancelled = _ from tail.symm]
        simp
      simp at hmem
    | cons e mid =>
      obtain ⟨rfl, -⟩ := List.cons.inj tail
      exact safe before g mid (by simp)

/-- A linked handle may be called; what its callback cancels must be off the lists after it. -/
theorem Settled.call (settled : Settled log L) {k : Head} (on : h ∈ L k)
    (kept : ∀ g k, g ∈ L' k → (g = h ∨ ∃ k, g ∈ L k) ∧ g ∉ hs) :
    Settled (log ++ .called h :: hs.map .cancelled) L' := by
  have live : cancelled log h = false := by
    cases hc : cancelled log h with
    | false => rfl
    | true => exact absurd on (settled.off h k hc)
  rw [List.append_cons]
  refine ⟨cancelSafe_cancels (cancelSafe_called settled.safe live), ?_⟩
  intro g k' hc hg
  obtain ⟨was, hgs⟩ := kept g k' hg
  have hc' : cancelled log g = true := by
    rw [cancelled_cancels, cancelled_called] at hc
    simpa [hgs] using hc
  rcases was with rfl | ⟨k'', hg⟩
  · rw [live] at hc'
    cases hc'
  · exact settled.off g k'' hc' hg

end Logs

section Check

variable {clk : Clock} {cs : Callbacks H} {s : Scan H} {L : Head → List H}
  {passed rest post : List H} {left : ℕ} {h m : H} {w : Wheel H}

theorem fire_log (cs : Callbacks H) (clk : Clock) (w : Wheel H) (h : H) :
    (fire cs clk w h).log = w.log ++ .called h :: (cs w.log h).map .cancelled := by
  obtain ⟨links, taskNum, tw, eq⟩ := fire_fields cs clk w h
  rw [eq]

/-- `Ahead`, at any point of `check`. -/
def AheadAt (clk : Clock) : CheckAt H → Prop
  | .enter _ _ => True
  | .scan s => Ahead clk s

theorem Settled.fire {w : Wheel H} {k : Head} (settled : Settled w.log L) (rings : Rings w.links L)
    (on : h ∈ L k) : Settled (Timewheel.fire cs clk w h).log
      (fun k => (rearmed clk w L h k).filter (· ∉ cs w.log h)) := by
  rw [fire_log]
  refine settled.call on fun g k hg => ?_
  obtain ⟨hmem, hcs⟩ := List.mem_filter.mp hg
  refine ⟨?_, by simpa using hcs⟩
  rcases (mem_rearmed clk rings).mp hmem with ⟨hmem, -⟩ | ⟨e, -, -⟩
  · exact .inr ⟨k, hmem⟩
  · exact .inl e

/-- From some turn of the call on no handle comes back to the slot under scan while it is due. -/
def Calms (cs : Callbacks H) (clk : Clock) (w : Wheel H) (cur : ℕ) : Prop :=
  ∃ a, Loop.Reaches (check cs clk) (.enter w cur) a ∧
    ∀ b, Loop.Reaches (check cs clk) a b → AheadAt clk b

/-- The scan keeps the intervals and the time of the wheel, and the clock moves on. -/
structure Keeping (w : Wheel H) (cur : ℕ) (s : Scan H) : Prop where
  interval : s.c.st.w.interval = w.interval
  prevMs : s.c.st.w.prevMs = w.prevMs
  reads : w.reads ≤ s.c.st.w.reads
  curMs : s.curMs = cur

theorem Keeping.fired {cur : ℕ} (keeping : Keeping w cur s) (h : H) :
    Keeping w cur (advance s (TimewheelScan.fired cs clk s.c.st h)) := by
  obtain ⟨links, taskNum, tw, eq⟩ := fire_fields cs clk s.c.st.w h
  refine ⟨?_, ?_, ?_, keeping.curMs⟩
  · exact (congrArg Wheel.interval eq).trans keeping.interval
  · exact (congrArg Wheel.prevMs eq).trans keeping.prevMs
  · refine keeping.reads.trans ?_
    simp only [advance, TimewheelScan.fired, eq]
    split <;> omega

/-- A check for a time that the clock has reached is calm when no interval is negative. -/
theorem calms_of_clock {cur : ℕ} (nonneg : ∀ h, 0 ≤ w.interval h) (ints : ∀ h, w.interval h < 2 ^ 31)
    (clock : w.prevMs ≤ clk.read w.reads) (now : cur ≤ clk.read w.reads) : Calms cs clk w cur := by
  have cur_le := checkCurMs_le now
  refine ⟨_, .start, fun b reach => ?_⟩
  let kept (b : CheckAt H) : Prop :=
    b = .enter w cur ∨ ∃ s, b = .scan s ∧ Keeping (entered w cur) (checkCurMs clk w cur) s
  have turn : ∀ b a, kept b → check cs clk b = .again a → kept a := by
    rintro _ a (rfl | ⟨s, rfl, keeping⟩) again
    · rw [check_enter] at again
      split_ifs at again
      cases again
      exact .inr ⟨_, rfl, rfl, rfl, le_rfl, rfl⟩
    · obtain ⟨s', rfl, rfl | rfl | ⟨h, -, rfl⟩⟩ := check_scan_again again
      · exact .inr ⟨_, rfl, { keeping with }⟩
      · exact .inr ⟨_, rfl, { keeping with }⟩
      · exact .inr ⟨_, rfl, keeping.fired h⟩
  obtain rfl | ⟨s, rfl, keeping⟩ : kept b := reach.invariant (.inl rfl) turn
  · trivial
  · intro h m _ _ _ hi _
    have entry : w.prevMs ≤ clk.read (entered w cur).reads := by
      refine clock.trans (clk.mono ?_)
      simp only [entered]
      split <;> omega
    have mono := clk.mono keeping.reads
    have bound := clk.bound s.c.st.w.reads
    have same : s.c.st.w.interval = w.interval := keeping.interval
    rw [same] at hi ⊢
    have pos : 0 < w.interval h := lt_of_le_of_ne (nonneg h) (Ne.symm hi)
    have prev : s.c.st.w.prevMs ≤ clk.read s.c.st.w.reads := keeping.prevMs.trans_le (entry.trans mono)
    have at_deadline := deadline_eq clk s.c.st.w pos (ints h) prev
    have small := ints h
    rw [Bool.eq_false_iff, ne_eq, keeping.curMs, timeAfterEq_iff (by omega) (by omega)]
    omega

end Check

section Now

variable {clk : Clock} {cs : Callbacks H} {L : Head → List H} {rest post : List H} {h m : H}
  {w : Wheel H} {c : SafeCursor (Node Head H) (Wheel H)}

/-- The batch is being run and the log agrees with the queue. -/
def Running (i : ℕ) (c : SafeCursor (Node Head H) (Wheel H)) : Prop :=
  ∃ L rest, Rings c.st.links L ∧ OnRing L .queue c [] rest ∧
    Settled c.st.log (fun _ => L .queue) ∧ i = rest.length

end Now

section Calls

variable {clk : Clock} {cs : Callbacks H} {L : Head → List H} {w : Wheel H} {cur : ℕ}

end Calls

end Conet.Core.TimewheelCancel
