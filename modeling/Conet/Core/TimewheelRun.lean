/- Module: Conet/Core/TimewheelRun
   source: core/src/timewheel.cpp
   digest: Whole runs of one wheel against the timer service it is meant to be. -/

import Conet.Core.TimewheelInv
import Conet.Core.TimerService

set_option autoImplicit false
set_option relaxedAutoImplicit false

namespace Conet.Core.TimewheelRun

open Conet.Lib Conet.Base.ListHead Conet.Base.ListRings Conet.Core.Timewheel
  Conet.Core.TimewheelScan Conet.Core.TimewheelInv Conet.Core.TimerService

universe u

variable {H : Type u} [DecidableEq H]

inductive Op (H : Type u)
  | setTimeout (obj : H) (timeout : ℤ)
  | setInterval (obj : H) (interval : ℤ)
  | cancelTimeout (obj : H)
  | doNowTask
  | check

/-- The handles called by the events after the first `n`. -/
def callsFrom (n : ℕ) (log : List (Event H)) : List H :=
  (log.drop n).filterMap fun e => match e with
    | .called h => some h
    | _ => none

/-- The deadline that `set_timeout` promises. -/
def promised (clk : Clock) (w : Wheel H) (timeout : ℤ) : ℕ := (clk.read w.reads + timeout).toNat

/-- One call, with callbacks that leave the wheel alone. The time given to `check` is a reading of
the same clock. -/
inductive Exec (clk : Clock) (w : Wheel H) : Op H → Obs H → Wheel H → Prop
  | setTimeout (obj : H) (timeout : ℤ) :
      Exec clk w (.setTimeout obj timeout)
        (.armed obj (if timeout ≤ 0 then .now else .due (promised clk w timeout) 0))
        (setTimeout clk w obj timeout)
  | setInterval (obj : H) (interval : ℤ) :
      Exec clk w (.setInterval obj interval)
        (.armed obj (.due (promised clk w interval) interval)) (setInterval clk w obj interval)
  | cancelTimeout (obj : H) :
      Exec clk w (.cancelTimeout obj) (.cancelled obj) (userCancel w obj)
  | doNowTask {r : Wheel H}
      (returns : Loop.Returns (doNowTask .none clk) (doNowStart { w with delayTask := false }) r) :
      Exec clk w .doNowTask (.ranNow (callsFrom w.log.length r.log)) r
  | check {r : Walk H}
      (returns : Loop.Returns (check .none clk)
        (.enter { w with reads := w.reads + 1 } (clk.read w.reads)) r) :
      Exec clk w .check
        (.checked w.prevMs (checkCurMs clk { w with reads := w.reads + 1 } (clk.read w.reads))
          (callsFrom w.log.length r.w.log))
        r.w

/-- What the callers promise: delays are `int`s, intervals are positive, and a handle is armed only
when it is not armed already. -/
def Allowed (w : Wheel H) : Op H → Prop
  | .setTimeout obj timeout => listEmpty w.links (.item obj) = true ∧ timeout < 2 ^ 31
  | .setInterval obj interval =>
    listEmpty w.links (.item obj) = true ∧ 0 < interval ∧ interval < 2 ^ 31
  | _ => True

def OnNowList (w : Wheel H) (obj : H) : Prop :=
  ∃ hs : List H, Circular w.links (.head .nowList) (hs.map .item) ∧ obj ∈ hs

/-- The call is not a `cancel_timeout` of a handle in the now list that still has the deadline of an
earlier arming. -/
def Clean (w : Wheel H) : Op H → Prop
  | .cancelTimeout obj => ¬ (OnNowList w obj ∧ 0 < w.timeout obj)
  | _ => True

/-- Runs of a new wheel whose steps all meet `ok`. -/
inductive Run (clk : Clock) (slotNum : ℕ) (ok : Wheel H → Op H → Prop) :
    List (Obs H) → Wheel H → Prop
  | init : Run clk slotNum ok [] (Wheel.init clk slotNum)
  | step {tr : List (Obs H)} {w w' : Wheel H} {op : Op H} {o : Obs H} :
      Run clk slotNum ok tr w → ok w op → Exec clk w op o w' →
      Run clk slotNum ok (tr ++ [o]) w'

/-- The timers that a wheel stands for. -/
def pending (w : Wheel H) (L : Head → List H) : Service H := fun h =>
  if h ∈ L .nowList then some .now
  else if h ∈ L (.slot (w.timeout h &&& w.slotNumMask)) then
    some (.due (w.timeout h) (w.interval h))
  else none

section Pending

variable {clk : Clock} {w w' : Wheel H} {L L' : Head → List H} {A : List H} {h : H}

end Pending

section Steps

variable {clk : Clock} {w w' : Wheel H} {L L' : Head → List H} {A : List H} {h : H}

end Steps

section Runs

variable {clk : Clock} {n : ℕ} {tr : List (Obs H)} {w : Wheel H}

end Runs

end Conet.Core.TimewheelRun
