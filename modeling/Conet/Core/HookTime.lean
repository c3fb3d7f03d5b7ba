/- Module: Conet/Core/HookTime
   source: core/src/network_hook.cpp, core/src/pthread_hook.cpp, core/src/network.cpp
   digest: The milliseconds that the hooked functions make of the times they are given. -/

import Conet.Base.Pbc
import Conet.Core.Timewheel

set_option autoImplicit false
set_option relaxedAutoImplicit false

namespace Conet.Core.HookTime

open Conet.Base.Pbc Conet.Base.ListHead

/-- `struct timespec`. -/
structure Timespec where
  tvSec : Int64
  tvNsec : Int64

/-- `struct timeval`. -/
structure Timeval where
  tvSec : Int64
  tvUsec : Int64

/-- A result of `long` arithmetic, if it has one. -/
def long (x : ℤ) : Option ℤ := if -2 ^ 63 ≤ x ∧ x < 2 ^ 63 then some x else none

/-- `tv_sec*1000 + part`, the `part` being what the smaller unit makes of milliseconds. -/
def millis (sec part : ℤ) : Option ℤ := (long (sec * 1000)).bind fun ms => long (ms + part)

section Hooks

/-- What a function does with its time: it leaves it to the real function, refuses it, goes to the back
of the queue, polls for some milliseconds or stores them, or it runs into a signed overflow. -/
inductive Wait
  | real
  | invalid
  | back
  | poll (timeout : ℤ)
  | stored (timeout : ℤ)
  | undefined
  deriving DecidableEq

def sleep (enabled : Bool) (s : UInt32) : Wait :=
  if !enabled then .real
  else if s = 0 then .back
  else .poll (toInt32 (s * 1000).toNat)

def usleep (enabled : Bool) (us : UInt32) : Wait :=
  if !enabled then .real
  else if us = 0 then .back
  else .poll (toInt32 ((us + 999) / 1000).toNat)

def nanosleep (enabled : Bool) (req : Option Timespec) : Wait :=
  if !enabled then .real
  else
    match req with
    | none => .invalid
    | some req =>
      match (long (req.tvNsec.toInt + 999999)).bind fun nsec =>
        millis req.tvSec.toInt (nsec.tdiv 1000000) with
      | none => .undefined
      | some ms => if toInt32 ms = 0 then .back else .poll (toInt32 ms)

def ppoll (enabled : Bool) (nfds : ℕ) (timeoutTs : Option Timespec) : Wait :=
  if !enabled then .real
  else
    match timeoutTs with
    | none => if nfds = 0 then usleep enabled 0 else .real
    | some ts =>
      if ts.tvSec = 0 ∧ ts.tvNsec = 0 then if nfds = 0 then usleep enabled 0 else .real
      else
        match millis ts.tvSec.toInt (ts.tvNsec.toInt.tdiv 1000000) with
        | none => .undefined
        | some ms => .poll (toInt32 ms)

def select (enabled : Bool) (timeout : Option Timeval) : Wait :=
  if !enabled then .real
  else
    match timeout with
    | none => .poll 0
    | some t =>
      match millis t.tvSec.toInt (t.tvUsec.toInt.tdiv 1000) with
      | none => .undefined
      | some ms => .poll (toInt32 ms)

/-- `SO_RCVTIMEO` and `SO_SNDTIMEO`, and the fields of a context for them. -/
inductive TimeOpt
  | rcvtimeo
  | sndtimeo
  deriving DecidableEq

/-- `setsockopt` with an option of the size of a `timeval`: what it does with the field of a context,
if the descriptor has one. -/
def setsockopt (enabled managed solSocket : Bool) (optionName : Option TimeOpt) (value : Timeval) : Wait :=
  if !enabled then .real
  else if managed ∧ solSocket then
    match optionName with
    | none => .real
    | some _ =>
      match millis value.tvSec.toInt (value.tvUsec.toInt.tdiv 1000) with
      | none => .undefined
      | some ms => .stored (toInt32 ms)
  else .real

/-- `poll_ctx_t::init` sets a timer for a timeout that is not negative. -/
def unlimited (timeout : ℤ) : Prop := timeout < 0

inductive Request
  | sleep (s : UInt32)
  | usleep (us : UInt32)
  | nanosleep (req : Timespec)
  | ppoll (nfds : ℕ) (timeoutTs : Timespec)
  | select (timeout : Timeval)
  | setsockopt (optionName : TimeOpt) (value : Timeval)

namespace Request

/-- What is done with the time, the descriptor of a socket option being `managed` or not. -/
def wait (enabled managed : Bool) : Request → Wait
  | sleep s => HookTime.sleep enabled s
  | usleep us => HookTime.usleep enabled us
  | nanosleep req => HookTime.nanosleep enabled (some req)
  | ppoll nfds ts => HookTime.ppoll enabled nfds (some ts)
  | select t => HookTime.select enabled (some t)
  | setsockopt name t => HookTime.setsockopt enabled managed true (some name) t

/-- The duration in milliseconds, rounded up or towards zero. -/
def requested : Request → ℤ
  | sleep s => s.toNat * 1000
  | usleep us => (us.toNat + 999) / 1000
  | nanosleep t => (t.tvSec.toInt * 1000000000 + t.tvNsec.toInt + 999999) / 1000000
  | ppoll _ t => (t.tvSec.toInt * 1000000000 + t.tvNsec.toInt).tdiv 1000000
  | select t => (t.tvSec.toInt * 1000000 + t.tvUsec.toInt).tdiv 1000
  | setsockopt _ t => (t.tvSec.toInt * 1000000 + t.tvUsec.toInt).tdiv 1000

/-- A zero option, which stands for no timeout. -/
def Untimed : Request → Prop
  | setsockopt _ t => t.tvSec = 0 ∧ t.tvUsec = 0
  | _ => False

/-- The milliseconds are not negative and not fewer than requested; those that are stored for a zero
option let a poll wait without limit. -/
def Meets (r : Request) : Wait → Prop
  | .real => True
  | .invalid => False
  | .back => r.requested ≤ 0
  | .poll timeout => 0 ≤ timeout ∧ r.requested ≤ timeout
  | .stored timeout =>
    (r.Untimed → unlimited timeout) ∧ (¬ r.Untimed → 0 ≤ timeout ∧ r.requested ≤ timeout)
  | .undefined => False

/-- `sec*1000 + part` fits into an `int`, or it is a negative number whose low 32 bits do not stand for
one. -/
def Fits (sec part : ℤ) : Prop :=
  (0 ≤ sec * 1000 + part ∧ sec * 1000 + part < 2 ^ 31) ∨
  (sec * 1000 + part < 0 ∧ (sec * 1000 + part) % 2 ^ 32 < 2 ^ 31 ∧ -2 ^ 63 ≤ sec * 1000 ∧
    -2 ^ 63 ≤ sec * 1000 + part)

/-- The times that the functions can do with. -/
def Suits : Request → Prop
  | sleep s => s.toNat * 1000 < 2 ^ 31
  | usleep us => us.toNat + 999 < 2 ^ 32
  | nanosleep t => t.tvNsec.toInt + 999999 < 2 ^ 63 ∧
    Fits t.tvSec.toInt ((t.tvNsec.toInt + 999999).tdiv 1000000)
  | ppoll _ t => Fits t.tvSec.toInt (t.tvNsec.toInt.tdiv 1000000)
  | select t => Fits t.tvSec.toInt (t.tvUsec.toInt.tdiv 1000)
  | setsockopt _ t => ¬ (t.tvSec = 0 ∧ t.tvUsec = 0) ∧ Fits t.tvSec.toInt (t.tvUsec.toInt.tdiv 1000)

end Request

end Hooks

section Narrowing

theorem tdiv_cases (a b : ℤ) : (0 ≤ a ∧ a.tdiv b = a / b) ∨ (a < 0 ∧ a.tdiv b = -(-a / b)) := by
  by_cases sign : 0 ≤ a
  · exact .inl ⟨sign, Int.tdiv_eq_ediv_of_nonneg sign⟩
  · refine .inr ⟨by omega, ?_⟩
    rw [← Int.tdiv_eq_ediv_of_nonneg (show 0 ≤ -a by omega), Int.neg_tdiv, neg_neg]

theorem long_of_le {x : ℤ} (ge : -2 ^ 63 ≤ x) (lt : x < 2 ^ 63) : long x = some x := if_pos ⟨ge, lt⟩

theorem millis_eq_some {sec part ms : ℤ} : millis sec part = some ms ↔
    (-2 ^ 63 ≤ sec * 1000 ∧ sec * 1000 < 2 ^ 63) ∧
    (-2 ^ 63 ≤ sec * 1000 + part ∧ sec * 1000 + part < 2 ^ 63) ∧ ms = sec * 1000 + part := by
  unfold millis long
  split_ifs with first
  · rw [Option.bind_some]
    split_ifs with second
    · rw [Option.some_inj, and_iff_right first, and_iff_right second, eq_comm]
    · exact iff_of_false (by simp) fun h => second h.2.1
  · exact iff_of_false (by simp) fun h => first h.1

/-- The low 32 bits of `m` are at least what was asked for, `m` being that with its fraction dropped or
rounded up. -/
theorem toInt32_enough {m asked : ℤ} (le : 0 ≤ m → asked ≤ m) (neg : m < 0 → asked ≤ 0)
    (near : m ≤ asked + 1) : (0 ≤ toInt32 m ∧ asked ≤ toInt32 m) ↔
      (0 ≤ m ∧ m < 2 ^ 31) ∨ (m < 0 ∧ m % 2 ^ 32 < 2 ^ 31) := by
  unfold toInt32
  omega

theorem millis_enough {sec part asked : ℤ} (small : -2 ^ 62 ≤ part ∧ part ≤ 2 ^ 62)
    (le : 0 ≤ sec * 1000 + part → asked ≤ sec * 1000 + part) (neg : sec * 1000 + part < 0 → asked ≤ 0)
    (near : sec * 1000 + part ≤ asked + 1) :
    (∃ ms, millis sec part = some ms ∧ 0 ≤ toInt32 ms ∧ asked ≤ toInt32 ms) ↔ Request.Fits sec part := by
  have enough := toInt32_enough le neg near
  constructor
  · rintro ⟨ms, some, fits⟩
    obtain ⟨sec', sum, rfl⟩ := millis_eq_some.mp some
    rcases enough.mp fits with low | ⟨below, low⟩
    · exact .inl low
    · exact .inr ⟨below, low, sec'.1, sum.1⟩
  · intro fits
    refine ⟨sec * 1000 + part, millis_eq_some.mpr ?_, enough.mpr ?_⟩
    · unfold Request.Fits at fits
      omega
    · exact fits.imp_right fun h => ⟨h.1, h.2.1⟩

end Narrowing

namespace Request

section Conform

/-- The functions of `network_hook` handle the call themselves. -/
def Taken (enabled managed : Bool) : Request → Prop
  | setsockopt _ _ => enabled = true ∧ managed = true
  | _ => enabled = true

theorem sleep_meets (s : UInt32) : (sleep s).Meets (HookTime.sleep true s) ↔ (sleep s).Suits := by
  have product : ((s * 1000).toNat : ℤ) = (s.toNat : ℤ) * 1000 % 4294967296 := by
    rw [UInt32.toNat_mul]
    push_cast
    rfl
  by_cases zero : s = 0
  · subst zero
    simp [Meets, HookTime.sleep, Suits, requested]
  · simp only [HookTime.sleep, Bool.not_true, Bool.false_eq_true, if_false, if_neg zero, Meets, requested,
      Suits, product]
    by_cases small : s.toNat * 1000 < 2 ^ 31
    · have low : (s.toNat : ℤ) * 1000 % 4294967296 = s.toNat * 1000 := by omega
      rw [low, toInt32_of_lt (by omega) (by omega)]
      exact iff_of_true ⟨by omega, le_rfl⟩ small
    · refine iff_of_false (fun meets => ?_) small
      have top := meets.2
      unfold toInt32 at top
      omega

theorem usleep_meets (us : UInt32) : (usleep us).Meets (HookTime.usleep true us) ↔ (usleep us).Suits := by
  have sum : (((us + 999) / 1000).toNat : ℤ) = ((us.toNat : ℤ) + 999) % 4294967296 / 1000 := by
    rw [UInt32.toNat_div, UInt32.toNat_add]
    push_cast
    rfl
  have small := us.toNat_lt
  by_cases zero : us = 0
  · subst zero
    simp [Meets, HookTime.usleep, Suits, requested]
  · simp only [HookTime.usleep, Bool.not_true, Bool.false_eq_true, if_false, if_neg zero, Meets,
      requested, Suits, sum, toInt32]
    omega

theorem nanosleep_meets (t : Timespec) :
    (nanosleep t).Meets (HookTime.nanosleep true (some t)) ↔ (nanosleep t).Suits := by
  have ge := t.tvNsec.le_toInt
  have lt := t.tvNsec.toInt_lt
  simp only [HookTime.nanosleep, Bool.not_true, Bool.false_eq_true, if_false, Suits]
  by_cases sum : t.tvNsec.toInt + 999999 < 2 ^ 63
  · have part := tdiv_cases (t.tvNsec.toInt + 999999) 1000000
    have enough : _ ↔ Fits t.tvSec.toInt ((t.tvNsec.toInt + 999999).tdiv 1000000) :=
      @millis_enough _ _ ((t.tvSec.toInt * 1000000000 + t.tvNsec.toInt + 999999) / 1000000)
        (by omega) (by omega) (by omega) (by omega)
    rw [long_of_le (by omega) sum, Option.bind_some, and_iff_right sum, ← enough]
    cases millis t.tvSec.toInt ((t.tvNsec.toInt + 999999).tdiv 1000000) with
    | none => simp [Meets]
    | some ms =>
      simp only [Option.some_inj, exists_eq_left']
      split_ifs with zero
      · simp [Meets, requested, zero]
      · exact Iff.rfl
  · have overflow : long (t.tvNsec.toInt + 999999) = none := if_neg fun h => sum h.2
    rw [overflow, Option.bind_none]
    exact iff_of_false id fun h => sum h.1

theorem ppoll_meets (nfds : ℕ) (t : Timespec) :
    (ppoll nfds t).Meets (HookTime.ppoll true nfds (some t)) ↔ (ppoll nfds t).Suits := by
  have ge := t.tvNsec.le_toInt
  have lt := t.tvNsec.toInt_lt
  have part := tdiv_cases t.tvNsec.toInt 1000000
  have total := tdiv_cases (t.tvSec.toInt * 1000000000 + t.tvNsec.toInt) 1000000
  have enough : _ ↔ Fits t.tvSec.toInt (t.tvNsec.toInt.tdiv 1000000) :=
    @millis_enough _ _ ((t.tvSec.toInt * 1000000000 + t.tvNsec.toInt).tdiv 1000000)
      (by omega) (by omega) (by omega) (by omega)
  simp only [HookTime.ppoll, Bool.not_true, Bool.false_eq_true, if_false, Suits]
  by_cases zero : t.tvSec = 0 ∧ t.tvNsec = 0
  · rw [if_pos zero, zero.1, zero.2]
    refine iff_of_true ?_ (.inl (by decide))
    by_cases none : nfds = 0
    · rw [if_pos none]
      simp [HookTime.usleep, Meets, requested, zero.1, zero.2]
    · rw [if_neg none]
      trivial
  · rw [if_neg zero, ← enough]
    cases millis t.tvSec.toInt (t.tvNsec.toInt.tdiv 1000000) with
    | none => simp [Meets]
    | some ms => simp [Meets, requested]

theorem usec_enough (t : Timeval) : (∃ ms, millis t.tvSec.toInt (t.tvUsec.toInt.tdiv 1000) = some ms ∧
    0 ≤ toInt32 ms ∧ (t.tvSec.toInt * 1000000 + t.tvUsec.toInt).tdiv 1000 ≤ toInt32 ms) ↔
      Fits t.tvSec.toInt (t.tvUsec.toInt.tdiv 1000) := by
  have ge := t.tvUsec.le_toInt
  have lt := t.tvUsec.toInt_lt
  have part := tdiv_cases t.tvUsec.toInt 1000
  have total := tdiv_cases (t.tvSec.toInt * 1000000 + t.tvUsec.toInt) 1000
  apply millis_enough <;> omega

theorem select_meets (t : Timeval) :
    (select t).Meets (HookTime.select true (some t)) ↔ (select t).Suits := by
  simp only [HookTime.select, Bool.not_true, Bool.false_eq_true, if_false, Suits]
  rw [← usec_enough t]
  cases millis t.tvSec.toInt (t.tvUsec.toInt.tdiv 1000) with
  | none => simp [Meets]
  | some ms => simp [Meets, requested]

theorem setsockopt_meets (name : TimeOpt) (t : Timeval) :
    (setsockopt name t).Meets (HookTime.setsockopt true true true (some name) t) ↔
      (setsockopt name t).Suits := by
  simp only [HookTime.setsockopt, Bool.not_true, Bool.false_eq_true, if_false, and_self, if_true, Suits]
  by_cases zero : t.tvSec = 0 ∧ t.tvUsec = 0
  · -- a zero option is stored as the time of zero
    have ms : millis t.tvSec.toInt (t.tvUsec.toInt.tdiv 1000) = some 0 := by
      rw [zero.1, zero.2]
      rfl
    rw [ms]
    apply iff_of_false
    · intro meets
      have negative : toInt32 0 < 0 := meets.1 zero
      exact absurd negative (by decide)
    · exact fun h => h.1 zero
  · rw [and_iff_right zero, ← usec_enough t]
    cases millis t.tvSec.toInt (t.tvUsec.toInt.tdiv 1000) with
    | none => simp [Meets]
    | some ms => simp [Meets, Untimed, zero, requested]

/-- The milliseconds are as promised for exactly those times that suit the arithmetic. -/
theorem meets_iff (r : Request) (enabled managed : Bool) :
    r.Meets (r.wait enabled managed) ↔ (r.Taken enabled managed → r.Suits) := by
  cases enabled with
  | false =>
    have off : ¬ r.Taken false managed := by cases r <;> simp [Taken]
    refine iff_of_true ?_ fun taken => absurd taken off
    cases r <;> trivial
  | true =>
    cases r with
    | sleep s => exact (sleep_meets s).trans (imp_iff_right rfl).symm
    | usleep us => exact (usleep_meets us).trans (imp_iff_right rfl).symm
    | nanosleep t => exact (nanosleep_meets t).trans (imp_iff_right rfl).symm
    | ppoll nfds t => exact (ppoll_meets nfds t).trans (imp_iff_right rfl).symm
    | select t => exact (select_meets t).trans (imp_iff_right rfl).symm
    | setsockopt name t =>
      cases managed with
      | false =>
        refine iff_of_true trivial fun taken => ?_
        cases taken.2
      | true => exact (setsockopt_meets name t).trans (imp_iff_right ⟨rfl, rfl⟩).symm

/-- A sleep of 25 days waits without limit, and a zero option lets every receive time out at once. -/
theorem not_met : ¬ (∀ (r : Request) (enabled managed : Bool), r.Meets (r.wait enabled managed)) ∧
    ¬ (sleep 2160000).Meets ((sleep 2160000).wait true false) ∧
    ¬ (setsockopt .rcvtimeo ⟨0, 0⟩).Meets ((setsockopt .rcvtimeo ⟨0, 0⟩).wait true true) := by
  have forever : ¬ (sleep 2160000).Meets ((sleep 2160000).wait true false) := by
    intro meets
    exact absurd ((sleep_meets 2160000).mp meets) (by unfold Suits; decide)
  refine ⟨fun meets => forever (meets _ _ _), forever, fun meets => ?_⟩
  exact ((setsockopt_meets .rcvtimeo ⟨0, 0⟩).mp meets).1 ⟨rfl, rfl⟩

end Conform

end Request

section Deadline

/-- What `pthread_cond_timedwait` does with its deadline: it leaves it to the real function, waits
without a timer, refuses it, runs into a signed overflow or calls `set_timeout`. -/
inductive TimedWait
  | real
  | untimed
  | einval
  | undefined
  | arms (timeout : ℤ)
  deriving DecidableEq

def pthreadCondTimedwait (enabled : Bool) (abstime : Option Timespec) (now : UInt64) : TimedWait :=
  if !enabled then .real
  else
    match abstime with
    | none => .untimed
    | some abstime =>
      if abstime.tvSec ≤ 0 then .einval
      else if abstime.tvNsec ≥ 1000000000 then .einval
      else
        match millis abstime.tvSec.toInt (abstime.tvNsec.toInt.tdiv 1000000) with
        | none => .undefined
        | some ms =>
          let timeout := (ms % 2 ^ 64).toNat
          let timeout := if timeout < now.toNat then 0 else timeout
          .arms (toInt32 (((timeout : ℤ) - now.toNat) % 2 ^ 64))

/-- The delay of a timer without interval: up to 0, `set_timeout_impl` puts it on the now list. -/
def delay (timeout : ℤ) : ℤ := if timeout ≤ 0 then 0 else timeout

namespace Timespec

def Accepted (abstime : Timespec) : Prop := ¬ abstime.tvSec ≤ 0 ∧ ¬ abstime.tvNsec ≥ 1000000000

def ms (abstime : Timespec) : ℤ := abstime.tvSec.toInt * 1000 + abstime.tvNsec.toInt.tdiv 1000000

/-- A deadline that is less than 2^31 milliseconds ahead, or one that has passed, at a time whose low
32 bits do not exceed 2^31; a negative deadline that is still ahead as a `uint64_t` counts from
itself. -/
def Timely (abstime : Timespec) (now : UInt64) : Prop :=
  (abstime.tvSec.toInt * 1000 < 2 ^ 63 ∧ abstime.ms < 2 ^ 63) ∧
  if (now.toNat : ℤ) ≤ abstime.ms then abstime.ms - now.toNat < 2 ^ 31
  else if 0 ≤ abstime.ms ∨ 2 ^ 64 + abstime.ms < now.toNat then (now.toNat : ℤ) % 2 ^ 32 ≤ 2 ^ 31
  else (now.toNat - abstime.ms) % 2 ^ 32 ≤ 2 ^ 31

end Timespec

/-- The timer is armed with the time up to the deadline exactly if that is timely. -/
theorem delay_iff {abstime : Timespec} (accepted : abstime.Accepted) (now : UInt64) :
    (∃ timeout, pthreadCondTimedwait true (some abstime) now = .arms timeout ∧
      delay timeout = max 0 (abstime.ms - now.toNat)) ↔ abstime.Timely now := by
  have positive : 0 < abstime.tvSec.toInt := by
    have sec := accepted.1
    rw [Int64.le_iff_toInt_le] at sec
    exact not_le.mp sec
  have ge := abstime.tvNsec.le_toInt
  have lt := abstime.tvNsec.toInt_lt
  have part := tdiv_cases abstime.tvNsec.toInt 1000000
  have clock := now.toNat_lt
  simp only [pthreadCondTimedwait, Bool.not_true, Bool.false_eq_true, if_false, if_neg accepted.1,
    if_neg accepted.2]
  by_cases fits : abstime.tvSec.toInt * 1000 < 2 ^ 63 ∧ abstime.ms < 2 ^ 63
  · have some : millis abstime.tvSec.toInt (abstime.tvNsec.toInt.tdiv 1000000) = some abstime.ms := by
      rw [millis_eq_some]
      unfold Timespec.ms at fits ⊢
      omega
    have low : -2 ^ 63 ≤ abstime.ms := by
      unfold Timespec.ms
      omega
    rw [some, Timespec.Timely, and_iff_right fits]
    simp only [TimedWait.arms.injEq, exists_eq_left']
    generalize abstime.ms = ms at *
    generalize now.toNat = now at *
    -- the clamp, the three kinds of deadline, and the sign of the timeout
    unfold delay toInt32
    by_cases clamped : (ms % 2 ^ 64).toNat < now
    · rw [if_pos clamped]
      split_ifs <;> omega
    · rw [if_neg clamped]
      split_ifs <;> omega
  · have none : millis abstime.tvSec.toInt (abstime.tvNsec.toInt.tdiv 1000000) = none := by
      rw [Option.eq_none_iff_forall_ne_some]
      intro ms some
      obtain ⟨sec, sum, -⟩ := millis_eq_some.mp some
      exact fits ⟨sec.2, sum.2⟩
    rw [none]
    exact iff_of_false (by simp) fun timely => fits timely.1

/-- A deadline that is a second ahead. -/
theorem delay_second : ∃ timeout,
    pthreadCondTimedwait true (some ⟨1700000000, 0⟩) 1699999999000 = .arms timeout ∧
      delay timeout = max 0 ((⟨1700000000, 0⟩ : Timespec).ms - (1699999999000 : UInt64).toNat) := by
  apply (delay_iff (by unfold Timespec.Accepted; decide) _).mpr
  unfold Timespec.Timely
  decide

/-- A deadline that has long passed is waited for nine days. -/
theorem past_not_now : ¬ ∀ abstime : Timespec, abstime.Accepted → ∀ now : UInt64,
    ∃ timeout, pthreadCondTimedwait true (some abstime) now = .arms timeout ∧
      delay timeout = max 0 (abstime.ms - now.toNat) := by
  intro now
  obtain ⟨timeout, arms, same⟩ :=
    now ⟨1, 0⟩ (by unfold Timespec.Accepted; decide) 1700000000000
  have waits : pthreadCondTimedwait true (some ⟨1, 0⟩) 1700000000000 = .arms 807049216 := by decide
  rw [waits] at arms
  cases arms
  exact absurd same (by decide)

end Deadline

end Conet.Core.HookTime
