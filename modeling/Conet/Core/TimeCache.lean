/- Module: Conet/Core/TimeCache
   source: core/time_mgr.h, core/src/time_mgr.cpp, core/src/time_hook.cpp
   digest: The cached time of day, one thread that renews it and many that read it in any interleaving. -/

import Conet.Lib.Trace
import Mathlib.Algebra.Group.Int.Defs
import Mathlib.Data.Int.Notation
import Mathlib.Logic.Function.Basic

set_option autoImplicit false
set_option relaxedAutoImplicit false

namespace Conet.Core.TimeCache

open Conet.Lib

universe u

variable {T : Type u}

structure Timeval where
  sec : ℤ
  usec : ℤ
  deriving DecidableEq

/-- `tv_sec * 1000 + tv_usec/1000` as a `uint64_t`. -/
def Timeval.ms (t : Timeval) : ℤ := (t.sec * 1000 + t.usec.tdiv 1000) % 2 ^ 64

/-- Where the thread of `main_proc` is in `update_gettimeofday_cache`. -/
inductive Writer
  | top
  /-- in the real `gettimeofday`, which has stored `tv_sec` or `tv_usec`, in any order -/
  | storing (t : Timeval) (sec usec : Bool)
  /-- before `tvs_pos` -/
  | published
  /-- before `cur_ms` -/
  | advanced

/-- Where a thread is in the hooked `gettimeofday` or in `get_sys_ms`. `seen` is for the proof: how many times had been
published when it read `gettimeofday_cache`. -/
inductive Reader
  | top
  /-- before the read of `tv_sec` -/
  | loaded (slot seen : ℕ)
  /-- before the read of `tv_usec` -/
  | half (slot seen : ℕ) (sec : ℤ)
  /-- in `get_sys_ms` or `get_tick_ms`, before the read of `cur_ms` -/
  | asked (seen : ℕ)

structure State (T : Type u) where
  tvs : ℕ → Timeval
  tvsPos : ℕ
  /-- `gettimeofday_cache`, the number of a slot -/
  cache : Option ℕ
  curMs : ℤ
  writer : Writer
  reader : T → Reader
  /-- all times that have been published, oldest first -/
  times : List Timeval

inductive Event
  | none
  /-- A thread that has seen so many times is told `t`, when `now` times have been published. -/
  | told (t : Timeval) (seen now : ℕ)
  /-- The same for the milliseconds. -/
  | toldMs (ms : ℤ) (seen now : ℕ)

/-- Nothing but the order of the accesses of each thread is fixed, and the clock may say anything. -/
inductive Step [DecidableEq T] : State T → Event → State T → Prop
  | begin {s : State T} (t : Timeval) (here : s.writer = .top) :
      Step s .none { s with writer := .storing t false false }
  | storeSec {s : State T} (t : Timeval) (usec : Bool) (here : s.writer = .storing t false usec) :
      Step s .none
        { s with
          tvs := Function.update s.tvs s.tvsPos { s.tvs s.tvsPos with sec := t.sec }
          writer := .storing t true usec }
  | storeUsec {s : State T} (t : Timeval) (sec : Bool) (here : s.writer = .storing t sec false) :
      Step s .none
        { s with
          tvs := Function.update s.tvs s.tvsPos { s.tvs s.tvsPos with usec := t.usec }
          writer := .storing t sec true }
  | publish {s : State T} (t : Timeval) (here : s.writer = .storing t true true) :
      Step s .none
        { s with cache := some s.tvsPos, writer := .published, times := s.times ++ [t] }
  | advance {s : State T} (here : s.writer = .published) :
      Step s .none { s with tvsPos := (s.tvsPos + 1) % 100, writer := .advanced }
  | setMs {s : State T} (slot : ℕ) (here : s.writer = .advanced) (cache : s.cache = some slot) :
      Step s .none { s with curMs := (s.tvs slot).ms, writer := .top }
  | load {s : State T} (k : T) (slot : ℕ) (here : s.reader k = .top) (cache : s.cache = some slot) :
      Step s .none
        { s with reader := Function.update s.reader k (.loaded slot s.times.length) }
  | readSec {s : State T} (k : T) (slot seen : ℕ) (here : s.reader k = .loaded slot seen) :
      Step s .none
        { s with reader := Function.update s.reader k (.half slot seen (s.tvs slot).sec) }
  | readUsec {s : State T} (k : T) (slot seen : ℕ) (sec : ℤ) (here : s.reader k = .half slot seen sec) :
      Step s (.told ⟨sec, (s.tvs slot).usec⟩ seen s.times.length)
        { s with reader := Function.update s.reader k .top }
  | ask {s : State T} (k : T) (slot : ℕ) (here : s.reader k = .top) (cache : s.cache = some slot) :
      Step s .none { s with reader := Function.update s.reader k (.asked s.times.length) }
  | readMs {s : State T} (k : T) (seen : ℕ) (here : s.reader k = .asked seen) :
      Step s (.toldMs s.curMs seen s.times.length)
        { s with reader := Function.update s.reader k .top }

/-- The state when `main_proc` gets to its loop, after its `memset`. -/
def State.init : State T where
  tvs _ := ⟨0, 0⟩
  tvsPos := 0
  cache := none
  curMs := 0
  writer := .top
  reader _ := .top
  times := []

/-- The milliseconds of the last one of some times. -/
def lastMs (times : List Timeval) : ℤ := times.getLast?.elim 0 Timeval.ms

/-- The slot at `tvs_pos` is what has been stored of the time that comes. -/
def Stored (tv : Timeval) : Writer → Prop
  | .storing t sec usec => (sec = true → tv.sec = t.sec) ∧ (usec = true → tv.usec = t.usec)
  | _ => True

/-- How many slots the writer has moved on. -/
def moved (n : ℕ) : Writer → ℕ
  | .published => n - 1
  | _ => n

/-- The milliseconds lag behind while the writer is between the two stores. -/
def msOf (times : List Timeval) : Writer → ℤ
  | .published | .advanced => lastMs times.dropLast
  | _ => lastMs times

/-- A reader holds a slot, and what it has read of it as long as the ring has not come round. -/
def Holds (times : List Timeval) : Reader → Prop
  | .top => True
  | .loaded slot seen => 0 < seen ∧ seen ≤ times.length ∧ slot = (seen - 1) % 100
  | .half slot seen sec => 0 < seen ∧ seen ≤ times.length ∧ slot = (seen - 1) % 100 ∧
      (times.length < seen + 99 → (times[seen - 1]?).map Timeval.sec = some sec)
  | .asked seen => 0 < seen ∧ seen ≤ times.length

structure Inv (s : State T) : Prop where
  pos : s.tvsPos = moved s.times.length s.writer % 100
  nonempty : s.writer = .published ∨ s.writer = .advanced → 0 < s.times.length
  cache : s.cache = if s.times.length = 0 then none else some ((s.times.length - 1) % 100)
  ring : ∀ i t, s.times.length < i + 100 → s.times[i]? = some t → s.tvs (i % 100) = t
  stored : Stored (s.tvs s.tvsPos) s.writer
  ms : s.curMs = msOf s.times s.writer
  reader : ∀ k, Holds s.times (s.reader k)

/-- What a thread has been told is right: a time whole unless the ring came round while the thread was
at it, the milliseconds of one of the last times. -/
def Right (times : List Timeval) : Event → Prop
  | .none => True
  | .told t seen now => 0 < seen ∧ seen ≤ now ∧ now ≤ times.length ∧
      (now < seen + 99 → times[seen - 1]? = some t)
  | .toldMs ms seen now => 0 < seen ∧ seen ≤ now ∧ now ≤ times.length ∧
      ∃ n, seen ≤ n + 1 ∧ n ≤ now ∧ ms = lastMs (times.take n)

section Keep

variable {s s' : State T} {k : T} {r : Reader} {ev : Event} {tr : List Event} {times : List Timeval}
  {t : Timeval}

theorem inv_init : Inv (State.init : State T) := by
  constructor
  · rfl
  · simp [State.init]
  · rfl
  · simp [State.init]
  · trivial
  · rfl
  · exact fun _ => trivial

/-- More times are published: a reader keeps what it holds. -/
theorem Holds.mono (holds : Holds times r) : Holds (times ++ [t]) r := by
  have longer : (times ++ [t]).length = times.length + 1 := by simp
  cases r with
  | top => trivial
  | loaded slot seen => exact ⟨holds.1, by have := holds.2.1; omega, holds.2.2⟩
  | half slot seen sec =>
    obtain ⟨pos, le, same, read⟩ := holds
    refine ⟨pos, by omega, same, fun near => ?_⟩
    rw [List.getElem?_append_left (by omega)]
    exact read (by omega)
  | asked seen => exact ⟨holds.1, by have := holds.2; omega⟩

theorem Inv.turn [DecidableEq T] (inv : Inv s) (holds : Holds s.times r) :
    Inv { s with reader := Function.update s.reader k r } := by
  refine ⟨inv.pos, inv.nonempty, inv.cache, inv.ring, inv.stored, inv.ms, fun l => ?_⟩
  by_cases same : l = k
  · subst same
    simpa using holds
  · simpa [same] using inv.reader l

/-- The slot that is stored to holds none of the last hundred times. -/
theorem Inv.store (inv : Inv s) (n : s.tvsPos = s.times.length % 100) (i : ℕ) (t : Timeval)
    (near : s.times.length < i + 100) (at_ : s.times[i]? = some t) (tv : Timeval) :
    Function.update s.tvs s.tvsPos tv (i % 100) = t := by
  have lt : i < s.times.length := by
    by_contra out
    simp [List.getElem?_eq_none (Nat.le_of_not_lt out)] at at_
  rw [Function.update_of_ne (by omega)]
  exact inv.ring i t near at_

theorem Inv.begin (inv : Inv s) (here : s.writer = .top) :
    Inv { s with writer := .storing t false false } := by
  refine ⟨?_, by simp, inv.cache, inv.ring, by simp [Stored], ?_, inv.reader⟩
  · simpa [here, moved] using inv.pos
  · simpa [here, msOf] using inv.ms

theorem Inv.storeSec {usec : Bool} (inv : Inv s) (here : s.writer = .storing t false usec) :
    Inv { s with
      tvs := Function.update s.tvs s.tvsPos { s.tvs s.tvsPos with sec := t.sec }
      writer := .storing t true usec } := by
  have pos : s.tvsPos = s.times.length % 100 := by simpa [here, moved] using inv.pos
  have stored := inv.stored
  refine ⟨pos, by simp, inv.cache, ?_, ?_, ?_, inv.reader⟩
  · intro i u near at_
    exact inv.store pos i u near at_ _
  · simp only [here, Stored] at stored
    simpa [Stored] using stored.2
  · simpa [here, msOf] using inv.ms

theorem Inv.storeUsec {sec : Bool} (inv : Inv s) (here : s.writer = .storing t sec false) :
    Inv { s with
      tvs := Function.update s.tvs s.tvsPos { s.tvs s.tvsPos with usec := t.usec }
      writer := .storing t sec true } := by
  have pos : s.tvsPos = s.times.length % 100 := by simpa [here, moved] using inv.pos
  have stored := inv.stored
  refine ⟨pos, by simp, inv.cache, ?_, ?_, ?_, inv.reader⟩
  · intro i u near at_
    exact inv.store pos i u near at_ _
  · simp only [here, Stored] at stored
    simpa [Stored] using stored.1
  · simpa [here, msOf] using inv.ms

theorem Inv.publish (inv : Inv s) (here : s.writer = .storing t true true) :
    Inv { s with
      cache := some s.tvsPos, writer := .published, times := s.times ++ [t] } := by
  have pos : s.tvsPos = s.times.length % 100 := by simpa [here, moved] using inv.pos
  have whole : s.tvs s.tvsPos = t := by
    have stored := inv.stored
    simp only [here, Stored, forall_const] at stored
    cases t
    cases eq : s.tvs s.tvsPos
    simp_all
  refine ⟨by simpa [moved] using pos, by simp, by simp [pos], ?_, trivial, ?_,
    fun k => (inv.reader k).mono⟩
  · intro i u near at_
    simp only [List.length_append, List.length_singleton] at near
    obtain lt | eq | gt := Nat.lt_trichotomy i s.times.length
    · rw [List.getElem?_append_left lt] at at_
      exact inv.ring i u (by omega) at_
    · subst eq
      simp only [List.getElem?_concat_length, Option.some.injEq] at at_
      rw [← at_, ← whole, pos]
    · simp [List.getElem?_eq_none (by simp; omega : (s.times ++ [t]).length ≤ i)] at at_
  · simpa [here, msOf] using inv.ms

theorem Inv.advance (inv : Inv s) (here : s.writer = .published) :
    Inv { s with tvsPos := (s.tvsPos + 1) % 100, writer := .advanced } := by
  have nonempty := inv.nonempty (.inl here)
  have pos : s.tvsPos = (s.times.length - 1) % 100 := by simpa [here, moved] using inv.pos
  refine ⟨?_, fun _ => nonempty, inv.cache, inv.ring, trivial, ?_, inv.reader⟩
  · simp only [moved]
    omega
  · simpa [here, msOf] using inv.ms

/-- What `gettimeofday_cache` points to is the time that was published last. -/
theorem Inv.newest {slot : ℕ} (inv : Inv s) (cache : s.cache = some slot) :
    0 < s.times.length ∧ slot = (s.times.length - 1) % 100 ∧ (s.tvs slot).ms = lastMs s.times := by
  have at_ := inv.cache
  by_cases empty : s.times.length = 0
  · simp [empty, cache] at at_
  simp only [cache, empty, if_false, Option.some.injEq] at at_
  have last : s.times[s.times.length - 1]? = some (s.times.getLast (by grind)) := by
    rw [← List.getLast?_eq_getElem?, List.getLast?_eq_some_getLast]
  refine ⟨by omega, at_, ?_⟩
  rw [at_, inv.ring _ _ (by omega) last, lastMs, List.getLast?_eq_some_getLast (by grind)]
  rfl

/-- As long as the ring has not come round, the slot of a reader holds the time it was for. -/
theorem Inv.slot {slot seen : ℕ} (inv : Inv s) (pos : 0 < seen) (le : seen ≤ s.times.length)
    (at_ : slot = (seen - 1) % 100) (near : s.times.length < seen + 99) :
    s.times[seen - 1]? = some (s.tvs slot) := by
  have get : s.times[seen - 1]? = some (s.times[seen - 1]) := List.getElem?_eq_getElem (by omega)
  rw [at_, inv.ring (seen - 1) _ (by omega) get, get]

theorem Inv.setMs {slot : ℕ} (inv : Inv s) (here : s.writer = .advanced)
    (cache : s.cache = some slot) :
    Inv { s with curMs := (s.tvs slot).ms, writer := .top } := by
  refine ⟨?_, by simp, inv.cache, inv.ring, trivial, (inv.newest cache).2.2, inv.reader⟩
  simpa [here, moved] using inv.pos

theorem Inv.step [DecidableEq T] (inv : Inv s) (step : Step s ev s') : Inv s' := by
  cases step with
  | begin t here => exact inv.begin here
  | storeSec t usec here => exact inv.storeSec here
  | storeUsec t sec here => exact inv.storeUsec here
  | publish t here => exact inv.publish here
  | advance here => exact inv.advance here
  | setMs slot here cache => exact inv.setMs here cache
  | load k slot here cache =>
    obtain ⟨pos, at_, -⟩ := inv.newest cache
    exact inv.turn ⟨pos, Nat.le_refl _, at_⟩
  | readSec k slot seen here =>
    obtain ⟨pos, le, at_⟩ : Holds s.times (.loaded slot seen) := here ▸ inv.reader k
    refine inv.turn ⟨pos, le, at_, fun near => ?_⟩
    rw [inv.slot pos le at_ near]
    rfl
  | readUsec k slot seen sec here => exact inv.turn trivial
  | ask k slot here cache => exact inv.turn ⟨(inv.newest cache).1, Nat.le_refl _⟩
  | readMs k seen here => exact inv.turn trivial

theorem Right.mono (right : Right times ev) : Right (times ++ [t]) ev := by
  have longer : (times ++ [t]).length = times.length + 1 := by simp
  cases ev with
  | none => trivial
  | told u seen now =>
    obtain ⟨pos, le, le', read⟩ := right
    refine ⟨pos, le, by omega, fun near => ?_⟩
    rw [List.getElem?_append_left (by omega)]
    exact read near
  | toldMs ms seen now =>
    obtain ⟨pos, le, le', n, lo, hi, eq⟩ := right
    refine ⟨pos, le, by omega, n, lo, hi, ?_⟩
    rw [List.take_append_of_le_length (by omega)]
    exact eq

/-- The milliseconds are those of the last time or of the one before. -/
theorem Inv.ms_take (inv : Inv s) :
    ∃ n, s.times.length ≤ n + 1 ∧ n ≤ s.times.length ∧ s.curMs = lastMs (s.times.take n) := by
  have ms := inv.ms
  cases here : s.writer with
  | top | storing =>
    refine ⟨s.times.length, by omega, Nat.le_refl _, ?_⟩
    simpa [here, msOf] using ms
  | published | advanced =>
    refine ⟨s.times.length - 1, by omega, by omega, ?_⟩
    rw [← List.dropLast_eq_take]
    simpa [here, msOf] using ms

theorem Step.published [DecidableEq T] (step : Step s ev s') :
    s'.times = s.times ∨ ∃ t, s'.times = s.times ++ [t] := by
  cases step with
  | publish t here => exact .inr ⟨t, rfl⟩
  | _ => exact .inl rfl

theorem Step.right [DecidableEq T] (inv : Inv s) (step : Step s ev s') : Right s'.times ev := by
  cases step with
  | readUsec k slot seen sec here =>
    obtain ⟨pos, le, at_, read⟩ : Holds s.times (.half slot seen sec) := here ▸ inv.reader k
    refine ⟨pos, le, Nat.le_refl _, fun near => ?_⟩
    have whole := inv.slot pos le at_ near
    have sec_ := read near
    rw [whole] at sec_ ⊢
    simp only [Option.map_some, Option.some.injEq] at sec_
    rw [← sec_]
  | readMs k seen here =>
    obtain ⟨pos, le⟩ : Holds s.times (.asked seen) := here ▸ inv.reader k
    obtain ⟨n, lo, hi, ms⟩ := inv.ms_take
    exact ⟨pos, le, Nat.le_refl _, n, by omega, hi, ms⟩
  | _ => trivial

theorem right_run [DecidableEq T] (run : Trace (State.init : State T) Step tr s) :
    Inv s ∧ ∀ ev ∈ tr, Right s.times ev := by
  refine run.invariant (fun tr s => Inv s ∧ ∀ ev ∈ tr, Right s.times ev) ⟨inv_init, by simp⟩ ?_
  intro tr s ev s' ⟨inv, right⟩ step
  refine ⟨inv.step step, fun ev' mem => ?_⟩
  obtain old | new := List.mem_append.mp mem
  · obtain same | ⟨t, longer⟩ := step.published
    · exact same ▸ right ev' old
    · exact longer ▸ (right ev' old).mono
  · obtain rfl := List.mem_singleton.mp new
    exact step.right inv

/-- Main theorem: what `gettimeofday` tells a thread is the time that was the last one when the
thread read the pointer, both its halves, if fewer than 99 more have come since; what `get_sys_ms`
tells it are the milliseconds of a time at most one older than that, 0 before the first. -/
theorem told_right [DecidableEq T] (run : Trace (State.init : State T) Step tr s) :
    ∀ ev ∈ tr, Right s.times ev :=
  (right_run run).2

end Keep

theorem told_right_first :
    ∃ s : State Unit, Right s.times (.told ⟨5, 7000⟩ 1 1) ∧ Right s.times (.toldMs 0 1 1) := by
  have start : Trace (State.init : State Unit) Step [] State.init := .init
  have stored := ((start.step (.begin ⟨5, 7000⟩ rfl)).step (.storeUsec ⟨5, 7000⟩ false rfl)).step
    (.storeSec ⟨5, 7000⟩ true rfl)
  have asked := ((stored.step (.publish ⟨5, 7000⟩ rfl)).step (.ask () 0 rfl rfl)).step
    (.readMs () 1 rfl)
  have run := ((asked.step (.load () 0 rfl rfl)).step (.readSec () 0 1 rfl)).step
    (.readUsec () 0 1 5 rfl)
  have right := told_right run
  refine ⟨_, right _ ?_, right _ ?_⟩
  · exact List.mem_append_right _ (List.mem_singleton.mpr rfl)
  · refine List.mem_append_left _ (List.mem_append_left _ (List.mem_append_left _ ?_))
    exact List.mem_append_right _ (List.mem_singleton.mpr rfl)

end Conet.Core.TimeCache
