/- Module: Conet/Base/Tls
   source: base/tls.h, base/src/tls.cpp
   digest: The variables of a thread: their creation, and their end when the thread exits. -/

import Conet.Lib.Trace
import Mathlib.Data.List.Nodup
import Mathlib.Logic.Function.Basic

set_option autoImplicit false
set_option relaxedAutoImplicit false

namespace Conet.Base.Tls

open Conet.Lib

variable {N : Type}

/-! ### The thread -/

/-- What the thread is in, the innermost call first: `init_exp` of a variable, its `fini_exp` for an
object that came too late, `pthread_atexit_done` between two objects, and `fini_exp` called from
there. -/
inductive Frame (N : Type)
  | create (n : N)
  | discard (n : N) (v : ℕ)
  | drain (l : List (N × ℕ))
  | fini (n : N) (v : ℕ)

/-- How often `pthread_atexit_done` has been called. -/
inductive Stage
  | running
  | exiting (rounds : ℕ)
  | gone
  deriving DecidableEq

/-- The pointers, the list under `g_pthread_atexit_key`, and the number of the next object. -/
structure State (N : Type) where
  var : N → Option ℕ
  key : Option (List (N × ℕ))
  calls : List (Frame N)
  made : ℕ
  stage : Stage

/-- `TLS_GET` answers with an object that is there, or that it has made, or with `NULL` after it has
discarded one; an object is finished; `pthread_atexit_done` begins; the thread is gone, and with it
the objects that nothing finishes. -/
inductive Event (N : Type)
  | none
  | got (n : N) (v : ℕ)
  | made (n : N) (v : ℕ)
  | discarded (n : N) (v : ℕ)
  | finished (n : N) (v : ℕ)
  | round
  | gone (lost : List (N × ℕ))

/-- Code of the program runs, and not that of `pthread_atexit_done`. -/
def State.runs (s : State N) : Prop :=
  match s.calls with
  | [] => s.stage = .running
  | .drain _ :: _ => False
  | _ => True

/-- The main thread has `atexit`, the others have so many iterations over their keys. -/
def rounds (main : Bool) (iterations : ℕ) : ℕ := if main then 1 else iterations

variable [DecidableEq N] (main : Bool) (iterations : ℕ)

inductive Step : State N → Event N → State N → Prop
  | got {s : State N} (n : N) (v : ℕ) (runs : s.runs) (is : s.var n = some v) :
      Step s (.got n v) s
  | create {s : State N} (n : N) (runs : s.runs) (is : s.var n = none) :
      Step s .none { s with calls := .create n :: s.calls }
  /-- `tls_onexit_add` makes the list if there is none. -/
  | made {s : State N} (n : N) (calls : List (Frame N)) (here : s.calls = .create n :: calls)
      (is : s.var n = none) :
      Step s (.made n s.made)
        { s with
          var := Function.update s.var n (some s.made)
          key := some ((n, s.made) :: s.key.getD [])
          calls
          made := s.made + 1 }
  /-- `init_exp` has made the variable already. -/
  | late {s : State N} (n : N) (v : ℕ) (calls : List (Frame N))
      (here : s.calls = .create n :: calls) (is : s.var n = some v) :
      Step s .none
        { s with
          calls := .discard n s.made :: calls
          made := s.made + 1 }
  | discard {s : State N} (n : N) (v : ℕ) (calls : List (Frame N))
      (here : s.calls = .discard n v :: calls) :
      Step s (.discarded n v)
        { s with
          var := Function.update s.var n none
          calls }
  | exit {s : State N} (here : s.calls = []) (running : s.stage = .running) :
      Step s .none { s with stage := .exiting 0 }
  /-- A thread's key is `NULL` before its destructor is called; `atexit` leaves the list there, and
  `pthread_atexit_done` empties it. -/
  | round {s : State N} (k : ℕ) (l : List (N × ℕ)) (here : s.calls = [])
      (exiting : s.stage = .exiting k) (listed : s.key = some l)
      (more : k < rounds main iterations) :
      Step s .round
        { s with
          key := if main then some [] else none
          calls := [.drain l]
          stage := .exiting (k + 1) }
  | next {s : State N} (n : N) (v : ℕ) (l : List (N × ℕ)) (calls : List (Frame N))
      (here : s.calls = .drain ((n, v) :: l) :: calls) :
      Step s .none { s with calls := .fini n v :: .drain l :: calls }
  | finished {s : State N} (n : N) (v : ℕ) (calls : List (Frame N))
      (here : s.calls = .fini n v :: calls) :
      Step s (.finished n v)
        { s with
          var := Function.update s.var n none
          calls }
  | drained {s : State N} (calls : List (Frame N)) (here : s.calls = .drain [] :: calls) :
      Step s .none { s with calls }
  /-- `atexit` comes once, and `delete list` forgets what has been added since. -/
  | gone {s : State N} (k : ℕ) (here : s.calls = []) (exiting : s.stage = .exiting k)
      (done : s.key = none ∨ rounds main iterations ≤ k) :
      Step s (.gone (s.key.getD [])) { s with stage := .gone }

def State.init : State N := ⟨fun _ => none, none, [], 0, .running⟩

/-! ### What is to be finished -/

def Event.makes : Event N → List (N × ℕ)
  | .made n v => [(n, v)]
  | _ => []

def Event.finishes : Event N → List (N × ℕ)
  | .finished n v => [(n, v)]
  | _ => []

/-- The objects that have been registered, and those that have been finished, in order. -/
def made (tr : List (Event N)) : List (N × ℕ) := tr.flatMap Event.makes

def finished (tr : List (Event N)) : List (N × ℕ) := tr.flatMap Event.finishes

/-- What is registered is put on a stack; with each round the stack is taken over, its top first. -/
def turn : List (N × ℕ) × List (N × ℕ) → Event N → List (N × ℕ) × List (N × ℕ)
  | (due, stack), .made n v => (due, (n, v) :: stack)
  | (due, stack), .round => (due ++ stack, [])
  | order, _ => order

/-- The order of the ends that are due, and the stack. -/
def order (tr : List (Event N)) : List (N × ℕ) × List (N × ℕ) := tr.foldl turn ([], [])

/-- The objects that `pthread_atexit_done` has before it. -/
def Frame.due : Frame N → List (N × ℕ)
  | .drain l => l
  | .fini n v => [(n, v)]
  | _ => []

def State.due (s : State N) : List (N × ℕ) := s.calls.flatMap Frame.due

section Keep

variable {main : Bool} {iterations : ℕ} {s s' : State N} {ev : Event N} {tr : List (Event N)}

omit [DecidableEq N]

@[simp] theorem made_snoc : made (tr ++ [ev]) = made tr ++ ev.makes := by simp [made]

@[simp] theorem finished_snoc : finished (tr ++ [ev]) = finished tr ++ ev.finishes := by
  simp [finished]

theorem order_snoc : order (tr ++ [ev]) = turn (order tr) ev := by
  rw [order, List.foldl_append]
  rfl

/-- Nothing is in the order that was not registered, and nothing is missing. -/
theorem order_perm (tr : List (Event N)) : ((order tr).1 ++ (order tr).2).Perm (made tr) := by
  induction tr using List.reverseRecOn with
  | nil => exact .nil
  | append_singleton tr ev ih =>
    rw [order_snoc, made_snoc]
    cases ev with
    | made n v =>
      have middle : ((order tr).1 ++ (n, v) :: (order tr).2).Perm
          ((n, v) :: ((order tr).1 ++ (order tr).2)) := List.perm_middle
      exact (middle.trans (ih.cons _)).trans (List.perm_append_singleton _ _).symm
    | round => simpa [turn, Event.makes] using ih
    | none | got | discarded | finished | gone => simpa [turn, Event.makes] using ih

/-- How often `pthread_atexit_done` has been called in a run. -/
def turns (tr : List (Event N)) : ℕ := tr.countP fun ev => ev matches .round

theorem turns_snoc : turns (tr ++ [ev]) = turns tr + turns [ev] := List.countP_append

structure Inv (tr : List (Event N)) (s : State N) : Prop where
  due : (order tr).1 = finished tr ++ s.due
  key : (order tr).2 = s.key.getD []
  /-- A pointer is to an object of its variable that is still to be finished. -/
  var : ∀ n v, s.var n = some v → (n, v) ∈ s.due ++ s.key.getD []
  nodup : ((made tr).map Prod.snd).Nodup
  fresh : ∀ o ∈ made tr, o.2 < s.made
  running : s.stage = .running → turns tr = 0
  exiting : ∀ k, s.stage = .exiting k → turns tr = k

theorem inv_init : Inv [] (State.init : State N) :=
  ⟨rfl, rfl, nofun, List.nodup_nil, nofun, fun _ => rfl, nofun⟩

/-- Nothing is registered or finished, and no round begins. -/
def Event.quiet : Event N → Bool
  | .none | .got .. | .discarded .. | .gone _ => true
  | _ => false

theorem Inv.quiet (inv : Inv tr s) (quiet : ev.quiet = true) (due : s'.due = s.due)
    (key : s'.key = s.key) (var : ∀ n v, s'.var n = some v → s.var n = some v)
    (le : s.made ≤ s'.made) (running : s'.stage = .running → s.stage = .running)
    (exiting : ∀ k, s'.stage = .exiting k → turns tr = k) : Inv (tr ++ [ev]) s' := by
  have same : order (tr ++ [ev]) = order tr ∧ ev.makes = [] ∧ ev.finishes = [] ∧
      turns [ev] = 0 := by
    rw [order_snoc]
    cases ev with
    | none | got | discarded | gone => exact ⟨rfl, rfl, rfl, rfl⟩
    | made | finished | round => cases quiet
  obtain ⟨order, makes, finishes, turns⟩ := same
  have made : made (tr ++ [ev]) = made tr := by rw [made_snoc, makes, List.append_nil]
  refine ⟨?_, ?_, fun n v is => ?_, ?_, fun o mem => ?_, fun is => ?_, fun k is => ?_⟩
  · rw [order, inv.due, finished_snoc, finishes, List.append_nil, due]
  · rw [order, inv.key, key]
  · rw [due, key]
    exact inv.var n v (var n v is)
  · exact made.symm ▸ inv.nodup
  · exact Nat.lt_of_lt_of_le (inv.fresh o (made ▸ mem)) le
  · rw [turns_snoc, turns, inv.running (running is)]
  · rw [turns_snoc, turns, exiting k is, Nat.add_zero]

theorem Inv.round {k : ℕ} {l : List (N × ℕ)} (inv : Inv tr s) (here : s.calls = [])
    (exiting : s.stage = .exiting k) (listed : s.key = some l) : Inv (tr ++ [.round])
      { s with
        key := if main then some [] else none
        calls := [.drain l]
        stage := .exiting (k + 1) } := by
  have due : s.due = [] := by simp [State.due, here]
  have key : (if main then some [] else none : Option (List (N × ℕ))).getD [] = [] := by
    cases main <;> rfl
  refine ⟨?_, ?_, fun n v is => ?_, ?_, ?_, nofun, fun j is => ?_⟩
  · have before := inv.due
    rw [due] at before
    rw [order_snoc, finished_snoc]
    simp [turn, Event.finishes, State.due, Frame.due, before, inv.key, listed]
  · rw [order_snoc]
    exact key.symm
  · have old := inv.var n v is
    rw [due, listed] at old
    simpa [State.due, Frame.due, key] using old
  · simpa [Event.makes] using inv.nodup
  · simpa [Event.makes] using inv.fresh
  · rw [turns_snoc, inv.exiting k exiting]
    exact Stage.exiting.inj is

/-- What is registered is finished, due, or on the stack, each just once. -/
theorem Inv.places (inv : Inv tr s) :
    (finished tr ++ (s.due ++ s.key.getD [])).Perm (made tr) := by
  have perm := order_perm tr
  rwa [inv.due, inv.key, List.append_assoc] at perm

end Keep

section Steps

variable {main : Bool} {iterations : ℕ} {s s' : State N} {ev : Event N} {tr : List (Event N)}

theorem Inv.made {n : N} {calls : List (Frame N)} (inv : Inv tr s)
    (here : s.calls = .create n :: calls) : Inv (tr ++ [.made n s.made])
      { s with
        var := Function.update s.var n (some s.made)
        key := some ((n, s.made) :: s.key.getD [])
        calls
        made := s.made + 1 } := by
  have due : s.due = calls.flatMap Frame.due := by simp [State.due, here, Frame.due]
  refine ⟨?_, ?_, fun n' v is => ?_, ?_, fun o mem => ?_, fun is => ?_, fun k is => ?_⟩
  · have before := inv.due
    rw [due] at before
    rw [order_snoc, finished_snoc]
    simpa [turn, Event.finishes, State.due] using before
  · rw [order_snoc]
    simp [turn, inv.key]
  · show (n', v) ∈ calls.flatMap Frame.due ++ (n, s.made) :: s.key.getD []
    change Function.update s.var n (some s.made) n' = some v at is
    by_cases same : n' = n
    · subst same
      rw [Function.update_self] at is
      obtain rfl := Option.some.inj is
      simp
    · rw [Function.update_of_ne same] at is
      have old := inv.var n' v is
      rw [due] at old
      simp only [List.mem_append, List.mem_cons] at old ⊢
      tauto
  · rw [made_snoc, List.map_append]
    refine List.nodup_append.mpr ⟨inv.nodup, List.nodup_singleton _, fun a mem b mem' => ?_⟩
    obtain ⟨o, old, rfl⟩ := List.mem_map.mp mem
    obtain rfl := List.mem_singleton.mp mem'
    exact Nat.ne_of_lt (inv.fresh o old)
  · rw [made_snoc] at mem
    obtain old | new := List.mem_append.mp mem
    · exact Nat.lt_succ_of_lt (inv.fresh o old)
    · obtain rfl := List.mem_singleton.mp new
      exact Nat.lt_succ_self _
  · rw [turns_snoc, inv.running is]
    rfl
  · rw [turns_snoc, inv.exiting k is]
    rfl

/-- An object is finished, and the pointer of its variable is `NULL`. -/
theorem Inv.finished {n : N} {v : ℕ} {calls : List (Frame N)} (inv : Inv tr s)
    (here : s.calls = .fini n v :: calls) : Inv (tr ++ [.finished n v])
      { s with
        var := Function.update s.var n none
        calls } := by
  have due : s.due = (n, v) :: calls.flatMap Frame.due := by simp [State.due, here, Frame.due]
  refine ⟨?_, ?_, fun n' v' is => ?_, ?_, ?_, fun is => ?_, fun k is => ?_⟩
  · have before := inv.due
    rw [due] at before
    rw [order_snoc, finished_snoc]
    simpa [turn, Event.finishes, State.due] using before
  · rw [order_snoc]
    exact inv.key
  · show (n', v') ∈ calls.flatMap Frame.due ++ s.key.getD []
    change Function.update s.var n none n' = some v' at is
    by_cases same : n' = n
    · simp [same] at is
    · rw [Function.update_of_ne same] at is
      have old := inv.var n' v' is
      rw [due, List.cons_append, List.mem_cons] at old
      exact old.resolve_left fun eq => same (Prod.mk.inj eq).1
  · simpa [Event.makes] using inv.nodup
  · simpa [Event.makes] using inv.fresh
  · rw [turns_snoc, inv.running is]
    rfl
  · rw [turns_snoc, inv.exiting k is]
    rfl

theorem Inv.step (inv : Inv tr s) (step : Step main iterations s ev s') : Inv (tr ++ [ev]) s' := by
  cases step with
  | got n v runs is => exact inv.quiet rfl rfl rfl (fun _ _ => id) Nat.le.refl id inv.exiting
  | create n runs is => exact inv.quiet rfl rfl rfl (fun _ _ => id) Nat.le.refl id inv.exiting
  | made n calls here is => exact inv.made here
  | late n v calls here is =>
    refine inv.quiet rfl ?_ rfl (fun _ _ => id) (Nat.le_succ _) id inv.exiting
    simp [State.due, here, Frame.due]
  | discard n v calls here =>
    refine inv.quiet rfl ?_ rfl (fun n' v' is => ?_) Nat.le.refl id inv.exiting
    · simp [State.due, here, Frame.due]
    · change Function.update s.var n none n' = some v' at is
      by_cases same : n' = n
      · simp [same] at is
      · rwa [Function.update_of_ne same] at is
  | exit here running =>
    refine inv.quiet rfl rfl rfl (fun _ _ => id) Nat.le.refl nofun fun k is => ?_
    rw [inv.running running, Stage.exiting.inj is]
  | round k l here exiting listed more => exact inv.round here exiting listed
  | next n v l calls here =>
    refine inv.quiet rfl ?_ rfl (fun _ _ => id) Nat.le.refl id inv.exiting
    simp [State.due, here, Frame.due]
  | finished n v calls here => exact inv.finished here
  | drained calls here =>
    refine inv.quiet rfl ?_ rfl (fun _ _ => id) Nat.le.refl id inv.exiting
    simp [State.due, here, Frame.due]
  | gone k here exiting done => exact inv.quiet rfl rfl rfl (fun _ _ => id) Nat.le.refl nofun nofun

theorem inv_run (run : Trace State.init (Step main iterations) tr s) : Inv tr s :=
  run.invariant Inv inv_init fun inv step => inv.step step

/-- What `TLS_GET` answers with is an object of that variable, which is not finished yet. -/
theorem got_alive {n : N} {v : ℕ} (run : Trace State.init (Step main iterations) tr s)
    (step : Step main iterations s (.got n v) s') : (n, v) ∈ made tr ∧ (n, v) ∉ finished tr := by
  have inv := inv_run run
  have alive : (n, v) ∈ s.due ++ s.key.getD [] := by
    cases step with
    | got n v runs is => exact inv.var n v is
  have nodup := inv.places.nodup_iff.mpr (List.Nodup.of_map _ inv.nodup)
  refine ⟨inv.places.mem_iff.mp (List.mem_append_right _ alive), fun ended => ?_⟩
  exact (List.nodup_append.mp nodup).2.2 _ ended _ alive rfl

/-- Main theorem: when a thread is gone, its objects have been finished in the order of the rounds,
in each round the last one that was registered first; all of them, each just once, but those that
the last round has registered, if there were all the rounds. -/
theorem exit_accounted {lost : List (N × ℕ)} (run : Trace State.init (Step main iterations) tr s)
    (step : Step main iterations s (.gone lost) s') :
    finished tr = (order tr).1 ∧ lost = (order tr).2 ∧ (finished tr ++ lost).Perm (made tr) ∧
      (made tr).Nodup ∧ (lost ≠ [] → rounds main iterations ≤ turns tr) := by
  have inv := inv_run run
  cases step with
  | gone k here exiting done =>
    have due : s.due = [] := by simp [State.due, here]
    have places := inv.places
    rw [due, List.nil_append] at places
    refine ⟨by rw [inv.due, due, List.append_nil], inv.key.symm, places, ?_, fun some => ?_⟩
    · exact List.Nodup.of_map _ inv.nodup
    · rw [inv.exiting k exiting]
      exact done.resolve_left fun none => some (by rw [none]; rfl)

/-- One variable uses the other in its `init_exp`, and in its `fini_exp`. -/
def used : List (Event Bool) := [.none, .none, .made false 0, .made true 1, .none, .round, .none]

/-- The other uses it in its `fini_exp`, when it is gone already, and so makes it anew. -/
def reborn : List (Event Bool) :=
  used ++
    .got false 0 ::
      [.finished true 1, .none, .none, .made true 2, .finished false 0, .none, .round, .none,
        .finished true 2, .none]

theorem reborn_run : ∃ s s',
    Trace State.init (Step false 4) reborn s ∧ Step false 4 s (.gone []) s' := by
  have start : Trace State.init (Step false 4) [] (State.init : State Bool) := .init
  have asked := (start.step (.create true rfl rfl)).step (.create false trivial rfl)
  have there := (asked.step (.made false _ rfl rfl)).step (.made true _ rfl rfl)
  have exits := (there.step (.exit rfl rfl)).step (.round 0 _ rfl rfl rfl (by decide))
  have first := (exits.step (.next true 1 _ _ rfl)).step (.got false 0 trivial rfl)
  have again := ((first.step (.finished true 1 _ rfl)).step (.next false 0 _ _ rfl)).step
    (.create true trivial rfl)
  have ended := ((again.step (.made true _ rfl rfl)).step (.finished false 0 _ rfl)).step
    (.drained _ rfl)
  have second := (ended.step (.round 1 _ rfl rfl rfl (by decide))).step (.next true 2 _ _ rfl)
  have run := (second.step (.finished true 2 _ rfl)).step (.drained _ rfl)
  exact ⟨_, _, run, .gone 2 rfl rfl (.inl rfl)⟩

theorem got_alive_used : (false, 0) ∈ made used ∧ (false, 0) ∉ finished used := by
  obtain ⟨s, s', run, ends⟩ := reborn_run
  obtain ⟨s₁, s₂, before, step⟩ := run.split
  exact got_alive before step

theorem exit_accounted_reborn :
    finished reborn = (order reborn).1 ∧ [] = (order reborn).2 ∧
      (finished reborn ++ []).Perm (made reborn) ∧ (made reborn).Nodup ∧
      ([] ≠ ([] : List (Bool × ℕ)) → rounds false 4 ≤ turns reborn) := by
  obtain ⟨s, s', run, ends⟩ := reborn_run
  exact exit_accounted run ends

end Steps

end Conet.Base.Tls
