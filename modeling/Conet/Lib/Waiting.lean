/- Module: Conet/Lib/Waiting
   source: none (library)
   digest: Histories of a queue of waiters that are woken or expire, and what they owe a waiter. -/

import Mathlib.Data.List.Count
import Mathlib.Data.List.Induction
import Mathlib.Data.List.Nodup
import Mathlib.Tactic.Common
import Mathlib.Data.Int.Notation

set_option autoImplicit false
set_option relaxedAutoImplicit false

namespace Conet.Lib.Waiting

universe u

/-- What is seen of a queue. A waiter that is woken or expires comes back with the value it is
handed. -/
inductive Obs (C : Type u)
  | entered (c : C) (timed : Bool)
  | woken (c : C) (v : ℤ)
  | expired (c : C) (v : ℤ)
  | returned (c : C) (v : ℤ)

variable {C : Type u} [DecidableEq C]

def stepQueue (q : List (C × Bool)) : Obs C → List (C × Bool)
  | .entered c timed => q ++ [(c, timed)]
  | .woken c _ => q.filter fun x => x.1 ≠ c
  | .expired c _ => q.filter fun x => x.1 ≠ c
  | .returned _ _ => q

/-- Those that have entered and have been neither woken nor expired since, oldest first. -/
def queued (tr : List (Obs C)) : List (C × Bool) := tr.foldl stepQueue []

def stepLeaving {C : Type u} : Obs C → Option (C × ℤ)
  | .woken c v => some (c, v)
  | .expired c v => some (c, v)
  | _ => none

/-- The one that has been woken or has expired and is about to return, with its value. -/
def leaving {C : Type u} (tr : List (Obs C)) : Option (C × ℤ) := tr.getLast?.bind stepLeaving

/-- The histories of a queue on which one thing happens at a time: a waiter that is resumed returns
before anything else happens. -/
inductive Served : List (Obs C) → Prop
  | nil : Served []
  | entered {tr : List (Obs C)} (served : Served tr) (still : leaving tr = none) (c : C)
      (timed : Bool) (fresh : c ∉ (queued tr).map Prod.fst) : Served (tr ++ [.entered c timed])
  | woken {tr : List (Obs C)} (served : Served tr) (still : leaving tr = none) (c : C) (v : ℤ)
      (mem : c ∈ (queued tr).map Prod.fst) : Served (tr ++ [.woken c v])
  | expired {tr : List (Obs C)} (served : Served tr) (still : leaving tr = none) (c : C) (v : ℤ)
      (mem : (c, true) ∈ queued tr) : Served (tr ++ [.expired c v])
  | returned {tr : List (Obs C)} (served : Served tr) {c : C} {v : ℤ}
      (leaves : leaving tr = some (c, v)) : Served (tr ++ [.returned c v])

def isCall (c : C) : Obs C → Bool
  | .entered c' _ => decide (c' = c)
  | _ => false

def isReturn (c : C) : Obs C → Bool
  | .returned c' _ => decide (c' = c)
  | _ => false

def calls (c : C) (tr : List (Obs C)) : ℕ := tr.countP (isCall c)

def returns (c : C) (tr : List (Obs C)) : ℕ := tr.countP (isReturn c)

/-- A call of `c` has not returned yet. -/
def Waits (c : C) (tr : List (Obs C)) : Prop :=
  c ∈ (queued tr).map Prod.fst ∨ ∃ v, leaving tr = some (c, v)

/-- The waiters without a timeout, in the order they entered. -/
def untimedEntered (tr : List (Obs C)) : List C := tr.filterMap fun o => match o with
  | .entered c false => some c
  | _ => none

def stepUntimed (s : List (C × Bool) × List C) (o : Obs C) : List (C × Bool) × List C :=
  (stepQueue s.1 o, match o with
    | .woken c _ => if (c, false) ∈ s.1 then s.2 ++ [c] else s.2
    | _ => s.2)

/-- The waiters without a timeout, in the order they were woken. -/
def untimedWoken (tr : List (Obs C)) : List C := (tr.foldl stepUntimed ([], [])).2

/-- Whoever is woken has waited longest. -/
def Fifo (tr : List (Obs C)) : Prop :=
  ∀ tr₁ c v tr₂, tr = tr₁ ++ .woken c v :: tr₂ → (queued tr₁).head?.map Prod.fst = some c

section Snoc

variable {tr : List (Obs C)} {o : Obs C} {c : C}

@[simp] theorem queued_snoc : queued (tr ++ [o]) = stepQueue (queued tr) o := by
  simp [queued]

omit [DecidableEq C] in
@[simp] theorem leaving_snoc : leaving (tr ++ [o]) = stepLeaving o := by
  simp [leaving]

@[simp] theorem calls_snoc :
    calls c (tr ++ [o]) = calls c tr + if isCall c o then 1 else 0 := by
  simp [calls, List.countP_append, List.countP_cons]

@[simp] theorem returns_snoc :
    returns c (tr ++ [o]) = returns c tr + if isReturn c o then 1 else 0 := by
  simp [returns, List.countP_append, List.countP_cons]

theorem untimed_queue : (tr.foldl stepUntimed (([] : List (C × Bool)), [])).1 = queued tr := by
  induction tr using List.reverseRecOn with
  | nil => rfl
  | append_singleton tr o ih => simp [stepUntimed, ih]

end Snoc

section Laws

variable {tr tr₁ tr₂ : List (Obs C)} {c : C} {v : ℤ}

/-- A history is one of its first part, followed by the rest. -/
theorem Served.of_append (served : Served (tr₁ ++ tr₂)) : Served tr₁ := by
  induction tr₂ using List.reverseRecOn with
  | nil => simpa using served
  | append_singleton tr₂ o ih =>
    apply ih
    rw [← List.append_assoc] at served
    generalize hl : (tr₁ ++ tr₂) ++ [o] = l at served
    cases served with
    | nil => simp at hl
    | entered served => exact (List.append_inj_left' hl rfl) ▸ served
    | woken served => exact (List.append_inj_left' hl rfl) ▸ served
    | expired served => exact (List.append_inj_left' hl rfl) ▸ served
    | returned served => exact (List.append_inj_left' hl rfl) ▸ served

theorem keys_filter (q : List (C × Bool)) (c : C) :
    (q.filter fun x => x.1 ≠ c).map Prod.fst = (q.map Prod.fst).filter fun x => x ≠ c := by
  rw [List.filter_map]
  rfl

theorem Served.nodup (served : Served tr) : ((queued tr).map Prod.fst).Nodup := by
  induction served with
  | nil => simp [queued]
  | entered served still c timed fresh ih =>
    rw [queued_snoc, stepQueue, List.map_append]
    exact List.nodup_append.mpr ⟨ih, by simp, by
      rintro a ha b hb rfl
      simp only [List.map_cons, List.map_nil, List.mem_singleton] at hb
      exact fresh (hb ▸ ha)⟩
  | woken served still c v mem ih =>
    rw [queued_snoc, stepQueue, keys_filter]
    exact ih.filter _
  | expired served still c v mem ih =>
    rw [queued_snoc, stepQueue, keys_filter]
    exact ih.filter _
  | returned served leaves ih => simpa [stepQueue] using ih

/-- Whoever is about to return is not in the queue any more. -/
theorem Served.not_queued (served : Served tr) (leaves : leaving tr = some (c, v)) :
    c ∉ (queued tr).map Prod.fst := by
  cases served with
  | nil => simp [leaving] at leaves
  | entered => simp [stepLeaving] at leaves
  | woken served still c' v' mem =>
    obtain ⟨rfl, rfl⟩ : c' = c ∧ v' = v := by simpa [stepLeaving] using leaves
    simp [stepQueue]
  | expired served still c' v' mem =>
    obtain ⟨rfl, rfl⟩ : c' = c ∧ v' = v := by simpa [stepLeaving] using leaves
    simp [stepQueue]
  | returned => simp [stepLeaving] at leaves

theorem waits_entered (still : leaving tr = none) (c' : C) (timed : Bool) :
    Waits c (tr ++ [.entered c' timed]) ↔ Waits c tr ∨ c = c' := by
  simp [Waits, stepQueue, stepLeaving, still]

/-- Whoever is resumed still waits until it returns. -/
theorem waits_resumed (still : leaving tr = none) {c' : C} (mem : c' ∈ (queued tr).map Prod.fst)
    {o : Obs C} (queue : ∀ q, stepQueue q o = q.filter fun x => x.1 ≠ c')
    (leaves : stepLeaving o = some (c', v)) : Waits c (tr ++ [o]) ↔ Waits c tr := by
  simp only [Waits, queued_snoc, queue, keys_filter, leaving_snoc, leaves, still]
  by_cases hc : c = c'
  · simp [hc, mem]
  · simp [hc, Ne.symm hc]

theorem waits_returned (served : Served tr) {c' : C} (leaves : leaving tr = some (c', v)) :
    Waits c (tr ++ [.returned c' v]) ↔ Waits c tr ∧ c ≠ c' := by
  have out := served.not_queued leaves
  simp only [Waits, queued_snoc, stepQueue, leaving_snoc, stepLeaving, leaves]
  by_cases hc : c = c'
  · simp only [hc, ne_eq, not_true_eq_false, and_false, iff_false]
    simpa using out
  · simp [hc, Ne.symm hc]

/-- Every call has returned once, or is still waiting. -/
theorem Served.balance (served : Served tr) (c : C) :
    (Waits c tr ∧ calls c tr = returns c tr + 1) ∨ (¬ Waits c tr ∧ calls c tr = returns c tr) := by
  induction served with
  | nil => simp [calls, returns, Waits, queued, leaving]
  | @entered tr served still c' timed fresh ih =>
    rw [waits_entered still]
    by_cases hc : c = c'
    · subst hc
      have idle : ¬ Waits c tr := by
        rintro (h | ⟨v, h⟩)
        · exact fresh h
        · simp [still] at h
      have ih := ih.resolve_left fun h => idle h.1
      simp [isCall, isReturn, ih.2]
    · simpa [isCall, isReturn, hc, Ne.symm hc] using ih
  | woken served still c' v mem ih =>
    rw [waits_resumed still mem (fun _ => rfl) rfl]
    simpa [isCall, isReturn] using ih
  | expired served still c' v mem ih =>
    rw [waits_resumed still (List.mem_map.mpr ⟨_, mem, rfl⟩) (fun _ => rfl) rfl]
    simpa [isCall, isReturn] using ih
  | returned served leaves ih =>
    rename_i c' v
    rw [waits_returned served leaves]
    by_cases hc : c = c'
    · subst hc
      have ih := ih.resolve_right fun h => h.1 (.inr ⟨v, leaves⟩)
      simp [isCall, isReturn, ih.2]
    · simpa [isCall, isReturn, hc, Ne.symm hc] using ih

theorem fifo_of_append (fifo : Fifo (tr₁ ++ tr₂)) : Fifo tr₁ := by
  intro pre c v post split
  exact fifo pre c v (post ++ tr₂) (by simp [split])

theorem Fifo.snoc (fifo : Fifo tr) {o : Obs C}
    (oldest : ∀ c v, o = .woken c v → (queued tr).head?.map Prod.fst = some c) :
    Fifo (tr ++ [o]) := by
  intro pre c v post split
  rcases List.eq_nil_or_concat' post with rfl | ⟨post, last, rfl⟩
  · obtain ⟨rfl, h⟩ := List.append_inj' split rfl
    exact oldest c v (by simpa using h)
  · apply fifo pre c v post
    have split : tr ++ [o] = (pre ++ .woken c v :: post) ++ [last] := by simpa using split
    exact List.append_inj_left' split rfl

/-- The oldest waiter leaves the waiters without a timeout at their front. -/
theorem untimed_filter {q : List (C × Bool)} (nodup : (q.map Prod.fst).Nodup) (t : Bool)
    (head : q.head? = some (c, t)) :
    (q.filter fun x => x.2 = false).map Prod.fst = (if t then [] else [c]) ++
      ((q.filter fun x => x.1 ≠ c).filter fun x => x.2 = false).map Prod.fst := by
  cases q with
  | nil => simp at head
  | cons x q =>
    obtain rfl : x = (c, t) := by simpa using head
    have off : ((c, t) :: q).filter (fun x => x.1 ≠ c) = q := by
      rw [List.filter_cons_of_neg (by simp)]
      apply List.filter_eq_self.mpr
      rintro ⟨c', t'⟩ hmem
      simp only [List.map_cons, List.nodup_cons] at nodup
      simpa using fun e : c' = c => nodup.1 (List.mem_map.mpr ⟨_, hmem, e⟩)
    rw [off]
    cases t <;> simp

/-- A waiter with a timeout is not among those without one. -/
theorem untimed_filter_timed {q : List (C × Bool)} (nodup : (q.map Prod.fst).Nodup)
    (mem : (c, true) ∈ q) :
    (q.filter fun x => x.2 = false).map Prod.fst =
      ((q.filter fun x => x.1 ≠ c).filter fun x => x.2 = false).map Prod.fst := by
  congr 1
  rw [List.filter_filter]
  apply List.filter_congr
  rintro ⟨c', t'⟩ hmem
  cases t' with
  | true => simp
  | false =>
    have hne : c' ≠ c := by
      rintro rfl
      simpa using List.inj_on_of_nodup_map nodup hmem mem rfl
    simp [hne]

/-- If whoever is woken has waited longest, waiters without a timeout are woken in the order they
entered. -/
theorem Served.order (served : Served tr) (fifo : Fifo tr) :
    untimedWoken tr ++ ((queued tr).filter fun x => x.2 = false).map Prod.fst =
      untimedEntered tr := by
  induction served with
  | nil => rfl
  | entered served still c timed fresh ih =>
    have ih := ih (fifo_of_append fifo)
    cases timed <;> simp [stepQueue, untimedEntered, untimedWoken, stepUntimed] at ih ⊢
    · rw [← ih]
      simp
    · exact ih
  | @woken tr served still c v mem ih =>
    have ih := ih (fifo_of_append fifo)
    have head := fifo tr c v [] rfl
    obtain ⟨⟨c', t⟩, first, rfl⟩ := Option.map_eq_some_iff.mp head
    rw [untimed_filter served.nodup t first, ← List.append_assoc] at ih
    have entered : untimedEntered (tr ++ [.woken c' v]) = untimedEntered tr := by
      simp [untimedEntered]
    rw [entered, ← ih, queued_snoc, stepQueue]
    congr 1
    have first : (c', t) ∈ queued tr := List.mem_of_mem_head? first
    have untimed : (c', false) ∈ queued tr ↔ t = false := by
      refine ⟨fun h => ?_, fun h => h ▸ first⟩
      simpa using (List.inj_on_of_nodup_map served.nodup h first rfl).symm
    cases t <;> simp [untimedWoken, stepUntimed, untimed_queue, untimed]
  | @expired tr served still c v mem ih =>
    have ih := ih (fifo_of_append fifo)
    rw [untimed_filter_timed served.nodup mem] at ih
    have same : untimedWoken (tr ++ [.expired c v]) = untimedWoken tr ∧
        untimedEntered (tr ++ [.expired c v]) = untimedEntered tr := by
      simp [untimedWoken, stepUntimed, untimedEntered]
    rw [same.1, same.2, queued_snoc, stepQueue]
    exact ih
  | @returned tr served c v leaves ih =>
    have ih := ih (fifo_of_append fifo)
    have same : untimedWoken (tr ++ [.returned c v]) = untimedWoken tr ∧
        untimedEntered (tr ++ [.returned c v]) = untimedEntered tr := by
      simp [untimedWoken, stepUntimed, untimedEntered]
    rw [same.1, same.2, queued_snoc, stepQueue]
    exact ih

end Laws

end Conet.Lib.Waiting
