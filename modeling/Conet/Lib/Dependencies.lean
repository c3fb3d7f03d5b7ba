/- Module: Conet/Lib/Dependencies
   source: none (library)
   digest: Lists in which everything stands behind what it needs, and relations without a cycle. -/

import Mathlib.Data.List.Induction
import Mathlib.Data.List.Perm.Basic
import Mathlib.Order.WellFoundedSet

set_option autoImplicit false
set_option relaxedAutoImplicit false

namespace Conet.Lib

universe u v

variable {α : Type u} {r : α → α → Prop} {l : List α}

open Relation (TransGen)

/-- Whatever `m` of the list needs (`r d m`) stands before it. -/
def Ready (r : α → α → Prop) (l : List α) : Prop := ∀ a m b, l = a ++ m :: b → ∀ d, r d m → d ∈ a

theorem Ready.concat {m : α} (ready : Ready r l) (before : ∀ d, r d m → d ∈ l) : Ready r (l ++ [m]) := by
  intro a x b split d needed
  rcases List.eq_nil_or_concat b with rfl | ⟨b, y, rfl⟩
  · obtain ⟨rfl, same⟩ := List.append_inj' split rfl
    obtain rfl := List.singleton_injective same
    exact before d needed
  · rw [List.concat_eq_append, ← List.cons_append, ← List.append_assoc] at split
    exact ready a x b (List.append_inj' split rfl).1 d needed

/-- Then what it needs through others stands before it too. -/
theorem Ready.transGen (ready : Ready r l) : Ready (TransGen r) l := by
  intro a m b split d needed
  induction needed generalizing a b with
  | single needed => exact ready a _ b split _ needed
  | tail _ needed ih =>
    obtain ⟨a₁, a₂, rfl⟩ := List.append_of_mem (ready a _ b split _ needed)
    rw [List.append_assoc, List.cons_append] at split
    exact List.mem_append_left _ (ih a₁ _ split)

theorem Ready.acc {m : α} (ready : Ready r l) (mem : m ∈ l) : Acc r m := by
  induction l using List.reverseRecOn generalizing m with
  | nil => exact absurd mem List.not_mem_nil
  | append_singleton l x ih =>
    have front : Ready r l := fun a y b split d needed =>
      ready a y (b ++ [x]) (by rw [split, List.append_assoc, List.cons_append]) d needed
    rcases List.mem_append.mp mem with mem | mem
    · exact ih front mem
    · obtain rfl := List.mem_singleton.mp mem
      exact .intro _ fun d needed => ih front (ready l _ [] rfl d needed)

/-- What a chain comes back to is on an endless chain. -/
theorem not_acc_of_cycle {m : α} (cycle : TransGen r m m) : ¬ Acc r m := by
  intro acc
  have below := acc.transGen
  clear acc
  induction below with
  | intro m _ ih => exact ih m cycle cycle

section Flat

variable {ι : Type v} [DecidableEq ι] {f : ι → List α} {is : List ι}

/-- A list of lists, of which one gets one element more. -/
theorem flatMap_update_perm (nodup : is.Nodup) {i : ι} (mem : i ∈ is) (x : α) :
    (is.flatMap (Function.update f i (f i ++ [x]))).Perm (is.flatMap f ++ [x]) := by
  induction is with
  | nil => exact absurd mem List.not_mem_nil
  | cons j is ih =>
    rw [List.nodup_cons] at nodup
    rw [List.flatMap_cons, List.flatMap_cons, List.append_assoc]
    by_cases same : j = i
    · subst same
      have others : is.flatMap (Function.update f j (f j ++ [x])) = is.flatMap f := by
        apply List.flatMap_congr
        intro k member
        exact Function.update_of_ne (ne_of_mem_of_not_mem member nodup.1) _ _
      rw [others, Function.update_self, List.append_assoc]
      exact List.perm_append_comm.append_left _
    · rw [Function.update_of_ne same]
      exact (ih nodup.2 (List.mem_of_ne_of_mem (Ne.symm same) mem)).append_left _

end Flat

end Conet.Lib
