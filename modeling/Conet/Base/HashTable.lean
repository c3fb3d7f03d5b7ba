/- Module: Conet/Base/HashTable
   source: base/hash_table_base.h, base/str_map.h
   digest: A hash table of chains, to which entries are added in front. -/

import Mathlib.Logic.Function.Basic
import Mathlib.Tactic.Common

set_option autoImplicit false
set_option relaxedAutoImplicit false

namespace Conet.Base

universe u v

/-- `HashTableBase`, over entries that have a key. `m_list`, which only `foreach` and the destructor
go through, is left out. -/
structure HashTable (V : Type v) where
  bsize : ℕ
  bucket : ℕ → List V
  num : ℕ

namespace HashTable

variable {K : Type u} {V : Type v}

def init (size : ℕ) : HashTable V := ⟨size, fun _ => [], 0⟩

def add (hashCode : K → ℕ) (key : V → K) (t : HashTable V) (v : V) : HashTable V :=
  let i := hashCode (key v) % t.bsize
  { t with bucket := Function.update t.bucket i (v :: t.bucket i), num := t.num + 1 }

variable [DecidableEq K]

def find (hashCode : K → ℕ) (key : V → K) (t : HashTable V) (k : K) : Option V :=
  (t.bucket (hashCode k % t.bsize)).find? fun v => key v = k

variable {hashCode : K → ℕ} {key : V → K}

theorem find_add (t : HashTable V) (v : V) (k : K) :
    find hashCode key (add hashCode key t v) k = if key v = k then some v else find hashCode key t k := by
  by_cases same : key v = k
  · subst same
    simp [find, add]
  · rw [if_neg same]
    by_cases here : hashCode k % t.bsize = hashCode (key v) % t.bsize
    · simp [find, add, here, same]
    · simp [find, add, Function.update_of_ne here]

/-- The entry that is found is the last one with its key that was added. -/
theorem find_foldl (t : HashTable V) (vs : List V) (k : K) :
    find hashCode key (vs.foldl (add hashCode key) t) k =
      (vs.reverse.find? fun v => key v = k).or (find hashCode key t k) := by
  induction vs generalizing t with
  | nil => rfl
  | cons v vs ih =>
    rw [List.foldl_cons, ih, find_add, List.reverse_cons, List.find?_append, List.find?_singleton]
    cases vs.reverse.find? fun v => key v = k with
    | some w => rfl
    | none => by_cases same : key v = k <;> simp [same]

/-- An entry that is the only one with its key is found. -/
theorem find_of_unique {t : HashTable V} {vs : List V} {v : V} (mem : v ∈ vs)
    (unique : ∀ w ∈ vs, key w = key v → w = v) :
    find hashCode key (vs.foldl (add hashCode key) t) (key v) = some v := by
  rw [find_foldl]
  cases found : vs.reverse.find? fun w => key w = key v with
  | none =>
    have off := List.find?_eq_none.mp found v (List.mem_reverse.mpr mem)
    simp at off
  | some w =>
    have same : key w = key v := by simpa using List.find?_some found
    have among := List.mem_reverse.mp (List.mem_of_find?_eq_some found)
    rw [unique w among same]
    rfl

end HashTable

end Conet.Base
