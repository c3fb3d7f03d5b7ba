/- Module: Conet/Base/ListRings
   source: base/list.h
   digest: Families of list_head circles that share one type of entries. -/

import Conet.Base.ListHead
import Mathlib.Logic.Function.Basic
import Mathlib.Data.List.Basic

set_option autoImplicit false
set_option relaxedAutoImplicit false

namespace Conet.Base.ListRings

open Conet.Lib Conet.Base.ListHead

universe u v

/-- List heads, entries, and the head on the stack of `list_swap`. -/
inductive Node (K : Type u) (H : Type v)
  | head (k : K)
  | item (h : H)
  | spare
  deriving DecidableEq

/-- Every head carries its own entries, and every other entry hangs on nothing. -/
structure Rings {K : Type u} {H : Type v} (links : Links (Node K H)) (L : K → List H) : Prop where
  circ : ∀ k, Circular links (.head k) ((L k).map .item)
  alone : ∀ h, (∀ k, h ∉ L k) → Circular links (.item h) []

variable {K : Type u} {H : Type v}

/-- The entries `l` hang on the head `k`, in this order. -/
def Holds (links : Links (Node K H)) (k : K) (l : List H) : Prop :=
  Circular links (.head k) (l.map .item)

/-- The entry `h` hangs on the head `k`. -/
def Linked (links : Links (Node K H)) (k : K) (h : H) : Prop := ∃ l, Holds links k l ∧ h ∈ l

/-- The node that follows on the circle of `k` when the entries `l` are left. -/
def follow (k : K) : List H → Node K H
  | [] => .head k
  | h :: _ => .item h

theorem follow_eq_head (k : K) (l : List H) :
    (l.map Node.item ++ [Node.head k]).head (by simp) = follow k l := by
  cases l <;> rfl

namespace Rings

variable {links : Links (Node K H)} {L : K → List H} {k k' : K} {h : H} {pre post : List H}

theorem nodup (rings : Rings links L) (k : K) : (L k).Nodup := (rings.circ k).nodup_tail.of_map

theorem holds_iff (rings : Rings links L) {l : List H} : Holds links k l ↔ l = L k := by
  refine ⟨fun holds => ?_, fun e => e ▸ rings.circ k⟩
  have inj : Function.Injective (Node.item : H → Node K H) := fun _ _ e => Node.item.inj e
  exact inj.list_map (Circular.unique holds (rings.circ k))

theorem linked_iff (rings : Rings links L) : Linked links k h ↔ h ∈ L k := by
  simp [Linked, rings.holds_iff]

theorem disjoint (rings : Rings links L) (hk : h ∈ L k) (hk' : h ∈ L k') : k = k' := by
  by_contra hne
  have apart : Node.head k' ∉ Node.head k :: (L k).map Node.item := by
    simpa using fun e : k' = k => hne e.symm
  exact (rings.circ k).disjoint (rings.circ k') apart (z := .item h) (by simpa using hk')
    (by simpa using hk)

theorem notMem_of_ne (rings : Rings links L) (hk : h ∈ L k) (hne : k' ≠ k) : h ∉ L k' :=
  fun hk' => hne (rings.disjoint hk' hk)

theorem next_head (rings : Rings links L) (k : K) : links.next (.head k) = follow k (L k) := by
  rw [(rings.circ k).next_head, follow_eq_head]

theorem next_item (rings : Rings links L) (split : L k = pre ++ h :: post) :
    links.next (.item h) = follow k post := by
  have circ := rings.circ k
  rw [split, List.map_append, List.map_cons] at circ
  rw [circ.next_of_split, follow_eq_head]

theorem next_first (rings : Rings links L) (first : L k = h :: post) :
    links.next (.item h) = follow k post := by
  have split : L k = [] ++ h :: post := first
  exact rings.next_item split

theorem prev_head (rings : Rings links L) (split : L k = pre ++ [h]) :
    links.prev (.head k) = .item h := by
  rw [(rings.circ k).prev_last]
  simp [split]

variable [DecidableEq K] [DecidableEq H]

theorem empty_iff (rings : Rings links L) (h : H) :
    listEmpty links (.item h) = true ↔ ∀ k, h ∉ L k := by
  constructor
  · intro empty k hk
    obtain ⟨pre, post, split⟩ := List.append_of_mem hk
    have nodup := rings.nodup k
    rw [split] at nodup
    have self : follow k post = .item h := by
      rw [← rings.next_item split]
      simpa [listEmpty] using empty
    cases post with
    | nil => simp [follow] at self
    | cons x post =>
      obtain rfl : x = h := by simpa [follow] using self
      simp [List.nodup_append] at nodup
  · intro free
    exact (listEmpty_iff (rings.alone h free)).mpr rfl

/-- `list_del_init` of an entry takes it off whatever circle it is on. -/
theorem unlink (rings : Rings links L) (h : H) :
    Rings (listDelInit links (.item h)) (fun k => (L k).erase h) := by
  by_cases free : ∀ k, h ∉ L k
  · rw [listDelInit_of_nil (rings.alone h free)]
    have same : (fun k => (L k).erase h) = L := funext fun k => List.erase_of_not_mem (free k)
    rwa [same]
  obtain ⟨k₀, hk₀⟩ : ∃ k, h ∈ L k := by simpa using free
  have on₀ : Node.item h ∈ Node.head k₀ :: (L k₀).map Node.item := by simpa using hk₀
  constructor
  · intro k
    by_cases hk : k = k₀
    · subst hk
      obtain ⟨pre, post, -, split, erased⟩ := List.exists_erase_eq hk₀
      have circ := rings.circ k
      rw [split, List.map_append, List.map_cons] at circ
      rw [erased, List.map_append]
      exact listDelInit_circular circ
    · rw [List.erase_of_not_mem (rings.notMem_of_ne hk₀ hk)]
      exact listDelInit_frame (rings.circ k₀) on₀ (rings.circ k) (by simpa using hk)
  · intro g free'
    by_cases hg : g = h
    · subst hg
      exact listDelInit_self _ _
    · have alone := rings.alone g fun k hmem => free' k ((List.mem_erase_of_ne hg).mpr hmem)
      refine listDelInit_frame (rings.circ k₀) on₀ alone ?_
      intro hmem
      refine free' k₀ ((List.mem_erase_of_ne hg).mpr ?_)
      simpa using hmem

/-- `list_add_tail` of an entry that hangs on nothing. -/
theorem append (rings : Rings links L) (free : ∀ k, h ∉ L k) (k : K) :
    Rings (listAddTail links (.item h) (.head k)) (Function.update L k (L k ++ [h])) := by
  constructor
  · intro k'
    by_cases hk : k' = k
    · subst hk
      rw [Function.update_self, List.map_append]
      exact listAddTail_circular (rings.circ k') (by simpa using free k')
    · rw [Function.update_of_ne hk]
      exact listAddTail_frame (rings.circ k) (rings.circ k') (by simpa using hk)
        (by simpa using free k')
  · intro g free'
    have hgh : g ≠ h := by
      rintro rfl
      exact free' k (by simp)
    have hg : ∀ k, g ∉ L k := by
      intro k' hmem
      refine free' k' ?_
      by_cases hk : k' = k
      · subst hk
        simp [hmem]
      · rwa [Function.update_of_ne hk]
    exact listAddTail_frame (rings.circ k) (rings.alone g hg) (by simpa using hg k)
      (by simpa using hgh.symm)

omit [DecidableEq K] in
/-- An entry that has been taken off hangs on nothing. -/
theorem notMem_erase (rings : Rings links L) (h : H) (k : K) : h ∉ (L k).erase h :=
  (rings.nodup k).not_mem_erase

theorem relink (rings : Rings links L) (h : H) (k : K) :
    Rings (listAddTail (listDelInit links (.item h)) (.item h) (.head k))
      (Function.update (fun j => (L j).erase h) k ((L k).erase h ++ [h])) :=
  (rings.unlink h).append (rings.notMem_erase h) k

/-- `list_add(k', k); list_del_init(k)`: an empty list takes over what hangs on another one. -/
theorem handOver (rings : Rings links L) (hne : k' ≠ k) (empty : L k' = []) :
    Rings (listDelInit (listAdd links (.head k') (.head k)) (.head k))
      (Function.update (Function.update L k []) k' (L k)) := by
  have fresh : Node.head k' ∉ Node.head k :: (L k).map Node.item := by simpa using hne
  have frame : ∀ {a : Node K H} {zs : List H}, Circular links a (zs.map Node.item) →
      a ≠ .head k → a ≠ .head k' →
      a ∉ (L k).map Node.item →
      Circular (listDelInit (listAdd links (.head k') (.head k)) (.head k)) a
        (zs.map Node.item) := by
    intro a zs circ hk hk' ha
    exact handOver_frame (rings.circ k) fresh circ (by simpa [hk] using ha)
      (by simpa using fun e => hk' e.symm)
  constructor
  · intro j
    by_cases hj' : j = k'
    · subst hj'
      rw [Function.update_self]
      exact handOver_circular (rings.circ k) fresh
    rw [Function.update_of_ne hj']
    by_cases hj : j = k
    · subst hj
      rw [Function.update_self]
      exact listDelInit_self _ _
    rw [Function.update_of_ne hj]
    exact frame (rings.circ j) (by simpa using hj) (by simpa using hj') (by simp)
  · intro g free
    have hk : g ∉ L k := by simpa using free k'
    have free' : ∀ j, g ∉ L j := by
      intro j
      by_cases hj' : j = k'
      · simp [hj', empty]
      by_cases hj : j = k
      · exact hj ▸ hk
      simpa [hj, hj'] using free j
    exact @frame _ [] (rings.alone g free') (by simp) (by simp) (by simpa using hk)

theorem swap (rings : Rings links L) (hne : k ≠ k') :
    Rings (listSwap links (.head k) (.head k') .spare)
      (Function.update (Function.update L k (L k')) k' (L k)) := by
  have apart : Node.head k' ∉ Node.head k :: (L k).map Node.item := by simpa using hne.symm
  have stack : ∀ j, Node.spare ∉ Node.head j :: (L j).map Node.item := by simp
  obtain ⟨swapped, swapped'⟩ :=
    listSwap_circular (rings.circ k) (rings.circ k') apart (stack k) (stack k')
  have others : ∀ {a zs}, Circular links a zs → a ∉ Node.head k :: (L k).map Node.item →
      a ∉ Node.head k' :: (L k').map Node.item → Node.spare ∉ a :: zs →
      Circular (listSwap links (.head k) (.head k') .spare) a zs := by
    intro a zs circ ha ha' hs
    refine circ.congr fun z hz => ?_
    exact listSwap_apart (rings.circ k) (rings.circ k') apart (stack k) (stack k')
      (fun e => hs (e ▸ hz)) ((rings.circ k).disjoint circ ha hz)
      ((rings.circ k').disjoint circ ha' hz)
  constructor
  · intro j
    by_cases hj' : j = k'
    · subst hj'
      rw [Function.update_self]
      exact swapped'
    rw [Function.update_of_ne hj']
    by_cases hj : j = k
    · subst hj
      rw [Function.update_self]
      exact swapped
    rw [Function.update_of_ne hj]
    exact others (rings.circ j) (by simpa using hj) (by simpa using hj') (by simp)
  · intro g free
    have hk : g ∉ L k := by simpa using free k'
    have hk' : g ∉ L k' := by simpa [hne] using free k
    have free' : ∀ j, g ∉ L j := by
      intro j
      by_cases hj' : j = k'
      · exact hj' ▸ hk'
      by_cases hj : j = k
      · exact hj ▸ hk
      simpa [hj, hj'] using free j
    exact others (rings.alone g free') (by simpa using hk) (by simpa using hk') (by simp)

end Rings

section Walk

universe w

variable {σ : Type w}

/-- A `_safe` loop over the circle of `k` is about to test `pos`: it has passed the entries
`passed`, stands on the first of `rest` and has saved the one after it. -/
structure OnRing (L : K → List H) (k : K) (c : SafeCursor (Node K H) σ)
    (passed rest : List H) : Prop where
  split : L k = passed ++ rest
  pos : c.pos = follow k rest
  n : ∀ {h post}, rest = h :: post → c.n = follow k post

variable {links : Links (Node K H)} {L : K → List H} {k : K} {h : H} {passed rest post : List H}
  {c : SafeCursor (Node K H) σ}

theorem OnRing.step (dir : σ → Node K H → Node K H) {st : σ} (rings : Rings links L) (next : dir st = links.next)
    (split : L k = passed ++ rest) (saved : c.n = follow k rest) :
    OnRing L k (⟨c.n, dir st c.n, st⟩ : SafeCursor (Node K H) σ) passed rest := by
  refine ⟨split, saved, ?_⟩
  rintro h post rfl
  rw [next, saved]
  exact rings.next_item split

theorem OnRing.start (dir : σ → Node K H → Node K H) {st : σ} (rings : Rings links L)
    (next : dir st = links.next) (k : K) :
    OnRing L k (forEachStart dir (.head k) st) [] (L k) := by
  have first : dir st (.head k) = follow k (L k) := by rw [next, rings.next_head]
  refine ⟨rfl, first, ?_⟩
  intro h post cons
  rw [cons] at first
  simp only [forEachStart, first, follow, next]
  exact rings.next_item (show L k = [] ++ h :: post from cons)

variable [DecidableEq K] [DecidableEq H] {body : Node K H → σ → Turn σ σ}
  {dir : σ → Node K H → Node K H} {st : σ}

theorem OnRing.leave (on : OnRing L k c passed []) :
    forEachSafe dir (.head k) body c = .leave c.st := by
  simp [forEachSafe, on.pos, follow]

end Walk

end Conet.Base.ListRings
