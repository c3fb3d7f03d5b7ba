/- Module: Conet/Base/ListCut
   source: base/list.h
   digest: list_del and list_cut_position, and what they do to circles. -/

import Conet.Base.ListHead

set_option autoImplicit false
set_option relaxedAutoImplicit false

namespace Conet.Base.ListCut

open Conet.Lib Conet.Base.ListHead

universe u

variable {α : Type u} [DecidableEq α]

def listDel (poison : α) (h : Links α) (entry : α) : Links α :=
  ((listDelBetween h (h.prev entry) (h.next entry)).setNext entry poison).setPrev entry poison

def listIsSingular (h : Links α) (head : α) : Bool :=
  !listEmpty h head && h.next head == h.prev head

/-- `__list_cut_position`. -/
def cutPosition (h : Links α) (list head entry : α) : Links α :=
  let newFirst := h.next entry
  let h := h.setNext list (h.next head)
  let h := h.setPrev (h.next list) list
  let h := h.setPrev list entry
  let h := h.setNext entry list
  let h := h.setNext head newFirst
  h.setPrev newFirst head

def listCutPosition (h : Links α) (list head entry : α) : Links α :=
  if listEmpty h head then h
  else if listIsSingular h head && (h.next head != entry && head != entry) then h
  else if entry = head then initListHead h list
  else cutPosition h list head entry

section Specs

variable {h : Links α} {hd e n a list poison : α} {xs ys zs : List α}

theorem listDel_next (poison : α) (h : Links α) (e z : α) :
    (listDel poison h e).next z = if z = e then poison else (listDelInit h e).next z := by
  by_cases hz : z = e <;> simp [listDel, listDelBetween, hz]

theorem listDel_prev (poison : α) (h : Links α) (e z : α) :
    (listDel poison h e).prev z = if z = e then poison else (listDelInit h e).prev z := by
  by_cases hz : z = e <;> simp [listDel, listDelBetween, hz]

/-- On a circle without the deleted entry, `list_del` does what `list_del_init` does. -/
theorem listDel_of_init (circ : Circular (listDelInit h e) hd xs) (apart : e ∉ hd :: xs) :
    Circular (listDel poison h e) hd xs := by
  refine circ.congr fun z hz => ?_
  have other : z ≠ e := fun same => apart (same ▸ hz)
  rw [listDel_next, listDel_prev, if_neg other, if_neg other]
  exact ⟨rfl, rfl⟩

theorem listDel_circular (circ : Circular h hd (e :: xs)) : Circular (listDel poison h e) hd xs := by
  have circ' : Circular h hd ([] ++ e :: xs) := circ
  refine listDel_of_init (listDelInit_circular circ') ?_
  have nodup := circ.nodup
  simp only [List.nodup_cons, List.mem_cons, not_or] at nodup
  intro mem
  obtain same | inside := List.mem_cons.mp mem
  · exact nodup.1.1 same.symm
  · exact nodup.2.1 inside

theorem listDel_frame (circ : Circular h hd xs) (on : e ∈ hd :: xs) (other : Circular h a zs)
    (apart : a ∉ hd :: xs) : Circular (listDel poison h e) a zs := by
  refine listDel_of_init (listDelInit_frame circ on other apart) fun mem => ?_
  exact circ.disjoint other apart mem on

@[simp] theorem cutPosition_next (h : Links α) (list hd e z : α) :
    (cutPosition h list hd e).next z =
      if z = hd then h.next e else if z = e then list else if z = list then h.next hd
      else h.next z := by
  simp [cutPosition]

@[simp] theorem cutPosition_prev (h : Links α) (list hd e z : α) :
    (cutPosition h list hd e).prev z =
      if z = h.next e then hd else if z = list then e else if z = h.next hd then list
      else h.prev z := by
  simp [cutPosition]

/-- What came before the entry, and the entry, hang on `list` after the cut. -/
theorem cutPosition_initial (circ : Circular h hd (xs ++ e :: ys))
    (fresh : list ∉ hd :: (xs ++ e :: ys)) :
    Circular (cutPosition h list hd e) list (xs ++ [e]) := by
  obtain ⟨before, after⟩ := path_append.mp circ.path
  have first := before.next_head
  have rest := after.next_head
  have nodup := circ.nodup
  simp only [List.nodup_cons, List.nodup_append, List.mem_append, List.mem_cons, not_or] at nodup fresh
  have firstMem : h.next hd ∈ xs ++ [e] := first ▸ List.head_mem (by simp)
  have restMem : h.next e ∈ ys ++ [hd] := rest ▸ List.head_mem (by simp)
  simp only [List.mem_append, List.mem_singleton] at firstMem restMem
  refine ⟨path_append.mpr ⟨?_, ?_⟩, ?_⟩
  · refine before.restart ?_ ?_ ?_ ?_ ?_ ?_ ?_
    · simp only [List.nodup_cons]
      exact ⟨nodup.1.1, nodup.2.1⟩
    · grind
    · exact fresh.2.1
    · rw [cutPosition_next, if_neg fresh.1, if_neg fresh.2.2.1, if_pos rfl, first]
    · rw [← first, cutPosition_prev]
      grind
    · intro z hz
      rw [cutPosition_next]
      grind
    · intro z hz other
      rw [← first] at other
      rw [cutPosition_prev]
      grind
  · constructor
    · rw [cutPosition_next]
      grind
    · rw [cutPosition_prev]
      grind
  · simp only [List.nodup_cons, List.nodup_append, List.mem_append, List.mem_singleton]
    grind

theorem cutPosition_final (circ : Circular h hd (xs ++ e :: ys))
    (fresh : list ∉ hd :: (xs ++ e :: ys)) : Circular (cutPosition h list hd e) hd ys := by
  obtain ⟨before, after⟩ := path_append.mp circ.path
  have first := before.next_head
  have rest := after.next_head
  have nodup := circ.nodup
  simp only [List.nodup_cons, List.nodup_append, List.mem_append, List.mem_cons, not_or] at nodup fresh
  have firstMem : h.next hd ∈ xs ++ [e] := first ▸ List.head_mem (by simp)
  simp only [List.mem_append, List.mem_singleton] at firstMem
  refine ⟨?_, ?_⟩
  · refine after.restart ?_ ?_ ?_ ?_ ?_ ?_ ?_
    · simp only [List.nodup_cons]
      grind
    · grind
    · grind
    · rw [cutPosition_next, if_pos rfl, rest]
    · rw [← rest, cutPosition_prev, if_pos rfl]
    · intro z hz
      rw [cutPosition_next]
      grind
    · intro z hz other
      rw [← rest] at other
      rw [cutPosition_prev]
      simp only [List.mem_append, List.mem_singleton] at hz
      grind
  · simp only [List.nodup_cons]
    grind

theorem listCutPosition_eq (circ : Circular h hd (xs ++ e :: ys)) (list : α) :
    listCutPosition h list hd e = cutPosition h list hd e := by
  have nodup := circ.nodup
  have nonempty : listEmpty h hd = false := by
    rw [Bool.eq_false_iff, ne_eq, listEmpty_iff circ]
    simp
  have other : e ≠ hd := by
    rintro rfl
    simp at nodup
  have here : (listIsSingular h hd && (h.next hd != e && hd != e)) = false := by
    cases xs with
    | nil =>
      have first : h.next hd = e := circ.next_head
      simp [first]
    | cons x xs =>
      -- there are two entries
      have first : h.next hd = x := circ.next_head
      have last : h.prev hd = (e :: ys).getLast (by simp) := by
        rw [circ.prev_last]
        simp
      have mem : (e :: ys).getLast (by simp) ∈ e :: ys := List.getLast_mem (by simp)
      have apart : x ≠ (e :: ys).getLast (by simp) := by
        intro same
        rw [← same] at mem
        simp only [List.cons_append, List.nodup_cons, List.mem_append, not_or] at nodup
        exact nodup.2.1.2 mem
      simp [listIsSingular, first, last, apart]
  rw [listCutPosition, nonempty, here]
  simp [other]

end Specs

end Conet.Base.ListCut
