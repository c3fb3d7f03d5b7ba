/- Module: Conet/Base/ListHead
   source: base/list.h
   digest: The intrusive list_head operations, write by write, and what they do to circles. -/

import Conet.Lib.Circular
import Conet.Lib.Loop

set_option autoImplicit false
set_option relaxedAutoImplicit false

namespace Conet.Base.ListHead

open Conet.Lib

universe u v

variable {α : Type u} [DecidableEq α]

def initListHead (h : Links α) (list : α) : Links α := (h.setNext list list).setPrev list list

/-- `__list_add`. -/
def listAddBetween (h : Links α) (new prev next : α) : Links α :=
  (((h.setPrev next new).setNext new next).setPrev new prev).setNext prev new

def listAdd (h : Links α) (new head : α) : Links α := listAddBetween h new head (h.next head)

def listAddTail (h : Links α) (new head : α) : Links α :=
  listAddBetween h new (h.prev head) head

/-- `__list_del`. -/
def listDelBetween (h : Links α) (prev next : α) : Links α :=
  (h.setPrev next prev).setNext prev next

def listDelInit (h : Links α) (entry : α) : Links α :=
  initListHead (listDelBetween h (h.prev entry) (h.next entry)) entry

def listEmpty (h : Links α) (head : α) : Bool := h.next head == head

/-- `list_pop_head`: the popped entry, or nothing on an empty list. -/
def listPopHead (h : Links α) (head : α) : Option α × Links α :=
  if listEmpty h head then (none, h) else (some (h.next head), listDelInit h (h.next head))

def listPopTail (h : Links α) (head : α) : Option α × Links α :=
  if listEmpty h head then (none, h) else (some (h.prev head), listDelInit h (h.prev head))

def listMoveTail (h : Links α) (list head : α) : Links α :=
  listAddTail (listDelBetween h (h.prev list) (h.next list)) list head

/-- `list_swap`; `mid` is the node on the stack of the call. -/
def listSwap (h : Links α) (l r mid : α) : Links α :=
  let h := listAdd h mid l
  let h := listDelInit h l
  let h := listAdd h l r
  let h := listDelInit h r
  let h := listAdd h r mid
  listDelInit h mid

/-- The two cursors of the `_safe` loops, with the state the loop body works on. -/
structure SafeCursor (α : Type u) (σ : Type v) where
  pos : α
  n : α
  st : σ

section ForEach

variable {σ : Type v}

/-- One turn of `list_for_each_entry_safe`, or of its `_reverse` form, with `dir` the link it
follows: test `pos` against the head, run the body, then `pos = n, n = n->next`. -/
def forEachSafe (dir : σ → α → α) (head : α) (body : α → σ → Turn σ σ)
    (c : SafeCursor α σ) : Turn (SafeCursor α σ) σ :=
  if c.pos = head then .leave c.st
  else match body c.pos c.st with
    | .again st => .again ⟨c.n, dir st c.n, st⟩
    | .leave st => .leave st
    | .undefined => .undefined

/-- The loop's initialiser: `pos = head->next, n = pos->next`. -/
def forEachStart (dir : σ → α → α) (head : α) (st : σ) : SafeCursor α σ :=
  ⟨dir st head, dir st (dir st head), st⟩

end ForEach

section Specs

variable {h : Links α} {hd n a z l r mid : α} {xs ys zs : List α}

@[simp] theorem listDelInit_next (h : Links α) (e z : α) :
    (listDelInit h e).next z =
      if z = e then e else if z = h.prev e then h.next e else h.next z := by
  simp [listDelInit, initListHead, listDelBetween]

@[simp] theorem listDelInit_prev (h : Links α) (e z : α) :
    (listDelInit h e).prev z =
      if z = e then e else if z = h.next e then h.prev e else h.prev z := by
  simp [listDelInit, initListHead, listDelBetween]

/-- Whatever it hung on, the deleted entry ends up alone. -/
theorem listDelInit_self (h : Links α) (e : α) : Circular (listDelInit h e) e [] :=
  Circular.nil_iff.mpr (by simp)

theorem listDelInit_of_nil (circ : Circular h n []) : listDelInit h n = h := by
  obtain ⟨hn, hp⟩ := Circular.nil_iff.mp circ
  ext z
  · rw [listDelInit_next, hn, hp]
    split_ifs with hz
    · rw [hz, hn]
    · rfl
  · rw [listDelInit_prev, hn, hp]
    split_ifs with hz
    · rw [hz, hp]
    · rfl

theorem initListHead_of_nil (circ : Circular h n []) : initListHead h n = h := by
  obtain ⟨hn, hp⟩ := Circular.nil_iff.mp circ
  ext z
  · by_cases hz : z = n <;> simp [initListHead, hz, hn]
  · by_cases hz : z = n <;> simp [initListHead, hz, hp]

theorem listDelInit_circular (circ : Circular h hd (xs ++ n :: ys)) :
    Circular (listDelInit h n) hd (xs ++ ys) := by
  have hn : n ∉ hd :: (xs ++ ys) := by
    have perm : (hd :: (xs ++ n :: ys)).Perm (n :: hd :: (xs ++ ys)) :=
      (List.perm_middle.cons hd).trans (List.Perm.swap n hd _)
    exact (List.nodup_cons.mp (perm.nodup_iff.mp circ.nodup)).1
  have hl : (hd :: xs).getLast (by simp) ≠ n := by
    intro e
    have hmem : n ∈ hd :: xs := e ▸ List.getLast_mem (by simp)
    exact hn (by simpa using (List.mem_cons.mp hmem).imp_right Or.inl)
  have hf : (ys ++ [hd]).head (by simp) ≠ n := by
    intro e
    have hmem : n ∈ ys ++ [hd] := e ▸ List.head_mem (by simp)
    exact hn (by simpa [or_comm] using (List.mem_append.mp hmem).imp_left Or.inr)
  refine circ.remove ?_ ?_ ?_ ?_
  · rw [listDelInit_next, if_neg hl, circ.prev_of_split, if_pos rfl, circ.next_of_split]
  · rw [listDelInit_prev, if_neg hf, circ.next_of_split, if_pos rfl, circ.prev_of_split]
  · intro z hz hzl
    rw [listDelInit_next, if_neg hz, circ.prev_of_split, if_neg hzl]
  · intro z hz hzf
    rw [listDelInit_prev, if_neg hz, circ.next_of_split, if_neg hzf]

/-- Deleting an entry writes to the nodes of its circle only. -/
theorem listDelInit_apart (circ : Circular h hd xs) (hn : n ∈ hd :: xs) (hz : z ∉ hd :: xs) :
    (listDelInit h n).next z = h.next z ∧ (listDelInit h n).prev z = h.prev z := by
  have hzn : z ≠ n := fun e => hz (e ▸ hn)
  have hzp : z ≠ h.prev n := fun e => hz (e ▸ circ.prev_mem hn)
  have hzq : z ≠ h.next n := fun e => hz (e ▸ circ.next_mem hn)
  simp [hzn, hzp, hzq]

/-- Circles that share no node with the deleted entry's circle are not touched. -/
theorem listDelInit_frame (circ : Circular h hd xs) (hn : n ∈ hd :: xs) (other : Circular h a zs)
    (apart : a ∉ hd :: xs) : Circular (listDelInit h n) a zs :=
  other.congr fun _ hz => listDelInit_apart circ hn (circ.disjoint other apart hz)

@[simp] theorem listAddTail_next (h : Links α) (n hd z : α) :
    (listAddTail h n hd).next z =
      if z = h.prev hd then n else if z = n then hd else h.next z := by
  simp [listAddTail, listAddBetween]

@[simp] theorem listAddTail_prev (h : Links α) (n hd z : α) :
    (listAddTail h n hd).prev z =
      if z = n then h.prev hd else if z = hd then n else h.prev z := by
  simp [listAddTail, listAddBetween]

theorem listAddTail_circular (circ : Circular h hd xs) (fresh : n ∉ hd :: xs) :
    Circular (listAddTail h n hd) hd (xs ++ [n]) := by
  have hl : (hd :: xs).getLast (by simp) ≠ n := fun e => fresh (e ▸ List.getLast_mem (by simp))
  have hd_ne : hd ≠ n := fun e => fresh (by simp [e])
  have circ0 : Circular h hd (xs ++ []) := by simpa using circ
  refine circ0.insert (by simpa using fresh) ?_ ?_ ?_ ?_ ?_ ?_
  · simp [circ.prev_last]
  · simp [circ.prev_last]
  · rw [listAddTail_next, circ.prev_last, if_neg (Ne.symm hl), if_pos rfl]
    rfl
  · simp [hd_ne]
  · intro z hz hzl
    rw [listAddTail_next, circ.prev_last, if_neg hzl, if_neg hz]
  · intro z hz hzf
    have hzh : z ≠ hd := by simpa using hzf
    rw [listAddTail_prev, if_neg hz, if_neg hzh]

theorem listAddTail_frame (circ : Circular h hd xs) (other : Circular h a zs)
    (apart : a ∉ hd :: xs) (fresh : n ∉ a :: zs) : Circular (listAddTail h n hd) a zs := by
  refine other.congr fun z hz => ?_
  have hz' : z ∉ hd :: xs := circ.disjoint other apart hz
  have hzn : z ≠ n := fun e => fresh (e ▸ hz)
  have hzh : z ≠ hd := fun e => hz' (by simp [e])
  have hzp : z ≠ h.prev hd := fun e => hz' (e ▸ circ.prev_mem (by simp))
  simp [hzn, hzp, hzh]

@[simp] theorem listAdd_next (h : Links α) (n hd z : α) :
    (listAdd h n hd).next z =
      if z = hd then n else if z = n then h.next hd else h.next z := by
  simp [listAdd, listAddBetween]

@[simp] theorem listAdd_prev (h : Links α) (n hd z : α) :
    (listAdd h n hd).prev z =
      if z = n then hd else if z = h.next hd then n else h.prev z := by
  simp [listAdd, listAddBetween]

theorem listAdd_circular (circ : Circular h hd xs) (fresh : n ∉ hd :: xs) :
    Circular (listAdd h n hd) hd (n :: xs) := by
  have hf : (xs ++ [hd]).head (by simp) ≠ n := by
    intro e
    have hmem : n ∈ xs ++ [hd] := e ▸ List.head_mem (by simp)
    exact fresh (by simpa [or_comm] using hmem)
  have hd_ne : hd ≠ n := fun e => fresh (by simp [e])
  have circ0 : Circular h hd ([] ++ xs) := circ
  refine circ0.insert fresh ?_ ?_ ?_ ?_ ?_ ?_
  · simp
  · simp
  · rw [listAdd_next, if_neg hd_ne.symm, if_pos rfl, circ.next_head]
  · rw [listAdd_prev, if_neg hf, circ.next_head, if_pos rfl]
  · intro z hz hzl
    have hzh : z ≠ hd := by simpa using hzl
    rw [listAdd_next, if_neg hzh, if_neg hz]
  · intro z hz hzf
    rw [listAdd_prev, if_neg hz, circ.next_head, if_neg hzf]

theorem listAdd_apart (circ : Circular h hd xs) (hn : z ≠ n) (hz : z ∉ hd :: xs) :
    (listAdd h n hd).next z = h.next z ∧ (listAdd h n hd).prev z = h.prev z := by
  have hzh : z ≠ hd := fun e => hz (by simp [e])
  have hzp : z ≠ h.next hd := fun e => hz (e ▸ circ.next_mem (by simp))
  simp [hn, hzh, hzp]

/-- `list_add(n, hd); list_del_init(hd)`: the new head takes the whole circle over. -/
theorem handOver_circular (circ : Circular h hd xs) (fresh : n ∉ hd :: xs) :
    Circular (listDelInit (listAdd h n hd) hd) n xs := by
  have turned : Circular (listAdd h n hd) n (xs ++ hd :: []) := (listAdd_circular circ fresh).rotate
  simpa using listDelInit_circular turned

theorem handOver_apart (circ : Circular h hd xs) (fresh : n ∉ hd :: xs) (hn : z ≠ n)
    (hz : z ∉ hd :: xs) :
    (listDelInit (listAdd h n hd) hd).next z = h.next z ∧
      (listDelInit (listAdd h n hd) hd).prev z = h.prev z := by
  have added := listAdd_apart circ hn hz
  have out : z ∉ hd :: n :: xs := by
    intro mem
    rcases List.mem_cons.mp mem with e | mem
    · exact hz (by simp [e])
    · rcases List.mem_cons.mp mem with e | mem
      · exact hn e
      · exact hz (List.mem_cons_of_mem hd mem)
  have deleted := listDelInit_apart (listAdd_circular circ fresh) List.mem_cons_self out
  exact ⟨deleted.1.trans added.1, deleted.2.trans added.2⟩

theorem handOver_frame (circ : Circular h hd xs) (fresh : n ∉ hd :: xs)
    (other : Circular h a zs) (apart : a ∉ hd :: xs) (hn : n ∉ a :: zs) :
    Circular (listDelInit (listAdd h n hd) hd) a zs :=
  other.congr fun _ hz =>
    handOver_apart circ fresh (fun e => hn (e ▸ hz)) (circ.disjoint other apart hz)

section Swap

/-! `list_swap` hands over three times: `l` to `mid`, `r` to `l`, and `mid` to `r`. -/

variable (left : Circular h l xs) (right : Circular h r ys) (apart : r ∉ l :: xs)
  (stack : mid ∉ l :: xs) (stack' : mid ∉ r :: ys)

include left right apart stack stack'

theorem handOver_twice :
    Circular (listDelInit (listAdd (listDelInit (listAdd h mid l) l) l r) r) mid xs ∧
      Circular (listDelInit (listAdd (listDelInit (listAdd h mid l) l) l r) r) l ys := by
  have hl := left.head_apart right apart
  have hlm : l ∉ mid :: xs :=
    List.not_mem_cons_of_ne_of_not_mem (List.ne_of_not_mem_cons stack).symm left.head_notMem
  have one := handOver_circular left stack
  have one' := handOver_frame left stack right apart stack'
  exact ⟨handOver_frame one' hl one stack' hlm, handOver_circular one' hl⟩

theorem listSwap_circular :
    Circular (listSwap h l r mid) l ys ∧ Circular (listSwap h l r mid) r xs := by
  obtain ⟨two, two'⟩ := handOver_twice left right apart stack stack'
  have hr : r ∉ mid :: xs :=
    List.not_mem_cons_of_ne_of_not_mem (List.ne_of_not_mem_cons stack').symm
      (List.not_mem_of_not_mem_cons apart)
  have hr' : r ∉ l :: ys :=
    List.not_mem_cons_of_ne_of_not_mem (List.ne_of_not_mem_cons apart) right.head_notMem
  have hlm : l ∉ mid :: xs :=
    List.not_mem_cons_of_ne_of_not_mem (List.ne_of_not_mem_cons stack).symm left.head_notMem
  exact ⟨handOver_frame two hr two' hlm hr', handOver_circular two hr⟩

/-- `list_swap` writes to the two circles and to its own head only. -/
theorem listSwap_apart (hm : z ≠ mid) (hz : z ∉ l :: xs) (hz' : z ∉ r :: ys) :
    (listSwap h l r mid).next z = h.next z ∧ (listSwap h l r mid).prev z = h.prev z := by
  have hr : r ∉ mid :: xs :=
    List.not_mem_cons_of_ne_of_not_mem (List.ne_of_not_mem_cons stack').symm
      (List.not_mem_of_not_mem_cons apart)
  have one' := handOver_frame left stack right apart stack'
  have two := (handOver_twice left right apart stack stack').1
  have first := handOver_apart left stack hm hz
  have second := handOver_apart one' (left.head_apart right apart) (List.ne_of_not_mem_cons hz) hz'
  have third := handOver_apart two hr (List.ne_of_not_mem_cons hz')
    (List.not_mem_cons_of_ne_of_not_mem hm (List.not_mem_of_not_mem_cons hz))
  exact ⟨third.1.trans (second.1.trans first.1), third.2.trans (second.2.trans first.2)⟩

/-- `list_swap` exchanges the elements of two circles: all links are consistent again, none of them is
left to the head on its stack, and no other node has been written. -/
theorem listSwap_exchanges :
    Circular (listSwap h l r mid) l ys ∧ Circular (listSwap h l r mid) r xs ∧
      (∀ z ∈ l :: xs ++ r :: ys,
        (listSwap h l r mid).next z ≠ mid ∧ (listSwap h l r mid).prev z ≠ mid) ∧
      ∀ z ∉ mid :: (l :: xs ++ r :: ys),
        (listSwap h l r mid).next z = h.next z ∧ (listSwap h l r mid).prev z = h.prev z := by
  obtain ⟨swapped, swapped'⟩ := listSwap_circular left right apart stack stack'
  have out : mid ∉ l :: ys :=
    List.not_mem_cons_of_ne_of_not_mem (List.ne_of_not_mem_cons stack)
      (List.not_mem_of_not_mem_cons stack')
  have out' : mid ∉ r :: xs :=
    List.not_mem_cons_of_ne_of_not_mem (List.ne_of_not_mem_cons stack')
      (List.not_mem_of_not_mem_cons stack)
  refine ⟨swapped, swapped', fun z hz => ?_, fun z hz => ?_⟩
  · have side : z ∈ l :: ys ∨ z ∈ r :: xs := by
      simp only [List.mem_append, List.mem_cons] at hz ⊢
      tauto
    rcases side with hz | hz
    · exact ⟨fun e => out (e ▸ swapped.next_mem hz), fun e => out (e ▸ swapped.prev_mem hz)⟩
    · exact ⟨fun e => out' (e ▸ swapped'.next_mem hz), fun e => out' (e ▸ swapped'.prev_mem hz)⟩
  · obtain ⟨hm, rest⟩ := not_or.mp (List.mem_cons.not.mp hz)
    obtain ⟨hl, hr⟩ := not_or.mp (List.mem_append.not.mp rest)
    exact listSwap_apart left right apart stack stack' hm hl hr

end Swap

/-- The circle of 0 with 1 and 2 on it; all other nodes are alone. -/
def pair : Links ℕ where
  next n := match n with
    | 0 => 1
    | 1 => 2
    | 2 => 0
    | n => n
  prev n := match n with
    | 0 => 2
    | 1 => 0
    | 2 => 1
    | n => n

/-- It is swapped with the empty list of 3. -/
theorem pair_exchanged : Circular pair 0 [1, 2] ∧ Circular pair 3 [] ∧
    Circular (listSwap pair 0 3 4) 0 [] ∧ Circular (listSwap pair 0 3 4) 3 [1, 2] := by
  have left : Circular pair 0 [1, 2] := ⟨⟨rfl, rfl, rfl, rfl, rfl, rfl⟩, by decide⟩
  have right : Circular pair 3 [] := ⟨⟨rfl, rfl⟩, by decide⟩
  have stack : 4 ∉ [0, 1, 2] := by decide
  have swapped := listSwap_exchanges left right (by decide) stack (by decide)
  exact ⟨left, right, swapped.1, swapped.2.1⟩

/-- To move an entry is to delete it and to add it again. -/
theorem listMoveTail_eq (h : Links α) (hne : hd ≠ n) :
    listMoveTail h n hd = listAddTail (listDelInit h n) n hd := by
  have last : (listDelInit h n).prev hd =
      (listDelBetween h (h.prev n) (h.next n)).prev hd := by
    simp [listDelInit, initListHead, hne]
  ext z
  · rw [listAddTail_next, last]
    simp only [listMoveTail, listAddTail_next]
    by_cases hz : z = n
    · simp [hz]
    · simp [hz, listDelInit, initListHead]
  · rw [listAddTail_prev, last]
    simp only [listMoveTail, listAddTail_prev]
    by_cases hz : z = n
    · simp [hz]
    · simp [hz, listDelInit, initListHead]

theorem listEmpty_iff (circ : Circular h hd xs) : listEmpty h hd = true ↔ xs = [] := by
  simp [listEmpty, circ.next_eq_head_iff]

end Specs

end Conet.Base.ListHead
