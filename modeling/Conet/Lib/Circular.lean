/- Module: Conet/Lib/Circular
   source: none (library)
   digest: Circular doubly linked lists over an arbitrary type of nodes. -/

import Mathlib.Data.List.Nodup
import Mathlib.Tactic.Common

set_option autoImplicit false
set_option relaxedAutoImplicit false

namespace Conet.Lib

universe u

/-- The two link fields of every node of a heap. -/
@[ext] structure Links (α : Type u) where
  next : α → α
  prev : α → α

variable {α : Type u}

section Writes

variable [DecidableEq α]

def Links.setNext (h : Links α) (a b : α) : Links α :=
  { h with next := fun c => if c = a then b else h.next c }

def Links.setPrev (h : Links α) (a b : α) : Links α :=
  { h with prev := fun c => if c = a then b else h.prev c }

@[simp] theorem Links.setNext_next (h : Links α) (a b c : α) :
    (h.setNext a b).next c = if c = a then b else h.next c := rfl

@[simp] theorem Links.setNext_prev (h : Links α) (a b : α) :
    (h.setNext a b).prev = h.prev := rfl

@[simp] theorem Links.setPrev_prev (h : Links α) (a b c : α) :
    (h.setPrev a b).prev c = if c = a then b else h.prev c := rfl

@[simp] theorem Links.setPrev_next (h : Links α) (a b : α) :
    (h.setPrev a b).next = h.next := rfl

end Writes

/-- Consecutive nodes of `a :: xs ++ [b]` point at each other. -/
def Path (h : Links α) : α → List α → α → Prop
  | a, [], b => h.next a = b ∧ h.prev b = a
  | a, x :: xs, b => h.next a = x ∧ h.prev x = a ∧ Path h x xs b

/-- The nodes `xs` hang on the circle headed by `hd`, in `next` order. -/
structure Circular (h : Links α) (hd : α) (xs : List α) : Prop where
  path : Path h hd xs hd
  nodup : (hd :: xs).Nodup

theorem path_append {h : Links α} {a y b : α} {xs ys : List α} :
    Path h a (xs ++ y :: ys) b ↔ Path h a xs y ∧ Path h y ys b := by
  induction xs generalizing a with
  | nil => simp [Path, and_assoc]
  | cons x xs ih => simp [Path, ih, and_assoc]

namespace Path

variable {h h' : Links α} {a b n z : α} {xs ys : List α}

/-- A path reads `next` of all its nodes but the last and `prev` of all but the first. -/
theorem congr (path : Path h a xs b) (next : ∀ z ∈ a :: xs, h'.next z = h.next z)
    (prev : ∀ z ∈ xs ++ [b], h'.prev z = h.prev z) : Path h' a xs b := by
  induction xs generalizing a with
  | nil =>
    obtain ⟨hn, hp⟩ := path
    exact ⟨(next a (by simp)).trans hn, (prev b (by simp)).trans hp⟩
  | cons x xs ih =>
    obtain ⟨hn, hp, rest⟩ := path
    refine ⟨(next a (by simp)).trans hn, (prev x (by simp)).trans hp, ih rest ?_ ?_⟩
    · intro z hz
      exact next z (List.mem_cons_of_mem _ hz)
    · intro z hz
      exact prev z (List.mem_cons_of_mem _ hz)

theorem next_head (path : Path h a xs b) : h.next a = (xs ++ [b]).head (by simp) := by
  cases xs with
  | nil => exact path.1
  | cons x xs => exact path.1

theorem prev_last (path : Path h a xs b) : h.prev b = (a :: xs).getLast (by simp) := by
  induction xs generalizing a with
  | nil => exact path.2
  | cons x xs ih => simpa using ih path.2.2

/-- Every node of a path steps to a later node of it. -/
theorem next_mem (path : Path h a xs b) (hz : z ∈ a :: xs) : h.next z ∈ xs ++ [b] := by
  induction xs generalizing a with
  | nil =>
    obtain rfl : z = a := by simpa using hz
    simp [path.1]
  | cons x xs ih =>
    rcases List.mem_cons.mp hz with rfl | hz
    · simp [path.1]
    · exact List.mem_cons_of_mem _ (ih path.2.2 hz)

theorem prev_mem (path : Path h a xs b) (hz : z ∈ xs ++ [b]) : h.prev z ∈ a :: xs := by
  induction xs generalizing a with
  | nil =>
    obtain rfl : z = b := by simpa using hz
    simp [path.2]
  | cons x xs ih =>
    rcases List.mem_cons.mp hz with rfl | hz
    · simp [path.2.1]
    · exact List.mem_cons_of_mem _ (ih path.2.2 hz)

theorem unique (path : Path h a xs b) (path' : Path h a ys b) (hx : b ∉ xs) (hy : b ∉ ys) :
    xs = ys := by
  induction xs generalizing a ys with
  | nil =>
    cases ys with
    | nil => rfl
    | cons y ys =>
      have meet : b = y := path.1.symm.trans path'.1
      exact absurd (by simp [meet]) hy
  | cons x xs ih =>
    cases ys with
    | nil =>
      have meet : x = b := path.1.symm.trans path'.1
      exact absurd (by simp [meet]) hx
    | cons y ys =>
      obtain rfl : x = y := path.1.symm.trans path'.1
      rw [ih path.2.2 path'.2.2 (fun h => hx (List.mem_cons_of_mem _ h))
        fun h => hy (List.mem_cons_of_mem _ h)]

/-- A set closed under `next` that meets a path contains its end. -/
theorem end_mem {s : α → Prop} (closed : ∀ y, s y → s (h.next y)) (path : Path h a xs b)
    (hz : z ∈ a :: xs) (hs : s z) : s b := by
  induction xs generalizing a z with
  | nil =>
    obtain rfl : z = a := by simpa using hz
    exact path.1 ▸ closed z hs
  | cons x xs ih =>
    rcases List.mem_cons.mp hz with rfl | hz
    · have hx : s x := path.1 ▸ closed z hs
      exact ih path.2.2 (by simp) hx
    · exact ih path.2.2 hz hs

theorem restart (path : Path h a xs b) (nodup : (a :: xs).Nodup) (hb : b ∉ xs)
    (fresh : n ∉ xs) (next_new : h'.next n = (xs ++ [b]).head (by simp))
    (prev_first : h'.prev ((xs ++ [b]).head (by simp)) = n)
    (next : ∀ z ∈ xs, h'.next z = h.next z)
    (prev : ∀ z ∈ xs ++ [b], z ≠ (xs ++ [b]).head (by simp) → h'.prev z = h.prev z) :
    Path h' n xs b := by
  cases xs with
  | nil => exact ⟨next_new, prev_first⟩
  | cons y ys =>
    have hy : y ∉ ys := (List.nodup_cons.mp (List.nodup_cons.mp nodup).2).1
    refine ⟨next_new, prev_first, path.2.2.congr next ?_⟩
    intro z hz
    refine prev z (List.mem_cons_of_mem _ hz) ?_
    rintro rfl
    rcases List.mem_append.mp hz with hz | hz
    · exact hy hz
    · simp only [List.mem_singleton] at hz
      exact hb (by simp [← hz])

/-- Writing a fresh node between the last of `a :: xs` and the first of `ys ++ [b]`. -/
theorem insert (path : Path h a (xs ++ ys) b) (nodup : (a :: (xs ++ ys)).Nodup)
    (hb : b ∉ xs ++ ys) (fresh : n ∉ a :: (xs ++ ys)) (hnb : n ≠ b)
    (next_last : h'.next ((a :: xs).getLast (by simp)) = n)
    (prev_new : h'.prev n = (a :: xs).getLast (by simp))
    (next_new : h'.next n = (ys ++ [b]).head (by simp))
    (prev_first : h'.prev ((ys ++ [b]).head (by simp)) = n)
    (next : ∀ z, z ≠ n → z ≠ (a :: xs).getLast (by simp) → h'.next z = h.next z)
    (prev : ∀ z, z ≠ n → z ≠ (ys ++ [b]).head (by simp) → h'.prev z = h.prev z) :
    Path h' a (xs ++ n :: ys) b := by
  induction xs generalizing a with
  | nil =>
    have hya : ∀ z ∈ ys, z ≠ a := fun z hz e => (List.nodup_cons.mp nodup).1 (by simp [← e, hz])
    have hyn : ∀ z ∈ ys, z ≠ n := fun z hz e => fresh (by simp [← e, hz])
    refine ⟨next_last, prev_new, restart path nodup hb (fun hn => hyn n hn rfl) next_new
      prev_first (fun z hz => next z (hyn z hz) (hya z hz)) fun z hz hne => prev z ?_ hne⟩
    rcases List.mem_append.mp hz with hz | hz
    · exact hyn z hz
    · obtain rfl : z = b := by simpa using hz
      exact hnb.symm
  | cons x xs ih =>
    obtain ⟨hn, hp, rest⟩ := path
    obtain ⟨ha, nodup⟩ := List.nodup_cons.mp nodup
    have hax : a ≠ (x :: xs).getLast (by simp) := fun e =>
      ha (List.mem_append_left ys (e ▸ List.getLast_mem (by simp)))
    have hxq : x ≠ (ys ++ [b]).head (by simp) := by
      intro e
      have hmem : x ∈ ys ++ [b] := e ▸ List.head_mem (by simp)
      rcases List.mem_append.mp hmem with hx | hx
      · exact (List.nodup_cons.mp nodup).1 (List.mem_append_right xs hx)
      · exact hb (by simp [← List.mem_singleton.mp hx])
    have han : a ≠ n := fun e => fresh (by simp [e])
    have hxn : x ≠ n := fun e => fresh (by simp [e])
    refine ⟨(next a han (by simpa using hax)).trans hn, (prev x hxn hxq).trans hp, ?_⟩
    refine ih rest nodup (fun hmem => hb (List.mem_cons_of_mem _ hmem))
      (fun hmem => fresh (List.mem_cons_of_mem _ hmem)) ?_ ?_ ?_
    · simpa using next_last
    · simpa using prev_new
    · intro z hzn hzl
      exact next z hzn (by simpa using hzl)

/-- Writing the last of `a :: xs` and the first of `ys ++ [b]` over the node between them. -/
theorem remove (path : Path h a (xs ++ n :: ys) b) (nodup : (a :: (xs ++ n :: ys)).Nodup)
    (hb : b ∉ xs ++ n :: ys)
    (next_last : h'.next ((a :: xs).getLast (by simp)) = (ys ++ [b]).head (by simp))
    (prev_first : h'.prev ((ys ++ [b]).head (by simp)) = (a :: xs).getLast (by simp))
    (next : ∀ z, z ≠ n → z ≠ (a :: xs).getLast (by simp) → h'.next z = h.next z)
    (prev : ∀ z, z ≠ n → z ≠ (ys ++ [b]).head (by simp) → h'.prev z = h.prev z) :
    Path h' a (xs ++ ys) b := by
  induction xs generalizing a with
  | nil =>
    obtain ⟨ha, nodup⟩ := List.nodup_cons.mp nodup
    have hn : n ∉ ys := (List.nodup_cons.mp nodup).1
    have hya : ∀ z ∈ ys, z ≠ a := fun z hz e => ha (by simp [← e, hz])
    have hyn : ∀ z ∈ ys, z ≠ n := fun z hz e => hn (by simpa [← e] using hz)
    refine restart path.2.2 nodup (fun hmem => hb (List.mem_cons_of_mem _ hmem))
      (fun hmem => hya a hmem rfl) next_last prev_first
      (fun z hz => next z (hyn z hz) (hya z hz)) fun z hz hne => prev z ?_ hne
    rcases List.mem_append.mp hz with hz | hz
    · exact hyn z hz
    · obtain rfl : z = b := by simpa using hz
      exact fun e => hb (by simp [e])
  | cons x xs ih =>
    obtain ⟨hn, hp, rest⟩ := path
    obtain ⟨ha, nodup⟩ := List.nodup_cons.mp nodup
    have hax : a ≠ (x :: xs).getLast (by simp) := fun e =>
      ha (List.mem_append_left (n :: ys) (e ▸ List.getLast_mem (by simp)))
    have hxq : x ≠ (ys ++ [b]).head (by simp) := by
      intro e
      have hmem : x ∈ ys ++ [b] := e ▸ List.head_mem (by simp)
      rcases List.mem_append.mp hmem with hx | hx
      · exact (List.nodup_cons.mp nodup).1
          (List.mem_append_right xs (List.mem_cons_of_mem _ hx))
      · exact hb (by simp [← List.mem_singleton.mp hx])
    have han : a ≠ n := fun e => ha (by simp [e])
    have hxn : x ≠ n := fun e => (List.nodup_cons.mp nodup).1 (by simp [e])
    refine ⟨(next a han (by simpa using hax)).trans hn, (prev x hxn hxq).trans hp, ?_⟩
    refine ih rest nodup (fun hmem => hb (List.mem_cons_of_mem _ hmem)) ?_ ?_ ?_
    · simpa using next_last
    · simpa using prev_first
    · intro z hzn hzl
      exact next z hzn (by simpa using hzl)

end Path

namespace Circular

variable {h h' : Links α} {hd n z : α} {xs ys : List α}

theorem head_notMem (circ : Circular h hd xs) : hd ∉ xs := (List.nodup_cons.mp circ.nodup).1

theorem nodup_tail (circ : Circular h hd xs) : xs.Nodup := (List.nodup_cons.mp circ.nodup).2

theorem nil_iff : Circular h hd [] ↔ h.next hd = hd ∧ h.prev hd = hd :=
  ⟨fun circ => circ.path, fun path => ⟨path, by simp⟩⟩

theorem next_head (circ : Circular h hd xs) : h.next hd = (xs ++ [hd]).head (by simp) :=
  circ.path.next_head

/-- What hangs on a head is determined by the links. -/
theorem unique (circ : Circular h hd xs) (circ' : Circular h hd ys) : xs = ys :=
  circ.path.unique circ'.path circ.head_notMem circ'.head_notMem

theorem prev_last (circ : Circular h hd xs) : h.prev hd = (hd :: xs).getLast (by simp) :=
  circ.path.prev_last

/-- A node of a circle points at the node after it. -/
theorem next_of_split (circ : Circular h hd (xs ++ n :: ys)) :
    h.next n = (ys ++ [hd]).head (by simp) := (path_append.mp circ.path).2.next_head

theorem next_of_cons (circ : Circular h hd (n :: ys)) :
    h.next n = (ys ++ [hd]).head (by simp) := circ.path.2.2.next_head

theorem prev_of_split (circ : Circular h hd (xs ++ n :: ys)) :
    h.prev n = (hd :: xs).getLast (by simp) := (path_append.mp circ.path).1.prev_last

/-- The emptiness test of a circle looks at one link only. -/
theorem next_eq_head_iff (circ : Circular h hd xs) : h.next hd = hd ↔ xs = [] := by
  cases xs with
  | nil => simp [circ.next_head]
  | cons x xs =>
    have : x ≠ hd := fun e => circ.head_notMem (by simp [e])
    simp [circ.next_head, this]

theorem congr (circ : Circular h hd xs)
    (same : ∀ z ∈ hd :: xs, h'.next z = h.next z ∧ h'.prev z = h.prev z) :
    Circular h' hd xs := by
  refine ⟨circ.path.congr (fun z hz => (same z hz).1) fun z hz => (same z ?_).2, circ.nodup⟩
  simpa [or_comm] using hz

theorem next_mem (circ : Circular h hd xs) (hz : z ∈ hd :: xs) : h.next z ∈ hd :: xs := by
  simpa [or_comm] using circ.path.next_mem hz

theorem prev_mem (circ : Circular h hd xs) (hz : z ∈ hd :: xs) : h.prev z ∈ hd :: xs :=
  circ.path.prev_mem (by simpa [or_comm] using hz)

/-- Two circles share no node unless the head of one hangs on the other. -/
theorem disjoint {hd' : α} (circ : Circular h hd xs) (circ' : Circular h hd' ys)
    (apart : hd' ∉ hd :: xs) (hz : z ∈ hd' :: ys) : z ∉ hd :: xs := by
  intro hz'
  exact apart (circ'.path.end_mem (s := fun y => y ∈ hd :: xs)
    (fun y hy => circ.next_mem hy) hz hz')

theorem head_apart {hd' : α} (circ : Circular h hd xs) (circ' : Circular h hd' ys)
    (apart : hd' ∉ hd :: xs) : hd ∉ hd' :: ys :=
  fun mem => circ.disjoint circ' apart mem List.mem_cons_self

/-- A node that hangs on nothing hangs on no other circle. -/
theorem notMem_of_nil (alone : Circular h n []) (circ : Circular h hd xs) (hne : hd ≠ n) :
    n ∉ hd :: xs := fun hmem => alone.disjoint circ (by simpa using hne) hmem (by simp)

/-- Any node of a circle can be taken for its head. -/
theorem rotate (circ : Circular h hd (n :: xs)) : Circular h n (xs ++ [hd]) := by
  obtain ⟨hn, hp, rest⟩ := circ.path
  exact ⟨path_append.mpr ⟨rest, hn, hp⟩, (List.perm_append_singleton hd (n :: xs)).symm.nodup_iff.mp circ.nodup⟩

theorem insert (circ : Circular h hd (xs ++ ys)) (fresh : n ∉ hd :: (xs ++ ys))
    (next_last : h'.next ((hd :: xs).getLast (by simp)) = n)
    (prev_new : h'.prev n = (hd :: xs).getLast (by simp))
    (next_new : h'.next n = (ys ++ [hd]).head (by simp))
    (prev_first : h'.prev ((ys ++ [hd]).head (by simp)) = n)
    (next : ∀ z, z ≠ n → z ≠ (hd :: xs).getLast (by simp) → h'.next z = h.next z)
    (prev : ∀ z, z ≠ n → z ≠ (ys ++ [hd]).head (by simp) → h'.prev z = h.prev z) :
    Circular h' hd (xs ++ n :: ys) := by
  refine ⟨circ.path.insert circ.nodup circ.head_notMem fresh (fun e => fresh (by simp [e]))
    next_last prev_new next_new prev_first next prev, ?_⟩
  have perm : (hd :: (xs ++ n :: ys)).Perm (n :: hd :: (xs ++ ys)) :=
    (List.perm_middle.cons hd).trans (List.Perm.swap n hd _)
  exact perm.nodup_iff.mpr (List.nodup_cons.mpr ⟨fresh, circ.nodup⟩)

theorem remove (circ : Circular h hd (xs ++ n :: ys))
    (next_last : h'.next ((hd :: xs).getLast (by simp)) = (ys ++ [hd]).head (by simp))
    (prev_first : h'.prev ((ys ++ [hd]).head (by simp)) = (hd :: xs).getLast (by simp))
    (next : ∀ z, z ≠ n → z ≠ (hd :: xs).getLast (by simp) → h'.next z = h.next z)
    (prev : ∀ z, z ≠ n → z ≠ (ys ++ [hd]).head (by simp) → h'.prev z = h.prev z) :
    Circular h' hd (xs ++ ys) := by
  refine ⟨circ.path.remove circ.nodup circ.head_notMem next_last prev_first next prev, ?_⟩
  have sub : (xs ++ ys).Sublist (xs ++ n :: ys) :=
    List.Sublist.append_left (List.sublist_cons_self n ys) xs
  exact circ.nodup.sublist (sub.cons_cons hd)

end Circular

end Conet.Lib
