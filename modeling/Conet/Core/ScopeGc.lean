/- Module: Conet/Core/ScopeGc
   source: core/gc.h, core/src/gc.cpp
   digest: Blocks in one list, and scopes that are to destroy what was allocated in them. -/

import Conet.Base.ListCut
import Conet.Lib.Trace
import Mathlib.Data.Int.Notation
import Mathlib.Data.List.Perm.Subperm

set_option autoImplicit false
set_option relaxedAutoImplicit false

namespace Conet.Core.ScopeGc

open Conet.Lib Conet.Base.ListHead Conet.Base.ListCut

section Blocks

/-- The `alloc_list` of the manager, that of the manager on the stack of `~ScopeGC`, the blocks, and
the null pointer. -/
inductive Node
  | mgr
  | onStack
  | block (n : ℕ)
  | null
  deriving DecidableEq

/-- `gc_block_t`, but for its link: whether it has a destructor, and `num`. -/
structure Block where
  destructor : Bool
  num : ℤ

/-- The blocks, as they are made; the markers of the scopes that are open, the innermost first; the
blocks that have been freed; and the calls of destructors, with `num`. -/
structure GcMgr where
  links : Links Node
  blocks : ℕ → Block
  fresh : ℕ
  scopes : List ℕ
  freed : List ℕ
  destructed : List (ℕ × ℤ)

namespace GcMgr

variable (gc : GcMgr)

/-- `malloc`, and `list_add_tail`. -/
def addBlock (block : Block) : GcMgr :=
  let node := Node.block gc.fresh
  { gc with
    links := listAddTail (initListHead gc.links node) node .mgr
    blocks := fun n => if n = gc.fresh then block else gc.blocks n
    fresh := gc.fresh + 1 }

/-- `gc_alloc` and `gc_new`, which has a destructor. -/
def alloc (destructor : Bool) (num : ℤ) : GcMgr :=
  if num ≤ 0 then gc else gc.addBlock ⟨destructor, num⟩

/-- The body of the loop of `gc_free_all`. -/
def freeBlock (n : ℕ) : GcMgr :=
  { gc with
    links := listDel .null gc.links (.block n)
    freed := gc.freed ++ [n]
    destructed :=
      if (gc.blocks n).destructor then gc.destructed ++ [(n, (gc.blocks n).num)]
      else gc.destructed }

/-- The loop of `gc_free_all`, with a bound on its rounds; `it` must be a block. -/
def freeLoop (head : Node) : ℕ → Node → Node → GcMgr → Option GcMgr
  | 0, _, _, _ => none
  | rounds + 1, it, next, gc =>
    if it = head then some gc
    else
      match it with
      | .block n => freeLoop head rounds next ((gc.freeBlock n).links.next next) (gc.freeBlock n)
      | _ => none

def freeAll (head : Node) : Option GcMgr :=
  freeLoop head (gc.fresh + 1) (gc.links.next head) (gc.links.next (gc.links.next head)) gc

/-- `ScopeGC`. -/
def enter : GcMgr :=
  { gc.addBlock ⟨false, 1⟩ with scopes := gc.fresh :: gc.scopes }

/-- Whether `list_cut_position` gets as far as the entry. -/
def cuts (marker : ℕ) : Bool :=
  !listEmpty gc.links .mgr && (!listIsSingular gc.links .mgr || gc.links.next .mgr == .block marker)

/-- `~ScopeGC` of the innermost scope. -/
def leave : Option GcMgr :=
  match gc.scopes with
  | [] => some gc
  | marker :: scopes =>
    -- the entry is read
    if marker ∈ gc.freed ∧ gc.cuts marker then none
    else
      let links := listCutPosition (initListHead gc.links .onStack) .onStack .mgr (.block marker)
      freeAll { gc with links, scopes } .onStack

end GcMgr

/-- `init_gc_mgr` has been called. -/
def start : GcMgr where
  links := ⟨fun _ => .mgr, fun _ => .mgr⟩
  blocks := fun _ => ⟨false, 0⟩
  fresh := 0
  scopes := []
  freed := []
  destructed := []

inductive Event
  | alloc (destructor : Bool) (num : ℤ)
  | enter
  | leave

def step (gc : Option GcMgr) (event : Event) : Option GcMgr :=
  gc.bind fun gc =>
    match event with
    | .alloc destructor num => some (gc.alloc destructor num)
    | .enter => some gc.enter
    | .leave => gc.leave

def run (events : List Event) : Option GcMgr := events.foldl step (some start)

end Blocks

/-! What scopes are for. -/

section Scopes

/-- The blocks that are alive, markers included, in the order of allocation, and those that have been
destroyed. -/
structure Alive where
  alive : List ℕ
  gone : List ℕ
  fresh : ℕ
  scopes : List ℕ

namespace Alive

def start : Alive := ⟨[], [], 0, []⟩

variable (s : Alive)

def add : Alive :=
  { s with
    alive := s.alive ++ [s.fresh]
    fresh := s.fresh + 1 }

/-- To leave a scope destroys its marker and what has been allocated since. -/
def step : Event → Alive
  | .alloc _ num => if num ≤ 0 then s else s.add
  | .enter => { s.add with scopes := s.fresh :: s.scopes }
  | .leave =>
    match s.scopes with
    | [] => s
    | marker :: scopes =>
      { s with
        alive := s.alive.filter (· < marker)
        gone := s.gone ++ s.alive.filter (marker ≤ ·)
        scopes := scopes }

def run (events : List Event) : Alive := events.foldl step start

end Alive

/-- The calls of destructors for `bs`. -/
def GcMgr.destructors (gc : GcMgr) (bs : List ℕ) : List (ℕ × ℤ) :=
  (bs.filter fun n => (gc.blocks n).destructor).map fun n => (n, (gc.blocks n).num)

/-- What `gc_free_all` leaves of a list with the blocks `bs`. -/
structure Freed (gc : GcMgr) (head : Node) (bs : List ℕ) (gc' : GcMgr) : Prop where
  blocks : gc'.blocks = gc.blocks
  fresh : gc'.fresh = gc.fresh
  scopes : gc'.scopes = gc.scopes
  freed : gc'.freed = gc.freed ++ bs
  destructed : gc'.destructed = gc.destructed ++ gc.destructors bs
  empty : Circular gc'.links head []
  frame : ∀ a zs, Circular gc.links a zs → a ∉ head :: bs.map Node.block → Circular gc'.links a zs

/-- The list holds what is to be alive, in order, and what is to be gone has been freed, once each, and
destructed if it has a destructor. -/
structure Matches (gc : GcMgr) (s : Alive) : Prop where
  list : Circular gc.links .mgr (s.alive.map .block)
  freed : gc.freed.Perm s.gone
  once : gc.freed.Nodup
  destructed : gc.destructed = gc.destructors gc.freed
  fresh : gc.fresh = s.fresh
  scopes : gc.scopes = s.scopes

/-- And the `gc_free_all` at the end would free the rest. -/
def Good (gc : Option GcMgr) (s : Alive) : Prop :=
  ∃ g, gc = some g ∧ Matches g s ∧ ∃ g', g.freeAll .mgr = some g' ∧ Freed g .mgr s.alive g'

/-- When a scope is left, its marker is the one block that is alive. -/
def Event.Fair (s : Alive) : Event → Prop
  | leave => ∀ marker scopes, s.scopes = marker :: scopes → s.alive = [marker]
  | _ => True

end Scopes

section Loop

variable {gc : GcMgr} {head next : Node} {rounds : ℕ}

theorem freeLoop_head (gc : GcMgr) (head next : Node) (rounds : ℕ) :
    GcMgr.freeLoop head (rounds + 1) head next gc = some gc := by
  unfold GcMgr.freeLoop
  exact if_pos rfl

theorem freeLoop_block {n : ℕ} (other : head ≠ .block n) :
    GcMgr.freeLoop head (rounds + 1) (.block n) next gc =
      GcMgr.freeLoop head rounds next ((gc.freeBlock n).links.next next) (gc.freeBlock n) := by
  rw [GcMgr.freeLoop]
  exact if_neg other.symm

theorem destructors_append (gc : GcMgr) (as bs : List ℕ) :
    gc.destructors (as ++ bs) = gc.destructors as ++ gc.destructors bs := by
  simp only [GcMgr.destructors, List.filter_append, List.map_append]

theorem freeBlock_destructed (gc : GcMgr) (b : ℕ) :
    (gc.freeBlock b).destructed = gc.destructed ++ gc.destructors [b] := by
  unfold GcMgr.freeBlock GcMgr.destructors
  cases kind : (gc.blocks b).destructor <;> simp [kind]

theorem freeLoop_freed (notBlock : ∀ n, head ≠ .block n) (bs : List ℕ) (rounds : ℕ)
    (enough : bs.length < rounds) (circ : Circular gc.links head (bs.map .block)) :
    ∃ gc', GcMgr.freeLoop head rounds (gc.links.next head) (gc.links.next (gc.links.next head)) gc =
      some gc' ∧ Freed gc head bs gc' := by
  induction bs generalizing gc rounds with
  | nil =>
    obtain ⟨rounds, rfl⟩ := Nat.exists_eq_succ_of_ne_zero (by omega : rounds ≠ 0)
    have first : gc.links.next head = head := circ.next_head
    refine ⟨gc, ?_, rfl, rfl, rfl, by simp, by simp [GcMgr.destructors], circ, fun _ _ circ' _ => circ'⟩
    rw [first]
    apply freeLoop_head
  | cons b bs ih =>
    obtain ⟨rounds, rfl⟩ := Nat.exists_eq_succ_of_ne_zero (by omega : rounds ≠ 0)
    have first : gc.links.next head = .block b := circ.next_head
    have second : gc.links.next (.block b) = (bs.map Node.block ++ [head]).head (by simp) :=
      circ.next_of_cons
    have after : Circular (gc.freeBlock b).links head (bs.map .block) := listDel_circular circ
    have onward : gc.links.next (.block b) = (gc.freeBlock b).links.next head :=
      second.trans after.next_head.symm
    obtain ⟨gc', runs, freed⟩ := ih rounds (by simpa using enough) after
    refine ⟨gc', ?_, freed.blocks, freed.fresh, freed.scopes, ?_, ?_, freed.empty, ?_⟩
    · rw [first, freeLoop_block (notBlock b), onward]
      exact runs
    · rw [freed.freed]
      exact List.append_assoc gc.freed [b] bs
    · have rest : (gc.freeBlock b).destructors bs = gc.destructors bs := rfl
      rw [freed.destructed, freeBlock_destructed, rest, List.append_assoc, ← destructors_append,
        List.singleton_append]
    · intro a zs circ' apart
      have onList : Node.block b ∈ head :: (b :: bs).map .block := by simp
      apply freed.frame a zs (listDel_frame circ onList circ' fun mem => apart mem)
      intro mem
      apply apart
      obtain same | inside := List.mem_cons.mp mem
      · exact same ▸ List.mem_cons_self
      · exact List.mem_cons_of_mem _ (List.mem_cons_of_mem _ inside)

theorem freeAll_freed {bs : List ℕ} (notBlock : ∀ n, head ≠ .block n) (enough : bs.length ≤ gc.fresh)
    (circ : Circular gc.links head (bs.map .block)) :
    ∃ gc', gc.freeAll head = some gc' ∧ Freed gc head bs gc' :=
  freeLoop_freed notBlock bs (gc.fresh + 1) (by omega) circ

end Loop

section Sorted

variable {s : Alive}

/-- The blocks are numbered in the order of allocation, and the markers of the open scopes are alive. -/
structure Alive.Inv (s : Alive) : Prop where
  sorted : s.alive.Pairwise (· < ·)
  below : ∀ n ∈ s.alive ++ s.gone, n < s.fresh
  apart : ∀ n ∈ s.alive, n ∉ s.gone
  nested : s.scopes.Pairwise (· > ·)
  marked : ∀ m ∈ s.scopes, m ∈ s.alive

namespace Alive.Inv

theorem init : Alive.start.Inv := by
  constructor <;> simp [Alive.start]

theorem length_le (inv : s.Inv) : s.alive.length ≤ s.fresh := by
  have nodup : s.alive.Nodup := inv.sorted.imp fun lt => lt.ne
  have range : s.alive ⊆ List.range s.fresh := fun n mem =>
    List.mem_range.mpr (inv.below n (List.mem_append_left _ mem))
  simpa using (List.Nodup.subperm nodup range).length_le

theorem fresh_notMem (inv : s.Inv) : s.fresh ∉ s.alive ++ s.gone :=
  fun mem => (inv.below _ mem).false

theorem add (inv : s.Inv) : s.add.Inv := by
  have new := inv.fresh_notMem
  simp only [List.mem_append, not_or] at new
  have below := inv.below
  simp only [List.mem_append] at below
  refine ⟨?_, ?_, ?_, inv.nested, ?_⟩
  · refine List.pairwise_append.mpr ⟨inv.sorted, List.pairwise_singleton _ _, ?_⟩
    intro a mem b last
    rw [List.mem_singleton.mp last]
    exact below a (.inl mem)
  · intro n mem
    simp only [Alive.add, List.mem_append, List.mem_singleton] at mem ⊢
    have := below n
    grind
  · intro n mem gone
    simp only [Alive.add, List.mem_append, List.mem_singleton] at mem gone
    obtain old | rfl := mem
    · exact inv.apart n old gone
    · exact new.2 gone
  · intro m mem
    exact List.mem_append_left _ (inv.marked m mem)

theorem step (inv : s.Inv) (event : Event) : (s.step event).Inv := by
  cases event with
  | alloc destructor num =>
    rw [Alive.step]
    split
    · exact inv
    · exact inv.add
  | enter =>
    have added := inv.add
    refine ⟨added.sorted, added.below, added.apart, ?_, ?_⟩
    · refine List.pairwise_cons.mpr ⟨?_, inv.nested⟩
      intro m mem
      exact inv.below m (List.mem_append_left _ (inv.marked m mem))
    · intro m mem
      obtain rfl | old := List.mem_cons.mp mem
      · exact List.mem_append_right _ List.mem_cons_self
      · exact added.marked m old
  | leave =>
    rw [Alive.step]
    split
    · exact inv
    · rename_i marker scopes opened
      have nested := inv.nested
      have marked := inv.marked
      have below := inv.below
      have apart := inv.apart
      rw [opened] at nested marked
      refine ⟨inv.sorted.filter _, ?_, ?_, (List.pairwise_cons.mp nested).2, ?_⟩
      · intro n mem
        simp only [List.mem_append, List.mem_filter] at mem below
        have := below n
        grind
      · intro n mem gone
        simp only [List.mem_append, List.mem_filter, decide_eq_true_eq] at mem gone
        obtain old | new := gone
        · exact apart n mem.1 old
        · omega
      · intro m mem
        have inner := (List.pairwise_cons.mp nested).1 m mem
        exact List.mem_filter.mpr ⟨marked m (List.mem_cons_of_mem _ mem), by simpa using inner⟩

/-- The marker of the scope that is left next cuts the list. -/
theorem split (inv : s.Inv) {marker : ℕ} {scopes : List ℕ} (opened : s.scopes = marker :: scopes) :
    ∃ before after, s.alive = before ++ marker :: after ∧
      s.alive.filter (· < marker) = before ∧ s.alive.filter (marker ≤ ·) = marker :: after := by
  have here : marker ∈ s.alive := inv.marked marker (opened ▸ List.mem_cons_self)
  obtain ⟨before, after, parts⟩ := List.append_of_mem here
  have sorted := inv.sorted
  rw [parts] at sorted ⊢
  obtain ⟨-, later, across⟩ := List.pairwise_append.mp sorted
  have smaller : ∀ n ∈ before, n < marker := fun n mem => across n mem marker List.mem_cons_self
  have larger : ∀ n ∈ after, marker < n := (List.pairwise_cons.mp later).1
  refine ⟨before, after, rfl, ?_, ?_⟩
  · rw [List.filter_append, List.filter_eq_self.mpr (by simpa using smaller),
      List.filter_eq_nil_iff.mpr, List.append_nil]
    intro n mem
    obtain rfl | tail := List.mem_cons.mp mem
    · simp
    · have := larger n tail
      simp only [decide_eq_true_eq]
      omega
  · rw [List.filter_append, List.filter_eq_nil_iff.mpr, List.filter_eq_self.mpr, List.nil_append]
    · intro n mem
      obtain rfl | tail := List.mem_cons.mp mem
      · simp
      · have := larger n tail
        simp only [decide_eq_true_eq]
        omega
    · intro n mem
      have := smaller n mem
      simp only [decide_eq_true_eq]
      omega

end Alive.Inv

end Sorted

section Steps

variable {gc gc' : GcMgr} {s : Alive}

theorem Matches.good (same : Matches gc s) (inv : s.Inv) : Good (some gc) s := by
  refine ⟨gc, rfl, same, freeAll_freed (by simp) ?_ same.list⟩
  rw [same.fresh]
  exact inv.length_le

theorem good_iff (inv : s.Inv) : Good (some gc) s ↔ Matches gc s := by
  constructor
  · intro ⟨g, eq, same, _⟩
    exact Option.some.inj eq ▸ same
  · exact fun same => same.good inv

theorem block_notMem {bs : List ℕ} {n : ℕ} (new : n ∉ bs) :
    Node.block n ∉ Node.mgr :: bs.map .block := by
  simp [new]

theorem addBlock_matches (same : Matches gc s) (inv : s.Inv) (block : Block) :
    Matches (gc.addBlock block) s.add := by
  have new := inv.fresh_notMem
  rw [← same.fresh] at new
  simp only [List.mem_append, not_or] at new
  have outside : Node.block gc.fresh ∉ Node.mgr :: s.alive.map .block := block_notMem new.1
  refine ⟨?_, same.freed, same.once, ?_, ?_, same.scopes⟩
  · have ready : Circular (initListHead gc.links (.block gc.fresh)) .mgr (s.alive.map .block) := by
      apply same.list.congr
      intro z mem
      have other : z ≠ .block gc.fresh := fun eq => outside (eq ▸ mem)
      simp [initListHead, other]
    have added := listAddTail_circular ready outside
    rw [Alive.add, ← same.fresh, List.map_append]
    exact added
  · have other : ∀ n ∈ gc.freed, (gc.addBlock block).blocks n = gc.blocks n := by
      intro n mem
      have apart : n ≠ gc.fresh := fun eq => new.2 (same.freed.mem_iff.mp (eq ▸ mem))
      exact if_neg apart
    have kept : (gc.addBlock block).destructors gc.freed = gc.destructors gc.freed := by
      unfold GcMgr.destructors
      rw [List.filter_congr fun n mem => by rw [other n mem]]
      apply List.map_congr_left
      intro n mem
      rw [other n (List.mem_filter.mp mem).1]
    exact same.destructed.trans kept.symm
  · exact congrArg (· + 1) same.fresh

/-- Leaving a scope frees the blocks up to its marker, and keeps those after it. -/
theorem leave_frees (same : Matches gc s) (inv : s.Inv) {marker : ℕ} {scopes before after : List ℕ}
    (opened : s.scopes = marker :: scopes) (parts : s.alive = before ++ marker :: after) :
    ∃ gc', gc.leave = some gc' ∧ Circular gc'.links .mgr (after.map .block) ∧
      gc'.freed = gc.freed ++ (before ++ [marker]) ∧ gc'.blocks = gc.blocks ∧
      gc'.destructed = gc.destructed ++ gc.destructors (before ++ [marker]) ∧
      gc'.fresh = gc.fresh ∧ gc'.scopes = scopes := by
  have here : marker ∈ s.alive := by simp [parts]
  have unfreed : marker ∉ gc.freed := fun mem => inv.apart marker here (same.freed.mem_iff.mp mem)
  have list := same.list
  rw [parts, List.map_append, List.map_cons] at list
  have ready : Circular (initListHead gc.links .onStack) .mgr
      (before.map .block ++ .block marker :: after.map .block) := by
    apply list.congr
    intro z mem
    have other : z ≠ .onStack := by
      intro eq
      simp [eq] at mem
    simp [initListHead, other]
  have outside : Node.onStack ∉
      Node.mgr :: (before.map Node.block ++ .block marker :: after.map .block) := by simp
  have front := cutPosition_initial ready outside
  have rear := cutPosition_final ready outside
  rw [← List.map_singleton, ← List.map_append] at front
  let links := listCutPosition (initListHead gc.links .onStack) .onStack .mgr (.block marker)
  have cut : links = cutPosition (initListHead gc.links .onStack) .onStack .mgr (.block marker) :=
    listCutPosition_eq ready _
  rw [← cut] at front rear
  have enough : (before ++ [marker]).length ≤ gc.fresh := by
    have all := inv.length_le
    rw [parts, ← same.fresh] at all
    simp only [List.length_append, List.length_cons] at all
    simp only [List.length_append, List.length_singleton]
    omega
  let cutOff : GcMgr := { gc with links, scopes }
  have onStack : Circular cutOff.links .onStack ((before ++ [marker]).map .block) := front
  have small : (before ++ [marker]).length ≤ cutOff.fresh := enough
  obtain ⟨gc', frees, freed⟩ := freeAll_freed (by simp) small onStack
  refine ⟨gc', ?_, ?_, freed.freed, freed.blocks, freed.destructed, freed.fresh, freed.scopes⟩
  · rw [GcMgr.leave, same.scopes, opened]
    simp only [unfreed, false_and, if_false]
    exact frees
  · apply freed.frame _ _ rear
    simp

theorem leave_good_iff (same : Matches gc s) (inv : s.Inv) :
    Good gc.leave (s.step .leave) ↔ Event.leave.Fair s := by
  cases opened : s.scopes with
  | nil =>
    have still : gc.leave = some gc := by rw [GcMgr.leave, same.scopes, opened]
    have unchanged : s.step .leave = s := by rw [Alive.step, opened]
    rw [still, unchanged]
    exact iff_of_true (same.good inv) (by simp [Event.Fair, opened])
  | cons marker scopes =>
    obtain ⟨before, after, parts, kept, gone⟩ := inv.split opened
    obtain ⟨gc', left, list, freed, blocks, destructed, fresh, rest⟩ :=
      leave_frees same inv opened parts
    have next : s.step .leave = ⟨before, s.gone ++ marker :: after, s.fresh, scopes⟩ := by
      rw [Alive.step, opened, ← kept, ← gone]
    have inv' := inv.step .leave
    rw [left, good_iff inv', next]
    constructor
    · intro right marker' scopes' same'
      rw [opened] at same'
      obtain ⟨rfl, rfl⟩ := List.cons.inj same'
      -- the blocks before the marker are those after it
      have swapped : before = after := by
        have eq := right.list.unique list
        exact List.map_injective_iff.mpr (fun _ _ h => Node.block.inj h) eq
      have sorted := inv.sorted
      rw [parts, swapped] at sorted
      obtain ⟨-, later, across⟩ := List.pairwise_append.mp sorted
      have none : after = [] := by
        apply List.eq_nil_iff_forall_not_mem.mpr
        intro n mem
        have smaller := across n mem marker List.mem_cons_self
        have larger := (List.pairwise_cons.mp later).1 n mem
        omega
      rw [parts, swapped, none, List.nil_append]
    · intro fair
      have alone := fair marker scopes opened
      rw [parts] at alone
      have none : before = [] ∧ after = [] := by
        have length := congrArg List.length alone
        simp only [List.length_append, List.length_cons, List.length_nil] at length
        exact ⟨List.eq_nil_of_length_eq_zero (by omega), List.eq_nil_of_length_eq_zero (by omega)⟩
      obtain ⟨rfl, rfl⟩ := none
      have here : marker ∈ s.alive := by simp [parts]
      have unfreed : marker ∉ gc.freed := fun mem =>
        inv.apart marker here (same.freed.mem_iff.mp mem)
      refine ⟨list, ?_, ?_, ?_, fresh.trans same.fresh, rest⟩
      · rw [freed]
        exact same.freed.append_right _
      · rw [freed]
        exact List.nodup_append.mpr ⟨same.once, List.nodup_singleton _, by grind⟩
      · rw [freed, destructed, same.destructed, ← destructors_append]
        simp only [GcMgr.destructors, blocks, List.nil_append]

theorem step_good_iff (inv : s.Inv) (same : Matches gc s) (event : Event) :
    Good (step (some gc) event) (s.step event) ↔ event.Fair s := by
  cases event with
  | alloc destructor num =>
    refine iff_of_true ?_ trivial
    rw [step, Option.bind_some, good_iff (inv.step _), GcMgr.alloc, Alive.step]
    split
    · exact same
    · exact addBlock_matches same inv _
  | enter =>
    refine iff_of_true ?_ trivial
    rw [step, Option.bind_some, good_iff (inv.step _)]
    have added := addBlock_matches same inv ⟨false, 1⟩
    refine ⟨added.list, added.freed, added.once, added.destructed, added.fresh, ?_⟩
    rw [GcMgr.enter, Alive.step, same.fresh, same.scopes]
  | leave => exact leave_good_iff same inv

end Steps

section Main

theorem run_both (events : List Event) :
    events.foldl (fun w event => (step w.1 event, Alive.step w.2 event)) (some start, .start) =
      (run events, Alive.run events) := by
  induction events using List.reverseRecOn with
  | nil => rfl
  | append_singleton past last ih => simp only [run, Alive.run, List.foldl_append, ih, List.foldl]

/-- In every state of a run the blocks are those that its scopes leave, and can be freed, exactly when
a scope is left only as long as nothing but its marker is alive. -/
theorem scopes_good_iff (events : List Event) :
    (∀ past, past <+: events → Good (run past) (Alive.run past)) ↔
      ∀ past event, past ++ [event] <+: events → event.Fair (Alive.run past) := by
  have keeps : ∀ (w : Option GcMgr × Alive) (event : Event), w.2.Inv → (w.2.step event).Inv :=
    fun _ event inv => inv.step event
  have good_step : ∀ (w : Option GcMgr × Alive) (event : Event), w.2.Inv → Good w.1 w.2 →
      (Good (step w.1 event) (w.2.step event) ↔ event.Fair w.2) := by
    intro ⟨gc, s⟩ event inv ⟨g, eq, same, _⟩
    subst eq
    exact step_good_iff inv same event
  have init : Good (some start) Alive.start := by
    apply Matches.good _ Alive.Inv.init
    constructor <;> simp [start, Alive.start, GcMgr.destructors, Circular.nil_iff]
  have main := @foldl_good_iff _ _ (some start, Alive.start) (fun w => w.2.Inv) (fun w => Good w.1 w.2)
    (fun w event => event.Fair w.2) (fun w event => (step w.1 event, w.2.step event)) keeps good_step Alive.Inv.init init events
  simpa only [run_both] using main

/-- A block is allocated before a scope is entered, and is destroyed when it is left. -/
theorem outer_block_destroyed :
    ¬ ∀ events : List Event, Good (run events) (Alive.run events) := by
  intro claim
  obtain ⟨g, eq, same, -⟩ := claim [.alloc true 1, .enter, .leave]
  have freed : (run [.alloc true 1, .enter, .leave]).map GcMgr.freed = some [0, 1] := by decide
  rw [eq, Option.map_some] at freed
  have wrong := same.freed
  rw [Option.some.inj freed] at wrong
  exact absurd wrong.length_eq (by decide)

end Main

end Conet.Core.ScopeGc
