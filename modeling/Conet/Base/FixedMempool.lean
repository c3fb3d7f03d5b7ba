/- Module: Conet/Base/FixedMempool
   source: base/src/fixed_mempool.cpp, base/list.h
   digest: The counters of the pool against its free list, which is linked through the blocks. -/

import Conet.Base.ListHead
import Conet.Lib.Trace
import Mathlib.Data.BitVec
import Mathlib.Data.Fintype.Card

set_option autoImplicit false
set_option relaxedAutoImplicit false

namespace Conet.Base.FixedMempool

open Conet.Lib Conet.Base.ListHead

/-- The address of a block, which is that of the `list_head` in it while the block is free. -/
abbrev Addr := BitVec 64

section Pool

/-- The counters of `fixed_mempool_t`, and the links in the memory that `free_list` is made of. -/
structure Pool where
  totalNum : BitVec 64
  usedNum : BitVec 64
  maxNum : BitVec 64
  links : Links Addr

variable (head : Addr)

def Pool.init (maxNum : BitVec 64) (links : Links Addr) : Pool :=
  ⟨0, 0, maxNum, initListHead links head⟩

/-- `alloc`, where `fresh` is what `alloc_mem_help` would get. -/
def Pool.alloc (p : Pool) (fresh : Addr) : Addr × Pool :=
  match listPopHead p.links head with
  | (none, links) =>
    (fresh, { p with links := links, totalNum := p.totalNum + 1, usedNum := p.usedNum + 1 })
  | (some n, links) => (n, { p with links := links, usedNum := p.usedNum + 1 })

/-- `free`, and whether the block goes to `free_mem_help`. -/
def Pool.free (p : Pool) (n : Addr) : Bool × Pool :=
  let links := initListHead p.links n
  if p.maxNum ≤ p.totalNum then
    (true, { p with links := links, totalNum := p.totalNum - 1, usedNum := p.usedNum - 1 })
  else (false, { p with links := listAdd links n head, usedNum := p.usedNum - 1 })

end Pool

section Runs

/-- The pool, the blocks that have been handed out and not freed, and the blocks that have been got
with `alloc_mem_help` and not been given back. -/
structure World where
  pool : Pool
  live : List Addr
  held : List Addr

/-- A `write` is one to the memory of a block that is handed out, or of none of the pool's. -/
inductive Event
  | alloc (fresh : Addr)
  | free (b : Addr)
  | write (a next prev : Addr)

namespace World

variable (head : Addr)

def start (maxNum : BitVec 64) (links : Links Addr) : World := ⟨.init head maxNum links, [], []⟩

def step (w : World) : Event → Option World
  | .alloc fresh =>
    if fresh = head ∨ fresh ∈ w.held then none
    else
      let (n, pool) := w.pool.alloc head fresh
      some ⟨pool, n :: w.live, w.held.insert n⟩
  | .free b =>
    if b ∈ w.live then
      let (back, pool) := w.pool.free head b
      some ⟨pool, w.live.erase b, if back then w.held.erase b else w.held⟩
    else none
  | .write a next prev =>
    if a = head ∨ (a ∈ w.held ∧ a ∉ w.live) then none
    else some { w with pool.links := (w.pool.links.setNext a next).setPrev a prev }

/-- The events are a run of the pool to `w'`. -/
def Runs (w : World) (events : List Event) (w' : World) : Prop :=
  events.foldlM (step head) w = some w'

end World

end Runs

section Invariant

variable {head b fresh a next prev : Addr} {maxNum : BitVec 64} {w w' : World} {xs : List Addr}

/-- The blocks that are held are the live ones and those of the free list `xs`, and the counters count
them. -/
structure Inv (head : Addr) (maxNum : BitVec 64) (w : World) (xs : List Addr) : Prop where
  ring : Circular w.pool.links head xs
  perm : w.held.Perm (w.live ++ xs)
  nodup : (head :: w.held).Nodup
  total : w.pool.totalNum.toNat = w.held.length
  used : w.pool.usedNum.toNat = w.live.length
  max : w.pool.maxNum = maxNum
  room : xs = [] ∨ xs.length < maxNum.toNat

theorem length_lt_of_nodup {l : List Addr} (nodup : (head :: l).Nodup) : l.length < 2 ^ 64 := by
  have card := (nodup.map BitVec.toFin_injective).length_le_card
  rw [Fintype.card_fin, List.length_map, List.length_cons] at card
  exact card

namespace Inv

variable (inv : Inv head maxNum w xs)

include inv

theorem length_eq : w.held.length = w.live.length + xs.length := by
  rw [inv.perm.length_eq, List.length_append]

theorem held_lt : w.held.length < 2 ^ 64 := length_lt_of_nodup inv.nodup

theorem apart (mem : b ∈ w.live) : b ∉ head :: xs := by
  have blocks : (w.live ++ xs).Nodup := inv.perm.nodup_iff.mp (List.nodup_cons.mp inv.nodup).2
  have held : b ∈ w.held := inv.perm.mem_iff.mpr (List.mem_append_left xs mem)
  intro on
  rcases List.mem_cons.mp on with rfl | on
  · exact (List.nodup_cons.mp inv.nodup).1 held
  · exact (List.disjoint_of_nodup_append blocks) mem on

end Inv

section Links

variable {h : Links Addr}

theorem listPopHead_nil (ring : Circular h head []) : listPopHead h head = (none, h) := by
  rw [listPopHead, (listEmpty_iff ring).mpr rfl]
  rfl

theorem listPopHead_cons (ring : Circular h head (b :: xs)) :
    listPopHead h head = (some b, listDelInit h b) ∧ Circular (listDelInit h b) head xs := by
  have nonempty : listEmpty h head = false := by
    rw [Bool.eq_false_iff, ne_eq, listEmpty_iff ring]
    simp
  have first : h.next head = b := ring.next_head
  have split : Circular h head ([] ++ b :: xs) := ring
  rw [listPopHead, nonempty, first]
  exact ⟨rfl, listDelInit_circular split⟩

/-- Writing the links of a node that is not on the circle. -/
theorem circular_write (ring : Circular h head xs) (apart : a ∉ head :: xs) :
    Circular ((h.setNext a next).setPrev a prev) head xs := by
  refine ring.congr fun z mem => ?_
  have other : z ≠ a := fun same => apart (same ▸ mem)
  simp [other]

end Links

/-! What one step preserves. -/

theorem inv_start (head : Addr) (maxNum : BitVec 64) (links : Links Addr) :
    Inv head maxNum (World.start head maxNum links) [] where
  ring := Circular.nil_iff.mpr (by simp [World.start, Pool.init, initListHead])
  perm := .refl _
  nodup := List.nodup_singleton head
  total := rfl
  used := rfl
  max := rfl
  room := .inl rfl

theorem toNat_add_one {x : BitVec 64} {n : ℕ} (eq : x.toNat = n) (lt : n + 1 < 2 ^ 64) :
    (x + 1).toNat = n + 1 := by
  have one : (1 : BitVec 64).toNat = 1 := rfl
  rw [BitVec.toNat_add, eq, one, Nat.mod_eq_of_lt lt]

theorem toNat_sub_one {x : BitVec 64} {n : ℕ} (eq : x.toNat = n + 1) : (x - 1).toNat = n := by
  have one : (1 : BitVec 64).toNat = 1 := rfl
  have lt := x.isLt
  rw [BitVec.toNat_sub, eq, one]
  omega

theorem Inv.alloc_nil (inv : Inv head maxNum w []) (other : fresh ≠ head) (new : fresh ∉ w.held)
    (step : w.step head (.alloc fresh) = some w') : Inv head maxNum w' [] := by
  rw [World.step, if_neg (not_or.mpr ⟨other, new⟩), Pool.alloc, listPopHead_nil inv.ring] at step
  obtain rfl := Option.some.inj step
  obtain ⟨out, nodup⟩ := List.nodup_cons.mp inv.nodup
  have nodup' : (head :: fresh :: w.held).Nodup :=
    List.nodup_cons.mpr ⟨List.not_mem_cons_of_ne_of_not_mem other.symm out,
      List.nodup_cons.mpr ⟨new, nodup⟩⟩
  have held := length_lt_of_nodup nodup'
  have length := inv.length_eq
  rw [List.length_cons] at held
  rw [List.length_nil] at length
  refine ⟨inv.ring, ?_, ?_, ?_, ?_, inv.max, .inl rfl⟩
  · rw [List.insert_of_not_mem new]
    exact inv.perm.cons fresh
  · rw [List.insert_of_not_mem new]
    exact nodup'
  · rw [List.insert_of_not_mem new]
    exact toNat_add_one inv.total held
  · exact toNat_add_one inv.used (by omega)

theorem Inv.alloc_cons (inv : Inv head maxNum w (b :: xs))
    (step : w.step head (.alloc fresh) = some w') : Inv head maxNum w' xs := by
  obtain ⟨popped, ring⟩ := listPopHead_cons inv.ring
  rw [World.step] at step
  split_ifs at step
  rw [Pool.alloc, popped] at step
  obtain rfl := Option.some.inj step
  have mem : b ∈ w.held := inv.perm.mem_iff.mpr (List.mem_append_right w.live List.mem_cons_self)
  have length := inv.length_eq
  have held := inv.held_lt
  rw [List.length_cons] at length
  refine ⟨ring, ?_, ?_, ?_, ?_, inv.max, .inr ?_⟩
  · rw [List.insert_of_mem mem]
    exact inv.perm.trans List.perm_middle
  · rw [List.insert_of_mem mem]
    exact inv.nodup
  · rw [List.insert_of_mem mem]
    exact inv.total
  · exact toNat_add_one inv.used (by omega)
  · have room := inv.room
    rw [List.length_cons] at room
    simp only [reduceCtorEq, false_or] at room
    omega

theorem Inv.free (inv : Inv head maxNum w xs) (step : w.step head (.free b) = some w') :
    Inv head maxNum w' xs ∨ Inv head maxNum w' (b :: xs) := by
  rw [World.step] at step
  split_ifs at step with mem
  have apart := inv.apart mem
  have ring : Circular (initListHead w.pool.links b) head xs := circular_write inv.ring apart
  have erased := List.length_erase_of_mem mem
  have pos := List.length_pos_of_mem mem
  have length := inv.length_eq
  have used : (w.pool.usedNum - 1).toNat = (w.live.erase b).length :=
    toNat_sub_one (by rw [inv.used]; omega)
  have split : w.held.Perm (b :: (w.live.erase b ++ xs)) :=
    inv.perm.trans ((List.perm_cons_erase mem).append_right xs)
  rw [Pool.free] at step
  split_ifs at step with full
  · left
    obtain rfl := Option.some.inj step
    have held : b ∈ w.held := split.mem_iff.mpr List.mem_cons_self
    have erased' := List.length_erase_of_mem held
    have total : (w.pool.totalNum - 1).toNat = (w.held.erase b).length :=
      toNat_sub_one (by rw [inv.total]; omega)
    refine ⟨ring, ?_, ?_, total, used, inv.max, inv.room⟩
    · exact ((List.perm_cons_erase held).symm.trans split).cons_inv
    · exact inv.nodup.sublist (List.erase_sublist.cons_cons head)
  · right
    obtain rfl := Option.some.inj step
    refine ⟨listAdd_circular ring apart, ?_, inv.nodup, inv.total, used, inv.max, .inr ?_⟩
    · exact split.trans List.perm_middle.symm
    · have below := BitVec.lt_def.mp (BitVec.not_le.mp full)
      rw [inv.total, inv.max] at below
      rw [List.length_cons]
      omega

theorem Inv.write (inv : Inv head maxNum w xs)
    (step : w.step head (.write a next prev) = some w') : Inv head maxNum w' xs := by
  rw [World.step] at step
  split_ifs at step with own
  obtain rfl := Option.some.inj step
  obtain ⟨other, alive⟩ := not_or.mp own
  have apart : a ∉ head :: xs := by
    intro on
    rcases List.mem_cons.mp on with same | on
    · exact other same
    · have held : a ∈ w.held := inv.perm.mem_iff.mpr (List.mem_append_right w.live on)
      have live : a ∈ w.live := by
        by_contra dead
        exact alive ⟨held, dead⟩
      exact inv.apart live (List.mem_cons_of_mem head on)
  exact ⟨circular_write inv.ring apart, inv.perm, inv.nodup, inv.total, inv.used, inv.max, inv.room⟩

theorem Inv.step (inv : Inv head maxNum w xs) {ev : Event} (step : w.step head ev = some w') :
    ∃ ys, Inv head maxNum w' ys := by
  cases ev with
  | alloc fresh =>
    cases xs with
    | nil =>
      have asked := step
      rw [World.step] at asked
      split_ifs at asked with taken
      obtain ⟨other, new⟩ := not_or.mp taken
      exact ⟨[], inv.alloc_nil other new step⟩
    | cons b xs => exact ⟨xs, inv.alloc_cons step⟩
  | free b => exact (inv.free step).elim (fun kept => ⟨xs, kept⟩) fun kept => ⟨b :: xs, kept⟩
  | write a next prev => exact ⟨xs, inv.write step⟩

theorem inv_run {links : Links Addr} {events : List Event}
    (runs : (World.start head maxNum links).Runs head events w) : ∃ xs, Inv head maxNum w xs :=
  (Trace.of_foldlM runs).invariant (fun _ w => ∃ xs, Inv head maxNum w xs)
    ⟨[], inv_start head maxNum links⟩ fun ⟨_, inv⟩ step => inv.step step

end Invariant

section Main

variable {head : Addr} {maxNum : BitVec 64} {links : Links Addr} {events : List Event} {w : World}

/-- What the counters are worth: `xs` are the blocks of the free list. -/
structure Accounted (head : Addr) (w : World) (xs : List Addr) : Prop where
  ring : Circular w.pool.links head xs
  total : w.pool.totalNum.toNat = w.pool.usedNum.toNat + xs.length
  dead : ∀ b ∈ xs, b ∉ w.live
  once : xs.Nodup
  used : w.pool.usedNum ≤ w.pool.totalNum

theorem Inv.accounted {xs : List Addr} (inv : Inv head maxNum w xs) : Accounted head w xs := by
  have total : w.pool.totalNum.toNat = w.pool.usedNum.toNat + xs.length := by
    rw [inv.total, inv.used, inv.length_eq]
  refine ⟨inv.ring, total, fun b free live => ?_, inv.ring.nodup_tail, ?_⟩
  · exact inv.apart live (List.mem_cons_of_mem head free)
  · rw [BitVec.le_def]
    omega

/-- The pool keeps its accounts in every run: the free list has fewer blocks than `max_num`, and none
where `max_num` is 0. -/
theorem pool_accounted (runs : (World.start head maxNum links).Runs head events w) :
    ∃ xs, Accounted head w xs ∧ (xs = [] ∨ xs.length < maxNum.toNat) := by
  obtain ⟨xs, inv⟩ := inv_run runs
  exact ⟨xs, inv.accounted, inv.room⟩

/-- All links of a memory that nothing has been written to. -/
def blank : Links Addr := ⟨fun _ => 0, fun _ => 0⟩

/-- A block is got, written to and freed. -/
theorem pool_accounted_block : ∃ w,
    (World.start 8 2 blank).Runs 8 [.alloc 64, .write 64 1 2, .free 64] w ∧
      ∃ xs, Accounted 8 w xs ∧ (xs = [] ∨ xs.length < 2) := by
  obtain ⟨w, runs⟩ : ∃ w, (World.start 8 2 blank).Runs 8 [.alloc 64, .write 64 1 2, .free 64] w :=
    ⟨_, rfl⟩
  exact ⟨w, runs, pool_accounted runs⟩

/-- With `max_num` 0 there are not fewer blocks than that in the free list, which is empty. -/
theorem pool_of_none : ¬ ∀ (head : Addr) (maxNum : BitVec 64) (links : Links Addr)
    (events : List Event) (w : World), (World.start head maxNum links).Runs head events w →
    ∃ xs, Accounted head w xs ∧ xs.length < maxNum.toNat := by
  intro claim
  obtain ⟨xs, -, fewer⟩ := claim 8 0 blank [] _ rfl
  exact Nat.not_lt_zero _ fewer

end Main

end Conet.Base.FixedMempool
