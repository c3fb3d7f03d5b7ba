/- Module: Conet/Lib/Epoll
   source: none (library)
   digest: An epoll descriptor with edge-triggered registrations, over any descriptors and user data. -/

import Mathlib.Data.BitVec
import Mathlib.Logic.Function.Basic
import Mathlib.Tactic.Common

set_option autoImplicit false
set_option relaxedAutoImplicit false

namespace Conet.Lib.Epoll

universe u v

abbrev Events := BitVec 32

def epollIn : Events := 0x1
def epollOut : Events := 0x4
def epollErr : Events := 0x8
def epollHup : Events := 0x10
def epollEt : Events := 0x80000000

/-- The registrations with their masks and user data, the events that are true of the descriptors,
and the descriptors that have an event queued. -/
structure Kernel (F : Type u) (D : Type v) where
  reg : F → Option (Events × D)
  ready : F → Events
  queued : F → Bool
  /-- the registrations of closed descriptors whose file another descriptor keeps open -/
  orphans : List (Events × D)

/-- What a registration with this mask reports. -/
def wanted (mask : Events) : Events := (mask &&& ~~~epollEt) ||| epollErr ||| epollHup

variable {F : Type u} {D : Type v}

def Kernel.init : Kernel F D where
  reg := fun _ => none
  ready := fun _ => 0
  queued := fun _ => false
  orphans := []

/-- The events that are true of `fd` and that it is registered for. -/
def Kernel.reported (k : Kernel F D) (fd : F) : Events :=
  match k.reg fd with
  | some (mask, _) => k.ready fd &&& wanted mask
  | none => 0

variable [DecidableEq F]

/-- Sets a registration; an event is queued when the descriptor is ready then. -/
def Kernel.arm (k : Kernel F D) (fd : F) (mask : Events) (data : D) : Kernel F D where
  reg := Function.update k.reg fd (some (mask, data))
  ready := k.ready
  queued := Function.update k.queued fd (k.queued fd || decide (k.ready fd &&& wanted mask ≠ 0))
  orphans := k.orphans

/-- `EPOLL_CTL_ADD`, and whether it fails (`EEXIST`). -/
def Kernel.add (k : Kernel F D) (fd : F) (mask : Events) (data : D) : Kernel F D × Bool :=
  if (k.reg fd).isSome then (k, true) else (k.arm fd mask data, false)

/-- `EPOLL_CTL_MOD`, and whether it fails (`ENOENT`). -/
def Kernel.mod (k : Kernel F D) (fd : F) (mask : Events) (data : D) : Kernel F D × Bool :=
  if (k.reg fd).isSome then (k.arm fd mask data, false) else (k, true)

/-- `EPOLL_CTL_DEL`, and whether it fails (`ENOENT`). -/
def Kernel.del (k : Kernel F D) (fd : F) : Kernel F D × Bool :=
  if (k.reg fd).isSome then
    ({ k with
      reg := Function.update k.reg fd none
      queued := Function.update k.queued fd false }, false)
  else (k, true)

/-- `close`. A registration goes with the last reference to its file; when the file is `shared` with
another descriptor, it stays. -/
def Kernel.close (k : Kernel F D) (fd : F) (shared : Bool) : Kernel F D where
  reg := Function.update k.reg fd none
  ready := Function.update k.ready fd 0
  queued := Function.update k.queued fd false
  orphans := if shared then (k.reg fd).toList ++ k.orphans else k.orphans

/-- Something happens on `fd` that makes `events` true of it: edge-triggered, an event is queued
each time, whether or not they were true before. -/
def Kernel.activity (k : Kernel F D) (fd : F) (events : Events) : Kernel F D where
  reg := k.reg
  ready := Function.update k.ready fd (k.ready fd ||| events)
  queued := Function.update k.queued fd (k.queued fd || match k.reg fd with
    | some (mask, _) => decide (events &&& wanted mask ≠ 0)
    | none => false)
  orphans := k.orphans

/-- A read, a write or an accept makes `events` false of `fd`. -/
def Kernel.consume (k : Kernel F D) (fd : F) (events : Events) : Kernel F D :=
  { k with ready := Function.update k.ready fd (k.ready fd &&& ~~~events) }

/-- `epoll_wait` takes the queued events of `fds`, and reports those that are still true. -/
def Kernel.fetch (k : Kernel F D) (fds : List F) : Kernel F D :=
  { k with queued := fun fd => if fd ∈ fds then false else k.queued fd }

def Kernel.report (k : Kernel F D) (fds : List F) : List (D × Events) :=
  fds.filterMap fun fd => match k.reg fd with
    | some (_, data) => if k.reported fd = 0 then none else some (data, k.reported fd)
    | none => none

section Masks

variable {a b c : Events}

theorem eq_zero_iff : a = 0 ↔ ∀ i, a.getLsbD i = false := by
  constructor
  · rintro rfl i
    simp
  · intro h
    apply BitVec.eq_of_getLsbD_eq
    intro i _
    simp [h i]

/-- Every event of `a` is one of `b`. -/
def Within (a b : Events) : Prop := ∀ i, a.getLsbD i = true → b.getLsbD i = true

theorem Within.and_eq (h : Within a b) : a &&& b = a := by
  apply BitVec.eq_of_getLsbD_eq
  intro i _
  have hi := h i
  cases ha : a.getLsbD i <;> simp_all

theorem within_iff : Within a b ↔ a &&& b = a := by
  refine ⟨Within.and_eq, fun h i hi => ?_⟩
  rw [← h, BitVec.getLsbD_and, Bool.and_eq_true] at hi
  exact hi.2

theorem within_and : Within (a &&& b) b := by
  intro i h
  simp only [BitVec.getLsbD_and, Bool.and_eq_true] at h
  exact h.2

theorem Within.or (ha : Within a c) (hb : Within b c) : Within (a ||| b) c := by
  intro i h
  simp only [BitVec.getLsbD_or, Bool.or_eq_true] at h
  exact h.elim (ha i) (hb i)

theorem Within.and_not (h : Within a c) : Within (a &&& ~~~b) c := by
  intro i hi
  simp only [BitVec.getLsbD_and, Bool.and_eq_true] at hi
  exact h i hi.1

/-- What is disjoint from `b` stays when `b` is taken off. -/
theorem Within.diff (h : Within a c) (apart : a &&& b = 0) : Within a (c &&& ~~~b) := by
  intro i hi
  have off := (eq_zero_iff.mp apart) i
  have lt : i < 32 := BitVec.lt_of_getLsbD hi
  simp only [BitVec.getLsbD_and, hi, Bool.true_and] at off
  simp only [BitVec.getLsbD_and, BitVec.getLsbD_not, h i hi, off, lt, decide_true, Bool.not_false,
    Bool.and_self]

theorem or_ne_zero : a ||| b ≠ 0 ↔ a ≠ 0 ∨ b ≠ 0 := by
  simp only [Ne, eq_zero_iff, BitVec.getLsbD_or, Bool.or_eq_false_iff, not_forall]
  constructor
  · rintro ⟨i, hi⟩
    rcases not_and_or.mp hi with h | h
    · exact .inl ⟨i, h⟩
    · exact .inr ⟨i, h⟩
  · rintro (⟨i, hi⟩ | ⟨i, hi⟩)
    · exact ⟨i, fun h => hi h.1⟩
    · exact ⟨i, fun h => hi h.2⟩

theorem or_et_and_not (h : a &&& epollEt = 0) : (a ||| epollEt) &&& ~~~epollEt = a := by
  apply BitVec.eq_of_getLsbD_eq
  intro i hi
  have off := (eq_zero_iff.mp h) i
  simp only [BitVec.getLsbD_and, BitVec.getLsbD_or, BitVec.getLsbD_not, hi, decide_true,
    Bool.true_and] at off ⊢
  cases ha : a.getLsbD i <;> cases he : epollEt.getLsbD i <;> simp_all

end Masks

section Registrations

variable {k : Kernel F D} {fd g : F} {mask : Events} {data : D}

theorem add_reg (mask : Events) (data : D) (none : k.reg fd = none) :
    (k.add fd mask data).1.reg = Function.update k.reg fd (some (mask, data)) ∧
      (k.add fd mask data).2 = false := by
  simp [Kernel.add, none, Kernel.arm]

theorem mod_reg (mask : Events) (data : D) (some : (k.reg fd).isSome) :
    (k.mod fd mask data).1.reg = Function.update k.reg fd (Option.some (mask, data)) ∧
      (k.mod fd mask data).2 = false := by
  simp [Kernel.mod, some, Kernel.arm]

theorem del_reg (some : (k.reg fd).isSome) :
    (k.del fd).1.reg = Function.update k.reg fd none ∧ (k.del fd).2 = false := by
  simp [Kernel.del, some]

theorem add_reg_ne (hne : g ≠ fd) : (k.add fd mask data).1.reg g = k.reg g := by
  unfold Kernel.add
  split_ifs <;> simp [Kernel.arm, hne]

theorem mod_reg_ne (hne : g ≠ fd) : (k.mod fd mask data).1.reg g = k.reg g := by
  unfold Kernel.mod
  split_ifs <;> simp [Kernel.arm, hne]

theorem del_reg_ne (hne : g ≠ fd) : (k.del fd).1.reg g = k.reg g := by
  unfold Kernel.del
  split_ifs <;> simp [hne]

@[simp] theorem add_ready : (k.add fd mask data).1.ready = k.ready := by
  unfold Kernel.add
  split_ifs <;> rfl

@[simp] theorem mod_ready : (k.mod fd mask data).1.ready = k.ready := by
  unfold Kernel.mod
  split_ifs <;> rfl

@[simp] theorem del_ready : (k.del fd).1.ready = k.ready := by
  unfold Kernel.del
  split_ifs <;> rfl

theorem add_queued_ne (hne : g ≠ fd) : (k.add fd mask data).1.queued g = k.queued g := by
  unfold Kernel.add
  split_ifs <;> simp [Kernel.arm, hne]

theorem mod_queued_ne (hne : g ≠ fd) : (k.mod fd mask data).1.queued g = k.queued g := by
  unfold Kernel.mod
  split_ifs <;> simp [Kernel.arm, hne]

theorem del_queued_ne (hne : g ≠ fd) : (k.del fd).1.queued g = k.queued g := by
  unfold Kernel.del
  split_ifs <;> simp [hne]

@[simp] theorem add_orphans : (k.add fd mask data).1.orphans = k.orphans := by
  unfold Kernel.add
  split_ifs <;> rfl

@[simp] theorem mod_orphans : (k.mod fd mask data).1.orphans = k.orphans := by
  unfold Kernel.mod
  split_ifs <;> rfl

@[simp] theorem del_orphans : (k.del fd).1.orphans = k.orphans := by
  unfold Kernel.del
  split_ifs <;> rfl

/-- After `EPOLL_CTL_DEL` no registration is left to stay. -/
theorem del_close (shared : Bool) : (k.del fd).1.close fd shared = k.close fd false := by
  unfold Kernel.del Kernel.close
  split_ifs <;> simp_all

end Registrations

section Reports

variable {k : Kernel F D} {fds : List F} {ev : D × Events}

omit [DecidableEq F] in
theorem mem_report : ev ∈ k.report fds ↔
    ∃ fd ∈ fds, ∃ mask, k.reg fd = some (mask, ev.1) ∧ ev.2 = k.reported fd ∧ ev.2 ≠ 0 := by
  rw [Kernel.report, List.mem_filterMap]
  apply exists_congr
  intro fd
  apply and_congr_right
  intro _
  cases reg : k.reg fd with
  | none => simp
  | some r =>
    obtain ⟨mask, data⟩ := r
    dsimp only
    by_cases none : k.reported fd = 0
    · rw [if_pos none]
      constructor
      · simp
      · rintro ⟨-, -, he, hne⟩
        exact absurd (he.trans none) hne
    · rw [if_neg none]
      constructor
      · intro h
        obtain rfl := Option.some.inj h
        exact ⟨mask, rfl, rfl, none⟩
      · rintro ⟨mask', h, he, -⟩
        obtain ⟨rfl, rfl⟩ := Prod.mk.inj (Option.some.inj h)
        rw [← he]

omit [DecidableEq F] in
/-- When the user data tell the descriptor, a batch has at most one event for each. -/
theorem report_sublist (key : D → F)
    (own : ∀ fd mask data, k.reg fd = some (mask, data) → key data = fd) :
    ((k.report fds).map fun ev => key ev.1).Sublist fds := by
  induction fds with
  | nil => simp [Kernel.report]
  | cons fd fds ih =>
    rw [Kernel.report, List.filterMap_cons]
    cases reg : k.reg fd with
    | none => exact ih.cons fd
    | some r =>
      obtain ⟨mask, data⟩ := r
      by_cases none : k.reported fd = 0
      · simp only [if_pos none]
        exact ih.cons fd
      · simp only [if_neg none, List.map_cons, own fd mask data reg]
        exact ih.cons_cons fd

end Reports

end Conet.Lib.Epoll
