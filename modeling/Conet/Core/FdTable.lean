/- Module: Conet/Core/FdTable
   source: core/src/fd_ctx.cpp, core/fd_ctx.h
   digest: The table of descriptor contexts as an array that grows, and as a partial map. -/

import Conet.Core.FdMode
import Mathlib.Data.List.Nodup
import Mathlib.Algebra.Group.Int.Defs

set_option autoImplicit false
set_option relaxedAutoImplicit false

namespace Conet.Core.FdTable

open Conet.Core.FdMode (FdCtx)

section Array

def intMax : ℤ := 2 ^ 31 - 1

/-- The contexts, numbered as `new` makes them, and those that have been deleted, in that order. -/
structure Heap where
  ctx : ℕ → FdCtx
  fresh : ℕ
  deleted : List ℕ

namespace Heap

variable (h : Heap)

/-- What `alloc_fd_ctx2` writes to a context, old or new. -/
def reset (p : ℕ) (fd type : ℤ) : Heap :=
  let d : FdCtx := {
    type := type
    fd := fd
    userFlag := 0
    closed := false
    rcvTimeout := 1000
    sndTimeout := 1000
    domain := 0 }
  { h with ctx := Function.update h.ctx p d }

def new : Heap := { h with fresh := h.fresh + 1 }

def delete (p : ℕ) : Heap := { h with deleted := h.deleted ++ [p] }

end Heap

/-- `fd_ctx_mgr_t`; `len` is the length that the array `fds` was allocated with. -/
structure Mgr where
  fds : ℤ → Option ℕ
  len : ℤ
  size : ℤ

namespace Mgr

variable (m : Mgr)

/-- `mgr->fds[i]`, which is undefined outside of the array. -/
def load (i : ℤ) : Option (Option ℕ) := if 0 ≤ i ∧ i < m.len then some (m.fds i) else none

def store (i : ℤ) (d : Option ℕ) : Option Mgr :=
  if 0 ≤ i ∧ i < m.len then some { m with fds := Function.update m.fds i d } else none

end Mgr

/-- `create_fd_ctx_mgr`; `new` throws for a negative length, and `size + 1` must not overflow. -/
def createFdCtxMgr (size : ℤ) : Option Mgr :=
  if -1 ≤ size ∧ size < intMax then some ⟨fun _ => none, size + 1, size⟩ else none

/-- The loop of `fd_ctx_expand`, with a bound on its rounds. -/
def expandLoop : ℕ → ℤ → ℤ → Option ℤ
  | 0, size, _ => some size
  | rounds + 1, size, needSize =>
    if size ≤ needSize then
      if size + 10000 ≤ intMax then expandLoop rounds (size + 10000) needSize else none
    else some size

def fdCtxExpand (m : Mgr) (needSize : ℤ) : Option Mgr := do
  let size ← expandLoop (needSize + 1 - m.size).toNat m.size needSize
  -- `memcpy` of `mgr->size` entries
  if 0 < m.size ∧ m.len < m.size then none
  else some ⟨fun i => if 0 ≤ i ∧ i < m.size then m.fds i else none, size, size⟩

/-- The array is made to reach `fd`, as `alloc_fd_ctx2` and `get_fd_ctx` do it. -/
def reach (m : Mgr) (fd : ℤ) : Option Mgr :=
  if m.size ≤ fd then if fd + 1 ≤ intMax then fdCtxExpand m (fd + 1) else none else some m

structure State where
  mgr : Mgr
  heap : Heap

/-- A negative `fd` ends the process. -/
def allocFdCtx2 (s : State) (fd type : ℤ) : Option (ℕ × State) :=
  if fd < 0 then none
  else do
    let m ← reach s.mgr fd
    match ← m.load fd with
    | some d => some (d, ⟨m, s.heap.reset d fd type⟩)
    | none =>
      let d := s.heap.fresh
      let m ← m.store fd (some d)
      some (d, ⟨m, s.heap.new.reset d fd type⟩)

def getFdCtx (s : State) (fd type : ℤ) : Option (Option ℕ × State) :=
  if fd < 0 then some (none, s)
  else do
    let m ← reach s.mgr fd
    let ctx ← m.load fd
    some (ctx.filter fun d => type = 0 ∨ (s.heap.ctx d).type = type, ⟨m, s.heap⟩)

def freeFdCtx (s : State) (fd : ℤ) : Option (ℤ × State) :=
  if fd < 0 then some (-1, s)
  else if s.mgr.size < fd then some (-2, s)
  else do
    match ← s.mgr.load fd with
    | none => some (-2, s)
    | some d =>
      let m ← s.mgr.store fd none
      some (0, ⟨m, s.heap.delete d⟩)

/-- The loop of `free_fd_ctx_mgr`, for so many entries from `i` on. -/
def freeLoop (m : Mgr) : ℕ → ℤ → Heap → Option Heap
  | 0, _, h => some h
  | n + 1, i, h => do
    match ← m.load i with
    | some ctx => freeLoop m n (i + 1) (h.delete ctx)
    | none => freeLoop m n (i + 1) h

def freeFdCtxMgr (s : State) : Option Heap := freeLoop s.mgr (s.mgr.size + 1).toNat 0 s.heap

end Array

section Runs

/-- A non-negative `int`. -/
abbrev Fd := { fd : ℤ // 0 ≤ fd ∧ fd ≤ intMax }

inductive Op
  | alloc (fd : Fd) (type : ℤ)
  | get (fd : Fd) (type : ℤ)
  | free (fd : Fd)

inductive Answer
  | ctx (d : Option ℕ)
  | ret (r : ℤ)
  deriving DecidableEq

def step (s : State) : Op → Option (Answer × State)
  | .alloc fd type => (allocFdCtx2 s fd type).map fun r => (.ctx (some r.1), r.2)
  | .get fd type => (getFdCtx s fd type).map fun r => (.ctx r.1, r.2)
  | .free fd => (freeFdCtx s fd).map fun r => (.ret r.1, r.2)

def run (s : State) : List Op → Option (List Answer × State)
  | [] => some ([], s)
  | op :: ops => do
    let (answer, s) ← step s op
    let (answers, s) ← run s ops
    some (answer :: answers, s)

end Runs

/-! What the table is for: a partial map from descriptors to contexts. -/

section Map

structure Table where
  map : ℤ → Option ℕ
  heap : Heap

namespace Table

variable (t : Table)

def step : Op → Answer × Table
  | .alloc fd type =>
    match t.map fd with
    | some d => (.ctx (some d), ⟨t.map, t.heap.reset d fd type⟩)
    | none => (.ctx (some t.heap.fresh), ⟨Function.update t.map fd (some t.heap.fresh),
        t.heap.new.reset t.heap.fresh fd type⟩)
  | .get fd type =>
    (.ctx ((t.map fd).filter fun d => type = 0 ∨ (t.heap.ctx d).type = type), t)
  | .free fd =>
    match t.map fd with
    | some d => (.ret 0, ⟨Function.update t.map fd none, t.heap.delete d⟩)
    | none => (.ret (-2), t)

def run (t : Table) : List Op → List Answer × Table
  | [] => ([], t)
  | op :: ops => ((t.step op).1 :: ((t.step op).2.run ops).1, ((t.step op).2.run ops).2)

/-- Every context that has been made is under one descriptor, or has been deleted, once. -/
structure Inv : Prop where
  under : ∀ fd fd' d, t.map fd = some d → t.map fd' = some d → fd = fd'
  made : ∀ d, d < t.heap.fresh ↔ d ∈ t.heap.deleted ∨ ∃ fd, t.map fd = some d
  live : ∀ fd d, t.map fd = some d → d ∉ t.heap.deleted
  once : t.heap.deleted.Nodup

end Table

def State.table (s : State) : Table := ⟨s.mgr.fds, s.heap⟩

def emptyHeap : Heap := ⟨fun _ => ⟨0, 0, 0, false, 0, 0, 0⟩, 0, []⟩

def emptyTable : Table := ⟨fun _ => none, emptyHeap⟩

/-- The array, created with `size` entries and one more, behaves as the partial map; nothing outside of
it is accessed; each context is deleted once at most, and if `free_fd_ctx_mgr` ends it, once. -/
def Behaves (size : ℤ) (ops : List Op) (ends : Bool) : Prop :=
  ∃ m s, createFdCtxMgr size = some m ∧
    run ⟨m, emptyHeap⟩ ops = some ((emptyTable.run ops).1, s) ∧
    s.table = (emptyTable.run ops).2 ∧ s.heap.deleted.Nodup ∧
    (ends = true → ∃ h, freeFdCtxMgr s = some h ∧ h.deleted.Nodup ∧
      ∀ d, d < h.fresh ↔ d ∈ h.deleted)

/-- The size that an expansion comes to. -/
def grown (size needSize : ℤ) : ℤ := size + 10000 * ((needSize - size) / 10000 + 1)

/-- What an operation needs of the size and of the length. -/
def Op.Fits (size len : ℤ) : Op → Prop
  | alloc fd _ | get fd _ => size ≤ fd → grown size (fd + 1) ≤ intMax
  | free fd => fd = size → size < len

def Op.size (size : ℤ) : Op → ℤ
  | alloc fd _ | get fd _ => if size ≤ fd then grown size (fd + 1) else size
  | free _ => size

def Op.len (size len : ℤ) : Op → ℤ
  | alloc fd _ | get fd _ => if size ≤ fd then grown size (fd + 1) else len
  | free _ => len

/-- All operations of a run find what they need, and so does `free_fd_ctx_mgr`. -/
def Fit (size len : ℤ) : List Op → Bool → Prop
  | [], ends => ends = true → size < len
  | op :: ops, ends => op.Fits size len ∧ Fit (op.size size) (op.len size len) ops ends

end Map

section Expansion

variable {m : Mgr} {fd : ℤ}

theorem grown_gt (size needSize : ℤ) : needSize < grown size needSize := by
  unfold grown
  omega

theorem expandLoop_eq (rounds : ℕ) (size needSize : ℤ) (enough : needSize + 1 - size ≤ rounds) :
    expandLoop rounds size needSize =
      if size ≤ needSize then
        if grown size needSize ≤ intMax then some (grown size needSize) else none
      else some size := by
  induction rounds generalizing size with
  | zero =>
    have done : ¬ size ≤ needSize := by omega
    rw [expandLoop, if_neg done]
  | succ rounds ih =>
    rw [expandLoop]
    by_cases needs : size ≤ needSize
    · rw [if_pos needs, if_pos needs]
      by_cases further : size + 10000 ≤ needSize
      · have same : grown (size + 10000) needSize = grown size needSize := by
          unfold grown
          omega
        rw [ih (size + 10000) (by omega), if_pos further, same]
        by_cases fits : size + 10000 ≤ intMax
        · rw [if_pos fits]
        · have beyond := grown_gt size needSize
          rw [if_neg fits, if_neg (by omega)]
      · have last : grown size needSize = size + 10000 := by
          unfold grown
          omega
        rw [ih (size + 10000) (by omega), if_neg further, last]
    · rw [if_neg needs, if_neg needs]

/-- The array is as long as `size` says, or by one longer, and what lies beyond `size` is empty. -/
structure Mgr.Inv (m : Mgr) : Prop where
  low : -1 ≤ m.size
  shape : m.len = m.size + 1 ∨ m.len = m.size ∧ 0 ≤ m.size
  empty : ∀ fd, ¬ (0 ≤ fd ∧ fd < m.size) → m.fds fd = none

theorem fdCtxExpand_eq (inv : m.Inv) {needSize : ℤ} (needs : m.size ≤ needSize) :
    fdCtxExpand m needSize =
      if grown m.size needSize ≤ intMax then
        some ⟨m.fds, grown m.size needSize, grown m.size needSize⟩
      else none := by
  have long : ¬ (0 < m.size ∧ m.len < m.size) := by
    have := inv.shape
    omega
  have kept : (fun i => if 0 ≤ i ∧ i < m.size then m.fds i else none) = m.fds := by
    funext i
    split_ifs with within
    · rfl
    · exact (inv.empty i within).symm
  rw [fdCtxExpand, expandLoop_eq _ _ _ (by omega), if_pos needs, kept]
  split_ifs
  · simp
  · rfl

theorem reach_eq (inv : m.Inv) :
    reach m fd = if m.size ≤ fd then
        if grown m.size (fd + 1) ≤ intMax then
          some ⟨m.fds, grown m.size (fd + 1), grown m.size (fd + 1)⟩
        else none
      else some m := by
  unfold reach
  split_ifs with outside int fits fits
  · rw [fdCtxExpand_eq inv (by omega), if_pos fits]
  · rw [fdCtxExpand_eq inv (by omega), if_neg fits]
  · have := grown_gt m.size (fd + 1)
    omega
  · rfl
  · rfl

/-- The array after `alloc_fd_ctx2` or `get_fd_ctx` has reached for `fd`. -/
structure Reached (m : Mgr) (fd : ℤ) (m' : Mgr) : Prop where
  inv : m'.Inv
  fds : m'.fds = m.fds
  within : fd < m'.size
  size : m'.size = if m.size ≤ fd then grown m.size (fd + 1) else m.size
  len : m'.len = if m.size ≤ fd then grown m.size (fd + 1) else m.len

theorem reach_fits (inv : m.Inv) (nonneg : 0 ≤ fd)
    (fits : m.size ≤ fd → grown m.size (fd + 1) ≤ intMax) :
    ∃ m', reach m fd = some m' ∧ Reached m fd m' := by
  rw [reach_eq inv]
  by_cases outside : m.size ≤ fd
  · have beyond := grown_gt m.size (fd + 1)
    rw [if_pos outside, if_pos (fits outside)]
    refine ⟨_, rfl, ⟨?_, .inr ⟨rfl, ?_⟩, fun i far => inv.empty i ?_⟩, rfl, ?_, ?_, ?_⟩
    · dsimp only
      omega
    · dsimp only
      omega
    · dsimp only at far
      omega
    · dsimp only
      omega
    · rw [if_pos outside]
    · rw [if_pos outside]
  · rw [if_neg outside]
    exact ⟨m, rfl, inv, rfl, by omega, by rw [if_neg outside], by rw [if_neg outside]⟩

theorem reach_not (inv : m.Inv) (not : ¬ (m.size ≤ fd → grown m.size (fd + 1) ≤ intMax)) :
    reach m fd = none := by
  rw [Classical.not_imp] at not
  rw [reach_eq inv, if_pos not.1, if_neg not.2]

theorem Mgr.load_within (inv : m.Inv) (nonneg : 0 ≤ fd) (within : fd < m.size) :
    m.load fd = some (m.fds fd) := by
  have := inv.shape
  exact if_pos ⟨nonneg, by omega⟩

theorem Mgr.store_within (inv : m.Inv) (nonneg : 0 ≤ fd) (within : fd < m.size) (d : Option ℕ) :
    m.store fd d = some { m with fds := Function.update m.fds fd d } := by
  have := inv.shape
  exact if_pos ⟨nonneg, by omega⟩

theorem Mgr.Inv.update (inv : m.Inv) (nonneg : 0 ≤ fd) (within : fd < m.size) (d : Option ℕ) :
    Mgr.Inv { m with fds := Function.update m.fds fd d } := by
  refine ⟨inv.low, inv.shape, fun i outside => ?_⟩
  have other : i ≠ fd := by
    rintro rfl
    exact outside ⟨nonneg, within⟩
  exact (Function.update_of_ne other ..).trans (inv.empty i outside)

end Expansion

/-! The array refines the partial map, operation by operation. -/

section Refinement

variable {s : State}

/-- The state after an operation that finds what it needs. -/
structure Refines (s : State) (op : Op) (s' : State) : Prop where
  table : s'.table = (s.table.step op).2
  inv : s'.mgr.Inv
  size : s'.mgr.size = op.size s.mgr.size
  len : s'.mgr.len = op.len s.mgr.size s.mgr.len

theorem alloc_fits (inv : s.mgr.Inv) (fd : Fd) (type : ℤ)
    (fits : (Op.alloc fd type).Fits s.mgr.size s.mgr.len) :
    ∃ s', step s (.alloc fd type) = some ((s.table.step (.alloc fd type)).1, s') ∧
      Refines s (.alloc fd type) s' := by
  obtain ⟨fd, nonneg, int⟩ := fd
  obtain ⟨m, reached, after⟩ := reach_fits inv nonneg fits
  have load := Mgr.load_within after.inv nonneg after.within
  rw [after.fds] at load
  have valid := Int.not_lt.mpr nonneg
  cases under : s.mgr.fds fd with
  | some d =>
    have result : allocFdCtx2 s fd type = some (d, ⟨m, s.heap.reset d fd type⟩) := by
      simp [allocFdCtx2, valid, reached, load, under]
    refine ⟨⟨m, s.heap.reset d fd type⟩, ?_, ?_, after.inv, after.size, after.len⟩
    · simp [step, result, Table.step, State.table, under]
    · simp [Table.step, State.table, under, after.fds]
  | none =>
    have store := Mgr.store_within after.inv nonneg after.within (some s.heap.fresh)
    have result : allocFdCtx2 s fd type = some (s.heap.fresh,
        ⟨{ m with fds := Function.update m.fds fd (some s.heap.fresh) },
          s.heap.new.reset s.heap.fresh fd type⟩) := by
      simp [allocFdCtx2, valid, reached, load, under, store]
    refine ⟨⟨{ m with fds := Function.update m.fds fd (some s.heap.fresh) },
      s.heap.new.reset s.heap.fresh fd type⟩, ?_, ?_, after.inv.update nonneg after.within _,
      after.size, after.len⟩
    · simp [step, result, Table.step, State.table, under]
    · simp [Table.step, State.table, under, after.fds]

theorem get_fits (inv : s.mgr.Inv) (fd : Fd) (type : ℤ)
    (fits : (Op.get fd type).Fits s.mgr.size s.mgr.len) :
    ∃ s', step s (.get fd type) = some ((s.table.step (.get fd type)).1, s') ∧
      Refines s (.get fd type) s' := by
  obtain ⟨fd, nonneg, int⟩ := fd
  obtain ⟨m, reached, after⟩ := reach_fits inv nonneg fits
  have load := Mgr.load_within after.inv nonneg after.within
  rw [after.fds] at load
  have valid := Int.not_lt.mpr nonneg
  have result : getFdCtx s fd type = some ((s.mgr.fds fd).filter fun d =>
      type = 0 ∨ (s.heap.ctx d).type = type, ⟨m, s.heap⟩) := by
    simp [getFdCtx, valid, reached, load]
  refine ⟨⟨m, s.heap⟩, ?_, ?_, after.inv, after.size, after.len⟩
  · rw [step, result]
    rfl
  · simp [Table.step, State.table, after.fds]

/-- `free_fd_ctx` looks at the entry at `size`, which is there before the first expansion only. -/
theorem free_fits (inv : s.mgr.Inv) (fd : Fd)
    (fits : (Op.free fd).Fits s.mgr.size s.mgr.len) :
    ∃ s', step s (.free fd) = some ((s.table.step (.free fd)).1, s') ∧ Refines s (.free fd) s' := by
  obtain ⟨fd, nonneg, int⟩ := fd
  have valid := Int.not_lt.mpr nonneg
  cases under : s.mgr.fds fd with
  | none =>
    have result : freeFdCtx s fd = some (-2, s) := by
      by_cases beyond : s.mgr.size < fd
      · simp [freeFdCtx, valid, beyond]
      · have within : fd < s.mgr.len := by
          have := inv.shape
          have : fd = s.mgr.size → s.mgr.size < s.mgr.len := fits
          omega
        have load : s.mgr.load fd = some none := by
          rw [Mgr.load, if_pos ⟨nonneg, within⟩, under]
        simp [freeFdCtx, valid, beyond, load]
    refine ⟨s, ?_, ?_, inv, rfl, rfl⟩
    · simp [step, result, Table.step, State.table, under]
    · simp [Table.step, State.table, under]
  | some d =>
    have within : fd < s.mgr.size := by
      by_contra outside
      have := inv.empty fd fun both => outside both.2
      rw [under] at this
      cases this
    have below : ¬ s.mgr.size < fd := by omega
    have load := Mgr.load_within inv nonneg within
    have store := Mgr.store_within inv nonneg within none
    have result : freeFdCtx s fd = some (0,
        ⟨{ s.mgr with fds := Function.update s.mgr.fds fd none }, s.heap.delete d⟩) := by
      simp [freeFdCtx, valid, below, load, under, store]
    refine ⟨⟨{ s.mgr with fds := Function.update s.mgr.fds fd none }, s.heap.delete d⟩, ?_, ?_,
      inv.update nonneg within none, rfl, rfl⟩
    · simp [step, result, Table.step, State.table, under]
    · simp [Table.step, State.table, under]

theorem step_fits (inv : s.mgr.Inv) (op : Op) (fits : op.Fits s.mgr.size s.mgr.len) :
    ∃ s', step s op = some ((s.table.step op).1, s') ∧ Refines s op s' := by
  cases op with
  | alloc fd type => exact alloc_fits inv fd type fits
  | get fd type => exact get_fits inv fd type fits
  | free fd => exact free_fits inv fd fits

/-- Otherwise an `int` overflows, or the entry behind the array is looked at. -/
theorem step_not (inv : s.mgr.Inv) (op : Op) (not : ¬ op.Fits s.mgr.size s.mgr.len) :
    step s op = none := by
  cases op with
  | alloc fd type =>
    have reached : reach s.mgr fd = none := reach_not inv not
    simp [step, allocFdCtx2, Int.not_lt.mpr fd.2.1, reached]
  | get fd type =>
    have reached : reach s.mgr fd = none := reach_not inv not
    simp [step, getFdCtx, Int.not_lt.mpr fd.2.1, reached]
  | free fd =>
    obtain ⟨last, short⟩ := Classical.not_imp.mp not
    have load : s.mgr.load fd = none := by
      rw [Mgr.load, if_neg]
      omega
    have below : ¬ s.mgr.size < fd := by omega
    simp [step, freeFdCtx, Int.not_lt.mpr fd.2.1, below, load]

end Refinement

/-! The end: `free_fd_ctx_mgr` looks at the entry at `size` too. -/

section Ends

variable {m : Mgr} {t : Table}

/-- The contexts under `n` descriptors from `i` on. -/
def entries (m : Mgr) : ℕ → ℤ → List ℕ
  | 0, _ => []
  | n + 1, i => (m.fds i).toList ++ entries m n (i + 1)

theorem mem_entries {n : ℕ} {i : ℤ} {d : ℕ} :
    d ∈ entries m n i ↔ ∃ fd, i ≤ fd ∧ fd < i + n ∧ m.fds fd = some d := by
  induction n generalizing i with
  | zero =>
    rw [entries]
    constructor
    · exact fun no => absurd no List.not_mem_nil
    · rintro ⟨fd, low, high, -⟩
      omega
  | succ n ih =>
    rw [entries, List.mem_append, ih, Option.mem_toList]
    constructor
    · rintro (here | ⟨fd, low, high, under⟩)
      · exact ⟨i, by omega, by omega, here⟩
      · exact ⟨fd, by omega, by omega, under⟩
    · rintro ⟨fd, low, high, under⟩
      by_cases here : fd = i
      · exact .inl (here ▸ under)
      · exact .inr ⟨fd, by omega, by omega, under⟩

theorem entries_nodup (under : ∀ fd fd' d, m.fds fd = some d → m.fds fd' = some d → fd = fd') (n : ℕ)
    (i : ℤ) : (entries m n i).Nodup := by
  induction n generalizing i with
  | zero => exact List.nodup_nil
  | succ n ih =>
    rw [entries, List.nodup_append]
    refine ⟨?_, ih (i + 1), ?_⟩
    · cases m.fds i with
      | none => exact List.nodup_nil
      | some d => exact List.nodup_singleton d
    · rintro d here d' later rfl
      obtain ⟨fd, low, -, there⟩ := mem_entries.mp later
      have same := under i fd d (Option.mem_toList.mp here) there
      omega

theorem freeLoop_eq (n : ℕ) (i : ℤ) (h : Heap) (nonneg : 0 ≤ i) (within : i + n ≤ m.len) :
    freeLoop m n i h = some { h with deleted := h.deleted ++ entries m n i } := by
  induction n generalizing i h with
  | zero => simp [freeLoop, entries]
  | succ n ih =>
    have load : m.load i = some (m.fds i) := if_pos ⟨nonneg, by omega⟩
    rw [freeLoop, load, entries]
    cases m.fds i with
    | none => simpa using ih (i + 1) h (by omega) (by omega)
    | some d => simpa [Heap.delete] using ih (i + 1) (h.delete d) (by omega) (by omega)

theorem freeLoop_short (n : ℕ) (i : ℤ) (h : Heap) (short : i ≤ m.len) (beyond : m.len < i + n) :
    freeLoop m n i h = none := by
  induction n generalizing i h with
  | zero => omega
  | succ n ih =>
    rw [freeLoop]
    by_cases last : i = m.len
    · have load : m.load i = none := if_neg (by omega)
      rw [load]
      rfl
    · by_cases nonneg : 0 ≤ i
      · have load : m.load i = some (m.fds i) := if_pos ⟨nonneg, by omega⟩
        rw [load]
        cases m.fds i with
        | none => exact ih (i + 1) h (by omega) (by omega)
        | some d => exact ih (i + 1) (h.delete d) (by omega) (by omega)
      · have load : m.load i = none := if_neg (by omega)
        rw [load]
        rfl

namespace Table

theorem Inv.empty : emptyTable.Inv := by
  refine ⟨?_, ?_, ?_, List.nodup_nil⟩
  · intro fd fd' d under
    cases under
  · intro d
    simp [emptyTable, emptyHeap]
  · intro fd d under
    cases under

theorem Inv.add (inv : t.Inv) {fd : ℤ} (h : Heap) (fresh : h.fresh = t.heap.fresh + 1)
    (deleted : h.deleted = t.heap.deleted) (bare : t.map fd = none) :
    Table.Inv ⟨Function.update t.map fd (some t.heap.fresh), h⟩ := by
  have older : ∀ e d, t.map e = some d → d < t.heap.fresh := fun e d under =>
    (inv.made d).mpr (.inr ⟨e, under⟩)
  refine ⟨?_, ?_, ?_, ?_⟩
  · intro e e' d under under'
    have := older e
    have := older e'
    have := inv.under e e' d
    grind [Function.update_apply]
  · intro d
    rw [fresh, deleted]
    constructor
    · intro small
      by_cases last : d = t.heap.fresh
      · exact .inr ⟨fd, by simp [last]⟩
      · obtain gone | ⟨e, under⟩ := (inv.made d).mp (by omega)
        · exact .inl gone
        · have other : e ≠ fd := by
            rintro rfl
            exact absurd (bare.symm.trans under) (by simp)
          exact .inr ⟨e, (Function.update_of_ne other ..).trans under⟩
    · rintro (gone | ⟨e, under⟩)
      · have := (inv.made d).mpr (.inl gone)
        omega
      · have := older e d
        grind [Function.update_apply]
  · intro e d under
    have := inv.live e d
    have := inv.made d
    grind [Function.update_apply]
  · rw [deleted]
    exact inv.once

theorem Inv.remove (inv : t.Inv) {fd : ℤ} {d : ℕ} (has : t.map fd = some d) :
    Table.Inv ⟨Function.update t.map fd none, t.heap.delete d⟩ := by
  refine ⟨?_, ?_, ?_, ?_⟩
  · intro e e' d' under under'
    have := inv.under e e' d'
    grind [Function.update_apply]
  · intro d'
    have made := inv.made d'
    simp only [Heap.delete, List.mem_append, List.mem_singleton, made]
    constructor
    · rintro (gone | ⟨e, under⟩)
      · exact .inl (.inl gone)
      · by_cases here : e = fd
        · subst here
          exact .inl (.inr (Option.some.inj (under.symm.trans has)))
        · exact .inr ⟨e, (Function.update_of_ne here ..).trans under⟩
    · rintro ((gone | rfl) | ⟨e, under⟩)
      · exact .inl gone
      · exact .inr ⟨fd, has⟩
      · grind [Function.update_apply]
  · intro e d' under
    have := inv.live e d'
    have := inv.under e fd d'
    simp only [Heap.delete, List.mem_append, List.mem_singleton]
    grind [Function.update_apply]
  · have live := inv.live fd d has
    rw [Heap.delete, List.nodup_append]
    refine ⟨inv.once, List.nodup_singleton d, ?_⟩
    rintro d' gone _ last rfl
    rw [List.mem_singleton.mp last] at gone
    exact live gone

theorem Inv.step (inv : t.Inv) (op : Op) : (t.step op).2.Inv := by
  cases op with
  | get fd type => exact inv
  | alloc fd type =>
    cases under : t.map fd with
    | some d =>
      simp only [Table.step, under]
      exact ⟨inv.under, inv.made, inv.live, inv.once⟩
    | none =>
      simp only [Table.step, under]
      exact inv.add _ rfl rfl under
  | free fd =>
    cases under : t.map fd with
    | none =>
      simp only [Table.step, under]
      exact inv
    | some d =>
      simp only [Table.step, under]
      exact inv.remove under

end Table

theorem free_mgr_eq {s : State} (inv : s.mgr.Inv) (whole : s.table.Inv)
    (longer : s.mgr.size < s.mgr.len) : ∃ h, freeFdCtxMgr s = some h ∧ h.deleted.Nodup ∧
      ∀ d, d < h.fresh ↔ d ∈ h.deleted := by
  have within : (0 : ℤ) + ((s.mgr.size + 1).toNat : ℤ) ≤ s.mgr.len := by
    have := inv.shape
    have := inv.low
    omega
  refine ⟨_, freeLoop_eq _ 0 s.heap (by omega) within, ?_, fun d => ?_⟩
  · rw [List.nodup_append]
    refine ⟨whole.once, entries_nodup whole.under _ 0, ?_⟩
    rintro d gone _ here rfl
    obtain ⟨fd, -, -, under⟩ := mem_entries.mp here
    exact whole.live fd d under gone
  · rw [List.mem_append, mem_entries]
    refine (whole.made d).trans (or_congr_right ?_)
    constructor
    · rintro ⟨fd, under⟩
      have inside : 0 ≤ fd ∧ fd < s.mgr.size := by
        by_contra outside
        have bare : s.mgr.fds fd = none := inv.empty fd outside
        exact absurd (bare.symm.trans under) (by simp)
      exact ⟨fd, inside.1, by omega, under⟩
    · rintro ⟨fd, -, -, under⟩
      exact ⟨fd, under⟩

theorem free_mgr_short {s : State} (inv : s.mgr.Inv) (short : ¬ s.mgr.size < s.mgr.len) :
    freeFdCtxMgr s = none := by
  have := inv.shape
  exact freeLoop_short _ 0 s.heap (by omega) (by omega)

end Ends

section Main

variable {s : State} {t : Table}

theorem run_fits (inv : s.mgr.Inv) (whole : s.table.Inv) (ops : List Op) (ends : Bool)
    (fit : Fit s.mgr.size s.mgr.len ops ends) :
    ∃ s', run s ops = some ((s.table.run ops).1, s') ∧ s'.table = (s.table.run ops).2 ∧
      s'.mgr.Inv ∧ s'.table.Inv ∧ (ends = true → s'.mgr.size < s'.mgr.len) := by
  induction ops generalizing s with
  | nil => exact ⟨s, rfl, rfl, inv, whole, fit⟩
  | cons op ops ih =>
    obtain ⟨fits, rest⟩ := fit
    obtain ⟨s₁, steps, refines⟩ := step_fits inv op fits
    have whole₁ : s₁.table.Inv := by
      rw [refines.table]
      exact whole.step op
    rw [← refines.size, ← refines.len] at rest
    obtain ⟨s', runs, table, after⟩ := ih refines.inv whole₁ rest
    rw [refines.table] at runs table
    exact ⟨s', by simp [run, steps, runs, Table.run], table, after⟩

theorem run_not (inv : s.mgr.Inv) (ops : List Op) (ends : Bool)
    (unfit : ¬ Fit s.mgr.size s.mgr.len ops ends) :
    run s ops = none ∨ ∃ answers s', run s ops = some (answers, s') ∧ s'.mgr.Inv ∧
      ends = true ∧ ¬ s'.mgr.size < s'.mgr.len := by
  induction ops generalizing s with
  | nil =>
    obtain ⟨ended, short⟩ := Classical.not_imp.mp unfit
    exact .inr ⟨[], s, rfl, inv, ended, short⟩
  | cons op ops ih =>
    by_cases fits : op.Fits s.mgr.size s.mgr.len
    · obtain ⟨s₁, steps, refines⟩ := step_fits inv op fits
      have rest : ¬ Fit s₁.mgr.size s₁.mgr.len ops ends := by
        rw [refines.size, refines.len]
        exact fun fit => unfit ⟨fits, fit⟩
      obtain undefined | ⟨answers, s', runs, after⟩ := ih refines.inv rest
      · exact .inl (by simp [run, steps, undefined])
      · exact .inr ⟨(s.table.step op).1 :: answers, s', by simp [run, steps, runs], after⟩
    · exact .inl (by simp [run, step_not inv op fits])

/-- When the array behaves as a partial map. -/
theorem behaves_iff (size : ℤ) (ops : List Op) (ends : Bool) :
    Behaves size ops ends ↔ (-1 ≤ size ∧ size < intMax) ∧ Fit size (size + 1) ops ends := by
  by_cases creates : -1 ≤ size ∧ size < intMax
  · let m : Mgr := ⟨fun _ => none, size + 1, size⟩
    have created : createFdCtxMgr size = some m := if_pos creates
    have inv : m.Inv := ⟨creates.1, .inl rfl, fun _ _ => rfl⟩
    by_cases fit : Fit size (size + 1) ops ends
    · refine iff_of_true ?_ ⟨creates, fit⟩
      obtain ⟨s, runs, table, inv', whole, longer⟩ :=
        run_fits (s := ⟨m, emptyHeap⟩) inv Table.Inv.empty ops ends fit
      exact ⟨m, s, created, runs, table, whole.once, fun ended => free_mgr_eq inv' whole (longer ended)⟩
    · refine iff_of_false ?_ fun both => fit both.2
      rintro ⟨m', s, created', runs, -, -, final⟩
      obtain rfl : m = m' := Option.some.inj (created.symm.trans created')
      obtain undefined | ⟨answers, s', runs', inv', ended, short⟩ :=
        run_not (s := ⟨m, emptyHeap⟩) inv ops ends fit
      · rw [undefined] at runs
        cases runs
      · obtain ⟨-, rfl⟩ := Prod.mk.inj (Option.some.inj (runs.symm.trans runs'))
        obtain ⟨h, freed, -⟩ := final ended
        rw [free_mgr_short inv' short] at freed
        cases freed
  · refine iff_of_false ?_ fun both => creates both.1
    rintro ⟨m, s, created, -⟩
    rw [createFdCtxMgr, if_neg creates] at created
    cases created

/-- A table for one descriptor is made to reach the descriptor 1, and grows to 10001 entries; then
`free_fd_ctx(10001)` looks behind them. -/
theorem free_behind_array : ¬ ∀ (size : ℤ) (ops : List Op) (ends : Bool), 0 ≤ size → size < intMax →
    Behaves size ops ends := by
  intro claim
  let ops : List Op := [.get ⟨1, by decide⟩ 0, .free ⟨10001, by decide⟩]
  obtain ⟨m, s, created, runs, -⟩ := claim 1 ops false (by decide) (by decide)
  obtain rfl := Option.some.inj created
  have undefined : (run ⟨⟨fun _ => none, 1 + 1, 1⟩, emptyHeap⟩ ops).isNone = true := by decide
  rw [runs] at undefined
  cases undefined

end Main

end Conet.Core.FdTable
