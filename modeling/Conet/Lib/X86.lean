/- Module: Conet/Lib/X86
   source: none (library)
   digest: Straight x86-64 code on registers and a byte memory, and words on a stack. -/

import Mathlib.Data.List.Basic
import Mathlib.Data.BitVec
import Mathlib.Data.Set.BooleanAlgebra
import Mathlib.Logic.Function.Basic
import Mathlib.Order.CompletePartialOrder
import Mathlib.Tactic.Common

set_option autoImplicit false
set_option relaxedAutoImplicit false

namespace Conet.Lib.X86

abbrev Word := BitVec 64

inductive Reg
  | rax | rbx | rcx | rdx | rsi | rdi | rbp | rsp
  | r8 | r9 | r10 | r11 | r12 | r13 | r14 | r15
  deriving DecidableEq

abbrev Mem := Word → BitVec 8

/-- The number in the `n` bytes from `a` on, the least significant byte first. -/
def Mem.num (m : Mem) (a : Word) : ℕ → ℕ
  | 0 => 0
  | n + 1 => m.num a n + 2 ^ (8 * n) * (m (a + BitVec.ofNat 64 n)).toNat

def Mem.load (m : Mem) (a : Word) (n : ℕ) : BitVec (8 * n) := BitVec.ofNat (8 * n) (m.num a n)

def Mem.store (m : Mem) (a : Word) (n : ℕ) (v : BitVec (8 * n)) : Mem := fun x =>
  if (x - a).toNat < n then v.extractLsb' (8 * (x - a).toNat) 8 else m x

/-- The addresses of `n` bytes from `a` on. -/
def Span (a : Word) (n : ℕ) : Set Word := {x | (x - a).toNat < n}

structure State where
  reg : Reg → Word
  mxcsr : BitVec 32
  /-- the control word of the x87 unit -/
  x87cw : BitVec 16
  zf : Bool
  mem : Mem
  /-- where control goes when the block is left -/
  rip : Word

/-- Operands stand in the order of the AT&T syntax, the source first. -/
inductive Op
  | push (src : Reg)
  | pop (dst : Reg)
  | mov (src dst : Reg)
  | store (src : Reg) (disp : Word) (base : Reg)
  | lea (disp : Word) (base dst : Reg)
  | leaLabel (label : Word) (dst : Reg)
  | and (imm : Word) (dst : Reg)
  | cmp (imm : Word) (dst : Reg)
  | stmxcsr (disp : Word) (base : Reg)
  | ldmxcsr (disp : Word) (base : Reg)
  | fnstcw (disp : Word) (base : Reg)
  | fldcw (disp : Word) (base : Reg)
  deriving DecidableEq

inductive Instr
  | op (o : Op)
  /-- a jump forward over `skip` instructions when the zero flag is set -/
  | je (skip : ℕ)
  | jmp (target : Reg)
  | ret
  deriving DecidableEq

namespace State

def set (s : State) (r : Reg) (v : Word) : State := { s with reg := Function.update s.reg r v }

def store (s : State) (a : Word) (n : ℕ) (v : BitVec (8 * n)) : State :=
  { s with mem := s.mem.store a n v }

def push (s : State) (v : Word) : State :=
  (s.store (s.reg .rsp - 8) 8 v).set .rsp (s.reg .rsp - 8)

def top (s : State) : Word := s.mem.load (s.reg .rsp) 8

def drop (s : State) : State := s.set .rsp (s.reg .rsp + 8)

def op (s : State) : Op → State
  | .push src => s.push (s.reg src)
  | .pop dst => s.drop.set dst s.top
  | .mov src dst => s.set dst (s.reg src)
  | .store src disp base => s.store (s.reg base + disp) 8 (s.reg src)
  | .lea disp base dst => s.set dst (s.reg base + disp)
  | .leaLabel label dst => s.set dst label
  | .and imm dst =>
    { s.set dst (s.reg dst &&& imm) with zf := decide (s.reg dst &&& imm = 0) }
  | .cmp imm dst => { s with zf := decide (s.reg dst = imm) }
  | .stmxcsr disp base => s.store (s.reg base + disp) 4 s.mxcsr
  | .ldmxcsr disp base => { s with mxcsr := s.mem.load (s.reg base + disp) 4 }
  | .fnstcw disp base => s.store (s.reg base + disp) 2 s.x87cw
  | .fldcw disp base => { s with x87cw := s.mem.load (s.reg base + disp) 2 }

/-- The block `code` without its first `skip` instructions, up to where it is left. -/
def exec : List Instr → ℕ → State → State
  | [], _, s => s
  | _ :: code, skip + 1, s => exec code skip s
  | .op o :: code, 0, s => exec code 0 (s.op o)
  | .je skip :: code, 0, s => exec code (if s.zf then skip else 0) s
  | .jmp target :: _, 0, s => { s with rip := s.reg target }
  | .ret :: _, 0, s => { s.drop with rip := s.top }

/-- `call`: the return address goes on the stack, and the block runs. -/
def call (s : State) (code : List Instr) (back : Word) : State := exec code 0 (s.push back)

end State

section Memory

variable {m m' : Mem} {a b x : Word} {n k : ℕ}

theorem mem_span : x ∈ Span a n ↔ (x - a).toNat < n := Iff.rfl

theorem add_mem_span {i : ℕ} (hi : i < n) (hn : n ≤ 2 ^ 64) : a + BitVec.ofNat 64 i ∈ Span a n := by
  rw [mem_span, BitVec.add_comm, BitVec.add_sub_cancel, BitVec.toNat_ofNat]
  omega

theorem span_add_subset : Span (a + BitVec.ofNat 64 k) n ⊆ Span a (k + n) := by
  intro x hx
  rw [mem_span] at hx ⊢
  have : x - a = x - (a + BitVec.ofNat 64 k) + BitVec.ofNat 64 k := by
    rw [← BitVec.sub_sub, BitVec.sub_add_cancel]
  rw [this, BitVec.toNat_add, BitVec.toNat_ofNat]
  omega

theorem span_subset_of_le (le : k ≤ n) : Span a k ⊆ Span a n := fun _ hx => lt_of_lt_of_le hx le

theorem disjoint_span_add (fits : k + n ≤ 2 ^ 64) :
    Disjoint (Span a k) (Span (a + BitVec.ofNat 64 k) n) := by
  rw [Set.disjoint_left]
  intro x low high
  rw [mem_span] at low high
  have : x - a = x - (a + BitVec.ofNat 64 k) + BitVec.ofNat 64 k := by
    rw [← BitVec.sub_sub, BitVec.sub_add_cancel]
  rw [this, BitVec.toNat_add, BitVec.toNat_ofNat] at low
  omega

theorem Mem.store_of_notMem {v : BitVec (8 * n)} (out : x ∉ Span a n) : m.store a n v x = m x :=
  if_neg out

theorem Mem.num_congr (same : ∀ x ∈ Span a n, m x = m' x) (hn : n ≤ 2 ^ 64) :
    m.num a n = m'.num a n := by
  induction n with
  | zero => rfl
  | succ n ih =>
    have last := same _ (add_mem_span (Nat.lt_succ_self n) hn)
    have rest := ih (fun x hx => same x (span_subset_of_le n.le_succ hx)) (by omega)
    rw [Mem.num, Mem.num, last, rest]

theorem Mem.load_congr (same : ∀ x ∈ Span a n, m x = m' x) (hn : n ≤ 2 ^ 64) :
    m.load a n = m'.load a n := by
  rw [Mem.load, Mem.load, Mem.num_congr same hn]

/-- Two parts of a span, the first one below the second. -/
theorem disjoint_parts {i j : ℕ} (below : i + n ≤ j) (fits : j + k ≤ 2 ^ 64) :
    Disjoint (Span (a + BitVec.ofNat 64 i) n) (Span (a + BitVec.ofNat 64 j) k) := by
  have low : Span (a + BitVec.ofNat 64 i) n ⊆ Span a j := fun x hx =>
    span_subset_of_le below (span_add_subset hx)
  exact (disjoint_span_add fits).mono_left low

theorem Mem.load_store_of_disjoint {v : BitVec (8 * k)} (apart : Disjoint (Span a n) (Span b k))
    (hn : n ≤ 2 ^ 64) : (m.store b k v).load a n = m.load a n :=
  Mem.load_congr (fun _ hx => Mem.store_of_notMem (Set.disjoint_left.mp apart hx)) hn

theorem Mem.num_store (m : Mem) (a : Word) (v : BitVec (8 * n)) (hn : n ≤ 2 ^ 64) (hk : k ≤ n) :
    (m.store a n v).num a k = v.toNat % 2 ^ (8 * k) := by
  induction k with
  | zero => simp [Mem.num, Nat.mod_one]
  | succ k ih =>
    have offset : (a + BitVec.ofNat 64 k - a).toNat = k := by
      rw [BitVec.add_comm, BitVec.add_sub_cancel, BitVec.toNat_ofNat]
      omega
    have inside : k < n := hk
    have split : 2 ^ (8 * (k + 1)) = 2 ^ (8 * k) * 2 ^ 8 := by rw [← pow_add, Nat.mul_succ]
    rw [Mem.num, ih (by omega), Mem.store, offset, if_pos inside, split, Nat.mod_mul,
      BitVec.extractLsb'_toNat, Nat.shiftRight_eq_div_pow]

theorem Mem.load_store (m : Mem) (a : Word) (v : BitVec (8 * n)) (hn : n ≤ 2 ^ 64) :
    (m.store a n v).load a n = v := by
  rw [Mem.load, Mem.num_store m a v hn le_rfl, Nat.mod_eq_of_lt v.isLt, BitVec.ofNat_toNat,
    BitVec.setWidth_eq]

end Memory

/-- The words `ws` lie one above the other from `a` on. -/
def Words (m : Mem) (a : Word) : List Word → Prop
  | [] => True
  | w :: ws => m.load a 8 = w ∧ Words m (a + 8) ws

section Stack

variable {m m' : Mem} {a w : Word} {ws : List Word} {s : State} {r : Reg} {code : List Instr}

theorem Words.congr (words : Words m a ws) (same : ∀ x ∈ Span a (8 * ws.length), m x = m' x)
    (fits : 8 * ws.length ≤ 2 ^ 64) : Words m' a ws := by
  induction ws generalizing a with
  | nil => trivial
  | cons w ws ih =>
    have length : 8 * (w :: ws).length = 8 + 8 * ws.length := by
      rw [List.length_cons]
      omega
    rw [length] at same fits
    have first : m.load a 8 = m'.load a 8 :=
      Mem.load_congr (fun x hx => same x (span_subset_of_le (by omega) hx)) (by decide)
    exact ⟨first ▸ words.1, ih words.2 (fun x hx => same x (span_add_subset hx)) (by omega)⟩

theorem Words.store {n : ℕ} {v : BitVec (8 * n)} (words : Words m (a + BitVec.ofNat 64 n) ws)
    (fits : n + 8 * ws.length ≤ 2 ^ 64) :
    Words (m.store a n v) (a + BitVec.ofNat 64 n) ws := by
  refine words.congr (fun x hx => (Mem.store_of_notMem ?_).symm) (by omega)
  exact Set.disjoint_right.mp (disjoint_span_add fits) hx

theorem Words.push (words : Words s.mem (s.reg .rsp) ws) (fits : 8 + 8 * ws.length ≤ 2 ^ 64)
    (v : Word) : Words (s.push v).mem ((s.push v).reg .rsp) (v :: ws) := by
  have below : s.reg .rsp = s.reg .rsp - 8 + BitVec.ofNat 64 8 := by
    rw [BitVec.ofNat_eq_ofNat, BitVec.sub_add_cancel]
  rw [below] at words
  exact ⟨Mem.load_store _ _ _ (by decide), words.store fits⟩

@[simp] theorem State.set_reg_self (v : Word) : (s.set r v).reg r = v := by simp [State.set]

@[simp] theorem State.set_reg_of_ne {q : Reg} (v : Word) (ne : q ≠ r) :
    (s.set r v).reg q = s.reg q := by simp [State.set, ne]

@[simp] theorem State.set_mem (v : Word) : (s.set r v).mem = s.mem := rfl

@[simp] theorem State.set_mxcsr (v : Word) : (s.set r v).mxcsr = s.mxcsr := rfl

@[simp] theorem State.set_x87cw (v : Word) : (s.set r v).x87cw = s.x87cw := rfl

@[simp] theorem State.push_reg (v : Word) (ne : r ≠ .rsp) : (s.push v).reg r = s.reg r := by
  rw [State.push, State.set_reg_of_ne _ ne]
  rfl

@[simp] theorem State.push_rsp (v : Word) : (s.push v).reg .rsp = s.reg .rsp - 8 := by
  rw [State.push, State.set_reg_self]

/-- Pushes of the registers `rs`, one after the other. -/
def State.pushAll (s : State) (rs : List Reg) : State := rs.foldl (fun s r => s.push (s.reg r)) s

/-- Pops to the registers `rs`, one after the other. -/
def State.popAll (s : State) (rs : List Reg) : State := rs.foldl (fun s r => s.drop.set r s.top) s

theorem exec_pushes (rs : List Reg) :
    State.exec (rs.map (fun r => .op (.push r)) ++ code) 0 s = State.exec code 0 (s.pushAll rs) := by
  induction rs generalizing s with
  | nil => rfl
  | cons r rs ih => exact ih

theorem exec_pops (rs : List Reg) :
    State.exec (rs.map (fun r => .op (.pop r)) ++ code) 0 s = State.exec code 0 (s.popAll rs) := by
  induction rs generalizing s with
  | nil => rfl
  | cons r rs ih => exact ih

theorem pushAll_reg {rs : List Reg} (ne : r ≠ .rsp) : (s.pushAll rs).reg r = s.reg r := by
  induction rs generalizing s with
  | nil => rfl
  | cons q rs ih => exact ih.trans (State.push_reg _ ne)

theorem pushAll_rsp {rs : List Reg} :
    (s.pushAll rs).reg .rsp = s.reg .rsp - BitVec.ofNat 64 (8 * rs.length) := by
  induction rs generalizing s with
  | nil => simp [State.pushAll]
  | cons q rs ih =>
    refine ih.trans ?_
    rw [State.push_rsp, List.length_cons, BitVec.sub_sub, Nat.mul_succ, BitVec.ofNat_add,
      BitVec.add_comm]
    rfl

/-- After the pushes the registers lie on the stack, the last one on top. -/
theorem pushAll_words {rs : List Reg} (words : Words s.mem (s.reg .rsp) ws) (ne : .rsp ∉ rs)
    (fits : 8 * (rs.length + ws.length) ≤ 2 ^ 64) :
    Words (s.pushAll rs).mem ((s.pushAll rs).reg .rsp) (rs.reverse.map s.reg ++ ws) := by
  induction rs generalizing s ws with
  | nil => exact words
  | cons q rs ih =>
    simp only [List.mem_cons, not_or, List.length_cons] at ne fits
    have pushed := words.push (by omega) (s.reg q)
    have rest := ih pushed ne.2 (by rw [List.length_cons]; omega)
    have same : rs.reverse.map (s.push (s.reg q)).reg = rs.reverse.map s.reg := by
      refine List.map_congr_left fun r hr => State.push_reg _ ?_
      rintro rfl
      exact ne.2 (List.mem_reverse.mp hr)
    rw [same] at rest
    simpa [State.pushAll] using rest

/-- Pushes down to `a` leave everything else alone. -/
theorem pushAll_mem {rs : List Reg} {x : Word}
    (down : s.reg .rsp = a + BitVec.ofNat 64 (8 * rs.length)) (out : x ∉ Span a (8 * rs.length)) :
    (s.pushAll rs).mem x = s.mem x := by
  induction rs generalizing s with
  | nil => rfl
  | cons q rs ih =>
    have next : s.reg .rsp - 8 = a + BitVec.ofNat 64 (8 * rs.length) := by
      rw [down, List.length_cons, Nat.mul_succ, BitVec.ofNat_add, ← BitVec.add_assoc,
        BitVec.ofNat_eq_ofNat, BitVec.add_sub_cancel]
    rw [List.length_cons, Nat.mul_succ] at out
    have below := ih (s := s.push (s.reg q)) ((State.push_rsp _).trans next)
      fun hx => out (span_subset_of_le (by omega) hx)
    refine below.trans (Mem.store_of_notMem fun hx => out ?_)
    exact span_add_subset (next ▸ hx)

theorem popAll_mem {rs : List Reg} : (s.popAll rs).mem = s.mem := by
  induction rs generalizing s with
  | nil => rfl
  | cons q rs ih => exact ih

theorem popAll_mxcsr {rs : List Reg} : (s.popAll rs).mxcsr = s.mxcsr := by
  induction rs generalizing s with
  | nil => rfl
  | cons q rs ih => exact ih

theorem popAll_x87cw {rs : List Reg} : (s.popAll rs).x87cw = s.x87cw := by
  induction rs generalizing s with
  | nil => rfl
  | cons q rs ih => exact ih

theorem popAll_reg_of_notMem {rs : List Reg} (out : r ∉ rs) (ne : r ≠ .rsp) :
    (s.popAll rs).reg r = s.reg r := by
  induction rs generalizing s with
  | nil => rfl
  | cons q rs ih =>
    simp only [List.mem_cons, not_or] at out
    refine (ih out.2).trans ?_
    rw [State.set_reg_of_ne _ out.1, State.drop, State.set_reg_of_ne _ ne]

theorem popAll_rsp {rs : List Reg} (ne : .rsp ∉ rs) :
    (s.popAll rs).reg .rsp = s.reg .rsp + BitVec.ofNat 64 (8 * rs.length) := by
  induction rs generalizing s with
  | nil => simp [State.popAll]
  | cons q rs ih =>
    simp only [List.mem_cons, not_or] at ne
    refine (ih ne.2).trans ?_
    rw [State.set_reg_of_ne _ ne.1, State.drop, State.set_reg_self, List.length_cons,
      BitVec.add_assoc, Nat.mul_succ, Nat.add_comm, BitVec.ofNat_add]
    rfl

/-- Pops give the registers the words that lie on the stack, from the top down. -/
theorem popAll_words {rs : List Reg} (words : Words s.mem (s.reg .rsp) ws) (nodup : rs.Nodup)
    (ne : .rsp ∉ rs) (length : rs.length = ws.length) : rs.map (s.popAll rs).reg = ws := by
  induction rs generalizing s ws with
  | nil => exact (List.length_eq_zero_iff.mp length.symm).symm
  | cons q rs ih =>
    obtain _ | ⟨w, ws⟩ := ws
    · simp at length
    simp only [List.mem_cons, not_or, List.nodup_cons, List.length_cons, Nat.succ_inj] at nodup ne length
    have popped : Words (s.drop.set q s.top).mem ((s.drop.set q s.top).reg .rsp) ws := by
      rw [State.set_reg_of_ne _ ne.1, State.drop, State.set_reg_self]
      exact words.2
    have first : (State.popAll (s.drop.set q s.top) rs).reg q = w := by
      rw [popAll_reg_of_notMem nodup.1 (Ne.symm ne.1), State.set_reg_self]
      exact words.1
    exact congrArg₂ List.cons first (ih popped nodup.2 ne.2 length)

end Stack

end Conet.Lib.X86
