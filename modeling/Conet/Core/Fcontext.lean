/- Module: Conet/Core/Fcontext
   source: core/src/jump_x86_64_sysv_elf_gas.s, core/src/make_x86_64_sysv_elf_gas.s, core/fcontext.h
   digest: The switch between two stacks, instruction by instruction. -/

import Conet.Lib.X86

set_option autoImplicit false
set_option relaxedAutoImplicit false

namespace Conet.Core.Fcontext

open Conet.Lib.X86

def jumpFcontext : List Instr :=
  [.op (.push .rbp), .op (.push .rbx), .op (.push .r15), .op (.push .r14), .op (.push .r13),
    .op (.push .r12),
    .op (.lea (-8) .rsp .rsp),
    .op (.cmp 0 .rcx), .je 2,
    .op (.stmxcsr 0 .rsp), .op (.fnstcw 4 .rsp),
    -- 1:
    .op (.store .rsp 0 .rdi),
    .op (.mov .rsi .rsp),
    .op (.cmp 0 .rcx), .je 2,
    .op (.ldmxcsr 0 .rsp), .op (.fldcw 4 .rsp),
    -- 2:
    .op (.lea 8 .rsp .rsp),
    .op (.pop .r12), .op (.pop .r13), .op (.pop .r14), .op (.pop .r15), .op (.pop .rbx),
    .op (.pop .rbp),
    .op (.pop .r8),
    .op (.mov .rdx .rax), .op (.mov .rdx .rdi),
    .jmp .r8]

/-- `make_fcontext`; `finish` is the address of its label. -/
def makeFcontext (finish : Word) : List Instr :=
  [.op (.mov .rdi .rax),
    .op (.and (-16) .rax),
    .op (.lea (-0x48) .rax .rax),
    .op (.store .rdx 0x38 .rax),
    .op (.stmxcsr 0 .rax), .op (.fnstcw 4 .rax),
    .op (.leaLabel finish .rcx),
    .op (.store .rcx 0x40 .rax),
    .ret]

/-- What the code after a call of `jump_fcontext` counts on: the registers that a function keeps for
its caller, its stack pointer, the control words and the place where it goes on. -/
@[ext] structure Context where
  rbx : Word
  rbp : Word
  r12 : Word
  r13 : Word
  r14 : Word
  r15 : Word
  rsp : Word
  rip : Word
  mxcsr : BitVec 32
  x87cw : BitVec 16

/-- The context of code that goes on at `rip`. -/
def context (s : State) (rip : Word) : Context where
  rbx := s.reg .rbx
  rbp := s.reg .rbp
  r12 := s.reg .r12
  r13 := s.reg .r13
  r14 := s.reg .r14
  r15 := s.reg .r15
  rsp := s.reg .rsp
  rip := rip
  mxcsr := s.mxcsr
  x87cw := s.x87cw

/-- The context-data at `sp`, as the comments of the two files draw it. -/
structure Frame (m : Mem) (sp : Word) (c : Context) : Prop where
  mxcsr : m.load sp 4 = c.mxcsr
  x87cw : m.load (sp + 4) 2 = c.x87cw
  words : Words m (sp + 8) [c.r12, c.r13, c.r14, c.r15, c.rbx, c.rbp, c.rip]
  rsp : c.rsp = sp + 64

variable {s : State} {m m' : Mem} {back sp finish : Word} {c : Context}

theorem Frame.congr (frame : Frame m sp c) (same : ∀ x ∈ Span sp 64, m x = m' x) :
    Frame m' sp c where
  mxcsr := by
    rw [← frame.mxcsr]
    exact (Mem.load_congr (fun x hx => same x (span_subset_of_le (by decide) hx)) (by decide)).symm
  x87cw := by
    rw [← frame.x87cw]
    refine (Mem.load_congr (fun x hx => same x ?_) (by decide)).symm
    exact span_subset_of_le (by decide) (span_add_subset hx)
  words := by
    refine frame.words.congr (fun x hx => same x ?_) (by simp)
    exact span_add_subset hx
  rsp := frame.rsp

/-- The state in which `jump_fcontext` has pushed its registers. -/
def pushed (s : State) (back : Word) : State :=
  (s.push back).pushAll [.rbp, .rbx, .r15, .r14, .r13, .r12]

/-- The memory that `jump_fcontext` leaves, from the state `p` after its pushes, with the
context-data at `sp`. -/
def jumpMem (p : State) (sp : Word) : Mem :=
  let m := if p.reg .rcx = 0 then p.mem else (p.mem.store sp 4 p.mxcsr).store (sp + 4) 2 p.x87cw
  m.store (p.reg .rdi) 8 sp

/-- The state before the pops of `jump_fcontext`. -/
def landed (p : State) (sp : Word) : State :=
  let m := jumpMem p sp
  let dest := p.reg .rsi
  { reg := Function.update p.reg .rsp (dest + 8)
    mxcsr := if p.reg .rcx = 0 then p.mxcsr else m.load dest 4
    x87cw := if p.reg .rcx = 0 then p.x87cw else m.load (dest + 4) 2
    zf := decide (p.reg .rcx = 0)
    mem := m
    rip := p.rip }

theorem pushed_reg {r : Reg} (ne : r ≠ .rsp) : (pushed s back).reg r = s.reg r :=
  (pushAll_reg ne).trans (State.push_reg _ ne)

theorem pushed_rsp : (pushed s back).reg .rsp = s.reg .rsp - 56 := by
  rw [pushed, pushAll_rsp, State.push_rsp, BitVec.sub_sub]
  rfl

/-- `room` is the room that is left for the control words. -/
def switchStacks (room : Word) : List Instr :=
  [.op (.lea room .rsp .rsp),
    .op (.cmp 0 .rcx), .je 2,
    .op (.stmxcsr 0 .rsp), .op (.fnstcw 4 .rsp),
    -- 1:
    .op (.store .rsp 0 .rdi),
    .op (.mov .rsi .rsp),
    .op (.cmp 0 .rcx), .je 2,
    .op (.ldmxcsr 0 .rsp), .op (.fldcw 4 .rsp),
    -- 2:
    .op (.lea 8 .rsp .rsp)]

theorem exec_switchStacks (p : State) (code : List Instr) (room : Word) :
    State.exec (switchStacks room ++ code) 0 p =
      State.exec code 0 (landed p (p.reg .rsp + room)) := by
  by_cases preserve : p.reg .rcx = 0#64
  · simp [switchStacks, State.exec, State.op, State.set, State.store, landed, jumpMem, preserve]
  · simp [switchStacks, State.exec, State.op, State.set, State.store, landed, jumpMem, preserve]

/-- The state after the pops of `jump_fcontext`. -/
def restored (p : State) (sp : Word) : State :=
  (landed p sp).popAll [.r12, .r13, .r14, .r15, .rbx, .rbp, .r8]

/-- The last instructions of `jump_fcontext`. -/
def leave (t : State) : State :=
  { (t.set .rax (t.reg .rdx)).set .rdi (t.reg .rdx) with rip := t.reg .r8 }

theorem exec_leave (t : State) :
    State.exec [.op (.mov .rdx .rax), .op (.mov .rdx .rdi), .jmp .r8] 0 t = leave t := by
  simp [State.exec, State.op, leave]

theorem call_jumpFcontext (sp_eq : s.reg .rsp = sp + 64) :
    s.call jumpFcontext back = leave (restored (pushed s back) sp) := by
  have parts : jumpFcontext =
      [.rbp, .rbx, .r15, .r14, .r13, .r12].map (fun r => .op (.push r)) ++
        (switchStacks (-8) ++
          ([.r12, .r13, .r14, .r15, .rbx, .rbp, .r8].map (fun r => .op (.pop r)) ++
            [.op (.mov .rdx .rax), .op (.mov .rdx .rdi), .jmp .r8])) := rfl
  have bottom : (pushed s back).reg .rsp + -8 = sp := by
    rw [pushed_rsp, sp_eq, ← BitVec.sub_eq_add_neg, BitVec.sub_sub, BitVec.sub_eq_iff_eq_add]
    rfl
  rw [State.call, parts, exec_pushes, exec_switchStacks, exec_pops, exec_leave, ← pushed, bottom,
    restored]

theorem jumpMem_of_notMem {p : State} {x : Word} (low : x ∉ Span sp 8)
    (slot : x ∉ Span (p.reg .rdi) 8) : jumpMem p sp x = p.mem x := by
  refine (Mem.store_of_notMem slot).trans ?_
  split_ifs with preserve
  · rfl
  · have upper : x ∉ Span (sp + 4) 2 := fun hx =>
      low (span_subset_of_le (by decide) (span_add_subset hx))
    have lower : x ∉ Span sp 4 := fun hx => low (span_subset_of_le (by decide) hx)
    exact (Mem.store_of_notMem upper).trans (Mem.store_of_notMem lower)

/-- The context-data of the caller, when the switch saves the control words. -/
theorem jumpMem_frame (preserve : s.reg .rcx ≠ 0) (sp_eq : s.reg .rsp = sp + 64)
    (apart : Disjoint (Span (s.reg .rdi) 8) (Span sp 64)) :
    Frame (jumpMem (pushed s back) sp) sp (context s back) := by
  have rcx : (pushed s back).reg .rcx ≠ 0 := by rwa [pushed_reg (by decide)]
  have slot {x : Word} (hx : x ∈ Span sp 64) : x ∉ Span ((pushed s back).reg .rdi) 8 := by
    rw [pushed_reg (by decide)]
    exact Set.disjoint_right.mp apart hx
  have stored {x : Word} (hx : x ∈ Span sp 64) : jumpMem (pushed s back) sp x =
      (((pushed s back).mem.store sp 4 s.mxcsr).store (sp + 4) 2 s.x87cw) x := by
    refine (Mem.store_of_notMem (slot hx)).trans ?_
    rw [if_neg rcx]
    rfl
  have upper : Span (sp + 4) 2 ⊆ Span sp 64 := fun x hx =>
    span_subset_of_le (by decide) (span_add_subset hx)
  have low : Disjoint (Span sp 4) (Span (sp + 4) 2) := disjoint_span_add (by decide)
  constructor
  · have kept : ∀ x ∈ Span sp 4, jumpMem (pushed s back) sp x =
        ((pushed s back).mem.store sp 4 s.mxcsr) x := fun x hx =>
      (stored (span_subset_of_le (by decide) hx)).trans
        (Mem.store_of_notMem (Set.disjoint_left.mp low hx))
    exact (Mem.load_congr kept (by decide)).trans (Mem.load_store _ _ _ (by decide))
  · exact (Mem.load_congr (fun x hx => stored (upper hx)) (by decide)).trans
      (Mem.load_store _ _ _ (by decide))
  · have top : (pushed s back).reg .rsp = sp + 8 := by
      rw [pushed_rsp, sp_eq, BitVec.sub_eq_iff_eq_add, BitVec.add_assoc]
      rfl
    have none : Words s.mem (s.reg .rsp) [] := trivial
    have ret := none.push (by simp) back
    have words : Words (pushed s back).mem ((pushed s back).reg .rsp)
        ([.r12, .r13, .r14, .r15, .rbx, .rbp].map (s.push back).reg ++ [back]) :=
      pushAll_words ret (by decide) (by simp)
    rw [top] at words
    refine words.congr (fun x hx => (jumpMem_of_notMem ?_ ?_).symm) (by simp)
    · exact Set.disjoint_right.mp (disjoint_span_add (by simp)) hx
    · exact slot (span_add_subset hx)
  · exact sp_eq

/-- Nothing is written but the context-data and the pointer to it. -/
theorem jumpMem_frame_out {x : Word} (sp_eq : s.reg .rsp = sp + 64) (out : x ∉ Span sp 64)
    (slot : x ∉ Span (s.reg .rdi) 8) : jumpMem (pushed s back) sp x = s.mem x := by
  have low : x ∉ Span sp 8 := fun hx => out (span_subset_of_le (by decide) hx)
  have regs : x ∉ Span (sp + 8) 48 := fun hx =>
    out (span_subset_of_le (by decide) (span_add_subset hx))
  have back_ : x ∉ Span (sp + 56) 8 := fun hx => out (span_add_subset hx)
  have room : s.reg .rsp - 8 = sp + 56 := by
    rw [sp_eq, BitVec.sub_eq_iff_eq_add, BitVec.add_assoc]
    rfl
  have down : (s.push back).reg .rsp = sp + 8 + BitVec.ofNat 64 48 := by
    rw [State.push_rsp, room, BitVec.add_assoc]
    rfl
  rw [jumpMem_of_notMem low (by rwa [pushed_reg (by decide)]), pushed, pushAll_mem down regs]
  exact Mem.store_of_notMem (room ▸ back_)

theorem jump_mem (sp_eq : s.reg .rsp = sp + 64) :
    (s.call jumpFcontext back).mem = jumpMem (pushed s back) sp := by
  rw [call_jumpFcontext sp_eq, leave, restored, State.set_mem, State.set_mem, popAll_mem, landed]

/-- The registers, from the context-data under `rsi`. -/
theorem restored_regs (words : Words (jumpMem (pushed s back) sp) (s.reg .rsi + 8)
    [c.r12, c.r13, c.r14, c.r15, c.rbx, c.rbp, c.rip]) :
    [.r12, .r13, .r14, .r15, .rbx, .rbp, .r8].map (restored (pushed s back) sp).reg =
      [c.r12, c.r13, c.r14, c.r15, c.rbx, c.rbp, c.rip] := by
  refine popAll_words ?_ (by decide) (by decide) rfl
  have rsp : (landed (pushed s back) sp).reg .rsp = s.reg .rsi + 8 := by
    simp [landed, pushed_reg]
  rw [rsp]
  exact words

theorem restored_rsp : (restored (pushed s back) sp).reg .rsp = s.reg .rsi + 64 := by
  have rsp : (landed (pushed s back) sp).reg .rsp = s.reg .rsi + 8 := by
    simp [landed, pushed_reg]
  rw [restored, popAll_rsp (by decide), rsp, BitVec.add_assoc]
  rfl

theorem restored_rdx : (restored (pushed s back) sp).reg .rdx = s.reg .rdx := by
  rw [restored, popAll_reg_of_notMem (by decide) (by decide)]
  simp [landed, pushed_reg]

/-- The context that is found under `rsi` goes on, with the pointer in `rdx` for its value. -/
theorem jump_arrives (preserve : s.reg .rcx ≠ 0#64) (sp_eq : s.reg .rsp = sp + 64)
    (frame : Frame (jumpMem (pushed s back) sp) (s.reg .rsi) c) :
    context (s.call jumpFcontext back) (s.call jumpFcontext back).rip = c ∧
      (s.call jumpFcontext back).reg .rax = s.reg .rdx ∧
      (s.call jumpFcontext back).reg .rdi = s.reg .rdx := by
  rw [call_jumpFcontext sp_eq]
  have regs := restored_regs frame.words
  have rsp : (restored (pushed s back) sp).reg .rsp = s.reg .rsi + 64 := restored_rsp
  have rdx : (restored (pushed s back) sp).reg .rdx = s.reg .rdx := restored_rdx
  have mxcsr : (restored (pushed s back) sp).mxcsr = c.mxcsr := by
    rw [restored, popAll_mxcsr]
    simp [landed, pushed_reg, preserve, frame.mxcsr]
  have x87cw : (restored (pushed s back) sp).x87cw = c.x87cw := by
    rw [restored, popAll_x87cw]
    simpa [landed, pushed_reg, preserve] using frame.x87cw
  simp only [List.map_cons, List.map_nil, List.cons.injEq, and_true] at regs
  obtain ⟨r12, r13, r14, r15, rbx, rbp, r8⟩ := regs
  refine ⟨?_, ?_, ?_⟩
  · ext1 <;> simp [context, leave, frame.rsp, *]
  · simp [leave, rdx]
  · simp [leave, rdx]

section Make

/-- The memory that `make_fcontext` leaves, with the context-data at `sp`. -/
def makeMem (p : State) (sp finish : Word) : Mem :=
  (((p.mem.store (sp + 0x38) 8 (p.reg .rdx)).store sp 4 p.mxcsr).store (sp + 4) 2 p.x87cw).store
    (sp + 0x40) 8 finish

/-- The instructions of `make_fcontext`, with the masks and offsets for parameters. -/
def makeContext (mask room finish : Word) : List Instr :=
  [.op (.mov .rdi .rax),
    .op (.and mask .rax),
    .op (.lea room .rax .rax),
    .op (.store .rdx 0x38 .rax),
    .op (.stmxcsr 0 .rax), .op (.fnstcw 4 .rax),
    .op (.leaLabel finish .rcx),
    .op (.store .rcx 0x40 .rax),
    .ret]

theorem exec_makeContext (p : State) (mask room : Word) :
    State.exec (makeContext mask room finish) 0 p =
      let sp := (p.reg .rdi &&& mask) + room
      let q := { (p.set .rax sp).set .rcx finish with
        zf := decide (p.reg .rdi &&& mask = 0)
        mem := makeMem p sp finish }
      { q.drop with rip := q.top } := by
  simp [makeContext, State.exec, State.op, makeMem, State.store, State.drop, State.top, State.set]

/-- Where `make_fcontext` puts the context-data, for the top of a stack. -/
def dataPos (top : Word) : Word := (top &&& -16) + -0x48

/-- The context that `make_fcontext` has made at `sp`: the registers are what lay there before. -/
def madeContext (m : Mem) (sp rip : Word) (mxcsr : BitVec 32) (x87cw : BitVec 16) : Context where
  r12 := m.load (sp + 0x08) 8
  r13 := m.load (sp + 0x10) 8
  r14 := m.load (sp + 0x18) 8
  r15 := m.load (sp + 0x20) 8
  rbx := m.load (sp + 0x28) 8
  rbp := m.load (sp + 0x30) 8
  rsp := sp + 0x40
  rip := rip
  mxcsr := mxcsr
  x87cw := x87cw

theorem makeMem_rip (p : State) (sp finish : Word) :
    (makeMem p sp finish).load (sp + 0x38) 8 = p.reg .rdx := by
  have finish_ : Disjoint (Span (sp + 0x38) 8) (Span (sp + 0x40) 8) :=
    disjoint_parts (i := 0x38) (j := 0x40) (by decide) (by decide)
  have x87cw : Disjoint (Span (sp + 0x38) 8) (Span (sp + 4) 2) :=
    (disjoint_parts (i := 4) (j := 0x38) (by decide) (by decide)).symm
  have mxcsr : Disjoint (Span (sp + 0x38) 8) (Span sp 4) := by
    refine Disjoint.mono_right (span_subset_of_le (n := 0x38) (by decide)) ?_
    exact (disjoint_span_add (by decide)).symm
  rw [makeMem, Mem.load_store_of_disjoint finish_ (by decide),
    Mem.load_store_of_disjoint x87cw (by decide), Mem.load_store_of_disjoint mxcsr (by decide),
    Mem.load_store _ _ _ (by decide)]

theorem makeMem_frame (p : State) (sp finish : Word) :
    Frame (makeMem p sp finish) sp
      (madeContext (makeMem p sp finish) sp (p.reg .rdx) p.mxcsr p.x87cw) where
  mxcsr := by
    have finish_ : Disjoint (Span sp 4) (Span (sp + 0x40) 8) :=
      Disjoint.mono_left (span_subset_of_le (n := 0x40) (by decide)) (disjoint_span_add (by decide))
    have control : Disjoint (Span sp 4) (Span (sp + 4) 2) := disjoint_span_add (by decide)
    rw [makeMem, Mem.load_store_of_disjoint finish_ (by decide),
      Mem.load_store_of_disjoint control (by decide), Mem.load_store _ _ _ (by decide)]
    rfl
  x87cw := by
    have finish_ : Disjoint (Span (sp + 4) 2) (Span (sp + 0x40) 8) :=
      disjoint_parts (i := 4) (j := 0x40) (by decide) (by decide)
    rw [makeMem, Mem.load_store_of_disjoint finish_ (by decide), Mem.load_store _ _ _ (by decide)]
    rfl
  words := by
    have rip := makeMem_rip p sp finish
    generalize makeMem p sp finish = m at rip
    simpa [Words, madeContext, BitVec.add_assoc] using rip
  rsp := rfl

theorem makeMem_finish (p : State) (sp finish : Word) :
    (makeMem p sp finish).load (sp + 0x40) 8 = finish := Mem.load_store _ _ _ (by decide)

theorem makeMem_out {p : State} {x : Word} (out : x ∉ Span sp 72) :
    makeMem p sp finish x = p.mem x := by
  have part {k n : ℕ} (fits : k + n ≤ 72) : x ∉ Span (sp + BitVec.ofNat 64 k) n := fun hx =>
    out (span_subset_of_le fits (span_add_subset hx))
  have low : x ∉ Span sp 4 := fun hx => out (span_subset_of_le (by decide) hx)
  refine (Mem.store_of_notMem (part (k := 0x40) (by decide))).trans ?_
  refine (Mem.store_of_notMem (part (k := 4) (by decide))).trans ?_
  exact (Mem.store_of_notMem low).trans (Mem.store_of_notMem (part (k := 0x38) (by decide)))

/-- `make_fcontext` returns the place of the context-data. -/
theorem call_makeFcontext {s' : State} (call : s' = s.call (makeFcontext finish) back)
    (apart : Disjoint (Span (s.reg .rsp - 8) 8) (Span (dataPos (s.reg .rdi)) 72)) :
    s'.mem = makeMem (s.push back) (dataPos (s.reg .rdi)) finish ∧
      s'.reg .rax = dataPos (s.reg .rdi) ∧ s'.reg .rsp = s.reg .rsp ∧ s'.rip = back := by
  have code : s.call (makeFcontext finish) back =
      State.exec (makeContext (-16) (-0x48) finish) 0 (s.push back) := rfl
  have rdi : ((s.push back).reg .rdi &&& -16) + -0x48 = dataPos (s.reg .rdi) := by
    rw [State.push_reg _ (by decide)]
    rfl
  have top : (s.push back).mem.load (s.reg .rsp - 8) 8 = back := Mem.load_store _ _ _ (by decide)
  have kept : (makeMem (s.push back) (dataPos (s.reg .rdi)) finish).load (s.reg .rsp - 8) 8 = back := by
    refine (Mem.load_congr (fun x hx => ?_) (by decide)).trans top
    exact makeMem_out (Set.disjoint_left.mp apart hx)
  rw [call, code, exec_makeContext, rdi]
  generalize dataPos (s.reg .rdi) = sp at kept
  refine ⟨rfl, ?_, ?_, ?_⟩
  · simp [State.drop, State.set]
  · simp [State.drop, State.set]
  · simpa [State.top, State.set] using kept

/-- On entry of the function `rsp + 8` is a multiple of 16. -/
theorem dataPos_aligned (top : Word) : (dataPos top + 0x48).toNat % 16 = 0 := by
  have cleared : (top &&& -16) &&& 15 = 0 := by
    rw [BitVec.and_assoc]
    exact BitVec.and_zero
  have low : ((top &&& -16) &&& 15).toNat = (top &&& -16).toNat % 16 := by
    rw [BitVec.toNat_and]
    exact Nat.and_two_pow_sub_one_eq_mod _ 4
  have shift : dataPos top + 0x48 = top &&& -16 := by
    rw [dataPos, BitVec.add_assoc]
    exact BitVec.add_zero _
  rw [shift, ← low, cleared]
  rfl

theorem and_add_and (x : Word) : (x &&& -16) + (x &&& 15) = x := by
  have apart : (x &&& -16) &&& (x &&& 15) = 0 := by
    have regroup : x &&& -16 &&& (x &&& 15) = x &&& (x &&& (-16 &&& 15)) := by ac_rfl
    rw [regroup]
    simp
  have mask : (-16 : Word) = ~~~15 := by decide
  rw [BitVec.add_eq_or_of_and_eq_zero _ _ apart, mask]
  ext i hi
  rw [BitVec.getElem_or, BitVec.getElem_and, BitVec.getElem_and, BitVec.getElem_not]
  cases (15 : Word)[i] <;> simp

/-- The context-data lies on the stack whose top was given. -/
theorem dataPos_own {base : Word} {size : ℕ} (room : 87 ≤ size) (fits : size < 2 ^ 64) :
    Span (dataPos (base + BitVec.ofNat 64 size)) 72 ⊆ Span base size := by
  generalize ht : base + BitVec.ofNat 64 size = top
  have low : (top &&& 15).toNat < 16 := by
    rw [BitVec.toNat_and]
    exact Nat.lt_succ_of_le Nat.and_le_right
  have pos : dataPos top = base + BitVec.ofNat 64 (size - (top &&& 15).toNat - 72) := by
    refine add_right_cancel (b := 72 + (top &&& 15)) ?_
    have left : dataPos top + (72 + (top &&& 15)) = top := by
      have cancel : (-0x48 : Word) + (72 + (top &&& 15)) = top &&& 15 := by
        rw [← BitVec.add_assoc]
        exact BitVec.zero_add _
      rw [dataPos, BitVec.add_assoc, cancel, and_add_and]
    have sum : BitVec.ofNat 64 (size - (top &&& 15).toNat - 72) + (72 + (top &&& 15)) =
        BitVec.ofNat 64 size := by
      have digits : size = size - (top &&& 15).toNat - 72 + (72 + (top &&& 15).toNat) := by omega
      conv_rhs => rw [digits, BitVec.ofNat_add, BitVec.ofNat_add, BitVec.ofNat_toNat, BitVec.setWidth_eq]
      rfl
    rw [left, BitVec.add_assoc, sum, ht]
  rw [pos]
  exact span_add_subset.trans (span_subset_of_le (by omega))

end Make

end Conet.Core.Fcontext
