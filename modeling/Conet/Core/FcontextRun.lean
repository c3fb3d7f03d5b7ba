/- Module: Conet/Core/FcontextRun
   source: core/src/jump_x86_64_sysv_elf_gas.s, core/src/make_x86_64_sysv_elf_gas.s,
     core/src/coroutine.cpp
   digest: Any order of switches between stacks: each one goes on as it was left. -/

import Conet.Core.Fcontext
import Conet.Lib.Trace
import Mathlib.Logic.Pairwise

set_option autoImplicit false
set_option relaxedAutoImplicit false

namespace Conet.Core.FcontextRun

open Conet.Lib Conet.Lib.X86 Conet.Core.Fcontext

universe u

variable {C : Type u} [DecidableEq C]

/-- Where the stacks and the `coroutine_t::fctx` lie. -/
structure Layout (C : Type u) where
  stack : C → Word
  size : C → ℕ
  fctx : C → Word
  stackApart : Pairwise fun c d => Disjoint (Span (stack c) (size c)) (Span (stack d) (size d))
  fctxApart : Pairwise fun c d => Disjoint (Span (fctx c) 8) (Span (fctx d) 8)
  apart : ∀ c d, Disjoint (Span (fctx c) 8) (Span (stack d) (size d))

/-- What the switches are for: one context runs, the others wait as they were left. -/
structure Contexts (C : Type u) where
  cur : C
  saved : C → Option Context
  /-- made and not entered yet -/
  fresh : C → Bool

inductive Event (C : Type u)
  | ran
  | made (co : C) (c : Context)
  /-- the running context leaves with `c`, and `co` goes on with `val` -/
  | jumped (co : C) (val : Word) (c : Context)
  /-- the stack of `co` is given back -/
  | freed (co : C)

def Contexts.step (k : Contexts C) : Event C → Contexts C
  | .ran => k
  | .made co c =>
    { k with saved := Function.update k.saved co (some c), fresh := Function.update k.fresh co true }
  | .jumped co _ c =>
    { cur := co
      saved := Function.update (Function.update k.saved k.cur (some c)) co none
      fresh := Function.update (Function.update k.fresh k.cur false) co false }
  | .freed co => { k with saved := Function.update k.saved co none }

/-- What a thread has come to that began in `main`. -/
def contexts (main : C) (tr : List (Event C)) : Contexts C :=
  tr.foldl Contexts.step ⟨main, fun _ => none, fun _ => false⟩

structure World (C : Type u) where
  machine : State
  contexts : Contexts C

variable (lay : Layout C) (finish : Word)

/-- Code of the running context, and the two calls as `coroutine.cpp` makes them. What the code
counts on is that it runs on its own stack and leaves alone what waits. -/
inductive Step : World C → Event C → World C → Prop
  | ran {w : World C} (s' : State)
      (fctx : ∀ c, w.contexts.saved c ≠ none → ∀ x ∈ Span (lay.fctx c) 8,
        w.machine.mem x = s'.mem x)
      (stack : ∀ c, w.contexts.saved c ≠ none → ∀ x ∈ Span (lay.stack c) (lay.size c),
        w.machine.mem x = s'.mem x) :
      Step w .ran ⟨s', w.contexts⟩
  | made {w : World C} (co : C) (back : Word) {s' : State} {c : Context}
      (other : co ≠ w.contexts.cur)
      (top : w.machine.reg .rdi = lay.stack co + BitVec.ofNat 64 (lay.size co))
      (room : 87 ≤ lay.size co) (fits : lay.size co < 2 ^ 64)
      (own : Span (w.machine.reg .rsp - 8) 8 ⊆
        Span (lay.stack w.contexts.cur) (lay.size w.contexts.cur))
      (call : s' = w.machine.call (makeFcontext finish) back)
      (made : c = madeContext s'.mem (s'.reg .rax) (w.machine.reg .rdx) w.machine.mxcsr
        w.machine.x87cw) :
      Step w (.made co c)
        ⟨s'.store (lay.fctx co) 8 (s'.reg .rax), w.contexts.step (.made co c)⟩
  | jumped {w : World C} (co : C) (back : Word) {val : Word} {c : Context}
      (waits : w.contexts.saved co ≠ none)
      (cur : w.machine.reg .rdi = lay.fctx w.contexts.cur)
      (dest : w.machine.reg .rsi = w.machine.mem.load (lay.fctx co) 8)
      (preserve : w.machine.reg .rcx ≠ 0)
      (own : Span (w.machine.reg .rsp - 64) 64 ⊆
        Span (lay.stack w.contexts.cur) (lay.size w.contexts.cur))
      (left : c = context w.machine back) (handed : val = w.machine.reg .rdx) :
      Step w (.jumped co val c)
        ⟨w.machine.call jumpFcontext back, w.contexts.step (.jumped co val c)⟩
  | freed {w : World C} (co : C) (other : co ≠ w.contexts.cur) :
      Step w (.freed co) ⟨w.machine, w.contexts.step (.freed co)⟩

/-- A thread before its first coroutine. -/
def World.init (m : State) (main : C) : World C := ⟨m, ⟨main, fun _ => none, fun _ => false⟩⟩

/-- The context `c` of `co` lies on the stack of `co`, and `fctx` points to it. -/
structure Waits (m : Mem) (co : C) (c : Context) : Prop where
  frame : Frame m (m.load (lay.fctx co) 8) c
  own : Span (m.load (lay.fctx co) 8) 64 ⊆ Span (lay.stack co) (lay.size co)

/-- Above the context-data of a context that has not been entered yet lies the address of
`finish`. -/
structure Enters (m : Mem) (co : C) (c : Context) : Prop where
  finish : m.load c.rsp 8 = finish
  aligned : (c.rsp + 8).toNat % 16 = 0
  own : Span c.rsp 8 ⊆ Span (lay.stack co) (lay.size co)

structure Inv (w : World C) : Prop where
  cur : w.contexts.saved w.contexts.cur = none
  waits : ∀ co c, w.contexts.saved co = some c → Waits lay w.machine.mem co c
  enters : ∀ co c, w.contexts.saved co = some c → w.contexts.fresh co = true →
    Enters lay finish w.machine.mem co c

/-- The stack of `co` and its `fctx` are the same in both memories. -/
structure Kept (m m' : Mem) (co : C) : Prop where
  fctx : ∀ x ∈ Span (lay.fctx co) 8, m x = m' x
  stack : ∀ x ∈ Span (lay.stack co) (lay.size co), m x = m' x

section Memory

variable {lay : Layout C} {finish : Word} {m m' : Mem} {s : State} {co d : C} {c : Context}
  {sp back : Word}

omit [DecidableEq C]

theorem Waits.kept (waits : Waits lay m co c) (kept : Kept lay m m' co) : Waits lay m' co c := by
  have pos : m.load (lay.fctx co) 8 = m'.load (lay.fctx co) 8 := Mem.load_congr kept.fctx (by decide)
  constructor
  · rw [← pos]
    exact waits.frame.congr fun x hx => kept.stack x (waits.own hx)
  · rw [← pos]
    exact waits.own

theorem Enters.kept (enters : Enters lay finish m co c) (kept : Kept lay m m' co) :
    Enters lay finish m' co c where
  finish := (Mem.load_congr (fun x hx => (kept.stack x (enters.own hx)).symm) (by decide)).trans
    enters.finish
  aligned := enters.aligned
  own := enters.own

/-- What is written on the stack of `d` and to its `fctx`. -/
theorem Kept.of_other (other : co ≠ d)
    (same : ∀ x ∉ Span (lay.stack d) (lay.size d), x ∉ Span (lay.fctx d) 8 → m x = m' x) :
    Kept lay m m' co where
  fctx x hx := same x (Set.disjoint_left.mp (lay.apart co d) hx)
    (Set.disjoint_left.mp (lay.fctxApart other) hx)
  stack x hx := same x (Set.disjoint_left.mp (lay.stackApart other) hx)
    (Set.disjoint_right.mp (lay.apart d co) hx)

theorem Kept.trans {m₁ m₂ m₃ : Mem} (first : Kept lay m₁ m₂ co) (second : Kept lay m₂ m₃ co) :
    Kept lay m₁ m₃ co where
  fctx x hx := (first.fctx x hx).trans (second.fctx x hx)
  stack x hx := (first.stack x hx).trans (second.stack x hx)

theorem kept_jump (sp_eq : s.reg .rsp = sp + 64) (cur : s.reg .rdi = lay.fctx d)
    (own : Span sp 64 ⊆ Span (lay.stack d) (lay.size d)) (other : co ≠ d) :
    Kept lay s.mem (s.call jumpFcontext back).mem co := by
  rw [jump_mem sp_eq]
  refine Kept.of_other other fun x stack fctx => ?_
  exact (jumpMem_frame_out sp_eq (fun hx => stack (own hx)) (cur ▸ fctx)).symm

theorem kept_push (own : Span (s.reg .rsp - 8) 8 ⊆ Span (lay.stack d) (lay.size d))
    (other : co ≠ d) : Kept lay s.mem (s.push back).mem co :=
  Kept.of_other other fun _ stack _ => (Mem.store_of_notMem fun hx => stack (own hx)).symm

theorem kept_make (own : Span sp 72 ⊆ Span (lay.stack d) (lay.size d)) (other : co ≠ d) :
    Kept lay s.mem ((makeMem s sp finish).store (lay.fctx d) 8 sp) co := by
  refine Kept.of_other other fun x stack fctx => ?_
  exact ((Mem.store_of_notMem fctx).trans (makeMem_out fun hx => stack (own hx))).symm

theorem waits_jump (preserve : s.reg .rcx ≠ 0) (sp_eq : s.reg .rsp = sp + 64)
    (cur : s.reg .rdi = lay.fctx d) (own : Span sp 64 ⊆ Span (lay.stack d) (lay.size d)) :
    Waits lay (s.call jumpFcontext back).mem d (context s back) := by
  have apart : Disjoint (Span (s.reg .rdi) 8) (Span sp 64) := by
    rw [cur]
    exact (lay.apart d d).mono_right own
  have pos : (s.call jumpFcontext back).mem.load (lay.fctx d) 8 = sp := by
    have rdi : (pushed s back).reg .rdi = s.reg .rdi := pushed_reg (by decide)
    rw [jump_mem sp_eq, ← cur, ← rdi]
    exact Mem.load_store _ _ _ (by decide)
  constructor
  · rw [pos, jump_mem sp_eq]
    exact jumpMem_frame preserve sp_eq apart
  · rwa [pos]

theorem waits_make (own : Span sp 72 ⊆ Span (lay.stack d) (lay.size d)) :
    Waits lay ((makeMem s sp finish).store (lay.fctx d) 8 sp) d
      (madeContext (makeMem s sp finish) sp (s.reg .rdx) s.mxcsr s.x87cw) := by
  have pos : ((makeMem s sp finish).store (lay.fctx d) 8 sp).load (lay.fctx d) 8 = sp :=
    Mem.load_store _ _ _ (by decide)
  have data : Span sp 64 ⊆ Span (lay.stack d) (lay.size d) :=
    (span_subset_of_le (by decide)).trans own
  constructor
  · rw [pos]
    refine (makeMem_frame s sp finish).congr fun x hx => (Mem.store_of_notMem ?_).symm
    exact Set.disjoint_right.mp (lay.apart d d) (data hx)
  · rwa [pos]

theorem enters_make (own : Span sp 72 ⊆ Span (lay.stack d) (lay.size d))
    (aligned : (sp + 0x48).toNat % 16 = 0) :
    Enters lay finish ((makeMem s sp finish).store (lay.fctx d) 8 sp) d
      (madeContext (makeMem s sp finish) sp (s.reg .rdx) s.mxcsr s.x87cw) := by
  have top : Span (sp + 0x40) 8 ⊆ Span (lay.stack d) (lay.size d) := span_add_subset.trans own
  constructor
  · refine (Mem.load_congr (fun x hx => Mem.store_of_notMem ?_) (by decide)).trans
      (makeMem_finish s sp finish)
    exact Set.disjoint_right.mp (lay.apart d d) (top hx)
  · change (sp + 0x40 + 8).toNat % 16 = 0
    rw [BitVec.add_assoc]
    exact aligned
  · exact top

end Memory

section Run

variable {lay : Layout C} {finish : Word} {w w' : World C} {co : C} {c : Context} {ev : Event C}
  {tr : List (Event C)}

omit [DecidableEq C] in
theorem inv_init (m : State) (main : C) : Inv lay finish (World.init m main) where
  cur := rfl
  waits := by simp [World.init]
  enters := by simp [World.init]

omit [DecidableEq C] in
theorem Inv.ran (inv : Inv lay finish w) {s' : State}
    (fctx : ∀ c, w.contexts.saved c ≠ none → ∀ x ∈ Span (lay.fctx c) 8, w.machine.mem x = s'.mem x)
    (stack : ∀ c, w.contexts.saved c ≠ none → ∀ x ∈ Span (lay.stack c) (lay.size c),
      w.machine.mem x = s'.mem x) : Inv lay finish ⟨s', w.contexts⟩ := by
  have kept {co c} (saved : w.contexts.saved co = some c) : Kept lay w.machine.mem s'.mem co :=
    ⟨fctx co (saved ▸ Option.some_ne_none c), stack co (saved ▸ Option.some_ne_none c)⟩
  exact {
    cur := inv.cur
    waits := fun co c saved => (inv.waits co c saved).kept (kept saved)
    enters := fun co c saved fresh => (inv.enters co c saved fresh).kept (kept saved) }

/-- `make_fcontext` writes to the stack of the new context, and its return address to that of the
current one. -/
theorem Inv.made (inv : Inv lay finish w) {back : Word} {s' : State} (other : co ≠ w.contexts.cur)
    (top : w.machine.reg .rdi = lay.stack co + BitVec.ofNat 64 (lay.size co))
    (room : 87 ≤ lay.size co) (fits : lay.size co < 2 ^ 64)
    (own : Span (w.machine.reg .rsp - 8) 8 ⊆ Span (lay.stack w.contexts.cur) (lay.size w.contexts.cur))
    (call : s' = w.machine.call (makeFcontext finish) back)
    (made : c = madeContext s'.mem (s'.reg .rax) (w.machine.reg .rdx) w.machine.mxcsr w.machine.x87cw) :
    Inv lay finish
      ⟨s'.store (lay.fctx co) 8 (s'.reg .rax), w.contexts.step (.made co c)⟩ := by
  have data : Span (dataPos (w.machine.reg .rdi)) 72 ⊆ Span (lay.stack co) (lay.size co) := by
    rw [top]
    exact dataPos_own room fits
  have apart : Disjoint (Span (w.machine.reg .rsp - 8) 8) (Span (dataPos (w.machine.reg .rdi)) 72) :=
    (lay.stackApart other.symm).mono own data
  obtain ⟨mem, rax, -, -⟩ := call_makeFcontext call apart
  have rdx : (w.machine.push back).reg .rdx = w.machine.reg .rdx := State.push_reg _ (by decide)
  rw [mem, rax, ← rdx] at made
  rw [State.store, mem, rax]
  have aligned := dataPos_aligned (w.machine.reg .rdi)
  generalize dataPos (w.machine.reg .rdi) = sp at made data aligned
  have kept {d c'} (saved : w.contexts.saved d = some c') (ne : d ≠ co) : Kept lay w.machine.mem
      ((makeMem (w.machine.push back) sp finish).store (lay.fctx co) 8 sp) d := by
    have notCur : d ≠ w.contexts.cur := by
      rintro rfl
      simp [inv.cur] at saved
    exact (kept_push own notCur).trans (kept_make data ne)
  constructor
  · exact (Function.update_of_ne other.symm _ _).trans inv.cur
  · intro d c' saved
    by_cases here : d = co
    · subst here
      obtain rfl : c = c' := by simpa [Contexts.step] using saved
      rw [made]
      exact waits_make data
    · have saved : w.contexts.saved d = some c' := by simpa [Contexts.step, here] using saved
      exact (inv.waits d c' saved).kept (kept saved here)
  · intro d c' saved fresh
    by_cases here : d = co
    · subst here
      obtain rfl : c = c' := by simpa [Contexts.step] using saved
      rw [made]
      exact enters_make data aligned
    · have saved : w.contexts.saved d = some c' := by simpa [Contexts.step, here] using saved
      have fresh : w.contexts.fresh d = true := by simpa [Contexts.step, here] using fresh
      exact (inv.enters d c' saved fresh).kept (kept saved here)

theorem Inv.jumped (inv : Inv lay finish w) {back val : Word} (waits : w.contexts.saved co ≠ none)
    (cur : w.machine.reg .rdi = lay.fctx w.contexts.cur) (preserve : w.machine.reg .rcx ≠ 0)
    (own : Span (w.machine.reg .rsp - 64) 64 ⊆ Span (lay.stack w.contexts.cur) (lay.size w.contexts.cur))
    (left : c = context w.machine back) :
    Inv lay finish ⟨w.machine.call jumpFcontext back, w.contexts.step (.jumped co val c)⟩ := by
  have sp_eq : w.machine.reg .rsp = w.machine.reg .rsp - 64 + 64 := (BitVec.sub_add_cancel _ _).symm
  have other : co ≠ w.contexts.cur := by
    rintro rfl
    exact waits inv.cur
  constructor
  · exact Function.update_self _ _ _
  · intro d c' saved
    by_cases entered : d = co
    · simp [Contexts.step, entered] at saved
    by_cases leaves : d = w.contexts.cur
    · subst leaves
      obtain rfl : c = c' := by simpa [Contexts.step, entered] using saved
      rw [left]
      exact waits_jump preserve sp_eq cur own
    · have saved : w.contexts.saved d = some c' := by
        simpa [Contexts.step, entered, leaves] using saved
      exact (inv.waits d c' saved).kept (kept_jump sp_eq cur own leaves)
  · intro d c' saved fresh
    by_cases entered : d = co
    · simp [Contexts.step, entered] at saved
    by_cases leaves : d = w.contexts.cur
    · subst leaves
      simp [Contexts.step, entered] at fresh
    · have saved : w.contexts.saved d = some c' := by
        simpa [Contexts.step, entered, leaves] using saved
      have fresh : w.contexts.fresh d = true := by
        simpa [Contexts.step, entered, leaves] using fresh
      exact (inv.enters d c' saved fresh).kept (kept_jump sp_eq cur own leaves)

theorem Inv.freed (inv : Inv lay finish w) (other : co ≠ w.contexts.cur) :
    Inv lay finish ⟨w.machine, w.contexts.step (.freed co)⟩ := by
  have still {d c'} (saved : (w.contexts.step (.freed co)).saved d = some c') :
      w.contexts.saved d = some c' := by
    by_cases here : d = co
    · simp [Contexts.step, here] at saved
    · simpa [Contexts.step, here] using saved
  constructor
  · exact (Function.update_of_ne other.symm _ _).trans inv.cur
  · exact fun d c' saved => inv.waits d c' (still saved)
  · exact fun d c' saved fresh => inv.enters d c' (still saved) fresh

theorem Inv.step (inv : Inv lay finish w) (step : Step lay finish w ev w') :
    Inv lay finish w' := by
  cases step with
  | ran s' fctx stack => exact inv.ran fctx stack
  | made co back other top room fits own call made =>
    exact inv.made other top room fits own call made
  | jumped co back waits cur dest preserve own left handed =>
    exact inv.jumped waits cur preserve own left
  | freed co other => exact inv.freed other

theorem inv_run {m : State} {main : C}
    (run : Trace (World.init m main) (Step lay finish) tr w) : Inv lay finish w :=
  run.invariant (fun _ => Inv lay finish) (inv_init m main) fun inv step => inv.step step

theorem Step.contexts (step : Step lay finish w ev w') : w'.contexts = w.contexts.step ev := by
  cases step <;> rfl

theorem contexts_run {m : State} {main : C}
    (run : Trace (World.init m main) (Step lay finish) tr w) : w.contexts = contexts main tr := by
  refine run.invariant (fun tr w => w.contexts = contexts main tr) rfl ?_
  intro tr w ev w' same step
  rw [contexts, List.foldl_append, ← contexts, ← same]
  exact step.contexts

/-- What the context under `rsi` is after the switch. -/
theorem Inv.arrives {val : Word} (inv : Inv lay finish w)
    (jump : Step lay finish w (.jumped co val c) w') :
    w.contexts.saved co = some (context w'.machine w'.machine.rip) ∧
      w'.machine.reg .rax = val ∧ w'.machine.reg .rdi = val ∧
      Kept lay w.machine.mem w'.machine.mem co := by
  cases jump with
  | jumped co back waits cur dest preserve own left handed =>
    have sp_eq : w.machine.reg .rsp = w.machine.reg .rsp - 64 + 64 := (BitVec.sub_add_cancel _ _).symm
    obtain ⟨c', saved⟩ := Option.ne_none_iff_exists'.mp waits
    have other : co ≠ w.contexts.cur := by
      rintro rfl
      exact waits inv.cur
    have kept : Kept lay w.machine.mem (w.machine.call jumpFcontext back).mem co :=
      kept_jump sp_eq cur own other
    have there := (inv.waits co c' saved).frame.congr fun x hx =>
      kept.stack x ((inv.waits co c' saved).own hx)
    rw [jump_mem sp_eq, ← dest] at there
    obtain ⟨same, rax, rdi⟩ := jump_arrives preserve sp_eq there
    exact ⟨saved.trans (congrArg some same.symm), handed ▸ rax, handed ▸ rdi, kept⟩

/-- In every run, the context that a jump goes to finds its registers, stack pointer, control words
and place as it left them, with the value of the jump for the result of its own call. -/
theorem jump_resumes {m : State} {main : C} {val : Word}
    (run : Trace (World.init m main) (Step lay finish) tr w)
    (jump : Step lay finish w (.jumped co val c) w') :
    (contexts main tr).saved co = some (context w'.machine w'.machine.rip) ∧
      w'.machine.reg .rax = val ∧ w'.machine.reg .rdi = val := by
  obtain ⟨saved, rax, rdi, -⟩ := (inv_run run).arrives jump
  exact ⟨contexts_run run ▸ saved, rax, rdi⟩

/-- A context that has been made is entered as by a call from `finish`, its stack aligned. -/
theorem jump_enters {m : State} {main : C} {val : Word}
    (run : Trace (World.init m main) (Step lay finish) tr w)
    (jump : Step lay finish w (.jumped co val c) w') (fresh : (contexts main tr).fresh co = true) :
    (w'.machine.reg .rsp + 8).toNat % 16 = 0 ∧ w'.machine.top = finish := by
  have inv := inv_run run
  obtain ⟨saved, -, -, kept⟩ := inv.arrives jump
  have enters := (inv.enters co _ saved (contexts_run run ▸ fresh)).kept kept
  exact ⟨enters.aligned, enters.finish⟩

end Run

section Examples

/-- Two stacks of a page each, and the two pointers to their contexts. -/
def pages : Layout Bool where
  stack co := if co then 0x20000 else 0x10000
  size _ := 4096
  fctx co := if co then 0x1008 else 0x1000
  stackApart := by
    have below : Disjoint (Span (0 + BitVec.ofNat 64 0x10000) 4096)
        (Span (0 + BitVec.ofNat 64 0x20000) 4096) := disjoint_parts (by decide) (by decide)
    rintro (_ | _) (_ | _) ne
    · exact absurd rfl ne
    · exact below
    · exact below.symm
    · exact absurd rfl ne
  fctxApart := by
    have below : Disjoint (Span (0 + BitVec.ofNat 64 0x1000) 8) (Span (0 + BitVec.ofNat 64 0x1008) 8) :=
      disjoint_parts (by decide) (by decide)
    rintro (_ | _) (_ | _) ne
    · exact absurd rfl ne
    · exact below
    · exact below.symm
    · exact absurd rfl ne
  apart := by
    have below {i j : ℕ} (low : i + 8 ≤ j) (high : j + 4096 ≤ 2 ^ 64) :
        Disjoint (Span (0 + BitVec.ofNat 64 i) 8) (Span (0 + BitVec.ofNat 64 j) 4096) :=
      disjoint_parts low high
    rintro (_ | _) (_ | _)
    · exact below (i := 0x1000) (j := 0x10000) (by decide) (by decide)
    · exact below (i := 0x1000) (j := 0x20000) (by decide) (by decide)
    · exact below (i := 0x1008) (j := 0x10000) (by decide) (by decide)
    · exact below (i := 0x1008) (j := 0x20000) (by decide) (by decide)

/-- The registers of `main` before its call of `make_fcontext` for a function at `0x400`. -/
def booted : State where
  reg r := if r = .rsp then 0x10800 else if r = .rdi then 0x21000 else if r = .rdx then 0x400 else 0
  mxcsr := 0x1f80
  x87cw := 0x37f
  zf := false
  mem _ := 0
  rip := 0

/-- `make_fcontext` has returned to `0x100`, and its result is stored. -/
def madeState : State :=
  let s := booted.call (makeFcontext 0x300) 0x100
  s.store 0x1008 8 (s.reg .rax)

def madeEvent : Event Bool :=
  let s := booted.call (makeFcontext 0x300) 0x100
  .made true (madeContext s.mem (s.reg .rax) 0x400 0x1f80 0x37f)

/-- The registers of `main` before its call of `jump_fcontext`. -/
def readyState : State :=
  { madeState with
    reg := fun r => if r = .rsp then 0x10800 else if r = .rdi then 0x1000
      else if r = .rsi then madeState.mem.load 0x1008 8 else if r = .rdx then 7
      else if r = .rcx then 1 else 0 }

def readyWorld : World Bool := ⟨readyState, (World.init booted false).contexts.step madeEvent⟩

theorem span_main {i n : ℕ} (fits : i + n ≤ 4096) :
    Span ((0x10000 : Word) + BitVec.ofNat 64 i) n ⊆ Span (pages.stack false) (pages.size false) :=
  span_add_subset.trans (span_subset_of_le fits)

def madeWorld : World Bool := ⟨madeState, (World.init booted false).contexts.step madeEvent⟩

theorem booted_made : Step pages 0x300 (World.init booted false) madeEvent madeWorld :=
  .made true 0x100 (by decide) (by decide) (by decide) (by decide)
    (span_main (i := 0x7f8) (by decide)) rfl rfl

theorem madeWorld_ran : Step pages 0x300 madeWorld .ran readyWorld :=
  .ran readyState (fun _ _ _ _ => rfl) (fun _ _ _ _ => rfl)

theorem readyWorld_run :
    Trace (World.init booted false) (Step pages 0x300) [madeEvent, .ran] readyWorld :=
  (Trace.init.step booted_made).step madeWorld_ran

/-- The first jump to the coroutine, with `7` for its value. -/
def enterEvent : Event Bool := .jumped true 7 (context readyState 0x200)

def enteredWorld : World Bool :=
  ⟨readyState.call jumpFcontext 0x200, readyWorld.contexts.step enterEvent⟩

theorem readyWorld_jump : Step pages 0x300 readyWorld enterEvent enteredWorld :=
  .jumped true 0x200 (by simp [readyWorld, Contexts.step, madeEvent]) rfl rfl (by decide)
    (span_main (i := 0x7c0) (by decide)) rfl rfl

theorem jump_resumes_ready :
    (contexts false [madeEvent, .ran]).saved true =
        some (context enteredWorld.machine enteredWorld.machine.rip) ∧
      enteredWorld.machine.reg .rax = 7 ∧ enteredWorld.machine.reg .rdi = 7 :=
  jump_resumes readyWorld_run readyWorld_jump

theorem jump_enters_ready :
    (enteredWorld.machine.reg .rsp + 8).toNat % 16 = 0 ∧ enteredWorld.machine.top = 0x300 :=
  jump_enters readyWorld_run readyWorld_jump rfl

end Examples

end Conet.Core.FcontextRun
