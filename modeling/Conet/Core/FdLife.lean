/- Module: Conet/Core/FdLife
   source: core/src/network_hook.cpp, core/src/disk_io_hook.cpp, core/src/fd_ctx.cpp
   digest: Contexts under numbers that the kernel hands out again, with the hook on or off. -/

import Conet.Core.FdMode

set_option autoImplicit false
set_option relaxedAutoImplicit false

namespace Conet.Core.FdLife

open Conet.Lib Conet.Core.FdMode

section Calls

/-- `O_CREAT`, `O_EXCL`, `O_NOCTTY`, `O_TRUNC` and `O_CLOEXEC`, which an open file does not keep. -/
def creationFlags : BitVec 32 := 0x803C0

/-- `open` and `openat` in the kernel. -/
def openFile (k : Kernel) (flags : BitVec 32) (answer : Option ℤ) : ℤ × Kernel :=
  k.create (flags &&& ~~~creationFlags) answer

/-- The hooks `open` and `openat`. -/
def openDisk (s : Sys) (flags : BitVec 32) (answer : Option ℤ) : ℤ × Sys :=
  let (fd, kernel) := openFile s.kernel flags answer
  let s := { s with kernel }
  if fd < 0 then (fd, s)
  else
    let s := s.allocFdCtx fd 2
    let s := s.setCtx fd fun lp => { lp with userFlag := flags }
    (fd, (s.fcntlSetFl fd (s.kernel.getFl fd) true).2)

/-- The calls that create descriptors, and `close`; `openPath` is `open`. For what else decides them,
see `FdMode`. -/
inductive Call
  | socket (domain : ℤ) (type : BitVec 32) (answer : Option ℤ)
  | accept (fd : ℤ) (polled : Bool) (answer : Option ℤ)
  | accept4 (fd : ℤ) (flags : BitVec 32) (polled : Bool) (answer : Option ℤ)
  | openPath (flags : BitVec 32) (answer : Option ℤ)
  | openat (flags : BitVec 32) (answer : Option ℤ)
  | eventfd (flags : BitVec 32) (answer : Option ℤ)
  | dup (old : ℤ) (answer : Option ℤ)
  | dup2 (old newfd : ℤ) (answer : Bool)
  | dup3 (old newfd : ℤ) (answer : Bool)
  | close (fd : ℤ)
  deriving DecidableEq

namespace Call

/-- The call in the kernel, which is all of it when the hook is disabled. -/
def plain (k : Kernel) : Call → ℤ × Kernel
  | socket _ type answer => k.create (oRdwr ||| (type &&& oNonblock)) answer
  | accept fd _ answer => k.accept fd oRdwr answer
  | accept4 fd flags _ answer => k.accept fd (oRdwr ||| (flags &&& oNonblock)) answer
  | openPath flags answer => openFile k flags answer
  | openat flags answer => openFile k flags answer
  | eventfd flags answer => k.create (oRdwr ||| (flags &&& oNonblock)) answer
  | dup old answer => k.dup old answer
  | dup2 old newfd answer => k.dup2 old newfd answer
  | dup3 old newfd answer => k.dup3 old newfd answer
  | close fd => k.close fd

def hook (s : Sys) : Call → ℤ × Sys
  | socket domain type answer => s.socket domain type answer
  | accept fd polled answer => s.accept fd polled answer
  | accept4 fd flags polled answer => s.accept4 fd flags polled answer
  | openPath flags answer => openDisk s flags answer
  | openat flags answer => openDisk s flags answer
  | eventfd flags answer => s.eventfd flags answer
  | dup old answer => s.dup old answer
  | dup2 old newfd answer => s.dup2 old newfd answer
  | dup3 old newfd answer => s.dup3 old newfd answer
  | close fd => s.close fd

def run (s : Sys) (hooked : Bool) (call : Call) : ℤ × Sys :=
  if hooked then call.hook s
  else
    let (ret, kernel) := call.plain s.kernel
    (ret, { s with kernel })

/-- If the call succeeds with the hook enabled, `alloc_fd_ctx2` is called for the new descriptor. -/
def allocs (s : Sys) : Call → Prop
  | dup old _ => s.getFdCtx old ≠ none
  | dup2 old newfd _ | dup3 old newfd _ => s.getFdCtx old ≠ none ∧ old ≠ newfd
  | close _ => False
  | _ => True

instance (s : Sys) (call : Call) : Decidable (call.allocs s) := by
  cases call <;> unfold allocs <;> infer_instance

/-- The call frees no context and makes none, although it may hand out a descriptor. -/
def Leaves (s : Sys) (hooked : Bool) : Call → Prop
  | dup old _ => hooked = true → s.getFdCtx old = none
  | dup2 old newfd _ | dup3 old newfd _ =>
    hooked = true → s.getFdCtx old = none ∧ s.getFdCtx newfd = none
  | close _ => False
  | _ => hooked = false

end Call

end Calls

section Runs

/-- The system, with the open file for which the context of each descriptor was made. -/
structure World where
  sys : Sys
  made : ℤ → Option ℕ

namespace World

/-- Nothing has a context when the process starts. -/
def start (kernel : Kernel) : World := ⟨⟨kernel, fun _ => none⟩, fun _ => none⟩

/-- A call, with the hook enabled or disabled in the coroutine that makes it. -/
def step (w : World) (event : Bool × Call) : World :=
  let (ret, sys) := event.2.run w.sys event.1
  if event.1 ∧ 0 ≤ ret ∧ event.2.allocs w.sys then
    ⟨sys, Function.update w.made ret (sys.kernel.file ret)⟩
  else ⟨sys, w.made⟩

def run (w : World) (events : List (Bool × Call)) : World := events.foldl step w

/-- The context of an open descriptor, of whatever type, is one of its open file. -/
def Current (w : World) : Prop :=
  ∀ fd o, w.sys.kernel.file fd = some o → w.sys.getFdCtx fd 0 ≠ none → w.made fd = some o

/-- Under the number `fd` is a context, and it was made for another open file than `o`. -/
def Stale (w : World) (fd : ℤ) (o : ℕ) : Prop := w.sys.fds fd ≠ none ∧ w.made fd ≠ some o

/-- A number that is handed out without a context of its own has no stale one. -/
def Clean (w : World) (event : Bool × Call) : Prop :=
  event.2.Leaves w.sys event.1 →
    ∀ fd k o, event.2.plain w.sys.kernel = (fd, k) → k.file fd = some o → ¬ w.Stale fd o

end World

end Runs

section Frame

variable {w w' : World} {fd : ℤ}

theorem getFdCtx_any (s : Sys) {fd : ℤ} {o : ℕ} (opened : s.kernel.file fd = some o) :
    s.getFdCtx fd 0 = s.fds fd := by
  have nonneg := Int.not_lt.mpr (s.kernel.file_nonneg opened)
  unfold Sys.getFdCtx
  rw [if_neg nonneg]
  cases s.fds fd with
  | none => rfl
  | some ctx => rfl

/-- Nothing but `fd` changes. -/
structure Touches (w w' : World) (fd : ℤ) : Prop where
  file : ∀ e, e ≠ fd → w'.sys.kernel.file e = w.sys.kernel.file e
  fds : ∀ e, e ≠ fd → w'.sys.fds e = w.sys.fds e
  made : ∀ e, e ≠ fd → w'.made e = w.made e

theorem Touches.refl (w : World) (fd : ℤ) : Touches w w fd :=
  ⟨fun _ _ => rfl, fun _ _ => rfl, fun _ _ => rfl⟩

theorem Touches.current_iff (touches : Touches w w' fd) (current : w.Current) :
    w'.Current ↔ ∀ o, w'.sys.kernel.file fd = some o → ¬ w'.Stale fd o := by
  constructor
  · intro after o opened stale
    obtain ⟨has, other⟩ := stale
    rw [← getFdCtx_any w'.sys opened] at has
    exact other (after fd o opened has)
  · intro own e o opened has
    by_cases here : e = fd
    · subst here
      rw [getFdCtx_any w'.sys opened] at has
      by_contra other
      exact own o opened ⟨has, other⟩
    · rw [getFdCtx_any w'.sys opened, touches.fds e here] at has
      rw [touches.file e here] at opened
      rw [touches.made e here]
      rw [← getFdCtx_any w.sys opened] at has
      exact current e o opened has

theorem Touches.current_of_made (touches : Touches w w' fd) (current : w.Current)
    (made : w'.made fd = w'.sys.kernel.file fd) : w'.Current := by
  rw [touches.current_iff current]
  intro o opened stale
  obtain ⟨-, other⟩ := stale
  rw [made] at other
  exact other opened

theorem Touches.current_of_bare (touches : Touches w w' fd) (current : w.Current)
    (bare : w'.sys.fds fd = none) : w'.Current := by
  rw [touches.current_iff current]
  intro o opened stale
  exact stale.1 bare

theorem Touches.current_of_closed (touches : Touches w w' fd) (current : w.Current)
    (closed : w'.sys.kernel.file fd = none) : w'.Current := by
  rw [touches.current_iff current]
  intro o opened stale
  rw [closed] at opened
  cases opened

end Frame

/-! What the kernel does to the numbers. -/

section Numbers

variable {k k' : Kernel} {fd : ℤ}

/-- The kernel hands out `fd`, or fails. -/
def Hands (k : Kernel) (r : ℤ × Kernel) : Prop :=
  (0 ≤ r.1 ∧ ∃ o, r.2.file = Function.update k.file r.1 (some o)) ∨ r = (-1, k)

theorem hands_create (k : Kernel) (flags : BitVec 32) (answer : Option ℤ) :
    Hands k (k.create flags answer) := by
  obtain ⟨fd, k', new, -, same, files⟩ | failed := k.create_made flags answer
  · rw [same]
    exact .inl ⟨new.1, k.fresh, by rw [files]; rfl⟩
  · exact .inr failed

theorem hands_accept (k : Kernel) (fd : ℤ) (flags : BitVec 32) (answer : Option ℤ) :
    Hands k (k.accept fd flags answer) := by
  unfold Kernel.accept
  cases k.file fd with
  | none => exact .inr rfl
  | some o => exact hands_create k flags answer

theorem hands_dup (k : Kernel) (old : ℤ) (answer : Option ℤ) : Hands k (k.dup old answer) := by
  unfold Kernel.dup
  cases refers : k.file old with
  | none => exact .inr rfl
  | some o =>
    cases answer with
    | none => exact .inr rfl
    | some fd =>
      by_cases new : k.free fd
      · simp only [new, dite_true]
        refine .inl ⟨new.1, o, ?_⟩
        rw [← refers]
        rfl
      · simp only [new, dite_false]
        exact .inr rfl

theorem hands_dup2 (k : Kernel) (old newfd : ℤ) (answer : Bool) :
    Hands k (k.dup2 old newfd answer) := by
  obtain failed | ⟨k', o, nonneg, same, refers, files⟩ := k.dup2_cases old newfd answer
  · exact .inr failed
  · rw [same]
    refine .inl ⟨nonneg, o, ?_⟩
    rw [files, ← refers]
    rfl

theorem hands_dup3 (k : Kernel) (old newfd : ℤ) (answer : Bool) :
    Hands k (k.dup3 old newfd answer) := by
  unfold Kernel.dup3
  split_ifs
  · exact .inr rfl
  · exact hands_dup2 k old newfd answer

theorem hands_plain (k : Kernel) {call : Call} (creates : ∀ fd, call ≠ .close fd) :
    Hands k (call.plain k) := by
  cases call with
  | socket domain type answer => exact hands_create k _ answer
  | accept fd polled answer => exact hands_accept k fd _ answer
  | accept4 fd flags polled answer => exact hands_accept k fd _ answer
  | openPath flags answer => exact hands_create k _ answer
  | openat flags answer => exact hands_create k _ answer
  | eventfd flags answer => exact hands_create k _ answer
  | dup old answer => exact hands_dup k old answer
  | dup2 old newfd answer => exact hands_dup2 k old newfd answer
  | dup3 old newfd answer => exact hands_dup3 k old newfd answer
  | close fd => exact absurd rfl (creates fd)

theorem close_file (k : Kernel) (fd : ℤ) : (k.close fd).2.file fd = none ∧
    ∀ e, e ≠ fd → (k.close fd).2.file e = k.file e := by
  unfold Kernel.close
  split
  next o opened =>
    constructor
    · exact Function.update_self fd none k.file
    · intro e other
      exact Function.update_of_ne other none k.file
  next closed => exact ⟨closed, fun _ _ => rfl⟩

@[simp] theorem setFl_file (k : Kernel) (fd : ℤ) (param : BitVec 32) (answer : Bool) :
    (k.setFl fd param answer).2.file = k.file := by
  unfold Kernel.setFl
  split <;> rfl

end Numbers

/-! What each call does to the contexts. -/

section Steps

variable {w : World} {s : Sys} {call : Call} {fd old : ℤ}

theorem clean_of_fails (w : World) {hooked : Bool} {k : Kernel}
    (fails : call.plain w.sys.kernel = (-1, k)) : w.Clean (hooked, call) := by
  intro _ fd k' o plain opened
  rw [fails] at plain
  obtain ⟨rfl, rfl⟩ := Prod.mk.inj plain
  exact absurd (k.file_nonneg opened) (by decide)

theorem current_left_iff (current : w.Current) {hooked : Bool} (creates : ∀ fd, call ≠ .close fd)
    (leaves : call.Leaves w.sys hooked) :
    World.Current ⟨{ w.sys with kernel := (call.plain w.sys.kernel).2 }, w.made⟩ ↔
      w.Clean (hooked, call) := by
  obtain ⟨-, o, files⟩ | fails := hands_plain w.sys.kernel creates
  · have touches : Touches w ⟨{ w.sys with kernel := (call.plain w.sys.kernel).2 }, w.made⟩
        (call.plain w.sys.kernel).1 := by
      refine ⟨fun e other => ?_, fun _ _ => rfl, fun _ _ => rfl⟩
      exact (congrFun files e).trans (Function.update_of_ne other ..)
    rw [touches.current_iff current]
    constructor
    · intro own _ fd k o plain opened
      rw [plain] at own
      exact own o opened
    · intro clean o opened
      exact clean leaves _ _ o rfl opened
  · rw [fails]
    exact iff_of_true current (clean_of_fails w fails)

theorem plain_leaves (s : Sys) (creates : ∀ fd, call ≠ .close fd) : call.Leaves s false := by
  cases call with
  | close fd => exact absurd rfl (creates fd)
  | dup old answer => exact fun no => absurd no (by decide)
  | dup2 old newfd answer => exact fun no => absurd no (by decide)
  | dup3 old newfd answer => exact fun no => absurd no (by decide)
  | socket | accept | accept4 | openPath | openat | eventfd => rfl

/-- With the hook disabled, the contexts stay as they are. -/
theorem step_plain (current : w.Current) (call : Call) :
    (w.step (false, call)).Current ↔ w.Clean (false, call) := by
  have result : w.step (false, call) =
      ⟨{ w.sys with kernel := (call.plain w.sys.kernel).2 }, w.made⟩ := rfl
  rw [result]
  by_cases closes : ∃ fd, call = .close fd
  · obtain ⟨fd, rfl⟩ := closes
    obtain ⟨closed, others⟩ := close_file w.sys.kernel fd
    have touches : Touches w ⟨{ w.sys with kernel := (w.sys.kernel.close fd).2 }, w.made⟩ fd :=
      ⟨others, fun _ _ => rfl, fun _ _ => rfl⟩
    exact iff_of_true (touches.current_of_closed current closed) fun leaves => leaves.elim
  · have creates : ∀ fd, call ≠ .close fd := fun fd same => closes ⟨fd, same⟩
    exact current_left_iff current creates (plain_leaves w.sys creates)

/-- A hook fails, or answers with a descriptor, and writes to no other. -/
def Writes (s : Sys) (r : ℤ × Sys) : Prop :=
  r = (-1, s) ∨ 0 ≤ r.1 ∧ ∀ e, e ≠ r.1 → r.2.kernel.file e = s.kernel.file e ∧ r.2.fds e = s.fds e

theorem Writes.of_creates {answer : Option ℤ} {userFlag : BitVec 32} {r : ℤ × Sys}
    (creates : s.Creates answer userFlag r) : Writes s r := by
  obtain ⟨fd, flags, -, new, -, ret, opened⟩ | failed := creates
  · obtain ⟨lp, -, -, fds⟩ := opened.ctx
    rw [← ret] at new opened fds
    refine .inr ⟨new.1, fun e other => ⟨?_, ?_⟩⟩
    · simp [opened.files, Function.update_of_ne other]
    · simp [fds, Function.update_of_ne other]
  · exact .inl failed

theorem allocFdCtx_file (s : Sys) (fd type : ℤ) :
    (s.allocFdCtx fd type).kernel.file = s.kernel.file := by
  simp [Sys.allocFdCtx, Sys.allocFdCtx2]

theorem allocFdCtx_fds (s : Sys) (type : ℤ) {fd e : ℤ} (other : e ≠ fd) :
    (s.allocFdCtx fd type).fds e = s.fds e := by
  simp [Sys.allocFdCtx, Sys.allocFdCtx2, Function.update_of_ne other]

theorem setCtx_fds (s : Sys) (write : FdCtx → FdCtx) {fd e : ℤ} (other : e ≠ fd) :
    (s.setCtx fd write).fds e = s.fds e :=
  Function.update_of_ne other ..

theorem fcntlSetFl_file (s : Sys) (fd : ℤ) (param : BitVec 32) (answer : Bool) :
    (s.fcntlSetFl fd param answer).2.kernel.file = s.kernel.file := by
  unfold Sys.fcntlSetFl
  split_ifs
  · rfl
  · cases s.getFdCtx fd with
    | none => exact setFl_file ..
    | some lp =>
      dsimp only
      split_ifs
      · exact setFl_file ..
      · exact setFl_file ..

theorem fcntlSetFl_fds (s : Sys) (param : BitVec 32) (answer : Bool) {fd e : ℤ} (other : e ≠ fd) :
    (s.fcntlSetFl fd param answer).2.fds e = s.fds e := by
  unfold Sys.fcntlSetFl
  split_ifs
  · rfl
  · cases s.getFdCtx fd with
    | none => rfl
    | some lp =>
      dsimp only
      split_ifs
      · exact setCtx_fds _ _ other
      · rfl

theorem openDisk_writes (s : Sys) (flags : BitVec 32) (answer : Option ℤ) :
    Writes s (openDisk s flags answer) := by
  unfold openDisk openFile
  obtain ⟨fd, k, new, rfl, made, files⟩ | failed :=
    s.kernel.create_made (flags &&& ~~~creationFlags) answer
  · simp only [made, Int.not_lt.mpr new.1, if_false]
    refine .inr ⟨new.1, fun e other => ⟨?_, ?_⟩⟩
    · have same : k.file e = s.kernel.file e := by
        rw [files]
        exact Function.update_of_ne other ..
      rw [fcntlSetFl_file, ← same]
      exact congrFun (allocFdCtx_file _ fd 2) e
    · rw [fcntlSetFl_fds _ _ _ other, setCtx_fds _ _ other, allocFdCtx_fds _ _ other]
  · exact .inl (by simp [failed])

/-! `dup`, `dup2` and `dup3`. -/

theorem copyCtx_bare (without : s.getFdCtx old = none) : s.copyCtx old fd = s := by
  simp [Sys.copyCtx, without]

theorem copyCtx_file (s : Sys) (old fd : ℤ) :
    (s.copyCtx old fd).kernel.file = s.kernel.file := by
  unfold Sys.copyCtx
  cases s.getFdCtx old with
  | none => rfl
  | some lp => exact allocFdCtx_file s fd 1

theorem copyCtx_fds (s : Sys) (old : ℤ) {fd e : ℤ} (other : e ≠ fd) :
    (s.copyCtx old fd).fds e = s.fds e := by
  unfold Sys.copyCtx
  cases s.getFdCtx old with
  | none => rfl
  | some lp => exact (setCtx_fds _ _ other).trans (allocFdCtx_fds s 1 other)

theorem dup_writes (s : Sys) (old : ℤ) (answer : Option ℤ) : Writes s (s.dup old answer) := by
  unfold Sys.dup
  obtain ⟨nonneg, o, files⟩ | failed := hands_dup s.kernel old answer
  · simp only [Int.not_lt.mpr nonneg, if_false]
    refine .inr ⟨nonneg, fun e other => ⟨?_, copyCtx_fds _ _ other⟩⟩
    rw [copyCtx_file]
    exact (congrFun files e).trans (Function.update_of_ne other ..)
  · exact .inl (by simp [failed])

/-- The context of the socket type under `fd` is freed, if there is one. -/
theorem freed_fds (s : Sys) {fd e : ℤ} (other : e ≠ fd) :
    (match s.getFdCtx fd with
      | some _ => s.freeFdCtx fd
      | none => s).fds e = s.fds e := by
  cases s.getFdCtx fd with
  | none => rfl
  | some lp =>
    unfold Sys.freeFdCtx
    split_ifs
    · rfl
    · exact Function.update_of_ne other ..

theorem replaceCtx_writes (s : Sys) (old : ℤ) {newfd : ℤ} {answer : ℤ × Kernel}
    (hands : Hands s.kernel answer) (same : 0 ≤ answer.1 → answer.1 = newfd) :
    Writes s (s.replaceCtx old newfd answer) := by
  unfold Sys.replaceCtx
  obtain ⟨nonneg, o, files⟩ | rfl := hands
  · obtain rfl := same nonneg
    simp only [Int.not_lt.mpr nonneg, if_false]
    refine .inr ⟨nonneg, fun e other => ⟨?_, ?_⟩⟩
    · rw [copyCtx_file, Sys.freed_kernel]
      exact (congrFun files e).trans (Function.update_of_ne other ..)
    · exact (copyCtx_fds _ _ other).trans (freed_fds _ other)
  · exact .inl (by simp)

theorem dup2_fst (k : Kernel) (old newfd : ℤ) (answer : Bool)
    (success : 0 ≤ (k.dup2 old newfd answer).1) : (k.dup2 old newfd answer).1 = newfd := by
  obtain failed | ⟨k', o, -, same, -⟩ := k.dup2_cases old newfd answer
  · rw [failed] at success
    exact absurd (show (0 : ℤ) ≤ -1 from success) (by decide)
  · rw [same]

theorem dup3_fst (k : Kernel) (old newfd : ℤ) (answer : Bool)
    (success : 0 ≤ (k.dup3 old newfd answer).1) : (k.dup3 old newfd answer).1 = newfd := by
  unfold Kernel.dup3 at success ⊢
  split_ifs at success ⊢
  · exact absurd (show (0 : ℤ) ≤ -1 from success) (by decide)
  · exact dup2_fst k old newfd answer success

theorem hook_writes (s : Sys) {call : Call} (creates : ∀ fd, call ≠ .close fd) :
    Writes s (call.hook s) := by
  cases call with
  | socket domain type answer => exact .of_creates (s.socket_creates domain type answer)
  | accept fd polled answer => exact .of_creates (s.accept_creates fd polled answer)
  | accept4 fd flags polled answer =>
    obtain ⟨userFlag, -, made⟩ := s.accept4_creates fd flags polled answer
    exact .of_creates made
  | openPath flags answer => exact openDisk_writes s flags answer
  | openat flags answer => exact openDisk_writes s flags answer
  | eventfd flags answer =>
    obtain ⟨userFlag, -, made⟩ := s.eventfd_creates flags answer
    exact .of_creates made
  | dup old answer => exact dup_writes s old answer
  | dup2 old newfd answer =>
    exact replaceCtx_writes s old (hands_dup2 s.kernel old newfd answer) (dup2_fst s.kernel _ _ _)
  | dup3 old newfd answer =>
    exact replaceCtx_writes s old (hands_dup3 s.kernel old newfd answer) (dup3_fst s.kernel _ _ _)
  | close fd => exact absurd rfl (creates fd)

/-- A hook that makes a context for the descriptor that it creates, if it creates one. -/
theorem step_allocs (current : w.Current) (creates : ∀ fd, call ≠ .close fd)
    (allocs : call.allocs w.sys) : (w.step (true, call)).Current := by
  have result : w.step (true, call) =
      if 0 ≤ (call.hook w.sys).1 then
        ⟨(call.hook w.sys).2, Function.update w.made (call.hook w.sys).1
          ((call.hook w.sys).2.kernel.file (call.hook w.sys).1)⟩
      else ⟨(call.hook w.sys).2, w.made⟩ := by
    simp [World.step, Call.run, allocs]
  rw [result]
  obtain failed | ⟨nonneg, others⟩ := hook_writes w.sys creates
  · have negative : ¬ (0 : ℤ) ≤ -1 := by decide
    rw [failed]
    simpa only [negative, if_false] using current
  · rw [if_pos nonneg]
    have touches : Touches w
        ⟨(call.hook w.sys).2, Function.update w.made (call.hook w.sys).1
          ((call.hook w.sys).2.kernel.file (call.hook w.sys).1)⟩ (call.hook w.sys).1 := by
      refine ⟨?_, ?_, ?_⟩
      · exact fun e other => (others e other).1
      · exact fun e other => (others e other).2
      · exact fun e other => Function.update_of_ne other ..
    apply touches.current_of_made current
    apply Function.update_self

theorem step_idle (idle : ¬ call.allocs w.sys) :
    w.step (true, call) = ⟨(call.hook w.sys).2, w.made⟩ := by
  simp [World.step, Call.run, idle]

/-- A hook that does what the kernel does, and no more. -/
theorem step_bare (current : w.Current) (creates : ∀ fd, call ≠ .close fd)
    (idle : ¬ call.allocs w.sys) (leaves : call.Leaves w.sys true)
    (bare : (call.hook w.sys).2 = { w.sys with kernel := (call.plain w.sys.kernel).2 }) :
    (w.step (true, call)).Current ↔ w.Clean (true, call) := by
  rw [step_idle idle, bare]
  exact current_left_iff current creates leaves

theorem step_dup (current : w.Current) (old : ℤ) (answer : Option ℤ) :
    (w.step (true, .dup old answer)).Current ↔ w.Clean (true, .dup old answer) := by
  by_cases without : w.sys.getFdCtx old = none
  · have idle : ¬ (Call.dup old answer).allocs w.sys := fun has => has without
    refine step_bare current (by simp) idle (fun _ => without) ?_
    simp only [Call.hook, Sys.dup, Call.plain]
    split_ifs
    · rfl
    · exact copyCtx_bare without
  · have leaves : ¬ (Call.dup old answer).Leaves w.sys true := fun leaves => without (leaves rfl)
    refine iff_of_true (step_allocs current (by simp) without) fun leaves' => absurd leaves' leaves

theorem replaceCtx_bare {newfd : ℤ} {answer : ℤ × Kernel} (without : s.getFdCtx old = none)
    (bare : s.getFdCtx newfd = none) :
    (s.replaceCtx old newfd answer).2 = { s with kernel := answer.2 } := by
  have bare' : ({ s with kernel := answer.2 } : Sys).getFdCtx newfd = none := bare
  simp only [Sys.replaceCtx, bare']
  split_ifs
  · rfl
  · exact copyCtx_bare without

theorem replaceCtx_fst (s : Sys) (old newfd : ℤ) (answer : ℤ × Kernel) :
    (s.replaceCtx old newfd answer).1 = answer.1 := by
  unfold Sys.replaceCtx
  dsimp only
  split_ifs
  · rfl
  · rfl

/-- The context of `newfd` has been freed, and it gets no new one. -/
theorem replaceCtx_freed {newfd : ℤ} {answer : ℤ × Kernel} (freed : s.getFdCtx newfd ≠ none)
    (idle : ¬ (s.getFdCtx old ≠ none ∧ old ≠ newfd)) (success : 0 ≤ answer.1) (same : answer.1 = newfd) : (s.replaceCtx old newfd answer).2.fds newfd = none := by
  have nonneg : ¬ newfd < 0 := by omega
  obtain ⟨lp, has⟩ := Option.ne_none_iff_exists'.mp freed
  have has' : ({ s with kernel := answer.2 } : Sys).getFdCtx newfd = some lp := has
  simp only [Sys.replaceCtx, has', same]
  have without : (({ s with kernel := answer.2 } : Sys).freeFdCtx newfd).getFdCtx old = none := by
    by_cases here : old = newfd
    · simp [Sys.freeFdCtx, nonneg, here, Sys.getFdCtx]
    · have none : s.getFdCtx old = none := by
        by_contra has
        exact idle ⟨has, here⟩
      rw [← none]
      simp [Sys.freeFdCtx, nonneg, Sys.getFdCtx, Function.update_of_ne here]
  rw [copyCtx_bare without]
  simp [Sys.freeFdCtx, nonneg]

theorem step_replace (current : w.Current) {old newfd : ℤ} {answer : ℤ × Kernel}
    (creates : ∀ fd, call ≠ .close fd)
    (hook : call.hook w.sys = w.sys.replaceCtx old newfd answer)
    (plain : call.plain w.sys.kernel = answer)
    (allocs : call.allocs w.sys ↔ w.sys.getFdCtx old ≠ none ∧ old ≠ newfd)
    (leaves : call.Leaves w.sys true ↔ w.sys.getFdCtx old = none ∧ w.sys.getFdCtx newfd = none)
    (same : 0 ≤ answer.1 → answer.1 = newfd) :
    (w.step (true, call)).Current ↔ w.Clean (true, call) := by
  by_cases own : call.allocs w.sys
  · refine iff_of_true (step_allocs current creates own) fun leaves' => ?_
    exact absurd (leaves.mp leaves').1 (allocs.mp own).1
  by_cases freed : w.sys.getFdCtx newfd = none
  · have without : w.sys.getFdCtx old = none := by
      by_contra has
      have here : old ≠ newfd := by
        intro here
        rw [here] at has
        exact has freed
      exact own (allocs.mpr ⟨has, here⟩)
    refine step_bare current creates own (leaves.mpr ⟨without, freed⟩) ?_
    rw [hook, plain]
    exact replaceCtx_bare without freed
  · refine iff_of_true ?_ fun leaves' => absurd (leaves.mp leaves').2 freed
    rw [step_idle own]
    obtain failed | ⟨nonneg, others⟩ := hook_writes w.sys creates
    · rw [failed]
      exact current
    · rw [hook, replaceCtx_fst] at nonneg
      have touches : Touches w ⟨(call.hook w.sys).2, w.made⟩ (call.hook w.sys).1 :=
        ⟨fun e other => (others e other).1, fun e other => (others e other).2, fun _ _ => rfl⟩
      refine touches.current_of_bare current ?_
      have bare := replaceCtx_freed freed (fun has => own (allocs.mpr has)) nonneg (same nonneg)
      rw [← hook, ← same nonneg, ← replaceCtx_fst w.sys old newfd answer, ← hook] at bare
      exact bare

theorem step_close (current : w.Current) (fd : ℤ) : (w.step (true, .close fd)).Current := by
  have idle : ¬ (Call.close fd).allocs w.sys := id
  rw [step_idle idle, Call.hook]
  by_cases negative : fd < 0
  · rw [Sys.close, if_pos negative]
    exact current
  · obtain ⟨closed, others⟩ := close_file w.sys.kernel fd
    have kernel : (w.sys.close fd).2.kernel = (w.sys.kernel.close fd).2 := by
      simp only [Sys.close, negative, if_false, Sys.freed_kernel]
    have touches : Touches w ⟨(w.sys.close fd).2, w.made⟩ fd := by
      refine ⟨fun e other => ?_, fun e other => ?_, fun _ _ => rfl⟩
      · rw [kernel]
        exact others e other
      · simp only [Sys.close, negative, if_false]
        exact freed_fds w.sys other
    refine touches.current_of_closed current ?_
    rw [kernel]
    exact closed

/-- After a call the contexts are right if and only if the number that it hands out is clean. -/
theorem step_current_iff (current : w.Current) (event : Bool × Call) :
    (w.step event).Current ↔ w.Clean event := by
  obtain ⟨hooked, call⟩ := event
  cases hooked with
  | false => exact step_plain current call
  | true =>
    cases call with
    | dup old answer => exact step_dup current old answer
    | dup2 old newfd answer =>
      exact step_replace current (by simp) rfl rfl .rfl (by simp [Call.Leaves])
        (dup2_fst w.sys.kernel _ _ _)
    | dup3 old newfd answer =>
      exact step_replace current (by simp) rfl rfl .rfl (by simp [Call.Leaves])
        (dup3_fst w.sys.kernel _ _ _)
    | close fd => exact iff_of_true (step_close current fd) fun leaves => leaves.elim
    | socket | accept | accept4 | openPath | openat | eventfd =>
      exact iff_of_true (step_allocs current (by simp) trivial) fun leaves =>
        absurd (show true = false from leaves) (by decide)

end Steps

/-! Where a stale context comes from: `close` leaves it, because the hook is disabled or because the
context is not of the socket type. -/

section Sockets

variable {w : World} {call : Call}

theorem close_leaves_iff {fd : ℤ} {ctx : FdCtx} (has : w.sys.fds fd = some ctx) (nonneg : 0 ≤ fd)
    (hooked : Bool) :
    (w.step (hooked, .close fd)).sys.fds fd ≠ none ↔ hooked = false ∨ ctx.type ≠ 1 := by
  cases hooked with
  | false => simp [World.step, Call.run, has]
  | true =>
    have idle : ¬ (Call.close fd).allocs w.sys := id
    have valid := Int.not_lt.mpr nonneg
    rw [step_idle idle, Call.hook]
    by_cases socket : ctx.type = 1
    · have found : w.sys.getFdCtx fd = some ctx := by simp [Sys.getFdCtx, valid, has, socket]
      simp [Sys.close, valid, found, Sys.freeFdCtx, socket]
    · have missed : w.sys.getFdCtx fd = none := by simp [Sys.getFdCtx, valid, has, socket]
      simp [Sys.close, valid, missed, has, socket]

def Call.net : Call → Option FdMode.Call
  | socket domain type answer => some (.socket domain type answer)
  | accept fd polled answer => some (.accept fd polled answer)
  | accept4 fd flags polled answer => some (.accept4 fd flags polled answer)
  | openPath _ _ | openat _ _ => none
  | eventfd flags answer => some (.eventfd flags answer)
  | dup old answer => some (.dup old answer)
  | dup2 old newfd answer => some (.dup2 old newfd answer)
  | dup3 old newfd answer => some (.dup3 old newfd answer)
  | close fd => some (.close fd)

theorem step_hook_sys (w : World) (call : Call) :
    (w.step (true, call)).sys = (call.hook w.sys).2 := by
  by_cases allocs : 0 ≤ (call.hook w.sys).1 ∧ call.allocs w.sys
  · simp [World.step, Call.run, allocs]
  · simp [World.step, Call.run, allocs]

theorem net_sound {mode : FdMode.Call} (net : call.net = some mode) (sound : w.sys.Sound) :
    (w.step (true, call)).sys.Sound := by
  have same : call.hook w.sys = mode.run w.sys := by
    cases call with
    | openPath | openat => cases net
    | socket | accept | accept4 | eventfd | dup | dup2 | dup3 | close =>
      obtain rfl := Option.some.inj net
      rfl
  obtain ⟨good, effect, -⟩ := FdMode.Effect.of_step (w := ⟨w.sys, fun _ => false⟩) sound mode
  rw [step_hook_sys, same]
  exact effect.sound sound

theorem dup_free {k k' : Kernel} {old fd : ℤ} {answer : Option ℤ} {o : ℕ}
    (runs : k.dup old answer = (fd, k')) (opened : k'.file fd = some o) : k.free fd := by
  have nonneg := k'.file_nonneg opened
  have failed : ¬ 0 ≤ (-1 : ℤ) := by decide
  unfold Kernel.dup at runs
  split at runs
  · split_ifs at runs with new
    · obtain ⟨rfl, -⟩ := Prod.mk.inj runs
      exact new
    · obtain ⟨rfl, -⟩ := Prod.mk.inj runs
      exact absurd nonneg failed
  · obtain ⟨rfl, -⟩ := Prod.mk.inj runs
    exact absurd nonneg failed

theorem replaced_clean {k : Kernel} {fd newfd : ℤ} {o : ℕ} {r : ℤ × Kernel} (sound : w.sys.Sound)
    (runs : r = (fd, k)) (opened : k.file fd = some o) (same : 0 ≤ r.1 → r.1 = newfd)
    (bare : w.sys.getFdCtx newfd = none) : ¬ w.Stale fd o := by
  subst runs
  obtain rfl : fd = newfd := same (k.file_nonneg opened)
  rw [sound.getFdCtx] at bare
  exact fun stale => stale.1 bare

theorem net_clean {mode : FdMode.Call} (net : call.net = some mode) (sound : w.sys.Sound) :
    w.Clean (true, call) := by
  intro leaves fd k o plain opened
  cases call with
  | dup old answer => exact fun stale => stale.1 (sound.unused (dup_free plain opened))
  | dup2 old newfd answer =>
    exact replaced_clean sound plain opened (dup2_fst w.sys.kernel _ _ _) (leaves rfl).2
  | dup3 old newfd answer =>
    exact replaced_clean sound plain opened (dup3_fst w.sys.kernel _ _ _) (leaves rfl).2
  | close fd => exact leaves.elim
  | openPath | openat => cases net
  | socket | accept | accept4 | eventfd => exact absurd (show true = false from leaves) (by decide)

end Sockets

section Main

theorem World.start_current (kernel : Kernel) : (start kernel).Current := by
  intro fd o _ has
  exact absurd (by simp [start, Sys.getFdCtx]) has

/-- In every state of a run each open descriptor has a context of its open file, or none, exactly when
no call hands out a number that keeps a stale one. -/
theorem contexts_current_iff (kernel : Kernel) (events : List (Bool × Call)) :
    (∀ past, past <+: events → ((World.start kernel).run past).Current) ↔
      ∀ past event, past ++ [event] <+: events → ((World.start kernel).run past).Clean event := by
  have keeps : ∀ (w : World) (event : Bool × Call), True → True := fun _ _ => id
  have step_iff : ∀ (w : World) (event : Bool × Call), True → w.Current →
      ((w.step event).Current ↔ w.Clean event) := fun _ event _ current =>
    step_current_iff current event
  exact foldl_good_iff keeps step_iff trivial (World.start_current kernel) events

/-- If no file is opened and the hook stays enabled, nothing goes wrong. -/
theorem sockets_current (kernel : Kernel) (events : List (Bool × Call))
    (sockets : ∀ event ∈ events, event.1 = true ∧ event.2.net ≠ none) :
    ((World.start kernel).run events).Current := by
  have both : ((World.start kernel).run events).sys.Sound ∧
      ((World.start kernel).run events).Current := by
    induction events using List.reverseRecOn with
    | nil =>
      have sound : (World.start kernel).sys.Sound := fun fd lp has => nomatch has
      exact ⟨sound, World.start_current kernel⟩
    | append_singleton past last ih =>
      obtain ⟨sound, current⟩ := ih fun event mem => sockets event (List.mem_append_left _ mem)
      obtain ⟨hooked, call⟩ := last
      obtain ⟨on, net⟩ := sockets (hooked, call) (by simp)
      obtain rfl : hooked = true := on
      obtain ⟨mode, net⟩ := Option.ne_none_iff_exists'.mp net
      rw [World.run, List.foldl_append]
      exact ⟨net_sound net sound, (step_current_iff current _).mpr (net_clean net sound)⟩
  exact both.2

/-- The kernel answers with the lowest free number. -/
def Call.Lowest (k : Kernel) : Call → Prop
  | socket _ _ answer | accept _ _ answer | accept4 _ _ _ answer | openPath _ answer
  | openat _ answer | eventfd _ answer | dup _ answer =>
    ∀ fd, answer = some fd → k.free fd ∧ ∀ e, k.free e → fd ≤ e
  | dup2 _ _ _ | dup3 _ _ _ | close _ => True

def World.Lowest (w : World) : List (Bool × Call) → Prop
  | [] => True
  | event :: events => event.2.Lowest w.sys.kernel ∧ (w.step event).Lowest events

theorem lowest_zero {k : Kernel} (new : k.free 0) (fd : ℤ) (answer : some 0 = some fd) :
    k.free fd ∧ ∀ e, k.free e → fd ≤ e := by
  obtain rfl := Option.some.inj answer
  exact ⟨new, fun e free => free.1⟩

/-- A file is opened and closed, and its number, which is the lowest, goes to a socket that a coroutine
without the hook creates. The socket has the context of the file. -/
theorem disk_context_stale :
    ¬ ∀ (kernel : Kernel) (events : List (Bool × Call)), (World.start kernel).Lowest events →
      ((World.start kernel).run events).Current := by
  intro claim
  let events : List (Bool × Call) :=
    [(true, .openPath 2 (some 0)), (true, .close 0), (false, .socket 2 1 (some 0))]
  have lowest : (World.start bareKernel).Lowest events :=
    ⟨lowest_zero (by decide), trivial, lowest_zero (by decide), trivial⟩
  have after := claim bareKernel events lowest 0 1 (by decide) (by decide)
  exact absurd after (by decide)

end Main

end Conet.Core.FdLife
