/- Module: Conet/Core/FdMode
   source: core/src/network_hook.cpp, core/src/fd_ctx.cpp, core/fd_ctx.h
   digest: The blocking mode of a descriptor, in the kernel and in its context. -/

import Conet.Lib.Files
import Conet.Lib.Trace
import Mathlib.Data.Int.Notation

set_option autoImplicit false
set_option relaxedAutoImplicit false

namespace Conet.Core.FdMode

open Conet.Lib

section Flags

/-- `O_NONBLOCK`, which `SOCK_NONBLOCK` and `EFD_NONBLOCK` are too. -/
def oNonblock : BitVec 32 := 0x800

def oRdwr : BitVec 32 := 2

/-- The flags that `F_SETFL` can change: append, async, direct, noatime and nonblock. -/
def setflMask : BitVec 32 := 0x46C00

def nonblock (flags : BitVec 32) : Bool := flags &&& oNonblock != 0

theorem nonblock_eq (flags : BitVec 32) : nonblock flags = flags.getLsbD 11 := by
  have one : oNonblock = BitVec.twoPow 32 11 := by decide
  rw [nonblock, one, BitVec.and_twoPow]
  cases flags.getLsbD 11 <;> decide

@[simp] theorem nonblock_or (x y : BitVec 32) :
    nonblock (x ||| y) = (nonblock x || nonblock y) := by
  simp [nonblock_eq]

@[simp] theorem nonblock_and (x y : BitVec 32) :
    nonblock (x &&& y) = (nonblock x && nonblock y) := by
  simp [nonblock_eq]

@[simp] theorem nonblock_not (x : BitVec 32) : nonblock (~~~x) = !nonblock x := by
  simp [nonblock_eq]

@[simp] theorem nonblock_oNonblock : nonblock oNonblock = true := by decide

@[simp] theorem nonblock_oRdwr : nonblock oRdwr = false := by decide

@[simp] theorem nonblock_setflMask : nonblock setflMask = true := by decide

@[simp] theorem nonblock_zero : nonblock 0#32 = false := by decide

end Flags

/-! The system calls. What else decides them, `answer` says: the new descriptor, if the call succeeds,
or whether it does. -/

section SystemCalls

/-- The descriptors of the process and the status flags of its open files. -/
structure Kernel extends Files ℤ (BitVec 32) where
  file_nonneg : ∀ {fd o}, file fd = some o → 0 ≤ fd

namespace Kernel

variable (k : Kernel)

theorem update_nonneg {k : Kernel} {fd : ℤ} {x : Option ℕ} (nonneg : 0 ≤ fd) {e : ℤ} {o : ℕ}
    (refers : Function.update k.file fd x e = some o) : 0 ≤ e := by
  by_cases same : e = fd
  · exact same ▸ nonneg
  · rw [Function.update_of_ne same] at refers
    exact k.file_nonneg refers

def free (fd : ℤ) : Prop := 0 ≤ fd ∧ k.file fd = none

instance (fd : ℤ) : Decidable (k.free fd) := inferInstanceAs (Decidable (_ ∧ _))

/-- `socket` and `eventfd`, with the flags of the new open file. -/
def create (flags : BitVec 32) (answer : Option ℤ) : ℤ × Kernel :=
  match answer with
  | some fd =>
    if new : k.free fd then
      (fd, ⟨k.toFiles.install fd flags, update_nonneg new.1⟩)
    else (-1, k)
  | none => (-1, k)

def accept (fd : ℤ) (flags : BitVec 32) (answer : Option ℤ) : ℤ × Kernel :=
  match k.file fd with
  | some _ => k.create flags answer
  | none => (-1, k)

def dup (old : ℤ) (answer : Option ℤ) : ℤ × Kernel :=
  match k.file old, answer with
  | some _, some fd =>
    if new : k.free fd then (fd, ⟨k.toFiles.share fd old, update_nonneg new.1⟩) else (-1, k)
  | _, _ => (-1, k)

def dup2 (old newfd : ℤ) (answer : Bool) : ℤ × Kernel :=
  match k.file old with
  | some _ =>
    if new : 0 ≤ newfd ∧ answer = true then
      (newfd, ⟨k.toFiles.share newfd old, update_nonneg new.1⟩)
    else (-1, k)
  | none => (-1, k)

def dup3 (old newfd : ℤ) (answer : Bool) : ℤ × Kernel :=
  if old = newfd then (-1, k) else k.dup2 old newfd answer

def close (fd : ℤ) : ℤ × Kernel :=
  match opened : k.file fd with
  | some _ => (0, ⟨k.toFiles.remove fd, update_nonneg (k.file_nonneg opened)⟩)
  | none => (-1, k)

/-- `fcntl(fd, F_GETFL)`. -/
def getFl (fd : ℤ) : BitVec 32 :=
  match k.file fd with
  | some o => k.flags o
  | none => -1

/-- `fcntl(fd, F_SETFL, param)`. -/
def setFl (fd : ℤ) (param : BitVec 32) (answer : Bool) : ℤ × Kernel :=
  match k.file fd, answer with
  | some o, true =>
    let flags := (param &&& setflMask) ||| (k.flags o &&& ~~~setflMask)
    (0, ⟨k.toFiles.setFlags o flags, k.file_nonneg⟩)
  | _, _ => (-1, k)

end Kernel

end SystemCalls

section Contexts

/-- `fd_ctx_t`. -/
structure FdCtx where
  type : ℤ
  fd : ℤ
  userFlag : BitVec 32
  closed : Bool
  rcvTimeout : ℤ
  sndTimeout : ℤ
  domain : ℤ
  deriving DecidableEq

/-- The kernel, and the table `fds` of `fd_ctx_mgr_t`. -/
structure Sys where
  kernel : Kernel
  fds : ℤ → Option FdCtx

namespace Sys

variable (s : Sys)

def getFdCtx (fd : ℤ) (type : ℤ := 1) : Option FdCtx :=
  if fd < 0 then none
  else match s.fds fd with
    | none => none
    | some ctx => if type = 0 then some ctx else if ctx.type = type then some ctx else none

/-- What is written through the pointer to a context. -/
def setCtx (fd : ℤ) (write : FdCtx → FdCtx) : Sys :=
  { s with fds := Function.update s.fds fd ((s.fds fd).map write) }

def allocFdCtx2 (fd : ℤ) (type : ℤ) (hasNonblocked : Bool) : Sys :=
  let d : FdCtx := {
    type := type
    fd := fd
    userFlag := 0
    closed := false
    rcvTimeout := 1000
    sndTimeout := 1000
    domain := 0 }
  let s := { s with fds := Function.update s.fds fd (some d) }
  if hasNonblocked = false then
    let flags := s.kernel.getFl fd
    { s with kernel := (s.kernel.setFl fd (flags ||| oNonblock) true).2 }
  else s

def allocFdCtx (fd : ℤ) (type : ℤ := 1) : Sys := s.allocFdCtx2 fd type false

def freeFdCtx (fd : ℤ) : Sys :=
  if fd < 0 then s else { s with fds := Function.update s.fds fd none }

end Sys

end Contexts

/-! The hooked calls, with the hook enabled. -/

section Hooks

namespace Sys

def socket (s : Sys) (domain : ℤ) (type : BitVec 32) (answer : Option ℤ) : ℤ × Sys :=
  let (fd, kernel) := s.kernel.create (oRdwr ||| (type &&& oNonblock)) answer
  let s := { s with kernel }
  if fd < 0 then (fd, s)
  else
    let s := s.allocFdCtx fd
    (fd, s.setCtx fd fun lp => { lp with domain })

/-- The first part of `accept` and `accept4`: whether the call goes on to the kernel. `polled` is
that `co_poll` has come back with nothing but `POLLIN`. -/
def acceptable (lp : Option FdCtx) (polled : Bool) : Bool :=
  match lp with
  | none => true
  | some lp => nonblock lp.userFlag || polled

def setDomain (s : Sys) (lp : Option FdCtx) (clientFd : ℤ) : Sys :=
  match lp with
  | none => s
  | some lp => s.setCtx clientFd fun ctx => { ctx with domain := lp.domain }

def accept (s : Sys) (fd : ℤ) (polled : Bool) (answer : Option ℤ) : ℤ × Sys :=
  let lp := s.getFdCtx fd
  if acceptable lp polled then
    let (clientFd, kernel) := s.kernel.accept fd oRdwr answer
    let s := { s with kernel }
    if 0 ≤ clientFd then (clientFd, (s.allocFdCtx clientFd).setDomain lp clientFd)
    else (clientFd, s)
  else (-1, s)

def accept4 (s : Sys) (fd : ℤ) (flags : BitVec 32) (polled : Bool) (answer : Option ℤ) : ℤ × Sys :=
  let lp := s.getFdCtx fd
  if acceptable lp polled then
    let (clientFd, kernel) := s.kernel.accept fd (oRdwr ||| (flags &&& oNonblock)) answer
    let s := { s with kernel }
    if 0 ≤ clientFd then
      let s :=
        if nonblock flags then
          (s.allocFdCtx2 clientFd 1 true).setCtx clientFd fun ctx =>
            { ctx with userFlag := oNonblock }
        else s.allocFdCtx clientFd 1
      (clientFd, s.setDomain lp clientFd)
    else (clientFd, s)
  else (-1, s)

/-- What `dup`, `dup2` and `dup3` do when the kernel has done its part. -/
def copyCtx (s : Sys) (old fd : ℤ) : Sys :=
  match s.getFdCtx old with
  | none => s
  | some lp0 => (s.allocFdCtx fd).setCtx fd fun lp => { lp with
      domain := lp0.domain
      rcvTimeout := lp0.rcvTimeout
      sndTimeout := lp0.sndTimeout
      userFlag := lp0.userFlag }

def dup (s : Sys) (old : ℤ) (answer : Option ℤ) : ℤ × Sys :=
  let (fd, kernel) := s.kernel.dup old answer
  let s := { s with kernel }
  if fd < 0 then (fd, s) else (fd, s.copyCtx old fd)

/-- The rest of `dup2` and `dup3`, which frees the context of `newfd` before it looks for the one of
`old`. -/
def replaceCtx (s : Sys) (old newfd : ℤ) (answer : ℤ × Kernel) : ℤ × Sys :=
  let (fd, kernel) := answer
  let s := { s with kernel }
  if fd < 0 then (fd, s)
  else
    let s :=
      match s.getFdCtx newfd with
      | some _ => s.freeFdCtx newfd
      | none => s
    (fd, s.copyCtx old fd)

def dup2 (s : Sys) (old newfd : ℤ) (answer : Bool) : ℤ × Sys :=
  s.replaceCtx old newfd (s.kernel.dup2 old newfd answer)

def dup3 (s : Sys) (old newfd : ℤ) (answer : Bool) : ℤ × Sys :=
  s.replaceCtx old newfd (s.kernel.dup3 old newfd answer)

/-- `fcntl(fd, F_GETFL)`. -/
def fcntlGetFl (s : Sys) (fd : ℤ) : BitVec 32 :=
  if fd < 0 then -1
  else
    let ret := s.kernel.getFl fd
    match s.getFdCtx fd with
    | some lp =>
      if nonblock lp.userFlag = false ∧ nonblock ret = true then ret &&& ~~~oNonblock else ret
    | none => ret

/-- `fcntl(fd, F_SETFL, param)`. -/
def fcntlSetFl (s : Sys) (fd : ℤ) (param : BitVec 32) (answer : Bool) : ℤ × Sys :=
  if fd < 0 then (-1, s)
  else
    match s.getFdCtx fd with
    | some _ =>
      let (ret, kernel) := s.kernel.setFl fd (param ||| oNonblock) answer
      let s := { s with kernel }
      if ret = 0 then (ret, s.setCtx fd fun lp => { lp with userFlag := param }) else (ret, s)
    | none =>
      let (ret, kernel) := s.kernel.setFl fd param answer
      (ret, { s with kernel })

def eventfd (s : Sys) (flags : BitVec 32) (answer : Option ℤ) : ℤ × Sys :=
  let (fd, kernel) := s.kernel.create (oRdwr ||| (flags &&& oNonblock)) answer
  let s := { s with kernel }
  if fd < 0 then (fd, s)
  else
    let s := s.allocFdCtx fd
    let s := s.setCtx fd fun lp => { lp with domain := 0 }
    if nonblock flags then
      let s := s.setCtx fd fun lp => { lp with userFlag := lp.userFlag ||| oNonblock }
      (fd, (s.fcntlSetFl fd (s.kernel.getFl fd) true).2)
    else (fd, (s.fcntlSetFl fd (s.kernel.getFl fd &&& ~~~oNonblock) true).2)

/-- `close`; a negative descriptor is answered with `EBADF`. -/
def close (s : Sys) (fd : ℤ) : ℤ × Sys :=
  if fd < 0 then (9, s)
  else
    let s :=
      match s.getFdCtx fd with
      | some _ => s.freeFdCtx fd
      | none => s
    let (ret, kernel) := s.kernel.close fd
    (ret, { s with kernel })

end Sys

end Hooks

section Runs

inductive Call
  | socket (domain : ℤ) (type : BitVec 32) (answer : Option ℤ)
  | accept (fd : ℤ) (polled : Bool) (answer : Option ℤ)
  | accept4 (fd : ℤ) (flags : BitVec 32) (polled : Bool) (answer : Option ℤ)
  | dup (old : ℤ) (answer : Option ℤ)
  | dup2 (old newfd : ℤ) (answer : Bool)
  | dup3 (old newfd : ℤ) (answer : Bool)
  | eventfd (flags : BitVec 32) (answer : Option ℤ)
  | getFl (fd : ℤ)
  | setFl (fd : ℤ) (param : BitVec 32) (answer : Bool)
  | close (fd : ℤ)
  deriving DecidableEq

def Call.run (s : Sys) : Call → ℤ × Sys
  | socket domain type answer => s.socket domain type answer
  | accept fd polled answer => s.accept fd polled answer
  | accept4 fd flags polled answer => s.accept4 fd flags polled answer
  | dup old answer => s.dup old answer
  | dup2 old newfd answer => s.dup2 old newfd answer
  | dup3 old newfd answer => s.dup3 old newfd answer
  | eventfd flags answer => s.eventfd flags answer
  | getFl fd => ((s.fcntlGetFl fd).toInt, s)
  | setFl fd param answer => s.fcntlSetFl fd param answer
  | close fd => s.close fd

/-- The mode that a call asks for and the open file that it asks it for: `before` and `after` are the
system around the call, `ret` is what it returns. -/
def Call.asks (before after : Sys) (ret : ℤ) : Call → Option (ℕ × Bool)
  | socket _ type _ => if ret < 0 then none else (after.kernel.file ret).map (·, nonblock type)
  | accept _ _ _ => if ret < 0 then none else (after.kernel.file ret).map (·, false)
  | accept4 _ flags _ _ => if ret < 0 then none else (after.kernel.file ret).map (·, nonblock flags)
  | eventfd flags _ => if ret < 0 then none else (after.kernel.file ret).map (·, nonblock flags)
  | setFl fd param _ =>
    if ret = 0 then (before.kernel.file fd).map (·, nonblock param) else none
  | dup _ _ | dup2 _ _ _ | dup3 _ _ _ | getFl _ | close _ => none

/-- The system, with the mode last asked for on each open file. -/
structure World where
  sys : Sys
  asked : ℕ → Bool

namespace World

/-- Nothing has a context when the process starts. -/
def start (kernel : Kernel) (asked : ℕ → Bool) : World := ⟨⟨kernel, fun _ => none⟩, asked⟩

def step (w : World) (call : Call) : World :=
  let (ret, sys) := call.run w.sys
  let asked :=
    match call.asks w.sys sys ret with
    | some (o, mode) => Function.update w.asked o mode
    | none => w.asked
  ⟨sys, asked⟩

def run (w : World) (calls : List Call) : World := calls.foldl step w

/-- Every descriptor that is open and has a context of the socket type is in the mode last asked for
on its open file, is not blocking in the kernel, and shows its mode to the application. -/
def Faithful (w : World) : Prop :=
  ∀ fd o lp, w.sys.kernel.file fd = some o → w.sys.getFdCtx fd = some lp →
    nonblock lp.userFlag = w.asked o ∧ nonblock (w.sys.kernel.flags o) = true ∧
      nonblock (w.sys.fcntlGetFl fd) = w.asked o

end World

/-- What the hooks need of a call: `socket` is not asked for a mode, and `F_SETFL` asks for the one that
the other descriptors of the open file have, if any of them has a context; it asks for no blocking, if
`fd` has no context then. -/
def Call.Fair (s : Sys) : Call → Prop
  | socket _ type answer => ∀ fd, answer = some fd → s.kernel.free fd → nonblock type = false
  | setFl fd param answer => answer = true → ∀ other lp, other ≠ fd →
      s.kernel.file fd ≠ none → s.kernel.file other = s.kernel.file fd →
      s.getFdCtx other = some lp →
      nonblock lp.userFlag = nonblock param ∧ (s.getFdCtx fd = none → nonblock param = true)
  | _ => True

end Runs

section Invariant

/-- Contexts are of the socket type, and belong to open descriptors. -/
def Sys.Sound (s : Sys) : Prop :=
  ∀ fd lp, s.fds fd = some lp → s.kernel.file fd ≠ none ∧ lp.type = 1

def Sys.modes (s : Sys) (fd : ℤ) : Option Bool := (s.fds fd).map fun lp => nonblock lp.userFlag

theorem Sys.Sound.nonneg {s : Sys} (sound : s.Sound) {fd : ℤ} {lp : FdCtx}
    (has : s.fds fd = some lp) : 0 ≤ fd := by
  obtain ⟨o, opened⟩ := Option.ne_none_iff_exists'.mp (sound fd lp has).1
  exact s.kernel.file_nonneg opened

theorem Sys.Sound.getFdCtx {s : Sys} (sound : s.Sound) (fd : ℤ) : s.getFdCtx fd = s.fds fd := by
  unfold Sys.getFdCtx
  cases has : s.fds fd with
  | none => simp
  | some lp =>
    have nonneg := sound.nonneg has
    simp [(sound fd lp has).2, Int.not_lt.mpr nonneg]

theorem Sys.Sound.unused {s : Sys} (sound : s.Sound) {fd : ℤ} (free : s.kernel.free fd) :
    s.fds fd = none := by
  cases has : s.fds fd with
  | none => rfl
  | some lp => exact absurd free.2 (sound fd lp has).1

theorem Sys.fcntlGetFl_of_ctx {s : Sys} (sound : s.Sound) {fd : ℤ} {o : ℕ} {lp : FdCtx}
    (refers : s.kernel.file fd = some o) (has : s.fds fd = some lp)
    (forced : nonblock (s.kernel.flags o) = true) :
    nonblock (s.fcntlGetFl fd) = nonblock lp.userFlag := by
  have nonneg := Int.not_lt.mpr (sound.nonneg has)
  cases mode : nonblock lp.userFlag <;>
    simp [Sys.fcntlGetFl, nonneg, sound.getFdCtx, has, Kernel.getFl, refers, forced, mode]

/-- The system call answers with the kernel's flags, which the hook corrects. So what it shows is right
as soon as the other two are. -/
theorem World.faithful_iff_agrees {w : World} (sound : w.sys.Sound) :
    w.Faithful ↔
      w.sys.kernel.Agrees (fun flags => nonblock flags = true) w.sys.modes w.asked := by
  constructor
  · intro faithful fd o mode refers has
    obtain ⟨lp, ctx, rfl⟩ := Option.map_eq_some_iff.mp has
    obtain ⟨same, forced, -⟩ := faithful fd o lp refers (by rw [sound.getFdCtx, ctx])
    exact ⟨same, forced⟩
  · intro agrees fd o lp refers has
    rw [sound.getFdCtx] at has
    obtain ⟨same, forced⟩ := agrees fd o (nonblock lp.userFlag) refers (by simp [Sys.modes, has])
    refine ⟨same, forced, ?_⟩
    rw [Sys.fcntlGetFl_of_ctx sound refers has forced, same]

/-- What a call can do to the open files, to the contexts and to what has been asked for, and what it
takes for the modes to be right after it. -/
inductive Effect (w w' : World) : Prop → Prop
  | same (files : w'.sys.kernel.toFiles = w.sys.kernel.toFiles) (fds : w'.sys.fds = w.sys.fds)
      (asked : w'.asked = w.asked) : Effect w w' True
  | made (fd : ℤ) (flags : BitVec 32) (lp : FdCtx) (mode : Bool)
      (files : w'.sys.kernel.toFiles = w.sys.kernel.toFiles.install fd flags)
      (fds : w'.sys.fds = Function.update w.sys.fds fd (some lp))
      (asked : w'.asked = Function.update w.asked w.sys.kernel.fresh mode) (type : lp.type = 1) :
      Effect w w' (nonblock lp.userFlag = mode ∧ nonblock flags = true)
  | shared (fd old : ℤ) (opened : w.sys.kernel.file old ≠ none)
      (files : w'.sys.kernel.toFiles = w.sys.kernel.toFiles.share fd old)
      (fds : w'.sys.fds = Function.update w.sys.fds fd none)
      (asked : w'.asked = w.asked) : Effect w w' True
  | copied (fd old : ℤ) (o : ℕ) (flags : BitVec 32) (lp lp' : FdCtx)
      (opened : w.sys.kernel.file old = some o) (forced : nonblock flags = true)
      (files : w'.sys.kernel.toFiles = (w.sys.kernel.toFiles.share fd old).setFlags o flags)
      (has : w.sys.fds old = some lp)
      (fds : w'.sys.fds = Function.update w.sys.fds fd (some lp'))
      (userFlag : lp'.userFlag = lp.userFlag) (type : lp'.type = 1)
      (asked : w'.asked = w.asked) : Effect w w' True
  | removed (fd : ℤ) (files : w'.sys.kernel.toFiles = w.sys.kernel.toFiles.remove fd)
      (fds : w'.sys.fds = Function.update w.sys.fds fd none)
      (asked : w'.asked = w.asked) : Effect w w' True
  | asked (fd : ℤ) (o : ℕ) (param flags : BitVec 32) (opened : w.sys.kernel.file fd = some o)
      (files : w'.sys.kernel.toFiles = w.sys.kernel.toFiles.setFlags o flags)
      (fds : w'.sys.fds = Function.update w.sys.fds fd
        ((w.sys.fds fd).map fun lp => { lp with userFlag := param }))
      (asked : w'.asked = Function.update w.asked o (nonblock param)) :
      Effect w w' (((w.sys.modes fd).isSome → nonblock flags = true) ∧
        ∀ other mode, other ≠ fd → w.sys.kernel.file other = some o →
          w.sys.modes other = some mode → mode = nonblock param ∧ nonblock flags = true)

theorem modes_update (s : Sys) (fd : ℤ) (entry : Option FdCtx) {s' : Sys}
    (fds : s'.fds = Function.update s.fds fd entry) :
    s'.modes = Function.update s.modes fd (entry.map fun lp => nonblock lp.userFlag) := by
  funext e
  by_cases here : e = fd
  · subst here
    simp [Sys.modes, fds]
  · simp [Sys.modes, fds, Function.update_of_ne here]

/-- A context is written or freed, with an open descriptor under it. -/
theorem Sys.Sound.update {s s' : Sys} (sound : s.Sound) {fd : ℤ} {entry : Option FdCtx}
    (file : Option ℕ) (files : s'.kernel.file = Function.update s.kernel.file fd file)
    (fds : s'.fds = Function.update s.fds fd entry)
    (entry_ok : ∀ lp, entry = some lp → file ≠ none ∧ lp.type = 1) : s'.Sound := by
  intro e lp has
  rw [fds] at has
  rw [files]
  by_cases here : e = fd
  · subst here
    rw [Function.update_self] at has ⊢
    exact entry_ok lp has
  · rw [Function.update_of_ne here] at has ⊢
    exact sound e lp has

variable {w w' : World} {good : Prop}

theorem Effect.sound (effect : Effect w w' good) (sound : w.sys.Sound) : w'.sys.Sound := by
  cases effect with
  | same files fds asked =>
    intro fd lp has
    rw [fds] at has
    rw [files]
    exact sound fd lp has
  | made fd flags lp mode files fds asked type =>
    exact sound.update _ (by rw [files]; rfl) fds (by simp [type])
  | shared fd old opened files fds asked =>
    exact sound.update _ (by rw [files]; rfl) fds (by simp)
  | copied fd old o flags lp lp' opened forced files has fds userFlag type asked =>
    exact sound.update _ (by rw [files]; rfl) fds (by simp [type, opened])
  | removed fd files fds asked =>
    exact sound.update _ (by rw [files]; rfl) fds (by simp)
  | asked fd o param flags opened files fds asked =>
    have kept : Function.update w.sys.kernel.file fd (some o) = w.sys.kernel.file := by
      rw [← opened, Function.update_eq_self]
    refine sound.update (some o) (by rw [files, Files.setFlags_file, kept]) fds ?_
    intro lp has
    obtain ⟨lp₀, has₀, rfl⟩ := Option.map_eq_some_iff.mp has
    exact ⟨by simp, (sound fd lp₀ has₀).2⟩

theorem Effect.faithful_iff (effect : Effect w w' good) (sound : w.sys.Sound)
    (faithful : w.Faithful) : w'.Faithful ↔ good := by
  rw [World.faithful_iff_agrees (effect.sound sound)]
  rw [World.faithful_iff_agrees sound] at faithful
  cases effect with
  | same files fds asked =>
    have modes : w'.sys.modes = w.sys.modes := by
      funext fd
      simp [Sys.modes, fds]
    rw [files, modes, asked]
    simpa using faithful
  | made fd flags lp mode files fds asked type =>
    rw [files, modes_update _ _ _ fds, asked]
    exact faithful.install_iff
  | shared fd old opened files fds asked =>
    rw [files, modes_update _ _ _ fds, asked]
    simpa using faithful.share (.inl rfl)
  | copied fd old o flags lp lp' opened forced files has fds userFlag type asked =>
    rw [files, modes_update _ _ _ fds, asked]
    have entry : Option.map (fun lp => nonblock lp.userFlag) (some lp') = w.sys.modes old := by
      simp [Sys.modes, has, userFlag]
    exact iff_of_true ((faithful.share (.inr entry)).setFlags forced) trivial
  | removed fd files fds asked =>
    rw [files, modes_update _ _ _ fds, asked]
    simpa using faithful.remove
  | asked fd o param flags opened files fds asked =>
    rw [files, modes_update _ _ _ fds, asked]
    have entry : ((w.sys.fds fd).map fun lp => { lp with userFlag := param }).map
        (fun lp => nonblock lp.userFlag) = (w.sys.modes fd).map fun _ => nonblock param := by
      simp [Sys.modes, Function.comp_def]
    rw [entry]
    exact faithful.ask_iff opened

end Invariant

section Steps

/-- The kernel opens the descriptor of its answer, or fails. -/
def Kernel.Made (k : Kernel) (flags : BitVec 32) (answer : Option ℤ) (r : ℤ × Kernel) : Prop :=
  (∃ fd k', k.free fd ∧ answer = some fd ∧ r = (fd, k') ∧
    k'.toFiles = k.toFiles.install fd flags) ∨ r = (-1, k)

theorem Kernel.create_made (k : Kernel) (flags : BitVec 32) (answer : Option ℤ) :
    k.Made flags answer (k.create flags answer) := by
  cases answer with
  | none => exact .inr rfl
  | some fd =>
    by_cases new : k.free fd
    · refine .inl ⟨fd, ⟨k.toFiles.install fd flags, Kernel.update_nonneg new.1⟩, new, rfl, ?_, rfl⟩
      simp only [Kernel.create, new, dite_true]
    · exact .inr (by simp only [Kernel.create, new, dite_false])

theorem Kernel.accept_made (k : Kernel) (fd : ℤ) (flags : BitVec 32) (answer : Option ℤ) :
    k.Made flags answer (k.accept fd flags answer) := by
  unfold Kernel.accept
  cases k.file fd with
  | none => exact .inr rfl
  | some o => exact k.create_made flags answer

/-- `fd` has been opened, with a context. -/
structure Sys.Opened (s s' : Sys) (fd : ℤ) (flags userFlag : BitVec 32) : Prop where
  files : s'.kernel.toFiles = s.kernel.toFiles.install fd flags
  ctx : ∃ lp, lp.type = 1 ∧ lp.userFlag = userFlag ∧ s'.fds = Function.update s.fds fd (some lp)

namespace Sys.Opened

variable {s s' : Sys} {fd : ℤ} {flags userFlag : BitVec 32}

theorem file (opened : s.Opened s' fd flags userFlag) :
    s'.kernel.file fd = some s.kernel.fresh := by
  simp [opened.files]

theorem getFl (opened : s.Opened s' fd flags userFlag) : s'.kernel.getFl fd = flags := by
  simp [Kernel.getFl, opened.files]

theorem getFdCtx (opened : s.Opened s' fd flags userFlag) :
    ∃ lp, s'.getFdCtx fd = some lp ∧ lp.userFlag = userFlag := by
  obtain ⟨lp, type, flag, fds⟩ := opened.ctx
  have nonneg := s'.kernel.file_nonneg opened.file
  exact ⟨lp, by simp [Sys.getFdCtx, fds, type, Int.not_lt.mpr nonneg], flag⟩

theorem setCtx (opened : s.Opened s' fd flags userFlag) {write : FdCtx → FdCtx} {param : BitVec 32}
    (type : ∀ lp, (write lp).type = lp.type)
    (flag : ∀ lp, lp.userFlag = userFlag → (write lp).userFlag = param) :
    s.Opened (s'.setCtx fd write) fd flags param := by
  obtain ⟨lp, kind, before, fds⟩ := opened.ctx
  refine ⟨opened.files, write lp, (type lp).trans kind, flag lp before, ?_⟩
  simp [Sys.setCtx, fds]

theorem setDomain (opened : s.Opened s' fd flags userFlag) (lp : Option FdCtx) :
    s.Opened (s'.setDomain lp fd) fd flags userFlag := by
  cases lp with
  | none => exact opened
  | some lp => exact opened.setCtx (fun _ => rfl) fun _ same => same

theorem setFlags (opened : s.Opened s' fd flags userFlag) {k : Kernel} {flags' : BitVec 32}
    (files : k.toFiles = s'.kernel.toFiles.setFlags s.kernel.fresh flags') :
    s.Opened { s' with kernel := k } fd flags' userFlag :=
  ⟨by rw [files, opened.files, Files.install_setFlags], opened.ctx⟩

theorem fcntlSetFl (opened : s.Opened s' fd flags userFlag) (param : BitVec 32) :
    ∃ flags', nonblock flags' = true ∧
      s.Opened (s'.fcntlSetFl fd param true).2 fd flags' param := by
  have nonneg := Int.not_lt.mpr (s'.kernel.file_nonneg opened.file)
  obtain ⟨lp, has, -⟩ := opened.getFdCtx
  refine ⟨((param ||| oNonblock) &&& setflMask) |||
    (s'.kernel.flags s.kernel.fresh &&& ~~~setflMask), by simp, ?_⟩
  simp only [Sys.fcntlSetFl, nonneg, has, Kernel.setFl, opened.file, if_false, if_true]
  exact (opened.setFlags rfl).setCtx (fun _ => rfl) fun _ _ => rfl

end Sys.Opened

theorem Sys.allocFdCtx_eq {s : Sys} {fd : ℤ} {o : ℕ} (refers : s.kernel.file fd = some o) :
    ∃ flags lp, nonblock flags = true ∧ lp.type = 1 ∧ lp.userFlag = 0 ∧
      (s.allocFdCtx fd).kernel.toFiles = s.kernel.toFiles.setFlags o flags ∧
      (s.allocFdCtx fd).fds = Function.update s.fds fd (some lp) := by
  refine ⟨((s.kernel.flags o ||| oNonblock) &&& setflMask) |||
    (s.kernel.flags o &&& ~~~setflMask), _, by simp, rfl, rfl, ?_, rfl⟩
  simp [Sys.allocFdCtx, Sys.allocFdCtx2, Kernel.setFl, Kernel.getFl, refers]

/-- `alloc_fd_ctx` on a descriptor that the kernel has just opened. -/
theorem Sys.allocFdCtx_opened {s : Sys} {k : Kernel} {fd : ℤ} {flags : BitVec 32}
    (files : k.toFiles = s.kernel.toFiles.install fd flags) :
    ∃ flags', nonblock flags' = true ∧
      s.Opened (({ s with kernel := k } : Sys).allocFdCtx fd) fd flags' 0 := by
  have refers : ({ s with kernel := k } : Sys).kernel.file fd = some s.kernel.fresh := by
    simp [files]
  obtain ⟨flags', lp, forced, type, flag, after, fds⟩ := allocFdCtx_eq refers
  rw [files, Files.install_setFlags] at after
  exact ⟨flags', forced, after, lp, type, flag, fds⟩

/-- A call that opens a descriptor with a context for the kernel's answer, or fails and does
nothing. -/
def Sys.Creates (s : Sys) (answer : Option ℤ) (userFlag : BitVec 32) (r : ℤ × Sys) : Prop :=
  (∃ fd flags, answer = some fd ∧ s.kernel.free fd ∧ nonblock flags = true ∧ r.1 = fd ∧
    s.Opened r.2 fd flags userFlag) ∨ r = (-1, s)

namespace Sys

theorem socket_creates (s : Sys) (domain : ℤ) (type : BitVec 32) (answer : Option ℤ) :
    s.Creates answer 0 (s.socket domain type answer) := by
  unfold socket
  obtain ⟨fd, k, new, rfl, made, files⟩ | failed :=
    s.kernel.create_made (oRdwr ||| (type &&& oNonblock)) answer
  · obtain ⟨flags, forced, opened⟩ := allocFdCtx_opened files
    simp only [made, Int.not_lt.mpr new.1, if_false]
    exact .inl ⟨fd, flags, rfl, new, forced, rfl, opened.setCtx (fun _ => rfl) fun _ same => same⟩
  · exact .inr (by simp [failed])

theorem socket_fst {s : Sys} {domain fd : ℤ} {type : BitVec 32} (new : s.kernel.free fd) :
    (s.socket domain type (some fd)).1 = fd := by
  simp [socket, Kernel.create, new, Int.not_lt.mpr new.1]

theorem accept_creates (s : Sys) (fd : ℤ) (polled : Bool) (answer : Option ℤ) :
    s.Creates answer 0 (s.accept fd polled answer) := by
  unfold accept
  by_cases ready : acceptable (s.getFdCtx fd) polled = true
  · obtain ⟨client, k, new, rfl, made, files⟩ | failed := s.kernel.accept_made fd oRdwr answer
    · obtain ⟨flags, forced, opened⟩ := allocFdCtx_opened files
      simp only [ready, made, new.1, if_true]
      exact .inl ⟨client, flags, rfl, new, forced, rfl, opened.setDomain _⟩
    · exact .inr (by simp [failed])
  · exact .inr (by simp [ready])

theorem accept4_creates (s : Sys) (fd : ℤ) (flags : BitVec 32) (polled : Bool)
    (answer : Option ℤ) : ∃ userFlag, nonblock userFlag = nonblock flags ∧
      s.Creates answer userFlag (s.accept4 fd flags polled answer) := by
  refine ⟨if nonblock flags then oNonblock else 0, ?_, ?_⟩
  · cases mode : nonblock flags <;> simp
  unfold accept4
  by_cases ready : acceptable (s.getFdCtx fd) polled = true
  · obtain ⟨client, k, new, rfl, made, files⟩ | failed :=
      s.kernel.accept_made fd (oRdwr ||| (flags &&& oNonblock)) answer
    · simp only [ready, made, new.1, if_true]
      cases mode : nonblock flags with
      | false =>
        obtain ⟨forcedFlags, forced, opened⟩ := allocFdCtx_opened files
        exact .inl ⟨client, forcedFlags, rfl, new, forced, rfl, opened.setDomain _⟩
      | true =>
        -- the kernel has set the flag already
        have opened : s.Opened (({ s with kernel := k } : Sys).allocFdCtx2 client 1 true) client
            (oRdwr ||| (flags &&& oNonblock)) 0 := ⟨files, _, rfl, rfl, rfl⟩
        have asked : s.Opened ((({ s with kernel := k } : Sys).allocFdCtx2 client 1 true).setCtx client
            fun ctx => { ctx with userFlag := oNonblock }) client (oRdwr ||| (flags &&& oNonblock))
            oNonblock := opened.setCtx (fun _ => rfl) fun _ _ => rfl
        exact .inl ⟨client, _, rfl, new, by simp [mode], rfl, asked.setDomain _⟩
    · exact .inr (by simp [failed])
  · exact .inr (by simp [ready])

theorem eventfd_creates (s : Sys) (flags : BitVec 32) (answer : Option ℤ) :
    ∃ userFlag, nonblock userFlag = nonblock flags ∧
      s.Creates answer userFlag (s.eventfd flags answer) := by
  unfold eventfd
  obtain ⟨fd, k, new, rfl, made, files⟩ | failed :=
    s.kernel.create_made (oRdwr ||| (flags &&& oNonblock)) answer
  · obtain ⟨kernelFlags, forced, alloced⟩ := allocFdCtx_opened files
    have domained : s.Opened ((({ s with kernel := k } : Sys).allocFdCtx fd).setCtx fd
        fun lp => { lp with domain := 0 }) fd kernelFlags 0 :=
      alloced.setCtx (fun _ => rfl) fun _ same => same
    simp only [made, Int.not_lt.mpr new.1, if_false]
    by_cases mode : nonblock flags = true
    · have flagged : s.Opened (((({ s with kernel := k } : Sys).allocFdCtx fd).setCtx fd
          fun lp => { lp with domain := 0 }).setCtx fd
          fun lp => { lp with userFlag := lp.userFlag ||| oNonblock }) fd kernelFlags oNonblock := by
        refine domained.setCtx (fun _ => rfl) fun lp zero => ?_
        simp [zero]
      obtain ⟨after, forced', opened⟩ := flagged.fcntlSetFl kernelFlags
      simp only [mode, if_true]
      refine ⟨_, forced, .inl ⟨fd, after, rfl, new, forced', rfl, ?_⟩⟩
      simpa only [flagged.getFl] using opened
    · obtain ⟨after, forced', opened⟩ := domained.fcntlSetFl (kernelFlags &&& ~~~oNonblock)
      rw [if_neg mode]
      refine ⟨kernelFlags &&& ~~~oNonblock, by simp [mode], .inl ⟨fd, after, rfl, new, forced', rfl, ?_⟩⟩
      simpa only [domained.getFl] using opened
  · exact ⟨flags, rfl, .inr (by simp [failed])⟩

end Sys

@[simp] theorem World.step_sys (w : World) (call : Call) :
    (w.step call).sys = (call.run w.sys).2 := rfl

theorem World.step_asked (w : World) (call : Call) :
    (w.step call).asked =
      match call.asks w.sys (call.run w.sys).2 (call.run w.sys).1 with
      | some (o, mode) => Function.update w.asked o mode
      | none => w.asked := rfl

variable {w : World}

/-- A call that opens a descriptor, and asks for `mode` if it succeeds. -/
theorem Effect.of_creates (call : Call) {answer : Option ℤ} {userFlag : BitVec 32} {mode : Bool}
    (creates : w.sys.Creates answer userFlag (call.run w.sys))
    (asks : ∀ after ret, call.asks w.sys after ret =
      if ret < 0 then none else (after.kernel.file ret).map (·, mode)) :
    ∃ good, Effect w (w.step call) good ∧
      (good ↔ (call.run w.sys).1 < 0 ∨ nonblock userFlag = mode) := by
  obtain ⟨fd, flags, -, new, forced, ret, opened⟩ | failed := creates
  · obtain ⟨lp, type, flag, fds⟩ := opened.ctx
    have nonneg := Int.not_lt.mpr new.1
    have asked : (w.step call).asked = Function.update w.asked w.sys.kernel.fresh mode := by
      simp [World.step_asked, asks, ret, nonneg, opened.file]
    refine ⟨_, .made fd flags lp mode opened.files fds asked type, ?_⟩
    simp [flag, forced, ret, nonneg]
  · refine ⟨True, .same (by simp [failed]) (by simp [failed]) ?_, ?_⟩
    · simp [World.step_asked, asks, failed]
    · simp [failed]

/-- A context is copied to a descriptor that shares the open file, and has none. -/
theorem Effect.of_copyCtx {w' : World} {s : Sys} {fd old : ℤ} {o : ℕ}
    (refers : w.sys.kernel.file old = some o)
    (files : s.kernel.toFiles = w.sys.kernel.toFiles.share fd old)
    (fds : s.fds = Function.update w.sys.fds fd none)
    (after : w'.sys = s.copyCtx old fd) (asked : w'.asked = w.asked) : Effect w w' True := by
  unfold Sys.copyCtx at after
  cases has : s.getFdCtx old with
  | none =>
    simp only [has] at after
    exact .shared fd old (by simp [refers]) (by rw [after, files]) (by rw [after, fds]) asked
  | some lp0 =>
    have ctx : s.fds old = some lp0 := by
      unfold Sys.getFdCtx at has
      grind
    have other : old ≠ fd := by
      rintro rfl
      simp [fds] at ctx
    rw [fds, Function.update_of_ne other] at ctx
    have refers' : s.kernel.file fd = some o := by simp [files, refers]
    obtain ⟨flags, lp, forced, type, -, kernel, table⟩ := Sys.allocFdCtx_eq refers'
    simp only [has] at after
    let copy : FdCtx := { lp with
      domain := lp0.domain
      rcvTimeout := lp0.rcvTimeout
      sndTimeout := lp0.sndTimeout
      userFlag := lp0.userFlag }
    refine .copied fd old o flags lp0 copy refers forced ?_ ctx ?_ rfl type asked
    · rw [after]
      exact kernel.trans (by rw [files])
    · rw [after]
      simp [Sys.setCtx, table, fds, copy]

theorem Effect.of_unchanged {call : Call} (ret : ℤ) (same : call.run w.sys = (ret, w.sys))
    (asks : call.asks w.sys w.sys ret = none) : Effect w (w.step call) True :=
  .same (by simp [same]) (by simp [same]) (by simp [World.step_asked, same, asks])

theorem Effect.of_dup (sound : w.sys.Sound) (old : ℤ) (answer : Option ℤ) :
    Effect w (w.step (.dup old answer)) True := by
  have asked : (w.step (.dup old answer)).asked = w.asked := rfl
  cases refers : w.sys.kernel.file old with
  | none => exact .of_unchanged (-1) (by simp [Call.run, Sys.dup, Kernel.dup, refers]) rfl
  | some o =>
    cases answer with
    | none => exact .of_unchanged (-1) (by simp [Call.run, Sys.dup, Kernel.dup, refers]) rfl
    | some fd =>
      by_cases new : w.sys.kernel.free fd
      · have runs : (w.step (.dup old (some fd))).sys = ({ w.sys with
            kernel := ⟨w.sys.kernel.toFiles.share fd old, Kernel.update_nonneg new.1⟩ } : Sys).copyCtx
              old fd := by
          simp [Call.run, Sys.dup, Kernel.dup, refers, new, Int.not_lt.mpr new.1]
        refine .of_copyCtx refers (s := { w.sys with kernel := _ }) rfl ?_ runs asked
        rw [← sound.unused new, Function.update_eq_self]
      · exact .of_unchanged (-1) (by simp [Call.run, Sys.dup, Kernel.dup, refers, new]) rfl

/-- The context of a descriptor is freed, if there is one. -/
theorem Sys.freed_fds {s : Sys} {fd : ℤ} (whole : s.getFdCtx fd = s.fds fd) (nonneg : 0 ≤ fd) :
    (match s.getFdCtx fd with
      | some _ => s.freeFdCtx fd
      | none => s).fds = Function.update s.fds fd none := by
  rw [whole]
  cases has : s.fds fd with
  | none => simp [← has]
  | some lp => simp [Sys.freeFdCtx, Int.not_lt.mpr nonneg]

theorem Sys.freed_kernel {s : Sys} (fd : ℤ) :
    (match s.getFdCtx fd with
      | some _ => s.freeFdCtx fd
      | none => s).kernel = s.kernel := by
  unfold Sys.freeFdCtx
  grind

/-- `dup2` and `dup3`, once the kernel has answered. -/
theorem Effect.of_replaceCtx {w' : World} (sound : w.sys.Sound) {old newfd : ℤ} {answer : ℤ × Kernel}
    (kernel : answer = (-1, w.sys.kernel) ∨ ∃ k : Kernel, ∃ o, 0 ≤ newfd ∧ answer = (newfd, k) ∧
      w.sys.kernel.file old = some o ∧ k.toFiles = w.sys.kernel.toFiles.share newfd old)
    (after : w'.sys = (w.sys.replaceCtx old newfd answer).2) (asked : w'.asked = w.asked) :
    Effect w w' True := by
  obtain rfl | ⟨k, o, nonneg, rfl, refers, files⟩ := kernel
  · exact .same (by simp [after, Sys.replaceCtx]) (by simp [after, Sys.replaceCtx]) asked
  · simp only [Sys.replaceCtx, Int.not_lt.mpr nonneg, if_false] at after
    refine .of_copyCtx refers ?_ ?_ after asked
    · rw [Sys.freed_kernel]
      exact files
    · exact Sys.freed_fds (s := { w.sys with kernel := k }) (sound.getFdCtx newfd) nonneg

theorem Kernel.dup2_cases (k : Kernel) (old newfd : ℤ) (answer : Bool) :
    k.dup2 old newfd answer = (-1, k) ∨
      ∃ k' : Kernel, ∃ o, 0 ≤ newfd ∧ k.dup2 old newfd answer = (newfd, k') ∧
        k.file old = some o ∧ k'.toFiles = k.toFiles.share newfd old := by
  unfold Kernel.dup2
  cases refers : k.file old with
  | none => exact .inl rfl
  | some o =>
    by_cases new : 0 ≤ newfd ∧ answer = true
    · refine .inr ⟨⟨k.toFiles.share newfd old, Kernel.update_nonneg new.1⟩, o, new.1, ?_, rfl, rfl⟩
      exact dif_pos new
    · exact .inl (dif_neg new)

theorem Effect.of_dup2 (sound : w.sys.Sound) (old newfd : ℤ) (answer : Bool) :
    Effect w (w.step (.dup2 old newfd answer)) True :=
  .of_replaceCtx sound (w.sys.kernel.dup2_cases old newfd answer) rfl rfl

theorem Effect.of_dup3 (sound : w.sys.Sound) (old newfd : ℤ) (answer : Bool) :
    Effect w (w.step (.dup3 old newfd answer)) True := by
  have kernel : w.sys.kernel.dup3 old newfd answer = (-1, w.sys.kernel) ∨ ∃ k : Kernel, ∃ o,
      0 ≤ newfd ∧ w.sys.kernel.dup3 old newfd answer = (newfd, k) ∧
        w.sys.kernel.file old = some o ∧ k.toFiles = w.sys.kernel.toFiles.share newfd old := by
    by_cases same : old = newfd
    · exact .inl (by simp [Kernel.dup3, same])
    · simpa only [Kernel.dup3, same, if_false] using w.sys.kernel.dup2_cases old newfd answer
  exact .of_replaceCtx sound kernel rfl rfl

theorem Effect.of_close (sound : w.sys.Sound) (fd : ℤ) : Effect w (w.step (.close fd)) True := by
  have asked : (w.step (.close fd)).asked = w.asked := rfl
  by_cases negative : fd < 0
  · exact .of_unchanged 9 (by simp [Call.run, Sys.close, negative]) rfl
  · have nonneg := Int.not_lt.mp negative
    have fds : (w.step (.close fd)).sys.fds = Function.update w.sys.fds fd none := by
      rw [← Sys.freed_fds (sound.getFdCtx fd) nonneg]
      simp [Call.run, Sys.close, negative]
    have kernel : (w.step (.close fd)).sys.kernel = (w.sys.kernel.close fd).2 := by
      simp only [World.step_sys, Call.run, Sys.close, negative, if_false, Sys.freed_kernel]
    cases refers : w.sys.kernel.file fd with
    | none =>
      have bare : w.sys.fds fd = none := sound.unused ⟨nonneg, refers⟩
      refine .same ?_ ?_ asked
      · rw [kernel]
        unfold Kernel.close
        grind
      · rw [fds, ← bare, Function.update_eq_self]
    | some o =>
      refine .removed fd ?_ fds asked
      rw [kernel]
      unfold Kernel.close
      grind

/-- Through a descriptor with a context, the kernel's flag stays set, whatever `F_SETFL` asks for. -/
theorem fair_setFl_iff (sound : w.sys.Sound) {fd : ℤ} {o : ℕ} {param flags : BitVec 32}
    (refers : w.sys.kernel.file fd = some o)
    (forced : nonblock flags = ((w.sys.fds fd).isSome || nonblock param)) :
    (((w.sys.modes fd).isSome → nonblock flags = true) ∧
      ∀ other mode, other ≠ fd → w.sys.kernel.file other = some o →
        w.sys.modes other = some mode → mode = nonblock param ∧ nonblock flags = true) ↔
      Call.Fair w.sys (.setFl fd param true) := by
  simp only [Call.Fair, refers, sound.getFdCtx, forced]
  constructor
  · rintro ⟨-, others⟩ - other lp away - shares has
    obtain ⟨same, set⟩ := others other (nonblock lp.userFlag) away shares (by simp [Sys.modes, has])
    exact ⟨same, fun bare => by simpa [bare] using set⟩
  · intro fair
    refine ⟨fun has => by simp_all [Sys.modes], ?_⟩
    intro other mode away shares has
    obtain ⟨lp, ctx, rfl⟩ := Option.map_eq_some_iff.mp has
    obtain ⟨same, set⟩ := fair trivial other lp away (by simp) shares ctx
    refine ⟨same, ?_⟩
    cases own : w.sys.fds fd with
    | none => simpa using set own
    | some lp => simp

theorem Effect.of_setFl (sound : w.sys.Sound) (fd : ℤ) (param : BitVec 32) (answer : Bool) :
    ∃ good, Effect w (w.step (.setFl fd param answer)) good ∧
      (good ↔ Call.Fair w.sys (.setFl fd param answer)) := by
  by_cases negative : fd < 0
  · refine ⟨True, .of_unchanged (-1) (by simp [Call.run, Sys.fcntlSetFl, negative]) rfl, ?_⟩
    have closed : w.sys.kernel.file fd = none := by
      by_contra opened
      obtain ⟨o, refers⟩ := Option.ne_none_iff_exists'.mp opened
      have := w.sys.kernel.file_nonneg refers
      omega
    simp [Call.Fair, closed]
  cases refers : w.sys.kernel.file fd with
  | none =>
    refine ⟨True, .of_unchanged (-1) ?_ rfl, by simp [Call.Fair, refers]⟩
    cases has : w.sys.getFdCtx fd <;>
      simp [Call.run, Sys.fcntlSetFl, negative, has, Kernel.setFl, refers]
  | some o =>
    cases answer with
    | false =>
      refine ⟨True, .of_unchanged (-1) ?_ rfl, by simp [Call.Fair]⟩
      cases has : w.sys.getFdCtx fd <;>
        simp [Call.run, Sys.fcntlSetFl, negative, has, Kernel.setFl, refers]
    | true =>
      cases has : w.sys.getFdCtx fd with
      | none =>
        let flags := (param &&& setflMask) ||| (w.sys.kernel.flags o &&& ~~~setflMask)
        have bare : w.sys.fds fd = none := by rw [← sound.getFdCtx, has]
        refine ⟨_, .asked fd o param flags refers ?_ ?_ ?_,
          fair_setFl_iff sound refers (by simp [flags, bare])⟩
        · simp [Call.run, Sys.fcntlSetFl, negative, has, Kernel.setFl, refers, flags]
        · have nothing : Function.update w.sys.fds fd none = w.sys.fds := by
            rw [← bare, Function.update_eq_self]
          simp [Call.run, Sys.fcntlSetFl, negative, has, bare, nothing]
        · simp [World.step_asked, Call.asks, Call.run, Sys.fcntlSetFl, negative, has, Kernel.setFl,
            refers]
      | some lp =>
        let flags := ((param ||| oNonblock) &&& setflMask) ||| (w.sys.kernel.flags o &&& ~~~setflMask)
        have ctx : w.sys.fds fd = some lp := by rw [← sound.getFdCtx, has]
        refine ⟨_, .asked fd o param flags refers ?_ ?_ ?_,
          fair_setFl_iff sound refers (by simp [flags, ctx])⟩
        · simp [Call.run, Sys.fcntlSetFl, negative, has, Kernel.setFl, refers, flags, Sys.setCtx]
        · simp [Call.run, Sys.fcntlSetFl, negative, has, Kernel.setFl, refers, Sys.setCtx]
        · simp [World.step_asked, Call.asks, Call.run, Sys.fcntlSetFl, negative, has, Kernel.setFl,
            refers]

/-- What each call does, and what it takes for the modes to be right after it. -/
theorem Effect.of_step (sound : w.sys.Sound) (call : Call) :
    ∃ good, Effect w (w.step call) good ∧ (good ↔ call.Fair w.sys) := by
  cases call with
  | socket domain type answer =>
    obtain ⟨good, effect, iff⟩ := Effect.of_creates (.socket domain type answer)
      (w.sys.socket_creates domain type answer) (fun _ _ => rfl)
    refine ⟨good, effect, iff.trans ?_⟩
    have plain : (nonblock 0 = nonblock type) ↔ nonblock type = false := by
      rw [show nonblock 0 = false from rfl]
      exact eq_comm
    rw [plain]
    constructor
    · intro right fd answered new
      subst answered
      have opened : (Call.run w.sys (.socket domain type (some fd))).1 = fd := Sys.socket_fst new
      have := new.1
      exact right.resolve_left (by omega)
    · intro fair
      obtain ⟨fd, flags, answered, new, -⟩ | failed := w.sys.socket_creates domain type answer
      · exact .inr (fair fd answered new)
      · exact .inl (by simp [Call.run, failed])
  | accept fd polled answer =>
    obtain ⟨good, effect, iff⟩ := Effect.of_creates (.accept fd polled answer)
      (w.sys.accept_creates fd polled answer) (fun _ _ => rfl)
    exact ⟨good, effect, iff.trans (by simp [Call.Fair])⟩
  | accept4 fd flags polled answer =>
    obtain ⟨userFlag, mode, creates⟩ := w.sys.accept4_creates fd flags polled answer
    obtain ⟨good, effect, iff⟩ := Effect.of_creates (.accept4 fd flags polled answer)
      creates (fun _ _ => rfl)
    exact ⟨good, effect, iff.trans (by simp [Call.Fair, mode])⟩
  | eventfd flags answer =>
    obtain ⟨userFlag, mode, creates⟩ := w.sys.eventfd_creates flags answer
    obtain ⟨good, effect, iff⟩ := Effect.of_creates (.eventfd flags answer)
      creates (fun _ _ => rfl)
    exact ⟨good, effect, iff.trans (by simp [Call.Fair, mode])⟩
  | dup old answer => exact ⟨True, .of_dup sound old answer, by simp [Call.Fair]⟩
  | dup2 old newfd answer => exact ⟨True, .of_dup2 sound old newfd answer, by simp [Call.Fair]⟩
  | dup3 old newfd answer => exact ⟨True, .of_dup3 sound old newfd answer, by simp [Call.Fair]⟩
  | getFl fd => exact ⟨True, .of_unchanged _ rfl rfl, by simp [Call.Fair]⟩
  | setFl fd param answer => exact Effect.of_setFl sound fd param answer
  | close fd => exact ⟨True, .of_close sound fd, by simp [Call.Fair]⟩

end Steps

section Main

theorem World.start_sound (kernel : Kernel) (asked : ℕ → Bool) : (start kernel asked).sys.Sound := by
  intro fd lp has
  exact absurd has (by simp [start])

theorem World.start_faithful (kernel : Kernel) (asked : ℕ → Bool) :
    (start kernel asked).Faithful := by
  intro fd o lp _ has
  exact absurd has (by simp [start, Sys.getFdCtx])

/-- The modes are right in every state of a run exactly when every call of it is fair to the hooks. -/
theorem modes_iff_fair (kernel : Kernel) (asked : ℕ → Bool) (calls : List Call) :
    (∀ past, past <+: calls → ((World.start kernel asked).run past).Faithful) ↔
      ∀ past call, past ++ [call] <+: calls →
        call.Fair ((World.start kernel asked).run past).sys := by
  have keeps : ∀ (w : World) (call : Call), w.sys.Sound → (w.step call).sys.Sound := by
    intro w call sound
    obtain ⟨good, effect, -⟩ := Effect.of_step sound call
    exact effect.sound sound
  have step_iff : ∀ (w : World) (call : Call), w.sys.Sound → w.Faithful →
      ((w.step call).Faithful ↔ call.Fair w.sys) := by
    intro w call sound faithful
    obtain ⟨good, effect, iff⟩ := Effect.of_step sound call
    exact (effect.faithful_iff sound faithful).trans iff
  exact foldl_good_iff keeps step_iff (World.start_sound kernel asked)
    (World.start_faithful kernel asked) calls

/-- A process without open descriptors. -/
def bareKernel : Kernel := ⟨⟨fun _ => none, fun _ => 0, 0, by simp⟩, by simp⟩

/-- `socket(AF_INET, SOCK_STREAM | SOCK_NONBLOCK, 0)` is left as a blocking socket. -/
theorem socket_mode_lost :
    ¬ ∀ (kernel : Kernel) (asked : ℕ → Bool) (calls : List Call),
      ((World.start kernel asked).run calls).Faithful := by
  intro claim
  have after := claim bareKernel (fun _ => false) [.socket 2 0x801 (some 3)] 3 0
    ⟨1, 3, 0, false, 1000, 1000, 2⟩ (by decide) (by decide)
  exact absurd after.1 (by decide)

end Main

end Conet.Core.FdMode
