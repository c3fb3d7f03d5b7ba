/- Module: Conet/Core/HookFcntl
   source: core/src/network_hook.cpp, core/src/fd_ctx.cpp, core/hook_helper.h
   digest: Every command of the hooked fcntl. -/

import Conet.Core.FdMode

set_option autoImplicit false
set_option relaxedAutoImplicit false

namespace Conet.Core.HookFcntl

open Conet.Core.FdMode (FdCtx oNonblock nonblock)

universe u

section Model

def fDupfd : ℤ := 0
def fGetfd : ℤ := 1
def fSetfd : ℤ := 2
def fGetfl : ℤ := 3
def fSetfl : ℤ := 4
def fGetlk : ℤ := 5
def fSetlk : ℤ := 6
def fSetlkw : ℤ := 7
def fSetown : ℤ := 8
def fGetown : ℤ := 9

/-- What a call passes on behind the command. -/
inductive Param
  | none
  | int (param : BitVec 32)
  | pointer (param : BitVec 64)
  deriving DecidableEq

/-- A call of the `fcntl` behind the hook. -/
structure Underlying where
  fd : ℤ
  cmd : ℤ
  param : Param
  deriving DecidableEq

/-- The state of the kernel, the table of the contexts, and the underlying calls with their results. -/
structure Sys (κ : Type u) where
  kernel : κ
  fds : ℤ → Option FdCtx
  calls : List (Underlying × BitVec 32)

variable {κ : Type u} (real : κ → Underlying → BitVec 32 × κ) (enabled : Bool)

namespace Sys

variable (s : Sys κ)

/-- `_(fcntl)`. -/
def call (c : Underlying) : BitVec 32 × Sys κ :=
  ((real s.kernel c).1, ⟨(real s.kernel c).2, s.fds, s.calls ++ [(c, (real s.kernel c).1)]⟩)

def getFdCtx (fd : ℤ) : Option FdCtx :=
  if fd < 0 then none else (s.fds fd).filter fun ctx => ctx.type = 1

def setCtx (fd : ℤ) (ctx : Option FdCtx) : Sys κ := { s with fds := Function.update s.fds fd ctx }

def allocFdCtx (fd : ℤ) : Sys κ :=
  let s := s.setCtx fd (some {
    type := 1
    fd := fd
    userFlag := 0
    closed := false
    rcvTimeout := 1000
    sndTimeout := 1000
    domain := 0 })
  let (flags, s) := s.call real ⟨fd, fGetfl, .int 0⟩
  (s.call real ⟨fd, fSetfl, .int (flags ||| oNonblock)⟩).2

/-- The end of the branch of `F_DUPFD`, with the context `lp` of `fd`. -/
def copyCtx (lp : Option FdCtx) (ret : BitVec 32) : Sys κ :=
  match lp with
  | none => s
  | some lp =>
    if 0 ≤ ret.toInt ∧ enabled = true then
      let s := s.allocFdCtx real ret.toInt
      s.setCtx ret.toInt ((s.fds ret.toInt).map fun lp0 => { lp0 with
        domain := lp.domain
        rcvTimeout := lp.rcvTimeout
        sndTimeout := lp.sndTimeout
        userFlag := lp.userFlag })
    else s

end Sys

/-- `fcntl(fd, cmd, arg)` with at most `n` calls inside of each other. -/
@[grind =] def fcntl : ℕ → Sys κ → ℤ → ℤ → BitVec 64 → Option (BitVec 32 × Sys κ)
  | 0, _, _, _, _ => none
  | n + 1, s, fd, cmd, arg =>
    if fd < 0 then some (-1, s)
    else
      let lp := s.getFdCtx fd
      let param := arg.setWidth 32
      if cmd = fDupfd then
        -- without the underscore this is the hooked function once more
        match fcntl n s fd cmd (param.setWidth 64) with
        | none => none
        | some (ret, s) => some (ret, s.copyCtx real enabled lp ret)
      else if cmd = fGetfd then some (s.call real ⟨fd, cmd, .none⟩)
      else if cmd = fSetfd then some (s.call real ⟨fd, cmd, .int param⟩)
      else if cmd = fGetfl then
        let (ret, s) := s.call real ⟨fd, cmd, .none⟩
        match lp with
        | none => some (ret, s)
        | some lp =>
          if nonblock lp.userFlag = false ∧ nonblock ret = true then some (ret &&& ~~~oNonblock, s)
          else some (ret, s)
      else if cmd = fSetfl then
        let flag := if enabled && lp.isSome then param ||| oNonblock else param
        let (ret, s) := s.call real ⟨fd, cmd, .int flag⟩
        match lp with
        | none => some (ret, s)
        | some lp =>
          if ret = 0 then some (ret, s.setCtx fd (some { lp with userFlag := param })) else some (ret, s)
      else if cmd = fGetown then some (s.call real ⟨fd, cmd, .none⟩)
      else if cmd = fSetown then some (s.call real ⟨fd, cmd, .int param⟩)
      else if cmd = fGetlk then some (s.call real ⟨fd, cmd, .pointer arg⟩)
      else if cmd = fSetlk then some (s.call real ⟨fd, cmd, .pointer arg⟩)
      else if cmd = fSetlkw then some (s.call real ⟨fd, cmd, .pointer arg⟩)
      else some (-1, s)

end Model

section Specification

variable {κ : Type u} (real : κ → Underlying → BitVec 32 × κ) (enabled : Bool)

/-- What the underlying call is to be given: nothing, an `int`, or the argument as it is. -/
def passed (lp : Option FdCtx) (cmd : ℤ) (arg : BitVec 64) : Param :=
  if cmd ∈ [fGetfd, fGetfl, fGetown] then .none
  else if cmd ∈ [fDupfd, fSetfd, fSetown] then .int (arg.setWidth 32)
  else if cmd = fSetfl then
    .int (if enabled && lp.isSome then arg.setWidth 32 ||| oNonblock else arg.setWidth 32)
  else .pointer arg

/-- What the application is to see of the result of the underlying call: the flags without `O_NONBLOCK`,
unless it has set it itself. -/
def shown (lp : Option FdCtx) (cmd : ℤ) (ret : BitVec 32) : BitVec 32 :=
  match lp with
  | some lp =>
    if cmd = fGetfl ∧ ret ≠ -1 ∧ nonblock lp.userFlag = false then ret &&& ~~~oNonblock else ret
  | none => ret

/-- A copy of a descriptor keeps what its context says. -/
structure Kept (lp lp0 : FdCtx) : Prop where
  domain : lp0.domain = lp.domain
  rcvTimeout : lp0.rcvTimeout = lp.rcvTimeout
  sndTimeout : lp0.sndTimeout = lp.sndTimeout
  userFlag : lp0.userFlag = lp.userFlag

/-- The call comes back, has made one underlying call with its command, and returns its result; a new
descriptor has the context of the old one. -/
def Meets (s : Sys κ) (fd cmd : ℤ) (arg : BitVec 64) : Prop :=
  ∃ n ret s', fcntl real enabled n s fd cmd arg = some (ret, s') ∧
    (∃ calls r, s'.calls = s.calls ++ calls ∧
      calls.filter (fun c => c.1.cmd = cmd) =
        [(⟨fd, cmd, passed enabled (s.getFdCtx fd) cmd arg⟩, r)] ∧
      ret = shown (s.getFdCtx fd) cmd r) ∧
    (cmd = fDupfd → 0 ≤ ret.toInt → ∀ lp, s.getFdCtx fd = some lp →
      ∃ lp0, s'.getFdCtx ret.toInt = some lp0 ∧ Kept lp lp0)

def forwarded : List ℤ := [fGetfd, fSetfd, fGetfl, fSetfl, fGetown, fSetown, fGetlk, fSetlk, fSetlkw]

/-- A command that is passed on, for a descriptor. `F_GETFL` does not fail, where `O_NONBLOCK` is hidden. -/
structure Served (s : Sys κ) (fd cmd : ℤ) : Prop where
  nonneg : 0 ≤ fd
  forwarded : cmd ∈ forwarded
  succeeds : cmd = fGetfl → ∀ lp, s.getFdCtx fd = some lp → nonblock lp.userFlag = false →
    (real s.kernel ⟨fd, fGetfl, .none⟩).1 ≠ -1

end Specification

section Conform

variable {κ : Type u} {real : κ → Underlying → BitVec 32 × κ} {enabled : Bool} {s s' : Sys κ} {fd cmd : ℤ}
  {arg : BitVec 64} {ret r : BitVec 32}

theorem dupfd_endless (nonneg : 0 ≤ fd) (n : ℕ) : fcntl real enabled n s fd fDupfd arg = none := by
  induction n generalizing arg with
  | zero => rfl
  | succ n ih => rw [fcntl, if_neg (by omega), if_pos rfl, ih]

theorem negative_silent {n : ℕ} (negative : fd < 0) (runs : fcntl real enabled n s fd cmd arg = some (ret, s')) :
    s' = s := by
  cases n with
  | zero => cases runs
  | succ n =>
    rw [fcntl, if_pos negative] at runs
    cases runs
    rfl

theorem unlisted_silent {n : ℕ} (nonneg : 0 ≤ fd) (unlisted : cmd ∉ forwarded)
    (runs : fcntl real enabled n s fd cmd arg = some (ret, s')) : s' = s := by
  by_cases copy : cmd = fDupfd
  · rw [copy, dupfd_endless nonneg] at runs
    cases runs
  · simp only [forwarded, List.mem_cons, List.not_mem_nil, or_false, not_or] at unlisted
    cases n with
    | zero => cases runs
    | succ n =>
      rw [fcntl, if_neg (by omega)] at runs
      simp only [copy, unlisted, if_false] at runs
      cases runs
      rfl

/-- A call that makes one underlying call, as it is to be. -/
theorem Meets.of_call (ne : cmd ≠ fDupfd) (runs : fcntl real enabled 1 s fd cmd arg = some (ret, s'))
    (calls : s'.calls = s.calls ++ [(⟨fd, cmd, passed enabled (s.getFdCtx fd) cmd arg⟩, r)])
    (eq : ret = shown (s.getFdCtx fd) cmd r) : Meets real enabled s fd cmd arg := by
  refine ⟨1, ret, s', runs, ⟨_, r, calls, ?_, eq⟩, fun copy => absurd copy ne⟩
  rw [List.filter_cons_of_pos (by simp), List.filter_nil]

theorem shown_of_ne (ne : cmd ≠ fGetfl) (lp : Option FdCtx) (r : BitVec 32) : shown lp cmd r = r := by
  cases lp with
  | none => rfl
  | some lp => exact if_neg fun h => ne h.1

theorem and_not_of_blocking (blocking : nonblock r = false) : r &&& ~~~oNonblock = r := by
  have clear : r &&& oNonblock = 0 := by simpa [nonblock] using blocking
  ext i lt
  have bit := congrArg (fun x : BitVec 32 => x.getLsbD i) clear
  simp only [BitVec.getLsbD_and, BitVec.ofNat_eq_ofNat, BitVec.getLsbD_zero] at bit
  rw [← BitVec.getLsbD_eq_getElem, ← BitVec.getLsbD_eq_getElem, BitVec.getLsbD_and, BitVec.getLsbD_not]
  cases low : r.getLsbD i
  · rfl
  · rw [low, Bool.true_and] at bit
    rw [bit, decide_eq_true lt]
    rfl

/-- What `F_GETFL` makes of the result of its underlying call. -/
theorem getFl_runs (nonneg : 0 ≤ fd) (n : ℕ) : ∃ ret, fcntl real enabled (n + 1) s fd fGetfl arg =
      some (ret, (s.call real ⟨fd, fGetfl, .none⟩).2) ∧
    (ret = shown (s.getFdCtx fd) fGetfl (real s.kernel ⟨fd, fGetfl, .none⟩).1 ↔
      ∀ lp, s.getFdCtx fd = some lp → nonblock lp.userFlag = false →
        (real s.kernel ⟨fd, fGetfl, .none⟩).1 ≠ -1) := by
  have runs : fcntl real enabled (n + 1) s fd fGetfl arg =
      match s.getFdCtx fd with
      | none => some (s.call real ⟨fd, fGetfl, .none⟩)
      | some lp =>
        if nonblock lp.userFlag = false ∧ nonblock (real s.kernel ⟨fd, fGetfl, .none⟩).1 = true then
          some ((real s.kernel ⟨fd, fGetfl, .none⟩).1 &&& ~~~oNonblock, (s.call real ⟨fd, fGetfl, .none⟩).2)
        else some (s.call real ⟨fd, fGetfl, .none⟩) := by
    rw [fcntl, if_neg (by omega)]
    rfl
  have call : s.call real ⟨fd, fGetfl, .none⟩ =
    ((real s.kernel ⟨fd, fGetfl, .none⟩).1, (s.call real ⟨fd, fGetfl, .none⟩).2) := rfl
  rw [call] at runs
  revert runs
  generalize (real s.kernel ⟨fd, fGetfl, .none⟩).1 = r
  intro runs
  rw [runs]
  cases s.getFdCtx fd with
  | none => exact ⟨r, rfl, iff_of_true rfl fun lp has => by cases has⟩
  | some lp =>
    simp only [shown, true_and, Option.some.injEq, forall_eq']
    cases user : nonblock lp.userFlag with
    | true => exact ⟨r, by simp, by simp⟩
    | false =>
      cases shows : nonblock r with
      | false =>
        have succeeds : r ≠ -1 := by
          rintro rfl
          exact absurd shows (by decide)
        refine ⟨r, by simp, iff_of_true ?_ fun _ => succeeds⟩
        rw [if_pos ⟨succeeds, rfl⟩, and_not_of_blocking shows]
      | true =>
        refine ⟨r &&& ~~~oNonblock, by simp, ?_⟩
        by_cases failed : r = -1
        · rw [if_neg fun h => h.1 failed, failed]
          exact iff_of_false (by decide) fun succeeds => succeeds rfl rfl
        · rw [if_pos ⟨failed, rfl⟩]
          exact iff_of_true rfl fun _ => failed

theorem meets_setFl (nonneg : 0 ≤ fd) : Meets real enabled s fd fSetfl arg := by
  cases has : s.getFdCtx fd with
  | none =>
    have runs : fcntl real enabled 1 s fd fSetfl arg =
        some (s.call real ⟨fd, fSetfl, passed enabled none fSetfl arg⟩) := by
      rw [fcntl, if_neg (by omega), has]
      rfl
    refine .of_call (by decide) runs ?_ (shown_of_ne (by decide) _ _).symm
    rw [has]
  | some lp =>
    obtain ⟨s', runs, calls⟩ : ∃ s', fcntl real enabled 1 s fd fSetfl arg =
        some ((real s.kernel ⟨fd, fSetfl, passed enabled (some lp) fSetfl arg⟩).1, s') ∧
          s'.calls = (s.call real ⟨fd, fSetfl, passed enabled (some lp) fSetfl arg⟩).2.calls := by
      rw [fcntl, if_neg (by omega), has]
      by_cases done : (real s.kernel ⟨fd, fSetfl, passed enabled (some lp) fSetfl arg⟩).1 = 0
      · exact ⟨_, if_pos done, rfl⟩
      · exact ⟨_, if_neg done, rfl⟩
    refine .of_call (by decide) runs ?_ (shown_of_ne (by decide) _ _).symm
    rw [has, calls]
    rfl

theorem meets_of_served (served : Served real s fd cmd) : Meets real enabled s fd cmd arg := by
  have nonneg := served.nonneg
  have listed := served.forwarded
  simp only [forwarded, List.mem_cons, List.not_mem_nil, or_false] at listed
  by_cases get : cmd = fGetfl
  · subst get
    obtain ⟨ret, runs, shows⟩ := @getFl_runs κ real enabled s fd arg nonneg 0
    exact .of_call (by decide) runs rfl (shows.mpr (served.succeeds rfl))
  · by_cases set : cmd = fSetfl
    · subst set
      exact meets_setFl nonneg
    · have ne : cmd ≠ fDupfd := by
        rintro rfl
        revert listed
        decide
      have runs : fcntl real enabled 1 s fd cmd arg =
          some (s.call real ⟨fd, cmd, passed enabled (s.getFdCtx fd) cmd arg⟩) := by
        rw [fcntl, if_neg (by omega)]
        rcases listed with rfl | rfl | rfl | rfl | rfl | rfl | rfl | rfl | rfl <;> first | rfl | contradiction
      exact .of_call ne runs rfl (shown_of_ne get _ _).symm

theorem served_of_meets (meets : Meets real enabled s fd cmd arg) : Served real s fd cmd := by
  obtain ⟨n, ret, s', runs, ⟨calls, r, added, filtered, shows⟩, -⟩ := meets
  have loud : s' ≠ s := by
    rintro rfl
    rw [List.self_eq_append_right] at added
    rw [added] at filtered
    cases filtered
  have nonneg : 0 ≤ fd := by
    by_contra negative
    exact loud (negative_silent (by omega) runs)
  have listed : cmd ∈ forwarded := by
    by_contra unlisted
    exact loud (unlisted_silent nonneg unlisted runs)
  refine ⟨nonneg, listed, ?_⟩
  rintro rfl
  cases n with
  | zero => cases runs
  | succ n =>
    obtain ⟨ret', runs', succeeds⟩ := @getFl_runs κ real enabled s fd arg nonneg n
    cases runs.symm.trans runs'
    have call : calls = [(⟨fd, fGetfl, .none⟩, (real s.kernel ⟨fd, fGetfl, .none⟩).1)] :=
      (List.append_cancel_left added).symm
    rw [call] at filtered
    cases filtered
    exact succeeds.mp shows

end Conform

section Main

variable {κ : Type u}

/-- The hooked `fcntl` does what it is to do exactly for a descriptor that is not negative and a command that
it passes on, unless `F_GETFL` fails where it hides a flag. -/
theorem fcntl_meets_iff (real : κ → Underlying → BitVec 32 × κ) (enabled : Bool) (s : Sys κ) (fd cmd : ℤ)
    (arg : BitVec 64) : Meets real enabled s fd cmd arg ↔ Served real s fd cmd :=
  ⟨served_of_meets, meets_of_served⟩

/-- `fcntl(3, F_DUPFD, 10)` does not come back. -/
theorem not_duplicated : ¬ Meets (fun _ _ => (10, ())) true ⟨(), fun _ => none, []⟩ 3 fDupfd 10 := by
  intro meets
  have listed := (served_of_meets meets).forwarded
  exact absurd listed (by decide)

end Main

end Conet.Core.HookFcntl
