/- Module: Conet/Core/SocketHook
   source: core/src/network_hook.cpp
   digest: The hooked calls that receive and send, with one wait between two attempts. -/

import Conet.Core.FdMode
import Mathlib.Algebra.Group.Int.Defs
import Mathlib.Algebra.Group.Nat.Defs

set_option autoImplicit false
set_option relaxedAutoImplicit false

namespace Conet.Core.SocketHook

open Conet.Core.FdMode

section Calls

def eintr : ℤ := 4

def eagain : ℤ := 11

def etimedout : ℤ := 110

/-- How a system call ends: with what it transfers, which is at most 0x7ffff000 bytes, or a new
descriptor; or with -1 and an `errno`. -/
inductive Answer
  | ok (n : ℕ) (small : n ≤ 0x7ffff000)
  | fail (errno : ℤ)
  deriving DecidableEq

namespace Answer

def ret : Answer → ℤ
  | ok n _ => n
  | fail _ => -1

/-- `errno` after a call, before which it was `before`. -/
def errno (before : ℤ) : Answer → ℤ
  | ok _ _ => before
  | fail e => e

end Answer

/-- The bits of `revents` that are looked at. -/
structure Revents where
  pollin : Bool
  pollerr : Bool
  pollhup : Bool
  deriving DecidableEq

/-- How `co_poll` ends, and `errno` then. -/
inductive Polled
  | timeout (errno : ℤ)
  | fails (errno : ℤ)
  | ready (revents : Revents) (errno : ℤ)
  deriving DecidableEq

/-- What a hook finds: whether it is enabled, the context of the descriptor, whether the flags have
`MSG_DONTWAIT`, and `errno`; the answer of the system call when the hook begins, how `co_poll` ends,
the answer of the system call after that, and what `disk_read` and its like return. -/
structure Env where
  enabled : Bool
  ctx : Option FdCtx
  dontwait : Bool
  errno : ℤ
  now : Answer
  polled : Polled
  later : Answer
  disk : Answer

/-- A hook has returned: its value, `errno`, the answers of the system calls that it has made, the
last one last, and whether it has called `co_poll`. -/
structure Result where
  ret : ℤ
  errno : ℤ
  made : List Answer
  waited : Bool
  deriving DecidableEq

/-- A return after `co_poll`, with the answers of the calls before it. -/
def gaveUp (made : List Answer) (ret errno : ℤ) : Result := ⟨ret, errno, made, true⟩

namespace Env

variable (env : Env)

def direct : Result := ⟨env.now.ret, env.now.errno env.errno, [env.now], false⟩

/-- `disk_read`, `disk_write`, `disk_readv` and `disk_writev`. -/
def onDisk : Result := ⟨env.disk.ret, env.disk.errno env.errno, [env.disk], false⟩

/-- The second attempt, with `errno` as `co_poll` leaves it. -/
def again (made : List Answer) (errno : ℤ) : Result :=
  ⟨env.later.ret, env.later.errno errno, made ++ [env.later], true⟩

end Env

end Calls

/-! ### Receiving -/

section Receive

variable (env : Env)

/-- The test of `errno` after the first `read` is true for every `errno`. -/
def read : Result :=
  if env.enabled = false then env.direct
  else
    match env.ctx with
    | none => env.direct
    | some lp =>
      if nonblock lp.userFlag then env.direct
      else if lp.type = 2 then env.onDisk
      else
        match env.now with
        | .ok _ _ => env.direct
        | .fail errno =>
          if errno ≠ eagain ∨ errno ≠ eintr then env.direct
          else
            match env.polled with
            | .timeout _ => gaveUp [env.now] (-1) etimedout
            | .fails errno => gaveUp [env.now] (-1) errno
            | .ready revents errno =>
              if revents.pollerr then gaveUp [env.now] (-1) errno
              else if revents.pollhup then gaveUp [env.now] 0 errno
              else env.again [env.now] errno

/-- `ret` is an `int` here. -/
def readv : Result :=
  if env.enabled = false then env.direct
  else
    match env.ctx with
    | none => env.direct
    | some ctx =>
      if nonblock ctx.userFlag then env.direct
      else if ctx.type = 2 then env.onDisk
      else
        match env.polled with
        | .timeout errno => gaveUp [] (-1) errno
        | .fails errno => gaveUp [] (-1) errno
        | .ready revents errno =>
          if revents.pollerr then gaveUp [] (-1) errno
          else if revents.pollhup then gaveUp [] 0 errno
          else
            let r := env.again [] errno
            { r with ret := r.ret.bmod (2 ^ 32) }

/-- `get_fd_ctx(fd)` finds a context of the socket type. -/
def socketCtx : Option FdCtx := env.ctx.filter fun lp => lp.type = 1

def recvfrom : Result :=
  if env.enabled = false then env.direct
  else
    match socketCtx env with
    | none => env.direct
    | some lp =>
      if nonblock lp.userFlag || env.dontwait then env.direct
      else
        match env.polled with
        | .timeout _ => gaveUp [] (-1) etimedout
        | .fails errno => gaveUp [] (-1) errno
        | .ready revents errno =>
          if revents.pollin then env.again [] errno
          else if revents.pollerr then gaveUp [] (-1) errno
          else gaveUp [] 0 errno

def recv : Result :=
  if env.enabled = false then env.direct
  else
    match socketCtx env with
    | none => env.direct
    | some lp =>
      if nonblock lp.userFlag || env.dontwait then env.direct
      else
        match env.now with
        | .ok _ _ => env.direct
        | .fail errno =>
          if errno ≠ eagain then env.direct
          else
            match env.polled with
            | .timeout _ => gaveUp [env.now] (-1) etimedout
            | .fails errno => gaveUp [env.now] (-1) errno
            | .ready revents errno =>
              if revents.pollin then env.again [env.now] errno
              else if revents.pollerr then gaveUp [env.now] (-1) errno
              else gaveUp [env.now] 0 errno

/-- Its wait has no timeout. The context of the new descriptor is left out here. -/
def accept4 : Result :=
  if env.enabled = false then env.direct
  else
    match socketCtx env with
    | none => env.direct
    | some lp =>
      if nonblock lp.userFlag then env.direct
      else
        match env.polled with
        | .timeout _ => gaveUp [] (-1) etimedout
        | .fails errno => gaveUp [] (-1) errno
        | .ready revents errno =>
          if revents.pollerr then gaveUp [] (-1) errno
          else if revents.pollhup then gaveUp [] (-1) errno
          else env.again [] errno

inductive Receive
  | read
  | readv
  | recv
  | recvfrom
  | accept4
  deriving DecidableEq

def Receive.run : Receive → Env → Result
  | read => SocketHook.read
  | readv => SocketHook.readv
  | recv => SocketHook.recv
  | recvfrom => SocketHook.recvfrom
  | accept4 => SocketHook.accept4

/-- The descriptor is a socket that the application takes for blocking. -/
structure Env.Blocking (env : Env) : Prop where
  enabled : env.enabled = true
  waits : env.dontwait = false
  ctx : ∃ lp, env.ctx = some lp ∧ lp.type = 1 ∧ nonblock lp.userFlag = false

/-- While the hook waits, something can be read. -/
def Env.Pollin (env : Env) : Prop :=
  ∃ revents errno, env.polled = .ready revents errno ∧ revents.pollin = true

/-- Data, or a connection, is there when the hook begins; the end of the file is no data. -/
def Receive.Finds (call : Receive) (env : Env) (n : ℕ) : Prop :=
  (∃ small, env.now = .ok n small) ∧ (0 < n ∨ call = .accept4)

/-- What a blocking call would do, if data is there when it begins or comes before the timeout. -/
structure Emulates (call : Receive) (env : Env) (r : Result) : Prop where
  result : (∃ n, call.Finds env n) ∨ env.Pollin → ∃ a ∈ r.made, a ≠ .fail eagain ∧ r.ret = a.ret ∧
    ∀ e, a = .fail e → r.errno = e
  noEagain : ¬ (r.ret = -1 ∧ r.errno = eagain)
  atOnce : ∀ n, call.Finds env n → r.waited = false ∧ r.ret = n
  dataFirst : env.Pollin → r.ret = 0 → ∃ a ∈ r.made, a.ret = 0

def Receive.Needs (env : Env) : Receive → Prop
  | read => env.now ≠ .fail eagain
  | readv => (∀ n, ¬ Receive.readv.Finds env n) ∧
    match env.polled with
    | .timeout e => e ≠ eagain
    | .fails e => e ≠ eagain
    | .ready revents e =>
      if revents.pollerr then revents.pollin = false ∧ e ≠ eagain
      else if revents.pollhup then revents.pollin = false
      else env.later ≠ .fail eagain
  | recv => env.now = .fail eagain →
    match env.polled with
    | .timeout _ => True
    | .fails e => e ≠ eagain
    | .ready revents e =>
      if revents.pollin then env.later ≠ .fail eagain else revents.pollerr = true → e ≠ eagain
  | recvfrom => (∀ n, ¬ Receive.recvfrom.Finds env n) ∧
    match env.polled with
    | .timeout _ => True
    | .fails e => e ≠ eagain
    | .ready revents e =>
      if revents.pollin then env.later ≠ .fail eagain else revents.pollerr = true → e ≠ eagain
  | accept4 => (∀ n, ¬ Receive.accept4.Finds env n) ∧
    match env.polled with
    | .timeout _ => True
    | .fails e => e ≠ eagain
    | .ready revents e =>
      if revents.pollerr || revents.pollhup then revents.pollin = false ∧ e ≠ eagain
      else env.later ≠ .fail eagain

end Receive

section Emulation

variable {call : Receive} {env : Env} {made : List Answer} {ret errno : ℤ}

theorem Answer.ret_bmod (a : Answer) : a.ret.bmod (2 ^ 32) = a.ret := by
  cases a with
  | ok n small =>
    rw [Answer.ret]
    apply Int.bmod_eq_of_le <;> omega
  | fail e => exact show (-1 : ℤ).bmod (2 ^ 32) = -1 by decide

theorem emulates_direct : Emulates call env env.direct ↔ env.now ≠ .fail eagain := by
  constructor
  · intro emulates same
    apply emulates.noEagain
    simp [Env.direct, same, Answer.ret, Answer.errno]
  · intro other
    refine ⟨fun _ => ⟨env.now, List.mem_singleton.mpr rfl, other, rfl, ?_⟩, ?_, ?_, ?_⟩
    · intro e fails
      simp [Env.direct, fails, Answer.errno]
    · rintro ⟨fails, same⟩
      apply other
      cases now : env.now with
      | ok n small =>
        simp only [Env.direct, now, Answer.ret] at fails
        omega
      | fail e =>
        simp only [Env.direct, now, Answer.errno] at same
        rw [same]
    · intro n finds
      obtain ⟨⟨small, now⟩, -⟩ := finds
      simp [Env.direct, now, Answer.ret]
    · intro _ zero
      exact ⟨env.now, List.mem_singleton.mpr rfl, zero⟩

theorem finds_none {e : ℤ} (now : env.now = .fail e) (n : ℕ) : ¬ call.Finds env n := by
  intro finds
  obtain ⟨⟨small, same⟩, -⟩ := finds
  exact absurd (now.symm.trans same) (by simp)

theorem finds_none_of_waited {r : Result} (emulates : Emulates call env r)
    (waited : r.waited = true) (n : ℕ) : ¬ call.Finds env n := by
  intro finds
  exact absurd ((emulates.atOnce n finds).1.symm.trans waited) (by decide)

theorem emulates_gaveUp (empty : ∀ n, ¬ call.Finds env n) (old : ∀ a ∈ made, a = .fail eagain) :
    Emulates call env (gaveUp made ret errno) ↔ ¬ env.Pollin ∧ ¬ (ret = -1 ∧ errno = eagain) := by
  constructor
  · intro emulates
    refine ⟨fun pollin => ?_, emulates.noEagain⟩
    obtain ⟨a, mem, other, -⟩ := emulates.result (.inr pollin)
    exact other (old a mem)
  · rintro ⟨nothing, noEagain⟩
    refine ⟨?_, noEagain, fun n finds => absurd finds (empty n), fun pollin => absurd pollin nothing⟩
    rintro (⟨n, finds⟩ | pollin)
    · exact absurd finds (empty n)
    · exact absurd pollin nothing

theorem emulates_again (empty : ∀ n, ¬ call.Finds env n) :
    Emulates call env (env.again made errno) ↔ env.later ≠ .fail eagain := by
  have last : env.later ∈ made ++ [env.later] := by simp
  constructor
  · intro emulates same
    apply emulates.noEagain
    simp [Env.again, same, Answer.ret, Answer.errno]
  · intro other
    refine ⟨fun _ => ⟨env.later, last, other, rfl, ?_⟩, ?_, ?_, fun _ zero => ⟨env.later, last, zero⟩⟩
    · intro e fails
      simp [Env.again, fails, Answer.errno]
    · rintro ⟨minus, same⟩
      apply other
      cases later : env.later with
      | ok n small =>
        simp only [Env.again, later, Answer.ret] at minus
        omega
      | fail e =>
        simp only [Env.again, later, Answer.errno] at same
        rw [same]
    · intro n finds
      exact absurd finds (empty n)

theorem pollin_iff {revents : Revents} {e : ℤ} (polled : env.polled = .ready revents e) :
    env.Pollin ↔ revents.pollin = true := by
  simp [Env.Pollin, polled]

theorem not_pollin (idle : ∀ revents e, env.polled ≠ .ready revents e) : ¬ env.Pollin := by
  rintro ⟨revents, e, polled, -⟩
  exact idle revents e polled

/-- A wait that fails reports the `errno` of `co_poll`. -/
theorem emulates_fails {e : ℤ} (empty : ∀ n, ¬ call.Finds env n) (old : ∀ a ∈ made, a = .fail eagain)
    (idle : ∀ revents e, env.polled ≠ .ready revents e) :
    Emulates call env (gaveUp made (-1) e) ↔ e ≠ eagain := by
  rw [emulates_gaveUp empty old]
  simp [not_pollin idle]

theorem emulates_timeout (empty : ∀ n, ¬ call.Finds env n) (old : ∀ a ∈ made, a = .fail eagain)
    (idle : ∀ revents e, env.polled ≠ .ready revents e) :
    Emulates call env (gaveUp made (-1) etimedout) := by
  rw [emulates_fails empty old idle]
  decide

theorem Env.Blocking.socketCtx (blocking : env.Blocking) :
    ∃ lp, socketCtx env = some lp ∧ nonblock lp.userFlag = false := by
  obtain ⟨lp, ctx, type, mode⟩ := blocking.ctx
  exact ⟨lp, by simp [SocketHook.socketCtx, ctx, type], mode⟩

theorem read_blocking (blocking : env.Blocking) : read env = env.direct := by
  obtain ⟨lp, ctx, type, mode⟩ := blocking.ctx
  have two : (1 : ℤ) ≠ 2 := by decide
  simp only [read, blocking.enabled, ctx, mode, type, two, if_false, Bool.true_eq_false,
    Bool.false_eq_true]
  cases now : env.now with
  | ok n small => rfl
  | fail e =>
    by_cases same : e = eagain
    · subst same
      exact if_pos (.inr (by decide))
    · exact if_pos (.inl same)

/-- `recv` and `recvfrom` from `co_poll` on. -/
def polledFirst (env : Env) (made : List Answer) : Result :=
  match env.polled with
  | .timeout _ => gaveUp made (-1) etimedout
  | .fails errno => gaveUp made (-1) errno
  | .ready revents errno =>
    if revents.pollin then env.again made errno
    else if revents.pollerr then gaveUp made (-1) errno
    else gaveUp made 0 errno

theorem emulates_polledFirst (empty : ∀ n, ¬ call.Finds env n)
    (old : ∀ a ∈ made, a = .fail eagain) : Emulates call env (polledFirst env made) ↔
      match env.polled with
      | .timeout _ => True
      | .fails e => e ≠ eagain
      | .ready revents e =>
        if revents.pollin then env.later ≠ .fail eagain else revents.pollerr = true → e ≠ eagain := by
  unfold polledFirst
  cases polled : env.polled with
  | timeout e => exact iff_of_true (emulates_timeout empty old (by simp [polled])) trivial
  | fails e => exact emulates_fails empty old (by simp [polled])
  | ready revents e =>
    dsimp only
    by_cases pollin : revents.pollin = true
    · rw [if_pos pollin, if_pos pollin]
      exact emulates_again empty
    · rw [if_neg pollin, if_neg pollin]
      by_cases pollerr : revents.pollerr = true
      · rw [if_pos pollerr, emulates_gaveUp empty old, pollin_iff polled]
        simp [pollin, pollerr]
      · rw [if_neg pollerr, emulates_gaveUp empty old, pollin_iff polled]
        simp [pollin, pollerr]

theorem recv_blocking (blocking : env.Blocking) :
    recv env = if env.now = .fail eagain then polledFirst env [env.now] else env.direct := by
  obtain ⟨lp, ctx, mode⟩ := blocking.socketCtx
  simp only [recv, blocking.enabled, ctx, mode, blocking.waits, if_false, Bool.true_eq_false,
    Bool.or_self, Bool.false_eq_true]
  cases now : env.now with
  | ok n small => rfl
  | fail e =>
    by_cases same : e = eagain
    · simp only [same, ne_eq, not_true_eq_false, if_false, if_true]
      rfl
    · simp [same]

theorem recvfrom_blocking (blocking : env.Blocking) : recvfrom env = polledFirst env [] := by
  obtain ⟨lp, ctx, mode⟩ := blocking.socketCtx
  simp only [recvfrom, blocking.enabled, ctx, mode, blocking.waits, if_false, Bool.true_eq_false,
    Bool.or_self, Bool.false_eq_true]
  rfl

theorem emulates_iff_of_waited {r : Result} {p : Prop} (waited : r.waited = true)
    (rest : (∀ n, ¬ call.Finds env n) → (Emulates call env r ↔ p)) :
    Emulates call env r ↔ (∀ n, ¬ call.Finds env n) ∧ p := by
  constructor
  · intro emulates
    have empty := finds_none_of_waited emulates waited
    exact ⟨empty, (rest empty).mp emulates⟩
  · rintro ⟨empty, holds⟩
    exact (rest empty).mpr holds

/-- `readv` from `co_poll` on. -/
def readvPolled (env : Env) : Result :=
  match env.polled with
  | .timeout errno => gaveUp [] (-1) errno
  | .fails errno => gaveUp [] (-1) errno
  | .ready revents errno =>
    if revents.pollerr then gaveUp [] (-1) errno
    else if revents.pollhup then gaveUp [] 0 errno
    else env.again [] errno

theorem readv_blocking (blocking : env.Blocking) : readv env = readvPolled env := by
  obtain ⟨lp, ctx, type, mode⟩ := blocking.ctx
  have two : (1 : ℤ) ≠ 2 := by decide
  have whole (errno : ℤ) :
      { env.again [] errno with ret := (env.again [] errno).ret.bmod (2 ^ 32) } =
        env.again [] errno := by
    rw [Env.again, Answer.ret_bmod]
  simp only [readv, blocking.enabled, ctx, mode, type, two, if_false, Bool.true_eq_false,
    Bool.false_eq_true, whole]
  rfl

theorem emulates_readv (env : Env) :
    Emulates .readv env (readvPolled env) ↔ Receive.Needs env .readv := by
  have waited : (readvPolled env).waited = true := by
    unfold readvPolled
    split
    · rfl
    · rfl
    · split_ifs <;> rfl
  refine emulates_iff_of_waited waited fun empty => ?_
  unfold readvPolled
  cases polled : env.polled with
  | timeout e => exact emulates_fails empty (by simp) (by simp [polled])
  | fails e => exact emulates_fails empty (by simp) (by simp [polled])
  | ready revents e =>
    dsimp only
    by_cases pollerr : revents.pollerr = true
    · rw [if_pos pollerr, if_pos pollerr, emulates_gaveUp empty (by simp), pollin_iff polled]
      simp
    · rw [if_neg pollerr, if_neg pollerr]
      by_cases pollhup : revents.pollhup = true
      · rw [if_pos pollhup, if_pos pollhup, emulates_gaveUp empty (by simp), pollin_iff polled]
        simp
      · rw [if_neg pollhup, if_neg pollhup]
        exact emulates_again empty

/-- `accept4` from `co_poll` on. -/
def accept4Polled (env : Env) : Result :=
  match env.polled with
  | .timeout _ => gaveUp [] (-1) etimedout
  | .fails errno => gaveUp [] (-1) errno
  | .ready revents errno =>
    if revents.pollerr then gaveUp [] (-1) errno
    else if revents.pollhup then gaveUp [] (-1) errno
    else env.again [] errno

theorem accept4_blocking (blocking : env.Blocking) : accept4 env = accept4Polled env := by
  obtain ⟨lp, ctx, mode⟩ := blocking.socketCtx
  simp only [accept4, blocking.enabled, ctx, mode, if_false, Bool.true_eq_false, Bool.false_eq_true]
  rfl

theorem emulates_accept4 (env : Env) :
    Emulates .accept4 env (accept4Polled env) ↔ Receive.Needs env .accept4 := by
  have waited : (accept4Polled env).waited = true := by
    unfold accept4Polled
    split
    · rfl
    · rfl
    · split_ifs <;> rfl
  refine emulates_iff_of_waited waited fun empty => ?_
  unfold accept4Polled
  cases polled : env.polled with
  | timeout e => exact iff_of_true (emulates_timeout empty (by simp) (by simp [polled])) trivial
  | fails e => exact emulates_fails empty (by simp) (by simp [polled])
  | ready revents e =>
    dsimp only
    by_cases pollerr : revents.pollerr = true
    · rw [if_pos pollerr, if_pos (by simp [pollerr]), emulates_gaveUp empty (by simp),
        pollin_iff polled]
      simp
    · rw [if_neg pollerr]
      by_cases pollhup : revents.pollhup = true
      · rw [if_pos pollhup, if_pos (by simp [pollhup]), emulates_gaveUp empty (by simp),
          pollin_iff polled]
        simp
      · rw [if_neg pollhup, if_neg (by simp [pollerr, pollhup])]
        exact emulates_again empty

theorem emulates_recv (blocking : env.Blocking) :
    Emulates .recv env (recv env) ↔ Receive.Needs env .recv := by
  rw [recv_blocking blocking, Receive.Needs]
  by_cases full : env.now = .fail eagain
  · rw [if_pos full, emulates_polledFirst (finds_none full) (by simp [full])]
    exact ⟨fun holds _ => holds, fun holds => holds full⟩
  · rw [if_neg full, emulates_direct]
    exact iff_of_true full fun same => absurd same full

theorem emulates_recvfrom (blocking : env.Blocking) :
    Emulates .recvfrom env (recvfrom env) ↔ Receive.Needs env .recvfrom := by
  rw [recvfrom_blocking blocking]
  refine emulates_iff_of_waited ?_ fun empty => emulates_polledFirst empty (by simp)
  unfold polledFirst
  split
  · rfl
  · rfl
  · split_ifs <;> rfl

end Emulation

/-- When each of the hooks does what a blocking call would do. -/
theorem receive_emulates_iff (call : Receive) (env : Env) (blocking : env.Blocking) :
    Emulates call env (call.run env) ↔ call.Needs env := by
  cases call with
  | read =>
    rw [Receive.run, read_blocking blocking]
    exact emulates_direct
  | readv =>
    rw [Receive.run, readv_blocking blocking]
    exact emulates_readv env
  | recv => exact emulates_recv blocking
  | recvfrom => exact emulates_recvfrom blocking
  | accept4 =>
    rw [Receive.run, accept4_blocking blocking]
    exact emulates_accept4 env

/-- The context that `socket` makes. -/
def socketFd : FdCtx := ⟨1, 3, 0, false, 1000, 1000, 2⟩

/-- Nothing is there when a hook begins; ten bytes come while it waits. -/
def lateData : Env where
  enabled := true
  ctx := some socketFd
  dontwait := false
  errno := 0
  now := .fail eagain
  polled := .ready ⟨true, false, false⟩ eagain
  later := .ok 10 (by decide)
  disk := .fail 0

theorem lateData_blocking : lateData.Blocking := ⟨rfl, rfl, socketFd, rfl, rfl, by decide⟩

theorem recv_emulates_late : Emulates .recv lateData (recv lateData) :=
  (receive_emulates_iff .recv lateData lateData_blocking).mpr fun _ =>
    show lateData.later ≠ .fail eagain by decide

/-- `read` does not wait for them. -/
theorem read_not_blocking : ¬ ∀ (call : Receive) (env : Env), env.Blocking →
    Emulates call env (call.run env) := by
  intro claim
  exact (claim .read lateData lateData_blocking).noEagain (by decide)

/-! ### Sending -/

section Send

variable (env : Env)

def write : Result :=
  if env.enabled = false then env.direct
  else
    match env.ctx with
    | none => env.direct
    | some lp =>
      if nonblock lp.userFlag then env.direct
      else if lp.type = 2 then env.onDisk
      else
        match env.now with
        | .ok _ _ => env.direct
        | .fail errno =>
          if errno ≠ eagain then env.direct
          else
            match env.polled with
            | .timeout _ => gaveUp [env.now] (-1) etimedout
            | .fails errno => gaveUp [env.now] (-1) errno
            | .ready revents errno =>
              if revents.pollerr then gaveUp [env.now] (-1) errno
              else if revents.pollhup then gaveUp [env.now] 0 errno
              else env.again [env.now] errno

def writev : Result :=
  if env.enabled = false then env.direct
  else
    match env.ctx with
    | none => env.direct
    | some ctx =>
      if nonblock ctx.userFlag then env.direct
      else if ctx.type = 2 then env.onDisk
      else
        match env.now with
        | .ok _ _ => env.direct
        | .fail errno =>
          if errno ≠ eagain then env.direct
          else
            match env.polled with
            | .timeout errno => gaveUp [env.now] (-1) errno
            | .fails errno => gaveUp [env.now] (-1) errno
            | .ready revents errno =>
              if revents.pollerr then gaveUp [env.now] (-1) errno
              else if revents.pollhup then gaveUp [env.now] 0 errno
              else env.again [env.now] errno

def sendto : Result :=
  if env.enabled = false then env.direct
  else
    match socketCtx env with
    | none => env.direct
    | some lp =>
      if nonblock lp.userFlag || env.dontwait then env.direct
      else
        match env.now with
        | .ok _ _ => env.direct
        | .fail errno =>
          if errno = eagain then
            match env.polled with
            | .timeout _ => gaveUp [env.now] (-1) etimedout
            | .fails errno => gaveUp [env.now] (-1) errno
            | .ready revents errno =>
              if revents.pollerr then gaveUp [env.now] (-1) errno
              else if revents.pollhup then gaveUp [env.now] 0 errno
              else env.again [env.now] errno
          else env.direct

/-- The `ret` of the second attempt is another variable than the one that is returned. -/
def send : Result :=
  if env.enabled = false then env.direct
  else
    match socketCtx env with
    | none => env.direct
    | some lp =>
      if nonblock lp.userFlag || env.dontwait then env.direct
      else
        match env.now with
        | .ok _ _ => env.direct
        | .fail errno =>
          if errno = eagain then
            match env.polled with
            | .timeout _ => gaveUp [env.now] (-1) etimedout
            | .fails errno => gaveUp [env.now] (-1) errno
            | .ready revents errno =>
              if revents.pollerr then gaveUp [env.now] (-1) errno
              else if revents.pollhup then gaveUp [env.now] 0 errno
              else { env.again [env.now] errno with ret := env.now.ret }
          else env.direct

inductive Send
  | write
  | writev
  | sendto
  | send
  deriving DecidableEq

def Send.run : Send → Env → Result
  | write => SocketHook.write
  | writev => SocketHook.writev
  | sendto => SocketHook.sendto
  | send => SocketHook.send

/-- What a hook returns is what its last system call returned, or -1 or 0 if none of them has sent
anything; in particular what was accepted is reported. -/
structure Reports (r : Result) : Prop where
  result : (∃ a, r.made.getLast? = some a ∧ r.ret = a.ret) ∨
    ((∀ a ∈ r.made, ∃ e, a = .fail e) ∧ (r.ret = -1 ∨ r.ret = 0))
  accepted : ∀ (n : ℕ) (small : n ≤ 0x7ffff000), 0 < n → Answer.ok n small ∈ r.made → r.ret = n

/-- `send` must not succeed at its second attempt. -/
def Send.Needs (env : Env) : Send → Prop
  | send => env.now = .fail eagain → ∀ revents errno, env.polled = .ready revents errno →
    revents.pollerr = false → revents.pollhup = false → ∃ e, env.later = .fail e
  | _ => True

end Send

section Sending

variable {env : Env} {onTimeout : ℤ → ℤ} {second : ℤ → Result}

theorem reports_direct (env : Env) : Reports env.direct := by
  refine ⟨.inl ⟨env.now, rfl, rfl⟩, fun n small _ mem => ?_⟩
  obtain now := List.mem_singleton.mp mem
  rw [Env.direct, ← now, Answer.ret]

theorem reports_gaveUp {e ret errno : ℤ} (fails : env.now = .fail e) (none : ret = -1 ∨ ret = 0) :
    Reports (gaveUp [env.now] ret errno) := by
  have all : ∀ a ∈ [env.now], ∃ e, a = .fail e := by simp [fails]
  refine ⟨.inr ⟨all, none⟩, fun n small _ mem => ?_⟩
  obtain ⟨e', same⟩ := all _ mem
  cases same

theorem reports_again {e errno : ℤ} (fails : env.now = .fail e) :
    Reports (env.again [env.now] errno) := by
  refine ⟨.inl ⟨env.later, by simp [Env.again], rfl⟩, fun n small _ mem => ?_⟩
  simp only [Env.again, fails, List.singleton_append, List.mem_cons, List.not_mem_nil, or_false,
    reduceCtorEq, false_or] at mem
  rw [Env.again, ← mem, Answer.ret]

/-- The hooks that send, from `co_poll` on. -/
def pollThen (env : Env) (onTimeout : ℤ → ℤ) (second : ℤ → Result) : Result :=
  match env.polled with
  | .timeout errno => gaveUp [env.now] (-1) (onTimeout errno)
  | .fails errno => gaveUp [env.now] (-1) errno
  | .ready revents errno =>
    if revents.pollerr then gaveUp [env.now] (-1) errno
    else if revents.pollhup then gaveUp [env.now] 0 errno
    else second errno

theorem reports_pollThen_iff {e : ℤ} (fails : env.now = .fail e) :
    Reports (pollThen env onTimeout second) ↔ ∀ revents errno, env.polled = .ready revents errno →
      revents.pollerr = false → revents.pollhup = false → Reports (second errno) := by
  unfold pollThen
  cases polled : env.polled with
  | timeout errno => exact iff_of_true (reports_gaveUp fails (.inl rfl)) (by simp)
  | fails errno => exact iff_of_true (reports_gaveUp fails (.inl rfl)) (by simp)
  | ready revents errno =>
    simp only [Polled.ready.injEq, and_imp]
    by_cases pollerr : revents.pollerr = true
    · rw [if_pos pollerr]
      refine iff_of_true (reports_gaveUp fails (.inl rfl)) ?_
      rintro _ _ rfl - no
      exact absurd (pollerr.symm.trans no) (by decide)
    · rw [if_neg pollerr]
      by_cases pollhup : revents.pollhup = true
      · rw [if_pos pollhup]
        refine iff_of_true (reports_gaveUp fails (.inr rfl)) ?_
        rintro _ _ rfl - - no
        exact absurd (pollhup.symm.trans no) (by decide)
      · rw [if_neg pollhup]
        constructor
        · rintro reports _ _ rfl rfl - -
          exact reports
        · intro all
          exact all revents errno rfl rfl (by simpa using pollerr) (by simpa using pollhup)

/-- Where the second attempt is reported, the hook reports what it sends. -/
theorem reports_of_again (env : Env) :
    Reports (if env.now = .fail eagain then pollThen env onTimeout (env.again [env.now])
      else env.direct) := by
  by_cases full : env.now = .fail eagain
  · rw [if_pos full, reports_pollThen_iff full]
    exact fun _ _ _ _ _ => reports_again full
  · rw [if_neg full]
    exact reports_direct env

theorem write_blocking (blocking : env.Blocking) : write env =
    if env.now = .fail eagain then pollThen env (fun _ => etimedout) (env.again [env.now])
    else env.direct := by
  obtain ⟨lp, ctx, type, mode⟩ := blocking.ctx
  have two : (1 : ℤ) ≠ 2 := by decide
  simp only [write, blocking.enabled, ctx, mode, type, two, if_false, Bool.true_eq_false,
    Bool.false_eq_true]
  cases now : env.now with
  | ok n small => rfl
  | fail e =>
    by_cases same : e = eagain
    · simp only [same, ne_eq, not_true_eq_false, if_false, if_true, pollThen, now]
    · simp [same]

theorem writev_blocking (blocking : env.Blocking) : writev env =
    if env.now = .fail eagain then pollThen env id (env.again [env.now]) else env.direct := by
  obtain ⟨lp, ctx, type, mode⟩ := blocking.ctx
  have two : (1 : ℤ) ≠ 2 := by decide
  simp only [writev, blocking.enabled, ctx, mode, type, two, if_false, Bool.true_eq_false,
    Bool.false_eq_true]
  cases now : env.now with
  | ok n small => rfl
  | fail e =>
    by_cases same : e = eagain
    · simp only [same, ne_eq, not_true_eq_false, if_false, if_true, pollThen, now]
      rfl
    · simp [same]

theorem sendto_blocking (blocking : env.Blocking) : sendto env =
    if env.now = .fail eagain then pollThen env (fun _ => etimedout) (env.again [env.now])
    else env.direct := by
  obtain ⟨lp, ctx, mode⟩ := blocking.socketCtx
  simp only [sendto, blocking.enabled, ctx, mode, blocking.waits, if_false, Bool.true_eq_false,
    Bool.or_self, Bool.false_eq_true]
  cases now : env.now with
  | ok n small => rfl
  | fail e =>
    by_cases same : e = eagain
    · simp only [same, if_true, pollThen, now]
    · simp [same]

theorem send_blocking (blocking : env.Blocking) : send env =
    if env.now = .fail eagain then pollThen env (fun _ => etimedout) fun errno =>
      { env.again [env.now] errno with ret := env.now.ret }
    else env.direct := by
  obtain ⟨lp, ctx, mode⟩ := blocking.socketCtx
  simp only [send, blocking.enabled, ctx, mode, blocking.waits, if_false, Bool.true_eq_false,
    Bool.or_self, Bool.false_eq_true]
  cases now : env.now with
  | ok n small => rfl
  | fail e =>
    by_cases same : e = eagain
    · simp only [same, if_true, pollThen, now]
    · simp [same]

theorem reports_lost_iff {e errno : ℤ} (fails : env.now = .fail e) :
    Reports { env.again [env.now] errno with ret := env.now.ret } ↔ ∃ e, env.later = .fail e := by
  constructor
  · intro reports
    cases later : env.later with
    | fail e => exact ⟨e, rfl⟩
    | ok n small =>
      obtain ⟨a, last, same⟩ | ⟨all, -⟩ := reports.result
      · simp only [Env.again, later, List.getLast?_append, List.getLast?_singleton,
          Option.some_or, Option.some.injEq] at last
        have minus : (-1 : ℤ) = n := by
          rw [fails, ← last] at same
          exact same
        omega
      · obtain ⟨e, no⟩ := all (.ok n small) (by simp [Env.again, later])
        cases no
  · rintro ⟨e', later⟩
    have all : ∀ a ∈ [env.now] ++ [env.later], ∃ e, a = .fail e := by simp [fails, later]
    refine ⟨.inl ⟨env.later, by simp [Env.again], by simp [fails, later, Answer.ret]⟩, ?_⟩
    intro n small _ mem
    obtain ⟨e, no⟩ := all _ mem
    cases no

end Sending

/-- When each of the hooks reports what was sent: three of them always do. -/
theorem send_reports_iff (call : Send) (env : Env) (blocking : env.Blocking) :
    Reports (call.run env) ↔ call.Needs env := by
  cases call with
  | write =>
    rw [Send.run, write_blocking blocking]
    exact iff_of_true (reports_of_again env) trivial
  | writev =>
    rw [Send.run, writev_blocking blocking]
    exact iff_of_true (reports_of_again env) trivial
  | sendto =>
    rw [Send.run, sendto_blocking blocking]
    exact iff_of_true (reports_of_again env) trivial
  | send =>
    rw [Send.run, send_blocking blocking, Send.Needs]
    by_cases full : env.now = .fail eagain
    · rw [if_pos full, reports_pollThen_iff full]
      rw [forall_prop_of_true full]
      apply forall_congr'
      intro revents
      apply forall_congr'
      intro errno
      rw [reports_lost_iff full]
    · rw [if_neg full]
      exact iff_of_true (reports_direct env) fun same => absurd same full

/-- The buffer is full, and then takes ten bytes. -/
theorem write_reports_late : Reports (write { lateData with polled := .ready ⟨false, false, false⟩ 0 }) :=
  (send_reports_iff .write _ ⟨rfl, rfl, socketFd, rfl, rfl, by decide⟩).mpr trivial

/-- `send` returns -1 for them. -/
theorem send_not_reported : ¬ ∀ (call : Send) (env : Env), env.Blocking → Reports (call.run env) := by
  intro claim
  have reports := claim .send { lateData with polled := .ready ⟨false, false, false⟩ 0 }
    ⟨rfl, rfl, socketFd, rfl, rfl, by decide⟩
  have ten := reports.accepted 10 (by decide) (by decide) (by decide)
  revert ten
  decide

end Conet.Core.SocketHook
