/- Module: Conet/Core/Network
   source: core/src/network.cpp, core/src/network_hook.cpp
   digest: co_poll over edge-triggered epoll: wait items, poll contexts, batches, timeouts, closes. -/

import Conet.Base.ListRings
import Conet.Lib.Epoll
import Conet.Lib.Trace

set_option autoImplicit false
set_option relaxedAutoImplicit false

namespace Conet.Core.Network

open Conet.Lib Conet.Lib.Epoll Conet.Base.ListHead Conet.Base.ListRings

universe u

abbrev Fd := ℕ

/-- `struct pollfd`. -/
structure PollFd where
  fd : ℤ
  events : BitVec 16
  revents : BitVec 16

/-- A `poll_wait_item_t *`: the wait items of a descriptor are counted as they are allocated. -/
structure Ptr where
  fd : Fd
  gen : ℕ
  deriving DecidableEq

/-- `poll_wait_item_t`; `P` names the calls of `co_poll`, and with them the `poll_ctx_t`s on their
stacks. -/
structure WaitItem (P : Type u) where
  pollCtx : Option P
  pos : ℕ
  waitEvents : Events

/-- `poll_ctx_t`, apart from its list link and its timeout handle. -/
structure PollCtx where
  fds : List PollFd
  timeout : ℤ
  numRaise : ℕ
  retcode : ℕ
  coroutine : Bool
  waitItem : Option Ptr

/-- Where the loop of `proc_netevent` over its `dispatch` list is: at the test, with `ctx` and
`next`, or inside the `resume`, with `next`. -/
inductive Loop (P : Type u)
  | out
  | test (ctx next : Node Unit P)
  | body (next : Node Unit P)

/-- The control is not in `proc_netevent` itself. -/
def Loop.Away {P : Type u} : Loop P → Prop
  | .test .. => False
  | _ => True

structure Net (P : Type u) where
  /-- the live wait item of a descriptor, and how many it has had -/
  item : Fd → Option (WaitItem P)
  gen : Fd → ℕ
  kernel : Kernel Fd Ptr
  /-- how many `epoll_ctl` calls have failed -/
  failed : ℕ
  /-- the contexts of the calls that have not returned -/
  ctx : P → Option PollCtx
  /-- `timeout_ctl` is linked in the timer wheel -/
  armed : P → Bool
  /-- `dispatch` and the `to_dispatch`s -/
  links : Links (Node Unit P)
  loop : Loop P

/-- The ends that are no result: `abort()`, and an access to what has been freed. -/
inductive Fault
  | abort
  | dangling

variable {P : Type u}

def WaitItem.new : WaitItem P where
  pollCtx := none
  pos := 0
  waitEvents := 0

def Net.init : Net P where
  item := fun _ => none
  gen := fun _ => 0
  kernel := .init
  failed := 0
  ctx := fun _ => none
  armed := fun _ => false
  links := ⟨id, id⟩
  loop := .out

/-- `poll_event2epoll` and `epoll_event2poll` keep the same events. -/
def pollMask : Events := epollIn ||| epollOut ||| epollHup ||| epollErr

def pollEvent2epoll (events : BitVec 16) : Events := events.signExtend 32 &&& pollMask

/-- `epoll_event2poll`, stored in the `short` in a `struct pollfd`. -/
def epollEvent2poll (events : Events) : BitVec 16 := (events &&& pollMask).setWidth 16

/-- `get_wait_item`, for a descriptor that is not negative. -/
def getWaitItem (n : Net P) (fd : Fd) : Net P :=
  if (n.item fd).isSome then n
  else
    { n with
      item := Function.update n.item fd (some .new)
      gen := Function.update n.gen fd (n.gen fd + 1) }

/-- The wait item that a pointer leads to, unless it has been freed. -/
def deref (n : Net P) (ptr : Ptr) : Except Fault (WaitItem P) :=
  match n.item ptr.fd with
  | some w => if n.gen ptr.fd = ptr.gen then .ok w else .error .dangling
  | none => .error .dangling

def setItem (n : Net P) (fd : Fd) (w : WaitItem P) : Net P :=
  { n with item := Function.update n.item fd (some w) }

def freeWaitItem (n : Net P) (fd : Fd) : Net P :=
  { n with item := Function.update n.item fd none }

/-- The result of an `epoll_ctl`: only a log entry comes of a failure. -/
def ctl (n : Net P) (res : Kernel Fd Ptr × Bool) : Net P :=
  { n with kernel := res.1, failed := if res.2 then n.failed + 1 else n.failed }

/-- `close_fd_notify_poll`, for a descriptor that is not negative, and the `close` it is called
from; `shared` if another descriptor refers to the same file. -/
def close (n : Net P) (fd : Fd) (shared : Bool) : Net P :=
  let n := getWaitItem n fd
  let n := match n.item fd with
    | some w =>
      if w.waitEvents ≠ 0 then ctl (setItem n fd { w with waitEvents := 0 }) (n.kernel.del fd)
      else n
    | none => n
  let n := freeWaitItem n fd
  { n with kernel := n.kernel.close fd shared }

def clearInvalidEvent (n : Net P) (ptr : Ptr) (w : WaitItem P) (events : Events) : Net P :=
  let rest := w.waitEvents &&& ~~~events
  let n := setItem n ptr.fd { w with waitEvents := rest }
  if rest ≠ 0 then ctl n (n.kernel.mod ptr.fd (rest ||| epollEt) ptr)
  else ctl n (n.kernel.del ptr.fd)

variable [DecidableEq P]

def setCtx (n : Net P) (p : P) (c : PollCtx) : Net P :=
  { n with ctx := Function.update n.ctx p (some c) }

/-- The part of `poll_ctx_t::init` that asks the kernel for `events` of the item `w`. -/
def interest (n : Net P) (ptr : Ptr) (w : WaitItem P) (events : Events) : Net P :=
  if w.waitEvents ≠ 0 then
    let all := events ||| w.waitEvents
    if all ≠ w.waitEvents then
      ctl (setItem n ptr.fd { w with waitEvents := all })
        (n.kernel.mod ptr.fd (all ||| epollEt) ptr)
    else setItem n ptr.fd w
  else
    ctl (setItem n ptr.fd { w with waitEvents := events })
      (n.kernel.add ptr.fd (events ||| epollEt) ptr)

/-- One turn of the loop of `poll_ctx_t::init`. -/
def initFd (p : P) (i : ℕ) (f : PollFd) (n : Net P) : Except Fault (Net P) :=
  if f.fd < 0 then .error .abort
  else
    let fd := f.fd.toNat
    let n := getWaitItem n fd
    let ptr : Ptr := ⟨fd, n.gen fd⟩
    match n.item fd, n.ctx p with
    | some w, some c =>
      if w.pollCtx.isSome then .error .abort
      else
        let n := if i = 0 then setCtx n p { c with waitItem := some ptr } else n
        .ok (interest n ptr { w with pollCtx := some p, pos := i } (pollEvent2epoll f.events))
    | _, _ => .error .dangling

def initFds (p : P) : ℕ → List PollFd → Net P → Except Fault (Net P)
  | _, [], n => .ok n
  | i, f :: fs, n =>
    match initFd p i f n with
    | .ok n => initFds p (i + 1) fs n
    | .error e => .error e

/-- `co_poll` up to its `yield`. -/
def coPoll (n : Net P) (p : P) (fds : List PollFd) (timeout : ℤ) : Except Fault (Net P) :=
  let fds := fds.map fun f => { f with revents := 0 }
  let n := setCtx n p
    { fds := fds, timeout := timeout, numRaise := 0, retcode := 0, coroutine := false
      waitItem := none }
  let n := { n with
    armed := Function.update n.armed p (decide (0 ≤ timeout))
    links := initListHead n.links (.item p) }
  match initFds p 0 fds n with
  | .ok n => match n.ctx p with
    | some c => .ok (setCtx n p { c with coroutine := true })
    | none => .error .dangling
  | .error e => .error e

/-- One turn of the loop of `destruct_poll_ctx`. -/
def detach (n : Net P) (f : PollFd) : Net P :=
  let n := getWaitItem n f.fd.toNat
  match n.item f.fd.toNat with
  | some w => setItem n f.fd.toNat { w with pollCtx := none }
  | none => n

def destructPollCtx (n : Net P) (c : PollCtx) : Except Fault (Net P) :=
  if c.fds.length = 1 then
    match c.waitItem with
    | some ptr => match deref n ptr with
      | .ok w => .ok (setItem n ptr.fd { w with pollCtx := none })
      | .error e => .error e
    | none => .error .dangling
  else .ok (c.fds.foldl detach n)

/-- `co_poll` from its `yield` on: its result, and what the return leaves. -/
def coPollReturn (n : Net P) (p : P) (c : PollCtx) : Except Fault (Net P × ℤ) :=
  match destructPollCtx n c with
  | .ok n =>
    .ok ({ n with ctx := Function.update n.ctx p none },
      if c.retcode = 0 then c.numRaise else if c.retcode = 1 then 0 else -1)
  | .error e => .error e

def fdNotifyEventsToPoll (n : Net P) (ptr : Ptr) (events : Events) : Except Fault (Net P) :=
  match deref n ptr with
  | .error e => .error e
  | .ok w => match w.pollCtx with
    | none => .ok (clearInvalidEvent n ptr w events)
    | some p => match n.ctx p with
      | none => .error .dangling
      | some c => match c.fds[w.pos]? with
        | none => .error .abort
        | some f =>
          let revents := pollEvent2epoll f.events &&& events
          if revents ≠ 0 then
            .ok { n with
              ctx := Function.update n.ctx p (some
                { c with
                  fds := c.fds.set w.pos { f with revents := epollEvent2poll revents }
                  numRaise := c.numRaise + 1 })
              armed := if 0 ≤ c.timeout then Function.update n.armed p false else n.armed
              links :=
                if listEmpty n.links (.item p) then listAddTail n.links (.item p) (.head ())
                else n.links }
          else .ok (clearInvalidEvent n ptr w events)

def notifyAll : List (Ptr × Events) → Net P → Except Fault (Net P)
  | [], n => .ok n
  | ev :: evs, n => match fdNotifyEventsToPoll n ev.1 ev.2 with
    | .ok n => notifyAll evs n
    | .error e => .error e

/-- `proc_netevent` up to the loop over its `dispatch` list, when `epoll_wait` takes the queued
events of `fds`. -/
def procNetevent (n : Net P) (fds : List Fd) : Except Fault (Net P) :=
  let evs := n.kernel.report fds
  let n := { n with kernel := n.kernel.fetch fds }
  if evs = [] then .ok n
  else match notifyAll evs { n with links := initListHead n.links (.head ()) } with
    | .ok n =>
      let ctx := n.links.next (.head ())
      .ok { n with loop := .test ctx (n.links.next ctx) }
    | .error e => .error e

inductive Event (P : Type u)
  | polled (p : P) (fds : List PollFd) (timeout : ℤ)
  | batch (fds : List Fd)
  | dispatched (p : P) (fds : List PollFd) (ret : ℤ)
  | timedOut (p : P) (fds : List PollFd) (ret : ℤ)
  | closed (fd : Fd) (shared : Bool)
  | activity (fd : Fd) (events : Events)
  | consumed (fd : Fd) (events : Events)
  | other

/-- One step: a call of `co_poll`, a batch of events, the resume of a call by the `dispatch` loop or
by its timer up to its return, a `close`, or something that happens to a descriptor. There is no
step that aborts or accesses what has been freed, as an event of a registration that has lost its
descriptor would. -/
inductive Step : Net P → Event P → Net P → Prop
  | poll (n n' : Net P) (p : P) (fds : List PollFd) (timeout : ℤ) (away : n.loop.Away)
      (fresh : n.ctx p = none) (polls : coPoll n p fds timeout = .ok n') : Step n (.polled p fds timeout) n'
  | batch (n n' : Net P) (fds : List Fd) (out : n.loop = .out) (nodup : fds.Nodup)
      (queued : ∀ fd ∈ fds, n.kernel.queued fd = true) (notifies : procNetevent n fds = .ok n') :
      Step n (.batch fds) n'
  | dispatch (n n' : Net P) (p : P) (c : PollCtx) (next : Node Unit P) (ret : ℤ)
      (loop : n.loop = .test (.item p) next) (ctx : n.ctx p = some c)
      (coroutine : c.coroutine = true)
      (returns : coPollReturn
        { n with links := listDelInit n.links (.item p), loop := .body next } p c = .ok (n', ret)) :
      Step n (.dispatched p c.fds ret) n'
  | skip (n : Net P) (p : P) (c : PollCtx) (next : Node Unit P)
      (loop : n.loop = .test (.item p) next) (ctx : n.ctx p = some c)
      (coroutine : c.coroutine = false) :
      Step n .other { n with links := listDelInit n.links (.item p), loop := .body next }
  | next (n : Net P) (next : Node Unit P) (loop : n.loop = .body next) :
      Step n .other { n with loop := .test next (n.links.next next) }
  | ended (n : Net P) (next : Node Unit P) (loop : n.loop = .test (.head ()) next) :
      Step n .other { n with loop := .out }
  | timeout (n n' : Net P) (p : P) (c : PollCtx) (ret : ℤ) (away : n.loop.Away)
      (armed : n.armed p = true) (ctx : n.ctx p = some c) (coroutine : c.coroutine = true)
      (returns : coPollReturn { n with armed := Function.update n.armed p false } p
        { c with retcode := 1 } = .ok (n', ret)) :
      Step n (.timedOut p c.fds ret) n'
  | close (n : Net P) (fd : Fd) (shared : Bool) (away : n.loop.Away) :
      Step n (.closed fd shared) (close n fd shared)
  | activity (n : Net P) (fd : Fd) (events : Events) :
      Step n (.activity fd events) { n with kernel := n.kernel.activity fd events }
  | consume (n : Net P) (fd : Fd) (events : Events) (away : n.loop.Away) :
      Step n (.consumed fd events) { n with kernel := n.kernel.consume fd events }

/-- Runs of a thread that has not polled yet. -/
def Run : List (Event P) → Net P → Prop := Trace Net.init Step

section Specs

variable {n n' : Net P} {p : P} {fd g : Fd} {ptr : Ptr} {w : WaitItem P} {m : Events}
  {f : PollFd} {i : ℕ}

def WaitItem.off {P : Type u} (w : WaitItem P) : WaitItem P := { w with pollCtx := none }

/-- The wait item of a descriptor, or the one that it would get. -/
def itemOr (n : Net P) (fd : Fd) : WaitItem P := (n.item fd).getD .new

/-- A descriptor is registered for its `wait_events`. -/
def Registered (n : Net P) (fd : Fd) : Prop :=
  Within (itemOr n fd).waitEvents pollMask ∧
    ∃ ptr, ptr.fd = fd ∧ n.kernel.reg fd = some ((itemOr n fd).waitEvents ||| epollEt, ptr)

omit [DecidableEq P] in
theorem Registered.congr {n n' : Net P} {fd : Fd} (registered : Registered n fd)
    (item : (itemOr n' fd).waitEvents = (itemOr n fd).waitEvents)
    (reg : n'.kernel.reg fd = n.kernel.reg fd) : Registered n' fd := by
  unfold Registered
  rwa [item, reg]

/-- What `poll_ctx_t::init` asks of the kernel for an item that waits for `waitEvents` already. -/
def interestKernel (k : Kernel Fd Ptr) (ptr : Ptr) (waitEvents m : Events) :
    Kernel Fd Ptr × Bool :=
  if waitEvents ≠ 0 then
    if m ||| waitEvents ≠ waitEvents then k.mod ptr.fd ((m ||| waitEvents) ||| epollEt) ptr
    else (k, false)
  else k.add ptr.fd (m ||| epollEt) ptr

/-- What `clear_invalid_event` asks of the kernel. -/
def clearKernel (k : Kernel Fd Ptr) (ptr : Ptr) (rest : Events) : Kernel Fd Ptr × Bool :=
  if rest ≠ 0 then k.mod ptr.fd (rest ||| epollEt) ptr else k.del ptr.fd

omit [DecidableEq P] in
theorem interestKernel_reg_ne {k : Kernel Fd Ptr} {waitEvents : Events} (hne : g ≠ ptr.fd) :
    (interestKernel k ptr waitEvents m).1.reg g = k.reg g := by
  unfold interestKernel
  split_ifs
  · exact mod_reg_ne hne
  · rfl
  · exact add_reg_ne hne

omit [DecidableEq P] in
theorem clearKernel_reg_ne {k : Kernel Fd Ptr} (hne : g ≠ ptr.fd) :
    (clearKernel k ptr m).1.reg g = k.reg g := by
  unfold clearKernel
  split_ifs
  · exact mod_reg_ne hne
  · exact del_reg_ne hne

omit [DecidableEq P] in
theorem interest_eq : interest n ptr w m =
    ctl (setItem n ptr.fd { w with waitEvents := m ||| w.waitEvents })
      (interestKernel n.kernel ptr w.waitEvents m) := by
  unfold interest interestKernel
  dsimp only
  split_ifs with old change
  · rfl
  · rw [not_not.mp change]
    rfl
  · simp [not_not.mp old]

omit [DecidableEq P] in
theorem clearInvalidEvent_eq {events : Events} : clearInvalidEvent n ptr w events =
    ctl (setItem n ptr.fd { w with waitEvents := w.waitEvents &&& ~~~events })
      (clearKernel n.kernel ptr (w.waitEvents &&& ~~~events)) := by
  unfold clearInvalidEvent clearKernel
  dsimp only
  split_ifs <;> rfl

omit [DecidableEq P] in
theorem getWaitItem_item : (getWaitItem n fd).item = Function.update n.item fd (some (itemOr n fd)) := by
  unfold getWaitItem itemOr
  split_ifs with some
  · obtain ⟨w, hw⟩ := Option.isSome_iff_exists.mp some
    rw [hw, Option.getD_some, ← hw, Function.update_eq_self]
  · simp only [Option.not_isSome_iff_eq_none] at some
    simp [some]

/-- What a turn of the loop of `poll_ctx_t::init` comes to. -/
structure Inits (n n' : Net P) (p : P) (i : ℕ) (f : PollFd) (c : PollCtx) : Prop where
  pos : 0 ≤ f.fd
  free : (itemOr n f.fd.toNat).pollCtx = none
  item : n'.item = Function.update n.item f.fd.toNat (some
    ⟨some p, i, pollEvent2epoll f.events ||| (itemOr n f.fd.toNat).waitEvents⟩)
  gen : n'.gen = (getWaitItem n f.fd.toNat).gen
  kernel : n'.kernel = (interestKernel n.kernel ⟨f.fd.toNat, n'.gen f.fd.toNat⟩
    (itemOr n f.fd.toNat).waitEvents (pollEvent2epoll f.events)).1
  failed : n'.failed = if (interestKernel n.kernel ⟨f.fd.toNat, n'.gen f.fd.toNat⟩
    (itemOr n f.fd.toNat).waitEvents (pollEvent2epoll f.events)).2 then n.failed + 1 else n.failed
  ctx : n'.ctx = Function.update n.ctx p (some
    (if i = 0 then { c with waitItem := some ⟨f.fd.toNat, n'.gen f.fd.toNat⟩ } else c))
  armed : n'.armed = n.armed
  links : n'.links = n.links
  loop : n'.loop = n.loop

theorem initFd_ok {c : PollCtx} (ctx : n.ctx p = some c) (ok : initFd p i f n = .ok n') :
    Inits n n' p i f c := by
  have same : (getWaitItem n f.fd.toNat).ctx = n.ctx ∧ (getWaitItem n f.fd.toNat).kernel = n.kernel ∧
      (getWaitItem n f.fd.toNat).failed = n.failed ∧ (getWaitItem n f.fd.toNat).armed = n.armed ∧
      (getWaitItem n f.fd.toNat).links = n.links ∧ (getWaitItem n f.fd.toNat).loop = n.loop := by
    unfold getWaitItem
    split_ifs <;> simp
  have item : (getWaitItem n f.fd.toNat).item f.fd.toNat = some (itemOr n f.fd.toNat) := by
    simp [getWaitItem_item]
  by_cases neg : f.fd < 0
  · simp [initFd, neg] at ok
  rw [initFd, if_neg neg] at ok
  dsimp only at ok
  rw [item, same.1, ctx] at ok
  dsimp only at ok
  split at ok
  · simp at ok
  · rename_i taken
    rw [Except.ok.injEq, interest_eq] at ok
    subst ok
    by_cases first : i = 0
    all_goals
      constructor
      · omega
      · simpa using taken
      all_goals simp [ctl, setItem, setCtx, getWaitItem_item, same, first, ctx]

/-- The turns of the loop of `poll_ctx_t::init`, one after the other. -/
inductive InitAll (p : P) : ℕ → List PollFd → Net P → Net P → Prop
  | nil (i : ℕ) (n : Net P) : InitAll p i [] n n
  | cons {i : ℕ} {f : PollFd} {fs : List PollFd} {n n₁ n' : Net P} {c : PollCtx}
      (ctx : n.ctx p = some c) (inits : Inits n n₁ p i f c) (rest : InitAll p (i + 1) fs n₁ n') :
      InitAll p i (f :: fs) n n'

theorem initFds_ok {fds : List PollFd} {c : PollCtx} (ctx : n.ctx p = some c)
    (ok : initFds p i fds n = .ok n') : InitAll p i fds n n' := by
  induction fds generalizing i n c with
  | nil =>
    obtain rfl : n = n' := by simpa [initFds] using ok
    exact .nil i n
  | cons f fs ih =>
    rw [initFds] at ok
    split at ok
    · rename_i n₁ first
      have inits := initFd_ok ctx first
      have ctx₁ := congrFun inits.ctx p
      rw [Function.update_self] at ctx₁
      exact .cons ctx inits (ih ctx₁ ok)
    · simp at ok

/-- `co_poll` before the loop of `poll_ctx_t::init`. -/
def polling (n : Net P) (p : P) (fds : List PollFd) (timeout : ℤ) : Net P :=
  { n with
    ctx := Function.update n.ctx p (some
      { fds := fds.map fun f => { f with revents := 0 }, timeout := timeout, numRaise := 0
        retcode := 0, coroutine := false, waitItem := none })
    armed := Function.update n.armed p (decide (0 ≤ timeout))
    links := initListHead n.links (.item p) }

theorem coPoll_ok {fds : List PollFd} {timeout : ℤ} (ok : coPoll n p fds timeout = .ok n') :
    ∃ n₁ c, InitAll p 0 (fds.map fun f => { f with revents := 0 }) (polling n p fds timeout) n₁ ∧
      n₁.ctx p = some c ∧ n' = setCtx n₁ p { c with coroutine := true } := by
  unfold coPoll at ok
  dsimp only at ok
  split at ok
  · rename_i n₁ inits
    split at ok
    · rename_i c ctx
      refine ⟨n₁, c, initFds_ok (n := polling n p fds timeout)
        (by simp [polling]; rfl) inits, ctx, ?_⟩
      simpa using ok.symm
    · simp at ok
  · simp at ok

omit [DecidableEq P] in
theorem deref_ok (ok : deref n ptr = .ok w) : n.item ptr.fd = some w ∧ n.gen ptr.fd = ptr.gen := by
  unfold deref at ok
  split at ok
  · split_ifs at ok with live
    simp_all
  · simp at ok

/-- `fd_notify_events_to_poll` where it records an event for a call. -/
def raised (n : Net P) (p : P) (c : PollCtx) (pos : ℕ) (f : PollFd) (revents : Events) : Net P :=
  { n with
    ctx := Function.update n.ctx p (some
      { c with
        fds := c.fds.set pos { f with revents := epollEvent2poll revents }
        numRaise := c.numRaise + 1 })
    armed := if 0 ≤ c.timeout then Function.update n.armed p false else n.armed
    links :=
      if listEmpty n.links (.item p) then listAddTail n.links (.item p) (.head ()) else n.links }

/-- What comes of an event for the item `w`. -/
inductive Notified (n : Net P) (ptr : Ptr) (w : WaitItem P) (events : Events) : Net P → Prop
  | stale (none : w.pollCtx = none) : Notified n ptr w events (clearInvalidEvent n ptr w events)
  | unwanted (p : P) (c : PollCtx) (f : PollFd) (pollCtx : w.pollCtx = some p)
      (ctx : n.ctx p = some c) (pos : c.fds[w.pos]? = some f)
      (none : pollEvent2epoll f.events &&& events = 0) :
      Notified n ptr w events (clearInvalidEvent n ptr w events)
  | raised (p : P) (c : PollCtx) (f : PollFd) (pollCtx : w.pollCtx = some p)
      (ctx : n.ctx p = some c) (pos : c.fds[w.pos]? = some f)
      (some : pollEvent2epoll f.events &&& events ≠ 0) :
      Notified n ptr w events (raised n p c w.pos f (pollEvent2epoll f.events &&& events))

theorem fdNotify_ok {events : Events} (ok : fdNotifyEventsToPoll n ptr events = .ok n') :
    ∃ w, n.item ptr.fd = some w ∧ n.gen ptr.fd = ptr.gen ∧ Notified n ptr w events n' := by
  unfold fdNotifyEventsToPoll at ok
  split at ok
  · simp at ok
  · rename_i w live
    obtain ⟨item, gen⟩ := deref_ok live
    refine ⟨w, item, gen, ?_⟩
    split at ok
    · rename_i none
      obtain rfl := Except.ok.inj ok
      exact .stale none
    · rename_i p pollCtx
      split at ok
      · simp at ok
      · rename_i c ctx
        split at ok
        · simp at ok
        · rename_i f pos
          dsimp only at ok
          by_cases none : pollEvent2epoll f.events &&& events = 0
          · rw [if_neg (not_not.mpr none)] at ok
            obtain rfl := Except.ok.inj ok
            exact .unwanted p c f pollCtx ctx pos none
          · rw [if_pos none] at ok
            obtain rfl := Except.ok.inj ok
            exact .raised p c f pollCtx ctx pos none

omit [DecidableEq P] in
theorem detach_eq : detach n f =
    { getWaitItem n f.fd.toNat with
      item := Function.update n.item f.fd.toNat (some (itemOr n f.fd.toNat).off) } := by
  simp [detach, getWaitItem_item, setItem, WaitItem.off]

omit [DecidableEq P] in
theorem getWaitItem_same (n : Net P) (fd : Fd) : (getWaitItem n fd).kernel = n.kernel ∧
    (getWaitItem n fd).failed = n.failed ∧ (getWaitItem n fd).ctx = n.ctx ∧
    (getWaitItem n fd).armed = n.armed ∧ (getWaitItem n fd).links = n.links ∧
    (getWaitItem n fd).loop = n.loop := by
  unfold getWaitItem
  split_ifs <;> simp

/-- What does not concern the wait items. -/
structure SameRest (n n' : Net P) : Prop where
  kernel : n'.kernel = n.kernel
  failed : n'.failed = n.failed
  ctx : n'.ctx = n.ctx
  armed : n'.armed = n.armed
  links : n'.links = n.links
  loop : n'.loop = n.loop

omit [DecidableEq P] in
theorem detach_rest : SameRest n (detach n f) := by
  obtain ⟨kernel, failed, ctx, armed, links, loop⟩ := getWaitItem_same n f.fd.toNat
  rw [detach_eq]
  exact ⟨kernel, failed, ctx, armed, links, loop⟩

omit [DecidableEq P] in
theorem detachAll_rest (fds : List PollFd) : SameRest n (fds.foldl detach n) := by
  induction fds generalizing n with
  | nil => exact ⟨rfl, rfl, rfl, rfl, rfl, rfl⟩
  | cons f fs ih =>
    have first := detach_rest (n := n) (f := f)
    have rest := ih (n := detach n f)
    exact ⟨rest.kernel.trans first.kernel, rest.failed.trans first.failed,
      rest.ctx.trans first.ctx, rest.armed.trans first.armed, rest.links.trans first.links,
      rest.loop.trans first.loop⟩

omit [DecidableEq P] in
theorem itemOr_detach : itemOr (detach n f) g =
    if g = f.fd.toNat then (itemOr n g).off else itemOr n g := by
  by_cases hg : g = f.fd.toNat
  · simp [itemOr, detach_eq, hg]
  · simp [itemOr, detach_eq, hg]

/-- The pointer leads to a wait item that has not been freed. -/
def Live (n : Net P) (ptr : Ptr) : Prop := (n.item ptr.fd).isSome ∧ n.gen ptr.fd = ptr.gen

omit [DecidableEq P] in
theorem getWaitItem_live (live : Live n ptr) (fd : Fd) : Live (getWaitItem n fd) ptr := by
  obtain ⟨some, gen⟩ := live
  unfold getWaitItem
  split_ifs with alive
  · exact ⟨some, gen⟩
  · have ne : ptr.fd ≠ fd := by
      rintro rfl
      exact alive some
    simpa [Live, ne] using And.intro some gen

omit [DecidableEq P] in
theorem detach_live (live : Live n ptr) : Live (detach n f) ptr := by
  obtain ⟨some, gen⟩ := getWaitItem_live live f.fd.toNat
  rw [detach_eq]
  refine ⟨?_, gen⟩
  by_cases hg : ptr.fd = f.fd.toNat
  · simp [hg]
  · simpa [hg, getWaitItem_item] using some

/-- The wait items of the descriptors `gs` have been taken off their calls. -/
structure Detached (n n' : Net P) (gs : List Fd) : Prop where
  rest : SameRest n n'
  item : ∀ g, itemOr n' g = if g ∈ gs then (itemOr n g).off else itemOr n g
  live : ∀ ptr, Live n ptr → Live n' ptr

omit [DecidableEq P] in
theorem detachAll_spec (fds : List PollFd) :
    Detached n (fds.foldl detach n) (fds.map fun f => f.fd.toNat) := by
  induction fds generalizing n with
  | nil => exact ⟨⟨rfl, rfl, rfl, rfl, rfl, rfl⟩, by simp, fun _ => id⟩
  | cons f fs ih =>
    have rest := ih (n := detach n f)
    refine ⟨detachAll_rest (f :: fs), fun g => ?_, fun ptr live => rest.live ptr (detach_live live)⟩
    have item := rest.item g
    rw [itemOr_detach] at item
    rw [List.foldl_cons, item]
    simp only [List.map_cons, List.mem_cons]
    by_cases hg : g = f.fd.toNat
    · have mem : g = f.fd.toNat ∨ g ∈ fs.map fun f => f.fd.toNat := .inl hg
      simp only [if_pos hg, if_pos mem]
      split_ifs <;> rfl
    · simp only [hg, false_or, if_false]

omit [DecidableEq P] in
theorem destructPollCtx_ok {c : PollCtx} (ok : destructPollCtx n c = .ok n') :
    ∃ gs, Detached n n' gs ∧
      ((c.fds.length = 1 ∧ ∃ ptr, c.waitItem = some ptr ∧ Live n ptr ∧ gs = [ptr.fd]) ∨
        (c.fds.length ≠ 1 ∧ gs = c.fds.map fun f => f.fd.toNat)) := by
  unfold destructPollCtx at ok
  split_ifs at ok with one
  · split at ok
    · rename_i ptr cached
      split at ok
      · rename_i w live
        obtain ⟨item, gen⟩ := deref_ok live
        obtain rfl := Except.ok.inj ok
        refine ⟨[ptr.fd], ⟨⟨rfl, rfl, rfl, rfl, rfl, rfl⟩, fun g => ?_, fun q live => ?_⟩,
          .inl ⟨one, ptr, cached, ⟨by simp [item], gen⟩, rfl⟩⟩
        · by_cases hg : g = ptr.fd
          · simp [itemOr, setItem, hg, item, WaitItem.off]
          · simp [itemOr, setItem, hg]
        · refine ⟨?_, live.2⟩
          by_cases hg : q.fd = ptr.fd
          · simp [setItem, hg]
          · simpa [setItem, hg] using live.1
      · simp at ok
    · simp at ok
  · obtain rfl := Except.ok.inj ok
    exact ⟨_, detachAll_spec c.fds, .inr ⟨one, rfl⟩⟩

theorem coPollReturn_ok {c : PollCtx} {ret : ℤ} (ok : coPollReturn n p c = .ok (n', ret)) :
    ∃ n₁ gs, Detached n n₁ gs ∧ n' = { n₁ with ctx := Function.update n₁.ctx p none } ∧
      ((c.fds.length = 1 ∧ ∃ ptr, c.waitItem = some ptr ∧ Live n ptr ∧ gs = [ptr.fd]) ∨
        (c.fds.length ≠ 1 ∧ gs = c.fds.map fun f => f.fd.toNat)) ∧
      ret = if c.retcode = 0 then (c.numRaise : ℤ) else if c.retcode = 1 then 0 else -1 := by
  unfold coPollReturn at ok
  split at ok
  · rename_i n₁ destructs
    obtain ⟨gs, detached, which⟩ := destructPollCtx_ok destructs
    obtain ⟨rfl, rfl⟩ := Prod.mk.inj (Except.ok.inj ok)
    exact ⟨n₁, gs, detached, rfl, which, rfl⟩
  · simp at ok

/-- What a `close` comes to. -/
structure Closed (n n' : Net P) (fd : Fd) (shared : Bool) : Prop where
  item : n'.item = Function.update n.item fd none
  gen : ∀ g, g ≠ fd → n'.gen g = n.gen g
  kernel : n'.kernel = n.kernel.close fd (shared && decide ((itemOr n fd).waitEvents = 0))
  failed : n'.failed =
    if (itemOr n fd).waitEvents ≠ 0 ∧ n.kernel.reg fd = none then n.failed + 1 else n.failed
  ctx : n'.ctx = n.ctx
  armed : n'.armed = n.armed
  links : n'.links = n.links
  loop : n'.loop = n.loop

omit [DecidableEq P] in
theorem close_spec (n : Net P) (fd : Fd) (shared : Bool) :
    Closed n (close n fd shared) fd shared := by
  obtain ⟨kernel, failed, ctx, armed, links, loop⟩ := getWaitItem_same n fd
  have item : (getWaitItem n fd).item fd = some (itemOr n fd) := by simp [getWaitItem_item]
  have gen : ∀ g, g ≠ fd → (getWaitItem n fd).gen g = n.gen g := by
    intro g hg
    unfold getWaitItem
    split_ifs <;> simp [hg]
  have del : (n.kernel.del fd).2 = true ↔ n.kernel.reg fd = none := by
    unfold Kernel.del
    split_ifs with some
    · simp [Option.isSome_iff_ne_none.mp some]
    · simpa using some
  unfold close
  dsimp only
  rw [item]
  dsimp only
  by_cases idle : (itemOr n fd).waitEvents = 0
  · rw [if_neg (not_not.mpr idle)]
    refine ⟨?_, gen, by simp [freeWaitItem, kernel, idle], ?_, ctx, armed, links, loop⟩
    · simp [freeWaitItem, getWaitItem_item]
    · rw [if_neg fun h => h.1 idle]
      exact failed
  · rw [if_pos idle]
    refine ⟨?_, gen, ?_, ?_, ctx, armed, links, loop⟩
    · simp [freeWaitItem, ctl, setItem, getWaitItem_item]
    · rw [decide_eq_false idle, Bool.and_false]
      simp [freeWaitItem, ctl, kernel, del_close]
    · simp only [freeWaitItem, ctl, setItem, kernel, failed]
      by_cases gone : n.kernel.reg fd = none
      · rw [if_pos (del.mpr gone), if_pos ⟨idle, gone⟩]
      · rw [if_neg fun h => gone (del.mp h), if_neg fun h => gone h.2]

omit [DecidableEq P] in
theorem Closed.itemOr {shared : Bool} (closed : Closed n n' fd shared) :
    itemOr n' g = if g = fd then .new else itemOr n g := by
  by_cases hg : g = fd <;> simp [Network.itemOr, closed.item, hg]

end Specs

end Conet.Core.Network
