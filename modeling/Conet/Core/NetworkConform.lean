/- Module: Conet/Core/NetworkConform
   source: core/src/network.cpp, core/src/network_hook.cpp
   digest: When the hooked poll aborts, and when it returns what poll(2) does. -/

import Conet.Base.Pbc
import Conet.Core.NetworkMirror
import Conet.Core.NetworkRun

set_option autoImplicit false
set_option relaxedAutoImplicit false

namespace Conet.Core.NetworkConform

open Conet.Lib Conet.Lib.Epoll Conet.Base.ListHead Conet.Base.ListRings Conet.Core.Network
open Conet.Core.NetworkPoll Conet.Core.NetworkBatch
open Conet.Core.NetworkRun (Inv Owns)
open Conet.Base.Pbc (toInt32)

universe u

variable {P : Type u}

section Hook

/-- What `poll` calls: the real one, `usleep`, or `co_poll`. -/
inductive Way
  | real
  | asleep
  | coroutine
  deriving DecidableEq

def poll (enabled : Bool) (nfds : ℕ) (timeout : ℤ) : Way :=
  if enabled = false then .real
  else if timeout = 0 then if nfds = 0 then .asleep else .real
  else .coroutine

/-- `ppoll`; the timeout is `tv_sec` and `tv_nsec`, if there is one. -/
def ppoll (enabled : Bool) (nfds : ℕ) (timeout : Option (ℤ × ℤ)) : Way :=
  if enabled = false then .real
  else if timeout = none ∨ timeout = some (0, 0) then if nfds = 0 then .asleep else .real
  else .coroutine

/-- The timeout that `ppoll` gives to `co_poll`. -/
def ppollTimeout (tvSec tvNsec : ℤ) : ℤ := toInt32 (tvSec * 1000 + tvNsec.tdiv 1000000)

/-- A thread, and the conditions that `epoll_wait` has delivered for a descriptor since a call began. -/
structure Sys (P : Type u) where
  net : Net P
  delivered : P → Fd → Events

def Sys.init : Sys P := ⟨.init, fun _ _ => 0⟩

variable [DecidableEq P]

def Sys.deliver (s : Sys P) : Event P → P → Fd → Events
  | .polled p _ _ => Function.update s.delivered p fun _ => 0
  | .batch gs => fun q fd =>
    if fd ∈ gs then s.delivered q fd ||| s.net.kernel.reported fd else s.delivered q fd
  | _ => s.delivered

/-- The steps that are looked at: the calls come from the hook, and no descriptor is closed while a call
waits for it, or so that its registration stays. -/
def Allowed (n : Net P) : Event P → Prop
  | .polled _ fds timeout => poll true fds.length timeout = .coroutine ∨
    ∃ tvSec tvNsec, ppoll true fds.length (some (tvSec, tvNsec)) = .coroutine ∧
      timeout = ppollTimeout tvSec tvNsec
  | .closed fd shared =>
    (∀ p c f, n.ctx p = some c → f ∈ c.fds → f.fd ≠ (fd : ℤ)) ∧ NetworkRun.Drops n fd shared
  | _ => True

/-- The step is due, and ends in a fault. -/
inductive Faults (n : Net P) : Event P → Prop
  | poll (p : P) (fds : List PollFd) (timeout : ℤ) (e : Fault) (away : n.loop.Away)
      (fresh : n.ctx p = none) (polls : coPoll n p fds timeout = .error e) : Faults n (.polled p fds timeout)
  | batch (fds : List Fd) (e : Fault) (out : n.loop = .out) (nodup : fds.Nodup)
      (queued : ∀ fd ∈ fds, n.kernel.queued fd = true) (notifies : procNetevent n fds = .error e) :
      Faults n (.batch fds)
  | dispatch (p : P) (c : PollCtx) (next : Node Unit P) (ret : ℤ) (e : Fault)
      (loop : n.loop = .test (.item p) next) (ctx : n.ctx p = some c) (coroutine : c.coroutine = true)
      (returns : coPollReturn
        { n with links := listDelInit n.links (.item p), loop := .body next } p c = .error e) :
      Faults n (.dispatched p c.fds ret)
  | timeout (p : P) (c : PollCtx) (ret : ℤ) (e : Fault) (away : n.loop.Away)
      (armed : n.armed p = true) (ctx : n.ctx p = some c) (coroutine : c.coroutine = true)
      (returns : coPollReturn { n with armed := Function.update n.armed p false } p
        { c with retcode := 1 } = .error e) :
      Faults n (.timedOut p c.fds ret)

inductive SysStep : Option (Sys P) → Event P → Option (Sys P) → Prop
  | step (s : Sys P) (ev : Event P) (n' : Net P) (allowed : Allowed s.net ev)
      (step : Step s.net ev n') : SysStep (some s) ev (some ⟨n', s.deliver ev⟩)
  | fault (s : Sys P) (ev : Event P) (allowed : Allowed s.net ev) (faults : Faults s.net ev) :
      SysStep (some s) ev none

def SysRun : List (Event P) → Option (Sys P) → Prop := Trace (some .init) SysStep

section Delivered

variable {s : Sys P} {p q : P} {fds : List PollFd} {timeout : ℤ} {fd : Fd} {gs : List Fd}

@[simp] theorem deliver_polled_self : s.deliver (.polled p fds timeout) p fd = 0 := by
  rw [Sys.deliver, Function.update_self]

theorem deliver_polled_ne (hq : q ≠ p) : s.deliver (.polled p fds timeout) q fd = s.delivered q fd := by
  rw [Sys.deliver, Function.update_of_ne hq]

theorem deliver_batch : s.deliver (.batch gs) q fd =
    if fd ∈ gs then s.delivered q fd ||| s.net.kernel.reported fd else s.delivered q fd := rfl

end Delivered

end Hook

/-! What poll(2) returns. -/

section Spec

def pollErr : BitVec 16 := 0x8
def pollHup : BitVec 16 := 0x10

/-- `revents` of an entry: what it asks for, and errors and hang-ups, of what has been delivered. -/
def conforming (f : PollFd) (delivered : Events) : BitVec 16 :=
  if f.fd < 0 then 0 else (f.events ||| pollErr ||| pollHup) &&& delivered.setWidth 16

structure Answers (delivered : Fd → Events) (fds : List PollFd) (ret : ℤ) : Prop where
  revents : ∀ f ∈ fds, f.revents = conforming f (delivered f.fd.toNat)
  ret : ret = fds.countP fun f => f.revents ≠ 0

def Sys.Right (s : Sys P) : Event P → Prop
  | .dispatched p fds ret | .timedOut p fds ret => Answers (s.delivered p) fds ret
  | _ => True

/-- No error and no hang-up has been delivered that the entry does not ask for. -/
def Heeded (f : PollFd) (delivered : Events) : Prop :=
  delivered &&& (epollErr ||| epollHup) &&& ~~~(f.events.signExtend 32) = 0

/-- The condition on a step: the descriptors of a call are not negative, all different, and of no other
call; and when it returns, see `Heeded`. -/
def Sys.Meets (s : Sys P) : Event P → Prop
  | .polled _ fds _ =>
    (∀ f ∈ fds, 0 ≤ f.fd ∧ (itemOr s.net f.fd.toNat).pollCtx = none) ∧ (nums fds).Nodup
  | .dispatched p fds _ | .timedOut p fds _ => ∀ f ∈ fds, Heeded f (s.delivered p f.fd.toNat)
  | _ => True

variable [DecidableEq P]

/-- Runs without a fault, in which every call returns what it is to return. -/
def ConformRun : List (Event P) → Option (Sys P) → Prop :=
  Trace (some .init) fun s ev s' => SysStep s ev s' ∧ s' ≠ none ∧ ∀ t, s = some t → t.Right ev

def MeetsRun : List (Event P) → Option (Sys P) → Prop :=
  Trace (some .init) fun s ev s' => SysStep s ev s' ∧ ∀ t, s = some t → t.Meets ev

end Spec

section Masks

variable {f : PollFd} {d : Events}

theorem failure_bits (i : ℕ) : (epollErr ||| epollHup).getLsbD i = true ↔ i = 3 ∨ i = 4 := by
  constructor
  · intro bit
    have lt : i < 32 := BitVec.lt_of_getLsbD bit
    have all : ∀ j : Fin 32, (epollErr ||| epollHup).getLsbD j = true →
        (j : ℕ) = 3 ∨ (j : ℕ) = 4 := by decide
    exact all ⟨i, lt⟩ bit
  · rintro (rfl | rfl) <;> decide

theorem pollFailure_bits (i : ℕ) : (pollErr ||| pollHup).getLsbD i = true ↔ i = 3 ∨ i = 4 := by
  constructor
  · intro bit
    have lt : i < 16 := BitVec.lt_of_getLsbD bit
    have all : ∀ j : Fin 16, (pollErr ||| pollHup).getLsbD j = true →
        (j : ℕ) = 3 ∨ (j : ℕ) = 4 := by decide
    exact all ⟨i, lt⟩ bit
  · rintro (rfl | rfl) <;> decide

theorem signExtend_bit (events : BitVec 16) {i : ℕ} (lt : i < 16) :
    (events.signExtend 32).getLsbD i = events.getLsbD i := by
  have wide : i < 32 := by omega
  rw [BitVec.getLsbD_signExtend, if_pos lt, decide_eq_true wide, Bool.true_and]

theorem heeded_iff : Heeded f d ↔
    ∀ i, i = 3 ∨ i = 4 → d.getLsbD i = true → f.events.getLsbD i = true := by
  unfold Heeded
  rw [eq_zero_iff]
  constructor
  · intro none i failure bit
    have lt : i < 16 := by omega
    have wide : i < 32 := by omega
    have here := none i
    rw [BitVec.getLsbD_and, BitVec.getLsbD_and, bit, (failure_bits i).mpr failure, BitVec.getLsbD_not,
      decide_eq_true wide, signExtend_bit _ lt] at here
    simpa using here
  · intro asked i
    by_contra bit
    rw [Bool.not_eq_false, BitVec.getLsbD_and, BitVec.getLsbD_and, Bool.and_eq_true, Bool.and_eq_true,
      failure_bits, BitVec.getLsbD_not] at bit
    obtain ⟨⟨bit, failure⟩, off⟩ := bit
    have lt : i < 16 := by omega
    rw [signExtend_bit _ lt, asked i failure bit] at off
    simp at off

theorem within_asked : Within (pollEvent2epoll f.events &&& d) pollMask := by
  intro i bit
  rw [BitVec.getLsbD_and, Bool.and_eq_true] at bit
  exact within_and i bit.1

/-- What the call records is what it is to report, if the entry is heeded. -/
theorem recorded_iff (pos : 0 ≤ f.fd) (within : Within d pollMask) :
    epollEvent2poll (pollEvent2epoll f.events &&& d) = conforming f d ↔ Heeded f d := by
  have bits : ∀ i, i < 16 → ((epollEvent2poll (pollEvent2epoll f.events &&& d)).getLsbD i =
      (f.events.getLsbD i && d.getLsbD i)) := by
    intro i lt
    cases bit : d.getLsbD i with
    | false =>
      rw [epollEvent2poll, BitVec.getLsbD_setWidth, BitVec.getLsbD_and, BitVec.getLsbD_and, bit]
      simp
    | true =>
      rw [epollEvent2poll, pollEvent2epoll, BitVec.getLsbD_setWidth, BitVec.getLsbD_and, BitVec.getLsbD_and,
        BitVec.getLsbD_and, signExtend_bit _ lt, bit, within i bit, decide_eq_true lt]
      simp
  have report : ∀ i, i < 16 → ((conforming f d).getLsbD i =
      ((f.events.getLsbD i || decide (i = 3 ∨ i = 4)) && d.getLsbD i)) := by
    intro i lt
    have failure : (pollErr ||| pollHup).getLsbD i = decide (i = 3 ∨ i = 4) := by
      rw [Bool.eq_iff_iff, pollFailure_bits, decide_eq_true_iff]
    rw [conforming, if_neg (by omega), BitVec.or_assoc, BitVec.getLsbD_and, BitVec.getLsbD_or, failure,
      BitVec.getLsbD_setWidth, decide_eq_true lt, Bool.true_and]
  rw [heeded_iff]
  constructor
  · intro same i failure bit
    have lt : i < 16 := by omega
    have here := congrArg (fun b => b.getLsbD i) same
    simp only [bits i lt, report i lt, bit, failure, decide_true, Bool.or_true, Bool.and_true] at here
    exact here
  · intro asked
    apply BitVec.eq_of_getLsbD_eq
    intro i lt
    rw [bits i lt, report i lt]
    cases bit : d.getLsbD i with
    | false => simp
    | true =>
      by_cases failure : i = 3 ∨ i = 4
      · simp [asked i failure bit]
      · simp [failure]

end Masks

section Width

variable {k : Kernel Fd Ptr} {ptr q : Ptr} {m waitEvents mask : Events} {g : Fd} {n n' : Net P}

/-- The wait items and the registrations have no other events than poll knows. -/
structure Narrow (n : Net P) : Prop where
  asks : ∀ fd, Within (itemOr n fd).waitEvents pollMask
  reg : ∀ fd mask ptr, n.kernel.reg fd = some (mask, ptr) → Within mask (pollMask ||| epollEt)

theorem interestKernel_mask (reg : (interestKernel k ptr waitEvents m).1.reg g = some (mask, q)) :
    k.reg g = some (mask, q) ∨ mask = (m ||| waitEvents) ||| epollEt ∨ mask = m ||| epollEt := by
  by_cases hg : g = ptr.fd
  · unfold interestKernel Kernel.mod Kernel.add Kernel.arm at reg
    split_ifs at reg <;> simp_all
  · rw [interestKernel_reg_ne hg] at reg
    exact .inl reg

theorem clearKernel_mask (reg : (clearKernel k ptr m).1.reg g = some (mask, q)) :
    k.reg g = some (mask, q) ∨ mask = m ||| epollEt := by
  by_cases hg : g = ptr.fd
  · unfold clearKernel Kernel.mod Kernel.del Kernel.arm at reg
    split_ifs at reg <;> simp_all
  · rw [clearKernel_reg_ne hg] at reg
    exact .inl reg

theorem within_zero : Within (0 : Events) mask := by
  intro i bit
  simp at bit

theorem within_or_et (within : Within m pollMask) : Within (m ||| epollEt) (pollMask ||| epollEt) := by
  intro i bit
  rw [BitVec.getLsbD_or, Bool.or_eq_true] at bit ⊢
  exact bit.imp (within i) id

theorem Narrow.reported (narrow : Narrow n) (fd : Fd) : Within (n.kernel.reported fd) pollMask := by
  intro i bit
  unfold Kernel.reported at bit
  split at bit
  · rename_i mask ptr reg
    have failure : Within epollErr pollMask ∧ Within epollHup pollMask :=
      ⟨within_iff.mpr (by decide), within_iff.mpr (by decide)⟩
    simp only [wanted, BitVec.getLsbD_and, BitVec.getLsbD_or, BitVec.getLsbD_not, Bool.and_eq_true,
      Bool.or_eq_true] at bit
    obtain ⟨-, (⟨asked, -, edge⟩ | err) | hup⟩ := bit
    · have known := narrow.reg fd mask ptr reg i asked
      rw [BitVec.getLsbD_or, Bool.or_eq_true] at known
      obtain poll | et := known
      · exact poll
      · rw [et] at edge
        cases edge
    · exact failure.1 i err
    · exact failure.2 i hup
  · simp at bit

theorem Narrow.congr (narrow : Narrow n)
    (item : ∀ fd, (itemOr n' fd).waitEvents = (itemOr n fd).waitEvents)
    (reg : n'.kernel.reg = n.kernel.reg) : Narrow n' :=
  ⟨fun fd => item fd ▸ narrow.asks fd, reg ▸ narrow.reg⟩

theorem narrow_init : Narrow (Net.init : Net P) := by
  refine ⟨fun fd i bit => ?_, by simp [Net.init, Kernel.init]⟩
  simp [itemOr, Net.init, WaitItem.new] at bit

variable [DecidableEq P] {p : P} {fds : List PollFd} {i : ℕ}

theorem Narrow.initAll (narrow : Narrow n) (all : InitAll p i fds n n') : Narrow n' := by
  induction all with
  | nil => exact narrow
  | @cons i f fs n n₁ n' c ctx inits rest ih =>
    apply ih
    have asked : Within (pollEvent2epoll f.events) pollMask := within_and
    have both := asked.or (narrow.asks f.fd.toNat)
    constructor
    · intro fd
      by_cases same : fd = f.fd.toNat
      · simpa [itemOr, inits.item, same] using both
      · simpa [itemOr, inits.item, same] using narrow.asks fd
    · intro fd mask ptr reg
      rw [inits.kernel] at reg
      obtain old | rfl | rfl := interestKernel_mask reg
      · exact narrow.reg fd mask ptr old
      · exact within_or_et both
      · exact within_or_et asked

theorem Narrow.notify (narrow : Narrow n) {events : Events}
    (ok : fdNotifyEventsToPoll n ptr events = .ok n') : Narrow n' := by
  obtain ⟨w, item, -, notified⟩ := fdNotify_ok ok
  have cleared : Narrow (clearInvalidEvent n ptr w events) := by
    have self : itemOr n ptr.fd = w := by simp [itemOr, item]
    have rest : Within (w.waitEvents &&& ~~~events) pollMask := (self ▸ narrow.asks ptr.fd).and_not
    rw [clearInvalidEvent_eq]
    constructor
    · intro fd
      by_cases same : fd = ptr.fd
      · simpa [itemOr, ctl, setItem, same] using rest
      · simpa [itemOr, ctl, setItem, same] using narrow.asks fd
    · intro fd mask q reg
      obtain old | rfl := clearKernel_mask reg
      · exact narrow.reg fd mask q old
      · exact within_or_et rest
  cases notified with
  | stale => exact cleared
  | unwanted => exact cleared
  | raised => exact narrow.congr (fun _ => rfl) rfl

theorem Narrow.notifyAll (narrow : Narrow n) {evs : List (Ptr × Events)}
    (ok : notifyAll evs n = .ok n') : Narrow n' := by
  induction evs generalizing n with
  | nil =>
    obtain rfl := Except.ok.inj ok
    exact narrow
  | cons ev evs ih =>
    rw [Network.notifyAll] at ok
    split at ok
    · rename_i n₁ first
      exact ih (narrow.notify first) ok
    · cases ok

theorem Narrow.returns (narrow : Narrow n) {c : PollCtx} {ret : ℤ}
    (ok : coPollReturn n p c = .ok (n', ret)) : Narrow n' := by
  obtain ⟨n₁, gs, detached, rfl, -, -⟩ := coPollReturn_ok ok
  refine narrow.congr (fun fd => ?_) (by rw [← detached.rest.kernel])
  change (itemOr n₁ fd).waitEvents = _
  rw [detached.item fd]
  split_ifs <;> rfl

theorem Narrow.step (narrow : Narrow n) {ev : Event P} (step : Step n ev n') : Narrow n' := by
  cases step with
  | poll _ p fds timeout away fresh polls =>
    obtain ⟨n₁, c, all, ctx, rfl⟩ := coPoll_ok polls
    have start : Narrow (polling n p fds timeout) := narrow.congr (fun _ => rfl) rfl
    exact (start.initAll all).congr (fun _ => rfl) rfl
  | batch _ fds out nodup queued notifies =>
    unfold procNetevent at notifies
    dsimp only at notifies
    split_ifs at notifies
    · obtain rfl := Except.ok.inj notifies
      exact narrow.congr (fun _ => rfl) rfl
    · split at notifies
      · rename_i n₁ all
        obtain rfl := Except.ok.inj notifies
        have start : Narrow { n with
            kernel := n.kernel.fetch fds, links := initListHead n.links (.head ()) } :=
          narrow.congr (fun _ => rfl) rfl
        exact (start.notifyAll all).congr (fun _ => rfl) rfl
      · cases notifies
  | dispatch _ p c next ret loop ctx coroutine returns =>
    have start : Narrow { n with links := listDelInit n.links (.item p), loop := .body next } :=
      narrow.congr (fun _ => rfl) rfl
    exact start.returns returns
  | timeout _ p c ret away armed ctx coroutine returns =>
    have start : Narrow { n with armed := Function.update n.armed p false } :=
      narrow.congr (fun _ => rfl) rfl
    exact start.returns returns
  | close fd shared away =>
    have closed := close_spec n fd shared
    constructor
    · intro g
      have item := closed.itemOr (g := g)
      split_ifs at item
      · rw [item]
        intro i bit
        simp [WaitItem.new] at bit
      · rw [item]
        exact narrow.asks g
    · intro g mask ptr reg
      rw [closed.kernel, Kernel.close] at reg
      by_cases same : g = fd
      · simp [same] at reg
      · exact narrow.reg g mask ptr (by simpa [same] using reg)
  | skip => exact narrow.congr (fun _ => rfl) rfl
  | next => exact narrow.congr (fun _ => rfl) rfl
  | ended => exact narrow.congr (fun _ => rfl) rfl
  | activity => exact narrow.congr (fun _ => rfl) rfl
  | consume => exact narrow.congr (fun _ => rfl) rfl

end Width

section Totals

variable [DecidableEq P] {n n' : Net P} {p : P} {fds : List PollFd} {i : ℕ} {c : PollCtx}

/-- The loop of `poll_ctx_t::init` does not abort on descriptors that are free. -/
theorem initFds_total (ctx : n.ctx p = some c)
    (free : ∀ f ∈ fds, 0 ≤ f.fd ∧ (itemOr n f.fd.toNat).pollCtx = none) (nodup : (nums fds).Nodup) :
    ∃ n' c', initFds p i fds n = .ok n' ∧ n'.ctx p = some c' := by
  induction fds generalizing i n c with
  | nil => exact ⟨n, c, rfl, ctx⟩
  | cons f fs ih =>
    obtain ⟨pos, alone⟩ := free f List.mem_cons_self
    obtain ⟨apart, nodup⟩ := List.nodup_cons.mp nodup
    have apart : f.fd.toNat ∉ nums fs := apart
    have first : ∃ n₁, initFd p i f n = .ok n₁ := by
      obtain ⟨-, -, ctx', -⟩ := getWaitItem_same n f.fd.toNat
      rw [initFd, if_neg (by omega)]
      dsimp only
      rw [getWaitItem_item, Function.update_self, ctx', ctx]
      dsimp only
      rw [alone]
      exact ⟨_, rfl⟩
    obtain ⟨n₁, ok⟩ := first
    have inits := initFd_ok ctx ok
    have ctx₁ := congrFun inits.ctx p
    rw [Function.update_self] at ctx₁
    obtain ⟨n', c', rest, done⟩ := ih (i := i + 1) ctx₁ (fun f' mem => by
      obtain ⟨pos', alone'⟩ := free f' (List.mem_cons_of_mem _ mem)
      have listed : f'.fd.toNat ∈ nums fs := List.mem_map_of_mem mem
      have other : f'.fd.toNat ≠ f.fd.toNat := by
        intro same
        rw [same] at listed
        exact apart listed
      refine ⟨pos', ?_⟩
      simpa [itemOr, inits.item, other] using alone') nodup
    refine ⟨n', c', ?_, done⟩
    rw [initFds, ok]
    exact rest

theorem coPoll_total (timeout : ℤ)
    (free : ∀ f ∈ fds, 0 ≤ f.fd ∧ (itemOr n f.fd.toNat).pollCtx = none) (nodup : (nums fds).Nodup) :
    ∃ n', coPoll n p fds timeout = .ok n' := by
  have all : ∃ n' c', initFds p 0 (fds.map fun f => { f with revents := 0 })
      (polling n p fds timeout) = .ok n' ∧ n'.ctx p = some c' := by
    apply initFds_total (c := newCtx fds timeout)
    · rw [polling_ctx, Function.update_self]
    · rw [List.forall_mem_map]
      exact free
    · rw [nums, List.map_map]
      exact nodup
  obtain ⟨n', c', inits, ctx⟩ := all
  unfold coPoll
  dsimp only
  split
  · rename_i n₁ ok
    obtain rfl : n₁ = n' := Except.ok.inj (ok.symm.trans inits)
    rw [ctx]
    exact ⟨_, rfl⟩
  · rename_i e ok
    have wrong := ok.symm.trans inits
    cases wrong

end Totals

section Records

variable [DecidableEq P] {n n' : Net P} {D : List P} {lost : P → Fd → Prop} {ptr : Ptr}
  {events : Events}

/-- What an event leaves in the entry that waits for it, which has had no result yet. -/
theorem notify_recorded (refs : Refs n D lost) (ok : fdNotifyEventsToPoll n ptr events = .ok n')
    (unseen : ∀ p (c : PollCtx) (i : ℕ) (f : PollFd), n.ctx p = some c → c.fds[i]? = some f →
      f.fd.toNat = ptr.fd → f.revents = 0)
    {p : P} {i : ℕ} {c : PollCtx} {f : PollFd} (attached : Attached n ptr.fd p i)
    (ctx : n'.ctx p = some c) (entry : c.fds[i]? = some f) :
    f.revents = epollEvent2poll (pollEvent2epoll f.events &&& events) := by
  obtain ⟨w, item, -, notified⟩ := fdNotify_ok ok
  have self : itemOr n ptr.fd = w := by simp [itemOr, item]
  obtain ⟨c₀, f₀, ctx₀, entry₀, num⟩ := refs.back ptr.fd p i attached
  have none := unseen p c₀ i f₀ ctx₀ entry₀ (by rw [num, Int.toNat_natCast])
  have taken : w.pollCtx = some p ∧ w.pos = i := self ▸ attached
  cases notified with
  | stale alone =>
    rw [taken.1] at alone
    cases alone
  | unwanted q c₁ f₁ pollCtx ctx₁ pos unasked =>
    obtain rfl : q = p := Option.some.inj (pollCtx.symm.trans taken.1)
    rw [clearInvalidEvent_eq] at ctx
    obtain rfl : c₁ = c := Option.some.inj (ctx₁.symm.trans ctx)
    rw [taken.2] at pos
    obtain rfl : f₁ = f := Option.some.inj (pos.symm.trans entry)
    obtain rfl : c₀ = c₁ := Option.some.inj (ctx₀.symm.trans ctx₁)
    obtain rfl : f₀ = f₁ := Option.some.inj (entry₀.symm.trans pos)
    rw [none, unasked]
    decide
  | raised q c₁ f₁ pollCtx ctx₁ pos asked =>
    obtain rfl : q = p := Option.some.inj (pollCtx.symm.trans taken.1)
    rw [taken.2] at pos
    simp only [raised, Function.update_self, Option.some.injEq] at ctx
    subst ctx
    rw [taken.2, List.getElem?_set_self (List.getElem?_eq_some_iff.mp pos).1] at entry
    obtain rfl := Option.some.inj entry
    rfl

theorem notifyAll_recorded (refs : Refs n D lost) {evs : List (Ptr × Events)}
    (nodup : (evs.map fun ev => ev.1.fd).Nodup) (live : ∀ ev ∈ evs, Live n ev.1)
    (unseen : ∀ p (c : PollCtx) (i : ℕ) (f : PollFd), n.ctx p = some c → c.fds[i]? = some f →
      f.fd.toNat ∈ evs.map (fun ev => ev.1.fd) → f.revents = 0)
    (ok : notifyAll evs n = .ok n') {ev : Ptr × Events} (mem : ev ∈ evs) {p : P} {i : ℕ} {c : PollCtx}
    {f : PollFd} (attached : Attached n ev.1.fd p i) (ctx : n'.ctx p = some c)
    (entry : c.fds[i]? = some f) :
    f.revents = epollEvent2poll (pollEvent2epoll f.events &&& ev.2) := by
  induction evs generalizing n D with
  | nil => simp at mem
  | cons first evs ih =>
    obtain ⟨ptr, events⟩ := first
    rw [List.map_cons, List.nodup_cons] at nodup
    have unseenHere : ∀ p (c : PollCtx) (i : ℕ) (f : PollFd), n.ctx p = some c →
        c.fds[i]? = some f → f.fd.toNat = ptr.fd → f.revents = 0 :=
      fun p c i f hc hf num => unseen p c i f hc hf (by simp [num])
    obtain ⟨n₁, D₁, one, refs₁, passed⟩ := notify_refs refs events (live (ptr, events) (by simp)) unseenHere
    have unseen₁ := passed.unseen (by simpa using nodup.1) fun p c i f hc hf mem =>
      unseen p c i f hc hf (List.mem_cons_of_mem _ mem)
    have live₁ : ∀ ev ∈ evs, Live n₁ ev.1 := fun ev hev => passed.live _ (live ev (by simp [hev]))
    rw [Network.notifyAll, one] at ok
    obtain rfl | later := List.mem_cons.mp mem
    · -- the events that come later are for other descriptors
      obtain ⟨n₂, D₂, rest, -, passes⟩ := notifyAll_refs refs₁ nodup.2 live₁ unseen₁
      obtain rfl : n₂ = n' := Except.ok.inj (rest.symm.trans ok)
      obtain ⟨c₁, ctx₁, asks⟩ := passes.back p c ctx
      obtain ⟨f₁, entry₁, same⟩ := asks.entry_back entry
      have recorded := notify_recorded refs one unseenHere attached ctx₁ entry₁
      obtain ⟨c₀, f₀, ctx₀, entry₀, num⟩ := refs.back _ p i attached
      obtain ⟨c₂, ctx₂, asks₀⟩ := passed.forth p c₀ ctx₀
      obtain rfl : c₁ = c₂ := Option.some.inj (ctx₁.symm.trans ctx₂)
      obtain ⟨f₂, entry₂, same₀⟩ := asks₀.entry i f₀ entry₀
      obtain rfl : f₁ = f₂ := Option.some.inj (entry₁.symm.trans entry₂)
      rw [same.events, same.revents, recorded]
      intro ev hev other
      apply nodup.1
      rw [same₀.fd, num, Int.toNat_natCast] at other
      rw [other]
      exact List.mem_map_of_mem hev
    · exact ih refs₁ nodup.2 live₁ unseen₁ ok later ((passed.item _ p i).mpr attached)

end Records

section Runs

variable [DecidableEq P] {n' : Net P} {s' : Option (Sys P)} {t : Sys P} {D D' : List P}
  {lost lost' : P → Fd → Prop} {p : P} {c : PollCtx} {f : PollFd} {i : ℕ} {fds : List PollFd} {ret : ℤ}
  {ev : Event P}

/-- What is known of a thread while no step has ended in a fault: no descriptor of a call is lost to
it, and an entry has for result what it has asked for of what has been delivered. -/
structure Good (t : Sys P) (D : List P) (lost : P → Fd → Prop) : Prop extends Inv t.net D lost where
  narrow : Narrow t.net
  within : ∀ p fd, Within (t.delivered p fd) pollMask
  kept : ∀ p c f, t.net.ctx p = some c → f ∈ c.fds → ¬ lost p f.fd.toNat
  results : ∀ p c f, t.net.ctx p = some c → f ∈ c.fds →
    f.revents = epollEvent2poll (pollEvent2epoll f.events &&& t.delivered p f.fd.toNat)

omit [DecidableEq P] in
theorem good_init : Good (Sys.init : Sys P) [] fun _ _ => False where
  toInv := NetworkRun.inv_init
  narrow := narrow_init
  within := fun _ _ => within_zero
  kept := by simp
  results := by simp [Sys.init, Net.init]

omit [DecidableEq P] in
theorem Good.nonneg (good : Good t D lost) (ctx : t.net.ctx p = some c) (mem : f ∈ c.fds) :
    0 ≤ f.fd ∧ ∃ i, Attached t.net f.fd.toNat p i := by
  obtain ⟨i, entry⟩ := List.mem_iff_getElem?.mp mem
  obtain ⟨pos, attached⟩ := good.pend p c i f ctx entry (good.kept p c f ctx mem)
  exact ⟨pos, i, attached⟩

omit [DecidableEq P] in
theorem Good.owns (good : Good t D lost) (p : P) : Owns t.net p := by
  intro c ctx f mem
  obtain ⟨-, i, attached⟩ := good.nonneg ctx mem
  exact .inr attached.1

omit [DecidableEq P] in
/-- A call that returns how many of its entries have a result. -/
theorem Good.answers_iff (good : Good t D lost) (ctx : t.net.ctx p = some c)
    (count : ret = c.fds.countP fun f => f.revents ≠ 0) :
    Answers (t.delivered p) c.fds ret ↔ ∀ f ∈ c.fds, Heeded f (t.delivered p f.fd.toNat) := by
  have each : ∀ f ∈ c.fds, (f.revents = conforming f (t.delivered p f.fd.toNat) ↔
      Heeded f (t.delivered p f.fd.toNat)) := by
    intro f mem
    rw [good.results p c f ctx mem]
    exact recorded_iff (good.nonneg ctx mem).1 (good.within p f.fd.toNat)
  constructor
  · intro answers f mem
    exact (each f mem).mp (answers.revents f mem)
  · intro heeded
    exact ⟨fun f mem => (each f mem).mpr (heeded f mem), count⟩

theorem initAll_pos {n : Net P} (all : InitAll p i fds n n') : ∀ f ∈ fds, 0 ≤ f.fd := by
  induction all with
  | nil => simp
  | cons ctx inits rest ih =>
    rw [List.forall_mem_cons]
    exact ⟨inits.pos, ih⟩

/-- A poll that does not abort meets the condition. -/
theorem coPoll_meets {n : Net P} {timeout : ℤ} (ok : coPoll n p fds timeout = .ok n') :
    (∀ f ∈ fds, 0 ≤ f.fd ∧ (itemOr n f.fd.toNat).pollCtx = none) ∧ (nums fds).Nodup := by
  obtain ⟨n₁, c, all, -, -⟩ := coPoll_ok ok
  obtain ⟨free, nodup⟩ := initAll_nodup all
  have pos := initAll_pos all
  have same : nums (fds.map fun f => { f with revents := 0 }) = nums fds := by
    rw [nums, List.map_map]
    rfl
  rw [same] at free nodup
  rw [List.forall_mem_map] at pos
  exact ⟨fun f mem => ⟨pos f mem, free _ (List.mem_map_of_mem mem)⟩, nodup⟩

/-- A step is right, and ends in no fault, if and only if it meets the condition. -/
theorem Good.right_iff (good : Good t D lost) (step : SysStep (some t) ev s') :
    s' ≠ none ∧ t.Right ev ↔ t.Meets ev := by
  cases step with
  | step _ _ n' allowed step =>
    rw [and_iff_right (by simp)]
    cases step with
    | poll _ p fds timeout away fresh polls => exact iff_of_true trivial (coPoll_meets polls)
    | dispatch _ p c next ret loop ctx coroutine returns =>
      apply good.answers_iff ctx
      obtain ⟨-, -, -, -, -, rfl⟩ := coPollReturn_ok returns
      rw [if_pos (good.retcode p c ctx), good.raise p c ctx]
    | timeout _ p c ret away armed ctx coroutine returns =>
      apply good.answers_iff ctx
      obtain ⟨-, -, -, -, -, rfl⟩ := coPollReturn_ok returns
      obtain ⟨off, -⟩ := (good.armed p).mp armed
      rw [← good.raise p c ctx, good.idle p c ctx off]
      rfl
    | _ => exact Iff.rfl
  | fault _ _ allowed faults =>
    rw [iff_comm]
    refine iff_of_false ?_ (by simp)
    intro meets
    cases faults with
    | poll p fds timeout e away fresh polls =>
      obtain ⟨n', ok⟩ := coPoll_total timeout meets.1 meets.2
      cases ok.symm.trans polls
    | batch fds e out nodup queued notifies =>
      obtain ⟨n', D', ok, -⟩ := good.toInv.batch out nodup
      cases ok.symm.trans notifies
    | dispatch p c next ret e loop ctx coroutine returns =>
      obtain ⟨n', ret, ok⟩ := good.toInv.returns_ok
        { t.net with links := listDelInit t.net.links (.item p), loop := .body next } c ctx
        rfl rfl rfl rfl
      cases ok.symm.trans returns
    | timeout p c ret e away armed ctx coroutine returns =>
      obtain ⟨n', ret, ok⟩ := good.toInv.returns_ok
        { t.net with armed := Function.update t.net.armed p false } { c with retcode := 1 } ctx
        rfl rfl rfl rfl
      cases ok.symm.trans returns

omit [DecidableEq P] in
theorem Good.quiet (good : Good t D lost) (inv : Inv n' D' lost') (narrow : Narrow n')
    (ctx : ∀ p c, n'.ctx p = some c → t.net.ctx p = some c)
    (kept : ∀ p c f, t.net.ctx p = some c → f ∈ c.fds → ¬ lost' p f.fd.toNat) :
    Good ⟨n', t.delivered⟩ D' lost' where
  toInv := inv
  narrow := narrow
  within := good.within
  kept := fun p c f hc => kept p c f (ctx p c hc)
  results := fun p c f hc => good.results p c f (ctx p c hc)

theorem Good.poll (good : Good t D lost) {timeout : ℤ} (fresh : t.net.ctx p = none)
    (narrow : Narrow n') (polls : coPoll t.net p fds timeout = .ok n') :
    Good ⟨n', t.deliver (.polled p fds timeout)⟩ D fun q g => q ≠ p ∧ lost q g := by
  obtain ⟨-, -, -, c, ctx, entries, -⟩ := good.toRefs.coPoll fresh polls
  refine { toInv := good.toInv.poll fresh polls, narrow := narrow, within := ?_, kept := ?_, results := ?_ }
  · intro q fd
    dsimp only
    by_cases hq : q = p
    · rw [hq, deliver_polled_self]
      exact within_zero
    · rw [deliver_polled_ne hq]
      exact good.within q fd
  · intro q c' f hc mem keep
    rw [ctx, Function.update_of_ne keep.1] at hc
    exact good.kept q c' f hc mem keep.2
  · intro q c' f hc mem
    dsimp only at hc ⊢
    rw [ctx] at hc
    by_cases hq : q = p
    · rw [hq, Function.update_self, Option.some.injEq] at hc
      rw [← hc, entries] at mem
      obtain ⟨f₀, -, rfl⟩ := List.mem_map.mp mem
      rw [hq, deliver_polled_self]
      simp [epollEvent2poll]
    · rw [Function.update_of_ne hq] at hc
      rw [deliver_polled_ne hq]
      exact good.results q c' f hc mem

theorem procNetevent_ok {n : Net P} {gs : List Fd} (ok : procNetevent n gs = .ok n')
    (some : n.kernel.report gs ≠ []) :
    ∃ n₁, notifyAll (n.kernel.report gs) { n with
      kernel := n.kernel.fetch gs, links := initListHead n.links (.head ()) } = .ok n₁ ∧
      n'.ctx = n₁.ctx := by
  unfold procNetevent at ok
  dsimp only at ok
  rw [if_neg some] at ok
  split at ok
  · rename_i n₁ all
    obtain rfl := Except.ok.inj ok
    exact ⟨n₁, all, rfl⟩
  · cases ok

/-- An entry after a batch: no event was for its descriptor, or it has had nothing delivered that it
asks for, and has recorded what has come now. -/
theorem Good.batch (good : Good t D lost) {gs : List Fd} (out : t.net.loop = .out) (nodup : gs.Nodup)
    (narrow : Narrow n') (ok : procNetevent t.net gs = .ok n') :
    ∃ D', Good ⟨n', t.deliver (.batch gs)⟩ D' lost := by
  obtain ⟨n'', D', ok', inv', passed⟩ := good.toInv.batch out nodup
  obtain rfl : n' = n'' := Except.ok.inj (ok.symm.trans ok')
  refine ⟨D', { toInv := inv', narrow := narrow, within := ?_, kept := ?_, results := ?_ }⟩
  · intro q fd
    dsimp only
    rw [deliver_batch]
    split_ifs
    · exact (good.within q fd).or (good.narrow.reported fd)
    · exact good.within q fd
  · intro q c f hc mem
    obtain ⟨i, entry⟩ := List.mem_iff_getElem?.mp mem
    obtain ⟨c₀, ctx₀, asks⟩ := passed.back q c hc
    obtain ⟨f₀, entry₀, same⟩ := asks.entry_back entry
    rw [same.fd]
    exact good.kept q c₀ f₀ ctx₀ (List.mem_of_getElem? entry₀)
  · intro q c f hc mem
    obtain ⟨i, entry⟩ := List.mem_iff_getElem?.mp mem
    obtain ⟨c₀, ctx₀, asks⟩ := passed.back q c hc
    obtain ⟨f₀, entry₀, same⟩ := asks.entry_back entry
    have mem₀ := List.mem_of_getElem? entry₀
    have before := good.results q c₀ f₀ ctx₀ mem₀
    have own : ∀ ev ∈ t.net.kernel.report gs, ev.1.fd ∈ gs ∧
        ev.2 = t.net.kernel.reported ev.1.fd ∧ ev.2 ≠ 0 := by
      intro ev hev
      obtain ⟨fd, listed, mask, reg, value, nonzero⟩ := mem_report.mp hev
      rw [(good.reg fd mask ev.1 reg).1]
      exact ⟨listed, value, nonzero⟩
    by_cases event : ∃ ev ∈ t.net.kernel.report gs, ev.1.fd = f.fd.toNat
    · obtain ⟨ev, hev, num⟩ := event
      obtain ⟨listed, value, -⟩ := own ev hev
      rw [num] at listed value
      obtain ⟨-, idle, refs, distinct, live, unseen⟩ := good.toInv.fetched out nodup
      obtain ⟨n₁, all, same'⟩ := procNetevent_ok ok (List.ne_nil_of_mem hev)
      rw [idle] at all
      have attached : Attached t.net ev.1.fd q i := by
        rw [num, same.fd]
        exact (good.pend q c₀ i f₀ ctx₀ entry₀ (good.kept q c₀ f₀ ctx₀ mem₀)).2
      change n'.ctx q = some c at hc
      rw [same'] at hc
      have recorded := notifyAll_recorded refs distinct live
        (fun p c i f hc hf _ => unseen p c i f hc hf) all hev attached hc entry
      -- what had been delivered before, it has not asked for
      have none : pollEvent2epoll f.events &&& t.delivered q f.fd.toNat = 0 := by
        by_contra some
        apply epollEvent2poll_ne_zero within_asked some
        rw [same.events, same.fd, ← before]
        exact unseen q c₀ i f₀ ctx₀ entry₀
      dsimp only
      rw [recorded, deliver_batch, if_pos listed, ← value, BitVec.and_or_distrib_left, none]
      simp
    · have unchanged : f.revents = f₀.revents := by
        apply same.revents
        intro ev hev num
        apply event
        exact ⟨ev, hev, by rw [← num, same.fd]⟩
      have nothing : t.deliver (.batch gs) q f.fd.toNat = t.delivered q f.fd.toNat := by
        rw [deliver_batch]
        split_ifs with listed
        · have zero : t.net.kernel.reported f.fd.toNat = 0 := by
            by_contra nonzero
            apply event
            cases reg : t.net.kernel.reg f.fd.toNat with
            | none => simp [Kernel.reported, reg] at nonzero
            | some r =>
              obtain ⟨mask, ptr⟩ := r
              refine ⟨(ptr, t.net.kernel.reported f.fd.toNat), ?_, (good.reg _ mask ptr reg).1⟩
              exact mem_report.mpr ⟨_, listed, mask, reg, rfl, nonzero⟩
          rw [zero]
          simp
        · rfl
      rw [unchanged, before, same.events, ← same.fd, ← nothing]

theorem returns_ctx {n : Net P} (ok : coPollReturn n p c = .ok (n', ret)) :
    ∀ q c₁, n'.ctx q = some c₁ → n.ctx q = some c₁ := by
  obtain ⟨n₁, gs, detached, rfl, -, -⟩ := coPollReturn_ok ok
  intro q c₁ hc
  dsimp only at hc
  have hq : q ≠ p := by
    rintro rfl
    simp at hc
  rwa [Function.update_of_ne hq, detached.rest.ctx] at hc

theorem Good.step (good : Good t D lost) (allowed : Allowed t.net ev) (step : Step t.net ev n') :
    ∃ D' lost', Good ⟨n', t.deliver ev⟩ D' lost' := by
  have narrow := good.narrow.step step
  have run : NetworkRun.Meets t.net ev → ∃ D', Inv n' D' (NetworkRun.lostAfter lost ev) :=
    good.toInv.step step
  cases step with
  | poll _ p fds timeout away fresh polls => exact ⟨D, _, good.poll fresh narrow polls⟩
  | batch _ gs out nodup queued notifies =>
    obtain ⟨D', good'⟩ := good.batch out nodup narrow notifies
    exact ⟨D', lost, good'⟩
  | dispatch _ p c next ret loop ctx coroutine returns =>
    obtain ⟨D', inv'⟩ := run (good.owns p)
    refine ⟨D', lost, good.quiet inv' narrow ?_ good.kept⟩
    have gone := returns_ctx returns
    exact gone
  | timeout _ p c ret away armed ctx coroutine returns =>
    obtain ⟨D', inv'⟩ := run (good.owns p)
    refine ⟨D', lost, good.quiet inv' narrow ?_ good.kept⟩
    have gone := returns_ctx returns
    exact gone
  | close fd shared away =>
    obtain ⟨D', inv'⟩ := run
      ⟨fun p c f ctx head => allowed.1 p c f ctx (List.mem_of_head? head), allowed.2⟩
    refine ⟨D', _, good.quiet inv' narrow ?_ ?_⟩
    · rw [(close_spec t.net fd shared).ctx]
      exact fun _ _ hc => hc
    · intro p c f ctx mem
      rintro (before | now)
      · exact good.kept p c f ctx mem before
      · apply allowed.1 p c f ctx mem
        rw [← now, Int.toNat_of_nonneg (good.nonneg ctx mem).1]
  | skip | next | ended | activity | consume =>
    obtain ⟨D', inv'⟩ := run trivial
    exact ⟨D', lost, good.quiet inv' narrow (fun _ _ hc => hc) good.kept⟩

/-- The runs that end in no fault, and in which every call returns what poll(2) does, are those whose
steps all meet the condition. -/
theorem conformRun_iff (tr : List (Event P)) (s : Option (Sys P)) : ConformRun tr s ↔ MeetsRun tr s := by
  apply Trace.iff_of_invariant fun s => ∀ t, s = some t → ∃ D lost, Good t D lost
  · intro t start
    obtain rfl := Option.some.inj start
    exact ⟨[], _, good_init⟩
  · intro s ev s' inv
    apply and_congr_right
    intro step
    cases s with
    | none => cases step
    | some t =>
      obtain ⟨D, lost, good⟩ := inv t rfl
      simpa using good.right_iff step
  · rintro s ev s' inv ⟨step, -⟩ t' rfl
    cases step with
    | step t _ n' allowed step =>
      obtain ⟨D, lost, good⟩ := inv t rfl
      exact good.step allowed step

/-- A poll of a descriptor that is to be ignored aborts. -/
theorem negative_aborts :
    ¬ ∀ (tr : List (Event ℕ)) (s : Option (Sys ℕ)), SysRun tr s → ConformRun tr s := by
  intro all
  have start : SysRun [] (some (.init : Sys ℕ)) := .init
  have faults : Faults (Net.init : Net ℕ) (.polled 0 [⟨-1, 0, 0⟩] 10) :=
    .poll 0 _ 10 .abort trivial rfl rfl
  have allowed : Allowed (Net.init : Net ℕ) (.polled 0 [⟨-1, 0, 0⟩] 10) := Or.inl rfl
  have aborted := all _ _ (start.step (.fault _ _ allowed faults))
  obtain ⟨-, -, -, ends, -⟩ := aborted.last
  exact ends rfl

end Runs

end Conet.Core.NetworkConform
