/- Module: Conet/Core/Select
   source: core/src/network_hook.cpp, core/src/network.cpp
   digest: The hooked select and pselect: three bit sets to one poll and back. -/

import Conet.Base.Pbc
import Conet.Core.Network

set_option autoImplicit false
set_option relaxedAutoImplicit false

namespace Conet.Core.Select

open Conet.Core.Network (PollFd pollMask pollEvent2epoll epollEvent2poll)
open Conet.Lib.Epoll (Events)
open Conet.Base.Pbc (toInt32)

/-! ### The hook -/

def pollin : BitVec 16 := 0x1
def pollpri : BitVec 16 := 0x2
def pollout : BitVec 16 := 0x4
def pollerr : BitVec 16 := 0x8

def hasBit (events bits : BitVec 16) : Bool := decide (events &&& bits ≠ 0)

/-- `fd_set`, with its `FD_SETSIZE` bits. -/
abbrev FdSet := Fin 1024 → Bool

inductive Arg
  | readfds
  | writefds
  | exceptfds
  deriving DecidableEq

/-- The pointers to the sets, of which each may be `NULL`. -/
abbrev Sets := Arg → Option FdSet

/-- The event of `poll` that stands for a set. -/
def Arg.bit : Arg → BitVec 16
  | .readfds => pollin
  | .writefds => pollout
  | .exceptfds => pollerr

def args : List Arg := [.readfds, .writefds, .exceptfds]

/-- `FD_ISSET` of a set that is there. -/
def has (s : Option FdSet) (i : ℕ) : Bool :=
  match s with
  | some s => if h : i < 1024 then s ⟨i, h⟩ else false
  | none => false

def fdSet (s : FdSet) (fd : ℤ) : FdSet := fun i => if (i.val : ℤ) = fd then true else s i

def fdZero : FdSet := fun _ => false

/-- Every `FD_ISSET` of the first loop is inside its set. -/
def InRange (sets : Sets) (nfds : ℤ) : Prop := nfds ≤ 1024 ∨ ∀ a ∈ args, sets a = none

instance (sets : Sets) (nfds : ℤ) : Decidable (InRange sets nfds) :=
  inferInstanceAs (Decidable (_ ∨ ∀ a ∈ args, _))

/-- The `pf` of a turn of the first loop. -/
def pollfdOf (sets : Sets) (i : ℕ) : PollFd :=
  args.foldl (fun pf a => if has (sets a) i then { pf with fd := i, events := pf.events ||| a.bit } else pf)
    ⟨-1, 0, 0⟩

def pollfds (sets : Sets) (nfds : ℤ) : List PollFd :=
  ((List.range nfds.toNat).map (pollfdOf sets)).filter fun pf => 0 ≤ pf.fd

/-- The timeout of `co_poll` for the `tv_sec` and `tv_usec` of a call. -/
def pollTimeout : Option (ℤ × ℤ) → ℤ
  | some (tvSec, tvUsec) => toInt32 (tvSec * 1000 + tvUsec.tdiv 1000)
  | none => 0

/-- How `co_poll` ends: it times out, it fails, or it has been raised so many times, with these conditions
at the descriptors. -/
inductive Outcome
  | timeout
  | failed
  | ready (numRaise : ℕ) (conds : ℕ → BitVec 16)

/-- What `fd_notify_events_to_poll` writes to `revents`; `epoll` has the bits of `poll`. -/
def reported (pf : PollFd) (conds : BitVec 16) : BitVec 16 :=
  epollEvent2poll (pollEvent2epoll pf.events &&& (conds.setWidth 32 : Events))

/-- The result of `co_poll`, and the array that it leaves. -/
def Outcome.coPoll (o : Outcome) (pfs : List PollFd) : ℤ × List PollFd :=
  match o with
  | .timeout => (0, pfs)
  | .failed => (-1, pfs)
  | .ready numRaise conds =>
    (numRaise, pfs.map fun pf => { pf with revents := reported pf (conds pf.fd.toNat) })

/-- `co_poll` times out only if it is given a timeout, and it ends with events only if some descriptor has
been raised. -/
def Outcome.Possible (o : Outcome) (pfs : List PollFd) (timeout : ℤ) : Prop :=
  match o with
  | .timeout => 0 ≤ timeout
  | .failed => True
  | .ready numRaise _ => 0 < numRaise ∧ ∃ pf ∈ (o.coPoll pfs).2, pf.revents ≠ 0

/-- The set `a` gets a bit in this turn of the second loop. -/
def marks (sets : Sets) (pf : PollFd) (a : Arg) : Bool := (sets a).isSome && hasBit pf.revents a.bit

def report (st : ℤ × Sets) (pf : PollFd) : ℤ × Sets :=
  (if args.any (marks st.2 pf) then st.1 + 1 else st.1,
    fun a => (st.2 a).map fun s => if hasBit pf.revents a.bit then fdSet s pf.fd else s)

/-- `select`: its result and the sets that it leaves; nothing when a set is read outside. `co_poll` gets
`pollTimeout`, on which its result depends only through `Outcome.Possible`. -/
def select (sets : Sets) (nfds : ℤ) (o : Outcome) : Option (ℤ × Sets) :=
  if ¬ InRange sets nfds then none
  else
    let pfs := pollfds sets nfds
    if pfs.isEmpty then some ((o.coPoll []).1, sets)
    else
      let polled := o.coPoll pfs
      if polled.1 = 0 then some (0, sets)
      else if polled.1 < 0 then some (polled.1, sets)
      else some (polled.2.foldl report (0, fun a => (sets a).map fun _ => fdZero))

/-- The two hooks, with their `timeval` or `timespec`. -/
inductive Call
  | select (timeout : Option (ℤ × ℤ))
  | pselect (timeout : Option (ℤ × ℤ))

/-- The `timeval` with which `select` runs. -/
def Call.timeval : Call → Option (ℤ × ℤ)
  | .select timeout => timeout
  | .pselect timeout => timeout.map fun t => (t.1, t.2.tdiv 1000)

/-! ### What select(2) says -/

/-- The conditions that make a descriptor ready for a set: `POLLIN`, `POLLRDNORM`, `POLLRDBAND`,
`POLLHUP`, `POLLERR`; `POLLOUT`, `POLLWRNORM`, `POLLWRBAND`, `POLLERR`; and `POLLPRI`. -/
def Arg.conditions : Arg → BitVec 16
  | .readfds => 0xd9
  | .writefds => 0x30c
  | .exceptfds => pollpri

def bits (s : Option FdSet) (nfds : ℤ) : ℕ := (List.range nfds.toNat).countP (has s)

def Outcome.Right (o : Outcome) (sets : Sets) (nfds : ℤ) (timeout : Option (ℤ × ℤ)) (ret : ℤ)
    (sets' : Sets) : Prop :=
  match o with
  | .timeout => timeout ≠ none ∧ ret = 0 ∧ ∀ a, ∀ i < nfds.toNat, has (sets' a) i = false
  | .failed => ret = -1 ∧ sets' = sets
  | .ready _ conds =>
    (∀ a, ∀ i < nfds.toNat, has (sets' a) i = (has (sets a) i && hasBit (conds i) a.conditions)) ∧
      ret = bits (sets' .readfds) nfds + bits (sets' .writefds) nfds + bits (sets' .exceptfds) nfds

def Conforms (call : Call) (sets : Sets) (nfds : ℤ) (o : Outcome) : Prop :=
  ∃ ret sets', select sets nfds o = some (ret, sets') ∧ o.Right sets nfds call.timeval ret sets'

/-- The conditions at a descriptor with which the hook does what select(2) says: in each of its sets the one
event that is asked for is there exactly if one of those that count is, and it is ready for one set at
most. -/
structure Plain (sets : Sets) (i : ℕ) (conds : BitVec 16) : Prop where
  same : ∀ a, has (sets a) i = true → hasBit conds a.bit = hasBit conds a.conditions
  single : (has (sets .readfds) i && hasBit conds pollin).toNat +
    (has (sets .writefds) i && hasBit conds pollout).toNat +
    (has (sets .exceptfds) i && hasBit conds pollerr).toNat ≤ 1

def Outcome.Plain (o : Outcome) (sets : Sets) (nfds : ℤ) (timeout : Option (ℤ × ℤ)) : Prop :=
  match o with
  | .timeout => timeout ≠ none ∧ ∀ a, ∀ i < nfds.toNat, has (sets a) i = false
  | .failed => True
  | .ready _ conds => ∀ i < nfds.toNat, Select.Plain sets i (conds i)

/-! ### Proofs -/

section Loops

variable {sets : Sets} {nfds : ℤ} {i : ℕ} {a : Arg} {conds : BitVec 16}

/-- The descriptor is in one of the sets. -/
def polled (sets : Sets) (i : ℕ) : Bool := args.any fun a => has (sets a) i

theorem polled_iff : polled sets i = true ↔ ∃ a, has (sets a) i = true := by
  rw [polled, List.any_eq_true]
  refine ⟨fun ⟨a, _, h⟩ => ⟨a, h⟩, fun ⟨a, h⟩ => ⟨a, ?_, h⟩⟩
  cases a <;> simp [args]

def asked (sets : Sets) (i : ℕ) : BitVec 16 :=
  (if has (sets .readfds) i then pollin else 0) ||| (if has (sets .writefds) i then pollout else 0) |||
    (if has (sets .exceptfds) i then pollerr else 0)

theorem pollfdOf_eq (sets : Sets) (i : ℕ) :
    pollfdOf sets i = if polled sets i then ⟨i, asked sets i, 0⟩ else ⟨-1, 0, 0⟩ := by
  cases r : has (sets .readfds) i <;> cases w : has (sets .writefds) i <;>
    cases e : has (sets .exceptfds) i <;> simp [pollfdOf, polled, asked, args, r, w, e, Arg.bit]

theorem pollfds_eq (sets : Sets) (nfds : ℤ) :
    pollfds sets nfds =
      ((List.range nfds.toNat).filter (polled sets)).map fun i => ⟨i, asked sets i, 0⟩ := by
  rw [pollfds]
  induction List.range nfds.toNat with
  | nil => rfl
  | cons i l ih =>
    rw [List.map_cons, List.filter_cons, List.filter_cons, ih, pollfdOf_eq]
    by_cases h : polled sets i = true <;> simp [h]

/-- A descriptor is reported with what it is asked for, as far as the mask goes. -/
theorem reported_eq (pf : PollFd) (conds : BitVec 16) :
    reported pf conds = conds &&& (pf.events &&& 0x1d#16) := by
  have mask : pollMask = (0x1d#16).setWidth 32 := by decide
  ext i lt
  have wide : i < 32 := by omega
  simp only [reported, epollEvent2poll, pollEvent2epoll, mask, BitVec.getLsbD_and, lt, wide,
    BitVec.getLsbD_signExtend, BitVec.getLsbD_setWidth, decide_true, Bool.true_and, if_true,
    ← BitVec.getLsbD_eq_getElem]
  cases pf.events.getLsbD i <;> cases conds.getLsbD i <;> simp

theorem hasBit_and (c e b : BitVec 16) : hasBit (c &&& e) b = hasBit c (e &&& b) := by
  rw [hasBit, hasBit, BitVec.and_assoc]

theorem hasBit_reported (a : Arg) (revents : BitVec 16) :
    hasBit (reported ⟨i, asked sets i, revents⟩ conds) a.bit = (has (sets a) i && hasBit conds a.bit) := by
  rw [reported_eq, hasBit_and]
  have none : hasBit conds 0#16 = false := by simp [hasBit]
  cases a <;> cases r : has (sets .readfds) i <;> cases w : has (sets .writefds) i <;>
    cases e : has (sets .exceptfds) i <;>
    simp [asked, r, w, e, Arg.bit, pollin, pollout, pollerr, none]

/-- The second loop counts descriptors, and adds the bits that it sets. -/
theorem foldl_report (pfs : List PollFd) (n : ℤ) (sets : Sets) :
    pfs.foldl report (n, sets) = (n + pfs.countP (fun pf => args.any (marks sets pf)),
      fun a => (sets a).map fun s i =>
        s i || pfs.any fun pf => decide ((i.val : ℤ) = pf.fd) && hasBit pf.revents a.bit) := by
  induction pfs generalizing n sets with
  | nil => simp
  | cons pf pfs ih =>
    have same : ∀ pf', marks (report (n, sets) pf).2 pf' = marks sets pf' := by
      intro pf'
      funext a
      simp [marks, report]
    rw [List.foldl_cons, ← Prod.mk.eta (p := report (n, sets) pf), ih, List.countP_cons]
    simp only [same]
    refine Prod.ext ?_ ?_
    · simp only [report]
      split_ifs <;> push_cast <;> ring
    · funext a
      cases h : sets a with
      | none => simp [report, h]
      | some s =>
        simp only [report, h, Option.map_some, Option.some.injEq]
        funext i
        rw [List.any_cons]
        by_cases bit : hasBit pf.revents a.bit = true
        · by_cases here : (i.val : ℤ) = pf.fd <;> simp [fdSet, bit, here]
        · simp [bit]

/-- The bit `i` of the set `a` after the second loop. -/
def lit (sets : Sets) (conds : ℕ → BitVec 16) (a : Arg) (i : ℕ) : Bool :=
  has (sets a) i && hasBit (conds i) a.bit

theorem has_isSome (h : has (sets a) i = true) : (sets a).isSome = true := by
  cases e : sets a with
  | none => simp [has, e] at h
  | some s => rfl

theorem has_polled (h : has (sets a) i = true) : polled sets i = true := polled_iff.mpr ⟨a, h⟩

end Loops

/-- Three predicates are counted one by one as their disjunction is if no two of them hold together. -/
theorem countP_three {α : Type} (f g h : α → Bool) (l : List α) :
    l.countP f + l.countP g + l.countP h = l.countP (fun i => f i || (g i || h i)) ↔
      ∀ i ∈ l, (f i).toNat + (g i).toNat + (h i).toNat ≤ 1 := by
  have le : ∀ l : List α,
      l.countP (fun i => f i || (g i || h i)) ≤ l.countP f + l.countP g + l.countP h := by
    intro l
    induction l with
    | nil => simp
    | cons i l ih =>
      simp only [List.countP_cons]
      cases f i <;> cases g i <;> cases h i <;> simp <;> omega
  induction l with
  | nil => simp
  | cons i l ih =>
    have bound := le l
    simp only [List.forall_mem_cons, ← ih]
    simp only [List.countP_cons]
    cases f i <;> cases g i <;> cases h i <;> simp <;> omega

section Main

variable {sets : Sets} {nfds : ℤ} {conds : ℕ → BitVec 16} {call : Call} {o : Outcome} {numRaise : ℕ}

def marked (sets : Sets) (nfds : ℤ) (conds : ℕ → BitVec 16) : Sets := fun a =>
  (sets a).map fun _ i => decide (i.val < nfds.toNat) && lit sets conds a i

theorem has_marked (inside : InRange sets nfds) (a : Arg) {i : ℕ} (lt : i < nfds.toNat) :
    has (marked sets nfds conds a) i = lit sets conds a i := by
  cases e : sets a with
  | none => simp [marked, has, lit, e]
  | some s =>
    have few : nfds ≤ 1024 := by
      apply inside.resolve_right
      intro empty
      have none := empty a (by cases a <;> simp [args])
      rw [e] at none
      cases none
    have bound : i < 1024 := by omega
    simp only [marked, has, e, Option.map_some, bound, dif_pos, lt, decide_true, Bool.true_and]

theorem any_at (l : List ℕ) (p : ℕ → Bool) (i : ℕ) :
    (l.any fun j => decide ((i : ℤ) = j) && p j) = (decide (i ∈ l) && p i) := by
  rw [Bool.eq_iff_iff, List.any_eq_true]
  simp only [Bool.and_eq_true, decide_eq_true_eq]
  constructor
  · rintro ⟨j, among, same, h⟩
    obtain rfl : i = j := by omega
    exact ⟨among, h⟩
  · rintro ⟨among, h⟩
    exact ⟨i, among, rfl, h⟩

theorem pollfds_ne (possible : (Outcome.ready numRaise conds).Possible (pollfds sets nfds) 0) :
    (pollfds sets nfds).isEmpty = false := by
  obtain ⟨-, pf, among, -⟩ := possible
  rw [List.isEmpty_eq_false_iff]
  intro empty
  simp [Outcome.coPoll, empty] at among

/-- An entry of the array after `co_poll`. -/
def entry (sets : Sets) (conds : ℕ → BitVec 16) (i : ℕ) : PollFd :=
  ⟨i, asked sets i, reported ⟨i, asked sets i, 0⟩ (conds i)⟩

theorem coPoll_ready : ((Outcome.ready numRaise conds).coPoll (pollfds sets nfds)).2 =
    ((List.range nfds.toNat).filter (polled sets)).map (entry sets conds) := by
  rw [Outcome.coPoll, pollfds_eq, List.map_map]
  rfl

theorem marks_entry (i : ℕ) (a : Arg) : marks sets (entry sets conds i) a = lit sets conds a i := by
  rw [marks, entry, hasBit_reported, lit]
  cases h : has (sets a) i with
  | false => simp
  | true => simp [has_isSome h]

theorem lit_polled {a : Arg} {i : ℕ} (h : lit sets conds a i = true) : polled sets i = true := by
  rw [lit, Bool.and_eq_true] at h
  exact has_polled h.1

theorem any_marks (i : ℕ) : (args.any (marks sets (entry sets conds i)) && polled sets i) =
    args.any fun a => lit sets conds a i := by
  have same : marks sets (entry sets conds i) = fun a => lit sets conds a i :=
    funext (marks_entry i)
  rw [same, Bool.and_eq_left_iff_imp, List.any_eq_true]
  rintro ⟨a, -, h⟩
  exact lit_polled h

theorem any_args (f : Arg → Bool) : args.any f = (f .readfds || (f .writefds || f .exceptfds)) := by
  simp [args]

theorem bits_marked (inside : InRange sets nfds) (a : Arg) :
    bits (marked sets nfds conds a) nfds = (List.range nfds.toNat).countP (lit sets conds a) := by
  apply List.countP_congr
  intro i among
  rw [has_marked inside a (List.mem_range.mp among)]

/-- The number of descriptors is the number of bits if every descriptor is ready for one set at
most. -/
theorem count_iff (inside : InRange sets nfds) :
    (((List.range nfds.toNat).countP fun i => args.any fun a => lit sets conds a i : ℕ) : ℤ) =
      bits (marked sets nfds conds .readfds) nfds + bits (marked sets nfds conds .writefds) nfds +
        bits (marked sets nfds conds .exceptfds) nfds ↔
      ∀ i < nfds.toNat, (lit sets conds .readfds i).toNat + (lit sets conds .writefds i).toNat +
        (lit sets conds .exceptfds i).toNat ≤ 1 := by
  have three := countP_three (lit sets conds .readfds) (lit sets conds .writefds)
    (lit sets conds .exceptfds) (List.range nfds.toNat)
  simp only [List.mem_range] at three
  rw [← three, bits_marked inside, bits_marked inside, bits_marked inside]
  simp only [any_args]
  omega

theorem select_ready (inside : InRange sets nfds)
    (possible : (Outcome.ready numRaise conds).Possible (pollfds sets nfds) 0) :
    select sets nfds (.ready numRaise conds) =
      some ((((List.range nfds.toNat).countP fun i => args.any fun a => lit sets conds a i : ℕ) : ℤ),
        marked sets nfds conds) := by
  have result : ((Outcome.ready numRaise conds).coPoll (pollfds sets nfds)).1 = numRaise := rfl
  have positive : 0 < numRaise := possible.1
  rw [select, if_neg (not_not.mpr inside)]
  simp only [pollfds_ne possible, Bool.false_eq_true, if_false, result]
  rw [if_neg (by omega), if_neg (by omega), foldl_report, coPoll_ready, List.countP_map,
    List.countP_filter, zero_add]
  refine congrArg Option.some (Prod.ext ?_ ?_)
  · have same : ∀ i, args.any (marks (fun a => (sets a).map fun _ => fdZero) (entry sets conds i)) =
        args.any (marks sets (entry sets conds i)) := by
      intro i
      congr 1
      funext a
      simp [marks]
    simp only [Function.comp_apply, same, any_marks]
  · funext a
    cases e : sets a with
    | none => simp [marked, e]
    | some s =>
      simp only [marked, e, Option.map_some, Option.some.injEq]
      funext i
      rw [List.any_map]
      have at_i : ((List.range nfds.toNat).filter (polled sets)).any _ = _ :=
        any_at _ (fun j => hasBit (entry sets conds j).revents a.bit) i
      refine at_i.trans ?_
      have bit : hasBit (entry sets conds i.val).revents a.bit = lit sets conds a i.val :=
        hasBit_reported a 0
      rw [bit]
      cases h : lit sets conds a i.val with
      | false => simp
      | true => simp [lit_polled h]

/-- The hook does what select(2) says exactly if no set is read outside, no bit is left at a timeout,
a call without a timeout does not time out, and every descriptor is ready in a plain way. -/
theorem select_iff (possible : o.Possible (pollfds sets nfds) (pollTimeout call.timeval)) :
    Conforms call sets nfds o ↔ InRange sets nfds ∧ o.Plain sets nfds call.timeval := by
  by_cases inside : InRange sets nfds
  · rw [and_iff_right inside]
    cases o with
    | timeout =>
      have result : select sets nfds .timeout = some (0, sets) := by
        rw [select, if_neg (not_not.mpr inside)]
        simp [Outcome.coPoll]
      constructor
      · rintro ⟨ret, sets', run, limited, -, clear⟩
        obtain ⟨-, rfl⟩ := Prod.mk.inj (Option.some.inj (result.symm.trans run))
        exact ⟨limited, clear⟩
      · rintro ⟨limited, clear⟩
        exact ⟨0, sets, result, limited, rfl, clear⟩
    | failed =>
      have result : select sets nfds .failed = some (-1, sets) := by
        rw [select, if_neg (not_not.mpr inside)]
        simp [Outcome.coPoll]
      exact iff_of_true ⟨-1, sets, result, rfl, rfl⟩ trivial
    | ready numRaise conds =>
      have result := select_ready inside possible
      constructor
      · rintro ⟨ret, sets', run, right, count⟩
        obtain ⟨rfl, rfl⟩ := Prod.mk.inj (Option.some.inj (result.symm.trans run))
        have single := (count_iff inside).mp count
        intro i lt
        refine ⟨fun a h => ?_, single i lt⟩
        have lits := (has_marked inside a lt).symm.trans (right a i lt)
        simpa only [lit, h, Bool.true_and] using lits
      · intro plain
        refine ⟨_, _, result, fun a i lt => ?_, (count_iff inside).mpr fun i lt => (plain i lt).single⟩
        rw [has_marked inside a lt, lit]
        cases h : has (sets a) i with
        | false => rfl
        | true => rw [(plain i lt).same a h]
  · refine iff_of_false ?_ fun h => inside h.1
    rintro ⟨ret, sets', run, -⟩
    rw [select, if_pos inside] at run
    cases run

end Main

/-- A call that waits until the descriptor 0 can be read or the descriptor 1 can be written. -/
def echo : Sets
  | .readfds => some fun i => decide (i = 0)
  | .writefds => some fun i => decide (i = 1)
  | .exceptfds => none

/-- The descriptor 0 becomes readable, while the descriptor 1 has something to read only. -/
theorem conforms_echo : Conforms (.select none) echo 2 (.ready 1 fun _ => pollin) := by
  have possible : (Outcome.ready 1 fun _ => pollin).Possible (pollfds echo 2)
      (pollTimeout (Call.select none).timeval) :=
    ⟨by decide, ⟨0, pollin, pollin⟩, List.mem_cons_self, by decide⟩
  apply (select_iff possible).mpr
  refine ⟨by decide, fun i lt => ?_⟩
  have small : i = 0 ∨ i = 1 := by omega
  rcases small with rfl | rfl
  · refine ⟨fun a h => ?_, by decide⟩
    cases a with
    | readfds => decide
    | writefds => exact absurd h (by decide)
    | exceptfds => exact absurd h (by decide)
  · refine ⟨fun a h => ?_, by decide⟩
    cases a with
    | readfds => exact absurd h (by decide)
    | writefds => decide
    | exceptfds => exact absurd h (by decide)

/-- Without a timeout the hook waits for no time at all. -/
theorem untimed_times_out : ¬ ∀ (call : Call) (sets : Sets) (nfds : ℤ) (o : Outcome),
    o.Possible (pollfds sets nfds) (pollTimeout call.timeval) → Conforms call sets nfds o := by
  intro claim
  obtain ⟨ret, sets', -, limited, -⟩ := claim (.select none) echo 2 .timeout le_rfl
  exact limited rfl

end Conet.Core.Select
