/- Module: Conet/Core/DiskIo
   source: core/src/disk_io_hook.cpp
   digest: Reads and writes of a file with an offset, when they are submitted and when they complete. -/

import Conet.Lib.Trace
import Mathlib.Algebra.BigOperators.Group.List.Basic
import Mathlib.Algebra.Order.Group.Nat
import Mathlib.Algebra.Ring.Nat
import Mathlib.Algebra.Ring.Int.Defs

set_option autoImplicit false
set_option relaxedAutoImplicit false

namespace Conet.Core.DiskIo

open Conet.Lib

section Hooks

/-- The largest offset of the file system. -/
structure Config where
  maxBytes : ℕ

/-- The calls, without their descriptor: a read has the size of its buffer, or its buffers. -/
inductive Op
  | read (nbyte : BitVec 64)
  | write (buf : List UInt8)
  | readv (iov : List (BitVec 64))
  | writev (iov : List (List UInt8))

/-- What a call has returned; what it was completed with, if it was submitted; the bytes that a read has
returned; where it read or wrote, and the size of the file at that time. -/
structure Answer where
  ret : ℤ
  res : Option (BitVec 64)
  data : List UInt8
  place : ℕ
  size : ℕ

/-- A call, the offset with which it was submitted, and by how much it has moved that of the file. -/
structure Call where
  op : Op
  off : ℕ
  moved : ℤ
  answer : Option Answer

/-- A regular file, the offset of a descriptor with a disk context, its `O_APPEND`, and the calls, in the
order in which they were made. -/
structure World where
  content : List UInt8
  offset : ℕ
  append : Bool
  calls : List Call

namespace Op

def writes : Op → Bool
  | read _ | readv _ => false
  | write _ | writev _ => true

/-- How many bytes the kernel is asked for. -/
def asked : Op → ℕ
  | read nbyte => nbyte.toNat
  | write buf => buf.length
  | readv iov => (iov.map BitVec.toNat).sum
  | writev iov => (iov.map List.length).sum

def bytes : Op → List UInt8
  | read _ | readv _ => []
  | write buf => buf
  | writev iov => iov.flatten

end Op

/-- The loop that adds up `iov_len`. -/
def totalLen (iov : List (BitVec 64)) : BitVec 64 := iov.foldl (· + ·) 0

/-- No answer but -1, of a call that was not submitted. -/
def refused : Answer := ⟨-1, none, [], 0, 0⟩

namespace World

variable (cfg : Config) (w : World)

/-- `lseek64` with `SEEK_CUR`, which takes the distance as signed. -/
def lseek64 (distance : BitVec 64) : Option ℕ :=
  let target := (w.offset : ℤ) + distance.toInt
  if 0 ≤ target ∧ target ≤ cfg.maxBytes then some target.toNat else none

/-- What the four functions do up to `yield`; `submit` is the result of `io_submit`. -/
def diskIo (op : Op) (size : BitVec 64) (seeks : Bool) (submit : ℤ) : World :=
  let off := if seeks then w.offset else 0
  match if seeks then w.lseek64 cfg size else some w.offset with
  | none => { w with calls := w.calls ++ [⟨op, off, 0, some refused⟩] }
  | some offset =>
    let answer := if submit = 1 then none else some refused
    { w with
      offset
      calls := w.calls ++ [⟨op, off, offset - w.offset, answer⟩] }

def diskRead (nbyte : BitVec 64) (submit : ℤ) : World :=
  w.diskIo cfg (.read nbyte) nbyte true submit

def diskWrite (buf : List UInt8) (submit : ℤ) : World :=
  w.diskIo cfg (.write buf) (.ofNat 64 buf.length) (!w.append) submit

def diskReadv (iov : List (BitVec 64)) (submit : ℤ) : World :=
  w.diskIo cfg (.readv iov) (totalLen iov) true submit

def diskWritev (iov : List (List UInt8)) (submit : ℤ) : World :=
  w.diskIo cfg (.writev iov) (totalLen (iov.map fun buf => .ofNat 64 buf.length)) (!w.append) submit

def call (op : Op) (submit : ℤ) : World :=
  match op with
  | .read nbyte => w.diskRead cfg nbyte submit
  | .write buf => w.diskWrite cfg buf submit
  | .readv iov => w.diskReadv cfg iov submit
  | .writev iov => w.diskWritev cfg iov submit

end World

/-- The kernel transfers at most so many bytes in one call. -/
def maxRwCount : ℕ := 0x7ffff000

/-- It transfers some bytes, if there are any to transfer, or fails. -/
inductive Completion
  | done (most : ℕ) (pos : 0 < most)
  | failed (errno : ℕ) (valid : 0 < errno ∧ errno < 4096)

/-- `bytes` are written at `place`, with zeros before them if they are beyond the end. -/
def overwrite (content : List UInt8) (place : ℕ) (bytes : List UInt8) : List UInt8 :=
  if bytes = [] then content
  else content.take place ++ .replicate (place - content.length) 0 ++ bytes ++
    content.drop (place + bytes.length)

namespace World

variable (w : World) (c : Call)

/-- With `O_APPEND` the kernel writes at the end, whatever offset it is given. -/
def place : ℕ := if c.op.writes && w.append then w.content.length else c.off

def available : ℕ :=
  if c.op.writes then c.op.asked else min c.op.asked (w.content.length - c.off)

def count : Completion → ℕ
  | .done most _ => min (min most maxRwCount) (w.available c)
  | .failed _ _ => 0

/-- `res` of the event. -/
def res : Completion → BitVec 64
  | .done most pos => .ofInt 64 (w.count c (.done most pos))
  | .failed errno _ => .ofInt 64 (-errno)

/-- What the call returns; that `res` is not the size which was asked for makes no difference. -/
def ret (completion : Completion) (res2 : BitVec 64) : ℤ :=
  if res2 ≠ 0 then -1 else (w.res c completion).toInt

/-- `proc_disk_event` finds the event of the call number `i`, and resumes its coroutine. -/
def complete (i : ℕ) (completion : Completion) (res2 : BitVec 64) : World :=
  match w.calls[i]? with
  | some c =>
    if c.answer.isSome then w
    else
      let ret := w.ret c completion res2
      let buf := (w.content.drop c.off).take (w.count c completion)
      let answer : Answer :=
        { ret
          res := some (w.res c completion)
          data := if c.op.writes then [] else buf.take ret.toNat
          place := w.place c
          size := w.content.length }
      { w with
        content :=
          if c.op.writes then overwrite w.content (w.place c) (c.op.bytes.take (w.count c completion))
          else w.content
        calls := w.calls.set i { c with answer := some answer } }
  | none => w

end World

/-- Calls may be made while others are waiting. -/
inductive Event
  | call (op : Op) (submit : ℤ)
  | complete (i : ℕ) (completion : Completion) (res2 : BitVec 64)

def World.step (cfg : Config) (w : World) : Event → World
  | .call op submit => w.call cfg op submit
  | .complete i completion res2 => w.complete i completion res2

def World.run (cfg : Config) (w : World) (events : List Event) : World := events.foldl (step cfg) w

end Hooks

/-! What the calls are to do to the offset. -/

section Spec

/-- The call has moved the offset by what it has returned, and `O_APPEND` has been heeded. -/
structure Call.Right (append : Bool) (c : Call) (a : Answer) : Prop where
  moves : 0 ≤ a.ret → c.moved = a.ret
  stays : a.ret = -1 → c.moved = 0
  reported : ∀ res, a.res = some res → res.toInt < 0 → a.ret = -1
  lands : append = true → c.op.writes = true → a.res.isSome → a.place = a.size

/-- What a call adds to the offset in all: one that waits may have done so already. -/
def Call.net (c : Call) : ℤ :=
  match c.answer with
  | some a => max a.ret 0
  | none => c.moved

def Call.data (c : Call) : List UInt8 :=
  match c.answer with
  | some a => a.data
  | none => []

/-- The reads return the bytes of the file in order, and 0 only after the last: all that come later
return no bytes. -/
structure World.ReadsInOrder (w : World) (start : ℕ) : Prop where
  counted : ∀ c ∈ w.calls, ∀ a, c.answer = some a → 0 ≤ a.ret → (a.data.length : ℤ) = a.ret
  inOrder : w.calls.flatMap Call.data <+: w.content.drop start
  ended : ∀ j c a, w.calls[j]? = some c → c.answer = some a → a.ret = 0 → c.op.asked ≠ 0 →
    (w.calls.take j).flatMap Call.data = w.content.drop start

structure World.Good (start : ℕ) (w : World) : Prop where
  right : ∀ c ∈ w.calls, ∀ a, c.answer = some a → c.Right w.append a
  offset : (w.offset : ℤ) = start + (w.calls.map Call.net).sum
  reads : (∀ c ∈ w.calls, c.op.writes = false ∧ c.answer.isSome) → w.ReadsInOrder start

/-- The size by which a call moves the offset before it is submitted. -/
def Op.size : Op → BitVec 64
  | read nbyte => nbyte
  | write buf => .ofNat 64 buf.length
  | readv iov => totalLen iov
  | writev iov => totalLen (iov.map fun buf => .ofNat 64 buf.length)

def Op.seeks (append : Bool) (op : Op) : Bool := !(op.writes && append)

def Op.reach (append : Bool) (op : Op) : ℤ := if op.seeks append then op.size.toInt else 0

/-- What a call is completed with is the size by which it has moved the offset; a failure is that of an
empty call, and error 1, if it is not flagged. -/
def World.Fits (w : World) (c : Call) (completion : Completion) (res2 : BitVec 64) (size : ℤ) : Prop :=
  if res2 ≠ 0 then size = 0
  else
    match completion with
    | .done most pos => (w.count c (.done most pos) : ℤ) = size
    | .failed errno _ => errno = 1 ∧ size = 0

/-- A call that can move the offset is submitted, or is empty; and see `Fits`. -/
def Event.Fair (cfg : Config) (w : World) : Event → Prop
  | call op submit => submit ≠ 1 → (w.lseek64 cfg op.size).isSome → op.reach w.append = 0
  | complete i completion res2 =>
    ∀ c, w.calls[i]? = some c → c.answer = none → w.Fits c completion res2 (c.op.reach w.append)

end Spec

section Kernel

variable {cfg : Config} {w : World} {c : Call}

/-- Nothing is transferred only where there is nothing. -/
theorem count_eq_zero {most : ℕ} {pos : 0 < most} (none : w.count c (.done most pos) = 0) :
    w.available c = 0 := by
  simp only [World.count, maxRwCount] at none
  omega

end Kernel

section Answers

variable {w : World} {c : Call}

def World.answer (w : World) (c : Call) (completion : Completion) (res2 : BitVec 64) : Answer :=
  let ret := w.ret c completion res2
  { ret
    res := some (w.res c completion)
    data :=
      if c.op.writes then [] else ((w.content.drop c.off).take (w.count c completion)).take ret.toNat
    place := w.place c
    size := w.content.length }

end Answers

section Invariant

variable {cfg : Config} {w : World} {c : Call} {start : ℕ}

/-- What the answer of a read says of the file, which nobody has written. -/
structure Answer.Reads (content : List UInt8) (c : Call) (a : Answer) : Prop where
  bytes : a.data <+: content.drop c.off
  length : (a.data.length : ℤ) = max a.ret 0
  ended : a.ret = 0 → c.op.asked ≠ 0 → content.length ≤ c.off

structure World.Inv (start : ℕ) (w : World) : Prop where
  offset : (w.offset : ℤ) = start + (w.calls.map Call.moved).sum
  offs : ∀ j c, w.calls[j]? = some c → c.op.writes = false →
    (c.off : ℤ) = start + ((w.calls.map Call.moved).take j).sum
  given : ∀ c ∈ w.calls, ∀ a, c.answer = some a →
    a.ret = -1 ∨ ∃ res, a.res = some res ∧ a.ret = res.toInt
  reads : (∀ c ∈ w.calls, c.op.writes = false) → ∀ c ∈ w.calls, ∀ a, c.answer = some a →
    a.Reads w.content c
  waiting : ∀ c ∈ w.calls, c.answer = none → c.moved = c.op.reach w.append

theorem start_inv (content : List UInt8) (start : ℕ) (append : Bool) :
    (World.mk content start append []).Inv start := by
  constructor <;> simp

end Invariant

section Reads

variable {w : World} {start : ℕ}

def World.Right (w : World) : Prop := ∀ c ∈ w.calls, ∀ a, c.answer = some a → c.Right w.append a

/-- What has been returned is what the calls have moved the offset by. -/
theorem net_eq_moved (inv : w.Inv start) (right : w.Right) {c : Call} (mem : c ∈ w.calls) :
    c.net = c.moved := by
  cases answer : c.answer with
  | none => simp only [Call.net, answer]
  | some a =>
    have here := right c mem a answer
    simp only [Call.net, answer]
    obtain minus | ⟨res, completed, eq⟩ := inv.given c mem a answer
    · rw [here.stays minus, minus]
      rfl
    · by_cases negative : res.toInt < 0
      · have minus := here.reported res completed negative
        rw [here.stays minus, minus]
        rfl
      · have moves := here.moves (by omega)
        omega

theorem net_sum (inv : w.Inv start) (right : w.Right) :
    (w.calls.map Call.net).sum = (w.calls.map Call.moved).sum := by
  congr 1
  exact List.map_congr_left fun c mem => net_eq_moved inv right mem

theorem prefix_append_of_drop {α : Type} {xs ys zs : List α} (front : xs <+: zs)
    (rear : ys <+: zs.drop xs.length) : xs ++ ys <+: zs := by
  obtain ⟨rest, rfl⟩ := front
  rw [List.drop_left] at rear
  exact (List.prefix_append_right_inj xs).mpr rear

theorem data_front (inv : w.Inv start) (right : w.Right)
    (reads : ∀ c ∈ w.calls, c.op.writes = false ∧ c.answer.isSome) (j : ℕ)
    (bound : j ≤ w.calls.length) :
    (w.calls.take j).flatMap Call.data <+: w.content.drop start ∧
      (((w.calls.take j).flatMap Call.data).length : ℤ) = ((w.calls.map Call.moved).take j).sum := by
  induction j with
  | zero => simp
  | succ j ih =>
    obtain ⟨front, length⟩ := ih (by omega)
    let c := w.calls[j]
    have found : w.calls[j]? = some c := List.getElem?_eq_getElem bound
    have mem : c ∈ w.calls := List.mem_of_getElem? found
    obtain ⟨a, answer⟩ := Option.isSome_iff_exists.mp (reads c mem).2
    have said := inv.reads (fun c mem => (reads c mem).1) c mem a answer
    have data : c.data = a.data := by simp only [Call.data, answer]
    have net : c.net = max a.ret 0 := by simp only [Call.net, answer]
    have moved := net_eq_moved inv right mem
    have off := inv.offs j c found (reads c mem).1
    have more : w.calls.take (j + 1) = w.calls.take j ++ [c] := (List.take_append_getElem bound).symm
    have sum : ((w.calls.map Call.moved).take (j + 1)).sum =
        ((w.calls.map Call.moved).take j).sum + c.moved := by
      rw [← List.map_take, more, List.map_append, List.sum_append, List.map_take]
      simp
    rw [more, List.flatMap_append, List.flatMap_singleton, data, sum]
    refine ⟨prefix_append_of_drop front ?_, ?_⟩
    · rw [List.drop_drop]
      have place : c.off = start + ((w.calls.take j).flatMap Call.data).length := by omega
      exact place ▸ said.bytes
    · have count := said.length
      rw [List.length_append]
      push_cast
      omega

theorem readsInOrder (inv : w.Inv start) (right : w.Right)
    (reads : ∀ c ∈ w.calls, c.op.writes = false ∧ c.answer.isSome) : w.ReadsInOrder start := by
  have kinds : ∀ c ∈ w.calls, c.op.writes = false := fun c mem => (reads c mem).1
  refine ⟨?_, ?_, ?_⟩
  · intro c mem a answer nonneg
    have said := (inv.reads kinds c mem a answer).length
    omega
  · have all := (data_front inv right reads w.calls.length le_rfl).1
    rwa [List.take_length] at all
  · intro j c a found answer zero asked
    have mem : c ∈ w.calls := List.mem_of_getElem? found
    have bound : j < w.calls.length := (List.getElem?_eq_some_iff.mp found).1
    obtain ⟨front, length⟩ := data_front inv right reads j bound.le
    have off := inv.offs j c found (kinds c mem)
    have atEnd := (inv.reads kinds c mem a answer).ended zero asked
    apply front.eq_of_length_le
    rw [List.length_drop]
    omega

theorem good_iff (inv : w.Inv start) : w.Good start ↔ w.Right := by
  constructor
  · exact fun good => good.right
  · intro right
    refine ⟨right, ?_, readsInOrder inv right⟩
    rw [net_sum inv right]
    exact inv.offset

end Reads

section Steps

variable {cfg : Config} {w : World} {start : ℕ}

end Steps

section Main

/-- The file as it is opened, or after a seek. -/
def World.start (content : List UInt8) (offset : ℕ) (append : Bool) : World :=
  ⟨content, offset, append, []⟩

end Main

end Conet.Core.DiskIo
