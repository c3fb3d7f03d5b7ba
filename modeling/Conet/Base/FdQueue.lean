/- Module: Conet/Base/FdQueue
   source: base/fd_queue.h, base/src/fd_queue.cpp
   digest: The ring of descriptors, one writer and many readers in any interleaving of their accesses. -/

import Conet.Lib.Trace
import Mathlib.Data.Nat.ModEq
import Mathlib.Logic.Function.Basic

set_option autoImplicit false
set_option relaxedAutoImplicit false

namespace Conet.Base.FdQueue

open Conet.Lib

universe u

variable {T : Type u} [DecidableEq T]

/-- Where the writer is in `push_fd`. -/
inductive Writer
  | idle
  /-- in the loop, before the write of `fds[wpos]` -/
  | checked (fd : ℤ)
  /-- before the compare-and-swap of `write_pos` -/
  | stored (fd : ℤ) (wpos : ℕ)

/-- Where a reader is in `pop_fd`. `seen` is for the proof: how many descriptors had been popped when
it read `read_pos`. -/
inductive Reader
  /-- outside, or before the read of `read_pos` -/
  | top
  /-- before the read of `write_pos` -/
  | started (rpos seen : ℕ)
  /-- before the read of `fds[rpos]` -/
  | some (rpos seen : ℕ)
  /-- before the compare-and-swap of `read_pos` -/
  | loaded (rpos seen : ℕ) (fd : ℤ)

structure State (T : Type u) where
  readPos : ℕ
  writePos : ℕ
  fds : ℕ → ℤ
  writer : Writer
  reader : T → Reader
  /-- all that has been pushed, and all that has been popped, oldest first -/
  pushed : List ℤ
  popped : List ℤ

/-- `lag` descriptors have been popped since the reader read `read_pos`. -/
inductive Event
  | none
  | popped (lag : ℕ)
  | empty (lag : ℕ)

/-- The reader that pops was not overtaken by the whole ring. -/
def Event.Fresh (maxNum : ℕ) : Event → Prop
  | .popped lag => lag < maxNum
  | _ => True

def full (maxNum writePos readPos : ℕ) : Bool :=
  maxNum - 100 ≤ (maxNum + writePos - readPos) % maxNum

inductive Step (maxNum : ℕ) : State T → Event → State T → Prop
  | push {s : State T} (fd : ℤ) (idle : s.writer = .idle) (valid : 0 ≤ fd)
      (room : full maxNum s.writePos s.readPos = false) :
      Step maxNum s .none { s with writer := .checked fd }
  | store {s : State T} (fd : ℤ) (here : s.writer = .checked fd) :
      Step maxNum s .none
        { s with
          fds := Function.update s.fds s.writePos fd
          writer := .stored fd s.writePos }
  | publish {s : State T} (fd : ℤ) (wpos : ℕ) (here : s.writer = .stored fd wpos)
      (same : s.writePos = wpos) :
      Step maxNum s .none
        { s with
          writePos := (wpos + 1) % maxNum
          writer := .idle
          pushed := s.pushed ++ [fd] }
  | again {s : State T} (fd : ℤ) (wpos : ℕ) (here : s.writer = .stored fd wpos)
      (ne : s.writePos ≠ wpos) : Step maxNum s .none { s with writer := .checked fd }
  | start {s : State T} (t : T) (here : s.reader t = .top) :
      Step maxNum s .none
        { s with reader := Function.update s.reader t (.started s.readPos s.popped.length) }
  | empty {s : State T} (t : T) (rpos seen : ℕ) (here : s.reader t = .started rpos seen)
      (eq : rpos = s.writePos) :
      Step maxNum s (.empty (s.popped.length - seen))
        { s with reader := Function.update s.reader t .top }
  | some {s : State T} (t : T) (rpos seen : ℕ) (here : s.reader t = .started rpos seen)
      (ne : rpos ≠ s.writePos) :
      Step maxNum s .none { s with reader := Function.update s.reader t (.some rpos seen) }
  | load {s : State T} (t : T) (rpos seen : ℕ) (here : s.reader t = .some rpos seen) :
      Step maxNum s .none
        { s with reader := Function.update s.reader t (.loaded rpos seen (s.fds rpos)) }
  | pop {s : State T} (t : T) (rpos seen : ℕ) (fd : ℤ) (here : s.reader t = .loaded rpos seen fd)
      (same : s.readPos = rpos) :
      Step maxNum s (.popped (s.popped.length - seen))
        { s with
          readPos := (rpos + 1) % maxNum
          reader := Function.update s.reader t .top
          popped := s.popped ++ [fd] }
  | retry {s : State T} (t : T) (rpos seen : ℕ) (fd : ℤ) (here : s.reader t = .loaded rpos seen fd)
      (ne : s.readPos ≠ rpos) :
      Step maxNum s .none { s with reader := Function.update s.reader t .top }

/-- The queue after `create(max_num)`, which adds 100 to `max_num`. -/
def State.init : State T where
  readPos := 0
  writePos := 0
  fds _ := 0
  writer := .idle
  reader _ := .top
  pushed := []
  popped := []

/-- What a reader holds, as long as nothing has been popped since it started. -/
def ReaderInv (maxNum : ℕ) (popped pushed : List ℤ) : Reader → Prop
  | .top => True
  | .started rpos seen => rpos = seen % maxNum ∧ seen ≤ popped.length
  | .some rpos seen => rpos = seen % maxNum ∧ seen ≤ popped.length ∧
      (seen = popped.length → seen < pushed.length)
  | .loaded rpos seen fd => rpos = seen % maxNum ∧ seen ≤ popped.length ∧
      (seen = popped.length → pushed[seen]? = some fd)

def WriterInv (maxNum : ℕ) (popped pushed : List ℤ) (fds : ℕ → ℤ) : Writer → Prop
  | .idle => pushed.length + 100 ≤ popped.length + maxNum
  | .checked _ => pushed.length + 100 < popped.length + maxNum
  | .stored fd wpos => pushed.length + 100 < popped.length + maxNum ∧
      wpos = pushed.length % maxNum ∧ fds wpos = fd

structure Inv (maxNum : ℕ) (s : State T) : Prop where
  readPos : s.readPos = s.popped.length % maxNum
  writePos : s.writePos = s.pushed.length % maxNum
  front : s.popped <+: s.pushed
  ring : ∀ i fd, s.popped.length ≤ i → s.pushed[i]? = some fd → s.fds (i % maxNum) = fd
  writer : WriterInv maxNum s.popped s.pushed s.fds s.writer
  reader : ∀ t, ReaderInv maxNum s.popped s.pushed (s.reader t)

section Positions

variable {n i j : ℕ}

/-- Two counts less than a lap apart are at one position only if they are the same. -/
theorem eq_of_mod_eq (le : i ≤ j) (near : j - i < n) (same : i % n = j % n) : i = j := by
  have dvd : n ∣ j - i := (Nat.modEq_iff_dvd' le).mp same
  have := Nat.eq_zero_of_dvd_of_lt dvd near
  omega

theorem succ_mod : (i % n + 1) % n = (i + 1) % n := Nat.mod_add_mod i n 1

theorem full_eq (le : i ≤ j) (near : j - i < n) : full n (j % n) (i % n) = decide (n - 100 ≤ j - i) := by
  have pos : 0 < n := by omega
  have below := Nat.mod_lt i pos
  have lap : (n + j % n - i % n) % n = j - i := by
    have split : j = i + (j - i) := by omega
    generalize j - i = d at near split
    subst split
    have parts := Nat.mod_add_div i n
    generalize i % n = a at below parts
    have folded : (i + d) % n = (a + d) % n := by
      rw [← parts, Nat.add_right_comm, Nat.add_mul_mod_self_left]
    rw [folded]
    by_cases wraps : a + d < n
    · rw [Nat.mod_eq_of_lt wraps]
      have : n + (a + d) - a = d + n := by omega
      rw [this, Nat.add_mod_right, Nat.mod_eq_of_lt near]
    · have wrapped : (a + d) % n = a + d - n := by
        rw [Nat.mod_eq_sub_mod (by omega), Nat.mod_eq_of_lt (by omega)]
      rw [wrapped]
      have : n + (a + d - n) - a = d := by omega
      rw [this, Nat.mod_eq_of_lt near]
  rw [full, lap]

end Positions

variable {maxNum : ℕ} {s s' : State T} {tr : List Event} {ev : Event} {t : T} {r : Reader}
  {w : Writer} {popped popped' pushed pushed' : List ℤ} {fds : ℕ → ℤ}

theorem WriterInv.room (inv : WriterInv maxNum popped pushed fds w) :
    pushed.length + 100 ≤ popped.length + maxNum := by
  cases w with
  | idle => exact inv
  | checked fd => exact Nat.le_of_lt inv
  | stored fd wpos => exact Nat.le_of_lt inv.1

/-- Room that has been seen stays, whatever is popped. -/
theorem WriterInv.pop {fd : ℤ} (inv : WriterInv maxNum popped pushed fds w) :
    WriterInv maxNum (popped ++ [fd]) pushed fds w := by
  have longer : (popped ++ [fd]).length = popped.length + 1 := by simp
  cases w with
  | idle =>
    have room : pushed.length + 100 ≤ popped.length + maxNum := inv
    change _ ≤ (popped ++ [fd]).length + maxNum
    omega
  | checked fd' =>
    have room : pushed.length + 100 < popped.length + maxNum := inv
    change _ < (popped ++ [fd]).length + maxNum
    omega
  | stored fd' wpos =>
    refine ⟨?_, inv.2⟩
    have room := inv.1
    omega

/-- More has been pushed or popped: the readers keep what they hold. -/
theorem ReaderInv.mono (own : ReaderInv maxNum popped pushed r) (further : popped <+: popped')
    (longer : pushed <+: pushed') : ReaderInv maxNum popped' pushed' r := by
  have popped_le := further.length_le
  have pushed_le := longer.length_le
  cases r with
  | top => trivial
  | started rpos seen => exact ⟨own.1, own.2.trans popped_le⟩
  | some rpos seen =>
    refine ⟨own.1, own.2.1.trans popped_le, fun now => ?_⟩
    have before := own.2.1
    have there := own.2.2 (by omega)
    omega
  | loaded rpos seen fd =>
    refine ⟨own.1, own.2.1.trans popped_le, fun now => ?_⟩
    have before := own.2.1
    have there := own.2.2 (by omega)
    obtain ⟨more, rfl⟩ := longer
    rw [List.getElem?_append_left (List.getElem?_eq_some_iff.mp there).1]
    exact there

theorem reader_update {reader : T → Reader} (readers : ∀ u, ReaderInv maxNum popped pushed (reader u))
    (own : ReaderInv maxNum popped pushed r) (u : T) :
    ReaderInv maxNum popped pushed (Function.update reader t r u) := by
  by_cases same : u = t
  · subst same
    rwa [Function.update_self]
  · rw [Function.update_of_ne same]
    exact readers u

theorem Inv.move (inv : Inv maxNum s) (own : ReaderInv maxNum s.popped s.pushed r) :
    Inv maxNum { s with reader := Function.update s.reader t r } where
  readPos := inv.readPos
  writePos := inv.writePos
  front := inv.front
  ring := inv.ring
  writer := inv.writer
  reader := reader_update inv.reader own

omit [DecidableEq T] in
theorem Inv.push (inv : Inv maxNum s) (fd : ℤ) (free : full maxNum s.writePos s.readPos = false) :
    Inv maxNum { s with writer := .checked fd } := by
  have le := inv.front.length_le
  have room := inv.writer.room
  rw [inv.readPos, inv.writePos, full_eq le (by omega)] at free
  have free := of_decide_eq_false free
  have checked : s.pushed.length + 100 < s.popped.length + maxNum := by omega
  exact { inv with writer := checked }

omit [DecidableEq T] in
/-- The descriptor is stored where none that is still to be popped stands. -/
theorem Inv.store (inv : Inv maxNum s) {fd : ℤ} (here : s.writer = .checked fd) :
    Inv maxNum { s with
      fds := Function.update s.fds s.writePos fd
      writer := .stored fd s.writePos } := by
  have le := inv.front.length_le
  have room := inv.writer.room
  have writer := inv.writer
  rw [here] at writer
  have slot : Function.update s.fds s.writePos fd s.writePos = fd := Function.update_self ..
  have stored : WriterInv maxNum s.popped s.pushed (Function.update s.fds s.writePos fd)
      (.stored fd s.writePos) := ⟨writer, inv.writePos, slot⟩
  have ring (i : ℕ) (fd' : ℤ) (low : s.popped.length ≤ i) (there : s.pushed[i]? = some fd') :
      Function.update s.fds s.writePos fd (i % maxNum) = fd' := by
    have high := (List.getElem?_eq_some_iff.mp there).1
    have apart : i % maxNum ≠ s.writePos := by
      rw [inv.writePos]
      intro same
      have := eq_of_mod_eq (Nat.le_of_lt high) (by omega) same
      omega
    rw [Function.update_of_ne apart]
    exact inv.ring i fd' low there
  exact { inv with ring := ring, writer := stored }

omit [DecidableEq T] in
theorem Inv.publish (inv : Inv maxNum s) {fd : ℤ} {wpos : ℕ} (here : s.writer = .stored fd wpos) :
    Inv maxNum { s with
      writePos := (wpos + 1) % maxNum
      writer := .idle
      pushed := s.pushed ++ [fd] } := by
  have writer := inv.writer
  rw [here] at writer
  obtain ⟨free, pos, slot⟩ := writer
  have idle : WriterInv maxNum s.popped (s.pushed ++ [fd]) s.fds .idle := by
    change (s.pushed ++ [fd]).length + 100 ≤ _
    rw [List.length_append, List.length_singleton]
    omega
  refine { inv with
    writePos := ?_, front := inv.front.trans (List.prefix_append _ _), ring := ?_, writer := idle,
    reader := fun t => (inv.reader t).mono List.prefix_rfl (List.prefix_append _ _) }
  · simp only [pos, List.length_append, List.length_singleton]
    exact succ_mod
  · intro i fd' low there
    by_cases old : i < s.pushed.length
    · rw [List.getElem?_append_left old] at there
      exact inv.ring i fd' low there
    · have bound := (List.getElem?_eq_some_iff.mp there).1
      rw [List.length_append, List.length_singleton] at bound
      obtain rfl : i = s.pushed.length := by omega
      rw [← pos, slot]
      simpa using there

/-- A reader that finds the queue not empty. -/
theorem Inv.some (inv : Inv maxNum s) {rpos seen : ℕ} (here : s.reader t = .started rpos seen)
    (ne : rpos ≠ s.writePos) :
    Inv maxNum { s with reader := Function.update s.reader t (.some rpos seen) } := by
  have le := inv.front.length_le
  have own := inv.reader t
  rw [here] at own
  refine inv.move ⟨own.1, own.2, fun now => ?_⟩
  have differ : seen ≠ s.pushed.length := by
    rintro rfl
    exact ne (own.1.trans inv.writePos.symm)
  omega

theorem Inv.load (inv : Inv maxNum s) {rpos seen : ℕ} (here : s.reader t = .some rpos seen) :
    Inv maxNum { s with reader := Function.update s.reader t (.loaded rpos seen (s.fds rpos)) } := by
  have own := inv.reader t
  rw [here] at own
  obtain ⟨rfl, before, some⟩ := own
  refine inv.move ⟨rfl, before, fun now => ?_⟩
  have there := List.getElem?_eq_getElem (some now)
  rw [inv.ring seen _ (Nat.le_of_eq now.symm) there]
  exact there

/-- What is popped is first in the queue, unless the ring has gone round since the reader started. -/
theorem Inv.pop (inv : Inv maxNum s) {rpos seen : ℕ} {fd : ℤ} (here : s.reader t = .loaded rpos seen fd)
    (same : s.readPos = rpos) (fresh : s.popped.length - seen < maxNum) :
    Inv maxNum { s with
      readPos := (rpos + 1) % maxNum
      reader := Function.update s.reader t .top
      popped := s.popped ++ [fd] } := by
  have own := inv.reader t
  rw [here] at own
  have now : seen = s.popped.length := by
    refine eq_of_mod_eq own.2.1 fresh ?_
    rw [← own.1, ← same, inv.readPos]
  have there := own.2.2 now
  have front : s.popped ++ [fd] <+: s.pushed := by
    obtain ⟨rest, split⟩ := inv.front
    rw [now, ← split, List.getElem?_append_right (Nat.le_refl _), Nat.sub_self] at there
    cases rest with
    | nil => simp at there
    | cons next rest =>
      obtain rfl : next = fd := by simpa using there
      exact ⟨rest, by simpa using split⟩
  refine { inv with
    readPos := ?_, front := front, ring := fun i fd' low => inv.ring i fd' ?_
    writer := inv.writer.pop
    reader := reader_update (fun u => (inv.reader u).mono (List.prefix_append _ _) List.prefix_rfl)
      trivial }
  · simp only [own.1, now, List.length_append, List.length_singleton]
    exact succ_mod
  · rw [List.length_append] at low
    omega

theorem Inv.step (inv : Inv maxNum s) (step : Step maxNum s ev s') (fresh : ev.Fresh maxNum) :
    Inv maxNum s' := by
  cases step with
  | push fd idle valid free => exact inv.push fd free
  | store fd here => exact inv.store here
  | publish fd wpos here same => exact inv.publish here
  | again fd wpos here ne =>
    have writer := inv.writer
    rw [here] at writer
    exact { inv with writer := writer.1 }
  | start t here => exact inv.move ⟨inv.readPos, Nat.le_refl _⟩
  | empty t rpos seen here eq => exact inv.move trivial
  | some t rpos seen here ne => exact inv.some here ne
  | load t rpos seen here => exact inv.load here
  | pop t rpos seen fd here same => exact inv.pop here same fresh
  | retry t rpos seen fd here ne => exact inv.move trivial

omit [DecidableEq T] in
theorem inv_init (num : ℕ) : Inv (num + 100) (State.init : State T) where
  readPos := (Nat.zero_mod _).symm
  writePos := (Nat.zero_mod _).symm
  front := List.prefix_rfl
  ring := by simp [State.init]
  writer := by simp [State.init, WriterInv]
  reader _ := trivial

variable {num lag : ℕ}

theorem inv_run (run : Trace (State.init : State T) (Step (num + 100)) tr s)
    (fresh : ∀ ev ∈ tr, ev.Fresh (num + 100)) : Inv (num + 100) s := by
  induction run with
  | init => exact inv_init num
  | step run step ih =>
    exact (ih fun ev mem => fresh ev (List.mem_append_left _ mem)).step step (fresh _ (by simp))

theorem Inv.empty (inv : Inv (num + 100) s) (step : Step (num + 100) s (.empty lag) s')
    (near : lag < 100) : s.popped = s.pushed := by
  have le := inv.front.length_le
  have room := inv.writer.room
  cases step with
  | empty t rpos seen here eq =>
    have own := inv.reader t
    rw [here] at own
    obtain ⟨pos, before⟩ := own
    have same : seen % (num + 100) = s.pushed.length % (num + 100) := by
      rw [← pos, eq, inv.writePos]
    have all := eq_of_mod_eq (by omega) (by omega) same
    exact inv.front.eq_of_length (by omega)

/-- One writer and many readers, none of which is overtaken by the whole ring: every descriptor that
is popped is the next one that was pushed, no more than the queue was made for are inside, and
`pop_fd` finds nothing only where nothing is, if fewer than 100 have been popped meanwhile. -/
theorem pops_in_order (run : Trace (State.init : State T) (Step (num + 100)) tr s)
    (fresh : ∀ ev ∈ tr, ev.Fresh (num + 100)) :
    s.popped <+: s.pushed ∧ s.pushed.length ≤ s.popped.length + num ∧
      ∀ lag s', Step (num + 100) s (.empty lag) s' → lag < 100 → s.popped = s.pushed := by
  have inv := inv_run run fresh
  have room := inv.writer.room
  exact ⟨inv.front, by omega, fun lag s' step near => inv.empty step near⟩

/-- What a reader has seen is all, if it is the only one. -/
def Alone (popped : List ℤ) : Reader → Prop
  | .top => True
  | .started _ seen | .some _ seen | .loaded _ seen _ => seen = popped.length

theorem alone_step [Subsingleton T] (alone : ∀ t, Alone s.popped (s.reader t))
    (step : Step (num + 100) s ev s') :
    (∀ t, Alone s'.popped (s'.reader t)) ∧ ev.Fresh (num + 100) := by
  have only {popped : List ℤ} {r : Reader} {t : T} (own : Alone popped r) (u : T) :
      Alone popped (Function.update s.reader t r u) := by
    rw [Subsingleton.elim u t, Function.update_self]
    exact own
  cases step with
  | push | store | publish | again => exact ⟨alone, trivial⟩
  | start t here => exact ⟨only rfl, trivial⟩
  | empty t rpos seen here eq => exact ⟨only trivial, trivial⟩
  | some t rpos seen here ne =>
    have own := alone t
    rw [here] at own
    exact ⟨only own, trivial⟩
  | load t rpos seen here =>
    have own := alone t
    rw [here] at own
    exact ⟨only own, trivial⟩
  | pop t rpos seen fd here same =>
    have own := alone t
    rw [here] at own
    refine ⟨only trivial, ?_⟩
    change s.popped.length - seen < num + 100
    have own : seen = s.popped.length := own
    omega
  | retry t rpos seen fd here ne => exact ⟨only trivial, trivial⟩

/-- One writer and one reader, in any order of their accesses. -/
theorem one_reader [Subsingleton T]
    (run : Trace (State.init : State T) (Step (num + 100)) tr s) :
    s.popped <+: s.pushed ∧ s.pushed.length ≤ s.popped.length + num ∧
      ∀ lag s', Step (num + 100) s (.empty lag) s' → s.popped = s.pushed := by
  have ⟨alone, fresh⟩ :
      (∀ t, Alone s.popped (s.reader t)) ∧ ∀ ev ∈ tr, ev.Fresh (num + 100) := by
    induction run with
    | init => exact ⟨fun _ => trivial, by simp⟩
    | step run step ih =>
      obtain ⟨alone, fresh⟩ := alone_step ih.1 step
      refine ⟨alone, fun ev mem => ?_⟩
      rcases List.mem_append.mp mem with before | now
      · exact ih.2 ev before
      · rw [List.mem_singleton.mp now]
        exact fresh
  obtain ⟨front, room, empty⟩ := pops_in_order run fresh
  refine ⟨front, room, fun lag s' step => empty lag s' step ?_⟩
  cases step with
  | empty t rpos seen here eq =>
    have own := alone t
    rw [here] at own
    have own : seen = s.popped.length := own
    omega

section Examples

/-- A queue for one descriptor: `7` has been pushed and popped. -/
def used : State Unit where
  readPos := 1
  writePos := 1
  fds := Function.update (fun _ => 0) 0 7
  writer := .idle
  reader := [.started 0 0, .some 0 0, .loaded 0 0 7, .top].foldl
    (fun reader here => Function.update reader () here) fun _ => .top
  pushed := [7]
  popped := [7]

theorem used_run : Trace State.init (Step (1 + 100))
    [.none, .none, .none, .none, .none, .none, .popped 0] used := by
  have checked : Step (1 + 100) (State.init : State Unit) .none
    { State.init with writer := .checked 7 } := .push 7 rfl (by decide) (by decide)
  have pushed := ((Trace.init.step checked).step (.store 7 rfl)).step (.publish 7 0 rfl rfl)
  have loaded := ((pushed.step (.start () rfl)).step (.some () 0 0 rfl (by decide))).step
    (.load () 0 0 rfl)
  exact loaded.step (.pop () 0 0 7 rfl rfl)

theorem pops_in_order_used : used.popped <+: used.pushed ∧ used.pushed.length ≤ 1 + 1 ∧
    ∀ lag s', Step (1 + 100) used (.empty lag) s' → lag < 100 → used.popped = used.pushed :=
  pops_in_order used_run (by simp [Event.Fresh])

theorem one_reader_used : used.popped <+: used.pushed ∧ used.pushed.length ≤ 1 + 1 ∧
    ∀ lag s', Step (1 + 100) used (.empty lag) s' → used.popped = used.pushed :=
  one_reader used_run

end Examples

end Conet.Base.FdQueue
