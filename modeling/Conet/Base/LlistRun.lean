/- Module: Conet/Base/LlistRun
   source: base/llist.h
   digest: The llist under any interleaving of its operations: one stack, and every answer is the stack's. -/

import Conet.Base.Llist
import Conet.Lib.Trace

set_option autoImplicit false
set_option relaxedAutoImplicit false

namespace Conet.Base.LlistRun

open Conet.Lib

universe u v

variable {T : Type u} {α : Type v} [DecidableEq T] [DecidableEq α]

/-- The arguments of `llist_add_batch`: `new_first` leads over `init` to `new_last`. -/
structure Batch (α : Type v) where
  newFirst : α
  init : List α
  newLast : α

def Batch.entries (b : Batch α) : List α := b.init ++ [b.newLast]

/-- The batch of `llist_add`. -/
def Batch.single (new : α) : Batch α := ⟨new, [], new⟩

/-- Where a thread is, with its local variables. -/
inductive Pc (α : Type v)
  | idle
  /-- before the read of `head->first` -/
  | add (b : Batch α)
  /-- before the write of `new_last->next` -/
  | link (b : Batch α) (first : Option α)
  /-- before the compare-and-swap of `llist_add_batch` -/
  | swap (b : Batch α) (first : Option α)
  /-- before the first read of `llist_del_first` -/
  | del
  /-- before the read of `entry->next` -/
  | entry (entry : α)
  /-- before the compare-and-swap of `llist_del_first` -/
  | cut (oldEntry : α) (next : Option α)

/-- The entries that a thread is adding. -/
def Pc.entries : Pc α → List α
  | .add b | .link b _ | .swap b _ => b.entries
  | _ => []

def Pc.deleting : Pc α → Prop
  | .del | .entry _ | .cut _ _ => True
  | _ => False

structure State (T : Type u) (α : Type v) where
  next : α → Option α
  first : Option α
  pc : T → Pc α

/-- What has come of an operation, at the access that decides it. -/
inductive Event (α : Type v)
  | none
  | added (b : Batch α) (empty : Bool)
  | deletedAll (first : Option α)
  | deletedFirst (entry : Option α)

/-- An entry is on no list, and no thread is adding it. -/
def Off (s : State T α) (x : α) : Prop :=
  (∀ xs, Chain s.next s.first xs → x ∉ xs) ∧ ∀ t, x ∉ (s.pc t).entries

/-- One access to the shared memory, which is sequentially consistent. `call` has the conditions of the
table in the header: the threads that delete the first entry take a lock, and so do those that delete
all while one of them does. -/
inductive Step : State T α → Event α → State T α → Prop
  /-- the owner of an entry writes it -/
  | write {s : State T α} (x : α) (v : Option α) (off : Off s x) :
      Step s .none { s with next := Function.update s.next x v }
  | callAdd {s : State T α} (t : T) (b : Batch α) (idle : s.pc t = .idle) (nodup : b.entries.Nodup)
      (off : ∀ x ∈ b.entries, Off s x) (walk : Walk s.next (some b.newFirst) b.init (some b.newLast)) :
      Step s .none { s with pc := Function.update s.pc t (.add b) }
  | readFirst {s : State T α} (t : T) (b : Batch α) (here : s.pc t = .add b) :
      Step s .none { s with pc := Function.update s.pc t (.link b s.first) }
  | writeNext {s : State T α} (t : T) (b : Batch α) (first : Option α)
      (here : s.pc t = .link b first) :
      Step s .none
        { s with
          next := Function.update s.next b.newLast first
          pc := Function.update s.pc t (.swap b first) }
  | swapFails {s : State T α} (t : T) (b : Batch α) (first : Option α)
      (here : s.pc t = .swap b first) (ne : s.first ≠ first) :
      Step s .none { s with pc := Function.update s.pc t (.add b) }
  | swap {s : State T α} (t : T) (b : Batch α) (first : Option α)
      (here : s.pc t = .swap b first) (eq : s.first = first) :
      Step s (.added b first.isNone)
        { s with first := some b.newFirst, pc := Function.update s.pc t .idle }
  | delAll {s : State T α} (t : T) (idle : s.pc t = .idle) (lock : ∀ u, ¬(s.pc u).deleting) :
      Step s (.deletedAll s.first) { s with first := none }
  | callDel {s : State T α} (t : T) (idle : s.pc t = .idle) (lock : ∀ u, ¬(s.pc u).deleting) :
      Step s .none { s with pc := Function.update s.pc t .del }
  | readEntry {s : State T α} (t : T) (entry : α) (here : s.pc t = .del)
      (first : s.first = some entry) :
      Step s .none { s with pc := Function.update s.pc t (.entry entry) }
  | readNull {s : State T α} (t : T) (here : s.pc t = .del) (first : s.first = none) :
      Step s (.deletedFirst none) { s with pc := Function.update s.pc t .idle }
  | readNext {s : State T α} (t : T) (entry : α) (here : s.pc t = .entry entry) :
      Step s .none { s with pc := Function.update s.pc t (.cut entry (s.next entry)) }
  | cutFails {s : State T α} (t : T) (oldEntry : α) (next : Option α) (entry : α)
      (here : s.pc t = .cut oldEntry next) (ne : s.first ≠ some oldEntry)
      (first : s.first = some entry) :
      Step s .none { s with pc := Function.update s.pc t (.entry entry) }
  | cutNull {s : State T α} (t : T) (oldEntry : α) (next : Option α)
      (here : s.pc t = .cut oldEntry next) (first : s.first = none) :
      Step s (.deletedFirst none) { s with pc := Function.update s.pc t .idle }
  | cut {s : State T α} (t : T) (oldEntry : α) (next : Option α)
      (here : s.pc t = .cut oldEntry next) (eq : s.first = some oldEntry) :
      Step s (.deletedFirst (some oldEntry))
        { s with first := next, pc := Function.update s.pc t .idle }

def stackStep (xs : List α) : Event α → List α
  | .none => xs
  | .added b _ => b.entries ++ xs
  | .deletedAll _ => []
  | .deletedFirst _ => xs.tail

/-- The stack after the events, newest entry first. -/
def stack (tr : List (Event α)) : List α := tr.foldl stackStep []

/-- The answer of an operation on the stack `xs`. -/
def Answers (next : α → Option α) (xs : List α) : Event α → Prop
  | .none => True
  | .added _ empty => empty = xs.isEmpty
  | .deletedAll first => Chain next first xs
  | .deletedFirst entry => entry = xs.head?

/-- What a thread has read and written holds good. -/
def Own (next : α → Option α) (xs : List α) : Pc α → Prop
  | .add b | .link b _ => b.entries.Nodup ∧ Walk next (some b.newFirst) b.init (some b.newLast)
  | .swap b first => b.entries.Nodup ∧ Walk next (some b.newFirst) b.entries first
  | .entry entry => entry ∈ xs
  | .cut oldEntry n => oldEntry ∈ xs ∧ next oldEntry = n
  | _ => True

structure Inv (s : State T α) (xs : List α) : Prop where
  chain : Chain s.next s.first xs
  off : ∀ t, ∀ x ∈ (s.pc t).entries, x ∉ xs
  apart : ∀ t u, t ≠ u → ∀ x ∈ (s.pc t).entries, x ∉ (s.pc u).entries
  lock : ∀ t u, (s.pc t).deleting → (s.pc u).deleting → t = u
  own : ∀ t, Own s.next xs (s.pc t)

variable {s s' : State T α} {xs ys : List α} {t : T} {pc : Pc α} {next next' : α → Option α}
  {first : Option α} {ev : Event α} {tr : List (Event α)}

omit [DecidableEq α] in
theorem Own.congr (own : Own next xs pc) (list : ∀ x ∈ xs, next' x = next x)
    (mine : ∀ x ∈ pc.entries, next' x = next x) : Own next' xs pc := by
  have part {b : Batch α} (same : ∀ x ∈ b.entries, next' x = next x) :
      ∀ x ∈ b.init, next' x = next x :=
    fun x hx => same x (List.mem_append_left _ hx)
  cases pc with
  | add b => exact ⟨own.1, own.2.congr (part mine)⟩
  | link b first => exact ⟨own.1, own.2.congr (part mine)⟩
  | swap b first => exact ⟨own.1, own.2.congr mine⟩
  | cut oldEntry n => exact ⟨own.1, (list _ own.1).trans own.2⟩
  | entry entry => exact own
  | _ => trivial

omit [DecidableEq α] in
theorem Own.relist (own : Own next xs pc) (kept : pc.deleting → xs ⊆ ys) : Own next ys pc := by
  cases pc with
  | entry entry => exact kept trivial own
  | cut oldEntry n => exact ⟨kept trivial own.1, own.2⟩
  | _ => exact own

omit [DecidableEq α] in
theorem Inv.move (inv : Inv s xs) (own : Own s.next xs pc) (off : ∀ x ∈ pc.entries, x ∉ xs)
    (apart : ∀ u, u ≠ t → ∀ x ∈ pc.entries, x ∉ (s.pc u).entries)
    (lock : pc.deleting → ∀ u, u ≠ t → ¬(s.pc u).deleting) :
    Inv { s with pc := Function.update s.pc t pc } xs where
  chain := inv.chain
  off u := by
    by_cases here : u = t
    · subst here
      simpa using off
    · simpa [here] using inv.off u
  apart u v ne := by
    by_cases left : u = t <;> by_cases right : v = t
    · exact absurd (left.trans right.symm) ne
    · subst left
      simpa [right] using apart v right
    · subst right
      simp only [Function.update_of_ne left, Function.update_self]
      exact fun x hx mine => apart u left x mine hx
    · simpa [left, right] using inv.apart u v ne
  lock u v := by
    by_cases left : u = t <;> by_cases right : v = t
    · exact fun _ _ => left.trans right.symm
    · subst left
      simp only [Function.update_self, Function.update_of_ne right]
      exact fun mine other => absurd other (lock mine v right)
    · subst right
      simp only [Function.update_self, Function.update_of_ne left]
      exact fun other mine => absurd other (lock mine u left)
    · simpa [left, right] using inv.lock u v
  own u := by
    by_cases here : u = t
    · subst here
      simpa using own
    · simpa [here] using inv.own u

omit [DecidableEq α] in
/-- A thread goes on with the same entries in its hands. -/
theorem Inv.goOn (inv : Inv s xs) (own : Own s.next xs pc) (entries : pc.entries = (s.pc t).entries)
    (lock : pc.deleting → (s.pc t).deleting) :
    Inv { s with pc := Function.update s.pc t pc } xs := by
  apply inv.move own
  · rw [entries]
    exact inv.off t
  · intro u other
    rw [entries]
    exact inv.apart t u other.symm
  · exact fun mine u other deleting => other (inv.lock u t deleting (lock mine))

omit [DecidableEq α] in
theorem Inv.rest (inv : Inv s xs) : Inv { s with pc := Function.update s.pc t .idle } xs :=
  inv.move trivial (by simp [Pc.entries]) (by simp [Pc.entries]) fun deleting => deleting.elim

omit [DecidableEq T] [DecidableEq α] in
theorem Inv.memory (inv : Inv s xs) (list : ∀ x ∈ xs, next' x = s.next x)
    (hands : ∀ t, ∀ x ∈ (s.pc t).entries, next' x = s.next x) : Inv { s with next := next' } xs where
  chain := inv.chain.congr list
  off := inv.off
  apart := inv.apart
  lock := inv.lock
  own t := (inv.own t).congr list (hands t)

omit [DecidableEq T] [DecidableEq α] in
theorem Inv.relist (inv : Inv s xs) (chain : Chain s.next first ys)
    (off : ∀ t, ∀ x ∈ (s.pc t).entries, x ∉ ys)
    (kept : ∀ t, (s.pc t).deleting → xs ⊆ ys) : Inv { s with first := first } ys where
  chain := chain
  off := off
  apart := inv.apart
  lock := inv.lock
  own t := (inv.own t).relist (kept t)

omit [DecidableEq T] in
theorem Inv.write {x : α} {v : Option α} (inv : Inv s xs) (off : x ∉ xs)
    (hands : ∀ t, x ∉ (s.pc t).entries) : Inv { s with next := Function.update s.next x v } xs := by
  apply inv.memory
  · intro z hz
    exact Function.update_of_ne (ne_of_mem_of_not_mem hz off) _ _
  · intro t z hz
    exact Function.update_of_ne (ne_of_mem_of_not_mem hz (hands t)) _ _

omit [DecidableEq T] [DecidableEq α] in
/-- The entry that a thread deletes is first on the list until the list changes. -/
theorem Inv.cut_list {oldEntry : α} {n : Option α} (inv : Inv s xs)
    (here : s.pc t = .cut oldEntry n) (eq : s.first = some oldEntry) :
    ∃ rest, xs = oldEntry :: rest ∧ Chain s.next n rest := by
  have own : Own s.next xs (.cut oldEntry n) := here ▸ inv.own t
  have chain := inv.chain
  cases xs with
  | nil => exact absurd own.1 (by simp)
  | cons x rest =>
    obtain rfl : oldEntry = x := Option.some.inj (eq.symm.trans chain.1)
    exact ⟨rest, rfl, own.2 ▸ chain.2⟩

omit [DecidableEq T] [DecidableEq α] in
theorem Inv.first_mem {entry : α} (inv : Inv s xs) (first : s.first = some entry) : entry ∈ xs := by
  have chain := inv.chain
  cases xs with
  | nil => exact absurd (first.symm.trans chain) (by simp)
  | cons x rest =>
    obtain rfl : entry = x := Option.some.inj (first.symm.trans chain.1)
    exact List.mem_cons_self

/-- The last entry of a batch is written before the batch hangs on the list. -/
theorem Inv.writeNext {b : Batch α} (inv : Inv s xs) (here : s.pc t = .link b first) :
    Inv { s with
      next := Function.update s.next b.newLast first
      pc := Function.update s.pc t (.swap b first) } xs := by
  obtain ⟨nodup, walk⟩ : Own s.next xs (.link b first) := here ▸ inv.own t
  have mine : b.newLast ∈ (s.pc t).entries := by
    rw [here]
    exact List.mem_append_right _ (by simp)
  have hands (u : T) : b.newLast ∉ (Function.update s.pc t .idle u).entries := by
    by_cases same : u = t
    · simp [same, Pc.entries]
    · simpa [same] using inv.apart t u (Ne.symm same) _ mine
  have fresh : b.newLast ∉ b.init := fun mem =>
    (List.nodup_append.mp nodup).2.2 _ mem _ (by simp) rfl
  have written := (inv.rest (t := t)).write (v := first) (inv.off t _ mine) hands
  have walk' : Walk (Function.update s.next b.newLast first) (some b.newFirst) b.entries first := by
    have before := (walk.congr fun z hz =>
      Function.update_of_ne (ne_of_mem_of_not_mem hz fresh) first s.next).snoc
    rwa [Function.update_self] at before
  have own : Own (Function.update s.next b.newLast first) xs (.swap b first) := ⟨nodup, walk'⟩
  have moved := written.move (t := t) own (fun x hx => inv.off t x (by rwa [here])) ?_
    fun deleting => deleting.elim
  · rwa [Function.update_idem] at moved
  · intro u other x hx
    simp only [Function.update_of_ne other]
    exact inv.apart t u other.symm x (by rwa [here])

omit [DecidableEq α] in
theorem Inv.swap {b : Batch α} (inv : Inv s xs) (here : s.pc t = .swap b first) (eq : s.first = first) :
    Inv { s with first := some b.newFirst, pc := Function.update s.pc t .idle } (b.entries ++ xs) ∧
      first.isNone = xs.isEmpty := by
  obtain ⟨nodup, walk⟩ : Own s.next xs (.swap b first) := here ▸ inv.own t
  have chain : Chain s.next first xs := eq ▸ inv.chain
  refine ⟨(inv.rest (t := t)).relist (walk.chain chain) ?_ ?_, ?_⟩
  · intro u x hx mem
    by_cases same : u = t
    · simp [same, Pc.entries] at hx
    · simp only [Function.update_of_ne same] at hx
      rcases List.mem_append.mp mem with mine | listed
      · exact inv.apart t u (Ne.symm same) x (by rwa [here]) hx
      · exact inv.off u x hx listed
  · exact fun u _ => List.subset_append_right _ _
  · cases xs with
    | nil => simp [chain.none_iff.mpr rfl]
    | cons x rest => simp [chain.1]

omit [DecidableEq α] in
theorem Inv.cut {oldEntry : α} {n : Option α} (inv : Inv s xs) (here : s.pc t = .cut oldEntry n)
    (eq : s.first = some oldEntry) :
    Inv { s with first := n, pc := Function.update s.pc t .idle } xs.tail ∧
      some oldEntry = xs.head? := by
  obtain ⟨rest, rfl, chain⟩ := inv.cut_list here eq
  refine ⟨(inv.rest (t := t)).relist chain ?_ ?_, rfl⟩
  · exact fun u x hx mem => (inv.rest (t := t)).off u x hx (List.mem_cons_of_mem _ mem)
  · intro u deleting
    by_cases same : u = t
    · simp [same, Pc.deleting] at deleting
    · simp only [Function.update_of_ne same] at deleting
      exact absurd (inv.lock u t deleting (here ▸ trivial)) same

theorem Inv.step (inv : Inv s xs) (step : Step s ev s') :
    Inv s' (stackStep xs ev) ∧ Answers s.next xs ev := by
  cases step with
  | write x v off => exact ⟨inv.write (off.1 xs inv.chain) off.2, trivial⟩
  | callAdd t b idle nodup off walk =>
    refine ⟨inv.move ⟨nodup, walk⟩ ?_ ?_ fun deleting => deleting.elim, trivial⟩
    · exact fun x hx => (off x hx).1 xs inv.chain
    · exact fun u _ x hx => (off x hx).2 u
  | readFirst t b here =>
    have own : Own s.next xs (.add b) := here ▸ inv.own t
    exact ⟨inv.goOn own (by rw [here]; rfl) fun deleting => deleting.elim, trivial⟩
  | writeNext t b first here => exact ⟨inv.writeNext here, trivial⟩
  | swapFails t b first here ne =>
    obtain ⟨nodup, walk⟩ : Own s.next xs (.swap b first) := here ▸ inv.own t
    have own : Own s.next xs (.add b) := ⟨nodup, walk.of_snoc⟩
    exact ⟨inv.goOn own (by rw [here]; rfl) fun deleting => deleting.elim, trivial⟩
  | swap t b first here eq => exact inv.swap here eq
  | delAll t idle lock =>
    exact ⟨inv.relist rfl (fun _ _ _ => List.not_mem_nil) fun u deleting => absurd deleting (lock u), inv.chain⟩
  | callDel t idle lock =>
    exact ⟨inv.move trivial (by simp [Pc.entries]) (by simp [Pc.entries]) fun _ u _ => lock u, trivial⟩
  | readEntry t entry here first =>
    have own : Own s.next xs (.entry entry) := inv.first_mem first
    exact ⟨inv.goOn own (by rw [here]; rfl) fun _ => here ▸ trivial, trivial⟩
  | readNull t here first =>
    obtain rfl := inv.chain.none_iff.mp first
    exact ⟨inv.rest, rfl⟩
  | readNext t entry here =>
    have own : Own s.next xs (.entry entry) := here ▸ inv.own t
    have own : Own s.next xs (.cut entry (s.next entry)) := ⟨own, rfl⟩
    exact ⟨inv.goOn own (by rw [here]; rfl) fun _ => here ▸ trivial, trivial⟩
  | cutFails t oldEntry n entry here ne first =>
    have own : Own s.next xs (.entry entry) := inv.first_mem first
    exact ⟨inv.goOn own (by rw [here]; rfl) fun _ => here ▸ trivial, trivial⟩
  | cutNull t oldEntry n here first =>
    obtain rfl := inv.chain.none_iff.mp first
    exact ⟨inv.rest, rfl⟩
  | cut t oldEntry n here eq => exact inv.cut here eq

/-- The list after `init_llist_head`. -/
def State.init (next : α → Option α) : State T α := ⟨next, none, fun _ => .idle⟩

omit [DecidableEq T] [DecidableEq α] in
theorem inv_init (next : α → Option α) : Inv (State.init next : State T α) [] where
  chain := rfl
  off := by simp
  apart := by simp [State.init, Pc.entries]
  lock t u deleting := deleting.elim
  own t := trivial

omit [DecidableEq α] in
theorem stack_snoc : stack (tr ++ [ev]) = stackStep (stack tr) ev := by
  rw [stack, List.foldl_append]
  rfl

theorem inv_run (run : Trace (State.init next : State T α) Step tr s) : Inv s (stack tr) :=
  run.invariant (fun tr s => Inv s (stack tr)) (inv_init next) fun inv step =>
    stack_snoc ▸ (inv.step step).1

/-- Threads add and delete in any order of their accesses: the list is the stack of what they have
done, and every operation answers as it does on the stack, when it takes effect. -/
theorem step_answers (run : Trace (State.init next : State T α) Step tr s) (step : Step s ev s') :
    Answers s.next (stack tr) ev ∧ Chain s'.next s'.first (stack (tr ++ [ev])) := by
  obtain ⟨inv, answers⟩ := (inv_run run).step step
  exact ⟨answers, stack_snoc ▸ inv.chain⟩

section Examples

/-- The accesses of one thread that adds `5`. -/
def walked (pcs : List (Pc ℕ)) : Bool → Pc ℕ :=
  pcs.foldl (fun pc here => Function.update pc true here) fun _ => .idle

def added : State Bool ℕ where
  next := Function.update (fun _ => some 7) 5 none
  first := some 5
  pc := walked [.add (.single 5), .link (.single 5) none, .swap (.single 5) none, .idle]

theorem added_run : Trace (State.init fun _ => some 7) Step
    [.none, .none, .none, .added (.single 5) true] added := by
  have off : ∀ x ∈ (Batch.single 5).entries, Off (State.init fun _ => some 7 : State Bool ℕ) x := by
    intro x _
    refine ⟨fun xs chain => ?_, fun t => by simp [State.init, Pc.entries]⟩
    rw [chain.none_iff.mp rfl]
    simp
  have called := Trace.init.step (Step.callAdd true (.single 5) rfl (by decide) off rfl)
  exact ((called.step (.readFirst true _ rfl)).step (.writeNext true _ _ rfl)).step
    (.swap true _ _ rfl rfl)

theorem added_idle (t : Bool) : added.pc t = .idle := by
  cases t <;> rfl

theorem step_answers_added : Chain added.next added.first [5] ∧ Chain added.next none [] :=
  step_answers added_run (.delAll false (added_idle false) fun t => added_idle t ▸ id)

end Examples

end Conet.Base.LlistRun
