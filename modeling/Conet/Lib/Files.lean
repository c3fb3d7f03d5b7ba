/- Module: Conet/Lib/Files
   source: none (library)
   digest: Descriptors that share open files, and the data of an open file. -/

import Mathlib.Logic.Function.Basic
import Mathlib.Data.Nat.Notation

set_option autoImplicit false
set_option relaxedAutoImplicit false

namespace Conet.Lib

universe u v

/-- Several descriptors may refer to one open file. Open files are numbered as they are made. -/
structure Files (D : Type u) (α : Type v) where
  file : D → Option ℕ
  flags : ℕ → α
  fresh : ℕ
  file_lt : ∀ {d o}, file d = some o → o < fresh

namespace Files

variable {D : Type u} {α : Type v} [DecidableEq D]

/-- A new open file, under the descriptor `d`. -/
def install (s : Files D α) (d : D) (a : α) : Files D α where
  file := Function.update s.file d (some s.fresh)
  flags := Function.update s.flags s.fresh a
  fresh := s.fresh + 1
  file_lt := by
    intro e o refers
    by_cases same : e = d
    · subst same
      simp only [Function.update_self, Option.some.injEq] at refers
      omega
    · rw [Function.update_of_ne same] at refers
      have := s.file_lt refers
      omega

/-- `d` comes to refer to what `e` refers to. -/
def share (s : Files D α) (d e : D) : Files D α where
  file := Function.update s.file d (s.file e)
  flags := s.flags
  fresh := s.fresh
  file_lt := by
    intro d' o refers
    by_cases same : d' = d
    · subst same
      rw [Function.update_self] at refers
      exact s.file_lt refers
    · rw [Function.update_of_ne same] at refers
      exact s.file_lt refers

def remove (s : Files D α) (d : D) : Files D α where
  file := Function.update s.file d none
  flags := s.flags
  fresh := s.fresh
  file_lt := by
    intro d' o refers
    by_cases same : d' = d
    · subst same
      simp at refers
    · rw [Function.update_of_ne same] at refers
      exact s.file_lt refers

/-- The data of the open file `o` is replaced. -/
def setFlags (s : Files D α) (o : ℕ) (a : α) : Files D α :=
  { s with flags := Function.update s.flags o a }

variable (s : Files D α) (d e : D) (a : α) (o : ℕ)

@[simp] theorem install_file : (s.install d a).file = Function.update s.file d (some s.fresh) := rfl

@[simp] theorem install_flags : (s.install d a).flags = Function.update s.flags s.fresh a := rfl

@[simp] theorem share_file : (s.share d e).file = Function.update s.file d (s.file e) := rfl

@[simp] theorem share_flags : (s.share d e).flags = s.flags := rfl

@[simp] theorem remove_file : (s.remove d).file = Function.update s.file d none := rfl

@[simp] theorem remove_flags : (s.remove d).flags = s.flags := rfl

omit [DecidableEq D] in
@[simp] theorem setFlags_file : (s.setFlags o a).file = s.file := rfl

omit [DecidableEq D] in
@[simp] theorem setFlags_flags : (s.setFlags o a).flags = Function.update s.flags o a := rfl

theorem install_setFlags (a' : α) : (s.install d a).setFlags s.fresh a' = s.install d a' := by
  simp [install, setFlags]

omit [DecidableEq D] in
theorem ne_fresh {s : Files D α} {d : D} {o : ℕ} (refers : s.file d = some o) : o ≠ s.fresh := by
  have := s.file_lt refers
  omega

/-! A table beside the files keeps, for some descriptors, what was last asked for on the open file.
Each descriptor has its own entry, so the entries of one open file can differ. -/

section Shadow

universe w

variable {β : Type w} {P : α → Prop} {s : Files D α} {shadow : D → Option β} {asked : ℕ → β}
  {d e : D} {a : α} {o : ℕ} {b m : β}

/-- Every entry is what was last asked for on its open file, the data of which meets `P`. -/
def Agrees (P : α → Prop) (s : Files D α) (shadow : D → Option β) (asked : ℕ → β) : Prop :=
  ∀ d o b, s.file d = some o → shadow d = some b → b = asked o ∧ P (s.flags o)

theorem Agrees.install_iff (agrees : Agrees P s shadow asked) :
    Agrees P (s.install d a) (Function.update shadow d (some b))
      (Function.update asked s.fresh m) ↔ b = m ∧ P a := by
  constructor
  · intro after
    simpa using after d s.fresh b (by simp) (by simp)
  · intro same d' o b' refers entry
    by_cases here : d' = d
    · subst here
      obtain rfl : s.fresh = o := by simpa using refers
      obtain rfl : b = b' := by simpa using entry
      simpa using same
    · simp only [install_file, Function.update_of_ne here] at refers entry
      have older := ne_fresh refers
      simp only [install_flags, Function.update_of_ne older]
      exact agrees d' o b' refers entry

/-- A descriptor may take the entry of the one whose file it shares. -/
theorem Agrees.share (agrees : Agrees P s shadow asked) {entry : Option β}
    (copied : entry = none ∨ entry = shadow e) :
    Agrees P (s.share d e) (Function.update shadow d entry) asked := by
  intro d' o b refers has
  by_cases here : d' = d
  · subst here
    simp only [share_file, Function.update_self] at refers has
    obtain gone | same := copied
    · simp [gone] at has
    · exact agrees e o b refers (same ▸ has)
  · simp only [share_file, Function.update_of_ne here] at refers has
    exact agrees d' o b refers has

theorem Agrees.remove (agrees : Agrees P s shadow asked) :
    Agrees P (s.remove d) (Function.update shadow d none) asked := by
  intro d' o b refers has
  by_cases here : d' = d
  · subst here
    simp at has
  · simp only [remove_file, Function.update_of_ne here] at refers has
    exact agrees d' o b refers has

omit [DecidableEq D] in
theorem Agrees.setFlags (agrees : Agrees P s shadow asked) (meets : P a) :
    Agrees P (s.setFlags o a) shadow asked := by
  intro d o' b refers has
  obtain ⟨same, before⟩ := agrees d o' b refers has
  refine ⟨same, ?_⟩
  by_cases here : o' = o
  · subst here
    simpa using meets
  · simpa [Function.update_of_ne here] using before

/-- Something new is asked for through `d`, whose entry, if it has one, follows. The other entries of
the open file must be right already. -/
theorem Agrees.ask_iff (agrees : Agrees P s shadow asked) (refers : s.file d = some o) :
    Agrees P (s.setFlags o a) (Function.update shadow d ((shadow d).map fun _ => b))
        (Function.update asked o b) ↔
      ((shadow d).isSome → P a) ∧
        ∀ d' b', d' ≠ d → s.file d' = some o → shadow d' = some b' → b' = b ∧ P a := by
  constructor
  · intro after
    constructor
    · intro has
      obtain ⟨b', entry⟩ := Option.isSome_iff_exists.mp has
      simpa using (after d o b refers (by simp [entry])).2
    · intro d' b' other refers' has
      have entry : Function.update shadow d ((shadow d).map fun _ => b) d' = some b' := by
        rw [Function.update_of_ne other, has]
      simpa using after d' o b' refers' entry
  · rintro ⟨own, others⟩ d' o' b' refers' has
    rw [setFlags_file] at refers'
    by_cases here : d' = d
    · subst here
      obtain rfl : o = o' := Option.some.inj (refers.symm.trans refers')
      simp only [Function.update_self, Option.map_eq_some_iff] at has
      obtain ⟨before, entry, rfl⟩ := has
      simpa using own (by simp [entry])
    · rw [Function.update_of_ne here] at has
      by_cases sameFile : o' = o
      · subst sameFile
        simpa using others d' b' here refers' has
      · simpa [Function.update_of_ne sameFile] using agrees d' o' b' refers' has

end Shadow

end Files

end Conet.Lib
