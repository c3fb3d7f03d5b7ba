/- Module: Conet/Base/LogShift
   source: base/src/plog.cpp, base/rotate_log.h
   digest: The two copies of shift_file, one of PLog and one of RotateLog, which rotate log files. -/

import Conet.Base.String2number
import Conet.Lib.Directory

set_option autoImplicit false
set_option relaxedAutoImplicit false

namespace Conet.Base.LogShift

open Conet.Lib Conet.Base.StringBuilder
open Conet.Base.String2number (numberText decimal_ne_nil)

universe u

abbrev Name := List UInt8

variable {F : Type u}

section Code

/-- What `snprintf(log_file, sizeof(log_file)-1, "%s.%d", basename, i)` leaves up to the zero. -/
def logFile (basename : Name) (i : ℤ) : Name := (basename ++ 46 :: numberText i).take 1022

/-- The loop of `PLog`'s `shift_file` and the `rename` behind it, from the step `i` on: what `src` and
`dst` hold, the code that is returned, and the directory. -/
def PLog.shiftLoop (basename : Name) : ℕ → Name → Name → Directory Name F → ℤ × Directory Name F
  | 0, _, dst, dir =>
    match dir.rename basename dst with
    | none => (-1, dir)
    | some dir => (0, dir)
  | i + 1, _, dst, dir =>
    let src := logFile basename (i + 1 : ℕ)
    match dir.rename src dst with
    | none => (-367, dir)
    -- the two buffers are swapped
    | some dir => shiftLoop basename i dst src dir

/-- `shift_file` of `PLog`; `logFileOld` is what the second buffer holds. -/
def PLog.shiftFile (basename logFileOld : Name) (num : ℤ) (dir : Directory Name F) :
    ℤ × Directory Name F :=
  let dst := logFile basename (num - 1)
  match dir.remove dst with
  | none => (-357, dir)
  | some dir => PLog.shiftLoop basename (num - 2).toNat logFileOld dst dir

/-- The loop of `RotateLog::shift_file`, which goes on where a `rename` fails. -/
def RotateLog.shiftLoop (basename : Name) :
    ℕ → Name → Name → ℤ → Directory Name F → ℤ × Directory Name F
  | 0, _, dst, ret, dir => (ret, (dir.rename basename dst).getD dir)
  | i + 1, _, dst, ret, dir =>
    let src := logFile basename (i + 1 : ℕ)
    match dir.rename src dst with
    | none => shiftLoop basename i dst src (-168 - (i + 1 : ℕ) * 1000000) dir
    | some dir => shiftLoop basename i dst src ret dir

def RotateLog.shiftFile (basename logFileOld : Name) (num : ℤ) (dir : Directory Name F) :
    ℤ × Directory Name F :=
  let dst := logFile basename (num - 1)
  match dir.remove dst with
  | none => RotateLog.shiftLoop basename (num - 2).toNat logFileOld dst (-159) dir
  | some dir => RotateLog.shiftLoop basename (num - 2).toNat logFileOld dst 0 dir

end Code

section Names

variable {basename : Name} {i j k n : ℕ}

/-- `base`, `base.1`, `base.2`, … -/
def chain (basename : Name) : ℕ → Name
  | 0 => basename
  | i + 1 => basename ++ 46 :: decimal (i + 1)

/-- The names up to `base.n` have room in the buffers. -/
def Fits (basename : Name) (n : ℕ) : Prop := basename.length + 1 + (decimal n).length ≤ 1022

/-- A name that is cut is one of the chain again. -/
def Short (basename : Name) : Prop := basename.length ≤ 1020 ∨ basename.length = 1022

theorem chain_injective (basename : Name) : Function.Injective (chain basename) := by
  intro i j same
  have lengths := congrArg List.length same
  cases i with
  | zero =>
    cases j with
    | zero => rfl
    | succ j =>
      simp only [chain, List.length_append, List.length_cons] at lengths
      omega
  | succ i =>
    cases j with
    | zero =>
      simp only [chain, List.length_append, List.length_cons] at lengths
      omega
    | succ j =>
      have tails := (List.cons.inj (List.append_cancel_left same)).2
      exact decimal_injective tails

theorem logFile_succ (basename : Name) (i : ℕ) :
    logFile basename (i + 1 : ℕ) = (chain basename (i + 1)).take 1022 := by
  have plain : ¬ ((i + 1 : ℕ) : ℤ) < 0 := by omega
  rw [logFile, numberText, if_neg plain, Int.natAbs_natCast, chain]

theorem logFile_of_fits (fits : Fits basename n) (le : i + 1 ≤ n) :
    logFile basename (i + 1 : ℕ) = chain basename (i + 1) := by
  have digits := decimal_length_mono le
  unfold Fits at fits
  rw [logFile_succ, List.take_of_length_le]
  simp only [chain, List.length_append, List.length_cons]
  omega

/-- The first digits of a number are those of another. -/
theorem decimal_take (n : ℕ) (pos : 1 ≤ k) :
    ∃ j ≤ n, (decimal n).take k = decimal j ∧ (1 ≤ n → 1 ≤ j) := by
  induction n using Nat.strong_induction_on with
  | _ n ih =>
    by_cases whole : (decimal n).length ≤ k
    · exact ⟨n, Nat.le_refl n, List.take_of_length_le whole, id⟩
    · rw [decimal_eq] at whole ⊢
      split_ifs at whole ⊢ with small
      · rw [List.nil_append, List.length_singleton] at whole
        omega
      · rw [List.length_append, List.length_singleton] at whole
        obtain ⟨j, le, first, nonzero⟩ := ih (n / 10) (by omega)
        refine ⟨j, by omega, ?_, fun _ => nonzero (by omega)⟩
        rw [List.take_append_of_le_length (by omega), first]

theorem logFile_mem (short : Short basename) (i : ℕ) :
    ∃ j ≤ i + 1, logFile basename (i + 1 : ℕ) = chain basename j := by
  rw [logFile_succ, chain, List.take_append]
  rcases short with room | cut
  · obtain ⟨k, room⟩ := Nat.exists_eq_add_of_le room
    have rest : 1022 - basename.length = k + 1 + 1 := by omega
    obtain ⟨j, le, first, nonzero⟩ := decimal_take (i + 1) (Nat.le_add_left 1 k)
    obtain ⟨j, rfl⟩ := Nat.exists_eq_add_of_le' (nonzero (Nat.le_add_left 1 i))
    refine ⟨j + 1, le, ?_⟩
    rw [rest, List.take_succ_cons, first, List.take_of_length_le (by omega)]
    rfl
  · refine ⟨0, Nat.zero_le _, ?_⟩
    rw [cut, List.take_of_length_le (Nat.le_of_eq cut)]
    exact List.append_nil basename

theorem logFile_ne (long : ¬ Fits basename (n + 1)) :
    (logFile basename (n + 1 : ℕ)).length = 1022 ∧
      logFile basename (n + 1 : ℕ) ≠ chain basename (n + 1) := by
  unfold Fits at long
  have length : (logFile basename (n + 1 : ℕ)).length = 1022 := by
    rw [logFile_succ, List.length_take, chain, List.length_append, List.length_cons]
    omega
  refine ⟨length, fun same => ?_⟩
  rw [same, chain, List.length_append, List.length_cons] at length
  omega

theorem short_of_length (length : (chain basename j).length = 1022) : Short basename := by
  cases j with
  | zero => exact .inr length
  | succ j =>
    have digits := List.length_pos_of_ne_nil (decimal_ne_nil (j + 1))
    simp only [chain, List.length_append, List.length_cons] at length
    left
    omega

end Names

section Runs

variable {basename : Name} {dir dir' : Directory Name F} {f : F} {i k : ℕ} {src dst : Name} {ret : ℤ}

theorem PLog.shiftLoop_zero :
    (PLog.shiftLoop basename 0 src dst dir).2 = (dir.rename basename dst).getD dir := by
  rw [PLog.shiftLoop]
  cases dir.rename basename dst <;> rfl

theorem RotateLog.shiftLoop_succ (i : ℕ) (src dst : Name) (ret : ℤ) (dir : Directory Name F) :
    ∃ ret', RotateLog.shiftLoop basename (i + 1) src dst ret dir =
      RotateLog.shiftLoop basename i dst (logFile basename (i + 1 : ℕ)) ret'
        ((dir.rename (logFile basename (i + 1 : ℕ)) dst).getD dir) := by
  rw [RotateLog.shiftLoop]
  cases dir.rename (logFile basename (i + 1 : ℕ)) dst with
  | none => exact ⟨_, rfl⟩
  | some _ => exact ⟨_, rfl⟩

theorem RotateLog.shiftFile_eq (basename logFileOld : Name) (k : ℕ) (dir : Directory Name F) :
    ∃ ret, RotateLog.shiftFile basename logFileOld (k + 2 : ℕ) dir =
      RotateLog.shiftLoop basename k logFileOld (logFile basename (k + 1 : ℕ)) ret
        ((dir.remove (logFile basename (k + 1 : ℕ))).getD dir) := by
  have highest : ((k + 2 : ℕ) : ℤ) - 1 = (k + 1 : ℕ) := by omega
  have steps : (((k + 2 : ℕ) : ℤ) - 2).toNat = k := by omega
  rw [RotateLog.shiftFile, highest, steps]
  cases dir.remove (logFile basename (k + 1 : ℕ)) with
  | none => exact ⟨_, rfl⟩
  | some _ => exact ⟨_, rfl⟩

/-- Where the names fit, the loop of `PLog` moves the files from the highest missing name on. -/
theorem PLog.shiftLoop_moves (fits : Fits basename (k + 1)) (src : Name) (le : i ≤ k)
    (moves : dir.MovesUp (chain basename) (i + 1) (k + 1) dir')
    (present : ∀ j, i < j → j ≤ k + 1 → dir (chain basename j) ≠ none) :
    ∃ m ≤ k, (m = 0 ∨ dir (chain basename m) = none) ∧
      (∀ j, m < j → j ≤ k + 1 → dir (chain basename j) ≠ none) ∧
      dir.MovesUp (chain basename) m (k + 1)
        (PLog.shiftLoop basename i src (chain basename (i + 1)) dir').2 := by
  have inj := chain_injective basename
  induction i generalizing dir' src with
  | zero =>
    refine ⟨0, Nat.zero_le k, .inl rfl, present, ?_⟩
    rw [PLog.shiftLoop_zero]
    exact moves.rename (Nat.succ_pos k) inj
  | succ i ih =>
    have here : dir' (chain basename (i + 1)) = dir (chain basename (i + 1)) :=
      moves.below inj (Nat.lt_succ_self _)
    have more := moves.rename (Nat.lt_succ_of_le le) inj
    rw [PLog.shiftLoop, logFile_of_fits fits (Nat.le_succ_of_le le)]
    cases renamed : dir'.rename (chain basename (i + 1)) (chain basename (i + 1 + 1)) with
    | none =>
      have missing := Directory.rename_eq_none.mp renamed
      rw [renamed, Option.getD_none] at more
      exact ⟨i + 1, le, .inr (here.symm.trans missing), present, more⟩
    | some dir'' =>
      have there : dir' (chain basename (i + 1)) ≠ none := fun missing => by
        rw [Directory.rename_eq_none.mpr missing] at renamed
        cases renamed
      rw [renamed, Option.getD_some] at more
      refine ih _ (Nat.le_of_succ_le le) more fun j above within => ?_
      obtain rfl | later := Nat.eq_or_lt_of_le above
      · exact here ▸ there
      · exact present j later within

theorem PLog.shiftFile_moves (fits : Fits basename (k + 1)) (logFileOld : Name)
    (dir : Directory Name F) :
    ∃ m ≤ k + 1, (m = 0 ∨ dir (chain basename m) = none) ∧
      (∀ j, m < j → j ≤ k + 1 → dir (chain basename j) ≠ none) ∧
      dir.MovesUp (chain basename) m (k + 1)
        (PLog.shiftFile basename logFileOld (k + 2 : ℕ) dir).2 := by
  have highest : ((k + 2 : ℕ) : ℤ) - 1 = (k + 1 : ℕ) := by omega
  have steps : (((k + 2 : ℕ) : ℤ) - 2).toNat = k := by omega
  rw [PLog.shiftFile, highest, steps, logFile_of_fits fits (Nat.le_refl _)]
  cases removed : dir.remove (chain basename (k + 1)) with
  | none =>
    have missing := Directory.remove_eq_none.mp removed
    refine ⟨k + 1, Nat.le_refl _, .inr missing, fun j above within => ?_, ?_⟩
    · exact absurd within (Nat.not_le.mpr above)
    · exact Directory.movesUp_refl missing
  | some dir' =>
    have there : dir (chain basename (k + 1)) ≠ none := fun missing => by
      rw [Directory.remove_eq_none.mpr missing] at removed
      cases removed
    have present : ∀ j, k < j → j ≤ k + 1 → dir (chain basename j) ≠ none := by
      intro j above within
      obtain rfl : j = k + 1 := by omega
      exact there
    obtain ⟨m, le, lowest, found, moves⟩ := PLog.shiftLoop_moves fits logFileOld (Nat.le_refl k)
      (Directory.movesUp_remove removed) present
    exact ⟨m, Nat.le_succ_of_le le, lowest, found, moves⟩

/-- Where the names fit, the loop of `RotateLog` moves all files. -/
theorem RotateLog.shiftLoop_moves (fits : Fits basename (k + 1)) (src : Name) (ret : ℤ) (le : i ≤ k)
    (moves : dir.MovesUp (chain basename) (i + 1) (k + 1) dir') :
    dir.MovesUp (chain basename) 0 (k + 1)
      (RotateLog.shiftLoop basename i src (chain basename (i + 1)) ret dir').2 := by
  have more := moves.rename (Nat.lt_succ_of_le le) (chain_injective basename)
  induction i generalizing dir' src ret with
  | zero =>
    rw [RotateLog.shiftLoop]
    exact more
  | succ i ih =>
    obtain ⟨ret', next⟩ :=
      @RotateLog.shiftLoop_succ _ basename i src (chain basename (i + 1 + 1)) ret dir'
    rw [next, logFile_of_fits fits (Nat.le_succ_of_le le)]
    refine ih _ _ (Nat.le_of_succ_le le) more ?_
    exact more.rename (by omega) (chain_injective basename)

theorem RotateLog.shiftFile_moves (fits : Fits basename (k + 1)) (logFileOld : Name)
    (dir : Directory Name F) :
    dir.MovesUp (chain basename) 0 (k + 1)
      (RotateLog.shiftFile basename logFileOld (k + 2 : ℕ) dir).2 := by
  obtain ⟨ret, start⟩ := RotateLog.shiftFile_eq basename logFileOld k dir
  rw [start, logFile_of_fits fits (Nat.le_refl _)]
  refine RotateLog.shiftLoop_moves fits _ _ (Nat.le_refl k) ?_
  cases removed : dir.remove (chain basename (k + 1)) with
  | none => exact Directory.movesUp_refl (Directory.remove_eq_none.mp removed)
  | some _ => exact Directory.movesUp_remove removed

theorem PLog.shiftLoop_gone (src dst : Name) (gone : ∀ n, dir n ≠ some f) :
    ∀ n, (PLog.shiftLoop basename i src dst dir).2 n ≠ some f := by
  induction i generalizing dir src dst with
  | zero =>
    rw [PLog.shiftLoop_zero]
    exact Directory.rename_gone gone
  | succ i ih =>
    have kept : ∀ n, (dir.rename (logFile basename (i + 1 : ℕ)) dst).getD dir n ≠ some f :=
      Directory.rename_gone gone
    rw [PLog.shiftLoop]
    cases renamed : dir.rename (logFile basename (i + 1 : ℕ)) dst with
    | none => exact gone
    | some _ =>
      rw [renamed, Option.getD_some] at kept
      exact ih _ _ kept

/-- The file of the highest name in the code is removed. -/
theorem PLog.shiftFile_gone (logFileOld : Name)
    (only : ∀ n, dir n = some f → n = logFile basename (k + 1 : ℕ)) :
    dir (logFile basename (k + 1 : ℕ)) = some f →
      ∀ n, (PLog.shiftFile basename logFileOld (k + 2 : ℕ) dir).2 n ≠ some f := by
  intro there
  have highest : ((k + 2 : ℕ) : ℤ) - 1 = (k + 1 : ℕ) := by omega
  rw [PLog.shiftFile, highest, Directory.remove, if_neg (there ▸ Option.some_ne_none f)]
  refine PLog.shiftLoop_gone _ _ fun n => ?_
  rw [Function.update_apply]
  split_ifs with same
  · exact (Option.some_ne_none f).symm
  · exact fun held => same (only n held)

/-- `PLog` does nothing where its first step fails. -/
theorem PLog.shiftFile_missing (logFileOld : Name)
    (missing : dir (logFile basename (k + 1 : ℕ)) = none) :
    PLog.shiftFile basename logFileOld (k + 2 : ℕ) dir = (-357, dir) := by
  have highest : ((k + 2 : ℕ) : ℤ) - 1 = (k + 1 : ℕ) := by omega
  rw [PLog.shiftFile, highest, Directory.remove_eq_none.mpr missing]

/-- `RotateLog` does nothing where there is no file of the chain and the names that it makes are of the
chain. -/
theorem RotateLog.shiftFile_missing (short : Short basename) (logFileOld : Name)
    (missing : ∀ j ≤ k + 1, dir (chain basename j) = none) :
    (RotateLog.shiftFile basename logFileOld (k + 2 : ℕ) dir).2 = dir := by
  have absent : ∀ i ≤ k, dir (logFile basename (i + 1 : ℕ)) = none := by
    intro i le
    obtain ⟨j, small, same⟩ := logFile_mem short i
    rw [same]
    exact missing j (by omega)
  have loop : ∀ i ≤ k, ∀ src dst ret,
      (RotateLog.shiftLoop basename i src dst ret dir).2 = dir := by
    intro i
    induction i with
    | zero =>
      intro _ src dst ret
      have free : dir basename = none := missing 0 (Nat.zero_le _)
      rw [RotateLog.shiftLoop, Directory.rename_eq_none.mpr free, Option.getD_none]
    | succ i ih =>
      intro le src dst ret
      rw [RotateLog.shiftLoop, Directory.rename_eq_none.mpr (absent i (by omega))]
      exact ih (by omega) _ _ _
  obtain ⟨ret, start⟩ := RotateLog.shiftFile_eq basename logFileOld k dir
  rw [start, Directory.remove_eq_none.mpr (absent k (Nat.le_refl k)), Option.getD_none]
  exact loop k (Nat.le_refl k) _ _ _

end Runs

section Rotations

variable {basename : Name} {dir : Directory Name F} {k : ℕ} {S : Set ℕ}

/-- `S` says which of the files `base`, `base.1`, …, `base.(num - 1)` there are. -/
def Exist (basename : Name) (num : ℕ) (S : Set ℕ) (dir : Directory Name F) : Prop :=
  ∀ i < num, dir (chain basename i) ≠ none ↔ i ∈ S

/-- A rotation from `dir` to `dir'`: `base` becomes `base.1` and `base.i` becomes `base.(i + 1)`, where
they exist; `base.(num - 1)` is dropped, and all other files stay. -/
def Rotated (basename : Name) (num : ℕ) (dir dir' : Directory Name F) : Prop :=
  dir.MovesUp (chain basename) 0 (num - 1) dir'

/-- In every directory with the files of `S`, `shift_file` of `PLog` rotates, and does what that of
`RotateLog` does. -/
def ShiftFileRotates (basename logFileOld : Name) (num : ℕ) (S : Set ℕ) : Prop :=
  ∀ (F : Type) (dir : Directory Name F), Exist basename num S dir →
    Rotated basename num dir (PLog.shiftFile basename logFileOld num dir).2 ∧
      (PLog.shiftFile basename logFileOld num dir).2 =
        (RotateLog.shiftFile basename logFileOld num dir).2

/-- No file is missing in front of one that exists. -/
theorem no_gap_iff {m : ℕ} (inj : Function.Injective (chain basename)) (le : m ≤ k + 1)
    {dir' : Directory Name F} (lowest : m = 0 ∨ dir (chain basename m) = none)
    (found : ∀ j, m < j → j ≤ k + 1 → dir (chain basename j) ≠ none)
    (moves : dir.MovesUp (chain basename) m (k + 1) dir') :
    dir.MovesUp (chain basename) 0 (k + 1) dir' ↔
      ∀ i, i < k + 1 → dir (chain basename i) ≠ none → dir (chain basename (i + 1)) ≠ none := by
  constructor
  · intro all i small there
    by_cases above : m < i + 1
    · exact found (i + 1) above small
    · exact absurd (moves.missing_below all inj le (Nat.not_lt.mp above)) there
  · intro next
    obtain rfl | missing := lowest
    · exact moves
    · have below : ∀ j ≤ m, dir (chain basename (m - j)) = none := by
        intro j
        induction j with
        | zero => exact fun _ => missing
        | succ j ih =>
          intro within
          by_contra there
          have same : m - (j + 1) + 1 = m - j := by omega
          exact next _ (by omega) there (same ▸ ih (by omega))
      refine moves.extend le inj fun i within => ?_
      have same : m - (m - i) = i := by omega
      exact same ▸ below (m - i) (Nat.sub_le m i)

open Classical in
theorem exists_directory (basename : Name) (num : ℕ) (S : Set ℕ) :
    ∃ dir : Directory Name Bool, Exist basename num S dir ∧ ∀ n, dir n ≠ some true := by
  refine ⟨fun n => if ∃ i ∈ S, n = chain basename i then some false else none, ?_, ?_⟩
  · intro i _
    beta_reduce
    split_ifs with named
    · obtain ⟨j, listed, same⟩ := named
      have same := chain_injective basename same
      simpa [same] using listed
    · have unlisted : i ∉ S := fun listed => named ⟨i, listed, rfl⟩
      simpa using unlisted
  · intro n
    beta_reduce
    split_ifs <;> simp

/-- Where a name is cut, `shift_file` rotates only where there is nothing to rotate. -/
theorem empty_of_cut (long : ¬ Fits basename (k + 1)) {logFileOld : Name}
    (rotates : ShiftFileRotates basename logFileOld (k + 2) S) :
    Short basename ∧ ∀ i < k + 2, i ∉ S := by
  obtain ⟨length, other⟩ := logFile_ne long
  obtain ⟨dir, files, plain⟩ := exists_directory basename (k + 2) S
  by_cases named : ∃ d < k + 2, d ∉ S ∧ logFile basename (k + 1 : ℕ) = chain basename d
  · obtain ⟨d, small, unlisted, same⟩ := named
    have missing : dir (logFile basename (k + 1 : ℕ)) = none := by
      by_contra there
      exact unlisted ((files d small).mp (same ▸ there))
    have stays := (rotates Bool dir files).1
    rw [PLog.shiftFile_missing logFileOld missing] at stays
    refine ⟨short_of_length (same ▸ length), fun i within listed => ?_⟩
    exact (files i within).mpr listed (Directory.MovesUp.missing stays (Nat.le_of_lt_succ within))
  · -- the file that is removed is one that must not be lost
    exfalso
    have listed : ∀ d < k + 2, logFile basename (k + 1 : ℕ) = chain basename d → d ∈ S := by
      intro d small same
      by_contra unlisted
      exact named ⟨d, small, unlisted, same⟩
    have marked : Exist basename (k + 2) S
        (Function.update dir (logFile basename (k + 1 : ℕ)) (some true)) := by
      intro i within
      rw [Function.update_apply]
      split_ifs with same
      · simpa using listed i within same.symm
      · exact files i within
    have moves := (rotates Bool _ marked).1
    have only : ∀ n, Function.update dir (logFile basename (k + 1 : ℕ)) (some true) n = some true →
        n = logFile basename (k + 1 : ℕ) := by
      intro n held
      by_contra apart
      rw [Function.update_of_ne apart] at held
      exact plain n held
    have gone := PLog.shiftFile_gone logFileOld only (Function.update_self ..)
    by_cases inside : ∃ d < k + 2, logFile basename (k + 1 : ℕ) = chain basename d
    · obtain ⟨d, small, same⟩ := inside
      have lower : d ≠ k + 1 := fun last => other (last ▸ same)
      have moved := moves.moved d (Nat.zero_le d) (by omega)
      rw [← same, Function.update_self] at moved
      exact gone _ moved
    · have rest := moves.rest (logFile basename (k + 1 : ℕ)) fun i _ within same =>
        inside ⟨i, Nat.lt_succ_of_le within, same⟩
      rw [Function.update_self] at rest
      exact gone _ rest

/-- `shift_file` of `PLog` rotates, as `RotateLog` does, exactly where the names fit and each file that
exists has the next one above it, or where there is nothing to rotate. -/
theorem shiftFile_rotates_iff (basename logFileOld : Name) (num : ℕ) (two : 2 ≤ num) (S : Set ℕ) :
    ShiftFileRotates basename logFileOld num S ↔
      Fits basename (num - 1) ∧ (∀ i, i + 1 < num → i ∈ S → i + 1 ∈ S) ∨
        Short basename ∧ ∀ i < num, i ∉ S := by
  obtain ⟨k, rfl⟩ := Nat.exists_eq_add_of_le' two
  constructor
  · intro rotates
    by_cases fits : Fits basename (k + 1)
    · left
      refine ⟨fits, fun i small listed => ?_⟩
      obtain ⟨dir, files, -⟩ := exists_directory basename (k + 2) S
      obtain ⟨m, le, lowest, found, moves⟩ := PLog.shiftFile_moves fits logFileOld dir
      have next := (no_gap_iff (chain_injective basename) le lowest found moves).mp
        (rotates Bool dir files).1 i (by omega) ((files i (by omega)).mpr listed)
      exact (files (i + 1) small).mp next
    · exact .inr (empty_of_cut fits rotates)
  · rintro (⟨fits, next⟩ | ⟨short, empty⟩) F dir files
    · obtain ⟨m, le, lowest, found, moves⟩ := PLog.shiftFile_moves fits logFileOld dir
      have all := (no_gap_iff (chain_injective basename) le lowest found moves).mpr
        fun i small there => (files (i + 1) (by omega)).mpr
          (next i (by omega) ((files i (by omega)).mp there))
      exact ⟨all, all.unique (RotateLog.shiftFile_moves fits logFileOld dir)⟩
    · have missing : ∀ j ≤ k + 1, dir (chain basename j) = none := by
        intro j within
        by_contra there
        exact empty j (by omega) ((files j (by omega)).mp there)
      obtain ⟨j, small, same⟩ := logFile_mem short k
      rw [PLog.shiftFile_missing logFileOld (same ▸ missing j small),
        RotateLog.shiftFile_missing short logFileOld missing]
      refine ⟨⟨missing 0 (Nat.zero_le _), fun i _ within => ?_, fun _ _ => rfl⟩, rfl⟩
      exact (missing (i + 1) (by omega)).trans (missing i (by omega)).symm

/-- `log` with three files. -/
theorem shiftFile_rotates_log :
    2 ≤ 3 ∧ (ShiftFileRotates [108, 111, 103] [] 3 Set.univ ↔
      Fits [108, 111, 103] 2 ∧ (∀ i, i + 1 < 3 → i ∈ Set.univ → i + 1 ∈ Set.univ) ∨
        Short [108, 111, 103] ∧ ∀ i < 3, i ∉ (Set.univ : Set ℕ)) :=
  ⟨by decide, shiftFile_rotates_iff [108, 111, 103] [] 3 (by decide) Set.univ⟩

/-- At the first rotation, when there is only `log`, `PLog` moves nothing. -/
theorem first_rotation_fails :
    ¬ ∀ (basename logFileOld : Name) (num : ℕ) (S : Set ℕ), 2 ≤ num →
      ShiftFileRotates basename logFileOld num S := by
  intro always
  have files : Exist [108, 111, 103] 3 {0}
      (fun n => if n = [108, 111, 103] then some () else none) := by
    intro i small
    obtain rfl | rfl | rfl : i = 0 ∨ i = 1 ∨ i = 2 := by omega
    · simp [chain]
    · simp [chain]
    · simp [chain]
  have moves := (always [108, 111, 103] [] 3 {0} (by decide) Unit _ files).1
  rw [PLog.shiftFile_missing (k := 1) [] (by decide)] at moves
  cases moves.free

end Rotations

end Conet.Base.LogShift
