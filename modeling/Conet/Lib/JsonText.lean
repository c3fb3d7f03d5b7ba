/- Module: Conet/Lib/JsonText
   source: none (library)
   digest: JSON texts that are put together from parts: they are read as what they should stand for
   exactly where the parts are. -/

import Conet.Lib.Json
import Mathlib.Data.List.Nodup
import Mathlib.Data.List.TakeWhile

set_option autoImplicit false
set_option relaxedAutoImplicit false

namespace Conet.Lib.Json

def Ends (s : List UInt8) : Prop := s = [] ∨ ∃ c s', s = c :: s' ∧ (c = 44 ∨ c = 93 ∨ c = 125)

/-- The text stands for the value, wherever a value may stand. -/
def Reads (t : List UInt8) (v : Value) : Prop :=
  ∀ k s, Ends s → t.length < k → value k (t ++ s) = some (v, s)

/-- The text stands for the value, if it is read as the value anywhere. -/
def Honest (t : List UInt8) (v : Value) : Prop :=
  ∀ k s rest, Ends s → t.length < k → value k (t ++ s) = some (v, rest) → Reads t v

variable {k : ℕ} {c : UInt8} {s t x y rest : List UInt8} {v w : Value}

theorem Ends.nil : Ends [] := .inl rfl

theorem Reads.honest (reads : Reads t w) : Honest t v := by
  intro k s rest ends fuel read
  rw [reads k s ends fuel] at read
  obtain ⟨rfl, -⟩ := Prod.mk.inj (Option.some.inj read)
  exact reads

theorem Reads.unique (reads : Reads t w) : Reads t v ↔ w = v := by
  constructor
  · intro other
    have read := (reads _ [] Ends.nil (Nat.lt_succ_self _)).symm.trans
      (other _ [] Ends.nil (Nat.lt_succ_self _))
    exact (Prod.mk.inj (Option.some.inj read)).1
  · rintro rfl
    exact reads

theorem read_iff (honest : Honest t v) : read t = some v ↔ Reads t v := by
  unfold read
  constructor
  · intro whole
    split at whole
    · rename_i w rest found
      split_ifs at whole
      obtain rfl := Option.some.inj whole
      rw [← List.append_nil t] at found
      exact honest _ [] rest Ends.nil (by simp) found
    · cases whole
  · intro reads
    have found := reads (t.length + 1) [] Ends.nil (Nat.lt_succ_self _)
    rw [List.append_nil] at found
    rw [found]
    rfl

theorem skip_cons (solid : isSpace c = false) : skip (c :: s) = c :: s := by
  simp [skip, solid]

/-! ### Numbers -/

section Numbers

theorem digit_bounds (digit : isDigit c = true) : 48 ≤ c.toNat ∧ c.toNat ≤ 57 := by
  simpa [isDigit, UInt8.le_iff_toNat_le] using digit

theorem value_number (start : c = 45 ∨ isDigit c = true) :
    value (k + 1) (c :: s) = (number (c :: s)).map fun r => (.number r.1, r.2) := by
  have small : c.toNat ≤ 57 ∧ 45 ≤ c.toNat := by
    rcases start with rfl | digit
    · decide
    · have bounds := digit_bounds digit
      omega
  have other : ∀ d : UInt8, 57 < d.toNat ∨ d.toNat < 45 → c ≠ d := by
    rintro d far rfl
    omega
  have solid : isSpace c = false := by
    simp [isSpace, other]
  rw [value, skip_cons solid]
  simp [other]

theorem unsigned_digits (ends : Ends s) (digits : ∀ c ∈ t, isDigit c = true) (ne : t ≠ [])
    (first : t.head? = some 48 → t.length = 1) :
    unsigned (t ++ s) = some ((digitsValue t : ℚ), s) := by
  have stop : s.takeWhile isDigit = [] ∧ s.dropWhile isDigit = s ∧ fraction s = some ([], s) ∧
      exponent s = some (0, s) := by
    rcases ends with rfl | ⟨c, s, rfl, rfl | rfl | rfl⟩ <;>
      simp [isDigit, fraction, exponent]
  obtain ⟨none, rest, frac, exp⟩ := stop
  have front : (t ++ s).takeWhile isDigit = t := by
    rw [List.takeWhile_append_of_pos digits, none, List.append_nil]
  have back : (t ++ s).dropWhile isDigit = s := by
    rw [List.dropWhile_append_of_pos digits, rest]
  have whole : ¬ (t = [] ∨ (t.head? = some 48 ∧ t.length ≠ 1)) := by
    rintro (empty | ⟨zero, long⟩)
    · exact ne empty
    · exact long (first zero)
  unfold unsigned
  simp only [front, back]
  rw [if_neg whole, frac]
  simp [exp]

theorem reads_digits (digits : ∀ c ∈ t, isDigit c = true) (ne : t ≠ [])
    (first : t.head? = some 48 → t.length = 1) : Reads t (.number (digitsValue t)) := by
  intro k s ends fuel
  obtain ⟨c, t', rfl⟩ := List.exists_cons_of_ne_nil ne
  obtain ⟨k, rfl⟩ := Nat.exists_eq_succ_of_ne_zero (Nat.ne_of_gt (Nat.zero_lt_of_lt fuel))
  have digit := digits c List.mem_cons_self
  have bounds := digit_bounds digit
  have unsign : (c :: (t' ++ s)).head? ≠ some 45 := by
    intro same
    obtain rfl : c = 45 := by simpa using same
    revert bounds
    decide
  rw [List.cons_append, value_number (.inr digit), number, if_neg unsign, ← List.cons_append,
    unsigned_digits ends digits ne first]
  rfl

theorem reads_minus (digits : ∀ c ∈ t, isDigit c = true) (ne : t ≠ [])
    (first : t.head? = some 48 → t.length = 1) : Reads (45 :: t) (.number (-(digitsValue t : ℚ))) := by
  intro k s ends fuel
  obtain ⟨k, rfl⟩ := Nat.exists_eq_succ_of_ne_zero (Nat.ne_of_gt (Nat.zero_lt_of_lt fuel))
  have minus : (45 :: (t ++ s)).head? = some 45 := rfl
  rw [List.cons_append, value_number (.inl rfl), number, if_pos minus, List.tail_cons,
    unsigned_digits ends digits ne first]
  rfl

theorem Reads.space (reads : Reads t v) : Reads (32 :: t) v := by
  intro k s ends fuel
  obtain ⟨k, rfl⟩ := Nat.exists_eq_succ_of_ne_zero (Nat.ne_of_gt (Nat.zero_lt_of_lt fuel))
  have skipped : skip (32 :: t ++ s) = skip (t ++ s) := rfl
  have same : value (k + 1) (32 :: t ++ s) = value (k + 1) (t ++ s) := by
    simp only [value, skipped]
  rw [List.length_cons] at fuel
  rw [same, reads (k + 1) s ends (by omega)]

end Numbers

/-! ### Strings -/

section Quoted

def quoted (x : List UInt8) : List UInt8 := 34 :: (x ++ [34])

theorem value_quote : value (k + 1) (34 :: s) = (string s).map fun r => (.string r.1, r.2) := by
  rw [value, skip_cons rfl]
  simp

theorem quoted_append : quoted x ++ s = 34 :: (x ++ 34 :: s) := by simp [quoted]

theorem string_clean (clean : Clean x) (valid : utf8 x = true) : string (x ++ 34 :: s) = some (x, s) := by
  simp [string, scan_clean clean, scan, valid]

theorem value_quoted (read : value k (quoted x ++ s) = some (.string y, rest)) :
    scan .plain (x ++ 34 :: s) = some (y, rest) ∧ utf8 y = true := by
  cases k with
  | zero => cases read
  | succ k =>
    rw [quoted_append, value_quote] at read
    obtain ⟨⟨y', rest'⟩, found, eq⟩ := Option.map_eq_some_iff.mp read
    obtain ⟨same, rfl⟩ := Prod.mk.inj eq
    obtain rfl := Value.string.inj same
    exact Option.filter_eq_some_iff.mp found

theorem reads_quoted (clean : Clean x) (valid : utf8 x = true) : Reads (quoted x) (.string x) := by
  intro k s ends fuel
  obtain ⟨k, rfl⟩ := Nat.exists_eq_succ_of_ne_zero (Nat.ne_of_gt (Nat.zero_lt_of_lt fuel))
  rw [quoted_append, value_quote, string_clean clean valid]
  rfl

theorem honest_quoted (x : List UInt8) : Honest (quoted x) (.string x) := by
  intro k s rest ends fuel read
  obtain ⟨found, valid⟩ := value_quoted read
  exact reads_quoted (scan_self found) valid

theorem reads_quoted_iff : Reads (quoted x) (.string x) ↔ Clean x ∧ utf8 x = true := by
  constructor
  · intro reads
    obtain ⟨found, valid⟩ := value_quoted (reads _ [] Ends.nil (Nat.lt_succ_self _))
    exact ⟨scan_self found, valid⟩
  · rintro ⟨clean, valid⟩
    exact reads_quoted clean valid

/-- A value is a string where it begins with a quote. -/
theorem value_string (read : value (k + 1) s = some (.string y, rest)) :
    ∃ s', skip s = 34 :: s' ∧ string s' = some (y, rest) := by
  rw [value] at read
  split at read
  · cases read
  · rename_i c s' eq
    have other : ∀ (text : List UInt8) (v : Value), keyword text v (c :: s') = some (.string y, rest) →
        v = .string y := by
      intro text v found
      unfold keyword at found
      split_ifs at found
      exact (Prod.mk.inj (Option.some.inj found)).1
    split_ifs at read with quote bracket empty brace empty null true false
    · obtain ⟨⟨y', rest'⟩, found, same⟩ := Option.map_eq_some_iff.mp read
      obtain ⟨eq_y, rfl⟩ := Prod.mk.inj same
      obtain rfl := Value.string.inj eq_y
      exact ⟨s', by rw [eq, quote], found⟩
    · simp at read
    · simp at read
    · simp at read
    · simp at read
    · cases other _ _ read
    · cases other _ _ read
    · cases other _ _ read
    · simp at read

theorem value_raw (ends : Ends s) : value k (x ++ s) ≠ some (.string x, rest) := by
  intro read
  cases k with
  | zero => cases read
  | succ k =>
    obtain ⟨s', start, found⟩ := value_string read
    have content := (Option.filter_eq_some_iff.mp found).1
    have split : x.takeWhile isSpace ++ x.dropWhile isSpace = x := List.takeWhile_append_dropWhile
    have spaces : ∀ c ∈ x.takeWhile isSpace, isSpace c = true := fun c => List.mem_takeWhile_imp
    cases solid : x.dropWhile isSpace with
    | nil =>
      rw [solid, List.append_nil] at split
      rw [← split, skip, List.dropWhile_append_of_pos spaces] at start
      rcases ends with rfl | ⟨c, s, rfl, rfl | rfl | rfl⟩ <;> cases start
    | cons c x' =>
      have other := List.head_dropWhile_not isSpace (l := x) (by simp [solid])
      simp only [solid, List.head_cons] at other
      have back : skip (x ++ s) = c :: (x' ++ s) := by
        rw [← split, solid, List.append_assoc, skip, List.dropWhile_append_of_pos spaces]
        exact skip_cons other
      obtain ⟨rfl, rfl⟩ := List.cons.inj (back.symm.trans start)
      -- the content is behind the text from the quote on
      have fresh : ∀ c, c = 44 ∨ c = 93 ∨ c = 125 → c ∉ x.takeWhile isSpace ++ [34] := by
        intro c stop mem
        rcases List.mem_append.mp mem with space | quote
        · have blank := spaces c space
          rcases stop with rfl | rfl | rfl <;> revert blank <;> decide
        · rcases stop with rfl | rfl | rfl <;> simp at quote
      have whole : x = (x.takeWhile isSpace ++ [34]) ++ x' := by
        rw [List.append_assoc, List.singleton_append, ← solid, split]
      have stops : ∀ c, c = 44 ∨ c = 93 ∨ c = 125 → IsStop c := fun c stop => .inr stop
      rw [whole] at content
      rcases ends with rfl | ⟨c, s, rfl, stop⟩
      · rw [List.append_nil] at content
        have longer := scan_append content [44]
        exact scan_ahead (stops 44 (.inl rfl)) (fresh 44 (.inl rfl)) (by simp [Lex.pending]) longer
      · exact scan_ahead (stops c stop) (fresh c stop) (by simp [Lex.pending]) content

theorem honest_raw (x : List UInt8) : Honest x (.string x) :=
  fun _ _ _ ends _ read => absurd read (value_raw ends)

theorem not_reads_raw (x : List UInt8) : ¬ Reads x (.string x) := fun reads =>
  value_raw Ends.nil (reads _ [] Ends.nil (Nat.lt_succ_self _))

end Quoted

/-! ### Parts with commas between them -/

section Tail

/-- The further parts, and the bracket that closes them. -/
def tailText (close : UInt8) (ts : List (List UInt8)) (s : List UInt8) : List UInt8 :=
  ts.flatMap (44 :: ·) ++ close :: s

variable {close : UInt8} {ts : List (List UInt8)}

theorem tailText_cons : tailText close (t :: ts) s = 44 :: (t ++ tailText close ts s) := by simp [tailText]

theorem ends_tail (closing : close = 93 ∨ close = 125) : Ends (tailText close ts s) := by
  cases ts with
  | nil => exact .inr ⟨close, s, rfl, .inr closing⟩
  | cons t ts => exact .inr ⟨44, _, tailText_cons, .inl rfl⟩

/-- Text that begins with a closing bracket is no value. -/
theorem value_closing (closing : c = 93 ∨ c = 125) (first : (skip s).head? = some c) :
    value k s = none := by
  cases k with
  | zero => rfl
  | succ k =>
    obtain ⟨s', eq⟩ := List.head?_eq_some_iff.mp first
    rw [value, eq]
    rcases closing with rfl | rfl <;> rfl

end Tail

/-! ### Arrays -/

section Arrays

/-- The texts in brackets, with commas between them. -/
def arrayText : List (List UInt8) → List UInt8
  | [] => [91, 93]
  | t :: ts => 91 :: (t ++ tailText 93 ts [])

variable {p : List UInt8 × Value} {ps : List (List UInt8 × Value)} {vs : List Value}

theorem items_last (found : value k (t ++ tailText 93 [] s) = some (v, tailText 93 [] s)) :
    items (k + 1) (t ++ tailText 93 [] s) = some ([v], s) := by
  rw [items, found]
  rfl

theorem items_cons {ts : List (List UInt8)}
    (found : value k (t ++ tailText 93 (x :: ts) s) = some (v, tailText 93 (x :: ts) s)) :
    items (k + 1) (t ++ tailText 93 (x :: ts) s) =
      (items k (x ++ tailText 93 ts s)).map fun r => (v :: r.1, r.2) := by
  rw [items, found]
  simp only [tailText_cons, skip_cons (show isSpace 44 = false from rfl), if_true]

theorem items_reads (reads : ∀ q ∈ p :: ps, Reads q.1 q.2)
    (fuel : (p.1 ++ tailText 93 (ps.map Prod.fst) []).length < k) :
    items k (p.1 ++ tailText 93 (ps.map Prod.fst) s) = some (p.2 :: ps.map Prod.snd, s) := by
  induction ps generalizing p k with
  | nil =>
    obtain ⟨k, rfl⟩ := Nat.exists_eq_succ_of_ne_zero (Nat.ne_of_gt (Nat.zero_lt_of_lt fuel))
    have short : p.1.length < k := by
      simp only [tailText, List.length_append, List.length_singleton] at fuel
      omega
    exact items_last (reads p List.mem_cons_self k _ (ends_tail (.inl rfl)) short)
  | cons q ps ih =>
    obtain ⟨k, rfl⟩ := Nat.exists_eq_succ_of_ne_zero (Nat.ne_of_gt (Nat.zero_lt_of_lt fuel))
    rw [List.map_cons, tailText_cons, List.length_append, List.length_cons] at fuel
    have first := reads p List.mem_cons_self k (tailText 93 ((q :: ps).map Prod.fst) s)
      (ends_tail (.inl rfl)) (by omega)
    have later := ih (fun r mem => reads r (List.mem_cons_of_mem p mem))
      (by omega : (q.1 ++ tailText 93 (ps.map Prod.fst) []).length < k)
    rw [List.map_cons, items_cons first, later]
    rfl

theorem items_first (read : items (k + 1) x = some (v :: vs, rest)) :
    ∃ s, value k x = some (v, s) := by
  rw [items] at read
  split at read
  · cases read
  · rename_i w s found
    split at read
    · cases read
    · split_ifs at read
      · obtain ⟨r, -, eq⟩ := Option.map_eq_some_iff.mp read
        obtain ⟨same, -⟩ := List.cons.inj (Prod.mk.inj eq).1
        exact ⟨s, same ▸ found⟩
      · obtain ⟨same, -⟩ := List.cons.inj (Prod.mk.inj (Option.some.inj read)).1
        exact ⟨s, same ▸ found⟩

theorem items_honest (honest : ∀ q ∈ p :: ps, Honest q.1 q.2)
    (fuel : (p.1 ++ tailText 93 (ps.map Prod.fst) []).length < k)
    (read : items k (p.1 ++ tailText 93 (ps.map Prod.fst) s) = some (p.2 :: ps.map Prod.snd, rest)) :
    ∀ q ∈ p :: ps, Reads q.1 q.2 := by
  induction ps generalizing p k with
  | nil =>
    obtain ⟨k, rfl⟩ := Nat.exists_eq_succ_of_ne_zero (Nat.ne_of_gt (Nat.zero_lt_of_lt fuel))
    have short : p.1.length < k := by
      simp only [tailText, List.length_append, List.length_singleton] at fuel
      omega
    obtain ⟨s', found⟩ := items_first read
    have first := honest p List.mem_cons_self k _ _ (ends_tail (.inl rfl)) short found
    intro q mem
    rw [List.mem_singleton.mp mem]
    exact first
  | cons q ps ih =>
    obtain ⟨k, rfl⟩ := Nat.exists_eq_succ_of_ne_zero (Nat.ne_of_gt (Nat.zero_lt_of_lt fuel))
    rw [List.map_cons, tailText_cons, List.length_append, List.length_cons] at fuel
    rw [List.map_cons] at read
    obtain ⟨s', found⟩ := items_first read
    have first := honest p List.mem_cons_self k _ _ (ends_tail (.inl rfl)) (by omega) found
    have whole := first k (tailText 93 (q.1 :: ps.map Prod.fst) s) (ends_tail (.inl rfl)) (by omega)
    rw [items_cons whole] at read
    obtain ⟨⟨vs, rest'⟩, later, eq⟩ := Option.map_eq_some_iff.mp read
    obtain ⟨cons, rfl⟩ := Prod.mk.inj eq
    obtain ⟨-, rfl⟩ := List.cons.inj cons
    have others := ih (fun r mem => honest r (List.mem_cons_of_mem p mem)) (by omega) later
    intro r mem
    rcases List.mem_cons.mp mem with rfl | mem
    · exact first
    · exact others r mem

/-- What an array is read as, by what its items are. -/
theorem value_array (notEmpty : (skip s).head? ≠ some 93) :
    value (k + 1) (91 :: s) = (items k s).map fun r => (.array r.1, r.2) := by
  rw [value, skip_cons rfl]
  simp [notEmpty]

theorem arrayText_cons_append {ts : List (List UInt8)} :
    arrayText (t :: ts) ++ s = 91 :: (t ++ tailText 93 ts s) := by
  simp [arrayText, tailText]

theorem reads_array (reads : ∀ q ∈ ps, Reads q.1 q.2) :
    Reads (arrayText (ps.map Prod.fst)) (.array (ps.map Prod.snd)) := by
  intro k s ends fuel
  obtain ⟨k, rfl⟩ := Nat.exists_eq_succ_of_ne_zero (Nat.ne_of_gt (Nat.zero_lt_of_lt fuel))
  cases ps with
  | nil => rfl
  | cons p ps =>
    simp only [List.map_cons, arrayText, List.length_cons] at fuel
    have shorter : (p.1 ++ tailText 93 (ps.map Prod.fst) []).length < k := by omega
    have first := reads p List.mem_cons_self k (tailText 93 (ps.map Prod.fst) s)
      (ends_tail (.inl rfl)) (by rw [List.length_append] at shorter; omega)
    have notEmpty : (skip (p.1 ++ tailText 93 (ps.map Prod.fst) s)).head? ≠ some 93 := by
      intro empty
      rw [value_closing (.inl rfl) empty] at first
      cases first
    rw [List.map_cons, arrayText_cons_append, value_array notEmpty, items_reads reads shorter]
    rfl

theorem array_parts (honest : ∀ q ∈ ps, Honest q.1 q.2)
    (fuel : (arrayText (ps.map Prod.fst)).length < k)
    (read : value k (arrayText (ps.map Prod.fst) ++ s) = some (.array (ps.map Prod.snd), rest)) :
    ∀ q ∈ ps, Reads q.1 q.2 := by
  obtain ⟨k, rfl⟩ := Nat.exists_eq_succ_of_ne_zero (Nat.ne_of_gt (Nat.zero_lt_of_lt fuel))
  cases ps with
  | nil => simp
  | cons p ps =>
    simp only [List.map_cons, arrayText, List.length_cons] at fuel
    rw [List.map_cons, arrayText_cons_append] at read
    by_cases empty : (skip (p.1 ++ tailText 93 (ps.map Prod.fst) s)).head? = some 93
    · rw [value, skip_cons rfl] at read
      simp [empty] at read
    · rw [value_array empty] at read
      obtain ⟨⟨vs, rest'⟩, found, eq⟩ := Option.map_eq_some_iff.mp read
      obtain rfl := Value.array.inj (Prod.mk.inj eq).1
      exact items_honest honest (by omega) found

theorem honest_array (honest : ∀ q ∈ ps, Honest q.1 q.2) :
    Honest (arrayText (ps.map Prod.fst)) (.array (ps.map Prod.snd)) :=
  fun _ _ _ _ fuel read => reads_array (array_parts honest fuel read)

/-- An array stands for what it should where its items do. -/
theorem reads_array_iff (honest : ∀ q ∈ ps, Honest q.1 q.2) :
    Reads (arrayText (ps.map Prod.fst)) (.array (ps.map Prod.snd)) ↔ ∀ q ∈ ps, Reads q.1 q.2 :=
  ⟨fun reads => array_parts honest (Nat.lt_succ_self _) (reads _ [] Ends.nil (Nat.lt_succ_self _)),
    reads_array⟩

end Arrays

/-! ### Objects -/

section Members

variable {name : List UInt8} {o ms : List (List UInt8 × Value)}

theorem setMember_perm (fresh : name ∉ o.map Prod.fst) :
    (setMember name v o).Perm ((name, v) :: o) := by
  induction o with
  | nil => exact .refl _
  | cons m o ih =>
    rw [List.map_cons, List.mem_cons, not_or] at fresh
    rw [setMember, if_neg fresh.1]
    split_ifs
    · exact .refl _
    · exact ((ih fresh.2).cons m).trans (.swap ..)

theorem foldl_setMember_perm (nodup : ((ms ++ o).map Prod.fst).Nodup) :
    (ms.foldl (fun o m => setMember m.1 m.2 o) o).Perm (ms ++ o) := by
  induction ms generalizing o with
  | nil => exact .refl _
  | cons m ms ih =>
    rw [List.cons_append, List.map_cons, List.nodup_cons] at nodup
    have fresh : m.1 ∉ o.map Prod.fst := fun mem =>
      nodup.1 (by rw [List.map_append]; exact List.mem_append_right _ mem)
    have moved : (ms ++ setMember m.1 m.2 o).Perm (m :: (ms ++ o)) :=
      ((setMember_perm fresh).append_left ms).trans List.perm_middle
    have distinct : ((ms ++ setMember m.1 m.2 o).map Prod.fst).Nodup := by
      rw [(moved.map Prod.fst).nodup_iff, List.map_cons, List.nodup_cons]
      exact nodup
    exact (ih distinct).trans moved

/-- The members of an object, where no name stands twice. -/
theorem setMembers_perm (nodup : (ms.map Prod.fst).Nodup) : (setMembers ms).Perm ms := by
  have perm : (setMembers ms).Perm (ms ++ []) := foldl_setMember_perm (by rwa [List.append_nil])
  rwa [List.append_nil] at perm

end Members

section Objects

/-- A member of an object: its name, its text and the value that it should have. -/
structure Entry where
  name : List UInt8
  text : List UInt8
  value : Value

def Legal (x : List UInt8) : Prop := Clean x ∧ utf8 x = true

namespace Entry

def member (e : Entry) : List UInt8 × Value := (e.name, e.value)

def written (e : Entry) : List UInt8 := quoted e.name ++ 58 :: e.text

end Entry

/-- The members in braces, with a comma in front of the first or not. -/
def objectText (lead : Bool) : List Entry → List UInt8
  | [] => [123, 125]
  | e :: es => 123 :: ((if lead then [44] else []) ++ (e.written ++ tailText 125 (es.map Entry.written) []))

variable {e : Entry} {es : List Entry} {ms : List (List UInt8 × Value)}

theorem members_eq (legal : Legal e.name) : members (k + 1) (e.written ++ s) =
    match value k (e.text ++ s) with
    | none => none
    | some (v, s) =>
      match skip s with
      | [] => none
      | c :: s =>
        if c = 44 then (members k s).map fun r => ((e.name, v) :: r.1, r.2)
        else if c = 125 then some ([(e.name, v)], s)
        else none := by
  have start : e.written ++ s = 34 :: (e.name ++ 34 :: 58 :: (e.text ++ s)) := by
    simp [Entry.written, quoted]
  rewrite [start, members, skip_cons rfl, List.head?_cons, if_pos rfl, List.tail_cons,
    string_clean legal.1 legal.2]
  rfl

theorem members_last (legal : Legal e.name)
    (found : value k (e.text ++ tailText 125 [] s) = some (v, tailText 125 [] s)) :
    members (k + 1) (e.written ++ tailText 125 [] s) = some ([(e.name, v)], s) := by
  rw [members_eq legal, found]
  rfl

theorem members_cons {ts : List (List UInt8)} (legal : Legal e.name)
    (found : value k (e.text ++ tailText 125 (x :: ts) s) = some (v, tailText 125 (x :: ts) s)) :
    members (k + 1) (e.written ++ tailText 125 (x :: ts) s) =
      (members k (x ++ tailText 125 ts s)).map fun r => ((e.name, v) :: r.1, r.2) := by
  rw [members_eq legal, found]
  simp only [tailText_cons, skip_cons (show isSpace 44 = false from rfl), if_true]

theorem written_length : e.written.length = e.name.length + e.text.length + 3 := by
  simp only [Entry.written, quoted, List.length_append, List.length_cons, List.length_nil]
  omega

theorem members_reads (legal : ∀ f ∈ e :: es, Legal f.name) (reads : ∀ f ∈ e :: es, Reads f.text f.value)
    (fuel : (e.written ++ tailText 125 (es.map Entry.written) []).length < k) :
    members k (e.written ++ tailText 125 (es.map Entry.written) s) =
      some ((e :: es).map Entry.member, s) := by
  induction es generalizing e k with
  | nil =>
    obtain ⟨k, rfl⟩ := Nat.exists_eq_succ_of_ne_zero (Nat.ne_of_gt (Nat.zero_lt_of_lt fuel))
    rw [List.length_append, written_length] at fuel
    exact members_last (legal e List.mem_cons_self)
      (reads e List.mem_cons_self k _ (ends_tail (.inr rfl)) (by omega))
  | cons f es ih =>
    obtain ⟨k, rfl⟩ := Nat.exists_eq_succ_of_ne_zero (Nat.ne_of_gt (Nat.zero_lt_of_lt fuel))
    rw [List.map_cons, tailText_cons, List.length_append, List.length_cons, written_length] at fuel
    have first := reads e List.mem_cons_self k (tailText 125 (f.written :: es.map Entry.written) s)
      (ends_tail (.inr rfl)) (by omega)
    have later := ih (fun g mem => legal g (List.mem_cons_of_mem e mem))
      (fun g mem => reads g (List.mem_cons_of_mem e mem))
      (by omega : (f.written ++ tailText 125 (es.map Entry.written) []).length < k)
    rw [List.map_cons, members_cons (legal e List.mem_cons_self) first, later]
    rfl

theorem members_first (legal : Legal e.name) (read : members (k + 1) (e.written ++ s) = some (ms, rest)) :
    ∃ v s', value k (e.text ++ s) = some (v, s') ∧ (e.name, v) ∈ ms := by
  rw [members_eq legal] at read
  split at read
  · cases read
  · rename_i v s' found
    refine ⟨v, s', found, ?_⟩
    split at read
    · cases read
    · split_ifs at read
      · obtain ⟨r, -, eq⟩ := Option.map_eq_some_iff.mp read
        rw [← (Prod.mk.inj eq).1]
        exact List.mem_cons_self
      · rw [← (Prod.mk.inj (Option.some.inj read)).1]
        exact List.mem_cons_self

/-- The value of a name, where no name stands twice. -/
theorem member_value {all : List Entry} (nodup : (all.map Entry.name).Nodup) (mem : e ∈ all)
    (right : (e.name, v) ∈ all.map Entry.member) : v = e.value := by
  obtain ⟨f, hf, eq⟩ := List.mem_map.mp right
  obtain ⟨name, rfl⟩ := Prod.mk.inj eq
  rw [List.inj_on_of_nodup_map nodup hf mem name]

theorem members_honest {all : List Entry} (legal : ∀ f ∈ e :: es, Legal f.name)
    (honest : ∀ f ∈ e :: es, Honest f.text f.value)
    (fuel : (e.written ++ tailText 125 (es.map Entry.written) []).length < k)
    (nodup : (all.map Entry.name).Nodup) (part : ∀ f ∈ e :: es, f ∈ all)
    (read : members k (e.written ++ tailText 125 (es.map Entry.written) s) = some (ms, rest))
    (right : ∀ m ∈ ms, m ∈ all.map Entry.member) :
    ∀ f ∈ e :: es, Reads f.text f.value := by
  induction es generalizing e k ms with
  | nil =>
    obtain ⟨k, rfl⟩ := Nat.exists_eq_succ_of_ne_zero (Nat.ne_of_gt (Nat.zero_lt_of_lt fuel))
    rw [List.length_append, written_length] at fuel
    obtain ⟨v, s', found, mem⟩ := members_first (legal e List.mem_cons_self) read
    rw [member_value nodup (part e List.mem_cons_self) (right _ mem)] at found
    have first := honest e List.mem_cons_self k _ _ (ends_tail (.inr rfl)) (by omega) found
    intro f hf
    rw [List.mem_singleton.mp hf]
    exact first
  | cons f es ih =>
    obtain ⟨k, rfl⟩ := Nat.exists_eq_succ_of_ne_zero (Nat.ne_of_gt (Nat.zero_lt_of_lt fuel))
    rw [List.map_cons, tailText_cons, List.length_append, List.length_cons, written_length] at fuel
    rw [List.map_cons] at read
    obtain ⟨v, s', found, mem⟩ := members_first (legal e List.mem_cons_self) read
    rw [member_value nodup (part e List.mem_cons_self) (right _ mem)] at found
    have first := honest e List.mem_cons_self k _ _ (ends_tail (.inr rfl)) (by omega) found
    have whole := first k (tailText 125 (f.written :: es.map Entry.written) s) (ends_tail (.inr rfl))
      (by omega)
    rw [members_cons (legal e List.mem_cons_self) whole] at read
    obtain ⟨⟨ms', rest'⟩, later, eq⟩ := Option.map_eq_some_iff.mp read
    obtain ⟨rfl, rfl⟩ := Prod.mk.inj eq
    have others := ih (fun g hg => legal g (List.mem_cons_of_mem e hg))
      (fun g hg => honest g (List.mem_cons_of_mem e hg)) (by omega)
      (fun g hg => part g (List.mem_cons_of_mem e hg)) later
      (fun m hm => right m (List.mem_cons_of_mem _ hm))
    intro g hg
    rcases List.mem_cons.mp hg with rfl | hg
    · exact first
    · exact others g hg

theorem value_object (notEmpty : (skip s).head? ≠ some 125) :
    value (k + 1) (123 :: s) =
      ((members k s).filter fun r => decide (r.1.map Prod.fst).Nodup).map fun r =>
        (.object (setMembers r.1), r.2) := by
  rw [value, skip_cons rfl]
  simp [notEmpty]

theorem objectText_append : objectText false (e :: es) ++ s =
    123 :: (e.written ++ tailText 125 (es.map Entry.written) s) := by
  simp [objectText, tailText]

/-- A comma in front of the first member is never read. -/
theorem value_lead : value k (objectText true (e :: es) ++ s) = none := by
  cases k with
  | zero => rfl
  | succ k =>
    have start : objectText true (e :: es) ++ s =
        123 :: 44 :: (e.written ++ tailText 125 (es.map Entry.written) s) := by
      simp [objectText, tailText]
    rw [start, value_object (by simp [skip, isSpace])]
    cases k with
    | zero => rfl
    | succ k =>
      rw [members, skip_cons rfl]
      rfl

variable {all : List Entry}

theorem written_first (e : Entry) (s : List UInt8) : (skip (e.written ++ s)).head? = some 34 := by
  simp [Entry.written, quoted, skip, isSpace]

theorem map_member_fst (es : List Entry) : (es.map Entry.member).map Prod.fst = es.map Entry.name := by
  rw [List.map_map]
  rfl

theorem reads_object (legal : ∀ e ∈ es, Legal e.name) (nodup : (es.map Entry.name).Nodup)
    (reads : ∀ e ∈ es, Reads e.text e.value) :
    Reads (objectText false es) (.object (setMembers (es.map Entry.member))) := by
  intro k s ends fuel
  obtain ⟨k, rfl⟩ := Nat.exists_eq_succ_of_ne_zero (Nat.ne_of_gt (Nat.zero_lt_of_lt fuel))
  cases es with
  | nil => rfl
  | cons e es =>
    have shorter : (e.written ++ tailText 125 (es.map Entry.written) []).length < k := by
      simp only [objectText, Bool.false_eq_true, if_false, List.nil_append, List.length_cons] at fuel
      omega
    have notEmpty : (skip (e.written ++ tailText 125 (es.map Entry.written) s)).head? ≠ some 125 := by
      rw [written_first]
      decide
    rw [objectText_append, value_object notEmpty, members_reads legal reads shorter]
    simp only [Option.filter_some, map_member_fst, nodup, decide_true, if_true]
    rfl

theorem object_parts {lead : Bool} (legal : ∀ e ∈ es, Legal e.name) (nodup : (es.map Entry.name).Nodup)
    (honest : ∀ e ∈ es, Honest e.text e.value) (fuel : (objectText lead es).length < k)
    (read : value k (objectText lead es ++ s) =
      some (.object (setMembers (es.map Entry.member)), rest)) :
    (es = [] ∨ lead = false) ∧ ∀ e ∈ es, Reads e.text e.value := by
  obtain ⟨k, rfl⟩ := Nat.exists_eq_succ_of_ne_zero (Nat.ne_of_gt (Nat.zero_lt_of_lt fuel))
  cases es with
  | nil => simp
  | cons e es =>
    cases lead with
    | true =>
      rw [value_lead] at read
      cases read
    | false =>
      have shorter : (e.written ++ tailText 125 (es.map Entry.written) []).length < k := by
        simp only [objectText, Bool.false_eq_true, if_false, List.nil_append, List.length_cons] at fuel
        omega
      have notEmpty : (skip (e.written ++ tailText 125 (es.map Entry.written) s)).head? ≠ some 125 := by
        rw [written_first]
        decide
      rw [objectText_append, value_object notEmpty] at read
      obtain ⟨⟨ms, rest'⟩, found, eq⟩ := Option.map_eq_some_iff.mp read
      obtain ⟨found, distinct⟩ := Option.filter_eq_some_iff.mp found
      have same := Value.object.inj (Prod.mk.inj eq).1
      have right : ∀ m ∈ ms, m ∈ (e :: es).map Entry.member := by
        intro m mem
        have inside : m ∈ setMembers ms := (setMembers_perm (of_decide_eq_true distinct)).mem_iff.mpr mem
        rw [same] at inside
        exact (setMembers_perm (by rwa [map_member_fst])).mem_iff.mp inside
      exact ⟨.inr rfl, members_honest legal honest shorter nodup (fun f hf => hf) found right⟩

theorem honest_object {lead : Bool} (legal : ∀ e ∈ es, Legal e.name)
    (nodup : (es.map Entry.name).Nodup) (honest : ∀ e ∈ es, Honest e.text e.value) :
    Honest (objectText lead es) (.object (setMembers (es.map Entry.member))) := by
  intro k s rest ends fuel read
  obtain ⟨rfl | rfl, reads⟩ := object_parts legal nodup honest fuel read
  · exact reads_object legal nodup reads
  · exact reads_object legal nodup reads

/-- An object stands for what it should where its members do, and no comma is in front of them. -/
theorem reads_object_iff {lead : Bool} (legal : ∀ e ∈ es, Legal e.name)
    (nodup : (es.map Entry.name).Nodup) (honest : ∀ e ∈ es, Honest e.text e.value) :
    Reads (objectText lead es) (.object (setMembers (es.map Entry.member))) ↔
      (es = [] ∨ lead = false) ∧ ∀ e ∈ es, Reads e.text e.value := by
  constructor
  · intro reads
    exact object_parts legal nodup honest (Nat.lt_succ_self _)
      (reads _ [] Ends.nil (Nat.lt_succ_self _))
  · rintro ⟨rfl | rfl, reads⟩
    · exact reads_object legal nodup reads
    · exact reads_object legal nodup reads

end Objects

end Conet.Lib.Json
