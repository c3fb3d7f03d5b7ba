/- Module: Conet/Lib/Json
   source: none (library)
   digest: JSON values and the reader of their texts; the texts that are read as what they should
   stand for. -/

import Mathlib.Data.Rat.Cast.Order
import Mathlib.Tactic.Ring

set_option autoImplicit false
set_option relaxedAutoImplicit false

namespace Conet.Lib.Json

/-- JSON values. The members of an object stand in the order of their names, one for each name. -/
inductive Value
  | null
  | bool (b : Bool)
  | number (q : ℚ)
  | string (s : List UInt8)
  | array (xs : List Value)
  | object (ms : List (List UInt8 × Value))

@[grind =] def setMember (name : List UInt8) (v : Value) :
    List (List UInt8 × Value) → List (List UInt8 × Value)
  | [] => [(name, v)]
  | m :: ms =>
    if name = m.1 then (name, v) :: ms
    else if name < m.1 then (name, v) :: m :: ms
    else m :: setMember name v ms

/-- The members, set one after another. -/
def setMembers (ms : List (List UInt8 × Value)) : List (List UInt8 × Value) :=
  ms.foldl (fun o m => setMember m.1 m.2 o) []

/-! ### Strings -/

section Strings

/-- Well-formed UTF-8, where `k` bytes of a character are to come, the first between `lo` and `hi`. -/
@[grind =] def utf8From : ℕ → UInt8 → UInt8 → List UInt8 → Bool
  | 0, _, _, [] => true
  | _ + 1, _, _, [] => false
  | 0, _, _, c :: s =>
    if c < 0x80 then utf8From 0 0x80 0xBF s
    else if c < 0xC2 then false
    else if c < 0xE0 then utf8From 1 0x80 0xBF s
    else if c = 0xE0 then utf8From 2 0xA0 0xBF s
    else if c = 0xED then utf8From 2 0x80 0x9F s
    else if c < 0xF0 then utf8From 2 0x80 0xBF s
    else if c = 0xF0 then utf8From 3 0x90 0xBF s
    else if c < 0xF4 then utf8From 3 0x80 0xBF s
    else if c = 0xF4 then utf8From 3 0x80 0x8F s
    else false
  | k + 1, lo, hi, c :: s => decide (lo ≤ c) && decide (c ≤ hi) && utf8From k 0x80 0xBF s

def utf8 (s : List UInt8) : Bool := utf8From 0 0x80 0xBF s

def hexDigit (c : UInt8) : Option ℕ :=
  if 48 ≤ c ∧ c ≤ 57 then some (c.toNat - 48)
  else if 97 ≤ c ∧ c ≤ 102 then some (c.toNat - 87)
  else if 65 ≤ c ∧ c ≤ 70 then some (c.toNat - 55)
  else none

/-- The character that a letter behind a backslash stands for. -/
def escaped (c : UInt8) : Option UInt8 :=
  if c = 34 ∨ c = 92 ∨ c = 47 then some c
  else if c = 98 then some 8
  else if c = 102 then some 12
  else if c = 110 then some 10
  else if c = 114 then some 13
  else if c = 116 then some 9
  else none

/-- What has been read of a character: a backslash, some digits of a code unit, or a high surrogate
that another escape has to follow. -/
inductive Lex
  | plain
  | escape
  | unit (high : Option ℕ) (count n : ℕ)
  | surrogate (n : ℕ)
  | surrogateEscape (n : ℕ)
  deriving DecidableEq

/-- A code unit, after a high surrogate or not. -/
def Lex.codeUnit : Option ℕ → ℕ → Option (Lex × List UInt8)
  | none, n =>
    if 0xD800 ≤ n ∧ n < 0xDC00 then some (.surrogate n, [])
    else if 0xDC00 ≤ n ∧ n < 0xE000 then none
    else some (.plain, String.utf8EncodeChar (Char.ofNat n))
  | some h, n =>
    if 0xDC00 ≤ n ∧ n < 0xE000 then
      some (.plain,
        String.utf8EncodeChar (Char.ofNat (0x10000 + (h - 0xD800) * 0x400 + (n - 0xDC00))))
    else none

/-- One byte inside a string, and what is known of the content after it. -/
def Lex.step : Lex → UInt8 → Option (Lex × List UInt8)
  | .plain, c => if c = 92 then some (.escape, []) else if c < 32 then none else some (.plain, [c])
  | .escape, c =>
    if c = 117 then some (.unit none 0 0, []) else (escaped c).map fun e => (.plain, [e])
  | .unit high count n, c =>
    match hexDigit c with
    | none => none
    | some d => if count < 3 then some (.unit high (count + 1) (n * 16 + d), [])
      else Lex.codeUnit high (n * 16 + d)
  | .surrogate n, c => if c = 92 then some (.surrogateEscape n, []) else none
  | .surrogateEscape n, c => if c = 117 then some (.unit (some n) 0 0, []) else none

/-- The content of a string up to its closing quote, and what follows. -/
@[grind =] def scan : Lex → List UInt8 → Option (List UInt8 × List UInt8)
  | _, [] => none
  | st, c :: s =>
    if st = .plain ∧ c = 34 then some ([], s)
    else
      match st.step c with
      | none => none
      | some (st, out) => (scan st s).map fun r => (out ++ r.1, r.2)

/-- A string behind its opening quote. An escape is a whole character, so the text is UTF-8 where the
content is. -/
def string (s : List UInt8) : Option (List UInt8 × List UInt8) :=
  (scan .plain s).filter fun r => utf8 r.1

end Strings

/-! ### Numbers -/

section Numbers

def isDigit (c : UInt8) : Bool := decide (48 ≤ c) && decide (c ≤ 57)

def digitsValue (ds : List UInt8) : ℕ := ds.foldl (fun n c => n * 10 + (c.toNat - 48)) 0

/-- `.` and digits, or nothing. -/
def fraction : List UInt8 → Option (List UInt8 × List UInt8)
  | [] => some ([], [])
  | c :: s =>
    if c = 46 then
      if s.takeWhile isDigit = [] then none else some (s.takeWhile isDigit, s.dropWhile isDigit)
    else some ([], c :: s)

/-- `e`, a sign or not, and digits; or nothing. -/
def exponent : List UInt8 → Option (ℤ × List UInt8)
  | [] => some (0, [])
  | c :: s =>
    if c = 101 ∨ c = 69 then
      let neg := s.head? = some 45
      let s := if s.head? = some 45 ∨ s.head? = some 43 then s.tail else s
      let ds := s.takeWhile isDigit
      if ds = [] then none
      else some (if neg then -(digitsValue ds : ℤ) else digitsValue ds, s.dropWhile isDigit)
    else some (0, c :: s)

/-- A number without its sign: no zero in front of other digits. -/
def unsigned (s : List UInt8) : Option (ℚ × List UInt8) :=
  let ds := s.takeWhile isDigit
  if ds = [] ∨ (ds.head? = some 48 ∧ ds.length ≠ 1) then none
  else do
    let (fs, s) ← fraction (s.dropWhile isDigit)
    let (e, s) ← exponent s
    some (digitsValue (ds ++ fs) * 10 ^ (e - fs.length), s)

def number (s : List UInt8) : Option (ℚ × List UInt8) :=
  if s.head? = some 45 then (unsigned s.tail).map fun r => (-r.1, r.2) else unsigned s

end Numbers

/-! ### Texts -/

section Texts

def isSpace (c : UInt8) : Bool := c == 32 || c == 9 || c == 10 || c == 13

def skip (s : List UInt8) : List UInt8 := s.dropWhile isSpace

def keyword (text : List UInt8) (v : Value) (s : List UInt8) : Option (Value × List UInt8) :=
  if text.isPrefixOf s then some (v, s.drop text.length) else none

mutual

/-- A value, and what follows it; with the depth of the calls bounded. -/
@[grind =] def value : ℕ → List UInt8 → Option (Value × List UInt8)
  | 0, _ => none
  | k + 1, s =>
    match skip s with
    | [] => none
    | c :: s =>
      if c = 34 then (string s).map fun r => (.string r.1, r.2)
      else if c = 91 then
        if (skip s).head? = some 93 then some (.array [], (skip s).tail)
        else (items k s).map fun r => (.array r.1, r.2)
      else if c = 123 then
        if (skip s).head? = some 125 then some (.object [], (skip s).tail)
        else
          -- where a name stands twice, the text has no value that readers agree on
          ((members k s).filter fun r => decide (r.1.map Prod.fst).Nodup).map fun r =>
            (.object (setMembers r.1), r.2)
      else if c = 110 then keyword [110, 117, 108, 108] .null (c :: s)
      else if c = 116 then keyword [116, 114, 117, 101] (.bool true) (c :: s)
      else if c = 102 then keyword [102, 97, 108, 115, 101] (.bool false) (c :: s)
      else (number (c :: s)).map fun r => (.number r.1, r.2)

@[grind =] def items : ℕ → List UInt8 → Option (List Value × List UInt8)
  | 0, _ => none
  | k + 1, s =>
    match value k s with
    | none => none
    | some (v, s) =>
      match skip s with
      | [] => none
      | c :: s =>
        if c = 44 then (items k s).map fun r => (v :: r.1, r.2)
        else if c = 93 then some ([v], s)
        else none

@[grind =] def members : ℕ → List UInt8 → Option (List (List UInt8 × Value) × List UInt8)
  | 0, _ => none
  | k + 1, s =>
    if (skip s).head? = some 34 then
      match string (skip s).tail with
      | none => none
      | some (name, s) =>
        if (skip s).head? = some 58 then
          match value k (skip s).tail with
          | none => none
          | some (v, s) =>
            match skip s with
            | [] => none
            | c :: s =>
              if c = 44 then (members k s).map fun r => ((name, v) :: r.1, r.2)
              else if c = 125 then some ([(name, v)], s)
              else none
        else none
    else none

end

def read (s : List UInt8) : Option Value :=
  match value (s.length + 1) s with
  | some (v, rest) => if skip rest = [] then some v else none
  | none => none

end Texts

/-! ### Strings that are their own text -/

section Strings

variable {st st' : Lex} {c : UInt8} {s x y out pre rest : List UInt8}

/-- The bytes of a character that are read before its content is known, at most. -/
def Lex.pending : Lex → ℕ
  | .unit _ count _ => count
  | _ => 0

theorem codeUnit_pending {high : Option ℕ} {n : ℕ} (read : Lex.codeUnit high n = some (st', out)) :
    out.length ≤ 4 ∧ st'.pending = 0 := by
  unfold Lex.codeUnit at read
  split at read
  · split_ifs at read
    · obtain ⟨rfl, rfl⟩ := Prod.mk.inj (Option.some.inj read)
      exact ⟨Nat.zero_le _, rfl⟩
    · obtain ⟨rfl, rfl⟩ := Prod.mk.inj (Option.some.inj read)
      rw [String.length_utf8EncodeChar]
      exact ⟨Char.utf8Size_le_four _, rfl⟩
  · split_ifs at read
    obtain ⟨rfl, rfl⟩ := Prod.mk.inj (Option.some.inj read)
    rw [String.length_utf8EncodeChar]
    exact ⟨Char.utf8Size_le_four _, rfl⟩

theorem step_pending (step : st.step c = some (st', out)) :
    out.length + st'.pending ≤ st.pending + 1 := by
  cases st with
  | plain =>
    simp only [Lex.step] at step
    split_ifs at step <;> obtain ⟨rfl, rfl⟩ := Prod.mk.inj (Option.some.inj step) <;>
      simp [Lex.pending]
  | escape =>
    simp only [Lex.step] at step
    split_ifs at step
    · obtain ⟨rfl, rfl⟩ := Prod.mk.inj (Option.some.inj step)
      simp [Lex.pending]
    · obtain ⟨e, -, eq⟩ := Option.map_eq_some_iff.mp step
      obtain ⟨rfl, rfl⟩ := Prod.mk.inj eq
      simp [Lex.pending]
  | unit high count n =>
    simp only [Lex.step] at step
    split at step
    · cases step
    · split_ifs at step with more
      · obtain ⟨rfl, rfl⟩ := Prod.mk.inj (Option.some.inj step)
        simp [Lex.pending]
      · obtain ⟨short, none⟩ := codeUnit_pending step
        rw [none]
        simp only [Lex.pending]
        omega
  | surrogate n =>
    simp only [Lex.step] at step
    split_ifs at step
    obtain ⟨rfl, rfl⟩ := Prod.mk.inj (Option.some.inj step)
    simp [Lex.pending]
  | surrogateEscape n =>
    simp only [Lex.step] at step
    split_ifs at step
    obtain ⟨rfl, rfl⟩ := Prod.mk.inj (Option.some.inj step)
    simp [Lex.pending]

/-- The bytes that can follow a value or the content of a string, which stand for nothing but
themselves there. -/
def IsStop (c : UInt8) : Prop := c = 34 ∨ c = 44 ∨ c = 93 ∨ c = 125

theorem step_stop (stop : IsStop c) (step : st.step c = some (st', out)) : out = [c] := by
  rcases stop with rfl | rfl | rfl | rfl <;> cases st <;>
    simp [Lex.step, hexDigit, escaped] at step <;> simp [step]

/-- A stop byte ends a string, or it stands in the content no later than in the text. -/
theorem scan_stop (stop : IsStop c) (read : scan st (x ++ c :: s) = some (y, rest)) :
    y.length ≤ x.length + st.pending ∨ c ∈ y.take (x.length + st.pending + 1) := by
  induction x generalizing st y with
  | nil =>
    rw [List.nil_append, scan] at read
    split_ifs at read with closing
    · obtain ⟨rfl, -⟩ := Prod.mk.inj (Option.some.inj read)
      exact .inl (Nat.zero_le _)
    · split at read
      · cases read
      · rename_i st' out step
        obtain ⟨r, -, eq⟩ := Option.map_eq_some_iff.mp read
        obtain ⟨rfl, -⟩ := Prod.mk.inj eq
        rw [step_stop stop step]
        simp
  | cons d x ih =>
    rw [List.cons_append, scan] at read
    split_ifs at read with closing
    · obtain ⟨rfl, -⟩ := Prod.mk.inj (Option.some.inj read)
      exact .inl (Nat.zero_le _)
    · split at read
      · cases read
      · rename_i st' out step
        obtain ⟨⟨y', rest'⟩, later, eq⟩ := Option.map_eq_some_iff.mp read
        obtain ⟨rfl, rfl⟩ := Prod.mk.inj eq
        have bound := step_pending step
        rcases ih later with short | mem
        · left
          show (out ++ y').length ≤ _
          rw [List.length_append, List.length_cons]
          omega
        · right
          rw [List.take_append]
          apply List.mem_append_right
          refine List.take_subset_take_left _ ?_ mem
          rw [List.length_cons]
          omega

theorem scan_append (read : scan st x = some (y, rest)) (s : List UInt8) :
    scan st (x ++ s) = some (y, rest ++ s) := by
  induction x generalizing st y with
  | nil => cases read
  | cons d x ih =>
    rw [scan] at read
    rw [List.cons_append, scan]
    split_ifs at read ⊢ with closing
    · obtain ⟨rfl, rfl⟩ := Prod.mk.inj (Option.some.inj read)
      rfl
    · split at read
      · cases read
      · rename_i st' out step
        obtain ⟨⟨y', rest'⟩, later, eq⟩ := Option.map_eq_some_iff.mp read
        obtain ⟨rfl, rfl⟩ := Prod.mk.inj eq
        simp only [ih later]
        rfl

/-- The content of a string does not begin with what stands before the text of it. -/
theorem scan_ahead (stop : IsStop c) (fresh : c ∉ pre) (ahead : st.pending < pre.length) :
    scan st (x ++ c :: s) ≠ some (pre ++ x, rest) := by
  intro read
  have inside : c ∈ pre ++ x := by
    rcases scan_stop stop read with short | mem
    · rw [List.length_append] at short
      omega
    · exact List.mem_of_mem_take mem
  -- the first place of the stop byte in the text is behind its first place in the content
  have later := (List.mem_append.mp inside).resolve_left fresh
  obtain ⟨a, b, rfl, first⟩ := List.eq_append_cons_of_mem later
  rw [List.append_assoc, List.cons_append] at read
  rcases scan_stop stop read with short | mem
  · simp only [List.length_append, List.length_cons] at short
    omega
  · rw [← List.append_assoc, List.take_append_of_le_length (by rw [List.length_append]; omega)] at mem
    rcases List.mem_append.mp (List.mem_of_mem_take mem) with front | back
    · exact fresh front
    · exact first back

/-- Text that is its own content between quotes. -/
def Clean (s : List UInt8) : Prop := ∀ c ∈ s, 32 ≤ c ∧ c ≠ 34 ∧ c ≠ 92

theorem scan_clean (clean : Clean x) : scan .plain (x ++ s) =
    (scan .plain s).map fun r => (x ++ r.1, r.2) := by
  induction x with
  | nil => simp
  | cons c x ih =>
    obtain ⟨printed, quote, backslash⟩ := clean c List.mem_cons_self
    have control : ¬ c < 32 := UInt8.not_lt.mpr printed
    have rest := ih fun d mem => clean d (List.mem_cons_of_mem c mem)
    rw [List.cons_append, scan, if_neg fun closing => quote closing.2]
    simp only [Lex.step, backslash, control, if_false, rest, Option.map_map]
    rfl

/-- Between quotes, a text that stands for itself is clean. -/
theorem scan_self (read : scan .plain (x ++ 34 :: s) = some (x, rest)) : Clean x := by
  induction x with
  | nil => exact fun c mem => absurd mem List.not_mem_nil
  | cons c x ih =>
    rw [List.cons_append, scan] at read
    split_ifs at read with closing
    · cases read
    · simp only [Lex.step] at read
      split_ifs at read with backslash control
      · -- the content is behind the text from here on
        obtain ⟨⟨y, rest'⟩, later, eq⟩ := Option.map_eq_some_iff.mp read
        obtain ⟨rfl, -⟩ := Prod.mk.inj eq
        have ahead : scan .escape (x ++ 34 :: s) ≠ some ([c] ++ x, rest') :=
          scan_ahead (.inl rfl) (by simp [backslash]) Nat.zero_lt_one
        exact absurd later ahead
      · obtain ⟨⟨y, rest'⟩, later, eq⟩ := Option.map_eq_some_iff.mp read
        obtain ⟨cons, rfl⟩ := Prod.mk.inj eq
        obtain ⟨-, rfl⟩ := List.cons.inj cons
        intro d mem
        rcases List.mem_cons.mp mem with rfl | mem
        · exact ⟨UInt8.not_lt.mp control, fun quote => closing ⟨rfl, quote⟩, backslash⟩
        · exact ih later d mem

theorem utf8_ascii (ascii : ∀ c ∈ s, c < 128) : utf8 s = true := by
  induction s with
  | nil => rfl
  | cons c s ih =>
    have here := ascii c List.mem_cons_self
    have rest := ih fun d mem => ascii d (List.mem_cons_of_mem c mem)
    rw [utf8, utf8From, if_pos here]
    exact rest

theorem utf8From_ascii {lo hi : UInt8} (ascii : ∀ c ∈ x, c < 128) (ne : x ≠ []) :
    utf8From 0 lo hi (x ++ s) = utf8From 0 0x80 0xBF s := by
  induction x generalizing lo hi with
  | nil => exact absurd rfl ne
  | cons c x ih =>
    rw [List.cons_append, utf8From, if_pos (ascii c List.mem_cons_self)]
    by_cases last : x = []
    · rw [last, List.nil_append]
    · exact ih (fun d mem => ascii d (List.mem_cons_of_mem c mem)) last

/-- A text stays UTF-8, or not, where some of its ASCII characters are written in others. -/
theorem utf8From_flatMap {k : ℕ} {lo hi : UInt8} {f : UInt8 → List UInt8} (above : 128 ≤ lo)
    (ascii : ∀ c, f c = [c] ∨ c < 128 ∧ f c ≠ [] ∧ ∀ d ∈ f c, d < 128) :
    utf8From k lo hi (s.flatMap f) = utf8From k lo hi s := by
  induction s generalizing k lo hi with
  | nil => rfl
  | cons c s ih =>
    rw [List.flatMap_cons]
    obtain same | ⟨small, ne, others⟩ := ascii c
    · have next80 : ∀ k hi, utf8From k 0x80 hi (s.flatMap f) = utf8From k 0x80 hi s :=
        fun k hi => ih (by decide)
      have next90 : ∀ k hi, utf8From k 0x90 hi (s.flatMap f) = utf8From k 0x90 hi s :=
        fun k hi => ih (by decide)
      have nextA0 : ∀ k hi, utf8From k 0xA0 hi (s.flatMap f) = utf8From k 0xA0 hi s :=
        fun k hi => ih (by decide)
      rw [same, List.singleton_append]
      cases k with
      | zero => simp only [utf8From, next80, next90, nextA0]
      | succ k => simp only [utf8From, next80]
    · cases k with
      | zero => rw [utf8From_ascii others ne, ih (by decide), utf8From, if_pos small]
      | succ k =>
        -- a byte that is not ASCII has to follow
        obtain ⟨d, x, eq⟩ := List.exists_cons_of_ne_nil ne
        have low : ∀ e : UInt8, e < 128 → decide (lo ≤ e) = false := fun e less =>
          decide_eq_false fun le => absurd (UInt8.le_trans above le) (UInt8.not_le.mpr less)
        rw [eq, List.cons_append, utf8From, low d (others d (eq ▸ List.mem_cons_self)), utf8From,
          low c small]
        rfl

end Strings

end Conet.Lib.Json
