/- Module: Conet/Lib/Ragel
   source: none (library)
   digest: Regular expressions with embedded actions, executed as the deterministic machine that a
   state machine compiler makes of them. -/

import Mathlib.Data.List.Sort

set_option autoImplicit false
set_option relaxedAutoImplicit false

namespace Conet.Lib.Ragel

/-- A class of bytes, as a list of ranges. -/
abbrev ByteClass := List (UInt8 × UInt8)

def ByteClass.has (k : ByteClass) (c : UInt8) : Bool := k.any fun r => decide (r.1 ≤ c) && decide (c ≤ r.2)

/-- A regular expression with embedded actions. The number of an embedding is its time stamp: of the
actions of one transition the one with the lowest stamp is executed first. -/
inductive Machine (A : Type)
  /-- no string -/
  | void
  /-- the empty string -/
  | eps
  | sym (k : ByteClass)
  | cat (a b : Machine A)
  | alt (a b : Machine A)
  | star (a : Machine A)
  /-- `a >x`: on the first byte of `a` -/
  | entering (t : ℕ) (x : A) (a : Machine A)
  /-- `a @x`: on a byte that completes `a` -/
  | finishing (t : ℕ) (x : A) (a : Machine A)
  /-- `a %x`: on the byte that follows `a` -/
  | leaving (t : ℕ) (x : A) (a : Machine A)
  /-- `a :> b`: on a byte on which `b` can start, `a` is not continued -/
  | guarded (a b : Machine A)
  /-- `a` without the strings that have a prefix in `d`, cut off as soon as the prefix is read -/
  | without (d a : Machine A)
  deriving DecidableEq

namespace Machine

variable {A : Type}

def nullable : Machine A → Bool
  | void => false
  | eps => true
  | sym _ => false
  | cat a b => a.nullable && b.nullable
  | alt a b => a.nullable || b.nullable
  | star _ => true
  | entering _ _ a => a.nullable
  | finishing _ _ a => a.nullable
  | leaving _ _ a => a.nullable
  | guarded a b => a.nullable && b.nullable
  | without d a => a.nullable && !d.nullable

/-- The leaving actions of a machine that is left where it stands. -/
def out : Machine A → List (ℕ × A)
  | void => []
  | eps => []
  | sym _ => []
  | cat a b => a.out ++ b.out
  | alt a b => (if a.nullable then a.out else []) ++ (if b.nullable then b.out else [])
  | star _ => []
  | entering _ _ a => a.out
  | finishing _ _ a => a.out
  | leaving t x a => a.out ++ [(t, x)]
  | guarded a b => a.out ++ b.out
  | without _ a => a.out

variable [DecidableEq A]

/-- `cat` that drops what cannot be completed. -/
def seq : Machine A → Machine A → Machine A
  | void, _ => void
  | eps, b => b
  | a, b => cat a b

/-- `alt` that drops what cannot be completed and what is there twice. -/
def or (a b : Machine A) : Machine A :=
  if a = void then b else if b = void then a else if a = b then a else alt a b

/-- What remains to be read after the byte `c`. -/
def deriv (c : UInt8) : Machine A → Machine A
  | void => void
  | eps => void
  | sym k => if k.has c then eps else void
  | cat a b => or (seq (a.deriv c) b) (if a.nullable then b.deriv c else void)
  | alt a b => or (a.deriv c) (b.deriv c)
  | star a => seq (a.deriv c) (star a)
  | entering _ _ a => a.deriv c
  | finishing t x a => if a.deriv c = void then void else finishing t x (a.deriv c)
  | leaving t x a => if a.deriv c = void then void else leaving t x (a.deriv c)
  | guarded a b =>
    if a.nullable ∧ b.deriv c ≠ void then b.deriv c
    else if a.deriv c = void then void else guarded (a.deriv c) b
  | without d a =>
    if (d.deriv c).nullable ∨ a.deriv c = void then void else without (d.deriv c) (a.deriv c)

/-- The actions on the byte `c`, with their stamps; those of ways that `c` ends are left out. -/
def acts (c : UInt8) : Machine A → List (ℕ × A)
  | void => []
  | eps => []
  | sym _ => []
  | cat a b => a.acts c ++ (if a.nullable ∧ b.deriv c ≠ void then a.out ++ b.acts c else [])
  | alt a b => a.acts c ++ b.acts c
  | star a => a.acts c
  | entering t x a => if a.deriv c = void then [] else (t, x) :: a.acts c
  | finishing t x a => a.acts c ++ (if (a.deriv c).nullable then [(t, x)] else [])
  | leaving _ _ a => a.acts c
  | guarded a b =>
    if a.nullable ∧ b.deriv c ≠ void then a.out ++ b.acts c else a.acts c
  | without d a => if (d.deriv c).nullable then [] else a.acts c

/-- The actions of a transition in the order of their stamps, each of them once. -/
def ordered (xs : List (ℕ × A)) : List A :=
  ((xs.insertionSort fun a b => a.1 ≤ b.1).map Prod.snd).eraseDups

/-- The actions that are executed on the byte `c`. -/
def actions (m : Machine A) (c : UInt8) : List A := ordered (m.acts c)

/-- The stamps: for every expression first its entering action, then those inside it, then its
other actions. -/
def stamp : Machine A → ℕ → Machine A × ℕ
  | void, n => (void, n)
  | eps, n => (eps, n)
  | sym k, n => (sym k, n)
  | cat a b, n =>
    let a' := a.stamp n
    let b' := b.stamp a'.2
    (cat a'.1 b'.1, b'.2)
  | alt a b, n =>
    let a' := a.stamp n
    let b' := b.stamp a'.2
    (alt a'.1 b'.1, b'.2)
  | star a, n => ((star (a.stamp n).1), (a.stamp n).2)
  | entering _ x a, n => (entering n x (a.stamp (n + 1)).1, (a.stamp (n + 1)).2)
  | finishing _ x a, n => (finishing (a.stamp n).2 x (a.stamp n).1, (a.stamp n).2 + 1)
  | leaving _ x a, n => (leaving (a.stamp n).2 x (a.stamp n).1, (a.stamp n).2 + 1)
  | guarded a b, n =>
    let a' := a.stamp n
    let b' := b.stamp a'.2
    (guarded a'.1 b'.1, b'.2)
  | without d a, n => (without d (a.stamp n).1, (a.stamp n).2)

-- Expressions are written without stamps; `stamp` gives them when an expression is complete.
def enter (a : Machine A) (x : A) : Machine A := entering 0 x a

def finish (a : Machine A) (x : A) : Machine A := finishing 0 x a

def leave (a : Machine A) (x : A) : Machine A := leaving 0 x a

def cats : List (Machine A) → Machine A
  | [] => eps
  | [a] => a
  | a :: as => cat a (cats as)

def alts : List (Machine A) → Machine A
  | [] => void
  | [a] => a
  | a :: as => alt a (alts as)

/-- `a?`. -/
def opt (a : Machine A) : Machine A := alt a eps

/-- `a+`. -/
def plus (a : Machine A) : Machine A := cat a (star a)

def byte (c : UInt8) : Machine A := sym [(c, c)]

def lit (s : List UInt8) : Machine A := s.foldr (fun c m => seq (byte c) m) eps

/-- A literal string without regard to the case of letters. -/
def litI (s : List UInt8) : Machine A :=
  s.foldr (fun c m => seq (sym (if 97 ≤ c ∧ c ≤ 122 then [(c, c), (c - 32, c - 32)]
    else if 65 ≤ c ∧ c ≤ 90 then [(c, c), (c + 32, c + 32)] else [(c, c)])) m) eps

def anyByte : Machine A := sym [(0, 255)]

/-- `a -- k`: the strings of `a` in which no string of `k` occurs. -/
def strongDiff (a k : Machine A) : Machine A := without (cat (star anyByte) k) a

-- the equations of the recursions, made once for all proofs below
attribute [local grind =] nullable out seq or deriv acts stamp

theorem mem_ordered {x : A} {xs : List (ℕ × A)} : x ∈ ordered xs ↔ ∃ t, (t, x) ∈ xs := by
  simp [ordered]

/-! ### Actions that come first

Where every way through a machine starts with an action of `d`, and nothing before that is an
action of `u`, no action of `u` is executed before one of `d`. -/

section Opening

variable (d u : A → Bool)

/-- No action of `u` is embedded. -/
def quiet : Machine A → Bool
  | void => true
  | eps => true
  | sym _ => true
  | cat a b => a.quiet && b.quiet
  | alt a b => a.quiet && b.quiet
  | star a => a.quiet
  | entering _ x a => !u x && a.quiet
  | finishing _ x a => !u x && a.quiet
  | leaving _ x a => !u x && a.quiet
  | guarded a b => a.quiet && b.quiet
  | without _ a => a.quiet

/-- No action of `u` is executed on the first byte. -/
def startQuiet : Machine A → Bool
  | void => true
  | eps => true
  | sym _ => true
  | cat a b => a.startQuiet && (!a.nullable || (a.quiet u && b.startQuiet))
  | alt a b => a.startQuiet && b.startQuiet
  | star a => a.startQuiet
  | entering _ x a => !u x && a.startQuiet
  | finishing _ x a => !u x && a.startQuiet
  | leaving _ _ a => a.startQuiet
  | guarded a b => a.startQuiet && (!a.nullable || (a.quiet u && b.startQuiet))
  | without _ a => a.startQuiet

/-- Every way through the machine executes an action of `d`, and none of `u` up to that byte. -/
def opens : Machine A → Bool
  | void => true
  | eps => false
  | sym _ => false
  | cat a b => a.opens || (a.quiet u && b.opens)
  | alt a b => a.opens && b.opens
  | star _ => false
  | entering _ x a => d x && !u x && !a.nullable && a.startQuiet u
  | finishing _ _ _ => false
  | leaving _ _ a => a.opens
  | guarded _ _ => false
  | without _ _ => false

attribute [local grind =] quiet startQuiet opens

variable {d u} {a b m : Machine A} {c : UInt8}

omit [DecidableEq A] in
theorem quiet_seq (ha : a.quiet u) (hb : b.quiet u) : (seq a b).quiet u := by
  cases a <;> simp_all [seq, quiet]

theorem quiet_or (ha : a.quiet u) (hb : b.quiet u) : (or a b).quiet u := by
  unfold or
  split_ifs <;> simp_all [quiet]

theorem quiet_deriv (h : m.quiet u) : (m.deriv c).quiet u := by
  induction m with
  | void => rfl
  | eps => rfl
  | sym k =>
    simp only [deriv]
    split <;> rfl
  | cat a b iha ihb =>
    simp only [quiet, Bool.and_eq_true] at h
    apply quiet_or
    · exact quiet_seq (iha h.1) h.2
    · split
      · exact ihb h.2
      · rfl
  | alt a b iha ihb =>
    simp only [quiet, Bool.and_eq_true] at h
    exact quiet_or (iha h.1) (ihb h.2)
  | star a iha => exact quiet_seq (iha h) h
  | entering t x a iha =>
    simp only [quiet, Bool.and_eq_true] at h
    exact iha h.2
  | finishing t x a iha =>
    simp only [quiet, Bool.and_eq_true] at h
    simp only [deriv]
    split <;> simp_all [quiet]
  | leaving t x a iha =>
    simp only [quiet, Bool.and_eq_true] at h
    simp only [deriv]
    split <;> simp_all [quiet]
  | guarded a b iha ihb =>
    simp only [quiet, Bool.and_eq_true] at h
    simp only [deriv]
    split_ifs <;> simp_all [quiet]
  | without k a ihk iha =>
    simp only [quiet] at h
    simp only [deriv]
    split_ifs <;> simp_all [quiet]

omit [DecidableEq A] in
theorem quiet_out (h : m.quiet u) : ∀ e ∈ m.out, u e.2 = false := by
  induction m with
  | void => simp [out]
  | eps => simp [out]
  | sym k => simp [out]
  | cat a b iha ihb =>
    simp only [quiet, Bool.and_eq_true] at h
    simp only [out, List.mem_append]
    rintro e (he | he)
    · exact iha h.1 e he
    · exact ihb h.2 e he
  | alt a b iha ihb =>
    simp only [quiet, Bool.and_eq_true] at h
    simp only [out, List.mem_append]
    rintro e (he | he)
    · split at he
      · exact iha h.1 e he
      · simp at he
    · split at he
      · exact ihb h.2 e he
      · simp at he
  | star a iha => simp [out]
  | entering t x a iha =>
    simp only [quiet, Bool.and_eq_true] at h
    exact iha h.2
  | finishing t x a iha =>
    simp only [quiet, Bool.and_eq_true] at h
    exact iha h.2
  | leaving t x a iha =>
    simp only [quiet, Bool.and_eq_true] at h
    simp only [out, List.mem_append, List.mem_singleton]
    rintro e (he | rfl)
    · exact iha h.2 e he
    · simpa using h.1
  | guarded a b iha ihb =>
    simp only [quiet, Bool.and_eq_true] at h
    simp only [out, List.mem_append]
    rintro e (he | he)
    · exact iha h.1 e he
    · exact ihb h.2 e he
  | without k a ihk iha => exact iha h

omit [DecidableEq A] in
theorem startQuiet_of_quiet (h : m.quiet u) : m.startQuiet u := by
  induction m with
  | cat a b iha ihb => simp_all [quiet, startQuiet]
  | guarded a b iha ihb => simp_all [quiet, startQuiet]
  | _ => simp_all [quiet, startQuiet]

theorem startQuiet_acts (h : m.startQuiet u) : ∀ e ∈ m.acts c, u e.2 = false := by
  -- the way into `b` when `a` can be left at once
  have follow : ∀ {a b : Machine A}, (!a.nullable || (a.quiet u && b.startQuiet u)) = true →
      a.nullable = true → (b.startQuiet u → ∀ e ∈ b.acts c, u e.2 = false) →
      ∀ e ∈ a.out ++ b.acts c, u e.2 = false := by
    intro a b ok null ihb e he
    simp only [null, Bool.not_true, Bool.false_or, Bool.and_eq_true] at ok
    rcases List.mem_append.mp he with he | he
    · exact quiet_out ok.1 e he
    · exact ihb ok.2 e he
  induction m with
  | void => simp [acts]
  | eps => simp [acts]
  | sym k => simp [acts]
  | cat a b iha ihb =>
    simp only [startQuiet, Bool.and_eq_true] at h
    intro e he
    rcases List.mem_append.mp he with he | he
    · exact iha h.1 e he
    · split at he
      case isTrue on => exact follow h.2 on.1 ihb e he
      case isFalse => simp at he
  | alt a b iha ihb =>
    simp only [startQuiet, Bool.and_eq_true] at h
    intro e he
    rcases List.mem_append.mp he with he | he
    · exact iha h.1 e he
    · exact ihb h.2 e he
  | star a iha => exact iha h
  | entering t x a iha =>
    simp only [startQuiet, Bool.and_eq_true] at h
    intro e he
    simp only [acts] at he
    split at he
    · simp at he
    · rcases List.mem_cons.mp he with rfl | he
      · simpa using h.1
      · exact iha h.2 e he
  | finishing t x a iha =>
    simp only [startQuiet, Bool.and_eq_true] at h
    intro e he
    rcases List.mem_append.mp he with he | he
    · exact iha h.2 e he
    · split at he
      · rw [List.mem_singleton.mp he]
        simpa using h.1
      · simp at he
  | leaving t x a iha => exact iha h
  | guarded a b iha ihb =>
    simp only [startQuiet, Bool.and_eq_true] at h
    intro e he
    simp only [acts] at he
    split at he
    case isTrue on => exact follow h.2 on.1 ihb e he
    case isFalse => exact iha h.1 e he
  | without k a ihk iha =>
    intro e he
    simp only [acts] at he
    split at he
    · simp at he
    · exact iha h e he

theorem quiet_acts (h : m.quiet u) : ∀ e ∈ m.acts c, u e.2 = false :=
  startQuiet_acts (startQuiet_of_quiet h)

omit [DecidableEq A] in
theorem nullable_of_opens (h : m.opens d u) : m.nullable = false := by
  induction m with
  | cat a b iha ihb =>
    simp only [opens, Bool.or_eq_true, Bool.and_eq_true] at h
    rcases h with h | h
    · simp [nullable, iha h]
    · simp [nullable, ihb h.2]
  | _ => simp_all [opens, nullable]

omit [DecidableEq A] in
theorem opens_seq (ha : a.opens d u) : (seq a b).opens d u := by
  cases a <;> simp_all [seq, opens]

omit [DecidableEq A] in
theorem opens_seq_of_quiet (ha : a.quiet u) (hb : b.opens d u) : (seq a b).opens d u := by
  cases a <;> simp_all [seq, opens]

theorem opens_or (ha : a.opens d u) (hb : b.opens d u) : (or a b).opens d u := by
  unfold or
  split_ifs <;> simp_all [opens]

/-- One byte: no action of `u`, and either one of `d` or the machine still opens with one. -/
theorem opens_step (h : m.opens d u) : (∀ e ∈ m.acts c, u e.2 = false) ∧
    ((∃ e ∈ m.acts c, d e.2) ∨ (m.deriv c).opens d u) := by
  induction m with
  | void => exact ⟨by simp [acts], .inr rfl⟩
  | cat a b iha ihb =>
    simp only [opens, Bool.or_eq_true, Bool.and_eq_true] at h
    rcases h with h | ⟨ha, hb⟩
    · have null := nullable_of_opens h
      obtain ⟨calm, next⟩ := iha h
      simp only [acts, deriv, null, Bool.false_eq_true, false_and, if_false, List.append_nil]
      refine ⟨calm, next.imp_right fun next => ?_⟩
      exact opens_or (opens_seq next) rfl
    · obtain ⟨calm, next⟩ := ihb hb
      have first : (seq (a.deriv c) b).opens d u := opens_seq_of_quiet (quiet_deriv ha) hb
      simp only [acts, deriv]
      split
      case isTrue on =>
        refine ⟨fun e he => ?_, ?_⟩
        · rcases List.mem_append.mp he with he | he
          · exact quiet_acts ha e he
          · rcases List.mem_append.mp he with he | he
            · exact quiet_out ha e he
            · exact calm e he
        · rcases next with ⟨e, he, hd⟩ | next
          · exact .inl ⟨e, by simp [he], hd⟩
          · rw [if_pos on.1]
            exact .inr (opens_or first next)
      case isFalse off =>
        refine ⟨fun e he => ?_, .inr (opens_or first ?_)⟩
        · rw [List.append_nil] at he
          exact quiet_acts ha e he
        · split
          case isTrue null =>
            have stop : b.deriv c = void := by
              by_contra go
              exact off ⟨null, go⟩
            rw [stop]
            rfl
          case isFalse => rfl
  | alt a b iha ihb =>
    simp only [opens, Bool.and_eq_true] at h
    obtain ⟨calma, nexta⟩ := iha h.1
    obtain ⟨calmb, nextb⟩ := ihb h.2
    refine ⟨fun e he => ?_, ?_⟩
    · rcases List.mem_append.mp he with he | he
      · exact calma e he
      · exact calmb e he
    · rcases nexta with ⟨e, he, hd⟩ | nexta
      · exact .inl ⟨e, by simp [acts, he], hd⟩
      · rcases nextb with ⟨e, he, hd⟩ | nextb
        · exact .inl ⟨e, by simp [acts, he], hd⟩
        · exact .inr (opens_or nexta nextb)
  | entering t x a iha =>
    simp only [opens, Bool.and_eq_true, Bool.not_eq_true'] at h
    obtain ⟨⟨⟨hd, hu⟩, null⟩, start⟩ := h
    have calm : (entering t x a).startQuiet u = true := by simp [startQuiet, hu, start]
    refine ⟨startQuiet_acts calm, ?_⟩
    by_cases stop : a.deriv c = void
    · right
      simp [deriv, stop, opens]
    · left
      exact ⟨(t, x), by simp [acts, stop], hd⟩
  | leaving t x a iha =>
    obtain ⟨calm, next⟩ := iha h
    refine ⟨calm, next.imp_right fun next => ?_⟩
    simp only [deriv]
    split
    · rfl
    · exact next
  | _ => simp [opens] at h

end Opening

/-! ### Actions that come last -/

section Ending

variable (d : A → Bool)

/-- Every way to the end of the machine executes an action of `d` on its last byte. -/
def ends : Machine A → Bool
  | void => true
  | eps => false
  | sym _ => false
  | cat _ b => b.ends && !b.nullable
  | alt a b => a.ends && b.ends
  | star _ => false
  | entering _ _ a => a.ends
  | finishing _ x _ => d x
  | leaving _ _ a => a.ends
  | guarded _ _ => false
  | without _ _ => false

attribute [local grind =] ends

variable {d} {a b m : Machine A} {c : UInt8}

omit [DecidableEq A] in
theorem nullable_seq (hb : b.nullable = false) : (seq a b).nullable = false := by
  cases a <;> simp_all [seq, nullable]

theorem nullable_or : (or a b).nullable = (a.nullable || b.nullable) := by
  unfold or
  split_ifs <;> simp_all [nullable]

omit [DecidableEq A] in
theorem ends_seq (hb : b.ends d) (nb : b.nullable = false) : (seq a b).ends d := by
  cases a <;> simp_all [seq, ends]

theorem ends_or (ha : a.ends d) (hb : b.ends d) : (or a b).ends d := by
  unfold or
  split_ifs <;> simp_all [ends]

theorem ends_step (h : m.ends d) : (m.deriv c).ends d ∧
    ((m.deriv c).nullable = true → ∃ e ∈ m.acts c, d e.2) := by
  induction m with
  | void => exact ⟨rfl, by simp [deriv, nullable]⟩
  | cat a b iha ihb =>
    simp only [ends, Bool.and_eq_true, Bool.not_eq_true'] at h
    obtain ⟨ends', last⟩ := ihb h.1
    have first : (seq (a.deriv c) b).ends d := ends_seq h.1 h.2
    simp only [deriv, acts, nullable_or, nullable_seq h.2, Bool.false_or]
    split
    case isTrue null =>
      refine ⟨ends_or first ends', fun final => ?_⟩
      obtain ⟨e, he, hd⟩ := last final
      have live : b.deriv c ≠ void := by
        intro stop
        simp [stop, nullable] at final
      exact ⟨e, by simp [null, live, he], hd⟩
    case isFalse => exact ⟨ends_or first rfl, by simp [nullable]⟩
  | alt a b iha ihb =>
    simp only [ends, Bool.and_eq_true] at h
    obtain ⟨enda, lasta⟩ := iha h.1
    obtain ⟨endb, lastb⟩ := ihb h.2
    refine ⟨ends_or enda endb, fun final => ?_⟩
    simp only [deriv, nullable_or, Bool.or_eq_true] at final
    rcases final with final | final
    · obtain ⟨e, he, hd⟩ := lasta final
      exact ⟨e, by simp [acts, he], hd⟩
    · obtain ⟨e, he, hd⟩ := lastb final
      exact ⟨e, by simp [acts, he], hd⟩
  | entering t x a iha =>
    obtain ⟨enda, lasta⟩ := iha h
    refine ⟨enda, fun final => ?_⟩
    have live : a.deriv c ≠ void := by
      intro stop
      simp [deriv, stop, nullable] at final
    obtain ⟨e, he, hd⟩ := lasta final
    exact ⟨e, by simp [acts, live, he], hd⟩
  | finishing t x a iha =>
    simp only [deriv]
    split
    · exact ⟨rfl, by simp [nullable]⟩
    · exact ⟨h, fun final => ⟨(t, x), by simp [acts, show (a.deriv c).nullable = true from final], h⟩⟩
  | leaving t x a iha =>
    obtain ⟨enda, lasta⟩ := iha h
    simp only [deriv]
    split
    · exact ⟨rfl, by simp [nullable]⟩
    · exact ⟨enda, lasta⟩
  | _ => simp [ends] at h

end Ending

end Machine

end Conet.Lib.Ragel
