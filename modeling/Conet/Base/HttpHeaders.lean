/- Module: Conet/Base/HttpHeaders
   source: base/src/http_parser.rl
   digest: Which header lines the http parser takes for known ones, for others, and for none. -/

import Conet.Base.HttpKnown

set_option autoImplicit false
set_option relaxedAutoImplicit false

namespace Conet.Base.HttpHeaders

open Conet.Lib Conet.Lib.Ragel Conet.Lib.Ragel.Machine Conet.Base.HttpParser
open Conet.Base.HttpTrace Conet.Base.HttpLines Conet.Base.HttpKnown

/-! The parts of `unknown_header`, with the stamps of their actions. -/

/-- The stamps of the known headers and of the actions about headers. -/
structure Stamps where
  known : ℕ
  startField : ℕ
  writeField : ℕ
  startValue : ℕ
  writeValue : ℕ
  done : ℕ

section Unknown

variable {s : Stamps} {c : UInt8} {w : List UInt8}

def inValue (s : Stamps) : Expr := leaving s.writeValue .writeValue (star anyByte)

def afterColon (s : Stamps) : Expr :=
  cat spaces (leaving s.writeValue .writeValue (entering s.startValue .startValue (star anyByte)))

def afterSpace (s : Stamps) : Expr := alt (afterColon s) (inValue s)

def afterName (s : Stamps) : Expr := cat (lit (codes ":")) (afterColon s)

def inName (s : Stamps) : Expr :=
  cat (leaving s.writeField .writeField (star (sym token))) (afterName s)

def unknownText (s : Stamps) : Expr :=
  cat (leaving s.writeField .writeField (entering s.startField .startField (plus (sym token)))) (afterName s)

theorem any_deriv : (star anyByte : Expr).deriv c = star anyByte := by
  rw [anyByte, star_sym_deriv, if_pos (anyByte_has c)]

theorem inValue_deriv : (inValue s).deriv c = inValue s := by
  rw [inValue, Machine.deriv, any_deriv, if_neg (by simp)]

theorem inValue_acts : (inValue s).acts c = [] := rfl

theorem value_deriv :
    (leaving s.writeValue .writeValue (entering s.startValue .startValue (star anyByte)) : Expr).deriv c =
      inValue s := by
  have value : (entering s.startValue .startValue (star anyByte) : Expr).deriv c = star anyByte := any_deriv
  rw [Machine.deriv, value, if_neg (by simp)]
  rfl

theorem afterColon_space : (afterColon s).deriv 32 = afterSpace s := by
  rw [afterColon, Machine.deriv, spaces_deriv, value_deriv]
  rfl

/-- A value may start with every space and with the first other byte. -/
theorem afterColon_acts : (afterColon s).acts c = [(s.startValue, .startValue)] := by
  have quiet : spaces.acts c = [] := rfl
  have value : (leaving s.writeValue .writeValue
      (entering s.startValue .startValue (star anyByte)) : Expr).acts c = [(s.startValue, .startValue)] := by
    rw [acts, acts, any_deriv, if_neg (by simp)]
    rfl
  rw [afterColon, acts, quiet, value, value_deriv, if_pos ⟨rfl, by intro h; cases h⟩]
  rfl

theorem afterSpace_deriv (ne : c ≠ 32) : (afterSpace s).deriv c = inValue s := by
  have colon : (afterColon s).deriv c = inValue s := by
    rw [afterColon, Machine.deriv, spaces_deriv, if_neg ne, value_deriv, seq_void, or_void_left]
    rfl
  rw [afterSpace, Machine.deriv, colon, inValue_deriv, Machine.or_self]

theorem afterSpace_acts : (afterSpace s).acts c = [(s.startValue, .startValue)] := by
  rw [afterSpace, acts, afterColon_acts, inValue_acts]
  rfl

theorem afterName_deriv (ne : c ≠ 58) : (afterName s).deriv c = void := by
  have stop : (lit (codes ":") : Expr).deriv c = void := by
    apply deriv_of_avoids
    have off : ByteClass.has [(58, 58)] c = false := by
      rw [← Bool.not_eq_true, single_has]
      exact ne
    change (!ByteClass.has [(58, 58)] c && true) = true
    rw [off]
    rfl
  rw [afterName, Machine.deriv, stop]
  rfl

theorem ne_colon (has : token.has c = true) : c ≠ 58 := by
  rintro rfl
  exact absurd has (by decide)

theorem name_deriv (has : token.has c = true) :
    (leaving s.writeField .writeField (star (sym token)) : Expr).deriv c =
      leaving s.writeField .writeField (star (sym token)) := by
  rw [Machine.deriv, star_sym_deriv, if_pos has, if_neg (by simp)]

theorem inName_deriv (has : token.has c = true) : (inName s).deriv c = inName s := by
  rw [inName, Machine.deriv, name_deriv has, afterName_deriv (ne_colon has)]
  rfl

theorem inName_acts (has : token.has c = true) : (inName s).acts c = [] := by
  rw [inName, acts, afterName_deriv (ne_colon has), if_neg (by simp)]
  rfl

theorem inName_colon : (inName s).deriv 58 = afterColon s := by
  rfl

theorem inName_acts_colon : (inName s).acts 58 = [(s.writeField, .writeField)] := by
  rfl

theorem plus_deriv (has : token.has c = true) : (plus (sym token) : Expr).deriv c = star (sym token) := by
  rw [plus, Machine.deriv, Machine.deriv, if_pos has]
  rfl

theorem unknownText_deriv (has : token.has c = true) :
    (unknownText s).deriv c = inName s := by
  rw [unknownText, Machine.deriv, Machine.deriv, Machine.deriv, plus_deriv has, if_neg (by simp)]
  rfl

theorem unknownText_acts (has : token.has c = true) :
    (unknownText s).acts c = [(s.startField, .startField)] := by
  rw [unknownText, acts, acts, acts, plus_deriv has, if_neg (by simp)]
  rfl

theorem derivs_inName (has : ∀ c ∈ w, token.has c = true) :
    derivs w (inName s) = inName s := by
  induction w with
  | nil => rfl
  | cons c w ih =>
    rw [List.forall_mem_cons] at has
    rw [derivs_cons, inName_deriv has.1]
    exact ih has.2

theorem derivs_name (ne : w ≠ []) (has : ∀ c ∈ w, token.has c = true) :
    derivs w (unknownText s) = inName s := by
  obtain ⟨c, w, rfl⟩ := List.exists_cons_of_ne_nil ne
  rw [List.forall_mem_cons] at has
  rw [derivs_cons, unknownText_deriv has.1]
  exact derivs_inName has.2

theorem derivs_inValue (w : List UInt8) : derivs w (inValue s) = inValue s := by
  induction w with
  | nil => rfl
  | cons c w ih =>
    rw [derivs_cons, inValue_deriv]
    exact ih

/-- The bytes of `w` are read, and no action on them completes a header. -/
def Calm : List UInt8 → Expr → Prop
  | [], _ => True
  | c :: w, m => m.deriv c ≠ void ∧ (∀ e ∈ m.acts c, e.2 ≠ .writeValue ∧ e.2 ≠ .done) ∧ Calm w (m.deriv c)

theorem Calm.append {w' : List UInt8} {m : Expr} (first : Calm w m) (second : Calm w' (derivs w m)) :
    Calm (w ++ w') m := by
  induction w generalizing m with
  | nil => exact second
  | cons c w ih => exact ⟨first.1, first.2.1, ih first.2.2 second⟩

theorem Calm.at_split {u t : List UInt8} {m : Expr} (calm : Calm (u ++ c :: t) m) :
    (derivs u m).deriv c ≠ void ∧ ∀ e ∈ (derivs u m).acts c, e.2 ≠ .writeValue ∧ e.2 ≠ .done := by
  induction u generalizing m with
  | nil => exact ⟨calm.1, calm.2.1⟩
  | cons c' u ih => exact ih calm.2.2

theorem calm_value (w : List UInt8) : Calm w (inValue s) := by
  induction w with
  | nil => trivial
  | cons c w ih =>
    rw [Calm, inValue_deriv, inValue_acts]
    exact ⟨nofun, by simp, ih⟩

theorem calm_name (has : ∀ c ∈ w, token.has c = true) : Calm w (inName s) := by
  induction w with
  | nil => trivial
  | cons c w ih =>
    rw [List.forall_mem_cons] at has
    rw [Calm, inName_deriv has.1, inName_acts has.1]
    exact ⟨nofun, by simp, ih has.2⟩

theorem calm_space (first : w.head? ≠ some 32) : Calm w (afterSpace s) := by
  cases w with
  | nil => trivial
  | cons c w =>
    have ne : c ≠ 32 := by simpa using first
    rw [Calm, afterSpace_deriv ne, afterSpace_acts]
    exact ⟨nofun, by simp, calm_value w⟩

/-- What an unknown header does up to the end of its line. -/
theorem calm_text {l : Line} (valid : l.Valid) : Calm l.text (unknownText s) := by
  obtain ⟨c, n, eq⟩ := List.exists_cons_of_ne_nil valid.name
  have has := valid.token
  rw [eq, List.forall_mem_cons] at has
  have name : Calm l.name (unknownText s) := by
    rw [eq, Calm, unknownText_deriv has.1, unknownText_acts has.1]
    exact ⟨nofun, by simp, calm_name has.2⟩
  rw [Line.text_eq]
  apply name.append
  rw [derivs_name valid.name valid.token, Calm, inName_colon, inName_acts_colon, Calm, afterColon_space,
    afterColon_acts]
  exact ⟨nofun, by simp, nofun, by simp, calm_space valid.first⟩

end Unknown

section Lines

variable {s : Stamps} {l : Line} {u v w : List UInt8} {c : UInt8} {a : Option Action}

def lineExpr (s : Stamps) : Expr :=
  alt (guarded (knownText.stamp s.known).1 crlf) (without hider (guarded (unknownText s) crlf))

theorem hider_nullable : hider.nullable = false := by decide

theorem line_known_quiet :
    ∀ e ∈ (derivs u (guarded (knownText.stamp s.known).1 crlf)).acts c, header e.2 = false := by
  have quiet : (guarded (knownText.stamp s.known).1 crlf).quiet header = true := by
    rw [quiet, quiet_stamp]
    decide
  exact quiet_acts (quiet_derivs quiet u)

theorem line_stays (free : 10 ∉ u) : (derivs u (lineExpr s)).nullable = false := by
  have ends : ∀ a : Expr, u ∉ (guarded a crlf).lang := by
    intro a mem
    obtain ⟨x, y, rfl, hy⟩ := mem_lang_guarded mem
    obtain rfl : y = [13, 10] := mem_lang_lit.mp hy
    simp at free
  rw [← Bool.not_eq_true, ← mem_lang, lineExpr, lang_alt, Language.mem_add, not_or]
  exact ⟨ends _, fun mem => ends _ (mem_lang_without mem)⟩

theorem derivs_crlf_free {a : Expr} (free : 13 ∉ u) (live : derivs u a ≠ void) :
    derivs u (guarded a crlf) = guarded (derivs u a) crlf := by
  have start : a ≠ void := by
    rintro rfl
    rw [derivs_void] at live
    exact live rfl
  rw [derivs_guarded _ start, if_neg live]
  intro c mem
  rw [crlf_deriv, if_neg]
  rintro rfl
  exact free mem

/-- While no part of what has been read is a known header. -/
theorem derivs_unknown {a : Expr} (free : 13 ∉ u) (live : derivs u a ≠ void)
    (miss : ∀ p q, p ++ q = u → p ∉ hider.lang) : derivs u (without hider (guarded a crlf)) =
      without (derivs u hider) (guarded (derivs u a) crlf) := by
  rw [derivs_without fun p q _ eq => miss p q eq, derivs_crlf_free free live]
  rw [derivs_crlf_free free live]
  exact nofun

theorem derivs_hit {a : Expr} (hit : u ∈ hider.lang) : derivs (u ++ v) (without hider a) = void := by
  apply derivs_without_hit _ hit
  rintro rfl
  rw [nil_mem_lang, hider_nullable] at hit
  cases hit

theorem derivs_line (u : List UInt8) (c : UInt8) :
    (derivs u (lineExpr s)).deriv c = or
      ((derivs u (guarded (knownText.stamp s.known).1 crlf)).deriv c)
      ((derivs u (without hider (guarded (unknownText s) crlf))).deriv c) := by
  have step : ∀ m : Expr, (derivs u m).deriv c = derivs (u ++ [c]) m := by
    intro m
    rw [derivs_append]
    rfl
  rw [step, step, step, lineExpr, derivs_alt (by simp)]

/-- The actions about headers are those of `unknown_header`. -/
theorem line_acts {e : ℕ × Action} (about : header e.2 = true) :
    e ∈ (derivs u (lineExpr s)).acts c ↔
      e ∈ (derivs u (without hider (guarded (unknownText s) crlf))).acts c := by
  rw [lineExpr, mem_acts_derivs_alt, or_iff_right]
  intro mem
  rw [line_known_quiet e mem] at about
  cases about

/-- `unknown_header` on a byte, while no part of what has been read is a known header. -/
theorem unknown_step {a d : Expr} (miss : (d.deriv c).nullable = false) (live : a.deriv c ≠ void) :
    (without d a).deriv c = without (d.deriv c) (a.deriv c) ∧ (without d a).acts c = a.acts c := by
  constructor
  · rw [Machine.deriv, if_neg (by simp [miss, live])]
  · rw [acts, if_neg (by simp [miss])]

theorem guarded_step {a : Expr} (ne : c ≠ 13) (live : a.deriv c ≠ void) :
    (guarded a crlf).deriv c = guarded (a.deriv c) crlf ∧ (guarded a crlf).acts c = a.acts c := by
  have stop : crlf.deriv c = void := by rw [crlf_deriv, if_neg ne]
  constructor
  · rw [Machine.deriv, if_neg (by simp [stop]), if_neg live]
  · rw [acts, if_neg (by simp [stop])]

/-- A byte before the end of a line that hides no known header. -/
theorem line_step (free : 13 ∉ u) (ne : c ≠ 13) (miss : ∀ p q, p ++ q = u ++ [c] → p ∉ hider.lang)
    (live : (derivs u (unknownText s)).deriv c ≠ void)
    (only : Only (derivs u (unknownText s)) c a) :
    (derivs u (lineExpr s)).deriv c ≠ void ∧
      Only (derivs u (lineExpr s)) c a := by
  have before : derivs u (unknownText s) ≠ void := by
    intro dead
    rw [dead] at live
    exact live rfl
  have form := derivs_unknown free before fun p q eq => miss p (q ++ [c]) (by rw [← eq, List.append_assoc])
  have here : ((derivs u hider).deriv c).nullable = false := by
    rw [← Bool.not_eq_true]
    intro hit
    apply miss (u ++ [c]) [] (by simp)
    rwa [append_mem_lang, cons_mem_lang, nil_mem_lang]
  obtain ⟨next, same⟩ := guarded_step ne live
  obtain ⟨next', same'⟩ := unknown_step here (by rw [next]; exact nofun)
  constructor
  · rw [derivs_line, form, next', Ne, or_eq_void]
    intro dead
    cases dead.2
  · constructor
    · intro e he about
      rw [line_acts about, form, same', same] at he
      exact only.only e he about
    · intro y eq
      obtain ⟨t, ht⟩ := only.here y eq
      refine ⟨t, mem_acts_derivs_alt.mpr (.inr ?_)⟩
      rwa [form, same', same]

theorem line_cr (free : 13 ∉ u) (miss : ∀ p q, p ++ q = u ++ [13] → p ∉ hider.lang)
    (ends : (derivs u (unknownText s)).nullable = true) :
    derivs (u ++ [13]) (without hider (guarded (unknownText s) crlf)) =
      without (derivs (u ++ [13]) hider) feed ∧
    ∀ e, e ∈ (derivs u (without hider (guarded (unknownText s) crlf))).acts 13 ↔
      e ∈ (derivs u (unknownText s)).out := by
  have before : derivs u (unknownText s) ≠ void := by
    intro dead
    rw [dead] at ends
    cases ends
  have form := derivs_unknown free before fun p q eq => miss p (q ++ [13]) (by rw [← eq, List.append_assoc])
  have here : ((derivs u hider).deriv 13).nullable = false := by
    rw [← Bool.not_eq_true]
    intro hit
    apply miss (u ++ [13]) [] (by simp)
    rwa [append_mem_lang, cons_mem_lang, nil_mem_lang]
  have cr : crlf.deriv 13 = feed := rfl
  have leaves : (guarded (derivs u (unknownText s)) crlf).deriv 13 = feed := by
    rw [Machine.deriv, if_pos ⟨ends, by rw [cr]; exact feed_ne⟩, cr]
  obtain ⟨next', same'⟩ := unknown_step (d := derivs u hider) here (by rw [leaves]; exact feed_ne)
  constructor
  · rw [derivs_append, derivs_append, form, derivs_cons, derivs_nil, next', leaves]
    rfl
  · intro e
    have quiet : crlf.acts 13 = [] := rfl
    rw [form, same', acts, if_pos ⟨ends, by rw [cr]; exact feed_ne⟩, quiet, List.append_nil]

/-- The bytes of a line that hides no known header. -/
theorem line_part (valid : l.Valid) (visible : ¬ l.Hides) (eq : l.text = u ++ c :: v)
    (only : Only (derivs u (unknownText s)) c a) :
    (derivs u (lineExpr s)).nullable = false ∧
      (derivs u (lineExpr s)).deriv c ≠ void ∧
      Only (derivs u (lineExpr s)) c a := by
  obtain ⟨cr, lf, -⟩ := valid.free
  have calm := calm_text (s := s) valid
  rw [eq] at cr lf calm
  rw [List.mem_append, List.mem_cons, not_or, not_or] at cr lf
  refine ⟨line_stays lf.1, ?_⟩
  apply line_step cr.1 (Ne.symm cr.2.1) _ calm.at_split.1 only
  intro p q parts hit
  apply visible
  rw [l.hides_iff valid, eq]
  refine ⟨p, q ++ (v ++ [13]), ?_, hit⟩
  rw [← List.append_assoc, parts]
  simp

def ending (s : Stamps) : Expr := finishing s.done .done crlf

theorem ending_ne : ending s ≠ void := nofun

theorem ending_deriv (ne : c ≠ 13) : (ending s).deriv c = void := by
  rw [ending, Machine.deriv, crlf_deriv, if_neg ne, if_pos rfl]

end Lines

section Unhidden

variable {mem : ℤ → UInt8} {b : ℤ} {k : ℕ} {s : Stamps} {l : Line} {v : View}

theorem goes_name (valid : l.Valid) (visible : ¬ l.Hides) (few : v.num < 100) :
    Goes mem b (lineExpr s) (ending s) [] l.name k v { v with start := b + k } := by
  obtain ⟨c, m, eq⟩ := List.exists_cons_of_ne_nil valid.name
  have has := valid.token
  rw [eq, List.forall_mem_cons] at has
  have ne : c ≠ 13 := by
    rintro rfl
    exact absurd has.1 (by decide)
  have text : l.text = c :: (m ++ 58 :: 32 :: l.value) := by
    rw [Line.text_eq, eq]
    rfl
  have start : Only (derivs [] (unknownText s)) c (some .startField) :=
    only_one (unknownText_acts has.1)
  obtain ⟨stays, live, only⟩ := line_part valid visible text start
  have first : Goes mem b (lineExpr s) (ending s) [] [c] k v { v with start := b + k } :=
    goes_only ending_ne (.inr (ending_deriv ne)) stays live only rfl (by decide) few
  rw [eq, ← List.singleton_append]
  apply first.append
  refine goes_all ending_ne (by simp) ?_
  intro p c' t split
  have before : derivs ([] ++ [c] ++ p) (unknownText s) = inName s := by
    apply derivs_name (by simp)
    intro d hd
    apply valid.token
    rw [eq, split, ← List.cons_append]
    exact List.mem_append_left _ hd
  apply line_part (v := t ++ 58 :: 32 :: l.value) valid visible
  · rw [text, split]
    simp
  · rw [before]
    apply only_none
    apply inName_acts
    exact has.2 c' (by rw [split]; simp)

theorem goes_colon (valid : l.Valid) (visible : ¬ l.Hides) (few : v.num < 100) :
    Goes mem b (lineExpr s) (ending s) l.name (codes ": ") k v
      ((v.act (b + k) .writeField).act (b + (k + 1 : ℕ)) .startValue) := by
  have before : derivs l.name (unknownText s) = inName s := derivs_name valid.name valid.token
  have colon : Only (derivs l.name (unknownText s)) 58 (some .writeField) := by
    rw [before]
    exact only_one inName_acts_colon
  have space : Only (derivs (l.name ++ [58]) (unknownText s)) 32 (some .startValue) := by
    rw [derivs_append, before, derivs_cons, derivs_nil, inName_colon]
    exact only_one afterColon_acts
  obtain ⟨stays, live, only⟩ := line_part valid visible l.text_eq colon
  obtain ⟨stays', live', only'⟩ := line_part (v := l.value) valid visible
    (by rw [l.text_eq]; simp) space
  have first : Goes mem b (lineExpr s) (ending s) l.name [58] k v (v.act (b + k) .writeField) :=
    goes_only ending_ne (.inl valid.name) stays live only rfl (by decide) few
  have second : Goes mem b (lineExpr s) (ending s) (l.name ++ [58]) [32] (k + 1)
      (v.act (b + k) .writeField) ((v.act (b + k) .writeField).act (b + (k + 1 : ℕ)) .startValue) :=
    goes_only ending_ne (.inl (by simp)) stays' live' only' rfl (by decide) few
  exact first.append second

theorem derivs_colon (valid : l.Valid) : derivs (l.name ++ codes ": ") (unknownText s) = afterSpace s := by
  have before : derivs l.name (unknownText s) = inName s := derivs_name valid.name valid.token
  rw [derivs_append, before]
  change ((inName s).deriv 58).deriv 32 = afterSpace s
  rw [inName_colon, afterColon_space]

/-- The first byte of a value sets its start once more. -/
theorem goes_value (valid : l.Valid) (visible : ¬ l.Hides) (few : v.num < 100) :
    Goes mem b (lineExpr s) (ending s) (l.name ++ codes ": ") l.value k v
      { v with valStart := if l.value = [] then v.valStart else b + k } := by
  cases eq : l.value with
  | nil =>
    intro cs inside
    exact ⟨cs, by rwa [List.append_nil], .nil⟩
  | cons c w =>
    have text : l.text = (l.name ++ codes ": ") ++ c :: w := by rw [Line.text, eq]
    have ne : c ≠ 32 := by
      have first := valid.first
      rw [eq] at first
      simpa using first
    have start : Only (derivs (l.name ++ codes ": ") (unknownText s)) c (some .startValue) := by
      rw [derivs_colon valid]
      exact only_one afterSpace_acts
    obtain ⟨stays, live, only⟩ := line_part valid visible text start
    have first : Goes mem b (lineExpr s) (ending s) (l.name ++ codes ": ") [c] k v
        { v with valStart := b + k } :=
      goes_only ending_ne (.inl (by simp [valid.name])) stays live only rfl (by decide) few
    rw [if_neg (by simp), ← List.singleton_append]
    apply first.append
    refine goes_all ending_ne (by simp) ?_
    intro p c' t split
    apply line_part (v := t) valid visible
    · rw [text, split]
      simp
    · rw [List.append_assoc, derivs_append, derivs_colon valid, List.singleton_append, derivs_cons,
        afterSpace_deriv ne, derivs_inValue]
      exact only_none inValue_acts

theorem derivs_text (valid : l.Valid) : (derivs l.text (unknownText s)).nullable = true ∧
    (derivs l.text (unknownText s)).out ≠ [] ∧
    ∀ e ∈ (derivs l.text (unknownText s)).out, e.2 = .writeValue := by
  rw [Line.text, derivs_append, derivs_colon valid]
  cases eq : l.value with
  | nil =>
    refine ⟨rfl, (by intro h; cases h), ?_⟩
    intro e he
    have all : (afterSpace s).out = [(s.writeValue, .writeValue), (s.writeValue, .writeValue)] := rfl
    rw [derivs_nil, all] at he
    simp only [List.mem_cons, List.not_mem_nil, or_false, or_self] at he
    rw [he]
  | cons c w =>
    have ne : c ≠ 32 := by
      have first := valid.first
      rw [eq] at first
      simpa using first
    rw [derivs_cons, afterSpace_deriv ne, derivs_inValue]
    refine ⟨rfl, (by intro h; cases h), ?_⟩
    intro e he
    have all : (inValue s).out = [(s.writeValue, .writeValue)] := rfl
    rw [all, List.mem_singleton] at he
    rw [he]

theorem visible_miss (valid : l.Valid) (visible : ¬ l.Hides) (p q : List UInt8)
    (parts : p ++ q = l.text ++ [13]) : p ∉ hider.lang := by
  intro hit
  apply visible
  rw [l.hides_iff valid]
  exact ⟨p, q, parts, hit⟩

theorem goes_cr (valid : l.Valid) (visible : ¬ l.Hides) (few : v.num < 100) :
    Goes mem b (lineExpr s) (ending s) l.text [13] k v (v.act (b + k) .writeValue) := by
  obtain ⟨cr, lf, -⟩ := valid.free
  obtain ⟨ends, some, all⟩ := derivs_text (s := s) valid
  obtain ⟨next, same⟩ := line_cr (s := s) cr (visible_miss valid visible) ends
  have ne : l.text ≠ [] := by
    rw [l.text_eq]
    simp
  have done : Action.writeValue ≠ .done := nofun
  refine goes_only ending_ne (.inl ne) (line_stays lf) ?_ ?_ rfl done few
  · rw [derivs_line, Ne, or_eq_void]
    intro dead
    have form := dead.2
    rw [← derivs_nil (m := Machine.deriv _ _), ← derivs_cons, ← derivs_append, next] at form
    cases form
  · constructor
    · intro e he about
      rw [line_acts about, same] at he
      rw [all e he]
    · intro y eq
      obtain ⟨e, rest, out⟩ := List.exists_cons_of_ne_nil some
      have mem : e ∈ (derivs l.text (unknownText s)).out := by
        rw [out]
        exact List.mem_cons_self
      refine ⟨e.1, mem_acts_derivs_alt.mpr (.inr ((same _).mpr ?_))⟩
      rwa [← Option.some.inj eq, ← all e mem]

/-- The start of a known header does not end with a line feed. -/
theorem full_miss (l : Line) : l.full ∉ hider.lang := by
  intro hit
  obtain ⟨u, v, eq, start⟩ := mem_lang_any_cat.mp hit
  have free : 10 ∉ v := notMem_of_avoids (by decide) start
  obtain rfl | ⟨v, c, rfl⟩ := List.eq_nil_or_concat v
  · have some : knownStart.nullable = false := by decide
    rw [nil_mem_lang, some] at start
    cases start
  · rw [List.concat_eq_append] at eq free
    have last := congrArg List.getLast? eq
    rw [Line.full, ← List.append_assoc] at last
    have feed : c = 10 := by simpa using last
    rw [feed] at free
    simp at free

theorem left_unknown (valid : l.Valid) (visible : ¬ l.Hides) :
    ((derivs (l.text ++ [13]) hider).deriv 10).nullable = false ∧
      derivs l.full (without hider (guarded (unknownText s) crlf)) =
        without ((derivs (l.text ++ [13]) hider).deriv 10) eps := by
  obtain ⟨cr, -, -⟩ := valid.free
  obtain ⟨ends, -, -⟩ := derivs_text (s := s) valid
  obtain ⟨next, -⟩ := line_cr (s := s) cr (visible_miss valid visible) ends
  have split := l.full_eq
  have miss : ((derivs (l.text ++ [13]) hider).deriv 10).nullable = false := by
    rw [← Bool.not_eq_true]
    intro hit
    apply full_miss l
    rwa [split, append_mem_lang, cons_mem_lang, nil_mem_lang]
  have feeds : feed.deriv 10 = eps := rfl
  refine ⟨miss, ?_⟩
  rw [split, derivs_append, next, derivs_cons, derivs_nil, Machine.deriv, feeds, miss, if_neg (by simp)]

theorem goes_lf (valid : l.Valid) (visible : ¬ l.Hides) :
    Goes mem b (lineExpr s) (ending s) (l.text ++ [13]) [10] k v v := by
  obtain ⟨cr, lf, -⟩ := valid.free
  obtain ⟨ends, -, -⟩ := derivs_text (s := s) valid
  obtain ⟨next, -⟩ := line_cr (s := s) cr (visible_miss valid visible) ends
  obtain ⟨-, left⟩ := left_unknown (s := s) valid visible
  refine goes_calm ending_ne (.inl (by simp)) (line_stays (by simp [lf])) ?_ ?_
  · rw [derivs_line, Ne, or_eq_void]
    intro dead
    have last := dead.2
    rw [← derivs_nil (m := Machine.deriv _ _), ← derivs_cons, ← derivs_append, List.append_assoc] at last
    cases left.symm.trans last
  · constructor
    · intro e he about
      rw [line_acts about, next, acts] at he
      split_ifs at he
      · cases he
      · cases he
    · intro x hx
      cases hx

theorem goes_line (valid : l.Valid) (visible : ¬ l.Hides) (few : v.num < 100) :
    ∃ v', Goes mem b (lineExpr s) (ending s) [] l.full k v v' ∧ v.Adds v' (l.header (b + k)) := by
  have name : Goes mem b (lineExpr s) (ending s) [] l.name k v _ := goes_name valid visible few
  have colon := name.append (goes_colon valid visible few)
  have value := colon.append (goes_value valid visible few)
  have cr := value.append (goes_cr valid visible few)
  have full := cr.append (goes_lf valid visible)
  have parts : l.full = l.name ++ codes ": " ++ l.value ++ [13] ++ [10] := by
    simp [Line.full, Line.text]
  rw [← parts] at full
  refine ⟨_, full, rfl, ?_, ?_⟩
  · intro i lt
    have ne : i ≠ v.num := by omega
    simp [View.act, View.setHeader, ne]
  · have two : (codes ": ").length = 2 := rfl
    have count : (l.text.length : ℤ) = l.name.length + 2 + l.value.length := by
      rw [Line.text, List.length_append, List.length_append, two]
      push_cast
      ring
    simp only [View.act, View.setHeader, Function.update_self, Line.header, count, List.length_append, two]
    push_cast
    split_ifs <;> simp [add_assoc]

end Unhidden

section Hidden

variable {mem : ℤ → UInt8} {b : ℤ} {k num : ℕ} {s : Stamps} {l : Line} {v : View} {cs : Expr}
  {u w rest : List UInt8} {c : UInt8}

theorem known_cr (free : 13 ∉ u) :
    (u ∈ knownText.lang → derivs (u ++ [13]) (guarded (knownText.stamp s.known).1 crlf) = feed) ∧
      (u ∉ knownText.lang → derivs (u ++ [13]) (guarded (knownText.stamp s.known).1 crlf) = void) := by
  have same := lang_stamp knownText_trimmed s.known
  rw [← same]
  apply guarded_cr _ free
  · rw [same]
    exact fun v => knownText_cr
  · rw [trimmed_stamp]
    exact knownText_trimmed

/-- A byte on which no header goes on has no action. -/
theorem line_tidy (dead : (lineExpr s).deriv c = void) : (lineExpr s).acts c = [] := by
  have guarded_tidy : ∀ a : Expr, a.trimmed = true → a.nullable = false →
      (guarded a crlf).deriv c = void → (guarded a crlf).acts c = [] := by
    intro a trim stays stop
    rw [Machine.deriv, if_neg (by simp [stays])] at stop
    rw [acts, if_neg (by simp [stays])]
    apply acts_of_deriv_void trim
    by_contra live
    rw [if_neg live] at stop
    cases stop
  rw [lineExpr, Machine.deriv, or_eq_void] at dead
  obtain ⟨known, unknown⟩ := dead
  have first : (guarded (knownText.stamp s.known).1 crlf).acts c = [] := by
    refine guarded_tidy _ ?_ ?_ known
    · rw [trimmed_stamp]
      exact knownText_trimmed
    · rw [← Bool.not_eq_true, ← nil_mem_lang, lang_stamp knownText_trimmed, nil_mem_lang]
      decide
  have second : (without hider (guarded (unknownText s) crlf)).acts c = [] := by
    rw [acts]
    split_ifs with hit
    · rfl
    · apply guarded_tidy _ rfl rfl
      by_contra live
      rw [Machine.deriv, if_neg (by simp [hit, live])] at unknown
      cases unknown
  rw [lineExpr, acts, first, second]
  rfl

theorem full_stays (valid : l.Valid) (eq : l.full = u ++ w) (ne : w ≠ []) :
    (derivs u (lineExpr s)).nullable = false := by
  obtain ⟨-, lf, -⟩ := valid.free
  obtain nil | ⟨w, c, rfl⟩ := List.eq_nil_or_concat w
  · exact absurd nil ne
  · have before : l.text ++ [13] = u ++ w := by
      rw [Line.full, List.concat_eq_append, ← List.append_assoc] at eq
      have same : (l.text ++ [13]) ++ [10] = (u ++ w) ++ [c] := by
        rw [← eq]
        simp
      exact (List.append_inj' same rfl).1
    apply line_stays
    intro mem
    have listed : 10 ∈ l.text ++ [13] := by
      rw [before]
      exact List.mem_append_left w mem
    simp [lf] at listed

/-- `unknown_header` has actions only while no part of what has been read is a known header. -/
theorem unknown_acts {e : ℕ × Action} (free : 13 ∉ u) (live : derivs u (unknownText s) ≠ void)
    (he : e ∈ (derivs u (without hider (guarded (unknownText s) crlf))).acts c) :
    (∀ p q, p ++ q = u ++ [c] → p ∉ hider.lang) ∧ e ∈ (guarded (derivs u (unknownText s)) crlf).acts c := by
  by_cases miss : ∀ p q, p ++ q = u → p ∉ hider.lang
  · rw [derivs_unknown free live miss, acts] at he
    split_ifs at he with hit
    · cases he
    · refine ⟨fun p q parts mem => ?_, he⟩
      obtain rfl | ⟨q, c', rfl⟩ := List.eq_nil_or_concat q
      · rw [List.append_nil] at parts
        rw [parts, append_mem_lang, cons_mem_lang, nil_mem_lang] at mem
        exact hit mem
      · rw [List.concat_eq_append, ← List.append_assoc] at parts
        exact miss p q (List.append_inj' parts rfl).1 mem
  · simp only [not_forall, not_not] at miss
    obtain ⟨p, q, rfl, hit⟩ := miss
    rw [derivs_hit hit] at he
    cases he

/-- A line that hides a known header does not complete another one. -/
theorem hidden_open (valid : l.Valid) (hides : l.Hides) : Open l.full (lineExpr s) := by
  obtain ⟨cr, lf, -⟩ := valid.free
  obtain ⟨p, q, parts, hit⟩ := (l.hides_iff valid).mp hides
  intro u c t eq live e he
  rw [← not_or]
  intro wrong
  have about : header e.2 = true := by
    obtain value | done := wrong
    · rw [value]
      rfl
    · rw [done]
      rfl
  rw [line_acts about] at he
  have atEnd : ∀ r, u = l.text ++ r → [13, 10] = r ++ c :: t → False := by
    rintro r rfl ends
    cases r with
    | nil =>
      obtain ⟨rfl, -⟩ := List.cons_eq_cons.mp ends
      rw [List.append_nil] at he
      have reads : derivs l.text (unknownText s) ≠ void := by
        intro dead
        have null := (derivs_text (s := s) valid).1
        rw [dead] at null
        cases null
      exact (unknown_acts cr reads he).1 p q parts hit
    | cons d r =>
      obtain ⟨rfl, rest⟩ := List.cons_eq_cons.mp ends
      obtain rfl : r = [] := by
        cases r with
        | nil => rfl
        | cons d r => simp at rest
      rw [← parts, derivs_hit hit] at he
      cases he
  rw [Line.full] at eq
  obtain ⟨r, same, ends⟩ | ⟨r, same, ends⟩ := List.append_eq_append_iff.mp eq
  · exact atEnd r same ends
  · cases r with
    | nil => exact atEnd [] (by simpa using same.symm) (by simpa using ends.symm)
    | cons d r =>
      obtain ⟨rfl, -⟩ := List.cons_eq_cons.mp ends
      have calm := calm_text (s := s) valid
      rw [same] at calm cr
      rw [List.mem_append, List.mem_cons, not_or, not_or] at cr
      obtain ⟨next, quiet⟩ := calm.at_split
      have reads : derivs u (unknownText s) ≠ void := by
        intro dead
        rw [dead] at next
        exact next rfl
      obtain ⟨-, here⟩ := unknown_acts cr.1 reads he
      rw [(guarded_step (Ne.symm cr.2.1) next).2] at here
      exact not_or.mpr (quiet e here) wrong

theorem ne_void_of_atLine (start : AtLine (lineExpr s) (ending s) cs) : cs ≠ void := by
  rintro rfl
  have next : void = (body (lineExpr s) (ending s)).deriv 13 := start.deriv 13
  rw [body, Machine.deriv, eq_comm, or_eq_void] at next
  cases next.2

/-- What is left of a line that hides a known header. -/
theorem left_hidden (valid : l.Valid) (hides : l.Hides) :
    (l.text ∈ knownText.lang → derivs l.full (lineExpr s) = eps) ∧
      (l.text ∉ knownText.lang → derivs l.full (lineExpr s) = void) := by
  obtain ⟨cr, -, -⟩ := valid.free
  obtain ⟨p, q, parts, hit⟩ := (l.hides_iff valid).mp hides
  obtain ⟨yes, no⟩ := known_cr (s := s) cr
  have split := l.full_eq
  have stop : derivs l.full (without hider (guarded (unknownText s) crlf)) = void := by
    rw [split, ← parts, List.append_assoc]
    exact derivs_hit hit
  have ne : l.full ≠ [] := by simp [split]
  rw [lineExpr, derivs_alt ne, stop, or_void_right, split, derivs_append]
  constructor
  · intro mem
    rw [yes mem]
    rfl
  · intro off
    rw [no off]
    rfl

theorem line_first (valid : l.Valid) : ∃ c w, l.full = c :: w ∧ c ≠ 13 := by
  obtain ⟨c, m, eq⟩ := List.exists_cons_of_ne_nil valid.name
  refine ⟨c, _, by rw [Line.full, l.text_eq, eq]; rfl, ?_⟩
  rintro rfl
  have has := valid.token
  rw [eq, List.forall_mem_cons] at has
  exact absurd has.1 (by decide)

theorem line_derivs (valid : l.Valid) (start : AtLine (lineExpr s) (ending s) cs) :
    derivs l.full cs = within (lineExpr s) (ending s) (derivs l.full (lineExpr s)) ∧
      (Open l.full (lineExpr s) → Open l.full cs) := by
  obtain ⟨c, w, eq, ne⟩ := line_first valid
  have tracks := start.tracks ending_ne (ending_deriv ne)
  have stays : ∀ u t, w = u ++ t → t ≠ [] → (derivs (c :: u) (lineExpr s)).nullable = false := by
    intro u t parts some
    apply full_stays (w := t) valid _ some
    rw [eq, parts, List.cons_append]
  rw [eq]
  exact ⟨tracks.derivs stays, tracks.opens ending_ne stays⟩

theorem known_line (valid : l.Valid) (matched : l.text ∈ knownText.lang) (few : v.num < 100) (start :
    AtLine (lineExpr s) (ending s) cs) : ∃ cs' v', AtLine (lineExpr s) (ending s) cs' ∧
      Passes mem b l.full cs cs' k v v' ∧ v.Keeps v' := by
  have hides := l.hides_of_matches valid matched
  obtain ⟨next, opens⟩ := line_derivs valid start
  rw [(left_hidden valid hides).1 matched] at next
  have live : derivs l.full cs ≠ void := by
    rw [next, Ne, within_eq_void ending_ne]
    exact nofun
  have reads : ∃ v', Passes mem b l.full cs (derivs l.full cs) k v v' ∧ v.Keeps v' :=
    passes_open (opens (hidden_open valid hides)) live few
  obtain ⟨v', passes, keeps⟩ := reads
  refine ⟨_, v', ?_, passes, keeps⟩
  rw [next]
  exact atLine_within spent_eps rfl fun c => line_tidy

theorem hidden_line (valid : l.Valid) (hides : l.Hides) (off : l.text ∉ knownText.lang) (few : num < 100)
    (start : AtLine (lineExpr s) (ending s) cs) : (scan (l.full ++ rest) k cs num).state = void := by
  obtain ⟨next, opens⟩ := line_derivs valid start
  rw [(left_hidden valid hides).2 off] at next
  exact scan_dead (opens (hidden_open valid hides)) (ne_void_of_atLine start)
    (next.trans ((within_eq_void ending_ne).mpr rfl)) few

theorem unknown_line (valid : l.Valid) (visible : ¬ l.Hides) (few : v.num < 100)
    (start : AtLine (lineExpr s) (ending s) cs) :
    ∃ cs' v', AtLine (lineExpr s) (ending s) cs' ∧ Passes mem b l.full cs cs' k v v' ∧
      v.Adds v' (l.header (b + k)) := by
  have reads : ∃ v', Goes mem b (lineExpr s) (ending s) [] l.full k v v' ∧ v.Adds v' (l.header (b + k)) :=
    goes_line valid visible few
  obtain ⟨v', goes, adds⟩ := reads
  obtain ⟨cs', inside, passes⟩ := goes cs (.inl ⟨rfl, start⟩)
  refine ⟨cs', v', ?_, passes, adds⟩
  obtain ⟨miss, left⟩ := left_unknown (s := s) valid visible
  have ne : l.full ≠ [] := by simp [Line.full]
  obtain ⟨nil, -⟩ | ⟨-, rfl⟩ := inside
  · exact absurd nil ne
  · have known : derivs l.full (guarded (knownText.stamp s.known).1 crlf) = void := by
      obtain ⟨cr, -, -⟩ := valid.free
      have split := l.full_eq
      rw [split, derivs_append, (known_cr cr).2 fun matched => visible (l.hides_of_matches valid matched)]
      rfl
    rw [List.nil_append, lineExpr, derivs_alt ne, known, or_void_left, left]
    exact atLine_within (spent_without miss) rfl fun c => line_tidy

end Hidden

end Conet.Base.HttpHeaders
