/- Module: Conet/Base/HttpHead
   source: base/src/http_parser.rl
   digest: When the http parser reads the head of a request as its header lines are written. -/

import Conet.Base.HttpHeaders
import Conet.Base.HttpOrigin

set_option autoImplicit false
set_option relaxedAutoImplicit false

namespace Conet.Base.HttpHead

open Conet.Lib Conet.Lib.Ragel Conet.Lib.Ragel.Machine Conet.Base.HttpParser
open Conet.Base.HttpTrace Conet.Base.HttpLines Conet.Base.HttpKnown Conet.Base.HttpHeaders
open Conet.Base.HttpOrigin (blank)

/-- The head of a request, without its request line. -/
def headText (lines : List Line) : List UInt8 := lines.flatMap Line.full ++ [13, 10]

/-- The pairs in `headers[]`. -/
def pairs (mem : ℤ → UInt8) (v : View) : List (List UInt8 × List UInt8) :=
  (List.range v.num).map fun i => ((v.headers i).name.bytes mem, (v.headers i).value.bytes mem)

/-- The parser accepts the head, and `headers[]` are the lines whose names are not known. -/
structure Reads (mem : ℤ → UInt8) (parser parser' : HttpRequest) (lines : List Line) : Prop where
  finished : httpRequestIsFinished parser' = true
  err : parser'.num .errTooManyHeader = parser.num .errTooManyHeader
  headers : pairs mem (view parser') =
    (lines.filter fun l => ¬ l.Known).map fun l => (l.name, l.value)

/-- The condition on a line: it is a known header, or it has another name, a value that is not empty,
and no known header in it, and its lengths fit into the `len` of a `ref_str_t`. -/
def Good (l : Line) : Prop :=
  l.Matches ∨
    ¬ l.Known ∧ ¬ l.Hides ∧ l.value ≠ [] ∧ l.name.length < 4294967296 ∧ l.value.length < 4294967296

/-- The pair that a line gives which is not a known header. -/
def entry (l : Line) : List UInt8 × List UInt8 :=
  let value := if l.value = [] then [32] else l.value
  (l.name.take (l.name.length % 4294967296), value.take (value.length % 4294967296))

section Entries

variable {mem : ℤ → UInt8} {p : ℤ} {l : Line} {v v' : View} {lines : List Line}

theorem initRefStr_add (p : ℤ) (i n : ℕ) : initRefStr (p + i) (p + (i + n : ℕ)) = ⟨n % 4294967296, p + i⟩ := by
  rw [initRefStr]
  congr 1
  push_cast
  omega

theorem pairs_keeps (keeps : v.Keeps v') : pairs mem v' = pairs mem v := by
  rw [pairs, pairs, keeps.num]
  apply List.map_congr_left
  intro i hi
  rw [keeps.headers i (List.mem_range.mp hi)]

theorem pairs_adds {hd : Header} (adds : v.Adds v' hd) :
    pairs mem v' = pairs mem v ++ [(hd.name.bytes mem, hd.value.bytes mem)] := by
  rw [pairs, pairs, adds.num, List.range_succ, List.map_append]
  congr 1
  · apply List.map_congr_left
    intro i hi
    rw [adds.headers i (List.mem_range.mp hi)]
  · rw [List.map_singleton, adds.last]

/-- Where a line stands in memory, the header it gives is its entry. -/
theorem header_entry (there : slice mem p l.full.length = l.full) :
    ((l.header p).name.bytes mem, (l.header p).value.bytes mem) = entry l := by
  have two : (codes ": ").length = 2 := rfl
  have total : l.full.length = l.name.length + 2 + l.value.length + 2 := by
    simp [Line.full, Line.text, two]
    omega
  have part : ∀ i n, i + n ≤ l.full.length → slice mem (p + i) n = (l.full.drop i).take n := by
    intro i n le
    rw [slice_part mem p le, there]
  rw [entry, Prod.mk.injEq]
  constructor
  · have ref : (l.header p).name = ⟨l.name.length % 4294967296, p + (0 : ℕ)⟩ := by
      rw [← initRefStr_add]
      simp [Line.header]
    have le := Nat.mod_le l.name.length 4294967296
    rw [ref, RefStr.bytes, part 0 _ (by simp only [total]; omega), List.drop_zero, Line.full, Line.text,
      List.append_assoc, List.append_assoc, List.take_append_of_le_length le]
  · cases eq : l.value with
    | nil =>
      have ref : (l.header p).value = ⟨1, p + (l.name.length + 1 : ℕ)⟩ := by
        have cast := initRefStr_add p (l.name.length + 1) 1
        rw [Line.header, Line.text, eq, if_pos rfl, List.append_nil, List.length_append, two]
        exact cast
      rw [ref, RefStr.bytes, part _ 1 (by rw [total]; omega), Line.full, Line.text, eq]
      simp [codes]
    | cons c w =>
      have ne : l.value ≠ [] := by
        rw [eq]
        simp
      have le := Nat.mod_le l.value.length 4294967296
      have ref : (l.header p).value = ⟨l.value.length % 4294967296, p + (l.name.length + 2 : ℕ)⟩ := by
        have cast := initRefStr_add p (l.name.length + 2) l.value.length
        rw [Line.header, Line.text, if_neg ne, List.length_append, List.length_append, two]
        exact cast
      have behind : l.full.drop (l.name.length + 2) = l.value ++ [13, 10] := by
        have front : (l.name ++ codes ": ").length = l.name.length + 2 := by
          rw [List.length_append, two]
        rw [Line.full, Line.text, List.append_assoc, ← front, List.drop_left']
        rfl
      rw [ref, RefStr.bytes, part _ _ (by simp only [total]; omega), behind,
        List.take_append_of_le_length le, ← eq, if_neg ne]

theorem entry_iff : entry l = (l.name, l.value) ↔
    l.value ≠ [] ∧ l.name.length < 4294967296 ∧ l.value.length < 4294967296 := by
  have whole : ∀ w : List UInt8, w.take (w.length % 4294967296) = w ↔ w.length < 4294967296 := by
    intro w
    rw [List.take_eq_self_iff]
    omega
  rw [entry, Prod.mk.injEq, whole]
  by_cases empty : l.value = []
  · simp [empty]
  · rw [if_neg empty, whole]
    tauto

theorem filter_map_eq_iff {α β : Type} {P Q : α → Prop} [DecidablePred P] [DecidablePred Q] {f g : α → β}
    {xs : List α} (more : ∀ x, Q x → P x) :
    (xs.filter fun x => P x).map f = (xs.filter fun x => Q x).map g ↔
      ∀ x ∈ xs, (P x → Q x) ∧ (Q x → f x = g x) := by
  induction xs with
  | nil => simp
  | cons x xs ih =>
    rw [List.forall_mem_cons, ← ih]
    by_cases hq : Q x
    · simp [hq, more x hq]
    · by_cases hp : P x
      · simp only [List.filter_cons, hp, hq, decide_true, decide_false, if_true, List.map_cons]
        refine iff_of_false ?_ (by simp)
        intro same
        have fewer : (xs.filter fun x => Q x).length ≤ (xs.filter fun x => P x).length := by
          apply List.Sublist.length_le
          apply List.monotone_filter_right
          intro y hy
          simpa using more y (by simpa using hy)
        have count := congrArg List.length same
        simp at count
        omega
      · simp [hq, hp]

end Entries

section Requests

variable {mem : ℤ → UInt8} {b : ℤ} {s : Stamps} {m k num : ℕ} {req rest : List UInt8} {c : UInt8}
  {v : View} {cs : Expr} {l : Line} {lines : List Line}

/-- The start of the parser, with the parts of a request. -/
theorem start_eq : ∃ s m, httpRequestStart =
    alt (cat (requestLine.stamp 0).1 (body (lineExpr s) (ending s))) (response.stamp m).1 :=
  ⟨⟨_, _, _, _, _, _⟩, _, rfl⟩

theorem requestLine_trimmed : requestLine.trimmed = true := by decide

theorem requestLine_closes : (requestLine.stamp 0).1.closes 10 = true := by decide

theorem requestLine_quiet : (requestLine.stamp 0).1.quiet header = true := by decide

theorem statusLine_trimmed : statusLine.trimmed = true := by decide

/-- No byte starts a request line and a status line. -/
theorem first_bytes : ∀ n < 256, requestLine.deriv (UInt8.ofNat n) = void ∨
    statusLine.deriv (UInt8.ofNat n) = void := by
  apply forall_bytes_of_quarters <;> decide +kernel

theorem response_off (listed : c :: req ∈ requestLine.lang) :
    (response.stamp m).1.deriv c = void ∧ (response.stamp m).1.acts c = [] := by
  have status : statusLine.deriv c = void := by
    have either := first_bytes c.toNat c.toNat_lt
    rw [UInt8.ofNat_toNat] at either
    apply either.resolve_left
    intro dead
    rw [cons_mem_lang, dead, lang_void] at listed
    exact Language.notMem_zero _ listed
  have dead := (deriv_stamp statusLine_trimmed m).mpr status
  have quiet := acts_of_deriv_void (by rw [trimmed_stamp, statusLine_trimmed]) dead
  have stays : (statusLine.stamp m).1.nullable = false := by
    rw [← Bool.not_eq_true, ← nil_mem_lang, lang_stamp statusLine_trimmed, nil_mem_lang]
    exact nofun
  obtain ⟨rest, form⟩ : ∃ rest, (response.stamp m).1 = cat (statusLine.stamp m).1 rest := ⟨_, rfl⟩
  rw [form, Machine.deriv, acts, dead, quiet, stays]
  exact ⟨rfl, rfl⟩

theorem deriv_alt_off {x y : Expr} (off : y.deriv c = void) : (alt x y).deriv c = x.deriv c := by
  rw [Machine.deriv, off, or_void_right]

/-- The request line is read without effect on headers. -/
theorem request_passes (listed : req ∈ requestLine.lang) (few : v.num < 100) :
    ∃ s cs v', AtLine (lineExpr s) (ending s) cs ∧ Passes mem b req httpRequestStart cs k v v' ∧
      v.Keeps v' := by
  obtain ⟨s, m, start⟩ := start_eq
  set rl := (requestLine.stamp 0).1 with hrl
  have trim : rl.trimmed = true := by rw [hrl, trimmed_stamp, requestLine_trimmed]
  have mem' : req ∈ rl.lang := by rwa [hrl, lang_stamp requestLine_trimmed]
  have stays : ∀ u t, u ++ t = req → t ≠ [] → u ∉ rl.lang := by
    rintro u t rfl ne first
    exact ne (closes_proper requestLine_closes first mem')
  obtain ⟨c, w, rfl⟩ : ∃ c w, req = c :: w := by
    cases req with
    | nil => exact absurd mem' (by rw [nil_mem_lang]; decide)
    | cons c w => exact ⟨c, w, rfl⟩
  obtain ⟨off, still⟩ := response_off (m := m) listed
  have first : httpRequestStart.deriv c = (cat rl (body (lineExpr s) (ending s))).deriv c := by
    rw [start]
    exact deriv_alt_off off
  -- before the end of the request line the headers have not begun
  have state : ∀ u t, u ++ t = c :: w → u ≠ [] →
      derivs u httpRequestStart = seq (derivs u rl) (body (lineExpr s) (ending s)) := by
    intro u t parts ne
    obtain ⟨c', u, rfl⟩ := List.exists_cons_of_ne_nil ne
    obtain ⟨rfl, rest⟩ := List.cons_eq_cons.mp parts
    rw [derivs_cons, first, ← derivs_cons]
    apply derivs_cat (by simp)
    intro p q same some
    apply stays p (q ++ t)
    · rw [← List.append_assoc, same]
      exact congrArg (List.cons c') rest
    · simp [some]
  have ends := state (c :: w) [] (by simp) (by simp)
  have spent := spent_derivs trim requestLine_closes mem'
  have live : derivs (c :: w) httpRequestStart ≠ void := by
    rw [ends, Ne, seq_eq_void (by simp [body])]
    intro dead
    have null := spent.nullable
    rw [dead] at null
    cases null
  have opens : Open (c :: w) httpRequestStart := by
    intro u c' t parts _ e he
    have calm : header e.2 = false := by
      cases u with
      | nil =>
        obtain ⟨rfl, -⟩ := List.cons_eq_cons.mp parts
        have null : rl.nullable ≠ true := stays [] (c :: w) rfl (by simp)
        rw [derivs_nil, start, acts, still, acts, if_neg (by simp [null]), List.append_nil,
          List.append_nil] at he
        exact quiet_acts requestLine_quiet e he
      | cons d u =>
        have null : (derivs (d :: u) rl).nullable = false := by
          rw [← Bool.not_eq_true, ← mem_lang]
          exact stays _ (c' :: t) parts.symm (by simp)
        rw [state (d :: u) (c' :: t) parts.symm (by simp), acts_seq null] at he
        exact quiet_acts (quiet_derivs requestLine_quiet _) e he
    constructor
    · intro value
      rw [value] at calm
      cases calm
    · intro done
      rw [done] at calm
      cases calm
  have reads : ∃ v', Passes mem b (c :: w) httpRequestStart (derivs (c :: w) httpRequestStart) k v v' ∧
      v.Keeps v' := passes_open opens live few
  obtain ⟨v', passes, keeps⟩ := reads
  refine ⟨s, _, v', ?_, passes, keeps⟩
  rw [ends]
  exact atLine_seq spent (quiet_out (quiet_derivs requestLine_quiet _))

section Lines

/-- The line can be read: it does not only hide a known header. -/
def Clear (l : Line) : Prop := l.Hides → l.Matches

/-- A line that can be read, and the pair it gives. -/
theorem line_pass (valid : l.Valid) (clear : Clear l) (few : v.num < 100)
    (there : slice mem (b + k) l.full.length = l.full) (start : AtLine (lineExpr s) (ending s) cs) :
    ∃ cs' v', AtLine (lineExpr s) (ending s) cs' ∧ Passes mem b l.full cs cs' k v v' ∧
      v'.num ≤ v.num + 1 ∧
      pairs mem v' = pairs mem v ++ ([l].filter fun l => ¬ l.Matches).map entry := by
  by_cases hides : l.Hides
  · have matched := clear hides
    have reads : ∃ cs' v', AtLine (lineExpr s) (ending s) cs' ∧ Passes mem b l.full cs cs' k v v' ∧
        v.Keeps v' := known_line valid (valid.matches_iff.mpr matched) few start
    obtain ⟨cs', v', next, passes, keeps⟩ := reads
    refine ⟨cs', v', next, passes, ?_, ?_⟩
    · rw [keeps.num]
      omega
    · rw [pairs_keeps keeps, List.filter_cons_of_neg (by simpa using matched)]
      simp
  · have other : ¬ l.Matches := fun matched =>
      hides (l.hides_of_matches valid (valid.matches_iff.mpr matched))
    have reads : ∃ cs' v', AtLine (lineExpr s) (ending s) cs' ∧ Passes mem b l.full cs cs' k v v' ∧
        v.Adds v' (l.header (b + k)) := unknown_line valid hides few start
    obtain ⟨cs', v', next, passes, adds⟩ := reads
    refine ⟨cs', v', next, passes, ?_, ?_⟩
    · rw [adds.num]
    · rw [pairs_adds adds, header_entry there, List.filter_cons_of_pos (by simpa using other)]
      rfl

theorem lines_pass (valid : ∀ l ∈ lines, l.Valid) (clear : ∀ l ∈ lines, Clear l)
    (few : v.num + lines.length ≤ 100)
    (there : slice mem (b + k) (lines.flatMap Line.full).length = lines.flatMap Line.full)
    (start : AtLine (lineExpr s) (ending s) cs) :
    ∃ cs' v', AtLine (lineExpr s) (ending s) cs' ∧ Passes mem b (lines.flatMap Line.full) cs cs' k v v' ∧
      pairs mem v' = pairs mem v ++ (lines.filter fun l => ¬ l.Matches).map entry := by
  induction lines generalizing cs k v with
  | nil => exact ⟨cs, v, start, .nil, by simp⟩
  | cons l lines ih =>
    rw [List.forall_mem_cons] at valid clear
    rw [List.length_cons] at few
    rw [List.flatMap_cons, List.length_append, slice_add] at there
    obtain ⟨here, rest⟩ := List.append_inj there (slice_length _ _ _)
    obtain ⟨cs₁, v₁, start₁, passes₁, num, one⟩ :=
      line_pass (v := v) valid.1 clear.1 (by omega) here start
    rw [add_assoc, ← Nat.cast_add] at rest
    obtain ⟨cs', v', start', passes', more⟩ := ih (v := v₁) valid.2 clear.2 (by omega) rest start₁
    refine ⟨cs', v', start', ?_, ?_⟩
    · rw [List.flatMap_cons]
      exact passes₁.append passes'
    · rw [more, one, List.append_assoc, ← List.map_append, ← List.filter_append]
      rfl

/-- With a line that cannot be read, the parser ends in the error state. -/
theorem lines_dead (valid : ∀ l ∈ lines, l.Valid) (bad : ∃ l ∈ lines, ¬ Clear l)
    (few : num + lines.length ≤ 100) (start : AtLine (lineExpr s) (ending s) cs) :
    (scan (lines.flatMap Line.full ++ rest) k cs num).state = void := by
  induction lines generalizing cs k num with
  | nil => simp at bad
  | cons l lines ih =>
    rw [List.forall_mem_cons] at valid
    rw [List.length_cons] at few
    rw [List.flatMap_cons, List.append_assoc]
    by_cases clear : Clear l
    · have later : ∃ l ∈ lines, ¬ Clear l := by
        obtain ⟨l', mem', dead⟩ := bad
        obtain rfl | mem' := List.mem_cons.mp mem'
        · exact absurd clear dead
        · exact ⟨l', mem', dead⟩
      -- a memory in which the line stands
      have there : slice (write (fun _ => 0) (0 + k) l.full) (0 + k) l.full.length = l.full :=
        slice_write _ _ _
      obtain ⟨cs', v', next, passes, count, -⟩ := line_pass (v := ⟨0, 0, num, fun _ => ⟨⟨0, 0⟩, ⟨0, 0⟩⟩⟩)
        valid.1 clear (by simp only; omega) there start
      rw [passes.state]
      simp only at count
      exact ih valid.2 later (by omega) next
    · simp only [Clear, Classical.not_imp] at clear
      exact hidden_line valid.1 clear.1 (mt valid.1.matches_iff.mp clear.2) (by omega) start

theorem lineExpr_cr : (lineExpr s).deriv 13 = void := by
  have known : (knownText.stamp s.known).1.deriv 13 = void :=
    (deriv_stamp (by decide) s.known).mpr (by decide)
  have more : (knownText.stamp s.known).1.nullable = false := rfl
  have first : (guarded (knownText.stamp s.known).1 crlf).deriv 13 = void := by
    rw [Machine.deriv, if_neg fun here => absurd (more.symm.trans here.1) (by decide), if_pos known]
  have second : (without hider (guarded (unknownText s) crlf)).deriv 13 = void := rfl
  rw [lineExpr, Machine.deriv, first, second, or_void_left]

theorem ends_pass (start : AtLine (lineExpr s) (ending s) cs) :
    (scan ([13, 10] ++ rest) k cs v.num).state.nullable = true ∧
      (scan ([13, 10] ++ rest) k cs v.num).stop = .done ∧
      ∀ r, view r = v → view (replay mem b (scan ([13, 10] ++ rest) k cs v.num).acts r) = v := by
  have next : (body (lineExpr s) (ending s)).deriv 13 = finishing s.done .done feed := by
    rw [body, Machine.deriv, Machine.deriv, lineExpr_cr]
    rfl
  have live : cs.deriv 13 ≠ void := by
    rw [start.deriv, next]
    intro h
    cases h
  have silent : (body (lineExpr s) (ending s)).acts 13 = [] := by
    have lines : (star (lineExpr s)).acts 13 = [] := line_tidy lineExpr_cr
    rw [body, acts, lines]
    rfl
  have only : Only cs 13 none := by
    have some : (body (lineExpr s) (ending s)).deriv 13 ≠ void := by
      rw [next]
      intro h
      cases h
    refine ⟨fun e he about => ?_, fun x hx => by cases hx⟩
    rw [start.acts 13 some e about, silent] at he
    cases he
  have calm : Passes mem b [13] cs (cs.deriv 13) k v v := passes_calm live only
  obtain ⟨es, eq, same⟩ := calm (10 :: rest)
  rw [start.deriv, next] at eq
  have last : scan (10 :: rest) (k + 1) (finishing s.done .done feed) v.num =
      ⟨[(.done, k + 1)], k + 2, finishing s.done .done eps, v.num, .done⟩ := rfl
  rw [List.length_singleton, last] at eq
  change scan ([13] ++ 10 :: rest) k cs v.num = _ at eq
  rw [List.cons_append, List.singleton_append, ← List.singleton_append, eq]
  refine ⟨rfl, rfl, fun r hr => ?_⟩
  rw [replay_append]
  exact same r hr

end Lines

end Requests

theorem good_iff {l : Line} : Good l ↔ Clear l ∧ (¬ l.Matches → ¬ l.Known) ∧
    (¬ l.Known → entry l = (l.name, l.value)) := by
  rw [entry_iff, Good, Clear]
  by_cases matched : l.Matches
  · simp [matched, matched.known]
  · simp only [matched, false_or, imp_false, not_false_eq_true, true_implies]
    tauto

section Heads

variable {mem : ℤ → UInt8} {buffer : ℤ} {r parser : HttpRequest} {req rest : List UInt8} {lines : List Line}

theorem head_parts : req ++ headText lines ++ rest =
    req ++ (lines.flatMap Line.full ++ ([13, 10] ++ rest)) := by
  simp [headText]

/-- A head whose lines can be read is read to its end. -/
theorem clear_scan (listed : req ∈ requestLine.lang) (few : lines.length < 100)
    (valid : ∀ l ∈ lines, l.Valid) (clear : ∀ l ∈ lines, Clear l) (zero : r.headersNum = 0)
    (there : slice mem buffer (req ++ headText lines ++ rest).length = req ++ headText lines ++ rest) :
    (scan (req ++ headText lines ++ rest) 0 httpRequestStart r.headersNum).state.nullable = true ∧
      (scan (req ++ headText lines ++ rest) 0 httpRequestStart r.headersNum).stop = .done ∧
      pairs mem (view (replay mem buffer
        (scan (req ++ headText lines ++ rest) 0 httpRequestStart r.headersNum).acts r)) =
          (lines.filter fun l => ¬ l.Matches).map entry := by
  have begins : ∃ s cs v, AtLine (lineExpr s) (ending s) cs ∧
      Passes mem buffer req httpRequestStart cs 0 (view r) v ∧ (view r).Keeps v :=
    request_passes listed (by simp [view, zero])
  obtain ⟨s, cs, v, start, passes, keeps⟩ := begins
  have none : v.num = 0 := keeps.num.trans zero
  rw [head_parts] at there ⊢
  have here : slice mem (buffer + (0 + req.length : ℕ)) (lines.flatMap Line.full).length =
      lines.flatMap Line.full := by
    rw [List.length_append, slice_add] at there
    have behind := (List.append_inj there (slice_length _ _ _)).2
    rw [List.length_append, slice_add] at behind
    rw [zero_add]
    exact (List.append_inj behind (slice_length _ _ _)).1
  obtain ⟨cs', v', start', passes', read⟩ := lines_pass (v := v) valid clear (by omega) here start
  set k := 0 + (req ++ lines.flatMap Line.full).length
  have ends : (scan ([13, 10] ++ rest) k cs' v'.num).state.nullable = true ∧
      (scan ([13, 10] ++ rest) k cs' v'.num).stop = .done ∧ ∀ r, view r = v' →
        view (replay mem buffer (scan ([13, 10] ++ rest) k cs' v'.num).acts r) = v' := ends_pass start'
  obtain ⟨final, stop, still⟩ := ends
  obtain ⟨es, whole, effect⟩ := (passes.append passes') ([13, 10] ++ rest)
  have empty : pairs mem v = [] := by
    rw [pairs, none]
    rfl
  rw [empty, List.nil_append] at read
  change scan _ _ _ r.headersNum = _ at whole
  rw [← List.append_assoc, whole]
  refine ⟨final, stop, ?_⟩
  rw [replay_append, still _ (effect r rfl), read]

/-- A head with a line that cannot be read leads into the error state. -/
theorem dead_scan (listed : req ∈ requestLine.lang) (few : lines.length < 100)
    (valid : ∀ l ∈ lines, l.Valid) (bad : ∃ l ∈ lines, ¬ Clear l) :
    (scan (req ++ headText lines ++ rest) 0 httpRequestStart 0).state = void := by
  set v₀ : View := ⟨0, 0, 0, fun _ => ⟨⟨0, 0⟩, ⟨0, 0⟩⟩⟩ with hv
  have begins : ∃ s cs v, AtLine (lineExpr s) (ending s) cs ∧
      Passes (fun _ => 0) 0 req httpRequestStart cs 0 v₀ v ∧ v₀.Keeps v :=
    request_passes listed (by simp [hv])
  obtain ⟨s, cs, v, start, passes, keeps⟩ := begins
  have none : v.num = 0 := keeps.num
  rw [head_parts, passes.state]
  exact lines_dead valid bad (by omega) start

theorem parse_head {text : List UInt8} (there : slice mem buffer text.length = text) :
    (httpRequestParse (httpRequestInit parser) mem buffer text.length 0).2 =
      { replay mem buffer (scan text 0 httpRequestStart 0).acts (httpRequestInit parser) with
        status := (scan text 0 httpRequestStart 0).state
        nread := (scan text 0 httpRequestStart 0).pos } := by
  have scanned : scan text 0 httpRequestStart 0 = scan (slice mem (buffer + (0 : ℕ)) (text.length - 0)) 0
      (httpRequestInit parser).status (httpRequestInit parser).headersNum := by
    rw [Nat.sub_zero, Nat.cast_zero, add_zero, there]
    rfl
  rw [parse_eq (Nat.zero_le _) _ scanned]
  simp [httpRequestInit]

/-- A line that cannot be read makes the parser reject the head. -/
theorem dead_reads (listed : req ∈ requestLine.lang) (few : lines.length < 100)
    (valid : ∀ l ∈ lines, l.Valid) (bad : ∃ l ∈ lines, ¬ Clear l)
    (there : slice mem buffer (req ++ headText lines ++ rest).length = req ++ headText lines ++ rest) :
    ¬ Reads mem parser (httpRequestParse (httpRequestInit parser) mem buffer
      (req ++ headText lines ++ rest).length 0).2 lines := by
  intro reads
  have final := reads.finished
  rw [parse_head there, dead_scan listed few valid bad] at final
  cases final

/-- The parser reads the head of a request as its lines are written exactly if every line is one of
those for which its grammar is made. -/
theorem reads_iff (listed : req ∈ requestLine.lang) (few : lines.length < 100)
    (valid : ∀ l ∈ lines, l.Valid)
    (there : slice mem buffer (req ++ headText lines ++ rest).length = req ++ headText lines ++ rest) :
    Reads mem parser (httpRequestParse (httpRequestInit parser) mem buffer
      (req ++ headText lines ++ rest).length 0).2 lines ↔ ∀ l ∈ lines, Good l := by
  by_cases clear : ∀ l ∈ lines, Clear l
  · have start : (httpRequestInit parser).headersNum = 0 := rfl
    obtain ⟨final, stop, read⟩ := clear_scan listed few valid clear start there
    rw [start] at final stop read
    calc Reads mem parser _ lines
      _ ↔ (lines.filter fun l => ¬ l.Matches).map entry =
          (lines.filter fun l => ¬ l.Known).map fun l => (l.name, l.value) := by
        rw [← read, parse_head there]
        refine ⟨fun reads => reads.headers, fun same => ⟨final, ?_, same⟩⟩
        apply replay_err (r := httpRequestInit parser)
        rw [start, stop]
        exact nofun
      _ ↔ ∀ l ∈ lines, (¬ l.Matches → ¬ l.Known) ∧ (¬ l.Known → entry l = (l.name, l.value)) :=
        filter_map_eq_iff fun l => mt Line.Matches.known
      _ ↔ ∀ l ∈ lines, Good l := by
        apply forall₂_congr
        intro l among
        rw [good_iff, and_iff_right (clear l among)]
  · apply iff_of_false
    · apply dead_reads listed few valid _ there
      simpa using clear
    · intro good
      exact clear fun l among => (good_iff.mp (good l among)).1

end Heads

section Samples

def getLine : List UInt8 := codes "GET / HTTP/1.0\r\n"

theorem getLine_listed : getLine ∈ requestLine.lang := mem_lang.mpr (by decide)

def hostLine : Line := ⟨codes "Host", codes "a"⟩

def otherLine : Line := ⟨codes "X", codes "y"⟩

def forwardedLine : Line := ⟨codes "X-Host", codes "a"⟩

theorem valid_of_all {l : Line} (name : l.name ≠ []) (tokens : l.name.all token.has = true)
    (value : l.value.all (fun c => c != 13 && c != 10) = true) (first : l.value.head? ≠ some 32) :
    l.Valid := by
  refine ⟨name, List.all_eq_true.mp tokens, fun c hc => ?_, first⟩
  have plain := List.all_eq_true.mp value c hc
  simpa using plain

theorem hostLine_valid : hostLine.Valid :=
  valid_of_all (by decide) (by decide) (by decide) (by decide)

theorem otherLine_valid : otherLine.Valid :=
  valid_of_all (by decide) (by decide) (by decide) (by decide)

theorem forwardedLine_valid : forwardedLine.Valid :=
  valid_of_all (by decide) (by decide) (by decide) (by decide)

theorem otherLine_visible : ¬ otherLine.Hides := by
  rw [otherLine.hides_iff otherLine_valid]
  rintro ⟨u, v, eq, hit⟩
  have miss : ∀ n ≤ 5, (derivs ((otherLine.text ++ [13]).take n) hider).nullable = false := by
    decide
  have part : (otherLine.text ++ [13]).take u.length = u := by
    rw [← eq, List.take_left']
    rfl
  have short : u.length ≤ 5 := by
    have total := congrArg List.length eq
    rw [List.length_append] at total
    have five : (otherLine.text ++ [13]).length = 5 := rfl
    omega
  have none := miss u.length short
  rw [part] at none
  rw [mem_lang, none] at hit
  cases hit

theorem forwardedLine_hides : forwardedLine.Hides :=
  ⟨codes "Host: a\r\n", mem_lang.mpr (by decide), codes "X-", [], rfl⟩

/-- The memory with a head at the address 0. -/
def headMem (lines : List Line) : ℤ → UInt8 := write (fun _ => 0) 0 (getLine ++ headText lines ++ [])

/-- A head with a known and with another header. -/
theorem reads_two_lines : Reads (headMem [hostLine, otherLine]) blank
    (httpRequestParse (httpRequestInit blank) (headMem [hostLine, otherLine]) 0
      (getLine ++ headText [hostLine, otherLine] ++ []).length 0).2 [hostLine, otherLine] := by
  have few : [hostLine, otherLine].length < 100 := by decide
  have valid : ∀ l ∈ [hostLine, otherLine], l.Valid := by
    rw [List.forall_mem_cons, List.forall_mem_singleton]
    exact ⟨hostLine_valid, otherLine_valid⟩
  have there : slice (headMem [hostLine, otherLine]) 0
      (getLine ++ headText [hostLine, otherLine] ++ []).length =
        getLine ++ headText [hostLine, otherLine] ++ [] := slice_write _ _ _
  apply (reads_iff getLine_listed few valid there).mpr
  rw [List.forall_mem_cons, List.forall_mem_singleton]
  exact ⟨.inl (by decide), .inr ⟨by decide, otherLine_visible, by decide, by decide, by decide⟩⟩

/-- The head `GET / HTTP/1.0` with the line `X-Host: a` is rejected. -/
theorem forwarded_not_read : getLine ∈ requestLine.lang ∧ forwardedLine.Valid ∧ ¬ forwardedLine.Known ∧
    ¬ Reads (headMem [forwardedLine]) blank
      (httpRequestParse (httpRequestInit blank) (headMem [forwardedLine]) 0
        (getLine ++ headText [forwardedLine] ++ []).length 0).2 [forwardedLine] := by
  have other : ¬ forwardedLine.Known := by decide
  refine ⟨getLine_listed, forwardedLine_valid, other, ?_⟩
  have few : [forwardedLine].length < 100 := by decide
  have valid : ∀ l ∈ [forwardedLine], l.Valid := List.forall_mem_singleton.mpr forwardedLine_valid
  have there : slice (headMem [forwardedLine]) 0 (getLine ++ headText [forwardedLine] ++ []).length =
      getLine ++ headText [forwardedLine] ++ [] := slice_write _ _ _
  apply dead_reads getLine_listed few valid ⟨forwardedLine, by simp, ?_⟩ there
  intro clear
  exact other (clear forwardedLine_hides).known

end Samples

end Conet.Base.HttpHead
