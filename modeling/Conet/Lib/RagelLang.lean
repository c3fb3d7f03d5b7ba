/- Module: Conet/Lib/RagelLang
   source: none (library)
   digest: The strings that a machine reads to an end, operator by operator. -/

import Conet.Lib.Ragel
import Mathlib.Computability.Language

set_option autoImplicit false
set_option relaxedAutoImplicit false

namespace Conet.Lib.Ragel.Machine

open scoped Computability

variable {A : Type} [DecidableEq A] {a b d m : Machine A} {c : UInt8} {w : List UInt8}

section Combine

omit [DecidableEq A] in
theorem nodup_eraseDups [BEq A] [LawfulBEq A] (xs : List A) : xs.eraseDups.Nodup := by
  induction h : xs.length using Nat.strong_induction_on generalizing xs with
  | _ n ih =>
  cases xs with
  | nil => simp
  | cons x xs =>
    rw [List.eraseDups_cons, List.nodup_cons]
    constructor
    · simp
    · refine ih _ ?_ _ rfl
      have le := List.length_filter_le (fun y => !y == x) xs
      rw [← h, List.length_cons]
      omega

theorem nodup_ordered (xs : List (ℕ × A)) : (ordered xs).Nodup := nodup_eraseDups _

@[simp] theorem or_void_left (b : Machine A) : or void b = b := by simp [or]

@[simp] theorem or_void_right (a : Machine A) : or a void = a := by
  unfold or
  split_ifs <;> simp_all

@[simp] theorem or_self (a : Machine A) : or a a = a := by
  unfold or
  split_ifs <;> simp_all

theorem or_eq_void : or a b = void ↔ a = void ∧ b = void := by
  unfold or
  split_ifs <;> simp_all

omit [DecidableEq A] in
@[simp] theorem seq_void (b : Machine A) : seq void b = void := rfl

omit [DecidableEq A] in
@[simp] theorem seq_eps (b : Machine A) : seq eps b = b := rfl

omit [DecidableEq A] in
theorem seq_eq_cat (void : a ≠ void) (eps : a ≠ eps) : seq a b = cat a b := by
  cases a <;> simp_all [seq]

omit [DecidableEq A] in
theorem seq_eq_void (hb : b ≠ void) : seq a b = void ↔ a = void := by
  cases a <;> simp [seq, hb]

omit [DecidableEq A] in
theorem seq_nullable : (seq a b).nullable = (a.nullable && b.nullable) := by
  cases a <;> simp [seq, nullable]

theorem deriv_or : (or a b).deriv c = or (a.deriv c) (b.deriv c) := by
  unfold or
  split_ifs <;> simp_all [deriv, or]

theorem seq_deriv :
    (seq a b).deriv c = or (seq (a.deriv c) b) (if a.nullable then b.deriv c else void) := by
  cases a <;> simp [seq, deriv, nullable]

theorem mem_acts_or {e : ℕ × A} : e ∈ (or a b).acts c ↔ e ∈ a.acts c ∨ e ∈ b.acts c := by
  unfold or
  split_ifs <;> simp_all [acts]

theorem acts_seq (stays : a.nullable = false) : (seq a b).acts c = a.acts c := by
  cases a <;> simp_all [seq, acts, nullable]

end Combine

/-- What remains to be read after a text. -/
def derivs (w : List UInt8) (m : Machine A) : Machine A := w.foldl (fun m c => m.deriv c) m

@[simp] theorem derivs_nil : derivs [] m = m := rfl

@[simp] theorem derivs_cons : derivs (c :: w) m = derivs w (m.deriv c) := rfl

theorem derivs_append (u v : List UInt8) : derivs (u ++ v) m = derivs v (derivs u m) :=
  List.foldl_append

@[simp] theorem derivs_void (w : List UInt8) : derivs w (void : Machine A) = void := by
  induction w with
  | nil => rfl
  | cons c w ih => exact ih

theorem derivs_or (w : List UInt8) : derivs w (or a b) = or (derivs w a) (derivs w b) := by
  induction w generalizing a b with
  | nil => rfl
  | cons c w ih => rw [derivs_cons, deriv_or, ih, derivs_cons, derivs_cons]

theorem derivs_alt (ne : w ≠ []) : derivs w (alt a b) = or (derivs w a) (derivs w b) := by
  obtain ⟨c, w, rfl⟩ := List.exists_cons_of_ne_nil ne
  rw [derivs_cons, deriv, derivs_or, derivs_cons, derivs_cons]

theorem mem_acts_derivs_alt {e : ℕ × A} :
    e ∈ (derivs w (alt a b)).acts c ↔ e ∈ (derivs w a).acts c ∨ e ∈ (derivs w b).acts c := by
  by_cases ne : w = []
  · rw [ne, derivs_nil, acts, List.mem_append]
    rfl
  · rw [derivs_alt ne, mem_acts_or]

/-- The strings that a machine reads to an end. -/
def lang (m : Machine A) : Language UInt8 := {w | (derivs w m).nullable = true}

section Language

theorem mem_lang : w ∈ m.lang ↔ (derivs w m).nullable = true := Iff.rfl

theorem nil_mem_lang : [] ∈ m.lang ↔ m.nullable = true := Iff.rfl

theorem cons_mem_lang : c :: w ∈ m.lang ↔ w ∈ (m.deriv c).lang := Iff.rfl

theorem append_mem_lang {u v : List UInt8} : u ++ v ∈ m.lang ↔ v ∈ (derivs u m).lang := by
  rw [mem_lang, derivs_append, mem_lang]

@[simp] theorem lang_void : (void : Machine A).lang = 0 := by
  ext w
  simp [mem_lang, nullable]

theorem lang_or : (or a b).lang = a.lang + b.lang := by
  ext w
  rw [mem_lang, derivs_or, nullable_or, Bool.or_eq_true]
  rfl

theorem lang_alt : (alt a b).lang = a.lang + b.lang := by
  ext w
  cases w with
  | nil =>
    rw [nil_mem_lang, nullable, Bool.or_eq_true]
    rfl
  | cons c w =>
    rw [cons_mem_lang, deriv, lang_or]
    rfl

@[simp] theorem lang_eps : (eps : Machine A).lang = 1 := by
  ext w
  cases w <;> simp [mem_lang, nullable, deriv]

theorem mem_lang_sym {k : ByteClass} : w ∈ (sym k : Machine A).lang ↔ ∃ c, k.has c = true ∧ w = [c] := by
  cases w with
  | nil => simp [mem_lang, nullable]
  | cons c w =>
    rw [cons_mem_lang, deriv]
    split_ifs with has
    · rw [lang_eps, Language.mem_one]
      constructor
      · rintro rfl
        exact ⟨c, has, rfl⟩
      · rintro ⟨c', -, eq⟩
        exact (List.cons_eq_cons.mp eq).2
    · simp only [lang_void, Language.notMem_zero, false_iff]
      rintro ⟨c', has', eq⟩
      obtain ⟨rfl, -⟩ := List.cons_eq_cons.mp eq
      exact has has'

theorem cons_mem_mul {l l' : Language UInt8} : c :: w ∈ l * l' ↔
    (∃ u v, c :: u ∈ l ∧ v ∈ l' ∧ u ++ v = w) ∨ [] ∈ l ∧ c :: w ∈ l' := by
  rw [Language.mem_mul]
  constructor
  · rintro ⟨u, hu, v, hv, eq⟩
    cases u with
    | nil => exact .inr ⟨hu, eq ▸ hv⟩
    | cons c' u =>
      obtain ⟨rfl, rfl⟩ := List.cons_eq_cons.mp eq
      exact .inl ⟨u, v, hu, hv, rfl⟩
  · rintro (⟨u, v, hu, hv, rfl⟩ | ⟨hnil, h⟩)
    · exact ⟨c :: u, hu, v, hv, rfl⟩
    · exact ⟨[], hnil, c :: w, h, rfl⟩

theorem lang_seq : (seq a b).lang = a.lang * b.lang := by
  ext w
  induction w generalizing a with
  | nil =>
    rw [nil_mem_lang, seq_nullable, Bool.and_eq_true, Language.mem_mul]
    constructor
    · rintro ⟨ha, hb⟩
      exact ⟨[], ha, [], hb, rfl⟩
    · rintro ⟨u, hu, v, hv, eq⟩
      obtain ⟨rfl, rfl⟩ := List.append_eq_nil_iff.mp eq
      exact ⟨hu, hv⟩
  | cons c w ih =>
    rw [cons_mem_lang, seq_deriv, lang_or, Language.mem_add, ih, cons_mem_mul, Language.mem_mul]
    apply or_congr
    · constructor
      · rintro ⟨u, hu, v, hv, eq⟩
        exact ⟨u, v, hu, hv, eq⟩
      · rintro ⟨u, v, hu, hv, eq⟩
        exact ⟨u, hu, v, hv, eq⟩
    · rw [nil_mem_lang]
      split_ifs with null <;> simp [null, cons_mem_lang]

theorem lang_cat : (cat a b).lang = a.lang * b.lang := by
  rw [← lang_seq]
  ext w
  cases w with
  | nil => rw [nil_mem_lang, nil_mem_lang, seq_nullable, nullable]
  | cons c w => rw [cons_mem_lang, cons_mem_lang, seq_deriv, deriv]

theorem lang_star : (star a).lang = a.lang∗ := by
  ext w
  induction h : w.length using Nat.strong_induction_on generalizing w with
  | _ n ih =>
  subst h
  cases w with
  | nil => simp [nil_mem_lang, nullable, Language.nil_mem_kstar]
  | cons c w =>
    rw [cons_mem_lang, deriv, lang_seq, Language.mem_mul]
    constructor
    · rintro ⟨u, hu, v, hv, rfl⟩
      rw [← Language.one_add_self_mul_kstar_eq_kstar, Language.mem_add]
      have rest : v ∈ a.lang∗ := (ih v.length (by rw [List.length_cons, List.length_append]; omega) v rfl).mp hv
      exact .inr (Language.append_mem_mul (a := c :: u) hu rest)
    · intro h
      obtain ⟨S, eq, parts⟩ := Language.mem_kstar_iff_exists_nonempty.mp h
      cases S with
      | nil => simp at eq
      | cons y S =>
        obtain ⟨hy, ne⟩ := parts y (by simp)
        obtain ⟨c', u, rfl⟩ := List.exists_cons_of_ne_nil ne
        obtain ⟨rfl, rfl⟩ := List.cons_eq_cons.mp eq
        have rest : S.flatten ∈ a.lang∗ := Language.join_mem_kstar fun y hy => (parts y (by simp [hy])).1
        have less : S.flatten.length < (c :: (u ++ S.flatten)).length := by
          rw [List.length_cons, List.length_append]
          omega
        exact ⟨u, hy, S.flatten, (ih S.flatten.length less _ rfl).mpr rest, rfl⟩

@[simp] theorem lang_entering {t : ℕ} {x : A} : (entering t x a).lang = a.lang := by
  ext w
  cases w <;> rfl

@[simp] theorem lang_leaving {t : ℕ} {x : A} : (leaving t x a).lang = a.lang := by
  ext w
  induction w generalizing a with
  | nil => rfl
  | cons c w ih =>
    rw [cons_mem_lang, cons_mem_lang, deriv]
    split_ifs with stop
    · rw [stop]
    · exact ih

@[simp] theorem lang_finishing {t : ℕ} {x : A} : (finishing t x a).lang = a.lang := by
  ext w
  induction w generalizing a with
  | nil => rfl
  | cons c w ih =>
    rw [cons_mem_lang, cons_mem_lang, deriv]
    split_ifs with stop
    · rw [stop]
    · exact ih

end Language

section Contexts

theorem derivs_seq (stays : ∀ u v, u ++ v = w → v ≠ [] → u ∉ a.lang) :
    derivs w (seq a b) = seq (derivs w a) b := by
  induction w generalizing a with
  | nil => rfl
  | cons c w ih =>
    have here : a.nullable ≠ true := stays [] (c :: w) rfl (by simp)
    rw [derivs_cons, seq_deriv, if_neg here, or_void_right, derivs_cons]
    apply ih
    intro u v eq ne mem
    exact stays (c :: u) v (by rw [List.cons_append, eq]) ne mem

theorem derivs_cat (ne : w ≠ []) (stays : ∀ u v, u ++ v = w → v ≠ [] → u ∉ a.lang) :
    derivs w (cat a b) = seq (derivs w a) b := by
  rw [← derivs_seq stays]
  obtain ⟨c, w, rfl⟩ := List.exists_cons_of_ne_nil ne
  rw [derivs_cons, derivs_cons, seq_deriv, deriv]

theorem derivs_without_hit {u v : List UInt8} (ne : u ≠ []) (hit : u ∈ d.lang) :
    derivs (u ++ v) (without d a) = void := by
  induction u generalizing d a with
  | nil => exact absurd rfl ne
  | cons c u ih =>
    rw [List.cons_append, derivs_cons, deriv]
    split_ifs with stop
    · exact derivs_void _
    · apply ih _ hit
      rintro rfl
      exact stop (.inl hit)

theorem derivs_without (miss : ∀ u v, u ≠ [] → u ++ v = w → u ∉ d.lang) (live : derivs w a ≠ void) :
    derivs w (without d a) = without (derivs w d) (derivs w a) := by
  induction w generalizing d a with
  | nil => rfl
  | cons c w ih =>
    have first : ¬ ((d.deriv c).nullable = true ∨ a.deriv c = void) := by
      rintro (hit | stop)
      · exact miss [c] w (by simp) rfl hit
      · apply live
        rw [derivs_cons, stop, derivs_void]
    rw [derivs_cons, deriv, if_neg first]
    exact ih (fun u v _ eq => miss (c :: u) v (by simp) (by rw [List.cons_append, eq])) live

theorem mem_lang_guarded (mem : w ∈ (guarded a b).lang) : ∃ u v, u ++ v = w ∧ v ∈ b.lang := by
  induction w generalizing a with
  | nil =>
    rw [nil_mem_lang, nullable, Bool.and_eq_true] at mem
    exact ⟨[], [], rfl, mem.2⟩
  | cons c w ih =>
    rw [cons_mem_lang, deriv] at mem
    split_ifs at mem
    · exact ⟨[], c :: w, rfl, mem⟩
    · rw [lang_void] at mem
      exact absurd mem (Language.notMem_zero w)
    · obtain ⟨u, v, rfl, hv⟩ := ih mem
      exact ⟨c :: u, v, rfl, hv⟩

theorem mem_lang_without (mem : w ∈ (without d a).lang) : w ∈ a.lang := by
  induction w generalizing d a with
  | nil =>
    rw [nil_mem_lang, nullable, Bool.and_eq_true] at mem
    exact mem.1
  | cons c w ih =>
    rw [cons_mem_lang, deriv] at mem
    split_ifs at mem
    · rw [lang_void] at mem
      exact absurd mem (Language.notMem_zero w)
    · exact ih mem

theorem derivs_guarded (free : ∀ c ∈ w, b.deriv c = void) (live : a ≠ void) :
    derivs w (guarded a b) = if derivs w a = void then void else guarded (derivs w a) b := by
  induction w generalizing a with
  | nil => rw [derivs_nil, derivs_nil, if_neg live]
  | cons c w ih =>
    rw [List.forall_mem_cons] at free
    rw [derivs_cons, derivs_cons, deriv, if_neg (by simp [free.1])]
    by_cases stop : a.deriv c = void
    · rw [if_pos stop, stop, derivs_void, if_pos rfl]
    · rw [if_neg stop]
      exact ih free.2 stop

end Contexts

section Trimmed

/-- No part of the machine is `void` or reads no byte. -/
def trimmed : Machine A → Bool
  | void => false
  | eps => true
  | sym k => k.any fun r => decide (r.1 ≤ r.2)
  | cat a b => a.trimmed && b.trimmed
  | alt a b => a.trimmed && b.trimmed
  | star a => a.trimmed
  | entering _ _ a => a.trimmed
  | finishing _ _ a => a.trimmed
  | leaving _ _ a => a.trimmed
  | guarded _ _ => false
  | without _ _ => false

attribute [local grind =] trimmed

theorem trimmed_or (ha : a = void ∨ a.trimmed = true) (hb : b = void ∨ b.trimmed = true) :
    or a b = void ∨ (or a b).trimmed = true := by
  unfold or
  split_ifs <;> simp_all [trimmed]

omit [DecidableEq A] in
theorem trimmed_seq (ha : a = void ∨ a.trimmed = true) (hb : b.trimmed = true) :
    seq a b = void ∨ (seq a b).trimmed = true := by
  cases a <;> simp_all [seq, trimmed]

omit [DecidableEq A] in
theorem ne_void_of_trimmed (h : m.trimmed = true) : m ≠ void := by
  rintro rfl
  simp [trimmed] at h

theorem trimmed_deriv (h : m.trimmed = true) : m.deriv c = void ∨ (m.deriv c).trimmed = true := by
  induction m with
  | void => exact .inl rfl
  | eps => exact .inl rfl
  | sym k =>
    rw [deriv]
    split_ifs
    · exact .inr rfl
    · exact .inl rfl
  | cat a b iha ihb =>
    simp only [trimmed, Bool.and_eq_true] at h
    apply trimmed_or
    · exact trimmed_seq (iha h.1) h.2
    · split_ifs
      · exact ihb h.2
      · exact .inl rfl
  | alt a b iha ihb =>
    simp only [trimmed, Bool.and_eq_true] at h
    exact trimmed_or (iha h.1) (ihb h.2)
  | star a iha => exact trimmed_seq (iha h) h
  | entering t x a iha => exact iha h
  | finishing t x a iha =>
    rw [deriv]
    split_ifs with stop
    · exact .inl rfl
    · exact .inr ((iha h).resolve_left stop)
  | leaving t x a iha =>
    rw [deriv]
    split_ifs with stop
    · exact .inl rfl
    · exact .inr ((iha h).resolve_left stop)
  | guarded a b => simp [trimmed] at h
  | without d a => simp [trimmed] at h

theorem exists_mem_lang (h : m.trimmed = true) : ∃ w, w ∈ m.lang := by
  induction m with
  | void => simp [trimmed] at h
  | eps => exact ⟨[], rfl⟩
  | sym k =>
    obtain ⟨r, hr, le⟩ := List.any_eq_true.mp h
    refine ⟨[r.1], mem_lang_sym.mpr ⟨r.1, ?_, rfl⟩⟩
    exact List.any_eq_true.mpr ⟨r, hr, by simpa using le⟩
  | cat a b iha ihb =>
    simp only [trimmed, Bool.and_eq_true] at h
    obtain ⟨u, hu⟩ := iha h.1
    obtain ⟨v, hv⟩ := ihb h.2
    refine ⟨u ++ v, ?_⟩
    rw [lang_cat]
    exact Language.append_mem_mul hu hv
  | alt a b iha ihb =>
    simp only [trimmed, Bool.and_eq_true] at h
    obtain ⟨u, hu⟩ := iha h.1
    refine ⟨u, ?_⟩
    rw [lang_alt]
    exact .inl hu
  | star a iha => exact ⟨[], rfl⟩
  | entering t x a iha => simpa using iha h
  | finishing t x a iha => simpa using iha h
  | leaving t x a iha => simpa using iha h
  | guarded a b => simp [trimmed] at h
  | without d a => simp [trimmed] at h

theorem trimmed_derivs (h : m.trimmed = true) (live : derivs w m ≠ void) :
    (derivs w m).trimmed = true := by
  induction w generalizing m with
  | nil => exact h
  | cons c w ih =>
    rw [derivs_cons] at live ⊢
    rcases trimmed_deriv (c := c) h with stop | next
    · rw [stop, derivs_void] at live
      exact absurd rfl live
    · exact ih next live

/-- A trimmed machine stops as soon as nothing completes what has been read. -/
theorem derivs_eq_void (h : m.trimmed = true) : derivs w m = void ↔ ∀ v, w ++ v ∉ m.lang := by
  constructor
  · intro stop v
    rw [append_mem_lang, stop, lang_void]
    exact Language.notMem_zero v
  · intro none
    by_contra live
    obtain ⟨v, hv⟩ := exists_mem_lang (trimmed_derivs h live)
    exact none v (append_mem_lang.mpr hv)

theorem acts_of_deriv_void (h : m.trimmed = true) (stop : m.deriv c = void) : m.acts c = [] := by
  induction m with
  | void => rfl
  | eps => rfl
  | sym k => rfl
  | cat a b iha ihb =>
    simp only [trimmed, Bool.and_eq_true] at h
    obtain ⟨first, second⟩ := or_eq_void.mp stop
    rw [seq_eq_void (ne_void_of_trimmed h.2)] at first
    rw [acts, iha h.1 first, List.nil_append, if_neg]
    rintro ⟨null, live⟩
    rw [if_pos null] at second
    exact live second
  | alt a b iha ihb =>
    simp only [trimmed, Bool.and_eq_true] at h
    obtain ⟨first, second⟩ := or_eq_void.mp stop
    rw [acts, iha h.1 first, ihb h.2 second, List.nil_append]
  | star a iha =>
    apply iha h
    exact (seq_eq_void (by simp)).mp stop
  | entering t x a iha => rw [acts, if_pos (show a.deriv c = void from stop)]
  | finishing t x a iha =>
    have inner : a.deriv c = void := by
      by_contra live
      simp [deriv, live] at stop
    simp [acts, iha h inner, inner, nullable]
  | leaving t x a iha =>
    have inner : a.deriv c = void := by
      by_contra live
      simp [deriv, live] at stop
    exact iha h inner
  | guarded a b => simp [trimmed] at h
  | without d a => simp [trimmed] at h

end Trimmed

section Bytes

/-- No part of the machine reads the byte `c`. -/
def avoids (c : UInt8) : Machine A → Bool
  | void => true
  | eps => true
  | sym k => !k.has c
  | cat a b => a.avoids c && b.avoids c
  | alt a b => a.avoids c && b.avoids c
  | star a => a.avoids c
  | entering _ _ a => a.avoids c
  | finishing _ _ a => a.avoids c
  | leaving _ _ a => a.avoids c
  | guarded a b => a.avoids c && b.avoids c
  | without _ a => a.avoids c

attribute [local grind =] avoids

omit [DecidableEq A] in
theorem avoids_seq (ha : a.avoids c) (hb : b.avoids c) : (seq a b).avoids c := by
  cases a <;> simp_all [seq, avoids]

theorem avoids_or (ha : a.avoids c) (hb : b.avoids c) : (or a b).avoids c := by
  unfold or
  split_ifs <;> simp_all [avoids]

theorem avoids_deriv {c' : UInt8} (h : m.avoids c) : (m.deriv c').avoids c := by
  induction m with
  | void => rfl
  | eps => rfl
  | sym k =>
    rw [deriv]
    split_ifs <;> rfl
  | cat a b iha ihb =>
    simp only [avoids, Bool.and_eq_true] at h
    apply avoids_or (avoids_seq (iha h.1) h.2)
    split_ifs
    · exact ihb h.2
    · rfl
  | alt a b iha ihb =>
    simp only [avoids, Bool.and_eq_true] at h
    exact avoids_or (iha h.1) (ihb h.2)
  | star a iha => exact avoids_seq (iha h) h
  | entering t x a iha => exact iha h
  | finishing t x a iha =>
    rw [deriv]
    split_ifs
    · rfl
    · exact iha h
  | leaving t x a iha =>
    rw [deriv]
    split_ifs
    · rfl
    · exact iha h
  | guarded a b iha ihb =>
    simp only [avoids, Bool.and_eq_true] at h
    rw [deriv]
    split_ifs
    · exact ihb h.2
    · rfl
    · rw [avoids, iha h.1, h.2]
      rfl
  | without d a ihd iha =>
    rw [deriv]
    split_ifs
    · rfl
    · exact iha h

theorem deriv_of_avoids (h : m.avoids c) : m.deriv c = void := by
  induction m with
  | void => rfl
  | eps => rfl
  | sym k =>
    rw [avoids, Bool.not_eq_true'] at h
    simp [deriv, h]
  | cat a b iha ihb =>
    simp only [avoids, Bool.and_eq_true] at h
    simp [deriv, iha h.1, ihb h.2]
  | alt a b iha ihb =>
    simp only [avoids, Bool.and_eq_true] at h
    simp [deriv, iha h.1, ihb h.2]
  | star a iha => simp [deriv, iha h]
  | entering t x a iha => exact iha h
  | finishing t x a iha => simp [deriv, iha h]
  | leaving t x a iha => simp [deriv, iha h]
  | guarded a b iha ihb =>
    simp only [avoids, Bool.and_eq_true] at h
    simp [deriv, iha h.1, ihb h.2]
  | without d a ihd iha => simp [deriv, iha h]

theorem notMem_of_avoids (h : m.avoids c) (mem : w ∈ m.lang) : c ∉ w := by
  induction w generalizing m with
  | nil => simp
  | cons c' w ih =>
    rw [List.mem_cons, not_or]
    refine ⟨?_, ih (avoids_deriv h) mem⟩
    rintro rfl
    rw [cons_mem_lang, deriv_of_avoids h, lang_void] at mem
    exact Language.notMem_zero _ mem

/-- Every string of the machine has the byte `c` at its end, and nowhere else. -/
def closes (c : UInt8) : Machine A → Bool
  | void => true
  | eps => false
  | sym k => k.all fun r => decide (r = (c, c))
  | cat a b => (a.avoids c && b.closes c) || (a.closes c && decide (b = eps))
  | alt a b => a.closes c && b.closes c
  | star _ => false
  | entering _ _ a => a.closes c
  | finishing _ _ a => a.closes c
  | leaving _ _ a => a.closes c
  | guarded _ _ => false
  | without _ _ => false

attribute [local grind =] closes

theorem closes_spec (h : m.closes c = true) (mem : w ∈ m.lang) : ∃ u, w = u ++ [c] ∧ c ∉ u := by
  induction m generalizing w with
  | void =>
    rw [lang_void] at mem
    exact absurd mem (Language.notMem_zero w)
  | eps => simp [closes] at h
  | sym k =>
    obtain ⟨c', has, rfl⟩ := mem_lang_sym.mp mem
    obtain ⟨r, hr, between⟩ := List.any_eq_true.mp has
    have same := List.all_eq_true.mp h r hr
    simp only [decide_eq_true_eq] at same
    simp only [same, Bool.and_eq_true, decide_eq_true_eq] at between
    exact ⟨[], by rw [UInt8.le_antisymm between.2 between.1]; rfl, by simp⟩
  | cat a b iha ihb =>
    simp only [closes, Bool.or_eq_true, Bool.and_eq_true, decide_eq_true_eq] at h
    rw [lang_cat, Language.mem_mul] at mem
    obtain ⟨u, hu, v, hv, rfl⟩ := mem
    obtain ⟨free, closed⟩ | ⟨closed, rfl⟩ := h
    · obtain ⟨v, rfl, off⟩ := ihb closed hv
      refine ⟨u ++ v, by rw [List.append_assoc], ?_⟩
      rw [List.mem_append, not_or]
      exact ⟨notMem_of_avoids free hu, off⟩
    · rw [lang_eps, Language.mem_one] at hv
      rw [hv, List.append_nil]
      exact iha closed hu
  | alt a b iha ihb =>
    simp only [closes, Bool.and_eq_true] at h
    rw [lang_alt, Language.mem_add] at mem
    obtain mem | mem := mem
    · exact iha h.1 mem
    · exact ihb h.2 mem
  | star a iha => simp [closes] at h
  | entering t x a iha => exact iha h (by rwa [lang_entering] at mem)
  | finishing t x a iha => exact iha h (by rwa [lang_finishing] at mem)
  | leaving t x a iha => exact iha h (by rwa [lang_leaving] at mem)
  | guarded a b => simp [closes] at h
  | without d a => simp [closes] at h

theorem closes_proper {u v : List UInt8} (h : m.closes c = true) (mem : u ∈ m.lang)
    (more : u ++ v ∈ m.lang) : v = [] := by
  obtain ⟨u, rfl, -⟩ := closes_spec h mem
  obtain ⟨w, eq, off⟩ := closes_spec h more
  obtain nil | ⟨v, last, rfl⟩ := List.eq_nil_or_concat v
  · exact nil
  · rw [List.concat_eq_append, ← List.append_assoc] at eq
    obtain ⟨eq, -⟩ := List.append_inj' eq rfl
    apply absurd _ off
    rw [← eq]
    simp

end Bytes

section Stamps

omit [DecidableEq A] in
theorem trimmed_stamp (n : ℕ) : (m.stamp n).1.trimmed = m.trimmed := by
  induction m generalizing n with
  | cat a b iha ihb => simp [stamp, trimmed, iha, ihb]
  | alt a b iha ihb => simp [stamp, trimmed, iha, ihb]
  | star a iha => simp [stamp, trimmed, iha]
  | entering t x a iha => simp [stamp, trimmed, iha]
  | finishing t x a iha => simp [stamp, trimmed, iha]
  | leaving t x a iha => simp [stamp, trimmed, iha]
  | _ => rfl

omit [DecidableEq A] in
theorem quiet_stamp {u : A → Bool} (n : ℕ) : (m.stamp n).1.quiet u = m.quiet u := by
  induction m generalizing n with
  | cat a b iha ihb => simp [stamp, quiet, iha, ihb]
  | alt a b iha ihb => simp [stamp, quiet, iha, ihb]
  | star a iha => simp [stamp, quiet, iha]
  | entering t x a iha => simp [stamp, quiet, iha]
  | finishing t x a iha => simp [stamp, quiet, iha]
  | leaving t x a iha => simp [stamp, quiet, iha]
  | guarded a b iha ihb => simp [stamp, quiet, iha, ihb]
  | without d a ihd iha => simp [stamp, quiet, iha]
  | _ => rfl

theorem lang_stamp (h : m.trimmed = true) (n : ℕ) : (m.stamp n).1.lang = m.lang := by
  induction m generalizing n with
  | cat a b iha ihb =>
    simp only [trimmed, Bool.and_eq_true] at h
    rw [stamp, lang_cat, lang_cat, iha h.1, ihb h.2]
  | alt a b iha ihb =>
    simp only [trimmed, Bool.and_eq_true] at h
    rw [stamp, lang_alt, lang_alt, iha h.1, ihb h.2]
  | star a iha => rw [stamp, lang_star, lang_star, iha h]
  | entering t x a iha => rw [stamp, lang_entering, lang_entering, iha h]
  | finishing t x a iha => rw [stamp, lang_finishing, lang_finishing, iha h]
  | leaving t x a iha => rw [stamp, lang_leaving, lang_leaving, iha h]
  | guarded a b => simp [trimmed] at h
  | without d a => simp [trimmed] at h
  | _ => rfl

theorem deriv_stamp (h : m.trimmed = true) (n : ℕ) :
    (m.stamp n).1.deriv c = void ↔ m.deriv c = void := by
  have same : ∀ m : Machine A, derivs [c] m = m.deriv c := fun _ => rfl
  rw [← same, ← same, derivs_eq_void h, derivs_eq_void (by rwa [trimmed_stamp]), lang_stamp h]

theorem quiet_derivs {u : A → Bool} (h : m.quiet u) (w : List UInt8) : (derivs w m).quiet u := by
  induction w generalizing m with
  | nil => exact h
  | cons c w ih => exact ih (quiet_deriv h)

end Stamps

/-- The machine is at an end, and nothing more is to be read. -/
structure Spent (m : Machine A) : Prop where
  nullable : m.nullable = true
  deriv : ∀ c, m.deriv c = void
  acts : ∀ c, m.acts c = []

section Ends

theorem spent_eps : Spent (eps : Machine A) := ⟨rfl, fun _ => rfl, fun _ => rfl⟩

theorem spent_without (free : d.nullable = false) : Spent (without d (eps : Machine A)) := by
  refine ⟨?_, ?_, ?_⟩
  · simp [nullable, free]
  · simp [deriv]
  · simp [acts]

/-- A machine whose strings have a byte of their own for their end. -/
theorem spent_derivs (trim : m.trimmed = true) (h : m.closes c = true) (mem : w ∈ m.lang) :
    Spent (derivs w m) := by
  have live : derivs w m ≠ void := by
    intro stop
    rw [mem_lang, stop] at mem
    cases mem
  have rest := trimmed_derivs trim live
  have stop : ∀ c', (derivs w m).deriv c' = void := by
    intro c'
    rw [← derivs_nil (m := (derivs w m).deriv c'), ← derivs_cons, derivs_eq_void rest]
    intro v more
    rw [← append_mem_lang] at more
    have nothing := closes_proper h mem more
    simp at nothing
  exact ⟨mem, stop, fun c' => acts_of_deriv_void rest (stop c')⟩

variable {x : Machine A}

theorem Spent.seq_deriv (spent : Spent x) : (seq x b).deriv c = b.deriv c := by
  rw [Machine.seq_deriv, spent.deriv, if_pos spent.nullable]
  simp

theorem Spent.seq_acts (spent : Spent x) (live : b.deriv c ≠ void) :
    (seq x b).acts c = x.out ++ b.acts c := by
  by_cases here : x = eps
  · rw [here, seq_eps]
    rfl
  · have stays : x ≠ void := by
      rintro rfl
      cases spent.nullable
    rw [seq_eq_cat stays here, Machine.acts, spent.acts, if_pos ⟨spent.nullable, live⟩]
    rfl

theorem Spent.seq_acts_of_out (spent : Spent x) (out : x.out = [])
    (tidy : b.deriv c = void → b.acts c = []) : (seq x b).acts c = b.acts c := by
  by_cases live : b.deriv c = void
  · by_cases here : x = eps
    · rw [here, seq_eps]
    · have stays : x ≠ void := by
        rintro rfl
        cases spent.nullable
      rw [seq_eq_cat stays here, Machine.acts, spent.acts, if_neg (by simp [live]), tidy live]
      rfl
  · rw [spent.seq_acts live, out, List.nil_append]

omit [DecidableEq A] in
theorem out_seq (stays : x ≠ void) : (seq x b).out = x.out ++ b.out := by
  cases x <;> simp_all [seq, out]

end Ends

section Forms

/-- The letters of a string in lower case. -/
def lower (c : UInt8) : UInt8 := if 65 ≤ c ∧ c ≤ 90 then c + 32 else c

/-- The class of a letter without regard to its case, in `litI`. -/
def bothCases (c : UInt8) : ByteClass :=
  if 97 ≤ c ∧ c ≤ 122 then [(c, c), (c - 32, c - 32)]
  else if 65 ≤ c ∧ c ≤ 90 then [(c, c), (c + 32, c + 32)] else [(c, c)]

theorem single_has {x : UInt8} : ByteClass.has [(x, x)] c = true ↔ c = x := by
  simp only [ByteClass.has, List.any_cons, List.any_nil, Bool.or_false, Bool.and_eq_true, decide_eq_true_eq]
  constructor
  · rintro ⟨le, ge⟩
    exact UInt8.le_antisymm ge le
  · rintro rfl
    exact ⟨UInt8.le_refl _, UInt8.le_refl _⟩

theorem bothCases_has {x : UInt8} : (bothCases x).has c = true ↔ lower c = lower x := by
  unfold bothCases lower ByteClass.has
  split_ifs <;> simp only [List.any_cons, List.any_nil, Bool.or_false, Bool.and_eq_true, Bool.or_eq_true,
    decide_eq_true_eq, UInt8.le_iff_toNat_le, ← UInt8.toNat_inj, UInt8.toNat_add, UInt8.toNat_sub,
    UInt8.reduceToNat] at * <;> omega

theorem mem_lang_byte {x : UInt8} : w ∈ (byte x : Machine A).lang ↔ w = [x] := by
  rw [byte, mem_lang_sym]
  constructor
  · rintro ⟨c, has, rfl⟩
    rw [single_has.mp has]
  · rintro rfl
    exact ⟨x, single_has.mpr rfl, rfl⟩

theorem mem_lang_lit {s : List UInt8} : w ∈ (lit s : Machine A).lang ↔ w = s := by
  induction s generalizing w with
  | nil =>
    rw [lit, List.foldr_nil, lang_eps]
    exact Iff.rfl
  | cons x s ih =>
    rw [lit, List.foldr_cons, lang_seq, Language.mem_mul]
    constructor
    · rintro ⟨u, hu, v, hv, rfl⟩
      rw [mem_lang_byte.mp hu, ih.mp hv]
      rfl
    · rintro rfl
      exact ⟨[x], mem_lang_byte.mpr rfl, s, ih.mpr rfl, rfl⟩

theorem mem_lang_litI {s : List UInt8} :
    w ∈ (litI s : Machine A).lang ↔ w.map lower = s.map lower := by
  induction s generalizing w with
  | nil =>
    rw [litI, List.foldr_nil, lang_eps, List.map_nil, List.map_eq_nil_iff]
    exact Iff.rfl
  | cons x s ih =>
    rw [litI, List.foldr_cons, lang_seq, Language.mem_mul]
    constructor
    · rintro ⟨u, hu, v, hv, rfl⟩
      obtain ⟨c, has, rfl⟩ := mem_lang_sym.mp hu
      rw [List.singleton_append, List.map_cons, List.map_cons, ih.mp hv, bothCases_has.mp has]
    · intro same
      cases w with
      | nil => simp at same
      | cons c w =>
        rw [List.map_cons, List.map_cons, List.cons_eq_cons] at same
        exact ⟨[c], mem_lang_sym.mpr ⟨c, bothCases_has.mpr same.1, rfl⟩, w, ih.mpr same.2, rfl⟩

theorem star_sym_deriv {k : ByteClass} :
    (star (sym k) : Machine A).deriv c = if k.has c then star (sym k) else void := by
  simp only [deriv]
  split_ifs <;> rfl

theorem mem_lang_star_sym {k : ByteClass} :
    w ∈ (star (sym k) : Machine A).lang ↔ ∀ c ∈ w, k.has c = true := by
  induction w with
  | nil => simp [mem_lang, nullable]
  | cons c w ih =>
    rw [cons_mem_lang, star_sym_deriv, List.forall_mem_cons]
    split_ifs with has
    · rw [ih, and_iff_right has]
    · rw [lang_void]
      exact iff_of_false (Language.notMem_zero _) fun h => has h.1

theorem mem_lang_plus_sym {k : ByteClass} :
    w ∈ (plus (sym k) : Machine A).lang ↔ w ≠ [] ∧ ∀ c ∈ w, k.has c = true := by
  rw [plus, lang_cat, Language.mem_mul]
  constructor
  · rintro ⟨u, hu, v, hv, rfl⟩
    obtain ⟨c, has, rfl⟩ := mem_lang_sym.mp hu
    refine ⟨by simp, ?_⟩
    rw [List.singleton_append, List.forall_mem_cons]
    exact ⟨has, mem_lang_star_sym.mp hv⟩
  · rintro ⟨ne, all⟩
    obtain ⟨c, v, rfl⟩ := List.exists_cons_of_ne_nil ne
    rw [List.forall_mem_cons] at all
    exact ⟨[c], mem_lang_sym.mpr ⟨c, all.1, rfl⟩, v, mem_lang_star_sym.mpr all.2, rfl⟩

theorem anyByte_has (c : UInt8) : ByteClass.has [(0, 255)] c = true := by
  have le := c.toNat_lt
  simp only [ByteClass.has, List.any_cons, List.any_nil, Bool.or_false, Bool.and_eq_true,
    decide_eq_true_eq, UInt8.le_iff_toNat_le, UInt8.reduceToNat]
  omega

theorem mem_lang_any : w ∈ (star anyByte : Machine A).lang :=
  mem_lang_star_sym.mpr fun c _ => anyByte_has c

/-- The machine of `strongDiff`: a string that ends in one of `d`. -/
theorem mem_lang_any_cat : w ∈ (cat (star anyByte) d).lang ↔ ∃ u v, u ++ v = w ∧ v ∈ d.lang := by
  rw [lang_cat, Language.mem_mul]
  constructor
  · rintro ⟨u, -, v, hv, eq⟩
    exact ⟨u, v, eq, hv⟩
  · rintro ⟨u, v, eq, hv⟩
    exact ⟨u, mem_lang_any, v, hv, eq⟩

end Forms

end Conet.Lib.Ragel.Machine
