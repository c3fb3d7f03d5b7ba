/- Module: Conet/Lib/RagelParts
   source: none (library)
   digest: The ways through a machine: the parts of a derivative are the places of a nondeterministic
   machine, and the actions of a transition are those of its places. -/

import Conet.Lib.RagelLang

set_option autoImplicit false
set_option relaxedAutoImplicit false

namespace Conet.Lib.Ragel.Machine

section Parts

variable {A : Type} [DecidableEq A]

/-- The alternatives of a machine. Leaving actions and what follows are distributed over them. -/
@[grind =] def parts : Machine A → List (Machine A)
  | void => []
  | cat a b => a.parts.flatMap fun p => if p = eps then b.parts else [cat p b]
  | alt a b => a.parts ++ b.parts
  | leaving t x a => a.parts.map (leaving t x)
  | m => [m]

/-- No part of the machine is `void`. -/
@[grind =] def solid : Machine A → Bool
  | void => false
  | eps => true
  | sym _ => true
  | cat a b => a.solid && b.solid
  | alt a b => a.solid && b.solid
  | star a => a.solid
  | entering _ _ a => a.solid
  | finishing _ _ a => a.solid
  | leaving _ _ a => a.solid
  | guarded a b => a.solid && b.solid
  | without _ a => a.solid

variable {a b m p : Machine A} {c : UInt8} {e : ℕ × A}

theorem parts_seq (a b : Machine A) : (seq a b).parts = (cat a b).parts := by
  cases a <;> simp [seq, parts]

theorem mem_parts_or : p ∈ (or a b).parts ↔ p ∈ a.parts ∨ p ∈ b.parts := by
  unfold or
  split_ifs <;> simp_all [parts]

theorem mem_parts_cat : p ∈ (cat a b).parts ↔
    (eps ∈ a.parts ∧ p ∈ b.parts) ∨ ∃ q ∈ a.parts, q ≠ eps ∧ p = cat q b := by
  simp only [parts, List.mem_flatMap]
  constructor
  · rintro ⟨q, hq, hp⟩
    split_ifs at hp with eps
    · exact .inl ⟨eps ▸ hq, hp⟩
    · exact .inr ⟨q, hq, eps, List.mem_singleton.mp hp⟩
  · rintro (⟨hq, hp⟩ | ⟨q, hq, ne, rfl⟩)
    · exact ⟨eps, hq, by rwa [if_pos rfl]⟩
    · exact ⟨q, hq, by rw [if_neg ne]; exact List.mem_singleton_self _⟩

/-- The machine is at an end if one of its parts is. -/
theorem nullable_iff_parts : m.nullable = true ↔ ∃ p ∈ m.parts, p.nullable = true := by
  induction m with
  | cat a b iha ihb =>
    simp only [nullable, Bool.and_eq_true, iha, ihb, mem_parts_cat]
    constructor
    · rintro ⟨⟨p, hp, np⟩, ⟨q, hq, nq⟩⟩
      by_cases first : p = eps
      · exact ⟨q, .inl ⟨first ▸ hp, hq⟩, nq⟩
      · have null : b.nullable = true := ihb.mpr ⟨q, hq, nq⟩
        exact ⟨cat p b, .inr ⟨p, hp, first, rfl⟩, by simp [nullable, np, null]⟩
    · rintro ⟨p, ⟨he, hp⟩ | ⟨q, hq, -, rfl⟩, np⟩
      · exact ⟨⟨eps, he, rfl⟩, ⟨p, hp, np⟩⟩
      · simp only [nullable, Bool.and_eq_true] at np
        exact ⟨⟨q, hq, np.1⟩, ihb.mp np.2⟩
  | alt a b iha ihb => simp [nullable, iha, ihb, parts, or_and_right, exists_or]
  | leaving t x a iha => simp [nullable, iha, parts]
  | _ => simp [nullable, parts]

theorem mem_parts_deriv : p ∈ (m.deriv c).parts ↔ ∃ q ∈ m.parts, p ∈ (q.deriv c).parts := by
  induction m generalizing p with
  | cat a b iha ihb =>
    have rest : p ∈ (if a.nullable then b.deriv c else void).parts ↔
        a.nullable = true ∧ p ∈ (b.deriv c).parts := by
      split_ifs with null <;> simp [null, parts]
    rw [deriv, mem_parts_or, parts_seq, mem_parts_cat, rest, nullable_iff_parts, iha]
    simp only [iha, mem_parts_cat]
    constructor
    · rintro ((⟨⟨q, hq, he⟩, hp⟩ | ⟨r, ⟨q, hq, hr⟩, ne, rfl⟩) | ⟨⟨q, hq, nq⟩, hp⟩)
      · have ne : q ≠ eps := by
          rintro rfl
          simp [deriv, parts] at he
        refine ⟨cat q b, .inr ⟨q, hq, ne, rfl⟩, ?_⟩
        rw [deriv, mem_parts_or, parts_seq, mem_parts_cat]
        exact .inl (.inl ⟨he, hp⟩)
      · have ne' : q ≠ eps := by
          rintro rfl
          simp [deriv, parts] at hr
        refine ⟨cat q b, .inr ⟨q, hq, ne', rfl⟩, ?_⟩
        rw [deriv, mem_parts_or, parts_seq, mem_parts_cat]
        exact .inl (.inr ⟨r, hr, ne, rfl⟩)
      · by_cases first : q = eps
        · obtain ⟨r, hr, hp⟩ := ihb.mp hp
          exact ⟨r, .inl ⟨first ▸ hq, hr⟩, hp⟩
        · refine ⟨cat q b, .inr ⟨q, hq, first, rfl⟩, ?_⟩
          rw [deriv, mem_parts_or, if_pos nq]
          exact .inr hp
    · rintro ⟨r, ⟨he, hr⟩ | ⟨q, hq, ne, rfl⟩, hp⟩
      · exact .inr ⟨⟨eps, he, rfl⟩, ihb.mpr ⟨r, hr, hp⟩⟩
      · rw [deriv, mem_parts_or, parts_seq, mem_parts_cat] at hp
        rcases hp with (⟨he, hp⟩ | ⟨s, hs, ne', rfl⟩) | hp
        · exact .inl (.inl ⟨⟨q, hq, he⟩, hp⟩)
        · exact .inl (.inr ⟨s, ⟨q, hq, hs⟩, ne', rfl⟩)
        · split_ifs at hp with null
          · exact .inr ⟨⟨q, hq, null⟩, hp⟩
          · simp [parts] at hp
  | alt a b iha ihb => simp [deriv, mem_parts_or, iha, ihb, parts, or_and_right, exists_or]
  | leaving t x a iha =>
    have inner : ∀ q : Machine A, p ∈ ((leaving t x q).deriv c).parts ↔
        ∃ r ∈ (q.deriv c).parts, leaving t x r = p := by
      intro q
      rw [deriv]
      split_ifs with stop
      · simp [stop, parts]
      · simp [parts]
    rw [inner]
    simp only [parts, List.mem_map, iha]
    constructor
    · rintro ⟨r, ⟨q, hq, hr⟩, rfl⟩
      exact ⟨leaving t x q, ⟨q, hq, rfl⟩, (by rw [deriv]; split_ifs with stop <;> simp_all [parts])⟩
    · rintro ⟨s, ⟨q, hq, rfl⟩, hp⟩
      obtain ⟨r, hr, rfl⟩ := (inner q).mp hp
      exact ⟨r, ⟨q, hq, hr⟩, rfl⟩
  | void => simp [deriv, parts]
  | _ => simp [parts]

theorem solid_or (ha : a = void ∨ a.solid = true) (hb : b = void ∨ b.solid = true) :
    or a b = void ∨ (or a b).solid = true := by
  unfold or
  split_ifs <;> simp_all [solid]

omit [DecidableEq A] in
theorem solid_seq (ha : a = void ∨ a.solid = true) (hb : b.solid = true) :
    seq a b = void ∨ (seq a b).solid = true := by
  cases a <;> simp_all [seq, solid]

omit [DecidableEq A] in
theorem ne_void_of_solid (h : m.solid = true) : m ≠ void := by
  rintro rfl
  simp [solid] at h

theorem solid_deriv (h : m.solid = true) : m.deriv c = void ∨ (m.deriv c).solid = true := by
  induction m with
  | void => exact .inl rfl
  | eps => exact .inl rfl
  | sym k =>
    rw [deriv]
    split_ifs
    · exact .inr rfl
    · exact .inl rfl
  | cat a b iha ihb =>
    simp only [solid, Bool.and_eq_true] at h
    apply solid_or
    · exact solid_seq (iha h.1) h.2
    · split_ifs
      · exact ihb h.2
      · exact .inl rfl
  | alt a b iha ihb =>
    simp only [solid, Bool.and_eq_true] at h
    exact solid_or (iha h.1) (ihb h.2)
  | star a iha => exact solid_seq (iha h) h
  | entering t x a iha => exact iha h
  | finishing t x a iha =>
    rw [deriv]
    split_ifs with stop
    · exact .inl rfl
    · exact .inr ((iha h).resolve_left stop)
  | leaving t x a iha =>
    rw [deriv]
    split_ifs with stop
    · exact .inl rfl
    · exact .inr ((iha h).resolve_left stop)
  | guarded a b iha ihb =>
    simp only [solid, Bool.and_eq_true] at h
    rw [deriv]
    split_ifs with start stop
    · exact ihb h.2
    · exact .inl rfl
    · exact .inr (by simp [solid, (iha h.1).resolve_left stop, h.2])
  | without d a ihd iha =>
    rw [deriv]
    split_ifs with stop
    · exact .inl rfl
    · exact .inr ((iha h).resolve_left fun none => stop (.inr none))

theorem acts_of_stop (h : m.solid = true) (stop : m.deriv c = void) : m.acts c = [] := by
  induction m with
  | void => rfl
  | eps => rfl
  | sym k => rfl
  | cat a b iha ihb =>
    simp only [solid, Bool.and_eq_true] at h
    obtain ⟨first, second⟩ := or_eq_void.mp stop
    rw [seq_eq_void (ne_void_of_solid h.2)] at first
    rw [acts, iha h.1 first, List.nil_append, if_neg]
    rintro ⟨null, live⟩
    rw [if_pos null] at second
    exact live second
  | alt a b iha ihb =>
    simp only [solid, Bool.and_eq_true] at h
    obtain ⟨first, second⟩ := or_eq_void.mp stop
    rw [acts, iha h.1 first, ihb h.2 second, List.nil_append]
  | star a iha =>
    apply iha h
    exact (seq_eq_void (by simp)).mp stop
  | entering t x a iha => rw [acts, if_pos (show a.deriv c = void from stop)]
  | finishing t x a iha =>
    have inner : a.deriv c = void := by
      by_contra live
      simp [deriv, live] at stop
    simp [acts, iha h inner, inner, nullable]
  | leaving t x a iha =>
    have inner : a.deriv c = void := by
      by_contra live
      simp [deriv, live] at stop
    exact iha h inner
  | guarded a b iha ihb =>
    simp only [solid, Bool.and_eq_true] at h
    rw [deriv] at stop
    rw [acts]
    split_ifs at stop with start none
    · exact absurd stop start.2
    · rw [if_neg start]
      exact iha h.1 none
  | without d a ihd iha =>
    rw [deriv] at stop
    rw [acts]
    split_ifs at stop with none
    rcases none with hit | none
    · rw [if_pos hit]
    · rw [iha h none, ite_self]

/-- The leaving actions at an end are those of the parts that are at an end. -/
theorem mem_out_parts (h : m.nullable = true) :
    e ∈ m.out ↔ ∃ p ∈ m.parts, p.nullable = true ∧ e ∈ p.out := by
  induction m with
  | cat a b iha ihb =>
    simp only [nullable, Bool.and_eq_true] at h
    rw [out, List.mem_append, iha h.1, ihb h.2]
    simp only [mem_parts_cat]
    constructor
    · rintro (⟨p, hp, np, he⟩ | ⟨q, hq, nq, he⟩)
      · have ne : p ≠ eps := by
          rintro rfl
          simp [out] at he
        exact ⟨cat p b, .inr ⟨p, hp, ne, rfl⟩, by simp [nullable, np, h.2], by simp [out, he]⟩
      · obtain ⟨p, hp, np⟩ := nullable_iff_parts.mp h.1
        by_cases first : p = eps
        · exact ⟨q, .inl ⟨first ▸ hp, hq⟩, nq, he⟩
        · have there : e ∈ b.out := (ihb h.2).mpr ⟨q, hq, nq, he⟩
          exact ⟨cat p b, .inr ⟨p, hp, first, rfl⟩, by simp [nullable, np, h.2], by simp [out, there]⟩
    · rintro ⟨p, ⟨hn, hp⟩ | ⟨q, hq, -, rfl⟩, np, he⟩
      · exact .inr ⟨p, hp, np, he⟩
      · simp only [nullable, Bool.and_eq_true] at np
        rcases List.mem_append.mp he with he | he
        · exact .inl ⟨q, hq, np.1, he⟩
        · exact .inr ((ihb h.2).mp he)
  | alt a b iha ihb =>
    have side : ∀ {m : Machine A}, (m.nullable = true →
        (e ∈ m.out ↔ ∃ p ∈ m.parts, p.nullable = true ∧ e ∈ p.out)) →
        (e ∈ (if m.nullable then m.out else []) ↔ ∃ p ∈ m.parts, p.nullable = true ∧ e ∈ p.out) := by
      intro m ih
      split_ifs with null
      · exact ih null
      · simp only [List.not_mem_nil, false_iff]
        rintro ⟨p, hp, np, -⟩
        exact null (nullable_iff_parts.mpr ⟨p, hp, np⟩)
    rw [out, List.mem_append, side iha, side ihb]
    simp [parts, or_and_right, exists_or]
  | leaving t x a iha =>
    obtain ⟨p, hp, np⟩ := nullable_iff_parts.mp h
    simp only [parts, List.mem_map] at hp
    obtain ⟨q, hq, rfl⟩ := hp
    rw [out, List.mem_append, iha h, List.mem_singleton]
    simp only [parts, List.mem_map]
    constructor
    · rintro (⟨r, hr, nr, he⟩ | rfl)
      · exact ⟨leaving t x r, ⟨r, hr, rfl⟩, nr, by simp [out, he]⟩
      · exact ⟨leaving t x q, ⟨q, hq, rfl⟩, np, by simp [out]⟩
    · rintro ⟨s, ⟨r, hr, rfl⟩, nr, he⟩
      rcases List.mem_append.mp he with he | he
      · exact .inl ⟨r, hr, nr, he⟩
      · exact .inr (List.mem_singleton.mp he)
  | void => simp [nullable] at h
  | _ => simp_all [parts]

/-- The actions of a transition are those of the parts. -/
theorem mem_acts_parts (h : m.solid = true) : e ∈ m.acts c ↔ ∃ p ∈ m.parts, e ∈ p.acts c := by
  induction m with
  | cat a b iha ihb =>
    simp only [solid, Bool.and_eq_true] at h
    have follow : ∀ {x : Machine A}, e ∈ (if x.nullable = true ∧ b.deriv c ≠ void then
        x.out ++ b.acts c else []) ↔
        x.nullable = true ∧ b.deriv c ≠ void ∧ (e ∈ x.out ∨ e ∈ b.acts c) := by
      intro x
      split_ifs with on
      · simp [on.1, on.2]
      · simp only [List.not_mem_nil, false_iff]
        rintro ⟨null, live, -⟩
        exact on ⟨null, live⟩
    rw [acts, List.mem_append, iha h.1, follow]
    simp only [mem_parts_cat]
    constructor
    · rintro (⟨p, hp, he⟩ | ⟨null, live, he⟩)
      · have ne : p ≠ eps := by
          rintro rfl
          simp [acts] at he
        exact ⟨cat p b, .inr ⟨p, hp, ne, rfl⟩, by simp [acts, he]⟩
      · rcases he with he | he
        · obtain ⟨p, hp, np, he⟩ := (mem_out_parts null).mp he
          have ne : p ≠ eps := by
            rintro rfl
            simp [out] at he
          refine ⟨cat p b, .inr ⟨p, hp, ne, rfl⟩, ?_⟩
          rw [acts, List.mem_append, follow]
          exact .inr ⟨np, live, .inl he⟩
        · obtain ⟨p, hp, np⟩ := nullable_iff_parts.mp null
          by_cases first : p = eps
          · obtain ⟨q, hq, he⟩ := (ihb h.2).mp he
            exact ⟨q, .inl ⟨first ▸ hp, hq⟩, he⟩
          · refine ⟨cat p b, .inr ⟨p, hp, first, rfl⟩, ?_⟩
            rw [acts, List.mem_append, follow]
            exact .inr ⟨np, live, .inr he⟩
    · rintro ⟨p, ⟨hn, hp⟩ | ⟨q, hq, -, rfl⟩, he⟩
      · have there : e ∈ b.acts c := (ihb h.2).mpr ⟨p, hp, he⟩
        have live : b.deriv c ≠ void := by
          intro stop
          simp [acts_of_stop h.2 stop] at there
        exact .inr ⟨nullable_iff_parts.mpr ⟨eps, hn, rfl⟩, live, .inr there⟩
      · rw [acts, List.mem_append, follow] at he
        rcases he with he | ⟨null, live, he | he⟩
        · exact .inl ⟨q, hq, he⟩
        · have null' : a.nullable = true := nullable_iff_parts.mpr ⟨q, hq, null⟩
          exact .inr ⟨null', live, .inl ((mem_out_parts null').mpr ⟨q, hq, null, he⟩)⟩
        · exact .inr ⟨nullable_iff_parts.mpr ⟨q, hq, null⟩, live, .inr he⟩
  | alt a b iha ihb =>
    simp only [solid, Bool.and_eq_true] at h
    rw [acts, List.mem_append, iha h.1, ihb h.2]
    simp [parts, or_and_right, exists_or]
  | leaving t x a iha =>
    rw [acts, iha h]
    simp [parts, acts]
  | _ => simp [parts, acts]

end Parts

/-! ### The order of actions -/

section Order

variable {A : Type} [DecidableEq A]

theorem filter_eraseDups {α : Type} [BEq α] [LawfulBEq α] (q : α → Bool) (xs : List α) :
    (xs.eraseDups).filter q = (xs.filter q).eraseDups := by
  induction h : xs.length using Nat.strong_induction_on generalizing xs with
  | _ n ih =>
  cases xs with
  | nil => rfl
  | cons x xs =>
    have shorter : (xs.filter fun y => !y == x).length < n := by
      have le := List.length_filter_le (fun y => !y == x) xs
      rw [← h, List.length_cons]
      omega
    have tail := ih _ shorter _ rfl
    rw [List.eraseDups_cons, List.filter_cons, List.filter_cons]
    split_ifs with keep
    · rw [List.eraseDups_cons, tail, List.filter_filter, List.filter_filter]
      simp only [Bool.and_comm]
    · rw [tail, List.filter_filter]
      congr 1
      refine List.filter_congr fun y _ => ?_
      by_cases same : y = x <;> simp_all

theorem eraseDups_sublist {α : Type} [BEq α] [LawfulBEq α] (xs : List α) : xs.eraseDups.Sublist xs := by
  induction h : xs.length using Nat.strong_induction_on generalizing xs with
  | _ n ih =>
  cases xs with
  | nil => exact List.Sublist.refl _
  | cons x xs =>
    have shorter : (xs.filter fun y => !y == x).length < n := by
      have le := List.length_filter_le (fun y => !y == x) xs
      rw [← h, List.length_cons]
      omega
    rw [List.eraseDups_cons]
    exact ((ih _ shorter _ rfl).trans List.filter_sublist).cons_cons x

/-- What is there twice may be dropped before a function is applied. -/
theorem eraseDups_map {α β : Type} [BEq α] [LawfulBEq α] [BEq β] [LawfulBEq β] (f : α → β)
    (xs : List α) : (xs.eraseDups.map f).eraseDups = (xs.map f).eraseDups := by
  induction h : xs.length using Nat.strong_induction_on generalizing xs with
  | _ n ih =>
  cases xs with
  | nil => rfl
  | cons x xs =>
    have shorter : (xs.filter fun y => !f y == f x).length < n := by
      have le := List.length_filter_le (fun y => !f y == f x) xs
      rw [← h, List.length_cons]
      omega
    have tail := ih _ shorter _ rfl
    have both : (fun y => (!f y == f x) && (!y == x)) = fun y => !f y == f x := by
      ext y
      by_cases same : y = x <;> simp [same]
    rw [List.eraseDups_cons, List.map_cons, List.map_cons, List.eraseDups_cons, List.eraseDups_cons,
      List.filter_map, List.filter_map, filter_eraseDups, List.filter_filter]
    congr 1
    rw [show ((fun y => !y == f x) ∘ f) = fun y => !f y == f x from rfl, both]
    exact tail

/-- The actions of a transition depend on what is embedded there, not on how often. -/
theorem ordered_congr {xs ys : List (ℕ × A)} (same : ∀ e, e ∈ xs ↔ e ∈ ys)
    (keys : ∀ e ∈ ys, ∀ e' ∈ ys, e.1 = e'.1 → e = e') : ordered xs = ordered ys := by
  have sorted : ∀ zs : List (ℕ × A), (∀ e ∈ zs, e ∈ ys) →
      ((zs.insertionSort fun a b => a.1 ≤ b.1).eraseDups).Pairwise fun a b => a.1 < b.1 := by
    intro zs inside
    have weak : ((zs.insertionSort fun a b => a.1 ≤ b.1).eraseDups).Pairwise fun a b => a.1 ≤ b.1 := by
      have := List.pairwise_insertionSort (fun a b : ℕ × A => a.1 ≤ b.1) zs
      exact this.sublist (eraseDups_sublist _)
    refine (weak.and (nodup_eraseDups _)).imp_of_mem fun {e e'} he he' h => ?_
    simp only [List.mem_eraseDups, List.mem_insertionSort] at he he'
    exact lt_of_le_of_ne h.1 fun eq => h.2 (keys e (inside e he) e' (inside e' he') eq)
  have whole : (xs.insertionSort fun a b => a.1 ≤ b.1).eraseDups =
      (ys.insertionSort fun a b => a.1 ≤ b.1).eraseDups := by
    have : Std.Irrefl fun a b : ℕ × A => a.1 < b.1 := ⟨fun a => lt_irrefl a.1⟩
    have : Std.Antisymm fun a b : ℕ × A => a.1 < b.1 := ⟨fun a b h h' => absurd h' (lt_asymm h)⟩
    refine List.Pairwise.eq_of_mem_iff (sorted xs fun e he => (same e).mp he)
      (sorted ys fun _ he => he) fun {e} => ?_
    simp [same]
  rw [ordered, ordered, ← eraseDups_map, whole, eraseDups_map]

end Order

end Conet.Lib.Ragel.Machine
