/- Module: Conet/Base/HttpLines
   source: base/src/http_parser.rl
   digest: The parts of a text that the http parser passes, and what they do to the headers. -/

import Conet.Base.HttpTrace
import Conet.Lib.RagelLang

set_option autoImplicit false
set_option relaxedAutoImplicit false

namespace Conet.Base.HttpLines

open Conet.Lib Conet.Lib.Ragel Conet.Lib.Ragel.Machine Conet.Base.HttpParser
open Conet.Base.HttpTrace

/-- The actions that header lines are about, and the one that ends the head. -/
def header : Action → Bool
  | .startField => true
  | .writeField => true
  | .startValue => true
  | .writeValue => true
  | .done => true
  | _ => false

/-- The fields that these actions are about. -/
@[ext] structure View where
  start : ℤ
  valStart : ℤ
  num : ℕ
  headers : ℕ → Header

def view (r : HttpRequest) : View :=
  ⟨r.ptr .headerStart, r.ptr .headerValStart, r.headersNum, r.headers⟩

namespace View

def setHeader (v : View) (h : Header) : View :=
  { v with headers := Function.update v.headers v.num h }

/-- What an action at the address `p` does, when there are fewer than 100 headers. -/
def act (p : ℤ) (v : View) : Action → View
  | .startField => { v with start := p }
  | .writeField => v.setHeader { v.headers v.num with name := initRefStr v.start p }
  | .startValue => { v with valStart := p }
  | .writeValue =>
    { v.setHeader { v.headers v.num with value := initRefStr v.valStart p } with num := v.num + 1 }
  | _ => v

/-- The headers that are there stay as they are. -/
structure Keeps (v v' : View) : Prop where
  num : v'.num = v.num
  headers : ∀ i, i < v.num → v'.headers i = v.headers i

structure Adds (v v' : View) (hd : Header) : Prop where
  num : v'.num = v.num + 1
  headers : ∀ i, i < v.num → v'.headers i = v.headers i
  last : v'.headers v.num = hd

end View

section Views

variable {mem : ℤ → UInt8} {b p : ℤ} {r : HttpRequest} {v v' v'' : View} {x : Action} {xs : List Action}
  {k num : ℕ}

theorem View.Keeps.refl (v : View) : v.Keeps v := ⟨rfl, fun _ _ => rfl⟩

theorem View.Keeps.trans (first : v.Keeps v') (second : v'.Keeps v'') : v.Keeps v'' := by
  refine ⟨second.num.trans first.num, fun i lt => ?_⟩
  rw [second.headers i (by rwa [first.num]), first.headers i lt]

theorem view_act (few : x = .writeField → r.headersNum < 100) :
    view (HttpParser.act mem p r x).1 = (view r).act p x := by
  cases x
  case writeField =>
    have lt := few rfl
    rw [HttpParser.act, if_neg (by omega)]
    rfl
  case httpConnection =>
    simp only [HttpParser.act]
    split <;> rfl
  case upgrade =>
    simp only [HttpParser.act]
    split <;> rfl
  all_goals rfl

theorem act_calm (calm : header x = false) : v.act p x = v := by
  cases x <;> first | rfl | simp [header] at calm

theorem act_keeps (ne : x ≠ .writeValue) : v.Keeps (v.act p x) := by
  cases x
  case writeField =>
    refine ⟨rfl, fun i lt => ?_⟩
    exact Function.update_of_ne (by omega) _ _
  case writeValue => exact absurd rfl ne
  all_goals exact ⟨rfl, fun _ _ => rfl⟩

theorem act_num : (v.act p x).num = bump v.num x := by
  cases x <;> rfl

/-- The actions of one transition, none of which breaks out of the loop. -/
theorem view_replay (none : (taken r.headersNum xs).2.2 = none) :
    view (replay mem b (xs.map fun x => (x, k)) r) = xs.foldl (View.act (b + k)) (view r) := by
  induction xs generalizing r with
  | nil => rfl
  | cons x xs ih =>
    have stays : breaks r.headersNum x = .none := by
      by_contra some
      obtain ⟨stop, broken⟩ := Option.ne_none_iff_exists'.mp some
      simp [taken, broken] at none
    have few : x = .writeField → r.headersNum < 100 := by
      rintro rfl
      simpa [breaks] using stays
    have num : (perform₁ mem b r (x, k)).headersNum = bump r.headersNum x :=
      act_headersNum mem _ r x
    simp only [taken, stays] at none
    rw [← num] at none
    rw [List.map_cons, replay, List.foldl_cons, List.foldl_cons, ← view_act few]
    exact ih none

theorem taken_num (none : (taken v.num xs).2.2 = none) :
    (taken v.num xs).2.1 = (xs.foldl (View.act p) v).num := by
  induction xs generalizing v with
  | nil => rfl
  | cons x xs ih =>
    cases stays : breaks v.num x with
    | some stop => simp [taken, stays] at none
    | none =>
      simp only [taken, stays] at none ⊢
      rw [← act_num (p := p)] at none ⊢
      exact ih none

theorem taken_none (few : num < 100) (calm : ∀ x ∈ xs, x ≠ .writeValue ∧ x ≠ .done) :
    (taken num xs).2.2 = none := by
  induction xs with
  | nil => rfl
  | cons x xs ih =>
    rw [List.forall_mem_cons] at calm
    obtain ⟨⟨value, done⟩, rest⟩ := calm
    have stays : breaks num x = none ∧ bump num x = num := by
      cases x <;> simp_all [breaks, bump]
    simp only [taken, stays.1, stays.2]
    exact ih rest

theorem foldl_keeps (calm : ∀ x ∈ xs, x ≠ .writeValue) : v.Keeps (xs.foldl (View.act p) v) := by
  induction xs generalizing v with
  | nil => exact .refl v
  | cons x xs ih =>
    rw [List.forall_mem_cons] at calm
    exact (act_keeps calm.1).trans (ih calm.2)

theorem foldl_calm (calm : ∀ x ∈ xs, header x = false) : xs.foldl (View.act p) v = v := by
  induction xs generalizing v with
  | nil => rfl
  | cons x xs ih =>
    rw [List.forall_mem_cons] at calm
    rw [List.foldl_cons, act_calm calm.1]
    exact ih calm.2

theorem foldl_single (nodup : xs.Nodup) (mem : x ∈ xs) (only : ∀ y ∈ xs, header y = true → y = x) :
    xs.foldl (View.act p) v = v.act p x := by
  induction xs generalizing v with
  | nil => simp at mem
  | cons y ys ih =>
    rw [List.nodup_cons] at nodup
    rw [List.forall_mem_cons] at only
    rw [List.foldl_cons]
    by_cases same : y = x
    · subst same
      apply foldl_calm
      intro z hz
      by_contra about
      rw [Bool.not_eq_false] at about
      apply nodup.1
      rw [← only.2 z hz about]
      exact hz
    · have calm : header y = false := by
        by_contra about
        rw [Bool.not_eq_false] at about
        exact same (only.1 about)
      rw [act_calm calm]
      exact ih nodup.2 (List.mem_of_ne_of_mem (Ne.symm same) mem) only.2

theorem taken_unnamed (calm : ∀ x ∈ xs, x ≠ .writeField ∧ x ≠ .done) : (taken num xs).2.2 = none := by
  induction xs generalizing num with
  | nil => rfl
  | cons x xs ih =>
    rw [List.forall_mem_cons] at calm
    obtain ⟨⟨field, done⟩, rest⟩ := calm
    have stays : breaks num x = none := by
      cases x <;> simp_all [breaks]
    simp only [taken, stays]
    exact ih rest

theorem taken_single (few : num < 100) (done : x ≠ .done)
    (only : ∀ y ∈ xs, header y = true → y = x) : (taken num xs).2.2 = none := by
  have other : ∀ y ∈ xs, y ≠ .done := by
    rintro y hy rfl
    exact done (only _ hy rfl).symm
  by_cases value : x = .writeValue
  · apply taken_unnamed
    intro y hy
    refine ⟨?_, other y hy⟩
    rintro rfl
    have same := only _ hy rfl
    rw [value] at same
    cases same
  · apply taken_none few
    intro y hy
    refine ⟨?_, other y hy⟩
    rintro rfl
    exact value (only _ hy rfl).symm

end Views

/-- The parser reads `w`, which stands at `k`, and goes on behind it. -/
def Passes (mem : ℤ → UInt8) (b : ℤ) (w : List UInt8) (cs cs' : Expr) (k : ℕ) (v v' : View) : Prop :=
  ∀ rest, ∃ es, scan (w ++ rest) k cs v.num =
    { scan rest (k + w.length) cs' v'.num with
      acts := es ++ (scan rest (k + w.length) cs' v'.num).acts } ∧
    ∀ r, view r = v → view (replay mem b es r) = v'

/-- Of the actions on the byte `c`, those about headers are `x`, if it is some action. -/
structure Only (cs : Expr) (c : UInt8) (x : Option Action) : Prop where
  only : ∀ e ∈ cs.acts c, header e.2 = true → x = some e.2
  here : ∀ y, x = some y → ∃ t, (t, y) ∈ cs.acts c

theorem only_one {cs : Expr} {c : UInt8} {t : ℕ} {y : Action} (eq : cs.acts c = [(t, y)]) :
    Only cs c (some y) := by
  constructor
  · intro e he _
    rw [eq, List.mem_singleton] at he
    rw [he]
  · rintro y' same
    exact ⟨t, by rw [eq, ← Option.some.inj same]; simp⟩

theorem only_none {cs : Expr} {c : UInt8} (eq : cs.acts c = []) : Only cs c none := by
  constructor
  · intro e he
    rw [eq] at he
    cases he
  · exact nofun

section Passing

variable {mem : ℤ → UInt8} {b : ℤ} {v v' v'' : View} {x : Action} {cs cs' cs'' : Expr} {c : UInt8}
  {w w' rest : List UInt8} {k num : ℕ}

theorem Passes.nil : Passes mem b [] cs cs k v v := by
  intro rest
  exact ⟨[], rfl, fun r same => same⟩

theorem Passes.append (first : Passes mem b w cs cs' k v v')
    (second : Passes mem b w' cs' cs'' (k + w.length) v' v'') :
    Passes mem b (w ++ w') cs cs'' k v v'' := by
  intro rest
  obtain ⟨es, eq, view⟩ := first (w' ++ rest)
  obtain ⟨es', eq', view'⟩ := second rest
  refine ⟨es ++ es', ?_, ?_⟩
  · rw [List.append_assoc, eq, eq', List.length_append, Nat.add_assoc, List.append_assoc]
  · intro r same
    rw [replay_append]
    exact view' _ (view r same)

/-- One byte, whose actions do not break out of the loop. -/
theorem passes_byte (live : cs.deriv c ≠ void) (none : (taken v.num (cs.actions c)).2.2 = none) :
    Passes mem b [c] cs (cs.deriv c) k v ((cs.actions c).foldl (View.act (b + k)) v) := by
  intro rest
  refine ⟨(cs.actions c).map fun x => (x, k), ?_, ?_⟩
  · rw [List.singleton_append]
    simp only [scan, if_neg live, none, List.length_singleton]
    rw [taken_num (p := b + k) none, taken_all none]
  · rintro r rfl
    exact view_replay none

theorem passes_only (live : cs.deriv c ≠ void) (only : Only cs c (some x)) (done : x ≠ .done)
    (few : v.num < 100) : Passes mem b [c] cs (cs.deriv c) k v (v.act (b + k) x) := by
  have single : ∀ y ∈ cs.actions c, header y = true → y = x := by
    intro y hy about
    obtain ⟨t, ht⟩ := mem_ordered.mp hy
    exact (Option.some.inj (only.only (t, y) ht about)).symm
  have passes : Passes mem b [c] cs (cs.deriv c) k v ((cs.actions c).foldl (View.act (b + k)) v) :=
    passes_byte live (taken_single few done single)
  have fold : (cs.actions c).foldl (View.act (b + k)) v = v.act (b + k) x :=
    foldl_single (nodup_ordered _) (mem_ordered.mpr (only.here x rfl)) single
  rwa [fold] at passes

theorem passes_calm (live : cs.deriv c ≠ void) (only : Only cs c none) :
    Passes mem b [c] cs (cs.deriv c) k v v := by
  have calm : ∀ y ∈ cs.actions c, header y = false := by
    intro y hy
    obtain ⟨t, ht⟩ := mem_ordered.mp hy
    by_contra about
    rw [Bool.not_eq_false] at about
    cases only.only (t, y) ht about
  have stays : (taken v.num (cs.actions c)).2.2 = none := by
    apply taken_unnamed
    intro y hy
    have off := calm y hy
    constructor <;> rintro rfl <;> cases off
  have passes : Passes mem b [c] cs (cs.deriv c) k v ((cs.actions c).foldl (View.act (b + k)) v) :=
    passes_byte live stays
  rwa [foldl_calm calm] at passes

/-- The actions on the way through `w`, as far as it goes, do not complete a header. -/
def Open (w : List UInt8) (cs : Expr) : Prop :=
  ∀ u c t, w = u ++ c :: t → (derivs u cs).deriv c ≠ void →
    ∀ e ∈ (derivs u cs).acts c, e.2 ≠ .writeValue ∧ e.2 ≠ .done

theorem Open.tail (h : Open (c :: w) cs) : Open w (cs.deriv c) := by
  intro u c' t eq live
  exact h (c :: u) c' t (by rw [eq, List.cons_append]) live

theorem passes_first (live : cs.deriv c ≠ void) (h : Open (c :: w) cs) (few : v.num < 100) :
    ∃ v', Passes mem b [c] cs (cs.deriv c) k v v' ∧ v.Keeps v' := by
  have calm : ∀ y ∈ cs.actions c, y ≠ .writeValue ∧ y ≠ .done := by
    intro y hy
    obtain ⟨t, ht⟩ := mem_ordered.mp hy
    exact h [] c w rfl live (t, y) ht
  exact ⟨_, passes_byte live (taken_none few calm), foldl_keeps fun y hy => (calm y hy).1⟩

theorem passes_open (h : Open w cs) (live : derivs w cs ≠ void) (few : v.num < 100) :
    ∃ v', Passes mem b w cs (derivs w cs) k v v' ∧ v.Keeps v' := by
  induction w generalizing cs k v with
  | nil => exact ⟨v, .nil, .refl v⟩
  | cons c w ih =>
    have first : cs.deriv c ≠ void := by
      intro stop
      rw [derivs_cons, stop, derivs_void] at live
      exact live rfl
    have begins : ∃ v₁, Passes mem b [c] cs (cs.deriv c) k v v₁ ∧ v.Keeps v₁ := passes_first first h few
    obtain ⟨v₁, passes, keeps⟩ := begins
    obtain ⟨v', rest, keeps'⟩ := ih (k := k + 1) h.tail live (by rw [keeps.num]; exact few)
    exact ⟨v', passes.append rest, keeps.trans keeps'⟩

/-- The parser ends in the error state on the way through `w`. -/
theorem scan_dead (h : Open w cs) (live : cs ≠ void) (dead : derivs w cs = void) (few : num < 100) :
    (scan (w ++ rest) k cs num).state = void := by
  induction w generalizing cs k num with
  | nil => exact absurd dead live
  | cons c w ih =>
    by_cases first : cs.deriv c = void
    · rw [List.cons_append, scan, if_pos first]
    · set v : View := ⟨0, 0, num, fun _ => ⟨⟨0, 0⟩, ⟨0, 0⟩⟩⟩
      have begins : ∃ v', Passes (fun _ => 0) 0 [c] cs (cs.deriv c) k v v' ∧ v.Keeps v' :=
        passes_first first h few
      obtain ⟨v', passes, keeps⟩ := begins
      obtain ⟨es, eq, -⟩ := passes (w ++ rest)
      rw [List.cons_append, ← List.singleton_append, eq]
      exact ih h.tail first dead (by rw [keeps.num]; exact few)

theorem Passes.state (passes : Passes mem b w cs cs' k v v') :
    (scan (w ++ rest) k cs v.num).state = (scan rest (k + w.length) cs' v'.num).state := by
  obtain ⟨es, eq, -⟩ := passes rest
  rw [eq]

end Passing

/-- The headers, and what ends the head. -/
def body (h E : Expr) : Expr := cat (star h) E

/-- What remains of a header, the other headers, and what ends the head. -/
def within (h E x : Expr) : Expr := seq (seq x (star h)) E

/-- The state behaves as the one at the start of a header. -/
structure AtLine (h E cs : Expr) : Prop where
  deriv : ∀ c, cs.deriv c = (body h E).deriv c
  acts : ∀ c, (body h E).deriv c ≠ void → ∀ e, header e.2 = true →
    (e ∈ cs.acts c ↔ e ∈ (body h E).acts c)

/-- On the byte `c`, the state behaves as what remains of a header. -/
structure Tracks (h E cs x : Expr) (c : UInt8) : Prop where
  deriv : cs.deriv c = within h E (x.deriv c)
  acts : x.deriv c ≠ void → ∀ e, header e.2 = true → (e ∈ cs.acts c ↔ e ∈ x.acts c)

section Context

variable {h E cs x : Expr} {c : UInt8} {w : List UInt8} {a : Option Action}

theorem within_eq_void (ends : E ≠ void) : within h E x = void ↔ x = void := by
  rw [within, seq_eq_void ends, seq_eq_void (by simp)]

theorem within_tracks (stays : x.nullable = false) : Tracks h E (within h E x) x c := by
  have inner : (seq x (star h)).nullable = false := by
    rw [seq_nullable, stays, Bool.false_and]
  constructor
  · rw [within, seq_deriv, inner, seq_deriv, stays]
    simp [within]
  · intro _ e _
    rw [within, acts_seq inner, acts_seq stays]

theorem AtLine.tracks (start : AtLine h E cs) (ends : E ≠ void) (off : E.deriv c = void) :
    Tracks h E cs h c := by
  have next : (body h E).deriv c = within h E (h.deriv c) := by
    rw [body, Machine.deriv, off]
    simp [within, Machine.deriv]
  have same : (body h E).acts c = h.acts c := by
    rw [body, Machine.acts, off]
    simp [Machine.acts]
  constructor
  · rw [start.deriv, next]
  · intro live e about
    rw [start.acts c _ e about, same]
    rwa [next, Ne, within_eq_void ends]

theorem Tracks.only (tracks : Tracks h E cs x c) (live : x.deriv c ≠ void) (only : Only x c a)
    (about : ∀ y, a = some y → header y = true) : Only cs c a := by
  constructor
  · intro e he about
    exact only.only e ((tracks.acts live e about).mp he) about
  · intro y same
    obtain ⟨t, ht⟩ := only.here y same
    exact ⟨t, (tracks.acts live (t, y) (about y same)).mpr ht⟩

/-- While no header is complete, the state is what remains of one. -/
theorem derivs_within (stays : ∀ u t, w = u ++ t → t ≠ [] → (derivs u x).nullable = false) :
    derivs w (within h E x) = within h E (derivs w x) := by
  induction w generalizing x with
  | nil => rfl
  | cons c w ih =>
    have here : x.nullable = false := stays [] (c :: w) rfl (by simp)
    rw [derivs_cons, (within_tracks here).deriv, derivs_cons]
    apply ih
    intro u t eq ne
    exact stays (c :: u) t (by rw [eq, List.cons_append]) ne

theorem Tracks.derivs (tracks : Tracks h E cs x c)
    (stays : ∀ u t, w = u ++ t → t ≠ [] → (Machine.derivs (c :: u) x).nullable = false) :
    Machine.derivs (c :: w) cs = within h E (Machine.derivs (c :: w) x) := by
  rw [derivs_cons, tracks.deriv, derivs_cons]
  exact derivs_within stays

/-- What has no effect on headers in the header has none in the state. -/
theorem Tracks.opens (tracks : Tracks h E cs x c) (ends : E ≠ void)
    (stays : ∀ u t, w = u ++ t → t ≠ [] → (Machine.derivs (c :: u) x).nullable = false)
    (calm : Open (c :: w) x) : Open (c :: w) cs := by
  have about : ∀ y : Action, y = .writeValue ∨ y = .done → header y = true := by
    rintro y (rfl | rfl) <;> rfl
  intro u c' t eq live e he
  rw [← not_or]
  intro wrong
  cases u with
  | nil =>
    obtain ⟨rfl, rfl⟩ := List.cons_eq_cons.mp eq
    rw [derivs_nil, tracks.deriv, Ne, within_eq_void ends] at live
    have mem := (tracks.acts live e (about _ wrong)).mp he
    exact not_or.mpr (calm [] c w rfl live e mem) wrong
  | cons c'' u =>
    rw [List.cons_append, List.cons_eq_cons] at eq
    obtain ⟨rfl, rfl⟩ := eq
    have before : ∀ u₁ t₁, u = u₁ ++ t₁ → t₁ ≠ [] → (Machine.derivs (c :: u₁) x).nullable = false := by
      intro u₁ t₁ eq _
      exact stays u₁ (t₁ ++ c' :: t) (by rw [eq, List.append_assoc]) (by simp)
    rw [tracks.derivs before] at live he
    have here := within_tracks (h := h) (E := E) (c := c') (stays u (c' :: t) rfl (by simp))
    rw [here.deriv, Ne, within_eq_void ends] at live
    have mem := (here.acts live e (about _ wrong)).mp he
    exact not_or.mpr (calm (c :: u) c' t rfl live e mem) wrong

/-- The state after the part `u` of a header. -/
def Inside (h E : Expr) (u : List UInt8) (cs : Expr) : Prop :=
  (u = [] ∧ AtLine h E cs) ∨ (u ≠ [] ∧ cs = within h E (Machine.derivs u h))

theorem Inside.step {u : List UInt8} (inside : Inside h E u cs) (ends : E ≠ void)
    (off : u ≠ [] ∨ E.deriv c = void) (stays : (Machine.derivs u h).nullable = false) :
    Tracks h E cs (Machine.derivs u h) c ∧ Inside h E (u ++ [c]) (cs.deriv c) := by
  have tracks : Tracks h E cs (Machine.derivs u h) c := by
    obtain ⟨rfl, start⟩ | ⟨-, rfl⟩ := inside
    · exact start.tracks ends (off.resolve_left (by simp))
    · exact within_tracks stays
  refine ⟨tracks, .inr ⟨by simp, ?_⟩⟩
  rw [tracks.deriv, derivs_append]
  rfl

/-- From behind the part `u` of a header, the parser reads `w`. -/
def Goes (mem : ℤ → UInt8) (b : ℤ) (h E : Expr) (u w : List UInt8) (k : ℕ) (v v' : View) : Prop :=
  ∀ cs, Inside h E u cs → ∃ cs', Inside h E (u ++ w) cs' ∧ Passes mem b w cs cs' k v v'

section Going

variable {mem : ℤ → UInt8} {b : ℤ} {u w' : List UInt8} {k : ℕ} {v v' v'' : View} {y : Action}

theorem Goes.append (first : Goes mem b h E u w k v v')
    (second : Goes mem b h E (u ++ w) w' (k + w.length) v' v'') : Goes mem b h E u (w ++ w') k v v'' := by
  intro cs inside
  obtain ⟨cs₁, inside₁, passes₁⟩ := first cs inside
  obtain ⟨cs₂, inside₂, passes₂⟩ := second cs₁ inside₁
  rw [List.append_assoc] at inside₂
  exact ⟨cs₂, inside₂, passes₁.append passes₂⟩

theorem goes_only (ends : E ≠ void) (off : u ≠ [] ∨ E.deriv c = void)
    (stays : (Machine.derivs u h).nullable = false) (live : (Machine.derivs u h).deriv c ≠ void)
    (only : Only (Machine.derivs u h) c (some y)) (about : header y = true) (done : y ≠ .done)
    (few : v.num < 100) : Goes mem b h E u [c] k v (v.act (b + k) y) := by
  intro cs inside
  obtain ⟨tracks, next⟩ := inside.step ends off stays
  refine ⟨_, next, passes_only ?_ (tracks.only live only ?_) done few⟩
  · rwa [tracks.deriv, Ne, within_eq_void ends]
  · intro y' same
    rwa [← Option.some.inj same]

theorem goes_calm (ends : E ≠ void) (off : u ≠ [] ∨ E.deriv c = void)
    (stays : (Machine.derivs u h).nullable = false) (live : (Machine.derivs u h).deriv c ≠ void)
    (only : Only (Machine.derivs u h) c none) : Goes mem b h E u [c] k v v := by
  intro cs inside
  obtain ⟨tracks, next⟩ := inside.step ends off stays
  refine ⟨_, next, passes_calm ?_ (tracks.only live only nofun)⟩
  rwa [tracks.deriv, Ne, within_eq_void ends]

theorem goes_all (ends : E ≠ void) (ne : u ≠ [])
    (calm : ∀ p c t, w = p ++ c :: t → (Machine.derivs (u ++ p) h).nullable = false ∧
      (Machine.derivs (u ++ p) h).deriv c ≠ void ∧ Only (Machine.derivs (u ++ p) h) c none) :
    Goes mem b h E u w k v v := by
  induction w generalizing u k with
  | nil =>
    intro cs inside
    exact ⟨cs, by rwa [List.append_nil], .nil⟩
  | cons c w ih =>
    obtain ⟨stays, live, only⟩ := calm [] c w rfl
    rw [List.append_nil] at stays live only
    apply (goes_calm ends (.inl ne) stays live only).append
    apply ih (by simp)
    intro p c' t eq
    rw [List.append_assoc]
    exact calm (c :: p) c' t (by rw [eq, List.cons_append])

end Going

theorem atLine_within (spent : Spent x) (out : x.out = [])
    (tidy : ∀ c, h.deriv c = void → h.acts c = []) : AtLine h E (within h E x) := by
  have stays : x ≠ void := by
    rintro rfl
    cases spent.nullable
  have nullable : (seq x (star h)).nullable = true := by
    rw [seq_nullable, spent.nullable]
    rfl
  have rest : (seq x (star h)).out = [] := by
    rw [out_seq stays, out]
    rfl
  have form : within h E x = cat (seq x (star h)) E := by
    apply seq_eq_cat
    · rwa [Ne, seq_eq_void (by simp)]
    · cases x <;> simp [seq]
  constructor
  · intro c
    rw [form, Machine.deriv, nullable, spent.seq_deriv, body, Machine.deriv]
    rfl
  · intro c _ e _
    have inner : (seq x (star h)).acts c = (star h).acts c := by
      apply spent.seq_acts_of_out out
      intro stop
      apply tidy
      rwa [Machine.deriv, seq_eq_void (by simp)] at stop
    rw [form, acts, inner, nullable, rest, body, acts]
    rfl

/-- What comes before the headers, of which nothing is left. -/
theorem atLine_seq (spent : Spent x) (out : ∀ e ∈ x.out, header e.2 = false) :
    AtLine h E (seq x (body h E)) := by
  constructor
  · intro c
    exact spent.seq_deriv
  · intro c live e about
    rw [spent.seq_acts live, List.mem_append, or_iff_right]
    intro he
    rw [out e he] at about
    cases about

end Context

end Conet.Base.HttpLines
