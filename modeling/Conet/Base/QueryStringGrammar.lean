/- Module: Conet/Base/QueryStringGrammar
   source: base/src/query_string.rl
   digest: The places of the query string machine, the program that its actions amount to, and the
   strings that parse_query_string accepts. -/

import Conet.Base.QueryString
import Conet.Lib.RagelParts

set_option autoImplicit false
set_option relaxedAutoImplicit false

namespace Conet.Base.QueryString

open Conet.Lib.Ragel Conet.Lib.Ragel.Machine Conet.Base.HttpParser

/-! ### The places of the machine -/

section Places

/-- `name` in the first pair and in the later ones. -/
def nameAt (j : ℕ) : Machine QueryAction :=
  leaving (4 * j + 1) .endName (entering (4 * j) .startName text)

def valueAt (j : ℕ) : Machine QueryAction :=
  leaving (4 * j + 3) .endValue (entering (4 * j + 2) .startValue text)

def pairAt (j : ℕ) : Machine QueryAction := cat (nameAt j) (cat (lit (codes "=")) (valueAt j))

/-- `("&" name "=" value)*`. -/
def more : Machine QueryAction := star (cat (lit (codes "&")) (pairAt 1))

/-- `any* "=&"`, with which a string of `(any -- "=&")` must not begin, and what is left of it behind
a byte, which was `=` or not. -/
def unwanted : Machine QueryAction := cat (star anyByte) (lit (codes "=&"))

def unwantedRest (eq : Bool) : Machine QueryAction := unwanted.deriv (if eq then 61 else 0)

/-- What is left of `(any -- "=&")+` behind a byte: every text. The difference never cuts anything off,
since a single byte holds no string of two. -/
def inside (eq : Bool) : Machine QueryAction :=
  cat (without (unwantedRest eq) eps) (star (without unwanted anyByte))

def namePart (j : ℕ) (eq : Bool) : Machine QueryAction :=
  cat (leaving (4 * j + 1) .endName (inside eq)) (cat (lit (codes "=")) (valueAt j))

def valuePart (j : ℕ) (eq : Bool) : Machine QueryAction :=
  leaving (4 * j + 3) .endValue (inside eq)

/-- Where a string stands in the machine. -/
inductive Place
  | start
  | again
  | name (j : ℕ) (eq : Bool)
  | mid (j : ℕ)
  | value (j : ℕ) (eq : Bool)
  | pair
  deriving DecidableEq

def Place.machine : Place → Machine QueryAction
  | start => cat (pairAt 0) more
  | again => more
  | name j eq => cat (namePart j eq) more
  | mid j => cat (valueAt j) more
  | value j eq => cat (valuePart j eq) more
  | pair => cat (pairAt 1) more

/-- Where it stands behind one byte more, which is `=` or `&` or another, and what is executed on
it. -/
def Place.step (eq amp : Bool) : Place → List Place
  | start => [.name 0 eq]
  | again => if amp then [.pair] else []
  | name j _ => .name j eq :: if eq then [.mid j] else []
  | mid j => [.value j eq]
  | value j _ => .value j eq :: if amp then [.pair] else []
  | pair => [.name 1 eq]

def Place.acts (eq amp : Bool) : Place → List (ℕ × QueryAction)
  | start => [(0, .startName)]
  | again => []
  | name j _ => if eq then [(4 * j + 1, .endName)] else []
  | mid j => [(4 * j + 2, .startValue)]
  | value j _ => if amp then [(4 * j + 3, .endValue)] else []
  | pair => [(4, .startName)]

/-- Whether a string may end there, and what is executed then. -/
def Place.final : Place → Bool
  | again => true
  | value _ _ => true
  | _ => false

def Place.leaves : Place → List (ℕ × QueryAction)
  | value j _ => [(4 * j + 3, .endValue)]
  | _ => []

variable {c d : UInt8} {p : Machine QueryAction}

theorem byte_has : ByteClass.has [(d, d)] c = (c == d) := by
  rw [Bool.eq_iff_iff, single_has, beq_iff_eq]

theorem literal_eq : (lit [d] : Machine QueryAction) = cat (sym [(d, d)]) eps := rfl

theorem literal_deriv : (lit [d] : Machine QueryAction).deriv c = if c == d then eps else void := by
  have first : (sym [(d, d)] : Machine QueryAction).deriv c = if c == d then eps else void := by
    rw [Machine.deriv, byte_has]
  rw [literal_eq, Machine.deriv, first]
  cases c == d <;> rfl

theorem literal_nullable : (lit [d] : Machine QueryAction).nullable = false := rfl

theorem literal_acts : (lit [d] : Machine QueryAction).acts c = [] := by
  simp [literal_eq, acts, nullable]

theorem unwanted_deriv (c : UInt8) : unwanted.deriv c = unwantedRest (c == 61) := by
  have any (c : UInt8) : (star anyByte : Machine QueryAction).deriv c = star anyByte := by
    rw [anyByte, star_sym_deriv, if_pos (anyByte_has c)]
  have form : (lit (codes "=&") : Machine QueryAction) = cat (sym [(61, 61)]) (cat (sym [(38, 38)]) eps) :=
    rfl
  have first : (lit (codes "=&") : Machine QueryAction).deriv c =
      if c == 61 then cat (sym [(38, 38)]) eps else void := by
    rw [form, Machine.deriv, Machine.deriv.eq_3, byte_has]
    cases c == 61 <;> rfl
  rw [unwantedRest, unwanted, Machine.deriv, Machine.deriv, any, any, first]
  cases eq : c == 61 <;> rfl

@[simp] theorem unwantedRest_nullable (eq : Bool) : (unwantedRest eq).nullable = false := by
  cases eq <;> rfl

theorem single_deriv (c : UInt8) :
    (without unwanted anyByte).deriv c = without (unwantedRest (c == 61)) eps := by
  have any : (anyByte : Machine QueryAction).deriv c = eps := by
    rw [anyByte, Machine.deriv, if_pos (anyByte_has c)]
  rw [Machine.deriv, unwanted_deriv, any, if_neg (by simp)]

theorem text_eq : text = cat (without unwanted anyByte) (star (without unwanted anyByte)) := rfl

@[simp] theorem text_deriv (c : UInt8) : text.deriv c = inside (c == 61) := by
  rw [text_eq, Machine.deriv, single_deriv, if_neg (by simp [nullable, anyByte]), or_void_right]
  rfl

@[simp] theorem inside_deriv (eq : Bool) (c : UInt8) : (inside eq).deriv c = inside (c == 61) := by
  have stop : (without (unwantedRest eq) (eps : Machine QueryAction)).deriv c = void := by
    rw [Machine.deriv, if_pos (.inr rfl)]
  rw [inside, Machine.deriv, stop, if_pos (by simp [nullable]), Machine.deriv, single_deriv, seq_void,
    or_void_left]
  rfl

@[simp] theorem inside_nullable (eq : Bool) : (inside eq).nullable = true := by
  simp [inside, nullable]

@[simp] theorem text_nullable : text.nullable = false := rfl

@[simp] theorem text_acts (c : UInt8) : text.acts c = [] := by
  simp [text_eq, acts, nullable, anyByte]

@[simp] theorem inside_acts (eq : Bool) (c : UInt8) : (inside eq).acts c = [] := by
  simp [inside, acts, anyByte, out]

@[simp] theorem inside_out (eq : Bool) : (inside eq).out = [] := rfl

@[simp] theorem inside_parts (eq : Bool) : (inside eq).parts = [inside eq] := rfl

@[simp] theorem inside_ne_void (eq : Bool) : inside eq ≠ void := by simp [inside]

@[simp] theorem nameAt_deriv (j : ℕ) :
    (nameAt j).deriv c = leaving (4 * j + 1) .endName (inside (c == 61)) := by
  simp [nameAt, Machine.deriv]

@[simp] theorem nameAt_acts (j : ℕ) : (nameAt j).acts c = [(4 * j, .startName)] := by
  simp [nameAt, acts]

@[simp] theorem nameAt_nullable (j : ℕ) : (nameAt j).nullable = false := rfl

@[simp] theorem valueAt_deriv (j : ℕ) :
    (valueAt j).deriv c = valuePart j (c == 61) := by
  simp [valueAt, Machine.deriv, valuePart]

@[simp] theorem valueAt_acts (j : ℕ) : (valueAt j).acts c = [(4 * j + 2, .startValue)] := by
  simp [valueAt, acts]

@[simp] theorem valueAt_nullable (j : ℕ) : (valueAt j).nullable = false := rfl

theorem pairAt_eq (j : ℕ) : pairAt j = cat (nameAt j) (cat (lit [61]) (valueAt j)) := rfl

theorem more_eq : more = star (cat (lit [38]) (pairAt 1)) := rfl

theorem equals_deriv (j : ℕ) : (cat (lit [61]) (valueAt j)).deriv c =
    if c == 61 then valueAt j else void := by
  rw [Machine.deriv, literal_deriv, literal_nullable, if_neg Bool.false_ne_true, or_void_right]
  cases c == 61 <;> rfl

theorem more_deriv : more.deriv c = if c == 38 then cat (pairAt 1) more else void := by
  have one : (cat (lit [38]) (pairAt 1)).deriv c = if c == 38 then pairAt 1 else void := by
    rw [Machine.deriv, literal_deriv, literal_nullable, if_neg Bool.false_ne_true, or_void_right]
    cases c == 38 <;> rfl
  rw [more_eq, Machine.deriv, one]
  cases c == 38 <;> rfl

theorem equals_acts (j : ℕ) : (cat (lit [61]) (valueAt j)).acts c = [] := by
  simp [acts, literal_acts, literal_nullable]

theorem more_acts : more.acts c = [] := by
  simp [more_eq, acts, literal_acts, literal_nullable]

theorem cat_deriv (a b : Machine QueryAction) :
    (cat a b).deriv c = or (seq (a.deriv c) b) (if a.nullable then b.deriv c else void) := rfl

theorem pairAt_deriv (j : ℕ) : (pairAt j).deriv c = namePart j (c == 61) := by
  rw [pairAt_eq, cat_deriv, nameAt_deriv, nameAt_nullable, if_neg Bool.false_ne_true, or_void_right]
  rfl

theorem namePart_eq (j : ℕ) (eq : Bool) : namePart j eq =
    cat (leaving (4 * j + 1) .endName (inside eq)) (cat (lit [61]) (valueAt j)) := rfl

theorem namePart_deriv (j : ℕ) (eq : Bool) : (namePart j eq).deriv c =
    or (namePart j (c == 61)) (if c == 61 then valueAt j else void) := by
  have first : (leaving (4 * j + 1) .endName (inside eq)).deriv c =
      leaving (4 * j + 1) .endName (inside (c == 61)) := by
    rw [Machine.deriv, inside_deriv, if_neg (inside_ne_void _)]
  rw [namePart_eq, cat_deriv, first, if_pos (by simp [nullable]), equals_deriv]
  rfl

theorem valuePart_deriv (j : ℕ) (eq : Bool) : (valuePart j eq).deriv c = valuePart j (c == 61) := by
  rw [valuePart, Machine.deriv, inside_deriv, if_neg (inside_ne_void _)]
  rfl

@[simp] theorem namePart_nullable (j : ℕ) (eq : Bool) : (namePart j eq).nullable = false := by
  simp [namePart_eq, nullable, literal_nullable]

@[simp] theorem valuePart_nullable (j : ℕ) (eq : Bool) : (valuePart j eq).nullable = true := by
  simp [valuePart, nullable]

@[simp] theorem pairAt_nullable (j : ℕ) : (pairAt j).nullable = false := by
  simp [pairAt_eq, nullable]

@[simp] theorem namePart_parts (j : ℕ) (eq : Bool) : (namePart j eq).parts = [namePart j eq] := by
  simp [namePart_eq, parts]

@[simp] theorem valuePart_parts (j : ℕ) (eq : Bool) : (valuePart j eq).parts = [valuePart j eq] := by
  simp [valuePart, parts]

@[simp] theorem valueAt_parts (j : ℕ) : (valueAt j).parts = [valueAt j] := by
  simp [valueAt, parts]

@[simp] theorem pairAt_parts (j : ℕ) : (pairAt j).parts = [pairAt j] := by
  simp [pairAt_eq, nameAt, parts]

/-- A machine of one part that comes before the loop. -/
theorem mem_parts_before {a : Machine QueryAction} (one : a.parts = [a]) (ne : a ≠ eps) :
    p ∈ (cat a more).parts ↔ p = cat a more := by
  rw [mem_parts_cat, one]
  simp [ne, ne.symm]

theorem namePart_ne_eps (j : ℕ) (eq : Bool) : namePart j eq ≠ eps := by simp [namePart]

theorem valuePart_ne_eps (j : ℕ) (eq : Bool) : valuePart j eq ≠ eps := by simp [valuePart]

theorem valueAt_ne_eps (j : ℕ) : valueAt j ≠ eps := by simp [valueAt]

theorem pairAt_ne_eps (j : ℕ) : pairAt j ≠ eps := by simp [pairAt_eq]

theorem mem_parts_more : p ∈ (more.deriv c).parts ↔ (c == 38) = true ∧ p = Place.pair.machine := by
  rw [more_deriv]
  cases c == 38
  · simp [parts]
  · simpa [Place.machine] using mem_parts_before (pairAt_parts 1) (pairAt_ne_eps 1)

/-- The parts behind a byte are the places behind it. -/
theorem Place.mem_parts_step (pl : Place) :
    p ∈ (pl.machine.deriv c).parts ↔ ∃ q ∈ pl.step (c == 61) (c == 38), p = q.machine := by
  have pair_step (j : ℕ) : p ∈ ((cat (pairAt j) more).deriv c).parts ↔
      p = (Place.name j (c == 61)).machine := by
    rw [cat_deriv, pairAt_deriv, pairAt_nullable, if_neg Bool.false_ne_true, or_void_right, parts_seq,
      mem_parts_before (namePart_parts _ _) (namePart_ne_eps _ _)]
    rfl
  cases pl with
  | start => simpa [step, machine] using pair_step 0
  | again =>
    rw [show Place.again.machine = more from rfl, mem_parts_more, step]
    cases c == 38 <;> simp
  | name j eq =>
    rw [show (Place.name j eq).machine = cat (namePart j eq) more from rfl, cat_deriv, namePart_deriv,
      namePart_nullable, if_neg Bool.false_ne_true, or_void_right, parts_seq, mem_parts_cat, step]
    simp only [mem_parts_or, namePart_parts]
    cases c == 61
    · simp [parts, machine, (namePart_ne_eps _ _).symm, namePart_ne_eps]
    · simp [machine, (namePart_ne_eps _ _).symm, namePart_ne_eps, (valueAt_ne_eps _).symm,
        valueAt_ne_eps]
  | mid j =>
    rw [show (Place.mid j).machine = cat (valueAt j) more from rfl, cat_deriv, valueAt_deriv,
      valueAt_nullable, if_neg Bool.false_ne_true, or_void_right, parts_seq,
      mem_parts_before (valuePart_parts _ _) (valuePart_ne_eps _ _), step]
    simp [machine]
  | value j eq =>
    rw [show (Place.value j eq).machine = cat (valuePart j eq) more from rfl, cat_deriv,
      valuePart_deriv, valuePart_nullable, if_pos rfl, mem_parts_or, parts_seq,
      mem_parts_before (valuePart_parts _ _) (valuePart_ne_eps _ _), mem_parts_more, step]
    cases c == 38 <;> simp [machine]
  | pair => simpa [step, machine] using pair_step 1

theorem Place.acts_machine (pl : Place) : pl.machine.acts c = pl.acts (c == 61) (c == 38) := by
  have follow : more.deriv c ≠ void ↔ (c == 38) = true := by
    rw [more_deriv]
    cases c == 38 <;> simp
  have equals (j : ℕ) : (cat (lit [61]) (valueAt j)).deriv c ≠ void ↔ (c == 61) = true := by
    rw [equals_deriv]
    cases c == 61 <;> simp [valueAt]
  have cat_acts (a b : Machine QueryAction) : (cat a b).acts c =
      a.acts c ++ (if a.nullable = true ∧ b.deriv c ≠ void then a.out ++ b.acts c else []) := rfl
  have pair_acts (j : ℕ) : (cat (pairAt j) more).acts c = [(4 * j, .startName)] := by
    simp [cat_acts, pairAt_eq, nullable]
  cases pl with
  | start => exact pair_acts 0
  | again => exact more_acts
  | name j eq =>
    rw [show (Place.name j eq).machine = cat (namePart j eq) more from rfl, cat_acts, namePart_eq,
      cat_acts, equals_acts]
    simp only [equals]
    simp [acts, Machine.acts, nullable, out, literal_nullable]
  | mid j =>
    rw [show (Place.mid j).machine = cat (valueAt j) more from rfl, cat_acts]
    simp [acts]
  | value j eq =>
    rw [show (Place.value j eq).machine = cat (valuePart j eq) more from rfl, cat_acts, more_acts]
    simp only [follow]
    simp [valuePart, acts, Machine.acts, nullable, out]
  | pair => exact pair_acts 1

theorem Place.nullable_machine (pl : Place) : pl.machine.nullable = pl.final := by
  cases pl <;> simp [machine, nullable, more_eq, final]

theorem Place.out_machine {pl : Place} (final : pl.final = true) : pl.machine.out = pl.leaves := by
  cases pl with
  | again => rfl
  | value j eq => simp [machine, valuePart, out, more_eq, leaves]
  | _ => simp [Place.final] at final

end Places

/-! ### The program of the actions -/

/-- What is known behind the first byte: whether the last byte is `=`; whether it is one behind another
byte; whether something came behind such a `=`; whether the last byte is an `&` that may end a value
or come first; and the same for the pairs behind an `&`. -/
structure Seen where
  eq : Bool
  mid : Bool
  value : Bool
  pair : Bool
  name2 : Bool
  mid2 : Bool
  value2 : Bool

namespace Seen

def first (c : UInt8) : Seen := ⟨c == 61, false, false, c == 38, false, false, false⟩

def step (eq amp : Bool) (f : Seen) : Seen where
  eq := eq
  mid := eq
  value := f.value || f.mid
  pair := amp && f.value
  name2 := f.name2 || f.pair
  mid2 := eq && f.name2
  value2 := f.value2 || f.mid2

def next (c : UInt8) (f : Seen) : Seen := f.step (c == 61) (c == 38)

def places (f : Seen) : List Place :=
  [(true, .name 0 f.eq), (f.mid, .mid 0), (f.value, .value 0 f.eq), (f.pair, .pair),
    (f.name2, .name 1 f.eq), (f.mid2, .mid 1), (f.value2, .value 1 f.eq)].filterMap fun x : Bool × Place =>
      if x.1 then some x.2 else none

def does (eq amp : Bool) (f : Seen) : List QueryAction :=
  [(eq, .endName), (f.mid, .startValue), (amp && f.value, .endValue), (f.pair, .startName)].filterMap
    fun x : Bool × QueryAction => if x.1 then some x.2 else none

def actions (c : UInt8) (f : Seen) : List QueryAction := f.does (c == 61) (c == 38)

/-- The later pairs are never ahead of the first. -/
def Sound (f : Seen) : Prop := (f.mid2 = true → f.mid = true) ∧ (f.value2 = true → f.value = true)

instance (f : Seen) : Decidable f.Sound := inferInstanceAs (Decidable (_ ∧ _))

theorem sound_first (c : UInt8) : (first c).Sound := by simp [Sound, first]

theorem sound_step {f : Seen} (sound : f.Sound) (eq amp : Bool) : (f.step eq amp).Sound := by
  obtain ⟨mid, value⟩ := sound
  refine ⟨?_, ?_⟩
  · simp only [step, Bool.and_eq_true]
    exact And.left
  · simp only [step, Bool.or_eq_true]
    exact Or.imp value mid

/-- Behind a byte: the places, the actions in their order, and no two actions with one stamp. -/
theorem step_spec (f : Seen) (sound : f.Sound) (eq amp : Bool) :
    (∀ q, q ∈ (f.step eq amp).places ↔ q ∈ f.places.flatMap (Place.step eq amp)) ∧
      ordered (f.places.flatMap (Place.acts eq amp)) = f.does eq amp ∧
      ∀ e ∈ f.places.flatMap (Place.acts eq amp), ∀ e' ∈ f.places.flatMap (Place.acts eq amp),
        e.1 = e'.1 → e = e' := by
  have all : ∀ a b c d e g h : Bool, (⟨a, b, c, d, e, g, h⟩ : Seen).Sound →
      let f : Seen := ⟨a, b, c, d, e, g, h⟩
      ((∀ q ∈ (f.step eq amp).places, q ∈ f.places.flatMap (Place.step eq amp)) ∧
        ∀ q ∈ f.places.flatMap (Place.step eq amp), q ∈ (f.step eq amp).places) ∧
        ordered (f.places.flatMap (Place.acts eq amp)) = f.does eq amp ∧
        ∀ e ∈ f.places.flatMap (Place.acts eq amp), ∀ e' ∈ f.places.flatMap (Place.acts eq amp),
          e.1 = e'.1 → e = e' := by
    -- each case is evaluated by itself: all of them at once is heavy
    cases eq <;> cases amp <;> intro a b <;> cases a <;> cases b <;> decide +kernel
  obtain ⟨⟨into, back⟩, order, keys⟩ := all f.eq f.mid f.value f.pair f.name2 f.mid2 f.value2 sound
  exact ⟨fun q => ⟨into q, back q⟩, order, keys⟩

theorem end_spec (f : Seen) (sound : f.Sound) : f.places.any Place.final = f.value ∧
    (f.value = true → ordered ((f.places.filter Place.final).flatMap Place.leaves) = [.endValue]) ∧
      ∀ e ∈ (f.places.filter Place.final).flatMap Place.leaves,
        ∀ e' ∈ (f.places.filter Place.final).flatMap Place.leaves, e.1 = e'.1 → e = e' := by
  have all : ∀ a b c d e g h : Bool, (⟨a, b, c, d, e, g, h⟩ : Seen).Sound →
      let f : Seen := ⟨a, b, c, d, e, g, h⟩
      f.places.any Place.final = f.value ∧
      (f.value = true → ordered ((f.places.filter Place.final).flatMap Place.leaves) = [.endValue]) ∧
        ∀ e ∈ (f.places.filter Place.final).flatMap Place.leaves,
          ∀ e' ∈ (f.places.filter Place.final).flatMap Place.leaves, e.1 = e'.1 → e = e' := by
    decide
  exact all f.eq f.mid f.value f.pair f.name2 f.mid2 f.value2 sound

/-- The generated loop, in terms of what is known. -/
def exec (buf : List UInt8) : ℕ → List UInt8 → Seen → Parser → ℤ × Parser
  | p, [], f, s => if f.value then (0, s.act buf p .endValue) else (-1, s)
  | p, c :: cs, f, s => exec buf (p + 1) cs (f.next c) ((f.actions c).foldl (Parser.act buf p) s)

end Seen

section Simulation

variable {m : Machine QueryAction} {f : Seen} {c : UInt8} {buf cs : List UInt8} {p : ℕ} {s s' : Parser}

/-- A machine that stands at the places that `f` tells. -/
structure Alive (m : Machine QueryAction) (f : Seen) : Prop where
  solid : m.solid = true
  parts : ∀ p, p ∈ m.parts ↔ ∃ pl ∈ f.places, p = pl.machine
  sound : f.Sound

theorem Alive.step (alive : Alive m f) (c : UInt8) :
    m.deriv c ≠ void ∧ Alive (m.deriv c) (f.next c) ∧ m.actions c = f.actions c := by
  obtain ⟨places, order, keys⟩ := f.step_spec alive.sound (c == 61) (c == 38)
  have parts : ∀ p, p ∈ (m.deriv c).parts ↔ ∃ pl ∈ (f.next c).places, p = pl.machine := by
    intro p
    rw [mem_parts_deriv]
    constructor
    · rintro ⟨q, hq, hp⟩
      obtain ⟨pl, hpl, rfl⟩ := (alive.parts q).mp hq
      obtain ⟨pl', hpl', rfl⟩ := pl.mem_parts_step.mp hp
      exact ⟨pl', (places pl').mpr (List.mem_flatMap.mpr ⟨pl, hpl, hpl'⟩), rfl⟩
    · rintro ⟨pl', hpl', rfl⟩
      obtain ⟨pl, hpl, next⟩ := List.mem_flatMap.mp ((places pl').mp hpl')
      exact ⟨pl.machine, (alive.parts _).mpr ⟨pl, hpl, rfl⟩, pl.mem_parts_step.mpr ⟨pl', next, rfl⟩⟩
  have live : m.deriv c ≠ void := by
    intro stop
    have first := (parts (Place.name 0 (c == 61)).machine).mpr ⟨_, List.mem_cons_self, rfl⟩
    rw [stop] at first
    cases first
  refine ⟨live, ⟨(solid_deriv alive.solid).resolve_left live, parts, Seen.sound_step alive.sound _ _⟩, ?_⟩
  rw [Seen.actions, ← order, Machine.actions]
  refine ordered_congr (fun e => ?_) keys
  rw [mem_acts_parts alive.solid, List.mem_flatMap]
  constructor
  · rintro ⟨q, hq, he⟩
    obtain ⟨pl, hpl, rfl⟩ := (alive.parts q).mp hq
    exact ⟨pl, hpl, pl.acts_machine ▸ he⟩
  · rintro ⟨pl, hpl, he⟩
    exact ⟨pl.machine, (alive.parts _).mpr ⟨pl, hpl, rfl⟩, pl.acts_machine.symm ▸ he⟩

theorem Alive.finish (alive : Alive m f) :
    m.nullable = f.value ∧ (f.value = true → ordered m.out = [.endValue]) := by
  obtain ⟨any, order, keys⟩ := f.end_spec alive.sound
  have null : m.nullable = f.value := by
    rw [← any, Bool.eq_iff_iff, nullable_iff_parts, List.any_eq_true]
    constructor
    · rintro ⟨q, hq, null⟩
      obtain ⟨pl, hpl, rfl⟩ := (alive.parts q).mp hq
      exact ⟨pl, hpl, pl.nullable_machine ▸ null⟩
    · rintro ⟨pl, hpl, final⟩
      exact ⟨pl.machine, (alive.parts _).mpr ⟨pl, hpl, rfl⟩, pl.nullable_machine.trans final⟩
  refine ⟨null, fun value => ?_⟩
  rw [← order value]
  refine ordered_congr (fun e => ?_) keys
  rw [mem_out_parts (null.trans value), List.mem_flatMap]
  simp only [List.mem_filter]
  constructor
  · rintro ⟨q, hq, null, he⟩
    obtain ⟨pl, hpl, rfl⟩ := (alive.parts q).mp hq
    have final : pl.final = true := pl.nullable_machine ▸ null
    exact ⟨pl, ⟨hpl, final⟩, Place.out_machine final ▸ he⟩
  · rintro ⟨pl, ⟨hpl, final⟩, he⟩
    exact ⟨pl.machine, (alive.parts _).mpr ⟨pl, hpl, rfl⟩, pl.nullable_machine.trans final,
      (Place.out_machine final).symm ▸ he⟩

theorem alive_first (c : UInt8) : queryString.deriv c ≠ void ∧
    Alive (queryString.deriv c) (Seen.first c) ∧ queryString.actions c = [.startName] := by
  have start : ∀ p, p ∈ queryString.parts ↔ p = Place.start.machine ∨ p = Place.again.machine := by
    intro p
    have both : queryString.parts = [Place.start.machine, Place.again.machine] := rfl
    rw [both, List.mem_pair]
  have parts : ∀ p, p ∈ (queryString.deriv c).parts ↔
      ∃ pl ∈ (Seen.first c).places, p = pl.machine := by
    intro p
    have places : (Seen.first c).places =
        .name 0 (c == 61) :: if c == 38 then [.pair] else [] := by
      rw [Seen.places, Seen.first]
      cases c == 38 <;> rfl
    rw [mem_parts_deriv, places]
    simp only [start, or_and_right, exists_or, exists_eq_left, Place.mem_parts_step, Place.step]
    cases c == 38 <;> simp
  have solid : queryString.solid = true := rfl
  have live : queryString.deriv c ≠ void := by
    intro stop
    have first := (parts (Place.name 0 (c == 61)).machine).mpr ⟨_, List.mem_cons_self, rfl⟩
    rw [stop] at first
    cases first
  refine ⟨live, ⟨(solid_deriv solid).resolve_left live, parts, Seen.sound_first c⟩, ?_⟩
  have one : ordered [(0, QueryAction.startName)] = [.startName] := by decide
  rw [← one, Machine.actions]
  refine ordered_congr (fun e => ?_) (by simp)
  rw [mem_acts_parts solid]
  simp [start, Place.acts_machine, Place.acts]

structure Same (s s' : Parser) : Prop where
  mark : s.mark = s'.mark
  name : s.name = s'.name
  values : s.values = s'.values

theorem Same.act (same : Same s s') (x : QueryAction) : Same (s.act buf p x) (s'.act buf p x) := by
  obtain ⟨mark, name, values⟩ := same
  cases x with
  | startName => exact ⟨rfl, name, values⟩
  | endName => exact ⟨mark, by simp [Parser.act, mark], values⟩
  | startValue => exact ⟨rfl, name, values⟩
  | endValue => exact ⟨mark, name, by simp [Parser.act, mark, name, values]⟩

theorem Same.acts (same : Same s s') (xs : List QueryAction) :
    Same (xs.foldl (Parser.act buf p) s) (xs.foldl (Parser.act buf p) s') := by
  induction xs generalizing s s' with
  | nil => exact same
  | cons x xs ih => exact ih (same.act x)

/-- The generated loop does what is known to be done. -/
theorem exec_eq (alive : Alive s.machine f) (same : Same s s') :
    (Parser.exec buf p cs s).1 = (Seen.exec buf p cs f s').1 ∧
      Same (Parser.exec buf p cs s).2 (Seen.exec buf p cs f s').2 := by
  induction cs generalizing p s s' f with
  | nil =>
    obtain ⟨null, order⟩ := alive.finish
    rw [Parser.exec, Seen.exec, null]
    by_cases value : f.value = true
    · rw [if_pos value, if_pos value, order value]
      exact ⟨rfl, same.acts [.endValue]⟩
    · rw [if_neg value, if_neg value]
      exact ⟨rfl, same⟩
  | cons c cs ih =>
    obtain ⟨live, next, order⟩ := alive.step c
    rw [Parser.exec, if_neg live, Seen.exec, order]
    have after : Same _ ((f.actions c).foldl (Parser.act buf p) s') := same.acts (f.actions c)
    exact ih next ⟨after.mark, after.name, after.values⟩

theorem exec_cons {m : Machine QueryAction} (live : m.deriv c ≠ void)
    (one : m.actions c = [.startName]) : Parser.exec buf p (c :: cs) ⟨m, 0, [], []⟩ =
      Parser.exec buf (p + 1) cs ⟨m.deriv c, p, [], []⟩ := by
  rw [Parser.exec, if_neg live, one]
  rfl

theorem parse_cons (c : UInt8) (cs : List UInt8) :
    (parse (c :: cs)).1 = (Seen.exec (c :: cs) 1 cs (Seen.first c) ⟨void, 0, [], []⟩).1 ∧
      Same (parse (c :: cs)).2 (Seen.exec (c :: cs) 1 cs (Seen.first c) ⟨void, 0, [], []⟩).2 := by
  obtain ⟨live, alive, one⟩ := alive_first c
  have step : parse (c :: cs) = Parser.exec (c :: cs) (0 + 1) cs ⟨queryString.deriv c, 0, [], []⟩ := by
    rw [parse]
    exact exec_cons live one
  rw [step]
  generalize queryString.deriv c = m at alive
  exact exec_eq alive ⟨rfl, rfl, rfl⟩

end Simulation

/-! ### The strings that are accepted -/

/-- A `=` stands between two bytes. -/
def Inner (buf : List UInt8) : Prop := ∃ u v, u ≠ [] ∧ v ≠ [] ∧ buf = u ++ 61 :: v

/-- A name or a value: not empty, without `=` and `&`. -/
structure Plain (s : List UInt8) : Prop where
  ne : s ≠ []
  eq : 61 ∉ s
  amp : 38 ∉ s

def pairText (x : List UInt8 × List UInt8) : List UInt8 := x.1 ++ 61 :: x.2

/-- `(&name=value)*`. -/
def amped (xs : List (List UInt8 × List UInt8)) : List UInt8 := xs.flatMap fun x => 38 :: pairText x

/-- Empty, or `name=value(&name=value)*` with an initial `&` perhaps. -/
def Form (buf : List UInt8) (xs : List (List UInt8 × List UInt8)) : Prop :=
  (∀ x ∈ xs, Plain x.1 ∧ Plain x.2) ∧ (buf = amped xs ∨ 38 :: buf = amped xs)

section Accepted

variable {f : Seen} {c : UInt8} {buf cs pre rest : List UInt8} {p : ℕ} {s : Parser}
  {xs : List (List UInt8 × List UInt8)}

theorem seen_exec_ret : (Seen.exec buf p cs f s).1 = 0 ↔
    f.value = true ∨ f.mid = true ∧ cs ≠ [] ∨ ∃ u v, v ≠ [] ∧ cs = u ++ 61 :: v := by
  induction cs generalizing p f s with
  | nil =>
    rw [Seen.exec]
    split_ifs with value <;> simp [value]
  | cons c cs ih =>
    have split : (∃ u v, v ≠ [] ∧ c :: cs = u ++ 61 :: v) ↔
        c = 61 ∧ cs ≠ [] ∨ ∃ u v, v ≠ [] ∧ cs = u ++ 61 :: v := by
      constructor
      · rintro ⟨_ | ⟨x, u⟩, v, ne, eq⟩
        · obtain ⟨rfl, rfl⟩ := List.cons_eq_cons.mp eq
          exact .inl ⟨rfl, ne⟩
        · exact .inr ⟨u, v, ne, (List.cons_eq_cons.mp eq).2⟩
      · rintro (⟨rfl, ne⟩ | ⟨u, v, ne, rfl⟩)
        · exact ⟨[], cs, ne, rfl⟩
        · exact ⟨c :: u, v, ne, rfl⟩
    rw [Seen.exec, ih, split]
    simp [Seen.next, Seen.step, or_assoc]

theorem parse_ret : (parse buf).1 = 0 ↔ buf = [] ∨ Inner buf := by
  cases buf with
  | nil => exact iff_of_true rfl (.inl rfl)
  | cons c cs =>
    rw [(parse_cons c cs).1, seen_exec_ret]
    simp only [Seen.first, Bool.false_eq_true, false_and, false_or, reduceCtorEq]
    constructor
    · rintro ⟨u, v, ne, rfl⟩
      exact ⟨c :: u, v, by simp, ne, rfl⟩
    · rintro ⟨_ | ⟨x, u⟩, v, ne, ne', eq⟩
      · exact absurd rfl ne
      · exact ⟨u, v, ne', (List.cons_eq_cons.mp eq).2⟩

structure Calm (f : Seen) (value : Bool) : Prop where
  mid : f.mid = false
  pair : f.pair = false
  value : f.value = value

theorem exec_calm {w : List UInt8} {b : Bool} (eq : 61 ∉ w) (amp : 38 ∉ w) (calm : Calm f b) :
    ∃ f', Calm f' b ∧ ∀ cs s, Seen.exec buf p (w ++ cs) f s = Seen.exec buf (p + w.length) cs f' s := by
  induction w generalizing f p with
  | nil => exact ⟨f, calm, fun _ _ => rfl⟩
  | cons c w ih =>
    simp only [List.mem_cons, not_or] at eq amp
    have ne : (c == 61) = false := beq_eq_false_iff_ne.mpr (Ne.symm eq.1)
    have ne' : (c == 38) = false := beq_eq_false_iff_ne.mpr (Ne.symm amp.1)
    have next : Calm (f.next c) b := by
      refine ⟨?_, ?_, ?_⟩ <;> simp [Seen.next, Seen.step, ne, ne', calm.mid, calm.value]
    have none : f.actions c = [] := by
      simp [Seen.actions, Seen.does, ne, ne', calm.mid, calm.pair]
    obtain ⟨f', calm', run⟩ := ih (p := p + 1) eq.2 amp.2 next
    refine ⟨f', calm', fun cs s => ?_⟩
    rw [List.cons_append, Seen.exec, none, List.foldl_nil, run, List.length_cons]
    congr 1
    omega

theorem slice_here {w : List UInt8} (split : buf = pre ++ (w ++ rest)) {a b : ℕ} (ha : a = pre.length)
    (hb : b = pre.length + w.length) : (buf.drop a).take (b - a) = w := by
  rw [split, ha, hb, List.drop_left, Nat.add_sub_cancel_left, List.take_left]

/-- From the second byte of a name to the end of the value. -/
theorem exec_inside {x : UInt8} {n v : List UInt8} {b : Bool} (name : Plain (x :: n)) (value : Plain v)
    (calm : Calm f b) (split : buf = pre ++ (pairText (x :: n, v) ++ rest)) (mark : s.mark = pre.length) :
    ∃ f', Calm f' true ∧ Seen.exec buf (pre.length + 1) (n ++ 61 :: v ++ rest) f s =
      Seen.exec buf (pre.length + (pairText (x :: n, v)).length) rest f'
        { s with mark := pre.length + (x :: n).length + 1, name := x :: n } := by
  have eq := name.eq
  have amp := name.amp
  simp only [List.mem_cons, not_or] at eq amp
  obtain ⟨f₁, calm₁, run₁⟩ : ∃ f', Calm f' b ∧ ∀ cs s, Seen.exec buf (pre.length + 1) (n ++ cs) f s = _ :=
    exec_calm eq.2 amp.2 calm
  obtain ⟨y, v, rfl⟩ := List.exists_cons_of_ne_nil value.ne
  have eq' := value.eq
  have amp' := value.amp
  simp only [List.mem_cons, not_or] at eq' amp'
  have ne : (y == 61) = false := beq_eq_false_iff_ne.mpr (Ne.symm eq'.1)
  have ne' : (y == 38) = false := beq_eq_false_iff_ne.mpr (Ne.symm amp'.1)
  have calm₂ : Calm ((f₁.next 61).next y) true := by
    refine ⟨?_, ?_, ?_⟩ <;> simp [Seen.next, Seen.step, ne, ne']
  have equals : f₁.actions 61 = [.endName] := by
    simp [Seen.actions, Seen.does, calm₁.mid, calm₁.pair]
  have begins : (f₁.next 61).actions y = [.startValue] := by
    simp [Seen.actions, Seen.does, Seen.next, Seen.step, ne, ne']
  obtain ⟨f₃, calm₃, run₃⟩ : ∃ f', Calm f' true ∧ ∀ cs s, Seen.exec buf
      (pre.length + 1 + n.length + 1 + 1) (v ++ cs) _ s = _ := exec_calm eq'.2 amp'.2 calm₂
  have text : (buf.drop s.mark).take (pre.length + 1 + n.length - s.mark) = x :: n := by
    rw [pairText, List.append_assoc] at split
    refine slice_here split mark ?_
    rw [List.length_cons]
    omega
  refine ⟨f₃, calm₃, ?_⟩
  rw [List.append_assoc, run₁, List.cons_append, Seen.exec, equals, List.cons_append, Seen.exec, begins]
  simp only [List.foldl_cons, List.foldl_nil, Parser.act, text]
  rw [run₃]
  simp only [pairText, List.length_append, List.length_cons]
  congr 1
  · omega
  · congr 1
    omega

theorem exec_pair {x : List UInt8 × List UInt8} (plain : Plain x.1 ∧ Plain x.2) (mid : f.mid = false)
    (pair : f.pair = true) (split : buf = pre ++ (pairText x ++ rest)) :
    ∃ f', Calm f' true ∧ Seen.exec buf pre.length (pairText x ++ rest) f s =
      Seen.exec buf (pre.length + (pairText x).length) rest f'
        { s with mark := pre.length + x.1.length + 1, name := x.1 } := by
  obtain ⟨n, v⟩ := x
  obtain ⟨y, n, rfl⟩ := List.exists_cons_of_ne_nil plain.1.ne
  have eq := plain.1.eq
  have amp := plain.1.amp
  simp only [List.mem_cons, not_or] at eq amp
  have ne : (y == 61) = false := beq_eq_false_iff_ne.mpr (Ne.symm eq.1)
  have ne' : (y == 38) = false := beq_eq_false_iff_ne.mpr (Ne.symm amp.1)
  have calm : Calm (f.next y) f.value := by
    refine ⟨?_, ?_, ?_⟩ <;> simp [Seen.next, Seen.step, ne, ne', mid]
  have begins : f.actions y = [.startName] := by
    simp [Seen.actions, Seen.does, ne, ne', mid, pair]
  obtain ⟨f', calm', run⟩ := exec_inside (s := { s with mark := pre.length }) plain.1 plain.2 calm split rfl
  refine ⟨f', calm', ?_⟩
  rw [← run, pairText]
  simp [Seen.exec, begins, Parser.act]

theorem exec_amped (plain : ∀ x ∈ xs, Plain x.1 ∧ Plain x.2) (calm : Calm f true) {v : List UInt8}
    (split : buf = pre ++ (v ++ amped xs)) (mark : s.mark = pre.length) :
    (Seen.exec buf (pre.length + v.length) (amped xs) f s).1 = 0 ∧
      (Seen.exec buf (pre.length + v.length) (amped xs) f s).2.values = s.values ++ (s.name, v) :: xs := by
  have text : (buf.drop s.mark).take (pre.length + v.length - s.mark) = v :=
    slice_here split mark rfl
  induction xs generalizing f s pre v with
  | nil => simp [amped, Seen.exec, calm.value, Parser.act, text]
  | cons x xs ih =>
    have ends : f.actions 38 = [.endValue] := by
      simp [Seen.actions, Seen.does, calm.mid, calm.pair, calm.value]
    have mid : (f.next 38).mid = false := by simp [Seen.next, Seen.step]
    have pair : (f.next 38).pair = true := by simp [Seen.next, Seen.step, calm.value]
    have form : amped (x :: xs) = 38 :: (pairText x ++ amped xs) := rfl
    have split' : buf = (pre ++ v ++ [38]) ++ (pairText x ++ amped xs) := by
      rw [split, form]
      simp
    have split'' : buf = (pre ++ v ++ [38] ++ x.1 ++ [61]) ++ (x.2 ++ amped xs) := by
      rw [split', pairText]
      simp
    obtain ⟨f', calm', run⟩ := exec_pair (s := s.act buf (pre.length + v.length) .endValue)
      (plain x List.mem_cons_self) mid pair split'
    have place : (pre ++ v ++ [38]).length = pre.length + v.length + 1 := by
      rw [List.length_append, List.length_append, List.length_singleton]
    rw [place] at run
    have place' : (pre ++ v ++ [38] ++ x.1 ++ [61]).length + x.2.length =
        pre.length + v.length + 1 + (pairText x).length := by
      simp [pairText]
      omega
    have tail := ih (fun y hy => plain y (List.mem_cons_of_mem _ hy)) calm' split''
      (s := { s.act buf (pre.length + v.length) .endValue with
        mark := pre.length + v.length + 1 + x.1.length + 1, name := x.1 }) (by simp; omega)
      (slice_here split'' (by simp; omega) rfl)
    rw [form, Seen.exec, ends, List.foldl_cons, List.foldl_nil, run, ← place']
    refine ⟨tail.1, tail.2.trans ?_⟩
    simp [Parser.act, text]

/-- A string of the grammar is accepted, with its pairs. -/
theorem Form.parse (form : Form buf xs) :
    (QueryString.parse buf).1 = 0 ∧ (QueryString.parse buf).2.values = xs := by
  obtain ⟨plain, text⟩ := form
  cases xs with
  | nil =>
    obtain rfl : buf = [] := by simpa [amped] using text
    exact ⟨rfl, rfl⟩
  | cons x xs =>
    have here : Plain x.1 ∧ Plain x.2 := plain x List.mem_cons_self
    have later : ∀ y ∈ xs, Plain y.1 ∧ Plain y.2 := fun y hy => plain y (List.mem_cons_of_mem _ hy)
    have whole : amped (x :: xs) = 38 :: (pairText x ++ amped xs) := rfl
    rw [whole, List.cons_eq_cons] at text
    rcases text with rfl | ⟨-, rfl⟩
    · obtain ⟨ret, same⟩ := parse_cons 38 (pairText x ++ amped xs)
      have split : 38 :: (pairText x ++ amped xs) = [38] ++ (pairText x ++ amped xs) := rfl
      have split' : 38 :: (pairText x ++ amped xs) = ([38] ++ x.1 ++ [61]) ++ (x.2 ++ amped xs) := by
        simp [pairText]
      obtain ⟨f, calm, run⟩ := exec_pair (f := Seen.first 38) (s := ⟨void, 0, [], []⟩) here rfl rfl split
      have tail := exec_amped (s := ⟨void, 1 + x.1.length + 1, x.1, []⟩) later calm split'
        (by simp; omega)
      have place : ([38] ++ x.1 ++ [61]).length + x.2.length = [38].length + (pairText x).length := by
        simp [pairText]
        omega
      rw [place] at tail
      rw [ret, same.values, show (1 : ℕ) = [(38 : UInt8)].length from rfl, run]
      exact tail
    · obtain ⟨n, v⟩ := x
      obtain ⟨y, n, rfl⟩ := List.exists_cons_of_ne_nil here.1.ne
      have amp := here.1.amp
      simp only [List.mem_cons, not_or] at amp
      have calm : Calm (Seen.first y) false :=
        ⟨rfl, beq_eq_false_iff_ne.mpr (Ne.symm amp.1), rfl⟩
      obtain ⟨ret, same⟩ := parse_cons y (n ++ 61 :: v ++ amped xs)
      have text : pairText (y :: n, v) ++ amped xs = y :: (n ++ 61 :: v ++ amped xs) := by
        simp [pairText]
      have split : pairText (y :: n, v) ++ amped xs = [] ++ (pairText (y :: n, v) ++ amped xs) := rfl
      have split' : pairText (y :: n, v) ++ amped xs = ((y :: n) ++ [61]) ++ (v ++ amped xs) := by
        simp [pairText]
      obtain ⟨f, calm', run⟩ := exec_inside (s := ⟨void, 0, [], []⟩) here.1 here.2 calm split rfl
      have tail := exec_amped (s := ⟨void, 0 + (y :: n).length + 1, y :: n, []⟩) later calm' split'
        (by simp)
      have place : ((y :: n) ++ [61]).length + v.length =
          ([] : List UInt8).length + (pairText (y :: n, v)).length := by
        simp [pairText]
        omega
      rw [place] at tail
      rw [text, ret, same.values, ← text]
      rw [show (1 : ℕ) = ([] : List UInt8).length + 1 from rfl, run]
      exact tail

end Accepted

/-! ### The map -/

/-- `std::map<std::string, std::string>`. -/
abbrev Params := List UInt8 → Option (List UInt8)

/-- `DO_VALUE` of `parse_query_string`: `insert` keeps a value that is there. -/
def insertParam (param : Params) (x : List UInt8 × List UInt8) : Params := fun n =>
  if n = x.1 ∧ param n = none then some (urlDecode x.2) else param n

def parseQueryString (buf : List UInt8) (param : Params) : ℤ × Params :=
  ((parse buf).1, (parse buf).2.values.foldl insertParam param)

theorem foldl_insertParam (xs : List (List UInt8 × List UInt8)) (param : Params) (n : List UInt8) :
    xs.foldl insertParam param n =
      (param n).or ((xs.find? fun x => x.1 == n).map fun x => urlDecode x.2) := by
  induction xs generalizing param with
  | nil => simp
  | cons x xs ih =>
    rw [List.foldl_cons, ih, insertParam, List.find?_cons]
    by_cases name : n = x.1
    · subst name
      cases param x.1 <;> simp
    · have other : (x.1 == n) = false := beq_eq_false_iff_ne.mpr (Ne.symm name)
      rw [if_neg (fun both => name both.1), other]

/-- What is promised of a query string: `0` exactly for the strings of the grammar, and then the first
value of every name, decoded. -/
structure Conforms (buf : List UInt8) : Prop where
  ret : (parseQueryString buf fun _ => none).1 = 0 ↔ ∃ xs, Form buf xs
  values : ∀ xs, Form buf xs → ∀ n, (parseQueryString buf fun _ => none).2 n =
    (xs.find? fun x => x.1 == n).map fun x => urlDecode x.2

/-- The strings that are parsed as the grammar says: its own, and those that are rejected since no `=`
stands between two bytes. -/
theorem queryString_conforms_iff (buf : List UInt8) : Conforms buf ↔ (∃ xs, Form buf xs) ∨ ¬ Inner buf := by
  constructor
  · intro conforms
    by_contra neither
    obtain ⟨none, inner⟩ := not_or.mp neither
    exact none (conforms.ret.mp (parse_ret.mpr (.inr (not_not.mp inner))))
  · intro fine
    refine ⟨⟨fun ret => ?_, fun ⟨xs, form⟩ => form.parse.1⟩, fun xs form n => ?_⟩
    · rcases parse_ret.mp ret with rfl | inner
      · exact ⟨[], by simp, .inl rfl⟩
      · exact fine.resolve_right (not_not.mpr inner)
    · show (parse buf).2.values.foldl insertParam _ n = _
      rw [foldl_insertParam, form.parse.2]
      rfl

/-- Two `=` in one pair are accepted. -/
theorem two_equals_accepted : ¬ ∀ buf, Conforms buf := by
  intro claim
  have inner : Inner (codes "a==b") := ⟨codes "a", codes "=b", by decide, by decide, rfl⟩
  obtain ⟨xs, form⟩ := (claim (codes "a==b")).ret.mp (parse_ret.mpr (.inr inner))
  have values : (parse (codes "a==b")).2.values = [(codes "a=", codes "b")] := by decide
  have pairs := form.parse.2.symm.trans values
  have plain := (form.1 (codes "a=", codes "b") (by simp [pairs])).1
  exact plain.eq (by decide)

end Conet.Base.QueryString
