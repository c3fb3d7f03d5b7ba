/- Module: Conet/Base/HttpKnown
   source: base/src/http_parser.rl
   digest: The texts that the grammar of the http parser takes for known headers. -/

import Conet.Base.HttpLines

set_option autoImplicit false
set_option relaxedAutoImplicit false

namespace Conet.Base.HttpKnown

open Conet.Lib Conet.Lib.Ragel Conet.Lib.Ragel.Machine Conet.Base.HttpParser
open Conet.Base.HttpTrace Conet.Base.HttpLines

/-- A header line `name: value`. -/
structure Line where
  name : List UInt8
  value : List UInt8

def plainNames : List String :=
  ["Accept", "Connection", "Content-Type", "Host", "Upgrade", "Sec-WebSocket-Key", "Sec-WebSocket-Version"]

/-- The texts are the same but for the case of letters. -/
def SameName (n n' : List UInt8) : Prop := n.map lower = n'.map lower

instance (n n' : List UInt8) : Decidable (SameName n n') :=
  inferInstanceAs (Decidable (n.map lower = n'.map lower))

namespace Line

def text (l : Line) : List UInt8 := l.name ++ codes ": " ++ l.value

def full (l : Line) : List UInt8 := l.text ++ [13, 10]

structure Valid (l : Line) : Prop where
  name : l.name ≠ []
  token : ∀ c ∈ l.name, token.has c = true
  value : ∀ c ∈ l.value, c ≠ 13 ∧ c ≠ 10
  first : l.value.head? ≠ some 32

/-- The name is one of the eight known ones. -/
def Known (l : Line) : Prop :=
  (∃ name ∈ plainNames, SameName l.name (codes name)) ∨ SameName l.name (codes "Content-Length")

instance (l : Line) : Decidable l.Known := inferInstanceAs (Decidable (_ ∨ _))

/-- The header that a line at the address `p` gives; an empty value is taken for the space before it. -/
def header (l : Line) (p : ℤ) : Header where
  name := initRefStr p (p + l.name.length)
  value := initRefStr (p + (l.name.length + if l.value = [] then 1 else 2 : ℕ)) (p + l.text.length)

/-- Some string of `known_header` is a part of the line. -/
def Hides (l : Line) : Prop := ∃ s ∈ knownHeader.lang, s <:+: l.full

end Line

section Grammar

variable {w u v : List UInt8} {c : UInt8}

/-- The known headers without their ends of line. -/
def knownText : Expr := alts [
  known "Accept:" (star anyByte) .httpAccept,
  known "Connection:" (star anyByte) .httpConnection,
  known "Content-Length:" (plus (sym digit)) .httpContentLength,
  known "Content-Type:" (star anyByte) .httpContentType,
  known "Host:" (star anyByte) .requestHost,
  known "Upgrade:" (star anyByte) .upgrade,
  known "Sec-WebSocket-Key:" (star anyByte) .secWebsocketKey,
  known "Sec-WebSocket-Version:" (star anyByte) .secWebsocketVersion]

theorem knownHeader_eq : knownHeader = guarded knownText crlf := rfl

/-- A text that starts with a known name and its colon. -/
def Plain (n : List UInt8) : Prop := ∃ name ∈ plainNames, SameName n (codes name ++ [58])

/-- A `Content-Length` with its number. -/
def Counted (w : List UInt8) : Prop :=
  ∃ n s v, w = n ++ s ++ v ∧ SameName n (codes "Content-Length" ++ [58]) ∧ (∀ c ∈ s, c = 32) ∧
    v ≠ [] ∧ ∀ c ∈ v, digit.has c = true

theorem spaces_deriv : spaces.deriv c = if c = 32 then spaces else void := by
  split_ifs with space
  · rw [space]
    rfl
  · apply deriv_of_avoids
    have off : ByteClass.has [(32, 32)] c = false := by
      rw [← Bool.not_eq_true, single_has]
      exact space
    change (!ByteClass.has [(32, 32)] c && true) = true
    rw [off]
    rfl

theorem mem_spaces : w ∈ spaces.lang ↔ ∀ c ∈ w, c = 32 := by
  induction w with
  | nil => simp [nil_mem_lang, spaces, nullable]
  | cons c w ih =>
    rw [cons_mem_lang, spaces_deriv, List.forall_mem_cons]
    split_ifs with space
    · rw [ih, and_iff_right space]
    · rw [lang_void]
      exact iff_of_false (Language.notMem_zero _) fun h => space h.1

/-- The second byte of the end of a line. -/
def feed : Expr := cat (byte 10) eps

theorem feed_ne : feed ≠ void := by
  intro h
  cases h

theorem crlf_deriv : crlf.deriv c = if c = 13 then feed else void := by
  have form : crlf = cat (byte 13) feed := rfl
  rw [form, Machine.deriv]
  by_cases cr : c = 13
  · rw [if_pos cr, cr]
    rfl
  · have stop : (byte 13 : Expr).deriv c = void := by
      rw [byte, Machine.deriv, if_neg (mt single_has.mp cr)]
    rw [if_neg cr, stop]
    rfl

theorem mem_known {name : String} {value : Expr} {x : Action} :
    w ∈ (known name value x).lang ↔ ∃ n s v, w = n ++ s ++ v ∧ SameName n (codes name) ∧
      (∀ c ∈ s, c = 32) ∧ v ∈ value.lang := by
  simp only [known, cats, leave, enter, lang_cat, lang_leaving, lang_entering, Language.mem_mul,
    mem_lang_litI, mem_spaces]
  constructor
  · rintro ⟨n, hn, t, ⟨s, hs, v, hv, rfl⟩, rfl⟩
    exact ⟨n, s, v, by rw [List.append_assoc], hn, hs, hv⟩
  · rintro ⟨n, s, v, rfl, hn, hs, hv⟩
    exact ⟨n, hn, s ++ v, ⟨s, hs, v, hv, rfl⟩, by rw [List.append_assoc]⟩

theorem mem_known_any {name : String} {x : Action} :
    w ∈ (known name (star anyByte) x).lang ↔ ∃ n v, w = n ++ v ∧ SameName n (codes name) := by
  rw [mem_known]
  constructor
  · rintro ⟨n, s, v, rfl, hn, -, -⟩
    exact ⟨n, s ++ v, by rw [List.append_assoc], hn⟩
  · rintro ⟨n, v, rfl, hn⟩
    exact ⟨n, [], v, by simp, hn, by simp, mem_lang_any⟩

theorem or_third {a b c d : Prop} : a ∨ b ∨ c ∨ d ↔ (a ∨ b ∨ d) ∨ c := by
  tauto

theorem plain_iff : Plain w ↔ SameName w (codes "Accept:") ∨ SameName w (codes "Connection:") ∨
    SameName w (codes "Content-Type:") ∨ SameName w (codes "Host:") ∨ SameName w (codes "Upgrade:") ∨
    SameName w (codes "Sec-WebSocket-Key:") ∨ SameName w (codes "Sec-WebSocket-Version:") := by
  simp only [Plain, plainNames, List.mem_cons, List.not_mem_nil, or_false, exists_eq_or_imp,
    exists_eq_left]
  exact Iff.rfl

theorem mem_known_digits {x : Action} :
    w ∈ (known "Content-Length:" (plus (sym digit)) x).lang ↔ Counted w := by
  rw [mem_known]
  simp only [mem_lang_plus_sym]
  exact Iff.rfl

theorem mem_knownText : w ∈ knownText.lang ↔ (∃ n v, w = n ++ v ∧ Plain n) ∨ Counted w := by
  simp only [knownText, alts, lang_alt, Language.mem_add, mem_known_any, mem_known_digits, plain_iff,
    and_or_left, exists_or]
  exact or_third

theorem mem_knownStart : w ∈ knownStart.lang ↔ Plain w ∨ ∃ t, w = t ++ [13] ∧ Counted t := by
  have counted : w ∈ (cats [litI (codes "Content-Length:"), spaces, plus (sym digit), byte 13] : Expr).lang ↔
      ∃ t, w = t ++ [13] ∧ Counted t := by
    simp only [cats, lang_cat, Language.mem_mul, mem_lang_litI, mem_spaces, mem_lang_byte,
      mem_lang_plus_sym]
    constructor
    · rintro ⟨n, hn, t, ⟨s, hs, t', ⟨v, hv, e, rfl, rfl⟩, rfl⟩, rfl⟩
      exact ⟨n ++ s ++ v, by simp, n, s, v, rfl, hn, hs, hv.1, hv.2⟩
    · rintro ⟨t, rfl, n, s, v, rfl, hn, hs, hv⟩
      exact ⟨n, hn, s ++ (v ++ [13]), ⟨s, hs, v ++ [13], ⟨v, hv, [13], rfl, rfl⟩, rfl⟩, by simp⟩
  rw [knownStart]
  simp only [alts, lang_alt, Language.mem_add, mem_lang_litI, counted, plain_iff]
  exact or_third

end Grammar

section Texts

variable {w u v n m s t : List UInt8} {c x : UInt8} {l : Line}

theorem split_first (hu : x ∉ u) (hv : x ∉ v) (eq : u ++ x :: s = v ++ x :: t) : u = v ∧ s = t := by
  induction u generalizing v with
  | nil =>
    cases v with
    | nil => exact ⟨rfl, (List.cons_eq_cons.mp eq).2⟩
    | cons y v =>
      obtain ⟨rfl, -⟩ := List.cons_eq_cons.mp eq
      simp at hv
  | cons y u ih =>
    cases v with
    | nil =>
      obtain ⟨rfl, -⟩ := List.cons_eq_cons.mp eq
      simp at hu
    | cons z v =>
      rw [List.mem_cons, not_or] at hu hv
      obtain ⟨rfl, tail⟩ := List.cons_eq_cons.mp eq
      obtain ⟨rfl, rest⟩ := ih hu.2 hv.2 tail
      exact ⟨rfl, rest⟩

theorem lower_eq_iff (other : x.toNat < 65 ∨ 122 < x.toNat) : lower c = x ↔ c = x := by
  have lt := c.toNat_lt
  unfold lower
  split_ifs with letter
  · simp only [UInt8.le_iff_toNat_le, ← UInt8.toNat_inj, UInt8.toNat_add, UInt8.reduceToNat] at *
    omega
  · exact Iff.rfl

theorem SameName.mem (same : SameName n m) (other : x.toNat < 65 ∨ 122 < x.toNat) (mem : x ∈ n) :
    x ∈ m := by
  have image : lower x ∈ n.map lower := List.mem_map_of_mem mem
  rw [same] at image
  obtain ⟨c, hc, eq⟩ := List.mem_map.mp image
  rw [(lower_eq_iff other).mpr rfl, lower_eq_iff other] at eq
  exact eq ▸ hc

theorem SameName.colon (same : SameName n (m ++ [58])) : ∃ n', n = n' ++ [58] ∧ SameName n' m := by
  rw [SameName, List.map_append] at same
  obtain ⟨n', t, rfl, first, last⟩ := List.map_eq_append_iff.mp same
  obtain ⟨c, rfl⟩ : ∃ c, t = [c] := by
    rw [← List.length_eq_one_iff, ← List.length_map lower, last]
    rfl
  have colon : lower c = 58 := by simpa [lower] using last
  rw [(lower_eq_iff (by decide)).mp colon]
  exact ⟨n', rfl, first⟩

theorem plainNames_free : ∀ name ∈ plainNames, ∀ c ∈ codes name, c ≠ 58 ∧ c ≠ 13 ∧ c ≠ 10 := by
  have all : plainNames.all (fun name => (codes name).all fun c =>
      decide (c ≠ 58 ∧ c ≠ 13 ∧ c ≠ 10)) = true := by decide
  simpa only [List.all_eq_true, decide_eq_true_eq] using all

theorem Plain.colon (plain : Plain n) :
    ∃ n', n = n' ++ [58] ∧ 58 ∉ n' ∧ ∃ name ∈ plainNames, SameName n' (codes name) := by
  obtain ⟨name, hname, same⟩ := plain
  obtain ⟨n', rfl, named⟩ := same.colon
  refine ⟨n', rfl, fun mem => ?_, name, hname, named⟩
  exact (plainNames_free name hname _ (named.mem (x := 58) (by decide) mem)).1 rfl

theorem Plain.free (plain : Plain n) : 13 ∉ n := by
  obtain ⟨name, hname, same⟩ := plain
  intro mem
  have listed := same.mem (x := 13) (by decide) mem
  rw [List.mem_append] at listed
  obtain listed | listed := listed
  · exact (plainNames_free name hname _ listed).2.1 rfl
  · simp at listed

theorem Counted.free (counted : Counted w) : 13 ∉ w := by
  obtain ⟨n, s, v, rfl, same, hs, -, hv⟩ := counted
  rw [List.mem_append, List.mem_append]
  rintro ((mem | mem) | mem)
  · have listed := same.mem (x := 13) (by decide) mem
    revert listed
    decide
  · have space := hs _ mem
    revert space
    decide
  · have number := hv _ mem
    revert number
    decide

/-- A known header that goes on with a carriage return is one before it. -/
theorem knownText_cr (mem : u ++ 13 :: v ∈ knownText.lang) : u ∈ knownText.lang := by
  rw [mem_knownText] at mem ⊢
  obtain ⟨n, t, eq, plain⟩ | counted := mem
  · left
    obtain ⟨t', h, e⟩ | ⟨t', h, -⟩ := List.append_eq_append_iff.mp eq
    · cases t' with
      | nil => exact ⟨n, [], by simpa using h.symm, plain⟩
      | cons c t' =>
        obtain ⟨rfl, -⟩ := List.cons_eq_cons.mp e
        apply absurd plain.free
        rw [h]
        simp
    · exact ⟨n, t', h, plain⟩
  · exact absurd (by simp) counted.free

namespace Line

theorem Valid.free (valid : l.Valid) : 13 ∉ l.text ∧ 10 ∉ l.text ∧ 58 ∉ l.name := by
  have name : ∀ c ∈ l.name, c ≠ 13 ∧ c ≠ 10 ∧ c ≠ 58 := by
    intro c mem
    have has := valid.token c mem
    refine ⟨?_, ?_, ?_⟩ <;> rintro rfl <;> revert has <;> decide
  have middle : 13 ∉ codes ": " ∧ 10 ∉ codes ": " := by decide
  refine ⟨?_, ?_, fun mem => (name _ mem).2.2 rfl⟩
  · rw [text, List.mem_append, List.mem_append]
    rintro ((mem | mem) | mem)
    · exact (name _ mem).1 rfl
    · exact middle.1 mem
    · exact (valid.value _ mem).1 rfl
  · rw [text, List.mem_append, List.mem_append]
    rintro ((mem | mem) | mem)
    · exact (name _ mem).2.1 rfl
    · exact middle.2 mem
    · exact (valid.value _ mem).2 rfl

theorem text_eq (l : Line) : l.text = l.name ++ 58 :: 32 :: l.value := by
  rw [text, List.append_assoc]
  rfl

theorem full_eq (l : Line) : l.full = (l.text ++ [13]) ++ [10] := by
  rw [full, List.append_assoc]
  rfl

end Line

theorem knownText_trimmed : knownText.trimmed = true := by decide

/-- The machines of which the first carriage return is the end. -/
theorem guarded_cr {a : Expr} (trim : a.trimmed = true) (free : 13 ∉ u)
    (stop : ∀ v, u ++ 13 :: v ∈ a.lang → u ∈ a.lang) :
    (u ∈ a.lang → derivs (u ++ [13]) (guarded a crlf) = feed) ∧
      (u ∉ a.lang → derivs (u ++ [13]) (guarded a crlf) = void) := by
  have before := derivs_guarded (w := u) (b := crlf) (fun c mem => by
    rw [crlf_deriv, if_neg]
    rintro rfl
    exact free mem) (ne_void_of_trimmed trim)
  have cr : crlf.deriv 13 = feed := rfl
  rw [derivs_append, before, derivs_cons, derivs_nil]
  constructor
  · intro mem
    have live : derivs u a ≠ void := by
      intro dead
      rw [mem_lang, dead] at mem
      cases mem
    rw [if_neg live, Machine.deriv, if_pos ⟨mem, by rw [cr]; exact feed_ne⟩, cr]
  · intro off
    split_ifs
    · rfl
    · have dead : (derivs u a).deriv 13 = void := by
        have same : (derivs u a).deriv 13 = derivs (u ++ [13]) a := by
          rw [derivs_append]
          rfl
        rw [same, derivs_eq_void trim]
        intro v mem
        rw [List.append_assoc] at mem
        exact off (stop v mem)
      have here : (derivs u a).nullable ≠ true := off
      rw [Machine.deriv, if_neg (by simp [here]), if_pos dead]

theorem mem_knownHeader : w ∈ knownHeader.lang ↔ ∃ u, w = u ++ [13, 10] ∧ 13 ∉ u ∧ u ∈ knownText.lang := by
  have cut : ∀ u t, 13 ∉ u → (u ++ 13 :: t ∈ knownHeader.lang ↔ u ∈ knownText.lang ∧ t = [10]) := by
    intro u t free
    obtain ⟨yes, no⟩ := guarded_cr knownText_trimmed free fun v => knownText_cr
    have split : u ++ 13 :: t = (u ++ [13]) ++ t := by rw [List.append_assoc]; rfl
    rw [knownHeader_eq, split, append_mem_lang]
    by_cases mem : u ∈ knownText.lang
    · rw [yes mem, and_iff_right mem, feed, lang_cat, lang_eps, mul_one, mem_lang_byte]
    · rw [no mem, lang_void]
      exact iff_of_false (Language.notMem_zero t) fun h => mem h.1
  constructor
  · intro mem
    obtain ⟨x, y, rfl, hy⟩ := mem_lang_guarded mem
    obtain rfl : y = [13, 10] := mem_lang_lit.mp hy
    have cr : 13 ∈ x ++ [13, 10] := by simp
    obtain ⟨u, t, eq, free⟩ := List.eq_append_cons_of_mem cr
    rw [eq] at mem ⊢
    obtain ⟨known, rfl⟩ := (cut u t free).mp mem
    exact ⟨u, rfl, free, known⟩
  · rintro ⟨u, rfl, free, known⟩
    exact (cut u [10] free).mpr ⟨known, rfl⟩

/-- What makes a line one that `unknown_header` does not take. -/
def hider : Expr := cat (star anyByte) knownStart

namespace Line

/-- A string of `known_header` in a line ends where the line does, so a part of it up to the
carriage return tells. -/
theorem hides_iff (valid : l.Valid) :
    l.Hides ↔ ∃ u v, u ++ v = l.text ++ [13] ∧ u ∈ hider.lang := by
  obtain ⟨cr, -, -⟩ := valid.free
  constructor
  · rintro ⟨s, mem, x, z, eq⟩
    obtain ⟨u, rfl, free, known⟩ := mem_knownHeader.mp mem
    have parts : l.text ++ 13 :: [10] = (x ++ u) ++ 13 :: (10 :: z) := by
      rw [full] at eq
      rw [← eq]
      simp
    obtain ⟨same, -⟩ := (List.append_cons_inj_of_notMem cr (by simp)).mp parts
    rw [same]
    obtain ⟨n, v, rfl, plain⟩ | counted := mem_knownText.mp known
    · exact ⟨x ++ n, v ++ [13], by simp, mem_lang_any_cat.mpr ⟨x, n, rfl, mem_knownStart.mpr (.inl plain)⟩⟩
    · exact ⟨x ++ (u ++ [13]), [], by simp,
        mem_lang_any_cat.mpr ⟨x, _, rfl, mem_knownStart.mpr (.inr ⟨u, rfl, counted⟩)⟩⟩
  · rintro ⟨u, v, eq, mem⟩
    obtain ⟨x, y, rfl, start⟩ := mem_lang_any_cat.mp mem
    obtain plain | ⟨t, rfl, counted⟩ := mem_knownStart.mp start
    · obtain ⟨n, rfl, -, -⟩ := plain.colon
      have inside : ∃ r, l.text = x ++ (n ++ [58]) ++ r ∧ v = r ++ [13] := by
        obtain ⟨r, h, e⟩ | ⟨r, h, e⟩ := List.append_eq_append_iff.mp eq
        · exact ⟨r, h, e⟩
        · cases r with
          | nil => exact ⟨[], by simpa using h.symm, by simpa using e.symm⟩
          | cons c r =>
            -- the carriage return is not in the name
            have last := congrArg List.getLast? h
            obtain ⟨rfl, rest⟩ := List.cons_eq_cons.mp e
            obtain ⟨rfl, -⟩ := List.append_eq_nil_iff.mp rest.symm
            simp at last
      obtain ⟨r, here, rfl⟩ := inside
      refine ⟨n ++ [58] ++ r ++ [13, 10], mem_knownHeader.mpr ⟨_, rfl, ?_, ?_⟩, x, [], ?_⟩
      · rw [here, List.append_assoc, List.mem_append, not_or] at cr
        exact cr.2
      · exact mem_knownText.mpr (.inl ⟨_, r, rfl, plain⟩)
      · rw [full, here]
        simp
    · have parts : l.text ++ 13 :: [] = (x ++ t) ++ 13 :: v := by
        rw [← eq]
        simp
      obtain ⟨here, -, rfl⟩ := (List.append_cons_inj_of_notMem cr (by simp)).mp parts
      refine ⟨t ++ [13, 10], mem_knownHeader.mpr ⟨t, rfl, counted.free, mem_knownText.mpr (.inr counted)⟩,
        x, [], ?_⟩
      rw [full, here]
      simp

def Matches (l : Line) : Prop :=
  (∃ name ∈ plainNames, SameName l.name (codes name)) ∨
  (SameName l.name (codes "Content-Length") ∧ l.value ≠ [] ∧ ∀ c ∈ l.value, digit.has c = true)

instance (l : Line) : Decidable l.Matches := inferInstanceAs (Decidable (_ ∨ _))

theorem Matches.known (h : l.Matches) : l.Known := h.imp id And.left

theorem hides_of_matches (valid : l.Valid) (mem : l.text ∈ knownText.lang) : l.Hides := by
  refine ⟨l.full, ?_, List.infix_rfl⟩
  exact mem_knownHeader.mpr ⟨l.text, rfl, valid.free.1, mem⟩

theorem Valid.matches_iff (valid : l.Valid) : l.text ∈ knownText.lang ↔ l.Matches := by
  obtain ⟨-, -, free⟩ := valid.free
  rw [mem_knownText, text_eq]
  apply or_congr
  · constructor
    · rintro ⟨n, v, eq, plain⟩
      obtain ⟨n', rfl, free', named⟩ := plain.colon
      rw [List.append_assoc] at eq
      obtain ⟨rfl, -⟩ := split_first free free' eq
      exact named
    · rintro ⟨name, hname, same⟩
      refine ⟨l.name ++ [58], 32 :: l.value, by simp, name, hname, ?_⟩
      rw [SameName, List.map_append, List.map_append, same]
  · constructor
    · rintro ⟨n, s, v, eq, same, hs, ne, digits⟩
      obtain ⟨n', rfl, named⟩ := same.colon
      have free' : 58 ∉ n' := by
        intro mem
        have listed := named.mem (x := 58) (by decide) mem
        revert listed
        decide
      rw [List.append_assoc, List.append_assoc] at eq
      obtain ⟨rfl, rest⟩ := split_first free free' eq
      refine ⟨named, ?_⟩
      -- the spaces are the one behind the colon, as the value does not start with one
      cases s with
      | nil =>
        obtain rfl : 32 :: l.value = v := rest
        exact absurd (digits 32 (by simp)) (by decide)
      | cons y s =>
        obtain ⟨-, value⟩ := List.cons_eq_cons.mp rest
        cases s with
        | nil =>
          obtain rfl : l.value = v := value
          exact ⟨ne, digits⟩
        | cons z s =>
          rw [List.forall_mem_cons, List.forall_mem_cons] at hs
          apply absurd valid.first
          rw [value, hs.2.1]
          simp
    · rintro ⟨same, ne, digits⟩
      refine ⟨l.name ++ [58], [32], l.value, by simp, ?_, by simp, ne, digits⟩
      rw [SameName, List.map_append, List.map_append, same]

end Line

end Texts

end Conet.Base.HttpKnown
