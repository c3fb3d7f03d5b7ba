/- Module: Conet/Base/UrlEncode
   source: base/src/url_encode.cpp
   digest: Which byte strings come back when they are encoded for a url and decoded. -/

import Conet.Base.QueryString

set_option autoImplicit false
set_option relaxedAutoImplicit false

namespace Conet.Base.UrlEncode

open Conet.Base.HttpParser Conet.Base.QueryString

def hex : List UInt8 := codes "0123456789ABCDEF"

/-- What `url_encode` adds for a byte. -/
def urlEncodeByte (cc : UInt8) : List UInt8 :=
  if cc.toNat < 128 then if cc = 32 then codes "%20" else [cc]
  else [37, hex.getD (cc.toNat / 16) 0, hex.getD (cc.toNat % 16) 0]

/-- `url_encode`, which appends to `out`. -/
def urlEncode (src out : List UInt8) : List UInt8 :=
  src.foldl (fun dst cc => dst ++ urlEncodeByte cc) out

/-- A percent sign in front of two hexadecimal digits. -/
def Escapes (s : List UInt8) : Prop :=
  ∃ a b, [37, a, b] <:+: s ∧ (hexChar a).isSome ∧ (hexChar b).isSome

/-- The text starts with two hexadecimal digits. -/
def HexPair : List UInt8 → Prop
  | a :: b :: _ => (hexChar a).isSome ∧ (hexChar b).isSome
  | _ => False

theorem HexPair.split {cs : List UInt8} (pair : HexPair cs) : ∃ a b rest, cs = a :: b :: rest := by
  rcases cs with _ | ⟨a, _ | ⟨b, cs⟩⟩
  · exact pair.elim
  · exact pair.elim
  · exact ⟨a, b, cs, rfl⟩

section Decoding

variable {c a b : UInt8} {cs t : List UInt8}

theorem urlDecode_of_ne (ne : c ≠ 37) : urlDecode (c :: cs) = c :: urlDecode cs := by
  rw [urlDecode.eq_def]
  split
  · rename_i same
    exact absurd (List.cons.inj same).1 ne
  · rename_i same
    obtain ⟨rfl, rfl⟩ := List.cons.inj same
    rfl
  · rename_i same
    simp at same

theorem urlDecode_percent (plain : ¬ HexPair cs) : urlDecode (37 :: cs) = 37 :: urlDecode cs := by
  rcases cs with _ | ⟨a, _ | ⟨b, cs⟩⟩
  · rfl
  · rfl
  · rw [urlDecode]
    cases first : hexChar a with
    | none => rfl
    | some v =>
      cases second : hexChar b with
      | none => rfl
      | some v2 => exact absurd ⟨by simp [first], by simp [second]⟩ plain

theorem urlDecode_escape {v v2 : ℕ} (first : hexChar a = some v) (second : hexChar b = some v2) :
    urlDecode (37 :: a :: b :: cs) = UInt8.ofNat (v * 16 + v2) :: urlDecode cs := by
  rw [urlDecode, first, second]

theorem urlDecode_length_le (t : List UInt8) : (urlDecode t).length ≤ t.length := by
  induction h : t.length using Nat.strong_induction_on generalizing t with
  | _ n ih =>
  subst h
  rcases t with _ | ⟨c, cs⟩
  · simp [urlDecode]
  have rest := ih cs.length (by simp) cs rfl
  by_cases percent : c = 37
  · subst percent
    by_cases pair : HexPair cs
    · obtain ⟨a, b, rest', rfl⟩ := pair.split
      obtain ⟨v, first⟩ := Option.isSome_iff_exists.mp pair.1
      obtain ⟨v2, second⟩ := Option.isSome_iff_exists.mp pair.2
      have behind := ih rest'.length (by simp only [List.length_cons]; omega) rest' rfl
      rw [urlDecode_escape first second]
      simp only [List.length_cons]
      omega
    · rw [urlDecode_percent pair]
      simpa using rest
  · rw [urlDecode_of_ne percent]
    simpa using rest

end Decoding

section Encoding

variable {c : UInt8} {cs s : List UInt8}

theorem urlEncode_eq (src out : List UInt8) : urlEncode src out = out ++ src.flatMap urlEncodeByte := by
  induction src generalizing out with
  | nil => simp [urlEncode]
  | cons c src ih =>
    have rest := ih (out ++ urlEncodeByte c)
    rw [urlEncode] at rest ⊢
    rw [List.foldl_cons, rest, List.flatMap_cons, List.append_assoc]

theorem urlEncode_cons : urlEncode (c :: cs) [] = urlEncodeByte c ++ urlEncode cs [] := by
  simp [urlEncode_eq]

theorem hexChar_hex : ∀ i < 16, hexChar (hex.getD i 0) = some i := by
  decide

theorem hexChar_bounds (digit : (hexChar c).isSome = true) : 48 ≤ c.toNat ∧ c.toNat ≤ 102 := by
  unfold hexChar isDigit at digit
  split_ifs at digit with numeral small large
  · simp only [Bool.and_eq_true, decide_eq_true_eq, UInt8.le_iff_toNat_le, UInt8.reduceToNat] at numeral
    omega
  · simp only [UInt8.le_iff_toNat_le, UInt8.reduceToNat] at small
    omega
  · simp only [UInt8.le_iff_toNat_le, UInt8.reduceToNat] at large
    omega
  · cases digit

/-- The digits are not encoded, and what is none starts with none when it is encoded. -/
theorem urlEncodeByte_cases (c : UInt8) :
    (hexChar c).isSome = true ∧ urlEncodeByte c = [c] ∨
      (hexChar c).isSome = false ∧ ∃ d ds, urlEncodeByte c = d :: ds ∧ (hexChar d).isSome = false := by
  cases kind : (hexChar c).isSome with
  | true =>
    obtain ⟨ge, le⟩ := hexChar_bounds kind
    have blank : c ≠ 32 := by
      rintro rfl
      exact absurd ge (by decide)
    exact .inl ⟨rfl, by rw [urlEncodeByte, if_pos (by omega), if_neg blank]⟩
  | false =>
    refine .inr ⟨rfl, ?_⟩
    unfold urlEncodeByte
    split_ifs with ascii blank
    · exact ⟨37, [50, 48], by decide, by decide⟩
    · exact ⟨c, [], rfl, kind⟩
    · exact ⟨37, _, rfl, by decide⟩

theorem hexPair_urlEncode : HexPair (urlEncode s []) ↔ HexPair s := by
  rcases s with _ | ⟨a, s⟩
  · rfl
  rw [urlEncode_cons]
  rcases urlEncodeByte_cases a with ⟨first, text⟩ | ⟨first, d, ds, text, other⟩
  · rw [text, List.singleton_append]
    rcases s with _ | ⟨b, s⟩
    · rfl
    rw [urlEncode_cons]
    rcases urlEncodeByte_cases b with ⟨second, text⟩ | ⟨second, d, ds, text, other⟩
    · rw [text, List.singleton_append]
      rfl
    · rw [text, List.cons_append]
      simp [HexPair, second, other]
  · rw [text, List.cons_append]
    have none : ¬ HexPair (d :: (ds ++ urlEncode s [])) := by
      cases ds ++ urlEncode s [] with
      | nil => exact not_false
      | cons e es => simp [HexPair, other]
    refine iff_of_false none ?_
    cases s with
    | nil => exact not_false
    | cons e es => simp [HexPair, first]

/-- A byte in front of others comes back, unless it is a percent sign before two digits. -/
theorem urlDecode_urlEncode_cons (plain : c = 37 → ¬ HexPair cs) :
    urlDecode (urlEncode (c :: cs) []) = c :: urlDecode (urlEncode cs []) := by
  rw [urlEncode_cons, urlEncodeByte]
  have lt := c.toNat_lt
  split_ifs with ascii space
  · subst space
    exact urlDecode_escape (show hexChar 50 = some 2 by decide) (show hexChar 48 = some 0 by decide)
  · rw [List.singleton_append]
    by_cases percent : c = 37
    · subst percent
      exact urlDecode_percent fun pair => plain rfl (hexPair_urlEncode.mp pair)
    · exact urlDecode_of_ne percent
  · have back : UInt8.ofNat (c.toNat / 16 * 16 + c.toNat % 16) = c := by
      rw [Nat.div_add_mod', UInt8.ofNat_toNat]
    have decoded : urlDecode (37 :: _ :: _ :: urlEncode cs []) = _ := urlDecode_escape
      (hexChar_hex (c.toNat / 16) (by omega)) (hexChar_hex (c.toNat % 16) (by omega))
    rw [back] at decoded
    exact decoded

theorem escapes_cons : Escapes (c :: cs) ↔ (c = 37 ∧ HexPair cs) ∨ Escapes cs := by
  constructor
  · rintro ⟨a, b, part, first, second⟩
    rcases List.infix_cons_iff.mp part with front | part
    · obtain ⟨rest, eq⟩ := front
      obtain ⟨rfl, rfl⟩ := List.cons.inj eq
      exact .inl ⟨rfl, first, second⟩
    · exact .inr ⟨a, b, part, first, second⟩
  · rintro (⟨rfl, pair⟩ | ⟨a, b, part, digits⟩)
    · obtain ⟨a, b, rest, rfl⟩ := pair.split
      exact ⟨a, b, ⟨[], rest, rfl⟩, pair⟩
    · exact ⟨a, b, List.infix_cons part, digits⟩

/-- A percent sign before two digits is taken as their byte. -/
theorem urlDecode_urlEncode_pair (pair : HexPair cs) : ∃ x rest, rest.length + 2 = cs.length ∧
    urlDecode (urlEncode (37 :: cs) []) = x :: urlDecode (urlEncode rest []) := by
  obtain ⟨a, b, rest, rfl⟩ := HexPair.split pair
  have digit {d : UInt8} (hex : (hexChar d).isSome = true) : urlEncodeByte d = [d] := by
    rcases urlEncodeByte_cases d with ⟨-, text⟩ | ⟨none, -⟩
    · exact text
    · rw [hex] at none
      simp at none
  obtain ⟨v, first⟩ := Option.isSome_iff_exists.mp pair.1
  obtain ⟨v2, second⟩ := Option.isSome_iff_exists.mp pair.2
  have text : urlEncode (37 :: a :: b :: rest) [] = 37 :: a :: b :: urlEncode rest [] := by
    rw [urlEncode_cons, urlEncode_cons, urlEncode_cons, digit pair.1, digit pair.2]
    rfl
  exact ⟨UInt8.ofNat (v * 16 + v2), rest, rfl, by rw [text, urlDecode_escape first second]⟩

theorem urlDecode_urlEncode_length_le (s : List UInt8) :
    (urlDecode (urlEncode s [])).length ≤ s.length := by
  induction h : s.length using Nat.strong_induction_on generalizing s with
  | _ n ih =>
  subst h
  rcases s with _ | ⟨c, cs⟩
  · simp [urlEncode, urlDecode]
  by_cases plain : c = 37 → ¬ HexPair cs
  · rw [urlDecode_urlEncode_cons plain]
    simpa using ih cs.length (by simp) cs rfl
  · obtain ⟨rfl, pair⟩ := Classical.not_imp.mp plain
    obtain ⟨x, rest, length, decoded⟩ := urlDecode_urlEncode_pair (not_not.mp pair)
    have behind := ih rest.length (by simp only [List.length_cons]; omega) rest rfl
    rw [decoded]
    simp only [List.length_cons]
    omega

theorem urlDecode_urlEncode_iff (s : List UInt8) :
    urlDecode (urlEncode s []) = s ↔ ¬ Escapes s := by
  induction s with
  | nil =>
    refine iff_of_true rfl ?_
    rintro ⟨a, b, part, -⟩
    simp at part
  | cons c cs ih =>
    rw [escapes_cons, not_or, ← ih]
    by_cases plain : c = 37 → ¬ HexPair cs
    · rw [urlDecode_urlEncode_cons plain, List.cons_inj_right, not_and]
      exact (and_iff_right plain).symm
    · obtain ⟨rfl, pair⟩ := Classical.not_imp.mp plain
      obtain ⟨x, rest, length, decoded⟩ := urlDecode_urlEncode_pair (not_not.mp pair)
      have behind := urlDecode_urlEncode_length_le rest
      refine iff_of_false ?_ fun h => h.1 ⟨rfl, not_not.mp pair⟩
      -- two bytes are missing
      intro same
      have lengths := congrArg List.length (decoded.symm.trans same)
      simp only [List.length_cons] at lengths
      omega

end Encoding

/-- The byte strings that come back, while decoding never makes a text longer. -/
theorem url_round_trip_iff (s : List UInt8) :
    (urlDecode (urlEncode s []) = s ∧ ∀ t, (urlDecode t).length ≤ t.length) ↔ ¬ Escapes s := by
  rw [and_iff_left urlDecode_length_le]
  exact urlDecode_urlEncode_iff s

/-- `%41` comes back as `A`. -/
theorem url_round_trip_escape : ¬ ∀ s : List UInt8,
    urlDecode (urlEncode s []) = s ∧ ∀ t, (urlDecode t).length ≤ t.length := by
  intro claim
  exact absurd (claim (codes "%41")).1 (by decide)

end Conet.Base.UrlEncode
