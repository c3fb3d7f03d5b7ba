/- Module: Conet/Base/JsonEscape
   source: base/src/pb2json.cpp
   digest: json_str_unescape undoes json_str_escape, and no escaped text ends the literal that it stands
   in. -/

import Conet.Base.JsonWriters

set_option autoImplicit false
set_option relaxedAutoImplicit false

namespace Conet.Base.JsonEscape

open Conet.Base.JsonWriters

/-- What `json_str_unescape` makes of the byte behind a backslash. -/
def unescapeByte (ch : UInt8) : List UInt8 :=
  if ch = 34 then [34]
  else if ch = 92 then [92]
  else if ch = 47 then [47]
  else if ch = 98 then [8]
  else if ch = 102 then [12]
  else if ch = 114 then [13]
  else if ch = 110 then [10]
  else if ch = 116 then [9]
  -- `\u1234` too
  else [92, ch]

def jsonStrUnescape : List UInt8 → List UInt8
  | [] => []
  | ch :: src =>
    if ch = 92 then
      match src with
      | [] => [ch]
      | ch :: src => unescapeByte ch ++ jsonStrUnescape src
    else ch :: jsonStrUnescape src

/-- Where a scanner is inside a quoted literal: a backslash consumes the next byte, and a quote that is
not consumed closes the literal. -/
inductive Inside
  | plain
  | escape
  | closed
  deriving DecidableEq

def Inside.step : Inside → UInt8 → Inside
  | plain, c => if c = 34 then closed else if c = 92 then escape else plain
  | escape, _ => plain
  | closed, _ => closed

/-- Where the scanner is behind the text. -/
def inside (text : List UInt8) : Inside := text.foldl Inside.step .plain

variable {c : UInt8} {s text : List UInt8}

/-- The byte behind a backslash that stands for a byte with an escape of its own. -/
theorem escapeByte_pair (mem : c ∈ specials) :
    ∃ d, escapeByte c = [92, d] ∧ unescapeByte d = [c] := by
  simp only [specials, List.mem_cons, List.not_mem_nil, or_false] at mem
  rcases mem with rfl | rfl | rfl | rfl | rfl | rfl | rfl | rfl <;> exact ⟨_, rfl, rfl⟩

theorem plain_byte (plain : c ∉ specials) : c ≠ 34 ∧ c ≠ 92 := by
  simp only [specials, List.mem_cons, not_or] at plain
  exact ⟨plain.1, plain.2.1⟩

theorem jsonStrEscape_cons : jsonStrEscape (c :: s) = escapeByte c ++ jsonStrEscape s :=
  List.flatMap_cons

theorem unescape_pair :
    jsonStrUnescape (92 :: c :: text) = unescapeByte c ++ jsonStrUnescape text := rfl

theorem unescape_plain (backslash : c ≠ 92) :
    jsonStrUnescape (c :: text) = c :: jsonStrUnescape text := by
  cases text with
  | nil => simp [jsonStrUnescape, backslash]
  | cons d text => simp [jsonStrUnescape, backslash]

/-- What one byte was escaped to is read back alone, whatever follows it. -/
theorem unescape_escapeByte (text : List UInt8) :
    jsonStrUnescape (escapeByte c ++ text) = c :: jsonStrUnescape text := by
  by_cases mem : c ∈ specials
  · obtain ⟨d, pair, back⟩ := escapeByte_pair mem
    rw [pair, List.cons_append, List.singleton_append, unescape_pair, back, List.singleton_append]
  · rw [escapeByte_plain mem, List.singleton_append, unescape_plain (plain_byte mem).2]

/-- Behind an escaped byte the scanner is where it was before it. -/
theorem inside_escapeByte : (escapeByte c).foldl Inside.step .plain = .plain := by
  by_cases mem : c ∈ specials
  · obtain ⟨d, pair, -⟩ := escapeByte_pair mem
    rw [pair]
    rfl
  · obtain ⟨quote, backslash⟩ := plain_byte mem
    rw [escapeByte_plain mem]
    simp [Inside.step, quote, backslash]

theorem foldl_closed (text : List UInt8) : text.foldl Inside.step .closed = .closed := by
  induction text with
  | nil => rfl
  | cons c text ih => exact ih

theorem closed_mono (part : s <+: text) (closed : inside s = .closed) : inside text = .closed := by
  obtain ⟨rest, rfl⟩ := part
  rw [inside, List.foldl_append, ← inside, closed]
  exact foldl_closed rest

theorem unescape_jsonStrEscape (s : List UInt8) : jsonStrUnescape (jsonStrEscape s) = s := by
  induction s with
  | nil => rfl
  | cons c s ih => rw [jsonStrEscape_cons, unescape_escapeByte, ih]

theorem inside_jsonStrEscape (s : List UInt8) : inside (jsonStrEscape s) = .plain := by
  induction s with
  | nil => rfl
  | cons c s ih =>
    rw [jsonStrEscape_cons, inside, List.foldl_append, inside_escapeByte]
    exact ih

/-- Escaping loses nothing, and the escaped text is the inside of a literal: the scanner meets no quote
in it that ends the literal, and no escape is left open at its end. -/
theorem jsonStrEscape_invertible (s : List UInt8) :
    jsonStrUnescape (jsonStrEscape s) = s ∧ inside (jsonStrEscape s) = .plain ∧
      ∀ part, part <+: jsonStrEscape s → inside part ≠ .closed := by
  refine ⟨unescape_jsonStrEscape s, inside_jsonStrEscape s, ?_⟩
  intro part before closed
  have whole := closed_mono before closed
  rw [inside_jsonStrEscape] at whole
  cases whole

/-- An escape that is unknown, and a backslash at the end, stay as they are. -/
example : jsonStrUnescape [92, 117, 92, 110, 92] = [92, 117, 10, 92] := by decide

end Conet.Base.JsonEscape
