/- Module: Conet/Base/StringTpl
   source: base/string_tpl.h
   digest: string_tpl substitutes the values of a map for the tags of a template. -/

import Conet.Base.HttpParser
import Conet.Lib.Find
import Conet.Lib.Loop
import Mathlib.Data.Int.Notation

set_option autoImplicit false
set_option relaxedAutoImplicit false

namespace Conet.Base.StringTpl

open Conet.Lib Conet.Base.HttpParser

section Code

def preTag : List UInt8 := codes "\x7b\x7b"

def postTag : List UInt8 := codes "\x7d\x7d"

/-- `std::string::find(pat, pos, pat.size())`; `none` stands for `npos`. -/
def findFrom (s pat : List UInt8) (pos : ℕ) : Option ℕ := (find pat (s.drop pos)).map (pos + ·)

/-- What `string_tpl` returns, `*out`, and what `*errmsg` is set to where it is given. -/
structure Result where
  ret : ℤ
  out : List UInt8
  errmsg : Option (List UInt8)
  deriving DecidableEq

/-- `pre_pos` and `*out` at the start of a round. -/
structure Round where
  prePos : ℕ
  out : List UInt8

variable (tpl : List UInt8) (datas : List UInt8 → Option (List UInt8))

/-- One round of `string_tpl`; `datas` is what `datas.find` finds. -/
def round (r : Round) : Turn Round Result :=
  match findFrom tpl preTag r.prePos with
  | some curPos =>
    let out := r.out ++ (tpl.drop r.prePos).take (curPos - r.prePos)
    match findFrom tpl postTag (curPos + 2) with
    | some endPos =>
      let name := (tpl.drop (curPos + 2)).take (endPos - curPos - 2)
      match datas name with
      | none => .leave ⟨-1, out, some (codes "no found key data, key:" ++ name)⟩
      | some value => .again ⟨endPos + 2, out ++ value⟩
    | none => .leave ⟨-2, out, none⟩
  -- the length `npos` is all that is left
  | none => .leave ⟨0, r.out ++ tpl.drop r.prePos, none⟩

/-- `string_tpl` returns `result`. -/
def stringTplReturns (out : List UInt8) (result : Result) : Prop :=
  Loop.Returns (round tpl datas) ⟨0, out⟩ result

end Code

/-- The substitution: each `{{` starts a tag, which the first `}}` behind it ends and whose name is what
stands between them. It gives the text, the code that is returned, and the name that is missing. -/
inductive Expands (datas : List UInt8 → Option (List UInt8)) :
    List UInt8 → List UInt8 → ℤ → Option (List UInt8) → Prop
  | done {tpl : List UInt8} : ¬ preTag <:+: tpl → Expands datas tpl tpl 0 none
  | tag {tpl text body name rest value out : List UInt8} {ret : ℤ}
      {missing : Option (List UInt8)} : First preTag tpl text body → First postTag body name rest →
      datas name = some value → Expands datas rest out ret missing →
      Expands datas tpl (text ++ (value ++ out)) ret missing
  | unknown {tpl text body name rest : List UInt8} : First preTag tpl text body →
      First postTag body name rest → datas name = none → Expands datas tpl text (-1) (some name)
  | unclosed {tpl text body : List UInt8} : First preTag tpl text body → ¬ postTag <:+: body →
      Expands datas tpl text (-2) none

section Positions

variable {tpl pat pre text body rest out name : List UInt8} {pos : ℕ}
  {datas : List UInt8 → Option (List UInt8)} {ret : ℤ} {missing : Option (List UInt8)}

theorem findFrom_first (here : tpl.drop pos = body) (first : First pat body pre rest) :
    findFrom tpl pat pos = some (pos + pre.length) := by
  rw [findFrom, here, find_first first]
  rfl

theorem findFrom_none (here : tpl.drop pos = body) (absent : ¬ pat <:+: body) :
    findFrom tpl pat pos = none := by
  rw [findFrom, here, find_none absent]
  rfl

theorem drop_first (here : tpl.drop pos = body) (first : First pat body pre rest) :
    tpl.drop (pos + pre.length + pat.length) = rest := by
  rw [Nat.add_assoc, ← List.drop_drop, here, first.drop]

theorem round_open (datas : List UInt8 → Option (List UInt8))
    (first : First preTag (tpl.drop pos) text body) (before : List UInt8) :
    tpl.drop (pos + text.length + 2) = body ∧
      round tpl datas ⟨pos, before⟩ = match findFrom tpl postTag (pos + text.length + 2) with
        | some endPos =>
          match datas ((tpl.drop (pos + text.length + 2)).take
              (endPos - (pos + text.length) - 2)) with
          | none => .leave ⟨-1, before ++ text, some (codes "no found key data, key:" ++
              (tpl.drop (pos + text.length + 2)).take (endPos - (pos + text.length) - 2))⟩
          | some value => .again ⟨endPos + 2, before ++ text ++ value⟩
        | none => .leave ⟨-2, before ++ text, none⟩ := by
  have text_eq : (tpl.drop pos).take (pos + text.length - pos) = text := by
    rw [Nat.add_sub_cancel_left, first.take]
  refine ⟨drop_first rfl first, ?_⟩
  simp only [round, findFrom_first rfl first, text_eq]

theorem round_closed (datas : List UInt8 → Option (List UInt8))
    (first : First preTag (tpl.drop pos) text body)
    (close : First postTag body name rest) (before : List UInt8) :
    tpl.drop (pos + text.length + 2 + name.length + 2) = rest ∧
      round tpl datas ⟨pos, before⟩ = match datas name with
        | none => .leave ⟨-1, before ++ text, some (codes "no found key data, key:" ++ name)⟩
        | some value =>
          .again ⟨pos + text.length + 2 + name.length + 2, before ++ text ++ value⟩ := by
  obtain ⟨next, opened⟩ := round_open datas first before
  have length : pos + text.length + 2 + name.length - (pos + text.length) - 2 = name.length := by
    omega
  refine ⟨drop_first next close, ?_⟩
  rw [opened, findFrom_first next close, next]
  simp only [length, close.take]

/-- The rounds from a position on append the expansion of what stands there. -/
theorem returns_of_expands (expands : Expands datas body out ret missing)
    (here : tpl.drop pos = body) (before : List UInt8) :
    Loop.Returns (round tpl datas) ⟨pos, before⟩
      ⟨ret, before ++ out, missing.map (codes "no found key data, key:" ++ ·)⟩ := by
  induction expands generalizing pos before with
  | done absent =>
    apply Loop.Returns.of_leave
    simp only [round, findFrom_none here absent, here, Option.map_none]
  | tag first close known _ ih =>
    rw [← here] at first
    obtain ⟨next, turn⟩ := round_closed datas first close before
    rw [known] at turn
    rw [Loop.returns_again turn, ← List.append_assoc, ← List.append_assoc]
    exact ih next _
  | unknown first close unknown =>
    rw [← here] at first
    obtain ⟨-, turn⟩ := round_closed datas first close before
    rw [unknown] at turn
    exact Loop.Returns.of_leave turn
  | unclosed first absent =>
    rw [← here] at first
    obtain ⟨next, turn⟩ := round_open datas first before
    rw [findFrom_none next absent] at turn
    exact Loop.Returns.of_leave turn

theorem exists_expands (datas : List UInt8 → Option (List UInt8)) (tpl : List UInt8) :
    ∃ out ret missing, Expands datas tpl out ret missing := by
  induction length : tpl.length using Nat.strong_induction_on generalizing tpl with
  | _ n ih =>
    obtain absent | ⟨text, body, first⟩ := infix_or_first preTag tpl
    · exact ⟨tpl, 0, none, .done absent⟩
    obtain absent | ⟨name, rest, close⟩ := infix_or_first postTag body
    · exact ⟨text, -2, none, .unclosed first absent⟩
    cases known : datas name with
    | none => exact ⟨text, -1, some name, .unknown first close known⟩
    | some value =>
      have shorter : rest.length < n := by
        have outer := congrArg List.length first.split
        have inner := congrArg List.length close.split
        simp only [List.length_append] at outer inner
        have two : postTag.length = 2 := rfl
        omega
      obtain ⟨out, ret, missing, expands⟩ := ih _ shorter rest rfl
      exact ⟨text ++ (value ++ out), ret, missing, .tag first close known expands⟩

end Positions

/-- `string_tpl` returns, and what it has appended is the expansion of the template; on failure that is
the expansion of the part before the tag. -/
theorem stringTpl_expands (tpl : List UInt8) (datas : List UInt8 → Option (List UInt8))
    (out : List UInt8) :
    (∃ result, stringTplReturns tpl datas out result) ∧
      ∀ result, stringTplReturns tpl datas out result ↔
        ∃ text missing, Expands datas tpl text result.ret missing ∧
          result.out = out ++ text ∧
          result.errmsg = missing.map (codes "no found key data, key:" ++ ·) := by
  obtain ⟨text, ret, missing, expands⟩ := exists_expands datas tpl
  have returns := returns_of_expands expands List.drop_zero out
  refine ⟨⟨_, returns⟩, fun result => ⟨fun other => ?_, fun ⟨text, missing, other, same⟩ => ?_⟩⟩
  · obtain rfl := returns.unique other
    exact ⟨text, missing, expands, rfl, rfl⟩
  · obtain ⟨ret, out', errmsg⟩ := result
    obtain ⟨rfl, rfl⟩ := same
    exact returns_of_expands other List.drop_zero out

/-- A brace before a tag belongs to its name, and the value is not expanded again. -/
example : Loop.run (round (codes "a\x7b\x7b\x7bx\x7d\x7d\x7d") fun name =>
      if name = codes "\x7bx" then some (codes "\x7b\x7bx\x7d\x7d") else none) 2 ⟨0, []⟩ =
    .returned ⟨0, codes "a\x7b\x7bx\x7d\x7d\x7d", none⟩ := by decide

end Conet.Base.StringTpl
