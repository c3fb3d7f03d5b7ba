/- Module: Conet/Lib/JsonTokens
   source: none (library)
   digest: The tokens of a JSON text, each string and number with what it stands for. -/

import Conet.Lib.JsonText

set_option autoImplicit false
set_option relaxedAutoImplicit false

namespace Conet.Lib.Json

/-- The tokens; a mark is one of the brackets and braces, the comma or the colon. -/
inductive Token
  | mark (c : UInt8)
  | string (x : List UInt8)
  | number (q : ℚ)
  | word (text : List UInt8)

def isMark (c : UInt8) : Bool := c == 91 || c == 93 || c == 123 || c == 125 || c == 44 || c == 58

/-- `null`, `true` and `false`. -/
def words : List (List UInt8) :=
  [[110, 117, 108, 108], [116, 114, 117, 101], [102, 97, 108, 115, 101]]

/-- The text is the sequence of the tokens, with spaces between them. -/
inductive Lexes : List UInt8 → List Token → Prop
  | nil : Lexes [] []
  | space {c : UInt8} {s : List UInt8} {ts : List Token} (space : isSpace c = true)
      (rest : Lexes s ts) : Lexes (c :: s) ts
  | mark {c : UInt8} {s : List UInt8} {ts : List Token} (mark : isMark c = true)
      (rest : Lexes s ts) : Lexes (c :: s) (.mark c :: ts)
  | string {x s s' : List UInt8} {ts : List Token} (found : string s = some (x, s'))
      (rest : Lexes s' ts) : Lexes (34 :: s) (.string x :: ts)
  | number {c : UInt8} {q : ℚ} {s s' : List UInt8} {ts : List Token}
      (start : c = 45 ∨ isDigit c = true) (found : number (c :: s) = some (q, s'))
      (rest : Lexes s' ts) : Lexes (c :: s) (.number q :: ts)
  | word {c : UInt8} {text s s' : List UInt8} {ts : List Token} (known : c :: text ∈ words)
      (found : s = text ++ s') (rest : Lexes s' ts) : Lexes (c :: s) (.word (c :: text) :: ts)

variable {c : UInt8} {s t x : List UInt8} {ts : List Token} {q : ℚ} {z : ℤ}

end Conet.Lib.Json
