/- Module: Conet/Base/RedisParse
   source: base/src/redis_parse.rl, base/redis_parse.h
   digest: The parser of redis commands, which stands in the error state before its first byte. -/

import Conet.Lib.RagelLang
import Conet.Base.HttpParser
import Conet.Base.String2number

set_option autoImplicit false
set_option relaxedAutoImplicit false

namespace Conet.Base.RedisParse

open Conet.Lib.Ragel Conet.Lib.Ragel.Machine Conet.Base.StringBuilder
open Conet.Base.HttpParser (codes)

/-! ### The grammar -/

inductive Action
  | argnumAddDigit
  | argsizeReset
  | argsizeAddDigit
  | argsInit
  | argInit
  | endArg
  | doSetCmd
  | doGetCmd
  deriving DecidableEq

section Grammar

def digit : Machine Action := sym [(48, 57)]

def crlf : Machine Action := lit [13, 10]

def redisArgnum : Machine Action :=
  cats [byte 42, plus (digit.finish .argnumAddDigit), crlf]

def redisArgsize : Machine Action :=
  cats [(byte 36).finish .argsizeReset, plus (digit.finish .argsizeAddDigit), crlf]

def redisArgBody : Machine Action := cat (plus anyByte) (crlf.finish .endArg)

def redisArgs : Machine Action := plus (cat (redisArgsize.finish .argInit) redisArgBody)

def getCmd : Machine Action := cat ((lit (codes "$3\r\nget\r\n")).finish .doGetCmd) redisArgs

def setCmd : Machine Action := cat ((lit (codes "$3\r\nset\r\n")).finish .doSetCmd) redisArgs

def redisExpr : Machine Action := (stamp (cat (redisArgnum.finish .argsInit) (alt getCmd setCmd)) 0).1

end Grammar

/-! ### The parser -/

section Code

/-- The numbers that the generated code has for the states of the machine, with `void` for the error
state; `firstFinal` is the first number of a final state. -/
structure Numbering where
  number : Machine Action → ℤ
  state : ℤ → Machine Action
  firstFinal : ℤ

/-- `redis_parser_t`. Pointers into the buffer are positions in it, `cur_arg` is a place in `_reserve`,
and `reserve` holds the slices that have been stored there, with their lengths. -/
structure RedisParser where
  argnum : ℤ
  args : Bool
  curArgPos : ℤ
  curArgSize : ℤ
  curArgP : ℤ
  curArg : ℤ
  cmd : ℤ
  status : ℤ
  nread : ℤ
  reserve : ℤ → Option (ℤ × ℤ)

/-- A parser, and the variable `cs` of the file. -/
structure File where
  cs : ℤ
  sc : RedisParser

variable (gen : Numbering)

/-- `reinit`. The start state is written to the variable of the file. -/
def reinit (file : File) : File :=
  ⟨gen.number redisExpr,
    { file.sc with argnum := 0, cmd := 0, curArgPos := 0, status := 0, nread := 0 }⟩

/-- An action at the position `p`, with the byte there; `cs` is the variable of the function. -/
def act (p : ℤ) (fc : UInt8) (s : ℤ × RedisParser) : Action → ℤ × RedisParser
  | .argnumAddDigit => (s.1, { s.2 with argnum := s.2.argnum * 10 + (fc.toNat - 48) })
  | .argsizeReset => (s.1, { s.2 with curArgSize := 0 })
  | .argsizeAddDigit => (s.1, { s.2 with curArgSize := s.2.curArgSize * 10 + (fc.toNat - 48) })
  | .argsInit => (s.1, { s.2 with curArgPos := -1, args := true })
  | .argInit =>
    (s.1, { s.2 with curArgPos := s.2.curArgPos + 1, curArg := s.2.curArgPos + 1, curArgP := p + 1 })
  | .endArg =>
    (if s.2.argnum ≤ s.2.curArgPos then gen.firstFinal else s.1,
      { s.2 with
        reserve := Function.update s.2.reserve s.2.curArg (some (s.2.curArgP, p - 1 - s.2.curArgP)) })
  | .doSetCmd => (s.1, { s.2 with cmd := 1, argnum := 2 })
  | .doGetCmd => (s.1, { s.2 with cmd := 2, argnum := 1 })

/-- The generated loop from the position `p` on, in the state `cs`: where it stops, and in which state. -/
def exec : ℤ → List UInt8 → ℤ → RedisParser → ℤ × ℤ × RedisParser
  | p, [], cs, sc => (p, cs, sc)
  | p, fc :: rest, cs, sc =>
    if gen.state cs = .void then (p, cs, sc)
    else
      let m := gen.state cs
      let target := gen.number (m.deriv fc)
      let (cs, sc) := (m.actions fc).foldl (act gen p fc) (target, sc)
      if gen.state cs = .void then (p, cs, sc) else exec (p + 1) rest cs sc

def redisParserExec (sc : RedisParser) (data : List UInt8) (len off : ℤ) : ℤ × RedisParser :=
  if off > len then (-1, sc)
  else
    let (p, cs, sc) := exec gen off ((data.take len.toNat).drop off.toNat) sc.status sc
    let sc := { sc with status := cs, nread := sc.nread + (p - off) }
    (sc.nread, sc)

def redisParserFinish (sc : RedisParser) : ℤ :=
  if sc.status = gen.number .void then -1
  else if sc.status ≥ gen.firstFinal then 1
  else 0

end Code

/-! ### Commands -/

section Commands

/-- A text of the protocol: the number of its bytes in front of it. -/
def bulk (text : List UInt8) : List UInt8 := 36 :: (decimal text.length ++ [13, 10] ++ text ++ [13, 10])

/-- A command, with the key of `get`, or the key and the value of `set`. -/
inductive Command
  | get (key : List UInt8)
  | set (key value : List UInt8)

def Command.code : Command → ℤ
  | get _ => 2
  | set _ _ => 1

def Command.args : Command → List (List UInt8)
  | get key => [key]
  | set key value => [key, value]

/-- The number of the texts, and the texts. -/
def Command.text : Command → List UInt8
  | get key => codes "*2\r\n" ++ bulk (codes "get") ++ bulk key
  | set key value => codes "*3\r\n" ++ bulk (codes "set") ++ bulk key ++ bulk value

/-- Calls of `redis_parser_exec`, with the length and the offset of each. -/
def run (gen : Numbering) (data : List UInt8) (calls : List (ℤ × ℤ)) (sc : RedisParser) : RedisParser :=
  calls.foldl (fun sc call => (redisParserExec gen sc data call.1 call.2).2) sc

/-- The calls that present a buffer from `off` on, some bytes more in each. -/
def chunkCalls : ℕ → List ℕ → List (ℤ × ℤ)
  | _, [] => []
  | off, more :: chunks => ((off + more : ℕ), off) :: chunkCalls (off + more) chunks

/-- The parser says that the command is complete just when it is, and has its arguments then. -/
structure Delivered (gen : Numbering) (command : Command) (chunks : List ℕ) (sc : RedisParser) :
    Prop where
  finished : redisParserFinish gen sc = 1 ↔ chunks.sum = command.text.length
  cmd : chunks.sum = command.text.length → sc.cmd = command.code
  nread : chunks.sum = command.text.length → sc.nread = command.text.length
  args : chunks.sum = command.text.length → ∀ i (small : i < command.args.length), ∃ pos size : ℕ,
    sc.reserve i = some ((pos : ℤ), (size : ℤ)) ∧ (command.text.drop pos).take size = command.args[i]

variable {gen : Numbering} {sc : RedisParser} {data : List UInt8} {p len off : ℤ}

theorem exec_error (zero : gen.state 0 = .void) : exec gen p data 0 sc = (p, 0, sc) := by
  cases data with
  | nil => rfl
  | cons fc rest => rw [exec, if_pos zero]

theorem redisParserExec_error (zero : gen.state 0 = .void) (status : sc.status = 0) :
    (redisParserExec gen sc data len off).2 = sc := by
  unfold redisParserExec
  split_ifs
  · rfl
  · have same : { sc with status := 0, nread := sc.nread + (off - off) } = sc := by
      rw [Int.sub_self, Int.add_zero, ← status]
    rw [status, exec_error zero]
    exact same

theorem run_error (zero : gen.state 0 = .void) (status : sc.status = 0) (calls : List (ℤ × ℤ)) :
    run gen data calls sc = sc := by
  induction calls with
  | nil => rfl
  | cons call calls ih =>
    rw [run, List.foldl_cons, redisParserExec_error zero status]
    exact ih

/-- However a command is presented, when it is complete it is not delivered; and whatever is presented,
no argument is stored. -/
theorem command_not_delivered (gen : Numbering) (zero : gen.state 0 = .void)
    (error : gen.number .void = 0) (file : File) :
    (∀ (command : Command) (chunks : List ℕ), chunks.sum = command.text.length →
      ¬ Delivered gen command chunks
        (run gen command.text (chunkCalls 0 chunks) (reinit gen file).sc)) ∧
    ∀ (data : List UInt8) (calls : List (ℤ × ℤ)),
      (run gen data calls (reinit gen file).sc).reserve = file.sc.reserve := by
  refine ⟨fun command chunks whole delivered => ?_, fun data calls => ?_⟩
  · have finished := delivered.finished.mpr whole
    rw [run_error zero rfl, redisParserFinish, error] at finished
    cases finished
  · rw [run_error zero rfl]
    rfl

/-- The numbers of the first two states, as the compiler gives them: zero for the error state, one for
the start. -/
def firstStates : Numbering where
  number m := if m = .void then 0 else if m = redisExpr then 1 else 2
  state n := if n = 0 then .void else redisExpr
  firstFinal := 2

def initialFile : File := ⟨0, ⟨0, false, 0, 0, 0, 0, 0, 0, 0, fun _ => none⟩⟩

theorem command_not_delivered_firstStates :
    (∀ (command : Command) (chunks : List ℕ), chunks.sum = command.text.length →
      ¬ Delivered firstStates command chunks
        (run firstStates command.text (chunkCalls 0 chunks) (reinit firstStates initialFile).sc)) ∧
    ∀ (data : List UInt8) (calls : List (ℤ × ℤ)),
      (run firstStates data calls (reinit firstStates initialFile).sc).reserve = fun _ => none :=
  command_not_delivered firstStates rfl rfl initialFile

/-- `get a`, presented at once. -/
theorem get_not_finished : ¬ ∀ (command : Command) (chunks : List ℕ),
    chunks.sum = command.text.length →
      redisParserFinish firstStates
        (run firstStates command.text (chunkCalls 0 chunks) (reinit firstStates initialFile).sc) = 1 := by
  intro always
  have finished := always (.get [97]) [(Command.get [97]).text.length] (List.sum_singleton ..)
  rw [run_error rfl rfl] at finished
  cases finished

end Commands

end Conet.Base.RedisParse
