/- Module: Conet/Svrkit/RpcHttpReply
   source: svrkit/src/rpc_pb_server_base.cpp
   digest: The texts that answer requests over http, and which of them are the JSON objects that they
   should be. -/

import Conet.Base.JsonWritersAgree
import Conet.Svrkit.RpcHttp

set_option autoImplicit false
set_option relaxedAutoImplicit false

namespace Conet.Svrkit.RpcHttp

open Conet.Lib.DynMessage Conet.Lib.Json Conet.Base.HttpParser Conet.Base.QueryString
open Conet.Base.JsonWriters
open Conet.Base.String2number (numberText)

variable {D F : Type}

section Reply

variable (ft : FloatText F) (sch : D → Descriptor D (Scalar F)) (t : D)

/-- The text that is put together once the handler is back. -/
def outTxt (r : Called (Msg (Scalar F))) : List UInt8 :=
  let text := codes "\x7b\"ret\":" ++ tmpText 30 (numberText r.ret.toInt32.toInt)
  let text := if r.errmsg = [] then text else text ++ codes ",\"errmsg\":" ++ r.errmsg
  let text := match r.rsp with
    | none => text
    | some rsp1 => text ++ codes ",\"body\":" ++ pb2jsonText ft sch t rsp1
  text ++ codes "\x7d"

/-- The text for a request that cannot be decoded. -/
def paramError (ret : ℤ) : List UInt8 :=
  codes "\x7b\"ret\":1, \"errmsg\":\"param error, ret:" ++ numberText ret ++ codes "\"\x7d"

/-- The call of the handler by `rpc_pb_http_call_cb`, if it comes to it. -/
def handlerCall {M : Type} (self : RpcPbCmd M) (decode : M → Status × M) : Option (Called M) :=
  match self.reqPool with
  | none => some (self.callProc false none)
  | some p =>
    let (req1, p) := p.alloc
    let self := { self with reqPool := some p }
    match decode req1 with
    | (none, _) => none
    | (some ret, req1) => if ret ≠ 0 then none else some (self.callProc false (some req1))

/-- The body that `rpc_pb_http_call_cb` sends with the status 200. There is none where the decoder
does not return. -/
def responseBody (self : RpcPbCmd (Msg (Scalar F)))
    (decode : Msg (Scalar F) → Status × Msg (Scalar F)) : Option (List UInt8) :=
  match self.reqPool with
  | none => some (outTxt ft sch t (self.callProc false none))
  | some p =>
    let (req1, p) := p.alloc
    let self := { self with reqPool := some p }
    match decode req1 with
    | (none, _) => none
    | (some ret, req1) =>
      if ret ≠ 0 then some (paramError ret)
      else some (outTxt ft sch t (self.callProc false (some req1)))

/-- The members that answer a call: its return value, its error text unless it is empty, and its
response. -/
def replyMembers (r : Called (Msg (Scalar F))) : List (List UInt8 × Value) :=
  [(codes "ret", .number r.ret.toInt32.toInt)] ++
    (if r.errmsg = [] then [] else [(codes "errmsg", .string r.errmsg)]) ++
    r.rsp.toList.map fun rsp1 => (codes "body", messageValue ft sch t rsp1)

def reply (r : Called (Msg (Scalar F))) : Value := .object (setMembers (replyMembers ft sch t r))

def replyEntries (r : Called (Msg (Scalar F))) : List Entry :=
  [⟨codes "ret", numberText r.ret.toInt32.toInt, .number r.ret.toInt32.toInt⟩] ++
    (if r.errmsg = [] then [] else [⟨codes "errmsg", r.errmsg, .string r.errmsg⟩]) ++
    r.rsp.toList.map fun rsp1 => ⟨codes "body", pb2jsonText ft sch t rsp1, messageValue ft sch t rsp1⟩

variable {ft sch t} {self : RpcPbCmd (Msg (Scalar F))}
  {decode : Msg (Scalar F) → Status × Msg (Scalar F)} {r : Called (Msg (Scalar F))}

/-- A call that comes to the handler: the decoder returned 0, or there is nothing to decode. -/
theorem handlerCall_cases (called : handlerCall self decode = some r) :
    (self.reqPool = none ∧ r = self.callProc false none) ∨
      ∃ p req1, self.reqPool = some p ∧ decode p.alloc.1 = (some 0, req1) ∧
        r = RpcPbCmd.callProc { self with reqPool := some p.alloc.2 } false (some req1) := by
  unfold handlerCall at called
  split at called
  · rename_i pool
    exact .inl ⟨pool, (Option.some.inj called).symm⟩
  · rename_i p pool
    right
    rcases decoded : decode p.alloc.1 with ⟨_ | ret, req1⟩
    · simp [decoded] at called
    · simp only [decoded] at called
      split_ifs at called with ok
      obtain rfl := not_not.mp ok
      exact ⟨p, req1, pool, decoded, (Option.some.inj called).symm⟩

theorem responseBody_of_handlerCall (called : handlerCall self decode = some r) :
    responseBody ft sch t self decode = some (outTxt ft sch t r) := by
  unfold responseBody
  rcases handlerCall_cases called with ⟨pool, rfl⟩ | ⟨p, req1, pool, decoded, rfl⟩
  · simp only [pool]
  · simp [pool, decoded]

theorem int32_bounds (n : UInt32) : -2 ^ 31 ≤ n.toInt32.toInt ∧ n.toInt32.toInt < 2 ^ 31 :=
  ⟨Int32.le_toInt _, Int32.toInt_lt _⟩

theorem outTxt_eq (r : Called (Msg (Scalar F))) :
    outTxt ft sch t r = objectText false (replyEntries ft sch t r) := by
  have bounds := int32_bounds r.ret
  have short : (numberText r.ret.toInt32.toInt).length ≤ 11 :=
    numberText_length_small (by omega) (by omega)
  have start : codes "\x7b\"ret\":" = 123 :: (quoted (codes "ret") ++ [58]) := by decide
  have errmsg : codes ",\"errmsg\":" = 44 :: (quoted (codes "errmsg") ++ [58]) := by decide
  have body : codes ",\"body\":" = 44 :: (quoted (codes "body") ++ [58]) := by decide
  have close : codes "\x7d" = [125] := by decide
  have whole : tmpText 30 (numberText r.ret.toInt32.toInt) = numberText r.ret.toInt32.toInt :=
    tmpText_whole (by omega)
  simp only [outTxt, replyEntries, start, errmsg, body, close, whole]
  cases r.rsp with
  | none =>
    split_ifs <;> simp [objectText, tailText, Entry.written]
  | some rsp1 =>
    split_ifs <;> simp [objectText, tailText, Entry.written]

theorem replyEntries_member (r : Called (Msg (Scalar F))) :
    (replyEntries ft sch t r).map Entry.member = replyMembers ft sch t r := by
  unfold replyEntries replyMembers
  cases r.rsp <;> split_ifs <;> rfl

/-- What is known of the members, where `P` holds of each. -/
theorem forall_replyEntries {P : Entry → Prop} :
    (∀ e ∈ replyEntries ft sch t r, P e) ↔
      P ⟨codes "ret", numberText r.ret.toInt32.toInt, .number r.ret.toInt32.toInt⟩ ∧
        (r.errmsg ≠ [] → P ⟨codes "errmsg", r.errmsg, .string r.errmsg⟩) ∧
        ∀ rsp1, r.rsp = some rsp1 →
          P ⟨codes "body", pb2jsonText ft sch t rsp1, messageValue ft sch t rsp1⟩ := by
  unfold replyEntries
  cases r.rsp <;> split_ifs with empty <;> simp [empty]

theorem legal_codes {name : List UInt8}
    (plain : name.all (fun c => decide (32 ≤ c ∧ c ≠ 34 ∧ c ≠ 92 ∧ c < 128)) = true) :
    Legal name := by
  have each : ∀ c ∈ name, 32 ≤ c ∧ c ≠ 34 ∧ c ≠ 92 ∧ c < 128 := by simpa using plain
  refine ⟨fun c mem => ?_, utf8_ascii fun c mem => (each c mem).2.2.2⟩
  obtain ⟨printed, quote, backslash, -⟩ := each c mem
  exact ⟨printed, quote, backslash⟩

/-- The calls whose reply is what it should be: no error text, and a response message whose text
stands for it. -/
theorem outTxt_reads_iff (named : ∀ t, Named (sch t))
    (typed : ∀ rsp1, r.rsp = some rsp1 → Typed sch t rsp1) :
    read (outTxt ft sch t r) = some (reply ft sch t r) ↔
      r.errmsg = [] ∧ ∀ rsp1, r.rsp = some rsp1 → PlainMessage Sound sch t rsp1 := by
  have legal : ∀ e ∈ replyEntries ft sch t r, Legal e.name := by
    have ret : Legal (codes "ret") := legal_codes (by decide)
    have errmsg : Legal (codes "errmsg") := legal_codes (by decide)
    have body : Legal (codes "body") := legal_codes (by decide)
    rw [forall_replyEntries]
    exact ⟨ret, fun _ => errmsg, fun _ _ => body⟩
  have nodup : ((replyEntries ft sch t r).map Entry.name).Nodup := by
    unfold replyEntries
    cases r.rsp <;> split_ifs <;> simp <;> decide
  have ret := reads_numberText r.ret.toInt32.toInt
  have body := fun rsp1 (eq : r.rsp = some rsp1) => messageText_stands ft named (typed rsp1 eq)
  have honest : ∀ e ∈ replyEntries ft sch t r, Honest e.text e.value := by
    rw [forall_replyEntries]
    exact ⟨ret.honest, fun _ => honest_raw r.errmsg, fun rsp1 eq => (body rsp1 eq).1⟩
  rw [outTxt_eq, reply, ← replyEntries_member, read_iff (honest_object legal nodup honest),
    reads_object_iff legal nodup honest, forall_replyEntries]
  constructor
  · intro ⟨_, _, errmsg, rsp⟩
    refine ⟨?_, fun rsp1 eq => (body rsp1 eq).2.mp (rsp rsp1 eq)⟩
    by_contra text
    exact not_reads_raw r.errmsg (errmsg text)
  · intro ⟨errmsg, rsp⟩
    exact ⟨.inr rfl, ret, fun text => absurd errmsg text, fun rsp1 eq => (body rsp1 eq).2.mpr (rsp rsp1 eq)⟩

/-- What is sent for a call of the handler is the object that answers it exactly for these calls. -/
theorem reply_iff (ft : FloatText F) (named : ∀ t, Named (sch t))
    (called : handlerCall self decode = some r)
    (typed : ∀ rsp1, r.rsp = some rsp1 → Typed sch t rsp1) :
    (responseBody ft sch t self decode).bind read = some (reply ft sch t r) ↔
      r.errmsg = [] ∧ ∀ rsp1, r.rsp = some rsp1 → PlainMessage Sound sch t rsp1 := by
  rw [responseBody_of_handlerCall called, Option.bind_some, outTxt_reads_iff named typed]

end Reply

/-- A command without messages, whose handler returns 1 with an error text. -/
def voidCmd (errmsg : List UInt8) : RpcPbCmd (Msg (Scalar Unit)) :=
  ⟨codes "void", 0, none, none, fun _ _ => ⟨1, errmsg, id, id⟩⟩

/-- A command that answers with a message. -/
def nestedCmd : RpcPbCmd (Msg (Scalar Unit)) :=
  ⟨codes "nested", 1, none, some ⟨anyClass.1, []⟩, fun _ _ => ⟨0, [], id, fun _ => nestedMsg⟩⟩

theorem reply_nested : handlerCall nestedCmd (fun m => (some 0, m)) =
      some (nestedCmd.callProc false none) ∧ (nestedCmd.callProc false none).rsp = some nestedMsg ∧
    ((responseBody unitText nested true nestedCmd fun m => (some 0, m)).bind read =
      some (reply unitText nested true (nestedCmd.callProc false none)) ↔
      (nestedCmd.callProc false none).errmsg = [] ∧
        ∀ rsp1, (nestedCmd.callProc false none).rsp = some rsp1 → PlainMessage Sound nested true rsp1) := by
  refine ⟨rfl, rfl, reply_iff unitText nested_named rfl fun rsp1 same => ?_⟩
  obtain rfl : nestedMsg = rsp1 := Option.some.inj same
  exact nestedMsg_typed

/-- The reply to a call that fails with the text `full` is `{"ret":1,"errmsg":full}`. -/
theorem errmsg_bare : ¬ ∀ (D F : Type) (ft : FloatText F) (sch : D → Descriptor D (Scalar F)) (t : D)
    (self : RpcPbCmd (Msg (Scalar F))) (decode : Msg (Scalar F) → Status × Msg (Scalar F))
    (r : Called (Msg (Scalar F))), (∀ t, Named (sch t)) → handlerCall self decode = some r →
    (∀ rsp1, r.rsp = some rsp1 → Typed sch t rsp1) →
    (responseBody ft sch t self decode).bind read = some (reply ft sch t r) := by
  intro claim
  have same := claim Unit Unit unitText oneBool () (voidCmd (codes "full")) (fun m => (some 0, m)) _
    (fun _ => oneBool_named) rfl fun _ eq => absurd eq nofun
  have none : ((responseBody unitText oneBool () (voidCmd (codes "full"))
      fun m => (some 0, m)).bind read).isNone = true := by decide +kernel
  rw [same] at none
  cases none

end Conet.Svrkit.RpcHttp
