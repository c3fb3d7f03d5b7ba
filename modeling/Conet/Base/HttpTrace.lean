/- Module: Conet/Base/HttpTrace
   source: base/src/http_parser.rl
   digest: The actions that a text makes the http parser execute, apart from the record they fill in. -/

import Conet.Base.HttpParser

set_option autoImplicit false
set_option relaxedAutoImplicit false

namespace Conet.Base.HttpTrace

open Conet.Lib Conet.Lib.Ragel Conet.Lib.Ragel.Machine Conet.Base.HttpParser

inductive Stop
  | outOfText
  | error
  | tooManyHeaders
  | done
  deriving DecidableEq

/-- Whether an action breaks out of the loop, when `num` headers are there. -/
def breaks (num : ℕ) : Action → Option Stop
  | .writeField => if num ≥ 100 then some .tooManyHeaders else none
  | .done => some .done
  | _ => none

/-- The number of headers after an action. -/
def bump (num : ℕ) : Action → ℕ
  | .writeValue => num + 1
  | _ => num

/-- The actions of a transition that are executed, the number of headers after them, and what
breaks out of the loop. -/
def taken (num : ℕ) : List Action → List Action × ℕ × Option Stop
  | [] => ([], num, none)
  | x :: xs =>
    match breaks num x with
    | some stop => ([x], bump num x, some stop)
    | none =>
      let t := taken (bump num x) xs
      (x :: t.1, t.2)

/-- What a text makes the parser do: the actions with their positions, the position and the state
where it stops, the number of headers and why it stops. -/
structure Scan where
  acts : List (Action × ℕ)
  pos : ℕ
  state : Expr
  num : ℕ
  stop : Stop

/-- The parser on a text whose first byte has the position `k`. -/
def scan : List UInt8 → ℕ → Expr → ℕ → Scan
  | [], k, cs, num => ⟨[], k, cs, num, .outOfText⟩
  | c :: text, k, cs, num =>
    if cs.deriv c = void then ⟨[], k, void, num, .error⟩
    else
      let t := taken num (cs.actions c)
      let es := t.1.map fun x => (x, k)
      match t.2.2 with
      | some stop => ⟨es, k + 1, cs.deriv c, t.2.1, stop⟩
      | none =>
        let s := scan text (k + 1) (cs.deriv c) t.2.1
        { s with acts := es ++ s.acts }

/-- One executed action, with the text at the address `b`. -/
def perform₁ (mem : ℤ → UInt8) (b : ℤ) (r : HttpRequest) (e : Action × ℕ) : HttpRequest :=
  (act mem (b + e.2) r e.1).1

/-- The executed actions one after another. -/
def replay (mem : ℤ → UInt8) (b : ℤ) (es : List (Action × ℕ)) (r : HttpRequest) : HttpRequest :=
  es.foldl (perform₁ mem b) r

section Replay

variable {mem : ℤ → UInt8} {b : ℤ} {r : HttpRequest}

theorem replay_append (es fs : List (Action × ℕ)) :
    replay mem b (es ++ fs) r = replay mem b fs (replay mem b es r) :=
  List.foldl_append

theorem act_breaks (mem : ℤ → UInt8) (p : ℤ) (r : HttpRequest) (x : Action) :
    (act mem p r x).2 = (breaks r.headersNum x).isSome := by
  cases x <;> simp only [act, breaks] <;> (try split) <;> rfl

theorem act_headersNum (mem : ℤ → UInt8) (p : ℤ) (r : HttpRequest) (x : Action) :
    (act mem p r x).1.headersNum = bump r.headersNum x := by
  cases x <;> simp only [act, bump] <;> (try split) <;> rfl

theorem perform_eq (k : ℕ) (xs : List Action) :
    perform mem (b + k) xs r =
      (replay mem b ((taken r.headersNum xs).1.map fun x => (x, k)) r,
        (taken r.headersNum xs).2.2.isSome) := by
  induction xs generalizing r with
  | nil => rfl
  | cons x xs ih =>
    have broken := act_breaks mem (b + k) r x
    have num := act_headersNum mem (b + k) r x
    cases h : act mem (b + k) r x with
    | mk r' brk =>
      rw [h] at broken num
      simp only at broken num
      cases hb : breaks r.headersNum x with
      | some stop =>
        simp only [hb, Option.isSome_some] at broken
        subst broken
        simp [perform, h, taken, hb, replay, perform₁]
      | none =>
        simp only [hb, Option.isSome_none] at broken
        subst broken
        simp only [perform, h, taken, hb, ih, num]
        simp [replay, perform₁, h]

theorem replay_headersNum (mem : ℤ → UInt8) (b : ℤ) (r : HttpRequest) (k : ℕ) (xs : List Action) :
    (replay mem b ((taken r.headersNum xs).1.map fun x => (x, k)) r).headersNum =
      (taken r.headersNum xs).2.1 := by
  induction xs generalizing r with
  | nil => rfl
  | cons x xs ih =>
    have num := act_headersNum mem (b + k) r x
    cases hb : breaks r.headersNum x with
    | some stop => simpa [taken, hb, replay, perform₁] using num
    | none =>
      have step := ih (perform₁ mem b r (x, k))
      rw [show (perform₁ mem b r (x, k)).headersNum = bump r.headersNum x from num] at step
      simpa [taken, hb, replay] using step

/-- The loop of the parser is the scan of the text, replayed on the record. -/
theorem exec_eq (n k : ℕ) (cs : Expr) :
    exec mem n (b + k) cs r =
      (b + (scan (slice mem (b + k) n) k cs r.headersNum).pos,
        (scan (slice mem (b + k) n) k cs r.headersNum).state,
        replay mem b (scan (slice mem (b + k) n) k cs r.headersNum).acts r) := by
  induction n generalizing k cs r with
  | zero => rfl
  | succ n ih =>
    have first : slice mem (b + k) (n + 1) = mem (b + k) :: slice mem (b + (k + 1 : ℕ)) n := by
      rw [Nat.add_comm n 1, slice_add]
      simp [slice, add_assoc]
    rw [first]
    simp only [exec, scan]
    split
    · rfl
    · rw [perform_eq]
      have num := replay_headersNum mem b r k (cs.actions (mem (b + k)))
      cases h : (taken r.headersNum (cs.actions (mem (b + k)))).2.2 with
      | some stop => simp [add_assoc]
      | none =>
        simp only [Option.isSome_none]
        have next : b + (k : ℤ) + 1 = b + (k + 1 : ℕ) := by push_cast; ring
        rw [next, ih, num]
        simp [replay_append]

/-- `http_request_parse` is the scan of the bytes from `off` on, replayed on the record. -/
theorem parse_eq {off len : ℕ} (le : off ≤ len) (s : Scan)
    (hs : s = scan (slice mem (b + off) (len - off)) off r.status r.headersNum) :
    httpRequestParse r mem b len off = (r.nread + (s.pos - off),
      { replay mem b s.acts r with status := s.state, nread := r.nread + (s.pos - off) }) := by
  have count : (b + s.pos - (b + off)).toNat = s.pos - off := by omega
  rw [httpRequestParse, if_neg (by omega), exec_eq, ← hs]
  simp only [count]

end Replay

section Text

variable {text rest : List UInt8} {k num : ℕ} {cs : Expr}

theorem taken_subset (num : ℕ) (xs : List Action) : ∀ x ∈ (taken num xs).1, x ∈ xs := by
  induction xs generalizing num with
  | nil => simp [taken]
  | cons y ys ih =>
    intro x hx
    simp only [taken] at hx
    split at hx
    · simp_all
    · rcases List.mem_cons.mp hx with rfl | hx
      · simp
      · exact List.mem_cons_of_mem _ (ih _ x hx)

theorem taken_all {xs : List Action} (none : (taken num xs).2.2 = none) : (taken num xs).1 = xs := by
  induction xs generalizing num with
  | nil => rfl
  | cons y ys ih =>
    simp only [taken] at none ⊢
    split
    case h_1 stop hb => simp [hb] at none
    case h_2 hb =>
      simp only [hb] at none
      simp [ih none]

theorem done_not_taken {xs : List Action} (none : (taken num xs).2.2 = none) :
    Action.done ∉ (taken num xs).1 := by
  induction xs generalizing num with
  | nil => simp [taken]
  | cons y ys ih =>
    simp only [taken] at none ⊢
    split
    case h_1 stop hb => simp [hb] at none
    case h_2 hb =>
      simp only [hb] at none
      simp only [List.mem_cons, not_or]
      refine ⟨?_, ih none⟩
      rintro rfl
      simp [breaks] at hb

theorem taken_ne_outOfText (num : ℕ) (xs : List Action) :
    (taken num xs).2.2 ≠ some .outOfText ∧ (taken num xs).2.2 ≠ some .error := by
  induction xs generalizing num with
  | nil => simp [taken]
  | cons y ys ih =>
    simp only [taken]
    split
    case h_1 stop hb =>
      cases y <;> simp [breaks] at hb
      · obtain ⟨-, rfl⟩ := hb
        simp
      · subst hb
        simp
    case h_2 hb => exact ih _

theorem scan_pos (text : List UInt8) (k : ℕ) (cs : Expr) (num : ℕ) :
    k ≤ (scan text k cs num).pos ∧ (scan text k cs num).pos ≤ k + text.length := by
  induction text generalizing k cs num with
  | nil => simp [scan]
  | cons c text ih =>
    simp only [scan, List.length_cons]
    split
    · simp
    · split
      · simp
      · have tail := ih (k + 1) (cs.deriv c) (taken num (cs.actions c)).2.1
        simp only
        omega

theorem parse_nread (mem : ℤ → UInt8) (b : ℤ) (r : HttpRequest) {off len : ℕ} (le : off ≤ len) :
    (httpRequestParse r mem b len off).1 = (httpRequestParse r mem b len off).2.nread ∧
      r.nread ≤ (httpRequestParse r mem b len off).1 ∧
      (httpRequestParse r mem b len off).1 ≤ r.nread + (len - off) := by
  have pos := (scan_pos (slice mem (b + off) (len - off)) off r.status r.headersNum).2
  rw [slice_length] at pos
  rw [parse_eq le _ rfl]
  refine ⟨rfl, ?_, ?_⟩
  · show r.nread ≤ r.nread + _
    omega
  · show r.nread + _ ≤ r.nread + _
    omega

theorem scan_outOfText (h : (scan text k cs num).stop = .outOfText) :
    (scan text k cs num).pos = k + text.length := by
  induction text generalizing k cs num with
  | nil => rfl
  | cons c text ih =>
    simp only [scan] at h ⊢
    split
    case isTrue void => simp [void] at h
    case isFalse live =>
      rw [if_neg live] at h
      split
      case h_1 stop hb =>
        simp only [hb] at h
        exact absurd (h ▸ hb) (taken_ne_outOfText _ _).1
      case h_2 hb =>
        simp only [hb] at h
        rw [ih h, List.length_cons]
        omega

/-- A text that the parser has not finished is continued where it stopped. -/
theorem scan_append (h : (scan text k cs num).stop = .outOfText) :
    scan (text ++ rest) k cs num =
      { scan rest (k + text.length) (scan text k cs num).state (scan text k cs num).num with
        acts := (scan text k cs num).acts ++
          (scan rest (k + text.length) (scan text k cs num).state (scan text k cs num).num).acts } := by
  induction text generalizing k cs num with
  | nil => simp [scan]
  | cons c text ih =>
    rw [List.cons_append]
    simp only [scan] at h ⊢
    split
    case isTrue void => simp [void] at h
    case isFalse live =>
      rw [if_neg live] at h
      split
      case h_1 stop hb =>
        simp only [hb] at h
        exact absurd (h ▸ hb) (taken_ne_outOfText _ _).1
      case h_2 hb =>
        simp only [hb] at h
        have shift : k + 1 + text.length = k + (text.length + 1) := by omega
        rw [ih h, shift]
        simp [List.append_assoc]

theorem scan_append_of_stop (h : (scan text k cs num).stop ≠ .outOfText) :
    scan (text ++ rest) k cs num = scan text k cs num := by
  induction text generalizing k cs num with
  | nil => simp [scan] at h
  | cons c text ih =>
    rw [List.cons_append]
    simp only [scan] at h ⊢
    split
    case isTrue void => rfl
    case isFalse live =>
      rw [if_neg live] at h
      split
      case h_1 stop hb => rfl
      case h_2 hb =>
        simp only [hb] at h
        rw [ih h]

theorem scan_acts : ∀ e ∈ (scan text k cs num).acts, k ≤ e.2 ∧ e.2 < k + text.length := by
  induction text generalizing k cs num with
  | nil => simp [scan]
  | cons c text ih =>
    have here : ∀ e ∈ (taken num (cs.actions c)).1.map fun x => (x, k),
        k ≤ e.2 ∧ e.2 < k + (c :: text).length := by
      intro e he
      obtain ⟨x, -, rfl⟩ := List.mem_map.mp he
      simp
    simp only [scan]
    split
    · simp
    · split
      · exact here
      · intro e he
        rcases List.mem_append.mp he with he | he
        · exact here e he
        · have := ih e he
          simp only [List.length_cons]
          omega

theorem scan_sorted : (scan text k cs num).acts.Pairwise fun e f => e.2 ≤ f.2 := by
  induction text generalizing k cs num with
  | nil => simp [scan]
  | cons c text ih =>
    have here : ((taken num (cs.actions c)).1.map fun x => (x, k)).Pairwise
        fun e f : Action × ℕ => e.2 ≤ f.2 := by
      rw [List.pairwise_map]
      exact List.pairwise_of_forall fun _ _ => le_rfl
    simp only [scan]
    split
    · simp
    · split
      · exact here
      · rw [List.pairwise_append]
        refine ⟨here, ih, fun e he f hf => ?_⟩
        obtain ⟨x, -, rfl⟩ := List.mem_map.mp he
        have := (scan_acts f hf).1
        simp only
        omega

end Text

/-- The actions that read `mark`. -/
def usesMark : Action → Bool
  | .httpAccept => true
  | .httpConnection => true
  | .httpContentLength => true
  | .httpContentType => true
  | .statusCode => true
  | .reasonPhrase => true
  | .upgrade => true
  | .secWebsocketKey => true
  | .secWebsocketVersion => true
  | .fragment => true
  | .requestPath => true
  | .requestUri => true
  | .requestHost => true
  | _ => false

def isMark (x : Action) : Bool := decide (x = .mark)

/-- `mark` is set before it is read, unless it is `known` at the start. -/
def MarkFirst : Bool → List (Action × ℕ) → Prop
  | _, [] => True
  | known, e :: es => (usesMark e.1 → known) ∧ MarkFirst (known || isMark e.1) es

section Mark

theorem markFirst_true (es : List (Action × ℕ)) : MarkFirst true es := by
  induction es with
  | nil => trivial
  | cons e es ih => exact ⟨fun _ => rfl, by simpa using ih⟩

/-- Actions that do not read `mark`, and then others. -/
theorem markFirst_append {known : Bool} {es fs : List (Action × ℕ)}
    (calm : ∀ e ∈ es, usesMark e.1 = false)
    (next : MarkFirst (known || es.any fun e => isMark e.1) fs) : MarkFirst known (es ++ fs) := by
  induction es generalizing known with
  | nil => simpa using next
  | cons e es ih =>
    refine ⟨fun used => ?_, ih (fun e he => calm e (List.mem_cons_of_mem _ he)) ?_⟩
    · rw [calm e (by simp)] at used
      simp at used
    · simpa [Bool.or_assoc] using next

theorem scan_markFirst {text : List UInt8} {k num : ℕ} {cs : Expr} {known : Bool}
    (h : known = true ∨ cs.opens isMark usesMark = true) :
    MarkFirst known (scan text k cs num).acts := by
  induction text generalizing k cs num known with
  | nil => trivial
  | cons c text ih =>
    rcases h with rfl | opens
    · exact markFirst_true _
    obtain ⟨calm, next⟩ := opens_step (c := c) opens
    have calm' : ∀ e ∈ (taken num (cs.actions c)).1.map fun x => (x, k), usesMark e.1 = false := by
      intro e he
      obtain ⟨x, hx, rfl⟩ := List.mem_map.mp he
      obtain ⟨t, ht⟩ := mem_ordered.mp (taken_subset _ _ x hx)
      exact calm (t, x) ht
    simp only [scan]
    split
    · trivial
    · split
      case h_1 stop hb =>
        rw [← List.append_nil (List.map _ _)]
        exact markFirst_append calm' trivial
      case h_2 hb =>
        apply markFirst_append calm'
        apply ih
        rcases next with ⟨⟨t, x⟩, hx, marks⟩ | next
        · left
          have executed : x ∈ (taken num (cs.actions c)).1 := by
            rw [taken_all hb]
            exact mem_ordered.mpr ⟨t, hx⟩
          simp only [Bool.or_eq_true, List.any_eq_true]
          exact .inr ⟨(x, k), List.mem_map.mpr ⟨x, executed, rfl⟩, marks⟩
        · exact .inr next

/-- Whatever the text, `mark` is set before it is read: at the uri or at the status code. -/
theorem start_markFirst (text : List UInt8) :
    MarkFirst false (scan text 0 httpRequestStart 0).acts :=
  scan_markFirst (.inr (by decide))

end Mark

section Ends

variable {mem : ℤ → UInt8} {b : ℤ} {r : HttpRequest} {text : List UInt8} {k num : ℕ} {cs : Expr}

theorem replay_rest (mem : ℤ → UInt8) (b : ℤ) (r : HttpRequest) (es : List (Action × ℕ)) :
    (replay mem b es r).status = r.status ∧
    (replay mem b es r).nread = r.nread ∧ (replay mem b es r).restData = r.restData ∧
    (replay mem b es r).restLen = r.restLen := by
  induction es generalizing r with
  | nil => exact ⟨rfl, rfl, rfl, rfl⟩
  | cons e es ih =>
    obtain ⟨h₁, h₂, h₃, h₄⟩ := ih (perform₁ mem b r e)
    have here : (perform₁ mem b r e).status = r.status ∧ (perform₁ mem b r e).nread = r.nread ∧
        (perform₁ mem b r e).restData = r.restData ∧ (perform₁ mem b r e).restLen = r.restLen := by
      obtain ⟨x, j⟩ := e
      cases x <;> simp only [perform₁, act] <;> (try split) <;> exact ⟨rfl, rfl, rfl, rfl⟩
    exact ⟨h₁.trans here.1, h₂.trans here.2.1, h₃.trans here.2.2.1, h₄.trans here.2.2.2⟩

/-- The actions do not look at the state and the count. -/
theorem replay_with (es : List (Action × ℕ)) (st : Expr) (n : ℕ) :
    replay mem b es { r with status := st, nread := n } =
      { replay mem b es r with status := st, nread := n } := by
  induction es generalizing r with
  | nil => rfl
  | cons e es ih =>
    have here : perform₁ mem b { r with status := st, nread := n } e =
        { perform₁ mem b r e with status := st, nread := n } := by
      obtain ⟨x, j⟩ := e
      cases x
      case writeField =>
        simp only [perform₁, act]
        split <;> rfl
      case httpConnection =>
        simp only [perform₁, act]
        split <;> rfl
      case upgrade =>
        simp only [perform₁, act, HttpRequest.fromMark, HttpRequest.setStr, Function.update_self]
        by_cases web : (initRefStr (r.ptr .mark) (b + j)).bytes mem = codes "websocket"
        · simp only [web, if_true]
          rfl
        · simp only [web, if_false]
      all_goals rfl
    simp only [replay, List.foldl_cons, here]
    exact ih

/-- A parser that has not stopped is not in the error state. -/
theorem scan_live (live : cs ≠ void) (h : (scan text k cs num).stop = .outOfText) :
    (scan text k cs num).state ≠ void := by
  induction text generalizing k cs num with
  | nil => exact live
  | cons c text ih =>
    simp only [scan] at h ⊢
    split
    case isTrue stop => simp [stop] at h
    case isFalse live' =>
      rw [if_neg live'] at h
      split
      case h_1 stop hb =>
        simp only [hb] at h
        exact absurd (h ▸ hb) (taken_ne_outOfText _ _).1
      case h_2 hb =>
        simp only [hb] at h
        exact ih live' h

/-- The number of headers that a scan counts is that of the record. -/
theorem scan_headersNum :
    (replay mem b (scan text k cs r.headersNum).acts r).headersNum =
      (scan text k cs r.headersNum).num := by
  induction text generalizing k cs r with
  | nil => rfl
  | cons c text ih =>
    have num := replay_headersNum mem b r k (cs.actions c)
    simp only [scan]
    split
    · rfl
    · split
      case h_1 stop hb => exact num
      case h_2 hb =>
        simp only [replay_append]
        rw [← num, ih]

theorem act_err {p : ℤ} {x : Action} (few : breaks r.headersNum x ≠ some .tooManyHeaders) :
    (act mem p r x).1.num .errTooManyHeader = r.num .errTooManyHeader := by
  cases x
  case writeField =>
    have lt : ¬ r.headersNum ≥ 100 := by
      intro ge
      simp [breaks, ge] at few
    simp [act, lt, HttpRequest.setHeader]
  case httpConnection =>
    simp only [act]
    split <;> simp [HttpRequest.setNum]
  case upgrade =>
    simp only [act]
    split <;> simp [HttpRequest.setNum, HttpRequest.fromMark, HttpRequest.setStr]
  all_goals simp [act, HttpRequest.setNum, HttpRequest.fromMark, HttpRequest.setStr,
    HttpRequest.setPtr, HttpRequest.setHeader]

theorem taken_err {xs : List Action}
    (few : (taken r.headersNum xs).2.2 ≠ some .tooManyHeaders) :
    (replay mem b ((taken r.headersNum xs).1.map fun x => (x, k)) r).num .errTooManyHeader =
      r.num .errTooManyHeader := by
  induction xs generalizing r with
  | nil => rfl
  | cons x xs ih =>
    simp only [taken] at few ⊢
    split
    case h_1 stop hb =>
      simp only [hb] at few
      exact act_err (hb ▸ few)
    case h_2 hb =>
      simp only [hb] at few
      have here : (perform₁ mem b r (x, k)).num .errTooManyHeader = r.num .errTooManyHeader :=
        act_err (by simp [hb])
      have num : (perform₁ mem b r (x, k)).headersNum = bump r.headersNum x :=
        act_headersNum mem _ r x
      have tail := ih (r := perform₁ mem b r (x, k)) (by rwa [num])
      rw [num] at tail
      exact tail.trans here

/-- The error flag is set only when there are too many headers. -/
theorem replay_err (few : (scan text k cs r.headersNum).stop ≠ .tooManyHeaders) :
    (replay mem b (scan text k cs r.headersNum).acts r).num .errTooManyHeader =
      r.num .errTooManyHeader := by
  induction text generalizing k cs r with
  | nil => rfl
  | cons c text ih =>
    have num := replay_headersNum mem b r k (cs.actions c)
    simp only [scan] at few ⊢
    split
    case isTrue => rfl
    case isFalse live =>
      rw [if_neg live] at few
      split
      case h_1 stop hb =>
        simp only [hb] at few
        exact taken_err (by simpa [hb] using few)
      case h_2 hb =>
        simp only [hb] at few
        rw [← num] at few ⊢
        simp only [replay_append]
        rw [ih few]
        exact taken_err (by simp [hb])

theorem taken_done {xs : List Action} (h : (taken num xs).2.2 = some .done) :
    ∃ ys, (taken num xs).1 = ys ++ [.done] := by
  induction xs generalizing num with
  | nil => simp [taken] at h
  | cons x xs ih =>
    simp only [taken] at h ⊢
    split
    case h_1 stop hb =>
      simp only [hb, Option.some.injEq] at h
      subst h
      refine ⟨[], ?_⟩
      cases x <;> simp [breaks] at hb ⊢
    case h_2 hb =>
      simp only [hb] at h
      obtain ⟨ys, hys⟩ := ih h
      exact ⟨x :: ys, by simp [hys]⟩

theorem replay_body (done : (scan text k cs r.headersNum).stop = .done) :
    (replay mem b (scan text k cs r.headersNum).acts r).ptr .body =
      b + (scan text k cs r.headersNum).pos := by
  induction text generalizing k cs r with
  | nil => simp [scan] at done
  | cons c text ih =>
    have num := replay_headersNum mem b r k (cs.actions c)
    simp only [scan] at done ⊢
    split
    case isTrue stop => simp [stop] at done
    case isFalse live =>
      rw [if_neg live] at done
      split
      case h_1 stop hb =>
        simp only [hb] at done
        subst done
        obtain ⟨ys, hys⟩ := taken_done hb
        simp [hys, replay, perform₁, act, HttpRequest.setPtr, add_assoc]
      case h_2 hb =>
        simp only [hb] at done
        rw [← num] at done ⊢
        simp only [replay_append]
        exact ih done

/-- The parser is in a final state only when it is done. -/
theorem scan_final (ends : cs.ends (fun x => decide (x = .done)) = true) (start : cs.nullable = false)
    (h : (scan text k cs num).stop = .outOfText) : (scan text k cs num).state.nullable = false := by
  induction text generalizing k cs num with
  | nil => exact start
  | cons c text ih =>
    obtain ⟨ends', last⟩ := ends_step (c := c) ends
    simp only [scan] at h ⊢
    split
    case isTrue => rfl
    case isFalse live =>
      rw [if_neg live] at h
      split
      case h_1 stop hb =>
        simp only [hb] at h
        exact absurd (h ▸ hb) (taken_ne_outOfText _ _).1
      case h_2 hb =>
        simp only [hb] at h
        apply ih ends' _ h
        by_contra final
        obtain ⟨⟨t, x⟩, hx, isDone⟩ := last (by simpa using final)
        have executed : x ∈ (taken num (cs.actions c)).1 := by
          rw [taken_all hb]
          exact mem_ordered.mpr ⟨t, hx⟩
        simp only [decide_eq_true_eq] at isDone
        subst isDone
        exact absurd executed (done_not_taken hb)

end Ends

end Conet.Base.HttpTrace
