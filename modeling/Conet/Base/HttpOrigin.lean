/- Module: Conet/Base/HttpOrigin
   source: base/src/http_parser.rl
   digest: Where the fields of a parsed request come from: its text, or what was in the record before. -/

import Conet.Base.HttpTrace

set_option autoImplicit false
set_option relaxedAutoImplicit false

namespace Conet.Base.HttpOrigin

open Conet.Lib Conet.Lib.Ragel Conet.Base.HttpParser Conet.Base.HttpTrace

/-- The fields of the record that an action can write. -/
inductive Cell
  | ptr (x : Ptr)
  | num (x : NumField)
  | str (x : Str)
  | name (i : ℕ)
  | value (i : ℕ)
  deriving DecidableEq

/-- The same string, for texts at the addresses `b` and `b'`. -/
def SameStr (b b' : ℤ) (s s' : RefStr) : Prop := s.len = s'.len ∧ s.data - b = s'.data - b'

/-- Two records agree on a field, up to the addresses of the texts. -/
def Agree (b b' : ℤ) (r r' : HttpRequest) : Cell → Prop
  | .ptr x => r.ptr x - b = r'.ptr x - b'
  | .num x => r.num x = r'.num x
  | .str x => SameStr b b' (r.str x) (r'.str x)
  | .name i => SameStr b b' (r.headers i).name (r'.headers i).name
  | .value i => SameStr b b' (r.headers i).value (r'.headers i).value

/-- What the actions so far have made of the record: the position of `mark`, the number of headers,
and for every field the field of the prior record it depends on, if there is one. -/
structure Origin where
  mark : ℕ
  num : ℕ
  src : Cell → Option Cell

namespace Origin

def init : Origin := ⟨0, 0, some⟩

def fresh (o : Origin) (cell : Cell) : Origin := { o with src := Function.update o.src cell none }

/-- A field is written from another one. -/
def copy (o : Origin) (cell other : Cell) : Origin :=
  { o with src := Function.update o.src cell (o.src other) }

def step (text : List UInt8) (o : Origin) (e : Action × ℕ) : Origin :=
  match e.1 with
  | .mark => { o.fresh (.ptr .mark) with mark := e.2 }
  | .startField => o.fresh (.ptr .headerStart)
  | .writeField =>
    if o.num ≥ 100 then o.fresh (.num .errTooManyHeader)
    else o.copy (.name o.num) (.ptr .headerStart)
  | .startValue => o.fresh (.ptr .headerValStart)
  | .writeValue => { o.copy (.value o.num) (.ptr .headerValStart) with num := o.num + 1 }
  | .httpAccept => o.fresh (.str .accept)
  | .httpConnection =>
    if text.getD o.mark 0 = 75 ∨ text.getD o.mark 0 = 107 then o.fresh (.num .connection) else o
  | .httpContentLength => o.fresh (.num .contentLength)
  | .httpContentType => o.fresh (.str .contentType)
  | .statusCode => o.fresh (.num .statusCode)
  | .reasonPhrase => o.fresh (.str .reasonPhrase)
  | .upgrade =>
    if (text.drop o.mark).take ((e.2 - o.mark) % 2 ^ 32) = codes "websocket" then
      (o.fresh (.str .upgrade)).fresh (.num .websocket)
    else o.fresh (.str .upgrade)
  | .secWebsocketKey => o.fresh (.str .secWebsocketKey)
  | .secWebsocketVersion => o.fresh (.str .secWebsocketVersion)
  | .fragment => o.fresh (.str .fragment)
  | .httpVersion10 => o.fresh (.num .version)
  | .httpVersion11 => o.fresh (.num .version)
  | .requestPath => o.fresh (.str .path)
  | .requestMethodGet => o.fresh (.num .method)
  | .requestMethodPost => o.fresh (.num .method)
  | .requestUri => o.fresh (.str .uri)
  | .requestHost => o.fresh (.str .host)
  | .startQuery => o.fresh (.ptr .queryStart)
  | .queryString => o.copy (.str .queryString) (.ptr .queryStart)
  | .httpRequestType => o.fresh (.num .httpType)
  | .httpResponseType => o.fresh (.num .httpType)
  | .done => o.fresh (.ptr .body)

end Origin

/-- The origin of every field after the actions `es` on a text. -/
def origin (text : List UInt8) (es : List (Action × ℕ)) : Origin := es.foldl (Origin.step text) .init

/-- Two runs on the same text, at the addresses `b` and `b'`, from the records `r` and `r'`: the
actions so far have made them into `s` and `s'`. The actions to come stand at `k` or later. -/
structure Rel (b b' : ℤ) (r r' : HttpRequest) (k : ℕ) (o : Origin) (s s' : HttpRequest) : Prop where
  num : s.headersNum = o.num
  num' : s'.headersNum = o.num
  mark : o.src (.ptr .mark) = none → s.ptr .mark = b + o.mark ∧ s'.ptr .mark = b' + o.mark
  before : o.mark ≤ k
  agree : ∀ cell, Agree b b' s s' cell ↔ ∀ c, o.src cell = some c → Agree b b' r r' c

section Frames

variable {b b' : ℤ} {s s' : HttpRequest} {cell : Cell}

theorem agree_setPtr {x : Ptr} (p p' : ℤ) (ne : cell ≠ .ptr x) :
    Agree b b' (s.setPtr x p) (s'.setPtr x p') cell ↔ Agree b b' s s' cell := by
  cases cell with
  | ptr y =>
    have ne' : y ≠ x := fun h => ne (h ▸ rfl)
    simp [Agree, HttpRequest.setPtr, ne']
  | _ => rfl

theorem agree_setNum {x : NumField} (v v' : ℤ) (ne : cell ≠ .num x) :
    Agree b b' (s.setNum x v) (s'.setNum x v') cell ↔ Agree b b' s s' cell := by
  cases cell with
  | num y =>
    have ne' : y ≠ x := fun h => ne (h ▸ rfl)
    simp [Agree, HttpRequest.setNum, ne']
  | _ => rfl

theorem agree_setStr {x : Str} (v v' : RefStr) (ne : cell ≠ .str x) :
    Agree b b' (s.setStr x v) (s'.setStr x v') cell ↔ Agree b b' s s' cell := by
  cases cell with
  | str y =>
    have ne' : y ≠ x := fun h => ne (h ▸ rfl)
    simp [Agree, HttpRequest.setStr, ne']
  | _ => rfl

theorem agree_setName {i : ℕ} (v v' : RefStr) (ne : cell ≠ .name i) :
    Agree b b' (s.setHeader i { s.headers i with name := v })
      (s'.setHeader i { s'.headers i with name := v' }) cell ↔ Agree b b' s s' cell := by
  cases cell with
  | name j =>
    have ne' : j ≠ i := fun h => ne (h ▸ rfl)
    simp [Agree, HttpRequest.setHeader, ne']
  | value j => by_cases h : j = i <;> simp_all [Agree, HttpRequest.setHeader]
  | _ => rfl

theorem agree_setValue {i : ℕ} (v v' : RefStr) (ne : cell ≠ .value i) :
    Agree b b' (s.setHeader i { s.headers i with value := v })
      (s'.setHeader i { s'.headers i with value := v' }) cell ↔ Agree b b' s s' cell := by
  cases cell with
  | value j =>
    have ne' : j ≠ i := fun h => ne (h ▸ rfl)
    simp [Agree, HttpRequest.setHeader, ne']
  | name j => by_cases h : j = i <;> simp_all [Agree, HttpRequest.setHeader]
  | _ => rfl

theorem agree_counts (n n' : ℕ) : Agree b b' { s with headersNum := n } { s' with headersNum := n' }
    cell ↔ Agree b b' s s' cell := by
  cases cell <;> rfl

/-- Strings that end at the same place are the same when they start at the same place. -/
theorem sameStr_iff (x x' : ℤ) (k : ℕ) :
    SameStr b b' (initRefStr x (b + k)) (initRefStr x' (b' + k)) ↔ x - b = x' - b' := by
  refine ⟨fun h => h.2, fun h => ⟨?_, h⟩⟩
  have same : b + k - x = b' + k - x' := by omega
  simp only [initRefStr, same]

end Frames

section Steps

variable {b b' : ℤ} {r r' s s' t t' : HttpRequest} {k j : ℕ} {o o₁ : Origin}

/-- One field is written, and `mark` is left alone. -/
theorem Rel.write {cell : Cell} {v : Option Cell} (rel : Rel b b' r r' k o s s') (le : k ≤ j)
    (num : t.headersNum = o₁.num) (num' : t'.headersNum = o₁.num)
    (mark : t.ptr .mark = s.ptr .mark ∧ t'.ptr .mark = s'.ptr .mark ∧ o₁.mark = o.mark)
    (other : cell ≠ .ptr .mark) (src : o₁.src = Function.update o.src cell v)
    (here : Agree b b' t t' cell ↔ ∀ c, v = some c → Agree b b' r r' c)
    (frame : ∀ c ≠ cell, (Agree b b' t t' c ↔ Agree b b' s s' c)) : Rel b b' r r' j o₁ t t' := by
  obtain ⟨mark₁, mark₂, mark₃⟩ := mark
  refine ⟨num, num', fun known => ?_, ?_, fun c => ?_⟩
  · rw [src, Function.update_of_ne other.symm] at known
    rw [mark₁, mark₂, mark₃]
    exact rel.mark known
  · rw [mark₃]
    exact rel.before.trans le
  · rw [src]
    by_cases h : c = cell
    · rw [h, Function.update_self]
      exact here
    · rw [Function.update_of_ne h, frame c h]
      exact rel.agree c

theorem Rel.setMark (rel : Rel b b' r r' k o s s') :
    Rel b b' r r' j { o.fresh (.ptr .mark) with mark := j } (s.setPtr .mark (b + j))
      (s'.setPtr .mark (b' + j)) := by
  refine ⟨rel.num, rel.num', fun _ => ⟨by simp [HttpRequest.setPtr], by simp [HttpRequest.setPtr]⟩,
    le_rfl, fun c => ?_⟩
  simp only [Origin.fresh]
  by_cases h : c = .ptr .mark
  · subst h
    simp [Agree, HttpRequest.setPtr]
  · rw [Function.update_of_ne h, agree_setPtr _ _ h]
    exact rel.agree c

theorem Rel.setPtr (rel : Rel b b' r r' k o s s') (le : k ≤ j) {x : Ptr} (ne : x ≠ .mark) (d : ℕ) :
    Rel b b' r r' j (o.fresh (.ptr x)) (s.setPtr x (b + d)) (s'.setPtr x (b' + d)) := by
  refine rel.write le rel.num rel.num' ⟨?_, ?_, rfl⟩ (by simpa using ne) rfl ?_ ?_
  · simp [HttpRequest.setPtr, ne.symm]
  · simp [HttpRequest.setPtr, ne.symm]
  · simp [Agree, HttpRequest.setPtr]
  · exact fun c h => agree_setPtr _ _ h

theorem Rel.setNum (rel : Rel b b' r r' k o s s') (le : k ≤ j) (x : NumField) (v : ℤ) :
    Rel b b' r r' j (o.fresh (.num x)) (s.setNum x v) (s'.setNum x v) := by
  refine rel.write le rel.num rel.num' ⟨rfl, rfl, rfl⟩ (by simp) rfl ?_ ?_
  · simp [Agree, HttpRequest.setNum]
  · exact fun c h => agree_setNum _ _ h

theorem Rel.fromMark (rel : Rel b b' r r' k o s s') (le : k ≤ j)
    (known : o.src (.ptr .mark) = none) (x : Str) :
    Rel b b' r r' j (o.fresh (.str x)) (s.fromMark x (b + j)) (s'.fromMark x (b' + j)) := by
  obtain ⟨mark, mark'⟩ := rel.mark known
  refine rel.write le rel.num rel.num' ⟨rfl, rfl, rfl⟩ (by simp) rfl ?_ ?_
  · have same : s.ptr .mark - b = s'.ptr .mark - b' := by omega
    simp [Agree, HttpRequest.fromMark, HttpRequest.setStr, sameStr_iff, same]
  · exact fun c h => agree_setStr _ _ h

theorem Rel.queryString (rel : Rel b b' r r' k o s s') (le : k ≤ j) :
    Rel b b' r r' j (o.copy (.str .queryString) (.ptr .queryStart))
      (s.setStr .queryString (initRefStr (s.ptr .queryStart) (b + j)))
      (s'.setStr .queryString (initRefStr (s'.ptr .queryStart) (b' + j))) := by
  refine rel.write le rel.num rel.num' ⟨rfl, rfl, rfl⟩ (by simp) rfl ?_ ?_
  · simp only [Agree, HttpRequest.setStr, Function.update_self, sameStr_iff]
    exact rel.agree (.ptr .queryStart)
  · exact fun c h => agree_setStr _ _ h

theorem Rel.writeField (rel : Rel b b' r r' k o s s') (le : k ≤ j) :
    Rel b b' r r' j (o.copy (.name o.num) (.ptr .headerStart))
      (s.setHeader o.num
        { s.headers o.num with name := initRefStr (s.ptr .headerStart) (b + j) })
      (s'.setHeader o.num
        { s'.headers o.num with name := initRefStr (s'.ptr .headerStart) (b' + j) }) := by
  refine rel.write le rel.num rel.num' ⟨rfl, rfl, rfl⟩ (by simp) rfl ?_ ?_
  · simp only [Agree, HttpRequest.setHeader, Function.update_self, sameStr_iff]
    exact rel.agree (.ptr .headerStart)
  · exact fun c h => agree_setName _ _ h

theorem Rel.writeValue (rel : Rel b b' r r' k o s s') (le : k ≤ j) :
    Rel b b' r r' j { o.copy (.value o.num) (.ptr .headerValStart) with num := o.num + 1 }
      { s.setHeader o.num
        { s.headers o.num with value := initRefStr (s.ptr .headerValStart) (b + j) } with
        headersNum := o.num + 1 }
      { s'.setHeader o.num
        { s'.headers o.num with value := initRefStr (s'.ptr .headerValStart) (b' + j) } with
        headersNum := o.num + 1 } := by
  refine rel.write le rfl rfl ⟨rfl, rfl, rfl⟩ (by simp) rfl ?_ ?_
  · simp only [Agree, HttpRequest.setHeader, Function.update_self, sameStr_iff]
    exact rel.agree (.ptr .headerValStart)
  · exact fun c h => (agree_counts _ _).trans (agree_setValue _ _ h)

theorem Rel.mono (rel : Rel b b' r r' k o s s') (le : k ≤ j) : Rel b b' r r' j o s s' :=
  ⟨rel.num, rel.num', rel.mark, rel.before.trans le, rel.agree⟩

end Steps

section Runs

variable {mem mem' : ℤ → UInt8} {b b' : ℤ} {r r' s s' : HttpRequest} {k : ℕ} {o : Origin}
  {text : List UInt8} {e : Action × ℕ}

/-- What an action reads from `mark` on is the same in two memories that hold the text. -/
theorem slice_text (here : slice mem b text.length = text) {i n : ℕ} (le : i + n ≤ text.length) :
    slice mem (b + i) n = (text.drop i).take n := by
  rw [slice_part mem b le, here]

theorem read_text (here : slice mem b text.length = text) {i : ℕ} (lt : i < text.length) :
    mem (b + i) = text.getD i 0 := by
  conv_rhs => rw [← here]
  simp [slice, List.getD_eq_getElem?_getD, lt]

theorem atoi_text (here : slice mem b text.length = text) (here' : slice mem' b' text.length = text)
    {i j : ℕ} (le : i ≤ j) (lt : j < text.length) :
    atoi mem (b + i) (b + j) = atoi mem' (b' + i) (b' + j) := by
  have count : (b + j - (b + i)).toNat = j - i := by omega
  have count' : (b' + j - (b' + i)).toNat = j - i := by omega
  have inside : i + (j - i) ≤ text.length := by omega
  simp only [atoi, count, count', slice_text here inside, slice_text here' inside]

theorem upgrade_text (here : slice mem b text.length = text) {i j : ℕ} (le : i ≤ j)
    (lt : j < text.length) (mark : s.ptr .mark = b + i) :
    ((s.fromMark .upgrade (b + j)).str .upgrade).bytes mem =
      (text.drop i).take ((j - i) % 2 ^ 32) := by
  have count : ((b + j - (b + i)) % 2 ^ 32).toNat = (j - i) % 2 ^ 32 := by omega
  have inside : i + (j - i) % 2 ^ 32 ≤ text.length := by
    have := Nat.mod_le (j - i) (2 ^ 32)
    omega
  simp only [HttpRequest.fromMark, HttpRequest.setStr, Function.update_self, RefStr.bytes,
    initRefStr, mark, count]
  exact slice_text here inside

/-- One action keeps the origins right, if it does not read a `mark` of the prior record. -/
theorem Rel.step (rel : Rel b b' r r' k o s s') (le : k ≤ e.2) (lt : e.2 < text.length)
    (here : slice mem b text.length = text) (here' : slice mem' b' text.length = text)
    (known : usesMark e.1 = true → o.src (.ptr .mark) = none) :
    Rel b b' r r' e.2 (o.step text e) (perform₁ mem b s e) (perform₁ mem' b' s' e) := by
  obtain ⟨x, j⟩ := e
  have before : o.mark ≤ j := rel.before.trans le
  cases x
  case mark => exact rel.setMark
  case startField => exact rel.setPtr le (by simp) j
  case startValue => exact rel.setPtr le (by simp) j
  case startQuery => exact rel.setPtr le (by simp) j
  case done =>
    have body := rel.setPtr le (x := .body) (by simp) (j + 1)
    simpa [perform₁, act, Origin.step, add_assoc] using body
  case writeField =>
    simp only [perform₁, act, Origin.step, rel.num, rel.num']
    split
    · exact rel.setNum le _ _
    · exact rel.writeField le
  case writeValue =>
    simp only [perform₁, act, Origin.step, rel.num, rel.num']
    exact rel.writeValue le
  case httpConnection =>
    obtain ⟨mark, mark'⟩ := rel.mark (known rfl)
    have inside : o.mark < text.length := before.trans_lt lt
    simp only [perform₁, act, Origin.step, mark, mark', read_text here inside,
      read_text here' inside]
    split
    · exact rel.setNum le _ _
    · exact rel.mono le
  case httpContentLength =>
    obtain ⟨mark, mark'⟩ := rel.mark (known rfl)
    simp only [perform₁, act, Origin.step, mark, mark', atoi_text here here' before lt]
    exact rel.setNum le _ _
  case statusCode =>
    obtain ⟨mark, mark'⟩ := rel.mark (known rfl)
    simp only [perform₁, act, Origin.step, mark, mark', atoi_text here here' before lt]
    exact rel.setNum le _ _
  case upgrade =>
    obtain ⟨mark, mark'⟩ := rel.mark (known rfl)
    have str := rel.fromMark le (known rfl) .upgrade
    simp only [perform₁, act, Origin.step, upgrade_text here before lt mark,
      upgrade_text here' before lt mark']
    split
    · exact str.setNum le_rfl _ _
    · exact str
  case queryString => exact rel.queryString le
  case httpVersion10 => exact rel.setNum le _ _
  case httpVersion11 => exact rel.setNum le _ _
  case requestMethodGet => exact rel.setNum le _ _
  case requestMethodPost => exact rel.setNum le _ _
  case httpRequestType => exact rel.setNum le _ _
  case httpResponseType => exact rel.setNum le _ _
  all_goals exact rel.fromMark le (known rfl) _

theorem Origin.step_mark (text : List UInt8) (o : Origin) (e : Action × ℕ)
    (known : o.src (.ptr .mark) = none ∨ e.1 = .mark) :
    (o.step text e).src (.ptr .mark) = none := by
  obtain ⟨x, j⟩ := e
  have keep : x ≠ .mark → o.src (.ptr .mark) = none := fun ne => known.resolve_right ne
  cases x
  case mark => simp [Origin.step, Origin.fresh]
  all_goals
    have old := keep (by simp)
    simp only [Origin.step]
    (try split) <;> simp [Origin.fresh, Origin.copy, old]

theorem fresh_num (o : Origin) (s : HttpRequest) (x y : NumField) (v : ℤ) :
    (s.setNum y v).num x = s.num x ∧ (o.fresh (.num y)).src (.num x) = o.src (.num x) ∨
      (o.fresh (.num y)).src (.num x) = none := by
  by_cases h : x = y <;> simp [Origin.fresh, HttpRequest.setNum, h]

/-- An action leaves a number alone, or writes it from the text. -/
theorem Rel.step_num (rel : Rel b b' r r' k o s s') (le : k ≤ e.2) (lt : e.2 < text.length)
    (here : slice mem b text.length = text) (known : usesMark e.1 = true → o.src (.ptr .mark) = none)
    (x : NumField) :
    (perform₁ mem b s e).num x = s.num x ∧ (o.step text e).src (.num x) = o.src (.num x) ∨
      (o.step text e).src (.num x) = none := by
  obtain ⟨y, j⟩ := e
  have before : o.mark ≤ j := rel.before.trans le
  cases y
  case writeField =>
    simp only [perform₁, act, Origin.step, rel.num]
    split
    · exact fresh_num o s x _ _
    · exact .inl ⟨rfl, by simp [Origin.copy]⟩
  case httpConnection =>
    obtain ⟨mark, -⟩ := rel.mark (known rfl)
    have inside : o.mark < text.length := before.trans_lt lt
    simp only [perform₁, act, Origin.step, mark, read_text here inside]
    split
    · exact fresh_num o s x _ _
    · exact .inl ⟨rfl, rfl⟩
  case upgrade =>
    obtain ⟨mark, -⟩ := rel.mark (known rfl)
    simp only [perform₁, act, Origin.step, upgrade_text here before lt mark]
    split
    · have str := fresh_num (o.fresh (.str .upgrade)) (s.fromMark .upgrade (b + j)) x .websocket 1
      simpa [Origin.fresh, HttpRequest.fromMark, HttpRequest.setStr] using str
    · exact .inl ⟨rfl, by simp [Origin.fresh]⟩
  case httpContentLength => exact fresh_num o s x _ _
  case statusCode => exact fresh_num o s x _ _
  case httpVersion10 => exact fresh_num o s x _ _
  case httpVersion11 => exact fresh_num o s x _ _
  case requestMethodGet => exact fresh_num o s x _ _
  case requestMethodPost => exact fresh_num o s x _ _
  case httpRequestType => exact fresh_num o s x _ _
  case httpResponseType => exact fresh_num o s x _ _
  all_goals exact .inl ⟨rfl, by simp [Origin.step, Origin.fresh, Origin.copy]⟩

/-- The origins after a run, and the numbers that no action wrote. -/
theorem rel_replay {es : List (Action × ℕ)} {seen : Bool} (rel : Rel b b' r r' k o s s')
    (known : seen = true → o.src (.ptr .mark) = none) (first : MarkFirst seen es)
    (sorted : es.Pairwise fun e f => e.2 ≤ f.2) (inside : ∀ e ∈ es, k ≤ e.2 ∧ e.2 < text.length)
    (here : slice mem b text.length = text) (here' : slice mem' b' text.length = text) :
    ∃ k', Rel b b' r r' k' (es.foldl (Origin.step text) o) (replay mem b es s)
      (replay mem' b' es s') ∧
      ∀ x, (replay mem b es s).num x = s.num x ∧
        (es.foldl (Origin.step text) o).src (.num x) = o.src (.num x) ∨
        (es.foldl (Origin.step text) o).src (.num x) = none := by
  induction es generalizing k o s s' seen with
  | nil => exact ⟨k, rel, fun _ => .inl ⟨rfl, rfl⟩⟩
  | cons e es ih =>
    obtain ⟨use, first⟩ := first
    obtain ⟨le, lt⟩ := inside e (by simp)
    have step := rel.step le lt here here' fun used => known (use used)
    have num := rel.step_num le lt here fun used => known (use used)
    have inside' : ∀ f ∈ es, e.2 ≤ f.2 ∧ f.2 < text.length := fun f hf =>
      ⟨(List.pairwise_cons.mp sorted).1 f hf, (inside f (List.mem_cons_of_mem _ hf)).2⟩
    obtain ⟨k', rel', num'⟩ := ih step (fun seen' => by
      apply Origin.step_mark
      simp only [Bool.or_eq_true, isMark, decide_eq_true_eq] at seen'
      exact seen'.imp_left known) first (List.pairwise_cons.mp sorted).2 inside'
    refine ⟨k', rel', fun x => ?_⟩
    rcases num' x with ⟨same', src'⟩ | written
    · rcases num x with ⟨same, src⟩ | written
      · exact .inl ⟨same'.trans same, src'.trans src⟩
      · exact .inr (src'.trans written)
    · exact .inr written

end Runs

/-- What is left of the text by `http_request_init` and one `http_request_parse`. -/
def parsed (r : HttpRequest) (mem : ℤ → UInt8) (buffer : ℤ) (len : ℕ) : HttpRequest :=
  (httpRequestParse (httpRequestInit r) mem buffer len 0).2

/-- What a handler looks at is the same in two records. -/
structure SameRequest (r r' : HttpRequest) : Prop where
  contentLength : r.num .contentLength = r'.num .contentLength
  connection : r.num .connection = r'.num .connection
  websocket : r.num .websocket = r'.num .websocket
  finish : httpRequestFinish r = httpRequestFinish r'
  host : r.str .host = r'.str .host
  contentType : r.str .contentType = r'.str .contentType
  queryString : r.str .queryString = r'.str .queryString
  headersNum : r.headersNum = r'.headersNum
  headers : ∀ i < r.headersNum, r.headers i = r'.headers i

/-- The fields among them that an action can write, for a request with `n` headers. -/
def Visible (n : ℕ) : Cell → Prop
  | .num .contentLength => True
  | .num .connection => True
  | .num .websocket => True
  | .str .host => True
  | .str .contentType => True
  | .str .queryString => True
  | .name i => i < n
  | .value i => i < n
  | _ => False

section NonInterference

variable {mem : ℤ → UInt8} {b : ℤ} {r r' : HttpRequest} {len : ℕ}

/-- The error flag is set by the text, or is as it was. -/
def Flagged (r : HttpRequest) (o : Origin) (s : HttpRequest) : Prop :=
  (o.src (.num .errTooManyHeader) = none ∧ s.num .errTooManyHeader = 1) ∨
  (o.src (.num .errTooManyHeader) = some (.num .errTooManyHeader) ∧
    s.num .errTooManyHeader = r.num .errTooManyHeader)

theorem flagged_step {text : List UInt8} {o : Origin} {s : HttpRequest} {e : Action × ℕ}
    (num : s.headersNum = o.num) (flagged : Flagged r o s) :
    Flagged r (o.step text e) (perform₁ mem b s e) := by
  obtain ⟨x, j⟩ := e
  unfold Flagged at flagged ⊢
  cases x
  case writeField =>
    simp only [perform₁, act, Origin.step, num]
    split
    · simp [Origin.fresh, HttpRequest.setNum]
    · simpa [Origin.copy, HttpRequest.setHeader] using flagged
  case httpConnection =>
    simp only [perform₁, act, Origin.step]
    split_ifs <;> simpa [Origin.fresh, HttpRequest.setNum] using flagged
  case upgrade =>
    simp only [perform₁, act, Origin.step]
    split_ifs <;> simpa [Origin.fresh, HttpRequest.setNum, HttpRequest.fromMark,
      HttpRequest.setStr] using flagged
  all_goals
    simpa [perform₁, act, Origin.step, Origin.fresh, Origin.copy, HttpRequest.setNum,
      HttpRequest.fromMark, HttpRequest.setStr, HttpRequest.setPtr, HttpRequest.setHeader]
      using flagged

theorem step_num (text : List UInt8) (o : Origin) (e : Action × ℕ) :
    (o.step text e).num = bump o.num e.1 := by
  obtain ⟨x, j⟩ := e
  cases x <;> simp only [Origin.step, bump] <;> (try split) <;> rfl

theorem flagged_replay {text : List UInt8} {es : List (Action × ℕ)} {o : Origin} {s : HttpRequest}
    (num : s.headersNum = o.num) (flagged : Flagged r o s) :
    Flagged r (es.foldl (Origin.step text) o) (replay mem b es s) := by
  induction es generalizing o s with
  | nil => exact flagged
  | cons e es ih =>
    apply ih
    · rw [step_num, ← num]
      exact act_headersNum mem _ s e.1
    · exact flagged_step num flagged

theorem agree_self (cell : Cell) : Agree b b r r' cell ↔ Agree 0 0 r r' cell := by
  cases cell <;> simp [Agree, SameStr]

theorem sameStr_self (s s' : RefStr) : SameStr b b s s' ↔ s = s' := by
  rw [RefStr.ext_iff]
  simp [SameStr]

/-- `http_request_init` and `http_request_parse` on all of the bytes. -/
theorem parse_init_eq (r : HttpRequest) (mem : ℤ → UInt8) (b : ℤ) (len : ℕ) (s : Scan)
    (hs : s = scan (slice mem b len) 0 httpRequestStart 0) :
    httpRequestParse (httpRequestInit r) mem b len 0 =
      (s.pos, { replay mem b s.acts (httpRequestInit r) with status := s.state, nread := s.pos }) := by
  rw [parse_eq (Nat.zero_le _) s (by simpa [httpRequestInit] using hs)]
  simp [httpRequestInit]

/-- The runs of the parser on a text at two addresses, from any two prior records. -/
theorem init_rel {mem mem' : ℤ → UInt8} {b b' : ℤ} {text : List UInt8}
    (here : slice mem b text.length = text) (here' : slice mem' b' text.length = text)
    (r r' : HttpRequest) (s : Scan) (hs : s = scan text 0 httpRequestStart 0) :
    ∃ k, Rel b b' r r' k (origin text s.acts) (replay mem b s.acts (httpRequestInit r))
      (replay mem' b' s.acts (httpRequestInit r')) ∧
      ∀ x, (replay mem b s.acts (httpRequestInit r)).num x = r.num x ∧
        (origin text s.acts).src (.num x) = some (.num x) ∨
        (origin text s.acts).src (.num x) = none := by
  have start : Rel b b' r r' 0 .init (httpRequestInit r) (httpRequestInit r') := by
    refine ⟨rfl, rfl, by simp [Origin.init], le_rfl, fun cell => ?_⟩
    have same : Agree b b' (httpRequestInit r) (httpRequestInit r') cell ↔ Agree b b' r r' cell := by
      cases cell <;> rfl
    simp [same, Origin.init]
  have first : MarkFirst false s.acts := hs ▸ start_markFirst _
  have sorted : s.acts.Pairwise fun e f => e.2 ≤ f.2 := hs ▸ scan_sorted
  have inside : ∀ e ∈ s.acts, 0 ≤ e.2 ∧ e.2 < text.length := by
    intro e he
    have := scan_acts e (hs ▸ he)
    omega
  exact rel_replay start (by simp) first sorted inside here here'

theorem replay_congr {mem mem' : ℤ → UInt8} {b : ℤ} {text : List UInt8}
    (here : slice mem b text.length = text) (here' : slice mem' b text.length = text)
    (r : HttpRequest) (s : Scan) (hs : s = scan text 0 httpRequestStart 0) :
    replay mem b s.acts (httpRequestInit r) = replay mem' b s.acts (httpRequestInit r) := by
  obtain ⟨k, rel, -⟩ := init_rel here here' r r s hs
  obtain ⟨status, nread, restData, restLen⟩ := replay_rest mem b (httpRequestInit r) s.acts
  obtain ⟨status', nread', restData', restLen'⟩ := replay_rest mem' b (httpRequestInit r) s.acts
  have refl : ∀ c, Agree b b r r c := fun c => by cases c <;> simp [Agree, SameStr]
  have agree : ∀ cell, Agree b b (replay mem b s.acts (httpRequestInit r))
      (replay mem' b s.acts (httpRequestInit r)) cell := fun cell =>
    (rel.agree cell).mpr fun c _ => refl c
  apply HttpRequest.ext
  · funext x
    have := agree (.ptr x)
    simp only [Agree] at this
    omega
  · funext x
    exact agree (.num x)
  · funext x
    exact (sameStr_self _ _).mp (agree (.str x))
  · rw [status, status']
  · rw [nread, nread']
  · rw [rel.num, rel.num']
  · funext i
    exact Header.ext ((sameStr_self _ _).mp (agree (.name i))) ((sameStr_self _ _).mp (agree (.value i)))
  · rw [restData, restData']
  · rw [restLen, restLen']

/-- The run of the parser on the bytes at `b`, for any two prior records. -/
theorem parsed_rel (mem : ℤ → UInt8) (b : ℤ) (len : ℕ) (r r' : HttpRequest) (s : Scan)
    (hs : s = scan (slice mem b len) 0 httpRequestStart 0) :
    (∀ cell, Agree b b (parsed r mem b len) (parsed r' mem b len) cell ↔
      ∀ c, (origin (slice mem b len) s.acts).src cell = some c → Agree b b r r' c) ∧
    (parsed r mem b len).headersNum = (origin (slice mem b len) s.acts).num ∧
    (parsed r mem b len).status = s.state ∧
    Flagged r (origin (slice mem b len) s.acts) (parsed r mem b len) := by
  have here : slice mem b (slice mem b len).length = slice mem b len := by rw [slice_length]
  obtain ⟨k, rel, -⟩ := init_rel here here r r' s hs
  simp only [parsed, parse_init_eq _ mem b len s hs]
  refine ⟨fun cell => ?_, rel.num, trivial, ?_⟩
  · refine Iff.trans ?_ (rel.agree cell)
    cases cell <;> rfl
  · exact flagged_replay (o := .init) rfl (.inr ⟨rfl, rfl⟩)

theorem finish_iff (same : r.status = r'.status) : httpRequestFinish r = httpRequestFinish r' ↔
    r.status = .void ∨ (r.num .errTooManyHeader ≠ 0 ↔ r'.num .errTooManyHeader ≠ 0) := by
  by_cases dead : r.status = .void
  · simp [httpRequestFinish, httpRequestHasError, ← same, dead]
  · have live : ∀ s : HttpRequest, s.status = r.status → httpRequestFinish s =
        if s.num .errTooManyHeader ≠ 0 then -1 else if r.status.nullable then 1 else 0 := by
      intro s hs
      simp [httpRequestFinish, httpRequestHasError, httpRequestIsFinished, hs, dead]
    rw [live r rfl, live r' same.symm]
    by_cases err : r.num .errTooManyHeader = 0 <;> by_cases err' : r'.num .errTooManyHeader = 0 <;>
      cases null : r.status.nullable <;> simp [dead, err, err']

theorem sameRequest_iff (num : r.headersNum = r'.headersNum) :
    SameRequest r r' ↔ (∀ cell, Visible r.headersNum cell → Agree 0 0 r r' cell) ∧
      httpRequestFinish r = httpRequestFinish r' := by
  constructor
  · intro same
    refine ⟨fun cell visible => ?_, same.finish⟩
    rcases cell with x | x | x | i | i
    · exact visible.elim
    · cases x <;> first | exact visible.elim | skip
      · exact same.contentLength
      · exact same.connection
      · exact same.websocket
    · cases x <;> first | exact visible.elim | skip
      · exact (sameStr_self _ _).mpr same.host
      · exact (sameStr_self _ _).mpr same.queryString
      · exact (sameStr_self _ _).mpr same.contentType
    · exact (sameStr_self _ _).mpr (congrArg Header.name (same.headers i visible))
    · exact (sameStr_self _ _).mpr (congrArg Header.value (same.headers i visible))
  · rintro ⟨cells, finish⟩
    exact {
      contentLength := cells (.num .contentLength) trivial
      connection := cells (.num .connection) trivial
      websocket := cells (.num .websocket) trivial
      finish := finish
      host := (sameStr_self _ _).mp (cells (.str .host) trivial)
      contentType := (sameStr_self _ _).mp (cells (.str .contentType) trivial)
      queryString := (sameStr_self _ _).mp (cells (.str .queryString) trivial)
      headersNum := num
      headers := fun i lt => Header.ext ((sameStr_self _ _).mp (cells (.name i) lt))
        ((sameStr_self _ _).mp (cells (.value i) lt)) }

end NonInterference

/-- The origins of the fields after a text has been parsed. -/
def textOrigin (text : List UInt8) : Origin :=
  origin text (scan text 0 httpRequestStart 0).acts

/-- What a handler sees of a text does not depend on the prior record exactly when every field it
looks at is written from the text alone, or the prior records agree on what it is taken from. -/
theorem parse_sameRequest_iff (r r' : HttpRequest) (mem : ℤ → UInt8) (b : ℤ) (len : ℕ) :
    SameRequest (parsed r mem b len) (parsed r' mem b len) ↔
      (∀ cell, Visible (textOrigin (slice mem b len)).num cell →
        ∀ c, (textOrigin (slice mem b len)).src cell = some c → Agree 0 0 r r' c) ∧
      ((scan (slice mem b len) 0 httpRequestStart 0).state = .void ∨
        (textOrigin (slice mem b len)).src (.num .errTooManyHeader) = none ∨
        (r.num .errTooManyHeader ≠ 0 ↔ r'.num .errTooManyHeader ≠ 0)) := by
  obtain ⟨agree, num, status, flagged⟩ := parsed_rel mem b len r r' _ rfl
  obtain ⟨-, num', status', flagged'⟩ := parsed_rel mem b len r' r _ rfl
  rw [sameRequest_iff (num.trans num'.symm), finish_iff (status.trans status'.symm), num, status]
  apply and_congr
  · apply forall_congr'
    intro cell
    simp only [← agree_self (b := b), agree cell]
    rfl
  · apply or_congr Iff.rfl
    rcases flagged with ⟨src, one⟩ | ⟨src, old⟩
    · obtain ⟨-, one'⟩ | ⟨src', -⟩ := flagged'
      · simp only [textOrigin, src, one, one', true_or]
      · rw [src] at src'
        simp at src'
    · obtain ⟨src', -⟩ | ⟨-, old'⟩ := flagged'
      · rw [src] at src'
        simp at src'
      · simp only [textOrigin, src, old, old']
        simp

def blank : HttpRequest where
  ptr := fun _ => 0
  num := fun _ => 0
  str := fun _ => ⟨0, 0⟩
  status := .void
  nread := 0
  headersNum := 0
  headers := fun _ => ⟨⟨0, 0⟩, ⟨0, 0⟩⟩
  restData := 0
  restLen := 0

def textMem (text : List UInt8) : ℤ → UInt8 := fun i => text.getD i.toNat 0

def getText : List UInt8 := codes "GET / HTTP/1.0\r\n\r\n"

def postText : List UInt8 := codes "POST / HTTP/1.0\r\nContent-Length: 5\r\n\r\n"

/-- After a request with a body a request without one has the content length of the first. -/
theorem content_length_left_over :
    (parsed (parsed blank (textMem postText) 0 38) (textMem getText) 0 18).num .contentLength = 5 ∧
    ¬ SameRequest (parsed (parsed blank (textMem postText) 0 38) (textMem getText) 0 18)
      (parsed blank (textMem getText) 0 18) := by
  have first : (parsed (parsed blank (textMem postText) 0 38) (textMem getText) 0 18).num
      .contentLength = 5 := by decide +kernel
  have second : (parsed blank (textMem getText) 0 18).num .contentLength = 0 := by decide +kernel
  refine ⟨first, fun same => ?_⟩
  have := same.contentLength
  omega

end Conet.Base.HttpOrigin
