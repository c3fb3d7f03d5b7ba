/- Module: Conet/Svrkit/HttpConnRun
   source: svrkit/src/http_server.cpp, base/src/http_parser.rl
   digest: The loop of conn_proc on streams of requests, for the ways of splitting them that it
   serves right. -/

import Conet.Base.HttpOrigin
import Conet.Svrkit.HttpConn

set_option autoImplicit false
set_option relaxedAutoImplicit false

namespace Conet.Svrkit.HttpConnRun

open Conet.Lib Conet.Lib.Ragel Conet.Base.HttpParser Conet.Base.HttpTrace Conet.Base.HttpOrigin
open Conet.Svrkit.HttpConn

/-- A request: a head that the parser takes as a whole, and a body. -/
structure Request where
  head : List UInt8
  body : List UInt8
  stop : (scan head 0 httpRequestStart 0).stop = .done
  pos : (scan head 0 httpRequestStart 0).pos = head.length
  final : (scan head 0 httpRequestStart 0).state.nullable = true

namespace Request

variable (q : Request)

def scanned : Scan := scan q.head 0 httpRequestStart 0

/-- The first `n` bytes of the head. -/
def begun (n : ℕ) : Scan := scan (q.head.take n) 0 httpRequestStart 0

def text : List UInt8 := q.head ++ q.body

/-- The record when the head has been parsed, which was `r` before. -/
def seen (mem : ℤ → UInt8) (b : ℤ) (r : HttpRequest) : HttpRequest :=
  { replay mem b q.scanned.acts (httpRequestInit r) with
    status := q.scanned.state
    nread := q.head.length }

/-- The record when the first `n` bytes of the head have been parsed. -/
def half (n : ℕ) (mem : ℤ → UInt8) (b : ℤ) (r : HttpRequest) : HttpRequest :=
  { replay mem b (q.begun n).acts (httpRequestInit r) with
    status := (q.begun n).state
    nread := n }

/-- A number of the record after the head, which was `prior` before. -/
def numAfter (x : NumField) (prior : ℤ) : ℤ :=
  if (textOrigin q.head).src (.num x) = none then (q.seen (textMem q.head) 0 blank).num x else prior

end Request

/-- The bytes of some requests one after another. -/
def texts (qs : List Request) : List UInt8 := qs.flatMap Request.text

section Parse

variable {q : Request} {mem mem' : ℤ → UInt8} {b : ℤ} {r : HttpRequest} {n len : ℕ}
  {rest : List UInt8}

theorem head_pos (q : Request) : 0 < q.head.length := by
  apply List.length_pos_iff.mpr
  intro nil
  have stop := q.stop
  rw [nil] at stop
  simp [scan] at stop

theorem head_here (here : slice mem b len = q.head ++ rest) : slice mem b q.head.length = q.head := by
  have lengths := congrArg List.length here
  simp only [slice_length, List.length_append] at lengths
  have part := slice_part mem b (i := 0) (n := q.head.length) (l := len) (by omega)
  simpa [here] using part

/-- A head that is there as a whole, whatever follows it. -/
theorem parse_whole (here : slice mem b len = q.head ++ rest) :
    httpRequestParse (httpRequestInit r) mem b len 0 = (q.head.length, q.seen mem b r) := by
  have same : q.scanned = scan (slice mem b len) 0 httpRequestStart 0 := by
    rw [here, scan_append_of_stop (by simp [q.stop])]
    rfl
  rw [parse_init_eq r mem b len _ same, show q.scanned.pos = q.head.length from q.pos]
  rfl

theorem seen_err : (q.seen mem b r).num .errTooManyHeader = r.num .errTooManyHeader :=
  replay_err (r := httpRequestInit r) (by
    rw [show (httpRequestInit r).headersNum = 0 from rfl, q.stop]
    simp)

theorem finish_seen :
    httpRequestFinish (q.seen mem b r) = if r.num .errTooManyHeader ≠ 0 then -1 else 1 := by
  have live : q.scanned.state ≠ .void := by
    intro dead
    have final : q.scanned.state.nullable = true := q.final
    simp [dead, Machine.nullable] at final
  have final : q.scanned.state.nullable = true := q.final
  simp only [httpRequestFinish, httpRequestHasError, httpRequestIsFinished, seen_err]
  simp [Request.seen, live, final]

theorem seen_body : (q.seen mem b r).ptr .body = b + q.head.length := by
  have body : (replay mem b q.scanned.acts (httpRequestInit r)).ptr .body = b + q.scanned.pos :=
    replay_body q.stop
  rw [show q.scanned.pos = q.head.length from q.pos] at body
  exact body

theorem textMem_here (text : List UInt8) : slice (textMem text) 0 text.length = text := by
  refine List.ext_getElem (by simp) fun i hi hi' => ?_
  simp [slice, textMem, List.getD_eq_getElem?_getD, hi']

/-- What the head writes does not depend on where it stands and what was in the record. -/
theorem seen_agree (here : slice mem b q.head.length = q.head) {cell : Cell}
    (written : (textOrigin q.head).src cell = none) :
    Agree b 0 (q.seen mem b r) (q.seen (textMem q.head) 0 blank) cell := by
  obtain ⟨k, rel, -⟩ := init_rel here (textMem_here q.head) r blank q.scanned rfl
  have src : (origin q.head q.scanned.acts).src cell = none := written
  have agree := (rel.agree cell).mpr (by simp [src])
  cases cell <;> exact agree

theorem seen_headersNum (here : slice mem b q.head.length = q.head) :
    (q.seen mem b r).headersNum = (q.seen (textMem q.head) 0 blank).headersNum := by
  obtain ⟨k, rel, -⟩ := init_rel here (textMem_here q.head) r blank q.scanned rfl
  exact rel.num.trans rel.num'.symm

theorem seen_num (here : slice mem b q.head.length = q.head) (x : NumField) :
    (q.seen mem b r).num x = q.numAfter x (r.num x) := by
  obtain ⟨k, rel, num⟩ := init_rel here here r r q.scanned rfl
  rcases num x with ⟨same, kept⟩ | written
  · have src : ¬ (textOrigin q.head).src (.num x) = none := by
      intro written
      cases kept.symm.trans written
    rw [Request.numAfter, if_neg src]
    exact same
  · have src : (textOrigin q.head).src (.num x) = none := written
    rw [Request.numAfter, if_pos src]
    have agree : Agree b 0 (q.seen mem b r) (q.seen (textMem q.head) 0 blank) (.num x) :=
      seen_agree here src
    exact agree

theorem begun_stop (lt : n < q.head.length) : (q.begun n).stop = .outOfText := by
  by_contra early
  have same : scan (q.head.take n ++ q.head.drop n) 0 httpRequestStart 0 = q.begun n :=
    scan_append_of_stop early
  rw [List.take_append_drop] at same
  have pos := (scan_pos (q.head.take n) 0 httpRequestStart 0).2
  rw [show scan (q.head.take n) 0 httpRequestStart 0 = _ from same.symm, q.pos,
    List.length_take] at pos
  omega

theorem parse_half (lt : n < q.head.length) (here : slice mem b n = q.head.take n) :
    httpRequestParse (httpRequestInit r) mem b n 0 = (n, q.half n mem b r) := by
  have same : q.begun n = scan (slice mem b n) 0 httpRequestStart 0 := by rw [here]; rfl
  have pos : (q.begun n).pos = n := by
    have out := scan_outOfText (begun_stop lt)
    rw [List.length_take] at out
    have le : min n q.head.length = n := by omega
    rwa [le, zero_add] at out
  rw [parse_init_eq r mem b n _ same, pos]
  rfl

theorem half_err (lt : n < q.head.length) :
    (q.half n mem b r).num .errTooManyHeader = r.num .errTooManyHeader :=
  replay_err (r := httpRequestInit r) (by
    rw [show (scan _ 0 httpRequestStart (httpRequestInit r).headersNum).stop = .outOfText from
      begun_stop lt]
    simp)

theorem finish_half (lt : n < q.head.length) :
    httpRequestFinish (q.half n mem b r) = if r.num .errTooManyHeader ≠ 0 then -1 else 0 := by
  have live : (q.begun n).state ≠ .void := scan_live (by decide) (begun_stop lt)
  have open' : (q.begun n).state.nullable = false :=
    scan_final (by decide) (by decide) (begun_stop lt)
  simp only [httpRequestFinish, httpRequestHasError, httpRequestIsFinished, half_err lt]
  simp [Request.half, live, open']

theorem parse_rest (lt : n < q.head.length) (here : slice mem b n = q.head.take n)
    (here' : slice mem' b len = q.head ++ rest) :
    httpRequestParse (q.half n mem b r) mem' b len n = (q.head.length, q.seen mem' b r) := by
  have lengths := congrArg List.length here'
  simp only [slice_length, List.length_append] at lengths
  have take : (q.head.take n).length = n := by simp; omega
  -- the scan of the head is that of its two parts
  have parts : q.scanned = { scan (q.head.drop n) n (q.begun n).state (q.begun n).num with
      acts := (q.begun n).acts ++ (scan (q.head.drop n) n (q.begun n).state (q.begun n).num).acts } := by
    have append : scan (q.head.take n ++ q.head.drop n) 0 httpRequestStart 0 = _ :=
      scan_append (begun_stop lt)
    rw [List.take_append_drop, take, zero_add] at append
    exact append
  have stop : (scan (q.head.drop n) n (q.begun n).state (q.begun n).num).stop = .done := by
    have done : q.scanned.stop = .done := q.stop
    rw [parts] at done
    exact done
  have left : slice mem' (b + n) (len - n) = q.head.drop n ++ rest := by
    have part := slice_part mem' b (i := n) (n := len - n) (l := len) (by omega)
    rw [here', List.drop_append_of_le_length lt.le] at part
    rw [part]
    apply List.take_of_length_le
    simp
    omega
  have num : (q.half n mem b r).headersNum = (q.begun n).num :=
    scan_headersNum (r := httpRequestInit r)
  have scan₂ : scan (q.head.drop n) n (q.begun n).state (q.begun n).num =
      scan (slice mem' (b + n) (len - n)) n (q.half n mem b r).status
        (q.half n mem b r).headersNum := by
    rw [left, num]
    exact (scan_append_of_stop (by simp [stop])).symm
  have pos : (scan (q.head.drop n) n (q.begun n).state (q.begun n).num).pos = q.head.length := by
    have pos : q.scanned.pos = q.head.length := q.pos
    rw [parts] at pos
    exact pos
  have here₁ : slice mem b (q.head.take n).length = q.head.take n := by rw [take, here]
  have here₂ : slice mem' b (q.head.take n).length = q.head.take n := by
    have part := slice_part mem' b (i := 0) (n := n) (l := len) (by omega)
    rw [here'] at part
    rw [take]
    simpa [List.take_append_of_le_length lt.le] using part
  rw [parse_eq (by omega) _ scan₂, pos, Request.half,
    show n + (q.head.length - n) = q.head.length by omega, replay_with,
    replay_congr here₁ here₂ r (q.begun n) rfl]
  simp only [Request.seen, parts, replay_append]

end Parse

/-- Every head gives the length of the body after it, on a record whose content length was
`prior`. -/
def Lengths : ℤ → List Request → Prop
  | _, [] => True
  | prior, q :: qs => q.numAfter .contentLength prior = q.body.length ∧ Lengths q.body.length qs

/-- `recv` brings a text in pieces, in any way, and nothing more for now. -/
inductive Delivers : List Recv → List UInt8 → Prop
  | nil : Delivers [] []
  | data {chunk text : List UInt8} {rs : List Recv} : chunk ≠ [] → Delivers rs text →
    Delivers (.data chunk :: rs) (chunk ++ text)
  | again {text : List UInt8} {rs : List Recv} : Delivers rs text → Delivers (.again :: rs) text

/-- Every `recv` brings whole requests. -/
inductive Whole : List Request → List Recv → Prop
  | nil : Whole [] []
  | data {ds qs : List Request} {rs : List Recv} : ds ≠ [] → Whole qs rs →
    Whole (ds ++ qs) (.data (texts ds) :: rs)
  | again {qs : List Request} {rs : List Recv} : Whole qs rs → Whole qs (.again :: rs)

@[simp] theorem texts_nil : texts [] = [] := rfl

@[simp] theorem texts_cons (q : Request) (qs : List Request) :
    texts (q :: qs) = q.text ++ texts qs := rfl

@[simp] theorem texts_append (ds qs : List Request) : texts (ds ++ qs) = texts ds ++ texts qs :=
  List.flatMap_append

theorem text_ne (q : Request) : q.text ≠ [] := by
  have pos := head_pos q
  intro nil
  have length := congrArg List.length nil
  simp only [Request.text, List.length_append, List.length_nil] at length
  omega

theorem texts_ne {qs : List Request} (ne : qs ≠ []) : texts qs ≠ [] := by
  cases qs with
  | nil => exact absurd rfl ne
  | cons q qs => simp [text_ne]

/-- A first part of the bytes of some requests ends between two of them or within one. -/
theorem texts_split {qs : List Request} {chunk rest : List UInt8} (h : texts qs = chunk ++ rest) :
    (∃ ds qs', qs = ds ++ qs' ∧ chunk = texts ds ∧ rest = texts qs') ∨
    ∃ ds q qs' n, qs = ds ++ q :: qs' ∧ 0 < n ∧ n < q.text.length ∧
      chunk = texts ds ++ q.text.take n ∧ rest = q.text.drop n ++ texts qs' := by
  induction qs generalizing chunk with
  | nil =>
    obtain ⟨rfl, rfl⟩ := List.append_eq_nil_iff.mp h.symm
    exact .inl ⟨[], [], rfl, rfl, rfl⟩
  | cons q qs ih =>
    by_cases le : q.text.length ≤ chunk.length
    · obtain ⟨more, rfl⟩ : q.text <+: chunk :=
        List.prefix_of_prefix_length_le ⟨texts qs, h⟩ ⟨rest, rfl⟩ le
      rw [texts_cons, List.append_assoc, List.append_cancel_left_eq] at h
      rcases ih h with ⟨ds, qs', rfl, rfl, rfl⟩ | ⟨ds, q', qs', n, rfl, pos, lt, rfl, rfl⟩
      · exact .inl ⟨q :: ds, qs', rfl, rfl, rfl⟩
      · refine .inr ⟨q :: ds, q', qs', n, rfl, pos, lt, ?_, rfl⟩
        rw [texts_cons, List.append_assoc]
    · have lt : chunk.length < q.text.length := by omega
      obtain ⟨more, same⟩ : chunk <+: q.text :=
        List.prefix_of_prefix_length_le ⟨rest, h.symm⟩ ⟨texts qs, rfl⟩ lt.le
      have left : rest = more ++ texts qs := by
        rw [texts_cons, ← same, List.append_assoc, List.append_cancel_left_eq] at h
        exact h.symm
      rcases Nat.eq_zero_or_pos chunk.length with zero | pos
      · obtain rfl := List.length_eq_zero_iff.mp zero
        refine .inl ⟨[], q :: qs, rfl, rfl, ?_⟩
        rw [left, texts_cons, ← same, List.nil_append]
      · refine .inr ⟨[], q, qs, chunk.length, rfl, pos, lt, ?_, ?_⟩
        · rw [← same]
          simp
        · rw [left, ← same]
          simp

/-- Between two requests: the buffer holds the bytes `left`, of which none has been parsed. -/
structure Aligned (cfg : Config) (c : Conn) (left : List UInt8) : Prop where
  nparsed : c.nparsed = 0
  start : 0 ≤ c.parseP
  stop : c.recvP = c.parseP + left.length
  len : c.recvLen = c.recvP
  fits : c.recvP ≤ cfg.len
  bytes : slice c.mem c.parseP left.length = left
  empty : left = [] → c.recvP = 0

/-- What `http_server_main` is called with in `serveTurn`. -/
def called (c : Conn) : Call where
  req := { c.req with
    restData := c.parseP + c.nparsed
    restLen := (c.recvP - c.parseP - c.nparsed) % 2 ^ 64 }
  mem := c.mem
  recvP := c.recvP
  parseP := c.parseP

/-- The connection when a head that was there as a whole has been parsed. -/
def atEnd (c : Conn) (q : Request) : Conn :=
  { c with req := q.seen c.mem c.parseP c.req, nparsed := q.head.length }

/-- The connection when the first `n` bytes of a head have been parsed. -/
def partway (c : Conn) (q : Request) (n : ℕ) : Conn :=
  { c with req := q.half n c.mem c.parseP c.req, nparsed := n }

/-- The connection when the rest of that head has been parsed, with `left` behind it. -/
def pastEnd (c : Conn) (q : Request) (n : ℕ) (left : List UInt8) : Conn :=
  let c' := receive c (q.head.drop n ++ left)
  { c' with req := q.seen c'.mem c.parseP c.req, nparsed := n + q.head.length }

/-- The connection after `http_server_main` returned 0. -/
def after (cfg : Config) (c : Conn) : Conn :=
  advance cfg { c with req := (called c).req, calls := c.calls ++ [called c] }

section Turns

variable {cfg : Config} {serve : Call → ℤ} {c : Conn} {q : Request} {rs : List Recv}
  {text left chunk : List UInt8} {n : ℕ}

theorem len_nonneg (cfg : Config) : 0 ≤ cfg.len := by
  have := cfg.nonneg
  simp only [Config.len]
  omega

theorem len_lt (cfg : Config) : cfg.len < 2 ^ 31 := by
  have := cfg.int
  simp only [Config.len]
  omega

theorem Aligned.init (cfg : Config) (mem : ℤ → UInt8) (r : HttpRequest) :
    Aligned cfg (Conn.init mem r) [] :=
  ⟨rfl, le_rfl, rfl, rfl, len_nonneg cfg, rfl, fun _ => rfl⟩

theorem Aligned.receive (al : Aligned cfg c []) (room : chunk.length ≤ cfg.len - c.recvLen)
    (ne : chunk ≠ []) : Aligned cfg (receive c chunk) chunk := by
  have recv : c.recvP = 0 := al.empty rfl
  have start : c.parseP = 0 := by simpa [recv] using al.stop.symm
  have len : c.recvLen = 0 := al.len.trans recv
  refine ⟨al.nparsed, al.start, ?_, ?_, ?_, ?_, fun nil => absurd nil ne⟩
  · simp [HttpConn.receive, recv, start]
  · simp [HttpConn.receive, recv, len]
  · simp only [HttpConn.receive, recv]
    omega
  · simp only [HttpConn.receive, recv, start]
    exact slice_write c.mem 0 chunk

theorem serveTurn_eq (c : Conn) (rs : List Recv) : serveTurn cfg serve c rs =
    if c.req.num .websocket = 1 then .leave (.returned 1, { c with req := (called c).req })
    else if serve (called c) ≠ 0 then .leave (.returned (serve (called c)),
      { c with req := (called c).req, calls := c.calls ++ [called c] })
    else .again (after cfg c, rs) := rfl

@[simp] theorem advance_req (c : Conn) : (advance cfg c).req = c.req := by
  simp only [advance]
  split_ifs <;> rfl

@[simp] theorem advance_calls (c : Conn) : (advance cfg c).calls = c.calls := by
  simp only [advance]
  split_ifs <;> rfl

/-- A head that is in the buffer as a whole is parsed in one turn. -/
theorem parseTurn_whole (al : Aligned cfg c (q.head ++ left)) : parseTurn cfg serve c rs =
    if c.req.num .errTooManyHeader ≠ 0 then .leave (.returned (-1), atEnd c q)
    else serveTurn cfg serve (atEnd c q) rs := by
  have small := len_lt cfg
  have fits := al.fits
  have stop := al.stop
  have start := al.start
  have count : ((c.recvP - c.parseP) % 2 ^ 64).toNat = (q.head ++ left).length := by omega
  have few : q.head.length ≤ (q.head ++ left).length := by simp
  have parsed := parse_whole (r := c.req) al.bytes
  have finish : httpRequestFinish (q.seen c.mem c.parseP c.req) = _ := finish_seen
  simp only [parseTurn, al.nparsed, if_true, count, Int.zero_emod, Int.toNat_zero, parsed, zero_add]
  rw [wrapInt64_of_lt (by omega) (by omega)]
  simp only [finish]
  by_cases err : c.req.num .errTooManyHeader = 0 <;> simp [err, atEnd]

theorem Aligned.length (al : Aligned cfg c (q.head.take n)) (lt : n < q.head.length) :
    c.recvP = c.parseP + n ∧ slice c.mem c.parseP n = q.head.take n := by
  have length : (q.head.take n).length = n := by
    rw [List.length_take]
    omega
  have stop := al.stop
  have bytes := al.bytes
  rw [length] at stop bytes
  exact ⟨stop, bytes⟩

/-- A first part of a head is parsed, and more is needed. -/
theorem parseTurn_half (al : Aligned cfg c (q.head.take n)) (lt : n < q.head.length) :
    parseTurn cfg serve c rs =
      if c.req.num .errTooManyHeader ≠ 0 then .leave (.returned (-1), partway c q n)
      else .again (partway c q n, rs) := by
  have small := len_lt cfg
  obtain ⟨stop, bytes⟩ := al.length lt
  have start := al.start
  have fits := al.fits
  have count : ((c.recvP - c.parseP) % 2 ^ 64).toNat = n := by omega
  have finish : httpRequestFinish (q.half n c.mem c.parseP c.req) = _ := finish_half lt
  simp only [parseTurn, al.nparsed, if_true, count, Int.zero_emod, Int.toNat_zero,
    parse_half lt bytes, zero_add, finish]
  rw [wrapInt64_of_lt (by omega) (by omega)]
  by_cases err : c.req.num .errTooManyHeader = 0 <;> simp [err, partway]

theorem rest_length (lt : n < q.head.length) (left : List UInt8) :
    (q.head ++ left).length = n + (q.head.drop n ++ left).length := by
  simp only [List.length_append, List.length_drop]
  omega

/-- The rest of a head stands right behind its first part. -/
theorem rest_here (al : Aligned cfg c (q.head.take n)) (lt : n < q.head.length)
    (left : List UInt8) : slice (write c.mem c.recvP (q.head.drop n ++ left)) c.parseP
      (q.head ++ left).length = q.head ++ left := by
  obtain ⟨stop, bytes⟩ := al.length lt
  rw [rest_length lt left, slice_add, ← stop, slice_write, slice_write_of_le (by omega), bytes,
    ← List.append_assoc, List.take_append_drop]

/-- The rest of a head and what follows it: the length of the first part counts twice. -/
theorem parseTurn_rest (al : Aligned cfg c (q.head.take n)) (pos : 0 < n) (lt : n < q.head.length)
    (fits : c.recvP + (q.head.drop n ++ left).length ≤ cfg.len) :
    parseTurn cfg serve (HttpConn.receive (partway c q n) (q.head.drop n ++ left)) rs =
      if c.req.num .errTooManyHeader ≠ 0 then .leave (.returned (-1), pastEnd c q n left)
      else serveTurn cfg serve (pastEnd c q n left) rs := by
  have small := len_lt cfg
  obtain ⟨stop, bytes⟩ := al.length lt
  have start := al.start
  have length := rest_length lt left
  have parts : (q.head ++ left).length = q.head.length + left.length := List.length_append
  have count : ((c.recvP + (q.head.drop n ++ left).length - c.parseP) % 2 ^ 64).toNat =
      (q.head ++ left).length := by omega
  have off : ((n : ℤ) % 2 ^ 64).toNat = n := by omega
  have here := rest_here al lt left
  have finish : httpRequestFinish (q.seen (write c.mem c.recvP (q.head.drop n ++ left)) c.parseP
    c.req) = _ := finish_seen
  have split : ¬ (n : ℤ) = 0 := by omega
  simp only [parseTurn, HttpConn.receive, partway, split, if_false, count, off,
    parse_rest lt bytes here, finish]
  rw [wrapInt64_of_lt (by omega) (by omega)]
  by_cases err : c.req.num .errTooManyHeader = 0 <;>
    simp [err, pastEnd, HttpConn.receive]

theorem advance_aligned (start : 0 ≤ c.parseP) (stop : c.recvP = c.parseP + (text ++ left).length)
    (len : c.recvLen = c.recvP) (fits : c.recvP ≤ cfg.len)
    (bytes : slice c.mem c.parseP (text ++ left).length = text ++ left)
    (amount : c.nparsed + c.req.num .contentLength = text.length) :
    Aligned cfg (advance cfg c) left := by
  have small := len_lt cfg
  have rest : slice c.mem (c.parseP + text.length) left.length = left := by
    rw [List.length_append, slice_add] at bytes
    exact (List.append_inj bytes (by simp)).2
  rw [List.length_append] at stop
  have wrap : wrapInt64 (c.nparsed + c.req.num .contentLength) = text.length := by
    rw [amount, wrapInt64_of_lt (by omega) (by omega)]
  have gap : c.recvP - (c.parseP + text.length) = left.length := by omega
  simp only [advance, wrap, gap, Int.toNat_natCast, rest]
  split_ifs with none far
  · obtain rfl : left = [] := List.length_eq_zero_iff.mp (by omega)
    exact ⟨rfl, le_rfl, rfl, rfl, len_nonneg cfg, rfl, fun _ => rfl⟩
  · refine ⟨rfl, le_rfl, by simp, rfl, ?_, slice_write _ _ _, fun nil => ?_⟩
    · show (left.length : ℤ) ≤ cfg.len
      omega
    · simp [nil] at none
  · refine ⟨rfl, ?_, ?_, len, fits, rest, fun nil => ?_⟩
    · show 0 ≤ c.parseP + text.length
      omega
    · show c.recvP = c.parseP + text.length + left.length
      omega
    · simp [nil] at none

/-- A request that is in the buffer as a whole is left behind when it has been served. -/
theorem Aligned.after (al : Aligned cfg c (q.text ++ left))
    (length : (atEnd c q).req.num .contentLength = q.body.length) :
    Aligned cfg (after cfg (atEnd c q)) left := by
  have amount : (q.head.length : ℤ) + (atEnd c q).req.num .contentLength = q.text.length := by
    rw [length]
    simp [Request.text]
  exact advance_aligned al.start al.stop al.len al.fits al.bytes amount

/-- The turn that takes up what `recv` has left over, or goes to `recv`. -/
theorem connTurn_left (run : cfg.toStop = false) (al : Aligned cfg c left) (ne : left ≠ []) :
    connTurn cfg serve (c, rs) = parseTurn cfg serve c rs := by
  have pos : 0 < left.length := List.length_pos_iff.mpr ne
  have start := al.start
  have stop := al.stop
  have len := al.len
  have some : 0 < c.recvLen ∧ c.nparsed = 0 := ⟨by omega, al.nparsed⟩
  simp only [connTurn, run, if_pos some]
  rfl

theorem Aligned.idle (al : Aligned cfg c []) : ¬ (0 < c.recvLen ∧ c.nparsed = 0) := by
  have len : c.recvLen = 0 := al.len.trans (al.empty rfl)
  omega

theorem connTurn_full (run : cfg.toStop = false) (idle : ¬ (0 < c.recvLen ∧ c.nparsed = 0))
    (full : cfg.len - c.recvLen ≤ 0) :
    connTurn cfg serve (c, rs) = .leave (.returned (-2), c) := by
  simp [connTurn, run, idle, full]

theorem connTurn_wait (run : cfg.toStop = false) (idle : ¬ (0 < c.recvLen ∧ c.nparsed = 0))
    (room : 0 < cfg.len - c.recvLen) : connTurn cfg serve (c, []) = .leave (.waiting, c) := by
  simp only [connTurn, run, if_neg idle]
  rw [if_neg (by simp), if_neg (by omega)]

theorem connTurn_again (run : cfg.toStop = false) (idle : ¬ (0 < c.recvLen ∧ c.nparsed = 0))
    (room : 0 < cfg.len - c.recvLen) : connTurn cfg serve (c, .again :: rs) = .again (c, rs) := by
  simp only [connTurn, run, if_neg idle]
  rw [if_neg (by simp), if_neg (by omega)]

theorem connTurn_data (run : cfg.toStop = false) (idle : ¬ (0 < c.recvLen ∧ c.nparsed = 0))
    (room : 0 < cfg.len - c.recvLen) : connTurn cfg serve (c, .data chunk :: rs) =
      if chunk.length ≤ cfg.len - c.recvLen then
        parseTurn cfg serve (HttpConn.receive c chunk) rs
      else .undefined := by
  simp only [connTurn, run, if_neg idle]
  rw [if_neg (by simp), if_neg (by omega)]

end Turns

end Conet.Svrkit.HttpConnRun
