/- Module: Conet/Svrkit/HttpConnSplit
   source: svrkit/src/http_server.cpp, base/src/http_parser.rl
   digest: What the calls of http_server_main see of a stream of requests, against the ways recv
   splits it. -/

import Conet.Svrkit.HttpConnRun

set_option autoImplicit false
set_option relaxedAutoImplicit false

namespace Conet.Svrkit.HttpConnSplit

open Conet.Lib Conet.Lib.Loop Conet.Base.HttpParser Conet.Base.HttpTrace Conet.Base.HttpOrigin
open Conet.Svrkit.HttpConn Conet.Svrkit.HttpConnRun

/-- The head that a call of `http_server_main` is for. -/
def head (call : Call) : List UInt8 := slice call.mem call.parseP call.req.nread

/-- A call is for a request, and what is parsed next starts right after its head. -/
structure For (q : Request) (call : Call) : Prop where
  head : head call = q.head
  next : call.req.restData = call.parseP + call.req.nread

/-- Two calls see the same parsed request: all that their head writes, and all numbers. -/
structure SameParsed (call call' : Call) : Prop where
  head : head call = head call'
  status : call.req.status = call'.req.status
  headersNum : call.req.headersNum = call'.req.headersNum
  fields : ∀ cell, (textOrigin (HttpConnSplit.head call)).src cell = none →
    Agree call.parseP call'.parseP call.req call'.req cell
  numbers : ∀ x, call.req.num x = call'.req.num x

/-- `nparsed` is the number of bytes of the current request that have been parsed. -/
def Counts (c : Conn) : Prop := c.nparsed = 0 ∨ c.nparsed = c.req.nread

/-- The whole stream in one `recv`. -/
def oneRecv (qs : List Request) : List Recv := if qs = [] then [] else [.data (texts qs)]

/-- The connection calls `http_server_main` once for each request, in order, as it does when the
stream comes in one `recv`, and `nparsed` is right in every state reached. -/
def ServesAlike (cfg : Config) (serve : Call → ℤ) (mem : ℤ → UInt8) (r : HttpRequest)
    (qs : List Request) (rs : List Recv) : Prop :=
  ∃ e c e₁ c₁, Completes (connTurn cfg serve) (fun s => Counts s.1) (Conn.init mem r, rs) (e, c) ∧
    Returns (connTurn cfg serve) (Conn.init mem r, oneRecv qs) (e₁, c₁) ∧
    List.Forall₂ For qs c.calls ∧ List.Forall₂ SameParsed c.calls c₁.calls

/-- A keep-alive request without a body, and not a websocket handshake. -/
structure KeepsAlive (q : Request) : Prop where
  body : q.body = []
  connection : ∀ prior, q.numAfter .connection prior = 1
  websocket : q.numAfter .websocket 0 = 0

/-- What `http_request_init` does not clear does not count for the requests to come. -/
structure Clean (r : HttpRequest) (qs : List Request) : Prop where
  err : r.num .errTooManyHeader = 0
  websocket : r.num .websocket = 0
  lengths : Lengths (r.num .contentLength) qs

/-- The requests with the numbers of the record before each of them. -/
def expected : (NumField → ℤ) → List Request → List (Request × (NumField → ℤ))
  | _, [] => []
  | old, q :: qs => (q, old) :: expected (fun x => q.numAfter x (old x)) qs

/-- What a call sees of a request when all is well. -/
structure Sees (e : Request × (NumField → ℤ)) (call : Call) : Prop where
  head : slice call.mem call.parseP e.1.head.length = e.1.head
  nread : call.req.nread = e.1.head.length
  next : call.req.restData = call.parseP + e.1.head.length
  status : call.req.status = e.1.scanned.state
  headersNum : call.req.headersNum = (e.1.seen (textMem e.1.head) 0 blank).headersNum
  fields : ∀ cell, (textOrigin e.1.head).src cell = none →
    Agree call.parseP 0 call.req (e.1.seen (textMem e.1.head) 0 blank) cell
  numbers : ∀ x, call.req.num x = e.1.numAfter x (e.2 x)

section Sees

variable {e : Request × (NumField → ℤ)} {call call' : Call} {old : NumField → ℤ}
  {qs : List Request} {calls calls' : List Call}

theorem Sees.isFor (sees : Sees e call) : For e.1 call := by
  refine ⟨?_, ?_⟩
  · rw [HttpConnSplit.head, sees.nread]
    exact sees.head
  · rw [sees.next, sees.nread]

theorem agree_trans {b b' b'' : ℤ} {s s' s'' : HttpRequest} {cell : Cell}
    (h : Agree b b'' s s'' cell) (h' : Agree b' b'' s' s'' cell) : Agree b b' s s' cell := by
  cases cell with
  | ptr x => exact Eq.trans h h'.symm
  | num x => exact Eq.trans h h'.symm
  | str x => exact ⟨h.1.trans h'.1.symm, h.2.trans h'.2.symm⟩
  | name i => exact ⟨h.1.trans h'.1.symm, h.2.trans h'.2.symm⟩
  | value i => exact ⟨h.1.trans h'.1.symm, h.2.trans h'.2.symm⟩

theorem Sees.same (sees : Sees e call) (sees' : Sees e call') : SameParsed call call' where
  head := sees.isFor.head.trans sees'.isFor.head.symm
  status := sees.status.trans sees'.status.symm
  headersNum := sees.headersNum.trans sees'.headersNum.symm
  fields := fun cell written => by
    rw [sees.isFor.head] at written
    exact agree_trans (sees.fields cell written) (sees'.fields cell written)
  numbers := fun x => (sees.numbers x).trans (sees'.numbers x).symm

theorem sees_for (sees : List.Forall₂ Sees (expected old qs) calls) : List.Forall₂ For qs calls := by
  induction qs generalizing old calls with
  | nil =>
    cases sees
    exact .nil
  | cons q qs ih =>
    cases sees with
    | cons first rest => exact .cons first.isFor (ih rest)

theorem sees_same (sees : List.Forall₂ Sees (expected old qs) calls)
    (sees' : List.Forall₂ Sees (expected old qs) calls') : List.Forall₂ SameParsed calls calls' := by
  induction qs generalizing old calls calls' with
  | nil =>
    cases sees
    cases sees'
    exact .nil
  | cons q qs ih =>
    cases sees with
    | cons first rest =>
      cases sees' with
      | cons first' rest' => exact .cons (first.same first') (ih rest rest')

end Sees

/-- The requests `ds` and the bytes `extra` are in the buffer, the requests `qs` are still to
come. -/
structure Ready (cfg : Config) (c : Conn) (ds : List Request) (extra : List UInt8)
    (qs : List Request) : Prop where
  aligned : Aligned cfg c (texts ds ++ extra)
  clean : Clean c.req (ds ++ qs)
  keeps : ∀ q ∈ ds ++ qs, KeepsAlive q

section Steps

variable {cfg : Config} {serve : Call → ℤ} {c : Conn} {q : Request} {ds qs : List Request}
  {rs : List Recv} {extra : List UInt8}

theorem Ready.step (rs : List Recv) (ready : Ready cfg c (q :: ds) extra qs)
    (keeps : ∀ call, call.req.num .connection = 1 → serve call = 0) :
    parseTurn cfg serve c rs = .again (after cfg (atEnd c q), rs) ∧
      Ready cfg (after cfg (atEnd c q)) ds extra qs ∧ Sees (q, c.req.num) (called (atEnd c q)) := by
  have alive : KeepsAlive q := ready.keeps q (by simp)
  have text : texts (q :: ds) ++ extra = q.text ++ (texts ds ++ extra) := by
    rw [texts_cons, List.append_assoc]
  have aligned : Aligned cfg c (q.text ++ (texts ds ++ extra)) := text ▸ ready.aligned
  have head : q.text ++ (texts ds ++ extra) = q.head ++ (q.body ++ (texts ds ++ extra)) :=
    List.append_assoc ..
  have here : slice c.mem c.parseP q.head.length = q.head := by
    have bytes := aligned.bytes
    rw [head] at bytes
    exact head_here bytes
  obtain ⟨length, lengths⟩ := ready.clean.lengths
  have num : ∀ x, (atEnd c q).req.num x = q.numAfter x (c.req.num x) := fun x => seen_num here x
  have body : (atEnd c q).req.num .contentLength = q.body.length := (num _).trans length
  have websocket : (atEnd c q).req.num .websocket = 0 := by
    rw [num, ready.clean.websocket, alive.websocket]
  have connection : (called (atEnd c q)).req.num .connection = 1 :=
    (num _).trans (alive.connection _)
  have turn : parseTurn cfg serve c rs = _ := parseTurn_whole (head ▸ aligned)
  rw [if_neg (by simp [ready.clean.err]), serveTurn_eq, if_neg (by omega),
    if_neg (by simp [keeps _ connection])] at turn
  refine ⟨turn, ⟨aligned.after body, ⟨?_, ?_, ?_⟩, fun p hp => ready.keeps p (by simp_all)⟩, ?_⟩
  · simpa [after, called, atEnd, seen_err] using ready.clean.err
  · simpa [after, called] using websocket
  · rw [← body] at lengths
    simpa [after, called] using lengths
  · refine ⟨here, rfl, rfl, rfl, seen_headersNum here, fun cell written => ?_, num⟩
    have agree := seen_agree (r := c.req) here written
    cases cell <;> exact agree

theorem Ready.receive (ready : Ready cfg c [] [] (ds ++ qs)) (ne : texts ds ++ extra ≠ [])
    (room : (texts ds ++ extra).length ≤ cfg.len) :
    Ready cfg (receive c (texts ds ++ extra)) ds extra qs := by
  have aligned : Aligned cfg c [] := ready.aligned
  have len : c.recvLen = 0 := aligned.len.trans (aligned.empty rfl)
  exact ⟨aligned.receive (by omega) ne, ready.clean, ready.keeps⟩

end Steps

/-- The loop goes on from a state, and serves the requests `all` from there. -/
def Serves (cfg : Config) (serve : Call → ℤ) (s : Conn × List Recv) (all : List Request) : Prop :=
  ∃ e c' new, Completes (connTurn cfg serve) (fun s => Counts s.1) s (e, c') ∧
    c'.calls = s.1.calls ++ new ∧ List.Forall₂ Sees (expected s.1.req.num all) new

section Whole

variable {cfg : Config} {serve : Call → ℤ} {c : Conn} {q : Request} {ds qs : List Request}
  {rs : List Recv}

theorem Ready.counts {extra : List UInt8} (ready : Ready cfg c ds extra qs) : Counts c :=
  .inl ready.aligned.nparsed

theorem Serves.of_step (ready : Ready cfg c (q :: ds) [] qs) (run : cfg.toStop = false)
    (keeps : ∀ call, call.req.num .connection = 1 → serve call = 0)
    (next : Serves cfg serve (after cfg (atEnd c q), rs) (ds ++ qs)) :
    Serves cfg serve (c, rs) (q :: ds ++ qs) := by
  obtain ⟨turn, -, sees⟩ := ready.step rs keeps
  obtain ⟨e, c', new, completes, calls, all⟩ := next
  have left : texts (q :: ds) ++ [] ≠ [] := by simp [text_ne]
  refine ⟨e, c', called (atEnd c q) :: new, ?_, ?_, .cons sees ?_⟩
  · exact completes.of_again ready.counts ((connTurn_left run ready.aligned left).trans turn)
  · simpa [after, atEnd] using calls
  · have num : (after cfg (atEnd c q)).req.num = fun x => q.numAfter x (c.req.num x) := by
      funext x
      simpa [after] using sees.numbers x
    rw [← num]
    exact all

/-- The requests in the buffer are served, and then those to come. -/
theorem Serves.of_buffer (run : cfg.toStop = false)
    (keeps : ∀ call, call.req.num .connection = 1 → serve call = 0)
    (rest : ∀ c, Ready cfg c [] [] qs → Serves cfg serve (c, rs) qs)
    (ready : Ready cfg c ds [] qs) : Serves cfg serve (c, rs) (ds ++ qs) := by
  induction ds generalizing c with
  | nil => exact rest c ready
  | cons q ds ih => exact .of_step ready run keeps (ih (ready.step rs keeps).2.1)

/-- When every `recv` brings whole requests, all of them are served. -/
theorem Serves.of_whole (whole : Whole qs rs) (run : cfg.toStop = false)
    (keeps : ∀ call, call.req.num .connection = 1 → serve call = 0)
    (fits : (texts qs).length ≤ cfg.len) (ready : Ready cfg c [] [] qs) :
    Serves cfg serve (c, rs) qs := by
  have idle : ∀ {c qs}, Ready cfg c [] [] qs → ¬ (0 < c.recvLen ∧ c.nparsed = 0) ∧ c.recvLen = 0 :=
    fun ready => ⟨ready.aligned.idle, ready.aligned.len.trans (ready.aligned.empty rfl)⟩
  induction whole generalizing c with
  | nil =>
    obtain ⟨idle, len⟩ := idle ready
    by_cases room : 0 < cfg.len - c.recvLen
    · exact ⟨_, c, [], .of_leave ready.counts (connTurn_wait run idle room), by simp, .nil⟩
    · exact ⟨_, c, [], .of_leave ready.counts (connTurn_full run idle (by omega)), by simp, .nil⟩
  | @again qs rs whole ih =>
    obtain ⟨idle, len⟩ := idle ready
    by_cases room : 0 < cfg.len - c.recvLen
    · obtain ⟨e, c', new, completes, rest⟩ := ih fits ready
      exact ⟨e, c', new, completes.of_again ready.counts (connTurn_again run idle room), rest⟩
    · -- a buffer without any room, and so no requests
      have none : qs = [] := by
        by_contra some
        have pos := List.length_pos_iff.mpr (texts_ne some)
        omega
      subst none
      exact ⟨_, c, [], .of_leave ready.counts (connTurn_full run idle (by omega)), by simp, .nil⟩
  | @data ds qs rs some whole ih =>
    obtain ⟨idle, len⟩ := idle ready
    rw [texts_append, List.length_append] at fits
    have ne : texts ds ≠ [] := texts_ne some
    have pos := List.length_pos_iff.mpr ne
    have bytes : texts ds ++ [] = texts ds := List.append_nil _
    have received : Ready cfg (receive c (texts ds)) ds [] qs := by
      rw [← bytes]
      exact ready.receive (by rwa [bytes]) (by rw [bytes]; omega)
    have served : Serves cfg serve (receive c (texts ds), rs) (ds ++ qs) :=
      .of_buffer run keeps (fun c ready => ih (by omega) ready) received
    obtain ⟨e, c', new, completes, rest⟩ := served
    -- the turn that receives goes on as the next one would
    have turn : connTurn cfg serve (c, .data (texts ds) :: rs) = _ :=
      connTurn_data run idle (by omega)
    rw [if_pos (by omega), ← connTurn_left run received.aligned (by rwa [bytes])] at turn
    exact ⟨e, c', new, completes.of_same ready.counts turn, rest⟩

end Whole

/-- A `recv` ends within the head of a request. -/
inductive Cut : List Request → List Recv → Prop
  | here {ds qs : List Request} {q : Request} {n : ℕ} {rs : List Recv} : 0 < n → n < q.head.length →
    Delivers rs (q.text.drop n ++ texts qs) →
    Cut (ds ++ q :: qs) (.data (texts ds ++ q.head.take n) :: rs)
  | data {ds qs : List Request} {rs : List Recv} : ds ≠ [] → Cut qs rs →
    Cut (ds ++ qs) (.data (texts ds) :: rs)
  | again {qs : List Request} {rs : List Recv} : Cut qs rs → Cut qs (.again :: rs)

/-- The loop goes on from a state with `nparsed` right wherever it comes, and there are `n` calls at
the end, each with the next request right after its head. -/
def Good (cfg : Config) (serve : Call → ℤ) (s : Conn × List Recv) (n : ℕ) : Prop :=
  ∃ e c', Completes (connTurn cfg serve) (fun s => Counts s.1) s (e, c') ∧ c'.calls.length = n ∧
    ∀ call ∈ c'.calls, call.req.restData = call.parseP + call.req.nread

/-- The first `n` bytes of a head have been parsed. -/
structure Midway (cfg : Config) (c : Conn) (n : ℕ) : Prop where
  pos : 0 < n
  nparsed : c.nparsed = n
  nread : c.req.nread = n
  stop : c.recvP = c.parseP + n
  start : 0 ≤ c.parseP
  len : c.recvLen = c.recvP
  fits : c.recvP ≤ cfg.len

section Cut

variable {cfg : Config} {serve : Call → ℤ} {c c' : Conn} {s s' : Conn × List Recv} {q : Request}
  {ds qs : List Request} {rs : List Recv} {extra chunk text : List UInt8} {n k : ℕ} {e : Exit}

theorem Good.next (good : Good cfg serve s n) (turn : connTurn cfg serve s = .again s') :
    Good cfg serve s' n := by
  obtain ⟨e, c', completes, rest⟩ := good
  exact ⟨e, c', completes.next turn, rest⟩

theorem Good.counts (good : Good cfg serve s n) : Counts s.1 := by
  obtain ⟨e, c', completes, -⟩ := good
  exact completes.inv s .start

theorem Good.leaves (good : Good cfg serve s n) (turn : connTurn cfg serve s = .leave (e, c)) :
    c.calls.length = n ∧ ∀ call ∈ c.calls, call.req.restData = call.parseP + call.req.nread := by
  obtain ⟨e', c', completes, rest⟩ := good
  cases (returns_leave turn).mp completes.returns
  exact rest

theorem Good.of_same (good : Good cfg serve s n) (counts : Counts s'.1)
    (same : connTurn cfg serve s' = connTurn cfg serve s) : Good cfg serve s' n := by
  obtain ⟨e, c', completes, rest⟩ := good
  exact ⟨e, c', completes.of_same counts same, rest⟩

theorem serveTurn_calls (c : Conn) (rs : List Recv) : (serveTurn cfg serve c rs).Meets
    (fun s => c.calls <+: s.1.calls) (fun t => c.calls <+: t.2.calls) := by
  rw [serveTurn_eq]
  split_ifs <;> simp [Turn.Meets, after]

theorem parseTurn_calls (c : Conn) (rs : List Recv) : (parseTurn cfg serve c rs).Meets
    (fun s => c.calls <+: s.1.calls) (fun t => c.calls <+: t.2.calls) := by
  simp only [parseTurn]
  split_ifs <;> first | exact List.prefix_refl _ | exact serveTurn_calls _ rs

theorem connTurn_calls (s : Conn × List Recv) : (connTurn cfg serve s).Meets
    (fun s' => s.1.calls <+: s'.1.calls) (fun t => s.1.calls <+: t.2.calls) := by
  obtain ⟨c, rs⟩ := s
  simp only [connTurn]
  split
  · exact List.prefix_refl _
  split
  · exact parseTurn_calls c rs
  split
  · exact List.prefix_refl _
  rcases rs with _ | ⟨chunk | _ | _ | _ | _, rs⟩
  case cons.data =>
    simp only
    split
    · exact parseTurn_calls (receive c chunk) rs
    · trivial
  all_goals exact List.prefix_refl _

theorem returns_calls (h : Returns (connTurn cfg serve) s (e, c')) : s.1.calls <+: c'.calls := by
  refine Returns.post (fun s' => s.1.calls <+: s'.1.calls) (fun t => s.1.calls <+: t.2.calls) h
    (List.prefix_refl _) (fun s₁ s₂ before turn => ?_) fun s₁ t before turn => ?_
  · have calls : (connTurn cfg serve s₁).Meets _ _ := connTurn_calls s₁
    rw [turn] at calls
    exact before.trans calls
  · have calls : (connTurn cfg serve s₁).Meets _ _ := connTurn_calls s₁
    rw [turn] at calls
    exact before.trans calls

/-- With a wrong `nparsed` the next request does not start after the head. -/
theorem serve_bad (wrong : c.nparsed ≠ c.req.nread) (few : c.calls.length < n)
    (turn : connTurn cfg serve s = serveTurn cfg serve c rs) : ¬ Good cfg serve s n := by
  have off : ¬ (called c).req.restData = (called c).parseP + (called c).req.nread := by
    simp only [called]
    omega
  intro good
  rw [serveTurn_eq] at turn
  split_ifs at turn
  · have calls := (good.leaves turn).1
    simp only at calls
    omega
  · exact off ((good.leaves turn).2 _ (by simp))
  · obtain ⟨e, c', completes, -, all⟩ := good.next turn
    have calls : (after cfg c).calls <+: c'.calls := returns_calls completes.returns
    exact off (all _ (calls.subset (by simp [after])))

/-- The second piece of a head: `nparsed` becomes larger than what has been parsed. -/
theorem resume_bad (mid : Midway cfg c k) (run : cfg.toStop = false)
    (room : chunk.length ≤ cfg.len - c.recvLen) (some : chunk ≠ []) (few : c.calls.length < n) :
    ¬ Good cfg serve (c, .data chunk :: rs) n := by
  intro good
  have small := len_lt cfg
  have pos := mid.pos
  have start := mid.start
  have stop := mid.stop
  have len := mid.len
  have fits := mid.fits
  have more : 0 < chunk.length := List.length_pos_iff.mpr some
  have idle : ¬ (0 < c.recvLen ∧ c.nparsed = 0) := by
    have nparsed := mid.nparsed
    omega
  have turn : connTurn cfg serve (c, .data chunk :: rs) = _ := connTurn_data run idle (by omega)
  rw [if_pos room] at turn
  have count : ((c.recvP + chunk.length - c.parseP) % 2 ^ 64).toNat = k + chunk.length := by omega
  have off : ((k : ℤ) % 2 ^ 64).toNat = k := by omega
  have split : ¬ (k : ℤ) = 0 := by omega
  simp only [parseTurn, receive, mid.nparsed, split, if_false, count, off] at turn
  obtain ⟨same, ge, le⟩ := parse_nread (write c.mem c.recvP chunk) c.parseP c.req
    (show k ≤ k + chunk.length by omega)
  generalize httpRequestParse c.req (write c.mem c.recvP chunk) c.parseP (k + chunk.length) k =
    parsed at turn same ge le
  obtain ⟨nread, req⟩ := parsed
  simp only at turn same ge le
  rw [mid.nread] at ge le
  rw [wrapInt64_of_lt (by omega) (by omega)] at turn
  split_ifs at turn with unfinished bad
  · have counts := (good.next turn).counts
    simp only [Counts] at counts
    omega
  · have calls := (good.leaves turn).1
    simp only at calls
    omega
  · refine serve_bad ?_ ?_ turn good
    · simp only
      omega
    · exact few

/-- After a first piece of a head there is no way on. -/
theorem midway_bad (delivers : Delivers rs text) (ne : text ≠ []) (mid : Midway cfg c k)
    (run : cfg.toStop = false) (few : c.calls.length < n) : ¬ Good cfg serve (c, rs) n := by
  have idle : ¬ (0 < c.recvLen ∧ c.nparsed = 0) := by
    have nparsed := mid.nparsed
    have pos := mid.pos
    omega
  intro good
  induction delivers with
  | nil => exact ne rfl
  | @again text rs delivers ih =>
    by_cases room : 0 < cfg.len - c.recvLen
    · exact ih ne (good.next (connTurn_again run idle room))
    · have calls := (good.leaves (connTurn_full run idle (by omega))).1
      omega
  | @data chunk text rs some delivers ih =>
    by_cases room : 0 < cfg.len - c.recvLen
    · by_cases fits : chunk.length ≤ cfg.len - c.recvLen
      · exact resume_bad mid run fits some few good
      · have turn : connTurn cfg serve (c, .data chunk :: rs) = _ := connTurn_data run idle room
        rw [if_neg fits] at turn
        obtain ⟨e, c', completes, -⟩ := good
        exact not_returns_undefined turn completes.returns
    · have calls := (good.leaves (connTurn_full run idle (by omega))).1
      omega

/-- The first piece of a head, with nothing before it in the buffer. -/
theorem half_bad (delivers : Delivers rs (q.text.drop k ++ texts qs)) (pos : 0 < k)
    (lt : k < q.head.length) (ready : Ready cfg c [] (q.head.take k) (q :: qs))
    (run : cfg.toStop = false) (few : c.calls.length < n) : ¬ Good cfg serve (c, rs) n := by
  have aligned : Aligned cfg c (q.head.take k) := ready.aligned
  have left : q.head.take k ≠ [] := by
    intro nil
    have zero := congrArg List.length nil
    rw [List.length_take, List.length_nil] at zero
    omega
  have turn : connTurn cfg serve (c, rs) = _ :=
    (connTurn_left run aligned left).trans (parseTurn_half aligned lt)
  rw [if_neg (by simp [ready.clean.err])] at turn
  have mid : Midway cfg (partway c q k) k :=
    ⟨pos, rfl, rfl, (aligned.length lt).1, aligned.start, aligned.len, aligned.fits⟩
  intro good
  refine midway_bad delivers ?_ mid run few (good.next turn)
  have more : k < q.text.length := by
    simp only [Request.text, List.length_append]
    omega
  simp
  omega

theorem Good.of_buffer (good : Good cfg serve (c, rs) n) (run : cfg.toStop = false)
    (keeps : ∀ call, call.req.num .connection = 1 → serve call = 0)
    (ready : Ready cfg c ds extra qs) :
    ∃ c', Good cfg serve (c', rs) n ∧ Ready cfg c' [] extra qs ∧
      c'.calls.length = c.calls.length + ds.length := by
  induction ds generalizing c with
  | nil => exact ⟨c, good, ready, rfl⟩
  | cons q ds ih =>
    obtain ⟨turn, ready', -⟩ := ready.step rs keeps
    have left : texts (q :: ds) ++ extra ≠ [] := by simp [text_ne]
    have next := good.next ((connTurn_left run ready.aligned left).trans turn)
    obtain ⟨c', good', ready', calls⟩ := ih next ready'
    refine ⟨c', good', ready', ?_⟩
    rw [calls]
    simp [after, atEnd]
    omega

/-- Bytes are received, which are looked at in the same turn. -/
theorem Good.of_receive (good : Good cfg serve (c, .data (texts ds ++ extra) :: rs) n)
    (run : cfg.toStop = false) (ready : Ready cfg c [] [] (ds ++ qs)) (ne : texts ds ++ extra ≠ [])
    (room : (texts ds ++ extra).length ≤ cfg.len) :
    Good cfg serve (receive c (texts ds ++ extra), rs) n := by
  have pos := List.length_pos_iff.mpr ne
  have aligned : Aligned cfg c [] := ready.aligned
  have len : c.recvLen = 0 := aligned.len.trans (aligned.empty rfl)
  have received := ready.receive ne room
  have turn : connTurn cfg serve (c, .data (texts ds ++ extra) :: rs) = _ :=
    connTurn_data run aligned.idle (by omega)
  rw [if_pos (by omega), ← connTurn_left run received.aligned ne] at turn
  exact good.of_same received.counts turn.symm

theorem Cut.some (cut : Cut qs rs) : qs ≠ [] := by
  induction cut with
  | here => simp
  | data some => simp [some]
  | again _ ih => exact ih

theorem cut_bad (cut : Cut qs rs) (run : cfg.toStop = false)
    (keeps : ∀ call, call.req.num .connection = 1 → serve call = 0)
    (fits : (texts qs).length ≤ cfg.len) (ready : Ready cfg c [] [] qs) :
    ¬ Good cfg serve (c, rs) (c.calls.length + qs.length) := by
  intro good
  induction cut generalizing c with
  | @here ds qs q k rs pos lt delivers =>
    have length : (q.head.take k).length = k := by
      rw [List.length_take]
      omega
    have ne : texts ds ++ q.head.take k ≠ [] := by
      intro nil
      have zero := congrArg List.length nil
      simp only [List.length_append, List.length_nil] at zero
      omega
    have room : (texts ds ++ q.head.take k).length ≤ cfg.len := by
      simp only [texts_append, texts_cons, Request.text, List.length_append] at fits
      rw [List.length_append]
      omega
    obtain ⟨c', good', ready', calls⟩ :=
      (good.of_receive run ready ne room).of_buffer run keeps (ready.receive ne room)
    refine half_bad delivers pos lt ready' run ?_ good'
    simp only [receive] at calls
    simp only [List.length_append, List.length_cons]
    omega
  | @data ds qs rs some cut ih =>
    have bytes : texts ds ++ [] = texts ds := List.append_nil _
    have ne : texts ds ++ [] ≠ [] := by
      rw [bytes]
      exact texts_ne some
    rw [texts_append, List.length_append] at fits
    have room : (texts ds ++ []).length ≤ cfg.len := by
      rw [bytes]
      omega
    rw [← bytes] at good
    obtain ⟨c', good', ready', calls⟩ :=
      (good.of_receive run ready ne room).of_buffer run keeps (ready.receive ne room)
    simp only [receive] at calls
    rw [List.length_append, ← Nat.add_assoc, ← calls] at good'
    exact ih (by omega) ready' good'
  | @again qs rs cut ih =>
    have pos := List.length_pos_iff.mpr (texts_ne cut.some)
    have aligned : Aligned cfg c [] := ready.aligned
    have len : c.recvLen = 0 := aligned.len.trans (aligned.empty rfl)
    exact ih fits ready (good.next (connTurn_again run aligned.idle (by omega)))

end Cut

/-- Where a `recv` ends: between two requests, or within a head. -/
theorem whole_or_cut {qs : List Request} {rs : List Recv} (delivers : Delivers rs (texts qs))
    (keeps : ∀ q ∈ qs, KeepsAlive q) : Whole qs rs ∨ Cut qs rs := by
  generalize ht : texts qs = text at delivers
  induction delivers generalizing qs with
  | nil =>
    cases qs with
    | nil => exact .inl .nil
    | cons q qs => exact absurd ht (texts_ne (by simp))
  | @data chunk text rs some delivers ih =>
    rcases texts_split ht with ⟨ds, qs', rfl, rfl, rfl⟩ | ⟨ds, q, qs', n, rfl, pos, lt, rfl, rfl⟩
    · have ne : ds ≠ [] := fun nil => some (by rw [nil]; rfl)
      exact (ih (fun q hq => keeps q (by simp [hq])) rfl).imp (.data ne) (.data ne)
    · -- the body is empty, and so this is within the head
      have text : q.text = q.head := by
        rw [Request.text, (keeps q (by simp)).body, List.append_nil]
      rw [text] at lt
      rw [show q.text.take n = q.head.take n by rw [text]]
      exact .inr (.here pos lt delivers)
  | again delivers ih => exact (ih keeps ht).imp .again .again

/-- A server whose commands succeed and whose responses are sent keeps keep-alive connections. -/
theorem httpServerMain_keeps {server : Server} (enabled : server.enableKeepalive = true)
    (cmd : ∀ call, ∃ proc, server.cmd call = some proc ∧ proc true = (0, true, false))
    (output : ∀ call, 0 < server.output call) (call : Call)
    (connection : call.req.num .connection = 1) : httpServerMain server call = 0 := by
  obtain ⟨proc, found, kept⟩ := cmd call
  have sent : ¬ server.output call ≤ 0 := by
    have := output call
    omega
  simp [httpServerMain, connection, enabled, found, kept, sent]

theorem cut_not_alike {cfg : Config} {serve : Call → ℤ} {mem : ℤ → UInt8} {r : HttpRequest}
    {qs : List Request} {rs : List Recv} (cut : Cut qs rs) (run : cfg.toStop = false)
    (keeps : ∀ call, call.req.num .connection = 1 → serve call = 0)
    (alive : ∀ q ∈ qs, KeepsAlive q) (clean : Clean r qs) (fits : (texts qs).length ≤ cfg.len) :
    ¬ ServesAlike cfg serve mem r qs rs := by
  have ready : Ready cfg (Conn.init mem r) [] [] qs := ⟨.init cfg mem r, clean, alive⟩
  rintro ⟨e, c, e₁, c₁, completes, -, calls, -⟩
  refine cut_bad cut run keeps fits ready ⟨e, c, completes, ?_, fun call hcall => ?_⟩
  · simp [Conn.init, calls.length_eq]
  · obtain ⟨i, lt, rfl⟩ := List.getElem_of_mem hcall
    exact (calls.get (by rw [calls.length_eq]; exact lt) lt).next

/-- The connection serves a stream of keep-alive requests as if it came in one `recv` exactly when
every `recv` brings whole requests. -/
theorem servesAlike_iff (cfg : Config) (run : cfg.toStop = false) (serve : Call → ℤ)
    (keeps : ∀ call, call.req.num .connection = 1 → serve call = 0) (mem : ℤ → UInt8)
    (r : HttpRequest) (qs : List Request) (alive : ∀ q ∈ qs, KeepsAlive q) (clean : Clean r qs)
    (fits : (texts qs).length ≤ cfg.len) (rs : List Recv) (delivers : Delivers rs (texts qs)) :
    ServesAlike cfg serve mem r qs rs ↔ Whole qs rs := by
  refine ⟨fun good => ?_, fun whole => ?_⟩
  · refine (whole_or_cut delivers alive).resolve_right fun cut => ?_
    exact cut_not_alike cut run keeps alive clean fits good
  · have ready : Ready cfg (Conn.init mem r) [] [] qs := ⟨.init cfg mem r, clean, alive⟩
    have one : Whole qs (oneRecv qs) := by
      by_cases none : qs = []
      · simpa [oneRecv, none] using Whole.nil
      · simpa [oneRecv, none] using Whole.data none Whole.nil
    obtain ⟨e, c, new, completes, calls, sees⟩ := Serves.of_whole whole run keeps fits ready
    obtain ⟨e₁, c₁, new₁, completes₁, calls₁, sees₁⟩ := Serves.of_whole one run keeps fits ready
    obtain rfl : c.calls = new := calls
    obtain rfl : c₁.calls = new₁ := calls₁
    exact ⟨e, c, e₁, c₁, completes, completes₁.returns, sees_for sees, sees_same sees sees₁⟩

/-- A server with one command, and a buffer of 128 bytes. -/
def server : Server where
  enableKeepalive := true
  enableClientClose := false
  cmd := fun _ => some fun keepalive => (0, keepalive, false)
  output := fun _ => 1

theorem server_keeps (call : Call) (connection : call.req.num .connection = 1) :
    httpServerMain server call = 0 :=
  httpServerMain_keeps rfl (fun _ => ⟨_, rfl, rfl⟩) (fun _ => one_pos) call connection

theorem packet_nonneg : (0 : ℤ) ≤ 64 := by decide

theorem packet_fits : 2 * (64 : ℤ) < 2 ^ 31 := by decide

def config : Config := ⟨64, false, packet_nonneg, packet_fits⟩

def getAliveText : List UInt8 := codes "GET / HTTP/1.1\r\nConnection: k\r\n\r\n"

theorem getAliveText_scan : (scan getAliveText 0 httpRequestStart 0).stop = .done ∧
    (scan getAliveText 0 httpRequestStart 0).pos = getAliveText.length ∧
    (scan getAliveText 0 httpRequestStart 0).state.nullable = true := by
  decide +kernel

def getAlive : Request where
  head := getAliveText
  body := []
  stop := getAliveText_scan.1
  pos := getAliveText_scan.2.1
  final := getAliveText_scan.2.2

theorem getAlive_num : (∀ prior, getAlive.numAfter .connection prior = 1) ∧
    (∀ prior, getAlive.numAfter .websocket prior = prior) ∧
    ∀ prior, getAlive.numAfter .contentLength prior = prior := by
  have computed : (textOrigin getAlive.head).src (.num .connection) = none ∧
      (textOrigin getAlive.head).src (.num .websocket) ≠ none ∧
      (textOrigin getAlive.head).src (.num .contentLength) ≠ none := by decide +kernel
  obtain ⟨connection, websocket, contentLength⟩ := computed
  have value : (getAlive.seen (textMem getAlive.head) 0 blank).num .connection = 1 := by
    decide +kernel
  refine ⟨fun prior => ?_, fun prior => ?_, fun prior => ?_⟩
  · rw [Request.numAfter, if_pos connection, value]
  · rw [Request.numAfter, if_neg websocket]
  · rw [Request.numAfter, if_neg contentLength]

theorem getAlive_texts : texts [getAlive] = getAliveText := by
  simp [Request.text, getAlive]

theorem getAlive_fits : (texts [getAlive, getAlive]).length ≤ config.len := by
  have length : getAliveText.length = 33 := by decide
  have text : getAlive.text = getAliveText := List.append_nil _
  simp [text, length, config, Config.len]

theorem getAlive_keepsAlive : KeepsAlive getAlive :=
  ⟨rfl, getAlive_num.1, getAlive_num.2.1 0⟩

theorem getAlive_clean : Clean blank [getAlive, getAlive] :=
  ⟨rfl, rfl, getAlive_num.2.2 0, getAlive_num.2.2 0, trivial⟩

theorem servesAlike_two : ServesAlike config (httpServerMain server) (fun _ => 0) blank
    [getAlive, getAlive] [.data getAliveText, .again, .data getAliveText] := by
  have alive : ∀ q ∈ [getAlive, getAlive], KeepsAlive q := by simp [getAlive_keepsAlive]
  have ne : getAliveText ≠ [] := by decide
  have whole : Whole ([getAlive] ++ ([getAlive] ++ []))
      [.data (texts [getAlive]), .again, .data (texts [getAlive])] :=
    .data (by simp) (.again (.data (by simp) .nil))
  have delivers : Delivers [.data getAliveText, .again, .data getAliveText]
      (texts [getAlive, getAlive]) := by
    have two : texts [getAlive, getAlive] = getAliveText ++ (getAliveText ++ []) := by
      simp [Request.text, getAlive]
    rw [two]
    exact .data ne (.again (.data ne .nil))
  rw [getAlive_texts] at whole
  exact (servesAlike_iff config rfl (httpServerMain server) server_keeps (fun _ => 0) blank
    [getAlive, getAlive] alive getAlive_clean getAlive_fits _ delivers).mpr whole

/-- The connection has been closed, after so many calls. -/
def closedAfter (calls : ℕ) : Outcome (Exit × Conn) → Bool
  | .returned (.returned ret, c) => decide (ret = -1 ∧ c.calls.length = calls)
  | _ => false

theorem closedAfter_returns {calls : ℕ} {r : Outcome (Exit × Conn)}
    (closed : closedAfter calls r = true) :
    ∃ c, r = .returned (.returned (-1), c) ∧ c.calls.length = calls := by
  unfold closedAfter at closed
  split at closed
  case h_1 ret c =>
    obtain ⟨rfl, same⟩ := of_decide_eq_true closed
    exact ⟨c, rfl, same⟩
  case h_2 => exact absurd closed (by simp)

/-- The first request comes in two pieces with the second one right behind it: the bytes of the
second one are skipped by as many as the first piece has, and the connection is closed after one
call. -/
theorem split_head_loses_request :
    ¬ ServesAlike config (httpServerMain server) (fun _ => 0) blank [getAlive, getAlive]
      [.data (getAliveText.take 5), .data (getAliveText.drop 5 ++ getAliveText)] ∧
    ∃ c, Returns (connTurn config (httpServerMain server)) (Conn.init (fun _ => 0) blank,
      [.data (getAliveText.take 5), .data (getAliveText.drop 5 ++ getAliveText)])
      (.returned (-1), c) ∧ c.calls.length = 1 := by
  constructor
  · have alive : ∀ q ∈ [getAlive, getAlive], KeepsAlive q := by simp [getAlive_keepsAlive]
    have rest : getAlive.text.drop 5 ++ texts [getAlive] =
        (getAliveText.drop 5 ++ getAliveText) ++ [] := by
      simp [Request.text, getAlive]
    have delivers : Delivers [.data (getAliveText.drop 5 ++ getAliveText)]
        (getAlive.text.drop 5 ++ texts [getAlive]) := by
      rw [rest]
      exact .data (by decide) .nil
    have length : 5 < getAlive.head.length := by decide
    have cut : Cut ([] ++ getAlive :: [getAlive])
        (.data (texts [] ++ getAlive.head.take 5) :: [.data (getAliveText.drop 5 ++ getAliveText)]) :=
      .here (by simp) length delivers
    rw [texts_nil, List.nil_append] at cut
    exact cut_not_alike cut rfl server_keeps alive getAlive_clean getAlive_fits
  · have computed : closedAfter 1 (run (connTurn config (httpServerMain server)) 3
        (Conn.init (fun _ => 0) blank,
          [.data (getAliveText.take 5), .data (getAliveText.drop 5 ++ getAliveText)])) = true := by
      decide +kernel
    obtain ⟨c, done, calls⟩ := closedAfter_returns computed
    exact ⟨c, ⟨3, done⟩, calls⟩

end Conet.Svrkit.HttpConnSplit
