/- Module: Conet/Svrkit/HttpConnBody
   source: svrkit/src/http_server.cpp, base/src/http_parser.rl
   digest: Whether the body of a request is there when http_server_main is called for it. -/

import Conet.Svrkit.HttpConnRun

set_option autoImplicit false
set_option relaxedAutoImplicit false

namespace Conet.Svrkit.HttpConnBody

open Conet.Lib Conet.Lib.Loop Conet.Base.HttpParser Conet.Base.HttpTrace Conet.Base.HttpOrigin
open Conet.Svrkit.HttpConn Conet.Svrkit.HttpConnRun

/-- All of the body has been received when `http_server_main` is called for a request. -/
structure HasBody (q : Request) (call : Call) : Prop where
  length : call.req.num .contentLength = q.body.length
  received : call.req.ptr .body + q.body.length ≤ call.recvP
  bytes : slice call.mem (call.req.ptr .body) q.body.length = q.body

/-- The bytes that `recv` will still bring. -/
def coming : List Recv → List UInt8
  | [] => []
  | .data chunk :: rs => chunk ++ coming rs
  | _ :: rs => coming rs

/-- What is parsed next: the bytes from `parse_p` on, in the buffer and still to come. -/
def ahead (s : Conn × List Recv) : List UInt8 :=
  slice s.1.mem s.1.parseP (s.1.recvP - s.1.parseP).toNat ++ coming s.2

/-- The calls so far are for the first requests and had their bodies; between two requests what is
parsed next are the other requests, and so no byte of a body. -/
def Bodies (all : List Request) (s : Conn × List Recv) : Prop :=
  ∃ ds qs, all = ds ++ qs ∧ List.Forall₂ HasBody ds s.1.calls ∧
    (s.1.nparsed = 0 → ahead s = texts qs)

/-- The calls up to the end of the loop had their bodies. -/
def Served (all : List Request) (t : Exit × Conn) : Prop :=
  ∃ ds qs, all = ds ++ qs ∧ List.Forall₂ HasBody ds t.2.calls

/-- In every state that the connection reaches, and when it ends, no body is cut. -/
def KeepsBodies (cfg : Config) (serve : Call → ℤ) (mem : ℤ → UInt8) (r : HttpRequest)
    (qs : List Request) (rs : List Recv) : Prop :=
  Keeps (connTurn cfg serve) (Bodies qs) (Served qs) (Conn.init mem r, rs)

/-- Every `recv` ends at the end of a request, or within a head whose rest comes with the next one,
together with the body and no more. -/
inductive Fitting : List Request → List Recv → Prop
  | nil : Fitting [] []
  | again {qs : List Request} {rs : List Recv} : Fitting qs rs → Fitting qs (.again :: rs)
  | whole {ds qs : List Request} {rs : List Recv} : ds ≠ [] → Fitting qs rs →
    Fitting (ds ++ qs) (.data (texts ds) :: rs)
  | split {ds qs : List Request} {q : Request} {n k : ℕ} {rs : List Recv} : 0 < n →
    n < q.head.length → Fitting qs rs →
    Fitting (ds ++ q :: qs) (.data (texts ds ++ q.head.take n) ::
      (List.replicate k .again ++ .data (q.head.drop n ++ q.body) :: rs))

/-- Some of the requests are in the buffer, with the bytes `extra` behind them, and the others are
still to come. -/
structure Level (cfg : Config) (all : List Request) (c : Conn) (ds : List Request)
    (extra : List UInt8) (qs : List Request) : Prop where
  aligned : Aligned cfg c (texts ds ++ extra)
  lengths : Lengths (c.req.num .contentLength) (ds ++ qs)
  calls : ∃ before, all = before ++ (ds ++ qs) ∧ List.Forall₂ HasBody before c.calls

section Turns

variable {cfg : Config} {serve : Call → ℤ} {all : List Request} {c : Conn} {q : Request}
  {before ds qs : List Request} {extra : List UInt8} {rs : List Recv} {n k : ℕ}

theorem coming_again (k : ℕ) (rs : List Recv) :
    coming (List.replicate k .again ++ rs) = coming rs := by
  induction k with
  | zero => rfl
  | succ k ih => exact ih

theorem coming_split (rest : coming rs = texts qs) (n k : ℕ) :
    q.head.take n ++ coming (List.replicate k .again ++ .data (q.head.drop n ++ q.body) :: rs) =
      texts (q :: qs) := by
  rw [coming_again, coming, rest, texts_cons, Request.text]
  simp only [List.append_assoc]
  rw [← List.append_assoc (q.head.take n), List.take_append_drop]

theorem Fitting.coming (fitting : Fitting qs rs) : coming rs = texts qs := by
  induction fitting with
  | nil => rfl
  | again _ ih => exact ih
  | whole _ _ ih =>
    rw [HttpConnBody.coming, ih, texts_append]
  | @split ds qs q n k rs _ _ _ ih =>
    rw [HttpConnBody.coming, List.append_assoc, coming_split ih, texts_append]

theorem Level.bodies (level : Level cfg all c ds extra qs) (rest : extra ++ coming rs = texts qs) :
    Bodies all (c, rs) := by
  obtain ⟨before, split, calls⟩ := level.calls
  refine ⟨before, ds ++ qs, split, calls, fun _ => ?_⟩
  have bytes := level.aligned.bytes
  have count : (c.recvP - c.parseP).toNat = (texts ds ++ extra).length := by
    have := level.aligned.stop
    omega
  rw [ahead, count, bytes, List.append_assoc, rest, texts_append]

theorem Level.served (level : Level cfg all c ds extra qs) (e : Exit) : Served all (e, c) := by
  obtain ⟨before, split, calls⟩ := level.calls
  exact ⟨before, ds ++ qs, split, calls⟩

theorem serve_meets {next : Conn × List Recv → Prop} (split : all = before ++ q :: qs)
    (calls : List.Forall₂ HasBody before c.calls) (body : HasBody q (called c))
    (later : next (after cfg c, rs)) : (serveTurn cfg serve c rs).Meets next (Served all) := by
  rw [serveTurn_eq]
  split_ifs
  · exact ⟨before, q :: qs, split, calls⟩
  · refine ⟨before ++ [q], qs, by simp [split], ?_⟩
    exact List.rel_append calls (.cons body .nil)
  · exact later

theorem Level.receive (level : Level cfg all c [] [] (ds ++ qs)) (ne : texts ds ++ extra ≠ [])
    (room : (texts ds ++ extra).length ≤ cfg.len) :
    Level cfg all (receive c (texts ds ++ extra)) ds extra qs := by
  have aligned : Aligned cfg c [] := level.aligned
  have len : c.recvLen = 0 := aligned.len.trans (aligned.empty rfl)
  exact ⟨aligned.receive (by omega) ne, level.lengths, level.calls⟩

theorem body_here {mem : ℤ → UInt8} {b : ℤ}
    (bytes : slice mem b (q.text ++ extra).length = q.text ++ extra) :
    slice mem b q.head.length = q.head ∧ slice mem (b + q.head.length) q.body.length = q.body := by
  have parts : q.text ++ extra = q.head ++ (q.body ++ extra) := List.append_assoc ..
  rw [parts, List.length_append, List.length_append, slice_add, slice_add] at bytes
  obtain ⟨head, rest⟩ := List.append_inj bytes (by simp)
  exact ⟨head, (List.append_inj rest (by simp)).1⟩

/-- The body of a request that is in the buffer as a whole. -/
theorem atEnd_body (aligned : Aligned cfg c (q.text ++ extra))
    (length : q.numAfter .contentLength (c.req.num .contentLength) = q.body.length) :
    HasBody q (called (atEnd c q)) := by
  obtain ⟨head, body⟩ := body_here aligned.bytes
  have ptr : (called (atEnd c q)).req.ptr .body = c.parseP + q.head.length := seen_body
  have stop := aligned.stop
  simp only [Request.text, List.length_append] at stop
  refine ⟨(seen_num head .contentLength).trans length, ?_, ?_⟩
  · rw [ptr]
    show c.parseP + q.head.length + q.body.length ≤ c.recvP
    omega
  · rw [ptr]
    exact body

theorem Level.step {next : Conn × List Recv → Prop} (level : Level cfg all c (q :: ds) extra qs)
    (later : Level cfg all (after cfg (atEnd c q)) ds extra qs → next (after cfg (atEnd c q), rs)) :
    (parseTurn cfg serve c rs).Meets next (Served all) := by
  obtain ⟨before, split, calls⟩ := level.calls
  have text : texts (q :: ds) ++ extra = q.text ++ (texts ds ++ extra) := by
    rw [texts_cons, List.append_assoc]
  have aligned : Aligned cfg c (q.text ++ (texts ds ++ extra)) := text ▸ level.aligned
  have head : q.text ++ (texts ds ++ extra) = q.head ++ (q.body ++ (texts ds ++ extra)) :=
    List.append_assoc ..
  obtain ⟨length, lengths⟩ := level.lengths
  have body := atEnd_body aligned length
  have here : (atEnd c q).req.num .contentLength = q.body.length := body.length
  rw [parseTurn_whole (head ▸ aligned)]
  split_ifs
  · exact ⟨before, q :: ds ++ qs, split, calls⟩
  · refine serve_meets split calls body (later ⟨aligned.after here, ?_, before ++ [q], ?_, ?_⟩)
    · rw [← here] at lengths
      simpa [after, called] using lengths
    · simp [split]
    · have all' := List.rel_append calls (.cons body .nil)
      simpa [after, atEnd] using all'

theorem keeps_buffer (run : cfg.toStop = false) (rest : extra ++ coming rs = texts qs)
    (later : ∀ c, Level cfg all c [] extra qs →
      Keeps (connTurn cfg serve) (Bodies all) (Served all) (c, rs))
    (level : Level cfg all c ds extra qs) :
    Keeps (connTurn cfg serve) (Bodies all) (Served all) (c, rs) := by
  induction ds generalizing c with
  | nil => exact later c level
  | cons q ds ih =>
    have left : texts (q :: ds) ++ extra ≠ [] := by simp [text_ne]
    refine .of_turn (level.bodies rest) ?_
    rw [connTurn_left run level.aligned left]
    exact level.step ih

/-- Bytes are received, which are looked at in the same turn. -/
theorem keeps_receive (run : cfg.toStop = false) (level : Level cfg all c [] [] (ds ++ qs))
    (ne : texts ds ++ extra ≠ []) (rest : extra ++ coming rs = texts qs)
    (later : Level cfg all (receive c (texts ds ++ extra)) ds extra qs →
      Keeps (connTurn cfg serve) (Bodies all) (Served all) (receive c (texts ds ++ extra), rs)) :
    Keeps (connTurn cfg serve) (Bodies all) (Served all)
      (c, .data (texts ds ++ extra) :: rs) := by
  have aligned : Aligned cfg c [] := level.aligned
  have len : c.recvLen = 0 := aligned.len.trans (aligned.empty rfl)
  have coming : coming (.data (texts ds ++ extra) :: rs) = texts (ds ++ qs) := by
    rw [HttpConnBody.coming, List.append_assoc, rest, texts_append]
  refine .of_turn (level.bodies coming) ?_
  by_cases room : 0 < cfg.len - c.recvLen
  · rw [connTurn_data run aligned.idle room]
    split
    case isTrue fits =>
      have received := level.receive ne (by omega)
      rw [← connTurn_left run received.aligned ne]
      exact (later received).turn
    case isFalse => trivial
  · rw [connTurn_full run aligned.idle (by omega)]
    exact level.served _

/-- The rest of a head with the body and no more: `parse_p` is moved beyond what was received, and
the buffer starts afresh. -/
theorem advance_past (past : c.recvP ≤ c.parseP + wrapInt64 (c.nparsed + c.req.num .contentLength)) :
    Aligned cfg (advance cfg c) [] := by
  simp only [advance]
  rw [if_pos (by omega)]
  exact ⟨rfl, le_rfl, rfl, rfl, len_nonneg cfg, rfl, fun _ => rfl⟩

/-- The body of a request whose head has come in two pieces, the second one with the body. -/
theorem pastEnd_body (aligned : Aligned cfg c (q.head.take n)) (lt : n < q.head.length)
    (length : q.numAfter .contentLength (c.req.num .contentLength) = q.body.length) :
    HasBody q (called (pastEnd c q n q.body)) := by
  have bytes := rest_here aligned lt q.body
  have text : q.head ++ q.body = q.text ++ [] := (List.append_nil _).symm
  rw [text] at bytes
  obtain ⟨head, body⟩ := body_here bytes
  have stop := (aligned.length lt).1
  have more := rest_length lt q.body
  have ptr : (called (pastEnd c q n q.body)).req.ptr .body = c.parseP + q.head.length := seen_body
  refine ⟨(seen_num head .contentLength).trans length, ?_, ?_⟩
  · rw [ptr]
    show c.parseP + q.head.length + q.body.length ≤ c.recvP + (q.head.drop n ++ q.body).length
    rw [List.length_append] at more
    omega
  · rw [ptr]
    exact body

theorem keeps_rest (run : cfg.toStop = false) (pos : 0 < n) (lt : n < q.head.length)
    (level : Level cfg all c [] (q.head.take n) (q :: qs))
    (later : ∀ c, Level cfg all c [] [] qs →
      Keeps (connTurn cfg serve) (Bodies all) (Served all) (c, rs)) :
    Keeps (connTurn cfg serve) (Bodies all) (Served all)
      (partway c q n, .data (q.head.drop n ++ q.body) :: rs) := by
  obtain ⟨before, split, calls⟩ := level.calls
  obtain ⟨length, lengths⟩ := level.lengths
  have aligned : Aligned cfg c (q.head.take n) := level.aligned
  have small := len_lt cfg
  have start := aligned.start
  obtain ⟨stop, bytes⟩ := aligned.length lt
  have nparsed : (partway c q n).nparsed = n := rfl
  have idle : ¬ (0 < (partway c q n).recvLen ∧ (partway c q n).nparsed = 0) := by omega
  have recvLen : (partway c q n).recvLen = c.recvP := aligned.len
  have bodies : Bodies all (partway c q n, .data (q.head.drop n ++ q.body) :: rs) :=
    ⟨before, q :: qs, split, calls, fun zero => by simp only at zero; omega⟩
  refine .of_turn bodies ?_
  by_cases room : 0 < cfg.len - (partway c q n).recvLen
  · rw [connTurn_data run idle room]
    split
    case isFalse => trivial
    case isTrue fits =>
      rw [parseTurn_rest aligned pos lt (by omega)]
      split_ifs
      · exact ⟨before, q :: qs, split, calls⟩
      · have body := pastEnd_body aligned lt length
        have here : (pastEnd c q n q.body).req.num .contentLength = q.body.length := body.length
        refine serve_meets split calls body (later _ ⟨?_, ?_, before ++ [q], ?_, ?_⟩)
        · have more := rest_length lt q.body
          have parts : (q.head ++ q.body).length = q.head.length + q.body.length :=
            List.length_append
          apply advance_past
          show c.recvP + (q.head.drop n ++ q.body).length ≤
            c.parseP + wrapInt64 (n + q.head.length + (pastEnd c q n q.body).req.num .contentLength)
          rw [here, wrapInt64_of_lt (by omega) (by omega)]
          omega
        · rw [← here] at lengths
          simpa [after, called] using lengths
        · simp [split]
        · have all' := List.rel_append calls (.cons body .nil)
          simpa [after, pastEnd, HttpConn.receive] using all'
  · rw [connTurn_full run idle (by omega)]
    exact ⟨before, q :: qs, split, calls⟩

theorem keeps_partway (run : cfg.toStop = false) (pos : 0 < n) (lt : n < q.head.length)
    (level : Level cfg all c [] (q.head.take n) (q :: qs)) (k : ℕ)
    (later : ∀ c, Level cfg all c [] [] qs →
      Keeps (connTurn cfg serve) (Bodies all) (Served all) (c, rs)) :
    Keeps (connTurn cfg serve) (Bodies all) (Served all) (partway c q n,
      List.replicate k .again ++ .data (q.head.drop n ++ q.body) :: rs) := by
  obtain ⟨before, split, calls⟩ := level.calls
  have idle : ¬ (0 < (partway c q n).recvLen ∧ (partway c q n).nparsed = 0) := by
    have nparsed : (partway c q n).nparsed = n := rfl
    omega
  induction k with
  | zero => exact keeps_rest run pos lt level later
  | succ k ih =>
    refine .of_turn ⟨before, q :: qs, split, calls, fun zero => ?_⟩ ?_
    · have nparsed : (n : ℤ) = 0 := zero
      omega
    · rw [List.replicate_succ, List.cons_append]
      by_cases room : 0 < cfg.len - (partway c q n).recvLen
      · rw [connTurn_again run idle room]
        exact ih
      · rw [connTurn_full run idle (by omega)]
        exact ⟨before, q :: qs, split, calls⟩

theorem keeps_split (run : cfg.toStop = false) (pos : 0 < n) (lt : n < q.head.length) (k : ℕ)
    (fitting : Fitting qs rs) (level : Level cfg all c [] (q.head.take n) (q :: qs))
    (later : ∀ c, Level cfg all c [] [] qs →
      Keeps (connTurn cfg serve) (Bodies all) (Served all) (c, rs)) :
    Keeps (connTurn cfg serve) (Bodies all) (Served all)
      (c, List.replicate k .again ++ .data (q.head.drop n ++ q.body) :: rs) := by
  have aligned : Aligned cfg c (q.head.take n) := level.aligned
  have left : q.head.take n ≠ [] := by
    intro nil
    have zero := congrArg List.length nil
    rw [List.length_take, List.length_nil] at zero
    omega
  obtain ⟨before, split, calls⟩ := level.calls
  refine .of_turn (level.bodies (coming_split fitting.coming n k)) ?_
  rw [connTurn_left run aligned left, parseTurn_half aligned lt]
  split_ifs
  · exact ⟨before, q :: qs, split, calls⟩
  · exact keeps_partway run pos lt level k later

theorem Fitting.keeps (fitting : Fitting qs rs) (run : cfg.toStop = false)
    (level : Level cfg all c [] [] qs) :
    Keeps (connTurn cfg serve) (Bodies all) (Served all) (c, rs) := by
  induction fitting generalizing c with
  | nil =>
    have aligned : Aligned cfg c [] := level.aligned
    refine .of_turn (level.bodies rfl) ?_
    by_cases room : 0 < cfg.len - c.recvLen
    · rw [connTurn_wait run aligned.idle room]
      exact level.served _
    · rw [connTurn_full run aligned.idle (by omega)]
      exact level.served _
  | again fitting ih =>
    have aligned : Aligned cfg c [] := level.aligned
    refine .of_turn (level.bodies fitting.coming) ?_
    by_cases room : 0 < cfg.len - c.recvLen
    · rw [connTurn_again run aligned.idle room]
      exact ih level
    · rw [connTurn_full run aligned.idle (by omega)]
      exact level.served _
  | @whole ds qs rs some fitting ih =>
    have bytes : texts ds ++ [] = texts ds := List.append_nil _
    have ne : texts ds ++ [] ≠ [] := by
      rw [bytes]
      exact texts_ne some
    rw [← bytes]
    refine keeps_receive run level ne fitting.coming fun received => ?_
    exact keeps_buffer run fitting.coming (fun c level => ih level) received
  | @split ds qs q n k rs pos lt fitting ih =>
    have ne : texts ds ++ q.head.take n ≠ [] := by
      intro nil
      have zero := congrArg List.length nil
      simp only [List.length_append, List.length_take, List.length_nil] at zero
      omega
    have rest := coming_split (q := q) fitting.coming n k
    refine keeps_receive run level ne rest fun received => ?_
    exact keeps_buffer run rest
      (fun c level => keeps_split run pos lt k fitting level fun c level => ih level) received

end Turns

/-- When every `recv` ends at the end of a request, or within a head whose rest comes with the
next one together with the body and no more, every call has its body and no byte of a body is
parsed. -/
theorem keepsBodies_of_fitting (cfg : Config) (serve : Call → ℤ) (mem : ℤ → UInt8)
    (r : HttpRequest) (qs : List Request) (lengths : Lengths (r.num .contentLength) qs)
    (rs : List Recv) (fitting : Fitting qs rs) : KeepsBodies cfg serve mem r qs rs := by
  have level : Level cfg qs (Conn.init mem r) [] [] qs := ⟨.init cfg mem r, lengths, [], rfl, .nil⟩
  cases run : cfg.toStop with
  | false => exact fitting.keeps run level
  | true =>
    refine .of_turn (level.bodies fitting.coming) ?_
    have stop : connTurn cfg serve (Conn.init mem r, rs) = .leave (.returned 0, Conn.init mem r) := by
      simp [connTurn, run]
    rw [stop]
    exact level.served _

def postText : List UInt8 := codes "POST / HTTP/1.1\r\nContent-Length: 3\r\n\r\n"

theorem postText_scan : (scan postText 0 httpRequestStart 0).stop = .done ∧
    (scan postText 0 httpRequestStart 0).pos = postText.length ∧
    (scan postText 0 httpRequestStart 0).state.nullable = true := by
  decide +kernel

def post : Request where
  head := postText
  body := codes "abc"
  stop := postText_scan.1
  pos := postText_scan.2.1
  final := postText_scan.2.2

theorem post_lengths : Lengths (blank.num .contentLength) [post] :=
  ⟨by decide +kernel, trivial⟩

def config : Config := ⟨64, false, by decide, by decide⟩

theorem keepsBodies_two_pieces : KeepsBodies config (fun _ => 0) (fun _ => 0) blank [post]
    [.data (postText.take 5), .again, .data (postText.drop 5 ++ codes "abc")] := by
  have lt : 5 < post.head.length := by
    have length : postText.length = 38 := by decide
    show 5 < postText.length
    omega
  have fitting : Fitting ([] ++ post :: []) (.data (texts [] ++ post.head.take 5) ::
      (List.replicate 1 .again ++ .data (post.head.drop 5 ++ post.body) :: [])) :=
    .split (by simp) lt .nil
  exact keepsBodies_of_fitting config _ _ blank [post] post_lengths _ fitting

/-- A `recv` ends after the first byte of the body: the handler is called with that byte only, and
the two others are parsed as the next request. -/
theorem cut_body_called :
    ¬ KeepsBodies config (fun _ => 0) (fun _ => 0) blank [post]
      [.data (postText ++ codes "a"), .data (codes "bc")] ∧
    ∃ c, Returns (connTurn config fun _ => 0) (Conn.init (fun _ => 0) blank,
        [.data (postText ++ codes "a"), .data (codes "bc")]) (.returned (-1), c) ∧
      c.calls.map (fun call => (call.req.ptr .body, call.recvP)) = [(38, 39)] := by
  have computed : (match run (connTurn config fun _ => 0) 3 (Conn.init (fun _ => 0) blank,
      [.data (postText ++ codes "a"), .data (codes "bc")]) with
    | .returned (.returned ret, c) => decide (ret = -1 ∧
        c.calls.map (fun call => (call.req.ptr .body, call.recvP)) = [(38, 39)])
    | _ => false) = true := by decide +kernel
  split at computed
  case h_2 => exact absurd computed (by simp)
  case h_1 ret c done =>
    obtain ⟨rfl, calls⟩ := of_decide_eq_true computed
    refine ⟨fun keeps => ?_, c, ⟨3, done⟩, calls⟩
    obtain ⟨ds, qs, split, served⟩ := keeps.post _ ⟨3, done⟩
    have one : c.calls.length = 1 := by simpa using congrArg List.length calls
    obtain ⟨call, only⟩ := List.length_eq_one_iff.mp one
    rw [only] at calls
    have served : List.Forall₂ HasBody ds [call] := only ▸ served
    cases served with
    | @cons q _ _ _ body rest =>
      obtain rfl : q = post := (List.cons.inj split).1.symm
      have received := body.received
      obtain ⟨ptr, recv⟩ := Prod.mk.inj (List.cons.inj calls).1
      have three : post.body.length = 3 := by decide
      rw [ptr, recv] at received
      omega

end Conet.Svrkit.HttpConnBody
