/- Module: Conet/Svrkit/HttpOutput
   source: svrkit/src/http_server.cpp, svrkit/http_server.h, core/src/network_hook.cpp
   digest: The response of the http server, and what of it a single writev delivers. -/

import Conet.Base.Pbc
import Conet.Base.StringBuilder

set_option autoImplicit false
set_option relaxedAutoImplicit false

namespace Conet.Svrkit.HttpOutput

open Conet.Lib Conet.Base Conet.Base.StringBuilder
open Conet.Base.HttpParser (codes)
open Conet.Base.Pbc (toInt32)

/-- `http_response_t`; `data` holds the `data_len` bytes at `data`, unless that is `NULL`. -/
structure HttpResponse where
  httpCode : ℤ
  keepalive : ℤ
  headers : List (List UInt8)
  body : List UInt8
  data : Option (List UInt8)

def initHttpResponse : HttpResponse := ⟨200, 0, [], [], none⟩

def responseTo (resp : HttpResponse) (httpCode : ℤ) (body : List UInt8) : HttpResponse :=
  { resp with httpCode := httpCode, body := body }

def sHttp200OkKeepalive : List UInt8 := codes "HTTP/1.1 200\r\nConnection: keep-alive\r\n"
def sHttp200OkClose : List UInt8 := codes "HTTP/1.1 200\r\nConnection: close\r\n"
def sContentLenName : List UInt8 := codes "Content-Length: "
def sCrlf : List UInt8 := codes "\r\n"
def sCrlf2 : List UInt8 := codes "\r\n\r\n"

/-- The text of `%d`. -/
def intText (n : ℤ) : List UInt8 := if n < 0 then 45 :: decimal n.natAbs else decimal n.natAbs

def statusLine (resp : HttpResponse) : List UInt8 :=
  if resp.httpCode = 200 then if resp.keepalive ≠ 0 then sHttp200OkKeepalive else sHttp200OkClose
  else codes "HTTP/1.1 " ++ intText resp.httpCode ++ codes "\r\n"

/-- The `blen` bytes at `data`. -/
def payload (resp : HttpResponse) : List UInt8 := resp.data.getD resp.body

/-- The headers that the loop appends: their number is converted to `int`. -/
def sentHeaders (resp : HttpResponse) : List (List UInt8) :=
  resp.headers.take (toInt32 resp.headers.length).toNat

/-- `out`, built on a stack with the contents `mem`. -/
def outputHead (mem : ℤ → UInt8) (resp : HttpResponse) : StringBuilder 4096 :=
  let out := (StringBuilder.init mem).append (statusLine resp)
  let out := (sentHeaders resp).foldl (fun out h => (out.append h).append sCrlf) out
  let out := out.append sContentLenName
  let out := out.appendUint (payload resp).length
  out.append sCrlf2

/-- How a real `writev` ends: it takes as many bytes as there is room for, or it fails with `EAGAIN` or
otherwise. -/
inductive RealWritev
  | wrote (room : ℕ)
  | again
  | failed

def RealWritev.result (total : ℕ) : RealWritev → ℤ
  | .wrote room => min room total
  | .again => -1
  | .failed => -1

/-- What the hooked `writev` meets: whether it passes the call on, the first real `writev`, what
`co_poll` returns and reports, and the second real `writev`. -/
structure Wire where
  direct : Bool
  first : RealWritev
  poll : ℤ
  pollErr : Bool
  pollHup : Bool
  second : RealWritev

/-- `writev` of so many bytes. -/
def writev (w : Wire) (total : ℕ) : ℤ :=
  if w.direct then w.first.result total
  else
    match w.first with
    | .wrote room => min room total
    | .failed => -1
    | .again =>
      if w.poll ≤ 0 then -1
      else if w.pollErr then -1
      else if w.pollHup then 0
      else w.second.result total

/-- `output_response`: its result, and the bytes that the socket takes. -/
def outputResponse (mem : ℤ → UInt8) (resp : HttpResponse) (w : Wire) : ℤ × List UInt8 :=
  let all := (outputHead mem resp).data ++ payload resp
  let ret := writev w all.length
  (toInt32 ret, all.take ret.toNat)

/-- What of a server decides about a response: its options, and the command of the path, which makes
the response, returns a number and may ask to close the connection. -/
structure Server where
  enableKeepalive : Bool
  enableClientClose : Bool
  cmd : Option (HttpResponse → HttpResponse × ℤ × Bool)

/-- The response and `to_close` before the output. -/
def answer (server : Server) (keepalive : Bool) : HttpResponse × Bool :=
  let resp := { initHttpResponse with keepalive := if keepalive && server.enableKeepalive then 1 else 0 }
  match server.cmd with
  | none => (responseTo { resp with keepalive := 0 } 404 [], true)
  | some proc =>
    let (resp, ret, toClose) := proc resp
    (resp, toClose || ret ≠ 0)

/-- `http_server_main`, for a request with or without `keep-alive`: its result, and the bytes that the
socket takes. -/
def httpServerMain (server : Server) (keepalive : Bool) (mem : ℤ → UInt8) (w : Wire) : ℤ × List UInt8 :=
  let (resp, toClose) := answer server keepalive
  let (ret, accepted) := outputResponse mem resp w
  if ret ≤ 0 then (-1, accepted)
  else if !server.enableClientClose && (resp.keepalive = 0 || toClose) then (1, accepted)
  else (0, accepted)

/-! ### What is delivered -/

def message (resp : HttpResponse) : List UInt8 :=
  statusLine resp ++ (resp.headers.flatMap fun h => h ++ sCrlf) ++ sContentLenName ++
    decimal (payload resp).length ++ sCrlf2 ++ payload resp

/-- When the server reports success, the socket has taken the whole response and nothing else,
whatever was on the stack. -/
def Delivers (server : Server) (keepalive : Bool) (w : Wire) : Prop :=
  ∀ mem, 0 ≤ (httpServerMain server keepalive mem w).1 →
    (httpServerMain server keepalive mem w).2 = message (answer server keepalive).1

/-- The texts that are appended one after another. -/
def headParts (resp : HttpResponse) : List (List UInt8) :=
  statusLine resp :: ((sentHeaders resp).flatMap fun h => [h, sCrlf]) ++
    [sContentLenName, uintText (payload resp).length, sCrlf2]

/-- How many bytes of the builder that were never written are sent. -/
def stray (resp : HttpResponse) : ℕ := gap 4096 0 (headParts resp)

/-- The number of bytes that `writev` is given. -/
def handed (resp : HttpResponse) : ℕ := (headParts resp).flatten.length + stray resp + (payload resp).length

/-- A response that goes out as it is: the head fits in the builder, or the first text that does not
fit begins where the builder is full; the numbers fit in their types; and the socket takes all. -/
structure Sendable (resp : HttpResponse) (w : Wire) : Prop where
  headers : resp.headers.length < 2 ^ 31
  head : stray resp = 0
  size : (payload resp).length < 2 ^ 32
  room : writev w (message resp).length = (message resp).length

section Proofs

variable {resp : HttpResponse} {w : Wire} {server : Server} {keepalive : Bool}

theorem foldl_lines (hs : List (List UInt8)) (b : StringBuilder 4096) :
    (hs.flatMap fun h => [h, sCrlf]).foldl StringBuilder.append b =
      hs.foldl (fun out h => (out.append h).append sCrlf) b := by
  induction hs generalizing b with
  | nil => rfl
  | cons h hs ih =>
    rw [List.flatMap_cons, List.foldl_append, ih, List.foldl_cons, List.foldl_cons, List.foldl_cons,
      List.foldl_nil]

theorem outputHead_eq (mem : ℤ → UInt8) (resp : HttpResponse) :
    outputHead mem resp = (headParts resp).foldl StringBuilder.append (StringBuilder.init mem) := by
  rw [headParts, List.foldl_append, List.foldl_cons, List.foldl_cons, List.foldl_cons, List.foldl_nil,
    List.foldl_cons, foldl_lines, outputHead, appendUint]

theorem writev_bounds (w : Wire) (total : ℕ) : -1 ≤ writev w total ∧ writev w total ≤ total := by
  have real : ∀ r : RealWritev, -1 ≤ r.result total ∧ r.result total ≤ total := by
    intro r
    cases r with
    | wrote room => simp only [RealWritev.result]; omega
    | again => simp only [RealWritev.result]; omega
    | failed => simp only [RealWritev.result]; omega
  rw [writev]
  split
  · exact real _
  · cases w.first with
    | wrote room => simp only; omega
    | failed => simp only; omega
    | again =>
      simp only
      split_ifs
      · omega
      · omega
      · omega
      · exact real _

theorem flatten_lines (hs : List (List UInt8)) :
    (hs.flatMap fun h => [h, sCrlf]).flatten = hs.flatMap fun h => h ++ sCrlf := by
  induction hs with
  | nil => rfl
  | cons h hs ih =>
    rw [List.flatMap_cons, List.flatten_append, ih, List.flatMap_cons, List.flatten_cons,
      List.flatten_cons, List.flatten_nil, List.append_nil]

theorem flatten_headParts (resp : HttpResponse) : (headParts resp).flatten =
    statusLine resp ++ ((sentHeaders resp).flatMap fun h => h ++ sCrlf) ++ sContentLenName ++
      uintText (payload resp).length ++ sCrlf2 := by
  rw [headParts, List.flatten_append, List.flatten_cons, flatten_lines, List.flatten_cons, List.flatten_cons,
    List.flatten_cons, List.flatten_nil, List.append_nil, List.append_assoc _ _ sCrlf2,
    List.append_assoc _ sContentLenName]

theorem length_sentHeaders (resp : HttpResponse) :
    ((sentHeaders resp).flatMap fun h => h ++ sCrlf).length ≤
      (resp.headers.flatMap fun h => h ++ sCrlf).length ∧
    (((sentHeaders resp).flatMap fun h => h ++ sCrlf).length =
      (resp.headers.flatMap fun h => h ++ sCrlf).length → resp.headers.length < 2 ^ 31) := by
  set k := (toInt32 resp.headers.length).toNat with hk
  have split : resp.headers.flatMap (fun h => h ++ sCrlf) =
      (sentHeaders resp).flatMap (fun h => h ++ sCrlf) ++
        (resp.headers.drop k).flatMap fun h => h ++ sCrlf := by
    rw [sentHeaders, ← List.flatMap_append, List.take_append_drop]
  have total := congrArg List.length split
  rw [List.length_append] at total
  refine ⟨by omega, fun same => ?_⟩
  have none : resp.headers.drop k = [] := by
    cases rest : resp.headers.drop k with
    | nil => rfl
    | cons h hs =>
      rw [rest, List.flatMap_cons, List.length_append, List.length_append] at total
      have two : sCrlf.length = 2 := by decide
      omega
  have all := List.drop_eq_nil_iff.mp none
  have bound : toInt32 resp.headers.length < 2 ^ 31 := by
    rw [toInt32]
    omega
  omega

theorem length_message (resp : HttpResponse) :
    (headParts resp).flatten.length + (payload resp).length ≤ (message resp).length := by
  have lines := (length_sentHeaders resp).1
  have digits := uintText_length_le (payload resp).length
  rw [flatten_headParts, message]
  simp only [List.length_append]
  omega

/-- A response is sent as it is if what is built is as long. -/
theorem sized_of_length (resp : HttpResponse)
    (same : (headParts resp).flatten ++ payload resp = message resp) :
    resp.headers.length < 2 ^ 31 ∧ (payload resp).length < 2 ^ 32 := by
  obtain ⟨lines, few⟩ := length_sentHeaders resp
  have digits := uintText_length_le (payload resp).length
  have total := congrArg List.length same
  rw [flatten_headParts, message] at total
  simp only [List.length_append] at total
  have headers := few (by omega)
  have all : sentHeaders resp = resp.headers := by
    have exact : toInt32 resp.headers.length = resp.headers.length :=
      Pbc.toInt32_of_lt (by omega) (by omega)
    rw [sentHeaders, exact, Int.toNat_natCast, List.take_length]
  rw [flatten_headParts, message, all] at same
  have equal : uintText (payload resp).length = decimal (payload resp).length := by
    simpa using same
  exact ⟨headers, (uintText_eq_iff _).mp equal⟩

theorem message_of_sized (headers : resp.headers.length < 2 ^ 31) (size : (payload resp).length < 2 ^ 32) :
    (headParts resp).flatten ++ payload resp = message resp := by
  have exact : toInt32 resp.headers.length = resp.headers.length :=
    Pbc.toInt32_of_lt (by omega) (by omega)
  have all : sentHeaders resp = resp.headers := by
    rw [sentHeaders, exact, Int.toNat_natCast, List.take_length]
  rw [flatten_headParts, all, (uintText_eq_iff _).mpr size, message]

theorem output_text (resp : HttpResponse) : ∃ u v, (headParts resp).flatten = u ++ v ∧
    (∀ mem, (outputHead mem resp).data = u ++ slice mem u.length (stray resp) ++ v) ∧
    (stray resp ≠ 0 → u.length < (headParts resp).flatten.length) := by
  obtain ⟨u, v, split, text, far⟩ := foldl_append 4096 [] (headParts resp) (Nat.zero_le _)
  rw [List.length_nil, ← stray] at far
  rw [List.nil_append] at split far
  refine ⟨u, v, split, fun mem => ?_, fun ne => ?_⟩
  · have built := text _ mem (holds_init mem)
    rw [List.length_nil, ← stray, ← outputHead_eq] at built
    exact built
  · obtain ⟨full, large⟩ := far ne
    omega

theorem main_iff : Delivers server keepalive w ↔
    ∀ mem, 0 < (outputResponse mem (answer server keepalive).1 w).1 →
      (outputResponse mem (answer server keepalive).1 w).2 = message (answer server keepalive).1 := by
  apply forall_congr'
  intro mem
  simp only [httpServerMain]
  split_ifs with fails closes
  · exact iff_of_true (fun h => absurd h (by simp)) fun h => absurd h (by omega)
  · simp only [zero_le_one, true_imp_iff, not_le.mp fails]
  · simp only [le_refl, true_imp_iff, not_le.mp fails]

/-- The server delivers what it reports exactly if the response can be sent as it is, or `writev`
returns what is no success as an `int`. -/
theorem delivers_iff : Delivers server keepalive w ↔
    Sendable (answer server keepalive).1 w ∨
      toInt32 (writev w (handed (answer server keepalive).1)) ≤ 0 := by
  rw [main_iff]
  set resp := (answer server keepalive).1
  obtain ⟨u, v, split, text, far⟩ := output_text resp
  have count := congrArg List.length split
  rw [List.length_append] at count
  have total : ∀ mem, ((outputHead mem resp).data ++ payload resp).length = handed resp := by
    intro mem
    rw [text, handed]
    simp only [List.length_append, slice_length]
    omega
  simp only [outputResponse, total]
  by_cases fails : toInt32 (writev w (handed resp)) ≤ 0
  · exact iff_of_true (fun mem some => absurd some (by omega)) (.inr fails)
  rw [or_iff_left fails]
  obtain ⟨ge, le⟩ := writev_bounds w (handed resp)
  have positive : 0 < writev w (handed resp) := by
    rw [toInt32] at fails
    omega
  constructor
  · intro delivers
    have sent : ∀ mem, ((outputHead mem resp).data ++ payload resp).take
        (writev w (handed resp)).toNat = message resp := fun mem => delivers mem (by omega)
    have length : (writev w (handed resp)).toNat = (message resp).length := by
      have taken := congrArg List.length (sent fun _ => 0)
      rw [List.length_take, total] at taken
      omega
    have long := length_message resp
    have head : stray resp = 0 := by
      by_contra ne
      have inside := far ne
      -- the first byte that was never written is sent, whatever it is
      have byte : ∀ mem : ℤ → UInt8, (message resp)[u.length]? = some (mem u.length) := by
        intro mem
        rw [← sent mem, List.getElem?_take_of_lt (by omega), text, List.append_assoc, List.append_assoc,
          List.getElem?_append_right le_rfl, Nat.sub_self]
        obtain ⟨k, hk⟩ : ∃ k, stray resp = 1 + k := ⟨stray resp - 1, by omega⟩
        rw [hk, slice_add]
        simp [slice]
      have same := (byte fun _ => 0).symm.trans (byte fun _ => 1)
      exact absurd (Option.some.inj same) (by decide)
    have whole : (headParts resp).flatten ++ payload resp = message resp := by
      have all := sent fun _ => 0
      have given : handed resp = (headParts resp).flatten.length + (payload resp).length := by
        rw [handed, head, Nat.add_zero]
      rw [text, head, slice_zero, List.append_nil, ← split, List.take_of_length_le] at all
      · exact all
      · rw [List.length_append]
        omega
    obtain ⟨headers, size⟩ := sized_of_length resp whole
    have exact : handed resp = (message resp).length := by
      rw [← whole, handed, head, List.length_append]
      omega
    refine ⟨headers, head, size, ?_⟩
    rw [exact] at length fails
    omega
  · rintro ⟨headers, head, size, room⟩ mem -
    have whole := message_of_sized headers size
    have exact : handed resp = (message resp).length := by
      rw [← whole, handed, head, List.length_append]
      omega
    rw [text, head, slice_zero, List.append_nil, ← split, whole, exact, room, Int.toNat_natCast,
      List.take_length]

end Proofs

/-- A server that answers every request with an empty body and keeps the connection. -/
def emptyServer : Server := ⟨true, false, some fun resp => (resp, 0, false)⟩

/-- A `writev` that takes one byte only is reported as success. -/
theorem short_write_reported : ¬ ∀ (server : Server) (keepalive : Bool) (w : Wire),
    Delivers server keepalive w := by
  intro claim
  have delivered := claim emptyServer true ⟨true, .wrote 1, 0, false, false, .failed⟩ (fun _ => 0)
    (by decide)
  exact absurd (congrArg List.length delivered) (by decide)

end Conet.Svrkit.HttpOutput
