/- Module: Conet/Base/HttpParser
   source: base/src/http_parser.rl, base/http_parser.h, base/ref_str.h
   digest: The http head parser: its grammar, its actions and the record they fill in. -/

import Conet.Lib.Bytes
import Conet.Lib.Ragel

set_option autoImplicit false
set_option relaxedAutoImplicit false

namespace Conet.Base.HttpParser

open Conet.Lib Conet.Lib.Ragel Conet.Lib.Ragel.Machine

inductive Action
  | mark
  | startField
  | writeField
  | startValue
  | writeValue
  | httpAccept
  | httpConnection
  | httpContentLength
  | httpContentType
  | statusCode
  | reasonPhrase
  | upgrade
  | secWebsocketKey
  | secWebsocketVersion
  | fragment
  | httpVersion10
  | httpVersion11
  | requestPath
  | requestMethodGet
  | requestMethodPost
  | requestUri
  | requestHost
  | startQuery
  | queryString
  | httpRequestType
  | httpResponseType
  | done
  deriving DecidableEq

section Grammar

def codes (s : String) : List UInt8 := s.toList.map fun c => UInt8.ofNat c.toNat

def chars (s : String) : ByteClass := (codes s).map fun c => (c, c)

abbrev Expr := Machine Action

def crlf : Expr := lit [13, 10]

def alpha : ByteClass := [(65, 90), (97, 122)]

def digit : ByteClass := [(48, 57)]

def xdigit : ByteClass := [(48, 57), (65, 70), (97, 102)]

def ctl : ByteClass := [(0, 31), (127, 127)]

def safe : ByteClass := chars "$-_."

def extra : ByteClass := chars "!*'(),"

def reserved : ByteClass := chars ";/?:@&=+"

def unsafeChars : ByteClass := ctl ++ chars " \"#%<>"

/-- `any -- (alpha | digit | reserved | extra | safe | unsafe)`. -/
def national : ByteClass := [(91, 94), (96, 96), (123, 126), (128, 255)]

/-- A range of bytes a quarter at a time, since each evaluation is heavy. -/
theorem forall_bytes_of_quarters {P : ℕ → Prop} (first : ∀ n < 64, P n) (second : ∀ n < 64, P (64 + n))
    (third : ∀ n < 64, P (128 + n)) (fourth : ∀ n < 64, P (192 + n)) : ∀ n < 256, P n := by
  intro n lt
  obtain ⟨k, r, small, rfl⟩ : ∃ k r, r < 64 ∧ n = 64 * k + r :=
    ⟨n / 64, n % 64, Nat.mod_lt n (by decide), (Nat.div_add_mod n 64).symm⟩
  match k with
  | 0 => simpa using first r small
  | 1 => exact second r small
  | 2 => exact third r small
  | 3 => exact fourth r small
  | k + 4 => omega

theorem national_has : ∀ n < 256, national.has (UInt8.ofNat n) =
    !(alpha ++ digit ++ reserved ++ extra ++ safe ++ unsafeChars).has (UInt8.ofNat n) := by
  apply forall_bytes_of_quarters <;> decide +kernel

def unreserved : ByteClass := alpha ++ digit ++ safe ++ extra ++ national

def escape : Expr := cats [lit (codes "%"), sym xdigit, sym xdigit]

def uchar : Expr := alt (sym unreserved) escape

def pchar : Expr := alt uchar (sym (chars ":@&=+"))

def tspecials : ByteClass := chars "()<>@,;:\\\"/[]?=\x7b\x7d \t"

/-- `ascii -- (CTL | tspecials)`. -/
def token : ByteClass :=
  [(33, 33), (35, 39), (42, 43), (45, 46), (48, 57), (65, 90), (94, 122), (124, 124), (126, 126)]

theorem token_has : ∀ n < 256, token.has (UInt8.ofNat n) =
    (decide (n < 128) && !(ctl ++ tspecials).has (UInt8.ofNat n)) := by
  apply forall_bytes_of_quarters <;> decide +kernel

def uriHost : Expr := plus (sym (alpha ++ digit ++ chars "."))

def uriPort : Expr := cat (lit (codes ":")) (plus (sym digit))

def scheme : Expr := star (sym (alpha ++ digit ++ chars "+-."))

def path : Expr := cat (plus pchar) (star (cat (lit (codes "/")) (star pchar)))

def query : Expr := (star (alt uchar (sym reserved))).leave .queryString

def param : Expr := star (alt pchar (lit (codes "/")))

def params : Expr := cat param (star (cat (lit (codes ";")) param))

def relPath : Expr := cats [(opt path).leave .requestPath, opt (cat (lit (codes ";")) params),
  opt (cat ((lit (codes "?")).leave .startQuery) query)]

def absolutePath : Expr := (cat (plus (lit (codes "/"))) relPath).enter .mark

def absoluteUri : Expr :=
  cats [scheme, lit (codes "://"), star (cats [uriHost, opt uriPort, opt absolutePath])]

def requestUri : Expr :=
  ((alts [lit (codes "*"), absoluteUri, absolutePath]).enter .mark).leave .requestUri

def fragment : Expr := ((star (alt uchar (sym reserved))).enter .mark).leave .fragment

def method : Expr := alt ((litI (codes "GET")).leave .requestMethodGet)
  ((litI (codes "POST")).leave .requestMethodPost)

def httpVersion : Expr := cat (lit (codes "HTTP/"))
  (alt ((lit (codes "1.0")).leave .httpVersion10) ((lit (codes "1.1")).leave .httpVersion11))

def requestLine : Expr :=
  (cats [method, lit (codes " "), requestUri, opt (cat (lit (codes "#")) fragment), lit (codes " "),
    httpVersion, crlf]).leave .httpRequestType

def spaces : Expr := star (lit (codes " "))

/-- A header with a name of its own, whose value is given to `x`. -/
def known (name : String) (value : Expr) (x : Action) : Expr :=
  cats [litI (codes name), spaces, (value.enter .mark).leave x]

def knownHeader : Expr := guarded (alts [
  known "Accept:" (star anyByte) .httpAccept,
  known "Connection:" (star anyByte) .httpConnection,
  known "Content-Length:" (plus (sym digit)) .httpContentLength,
  known "Content-Type:" (star anyByte) .httpContentType,
  known "Host:" (star anyByte) .requestHost,
  known "Upgrade:" (star anyByte) .upgrade,
  known "Sec-WebSocket-Key:" (star anyByte) .secWebsocketKey,
  known "Sec-WebSocket-Version:" (star anyByte) .secWebsocketVersion]) crlf

def fieldName : Expr := ((plus (sym token)).enter .startField).leave .writeField

def fieldValue : Expr := ((star anyByte).enter .startValue).leave .writeValue

/-- What makes a header line one in which a string of `known_header` occurs: such a string has the
only carriage return of the line as its own, so it is there as soon as its name is complete, and
for `Content-Length:` as soon as the digits are followed by the carriage return. -/
def knownStart : Expr := alts [
  litI (codes "Accept:"),
  litI (codes "Connection:"),
  cats [litI (codes "Content-Length:"), spaces, plus (sym digit), byte 13],
  litI (codes "Content-Type:"),
  litI (codes "Host:"),
  litI (codes "Upgrade:"),
  litI (codes "Sec-WebSocket-Key:"),
  litI (codes "Sec-WebSocket-Version:")]

/-- `(field_name ":" " "* field_value :> CRLF) -- known_header`. -/
def unknownHeader : Expr :=
  strongDiff (guarded (cats [fieldName, lit (codes ":"), spaces, fieldValue]) crlf) knownStart

def statusCode : Expr := ((plus (sym digit)).enter .mark).leave .statusCode

def reasonPhrase : Expr := ((star (sym (alpha ++ digit))).enter .mark).leave .reasonPhrase

def statusLine : Expr := cats [httpVersion, lit (codes " "), statusCode, reasonPhrase,
  crlf.leave .httpResponseType]

def headers : Expr := star (alt knownHeader unknownHeader)

def request : Expr := cats [requestLine, headers, crlf.finish .done]

def response : Expr := cats [statusLine, headers, crlf.finish .done]

/-- The state that `write init` gives: the start of `main`. -/
def httpRequestStart : Expr := ((alt request response).stamp 0).1

end Grammar

/-- `ref_str_t`. -/
@[ext] structure RefStr where
  len : ℕ
  data : ℤ
  deriving DecidableEq

def initRefStr (start stop : ℤ) : RefStr := ⟨((stop - start) % 2 ^ 32).toNat, start⟩

/-- The bytes that a `ref_str_t` stands for. -/
def RefStr.bytes (s : RefStr) (mem : ℤ → UInt8) : List UInt8 := slice mem s.data s.len

/-- `http_header_t`. -/
@[ext] structure Header where
  name : RefStr
  value : RefStr

/-- The `char *` fields of `http_request_t` that the actions use. -/
inductive Ptr
  | body
  | mark
  | queryStart
  | headerStart
  | headerValStart
  deriving DecidableEq

/-- The number and bit fields that the actions set. -/
inductive NumField
  | errTooManyHeader
  | httpType
  | contentLength
  | version
  | method
  | connection
  | statusCode
  | websocket
  deriving DecidableEq

/-- The `ref_str_t` fields. -/
inductive Str
  | host
  | fragment
  | path
  | queryString
  | uri
  | upgrade
  | accept
  | contentType
  | reasonPhrase
  | secWebsocketKey
  | secWebsocketVersion
  deriving DecidableEq

/-- `http_request_t`. `status` is the state of the machine. -/
@[ext] structure HttpRequest where
  ptr : Ptr → ℤ
  num : NumField → ℤ
  str : Str → RefStr
  status : Expr
  nread : ℕ
  headersNum : ℕ
  headers : ℕ → Header
  restData : ℤ
  restLen : ℤ

namespace HttpRequest

def setPtr (r : HttpRequest) (x : Ptr) (p : ℤ) : HttpRequest :=
  { r with ptr := Function.update r.ptr x p }

def setNum (r : HttpRequest) (x : NumField) (v : ℤ) : HttpRequest :=
  { r with num := Function.update r.num x v }

def setStr (r : HttpRequest) (x : Str) (s : RefStr) : HttpRequest :=
  { r with str := Function.update r.str x s }

def setHeader (r : HttpRequest) (i : ℕ) (h : Header) : HttpRequest :=
  { r with headers := Function.update r.headers i h }

/-- `init_ref_str(&parser->x, PTR_TO(mark), fpc)`. -/
def fromMark (r : HttpRequest) (x : Str) (p : ℤ) : HttpRequest :=
  r.setStr x (initRefStr (r.ptr .mark) p)

end HttpRequest

/-- The number that a list of digits stands for. -/
def digitsVal (ds : List UInt8) : ℕ := ds.foldl (fun v d => 10 * v + (d.toNat - 48)) 0

/-- `atoi` on a text whose digits end before `stop`: `strtol`, then a conversion to `int`. -/
def atoi (mem : ℤ → UInt8) (start stop : ℤ) : ℤ :=
  let digits := (slice mem start (stop - start).toNat).takeWhile fun c => digit.has c
  let v := min (digitsVal digits) (2 ^ 63 - 1)
  ((v : ℤ) + 2 ^ 31) % 2 ^ 32 - 2 ^ 31

/-- One action at the byte `p`, and whether it breaks out of the loop. The digits of a number end
before the byte on which its machine is left. -/
def act (mem : ℤ → UInt8) (p : ℤ) (r : HttpRequest) : Action → HttpRequest × Bool
  | .mark => (r.setPtr .mark p, false)
  | .startField => (r.setPtr .headerStart p, false)
  | .writeField =>
    if r.headersNum ≥ 100 then (r.setNum .errTooManyHeader 1, true)
    else
      let h := r.headers r.headersNum
      (r.setHeader r.headersNum { h with name := initRefStr (r.ptr .headerStart) p }, false)
  | .startValue => (r.setPtr .headerValStart p, false)
  | .writeValue =>
    let h := r.headers r.headersNum
    let r' := r.setHeader r.headersNum { h with value := initRefStr (r.ptr .headerValStart) p }
    ({ r' with headersNum := r.headersNum + 1 }, false)
  | .httpAccept => (r.fromMark .accept p, false)
  | .httpConnection =>
    if mem (r.ptr .mark) = 75 ∨ mem (r.ptr .mark) = 107 then (r.setNum .connection 1, false)
    else (r, false)
  | .httpContentLength => (r.setNum .contentLength (atoi mem (r.ptr .mark) p % 2 ^ 64), false)
  | .httpContentType => (r.fromMark .contentType p, false)
  | .statusCode => (r.setNum .statusCode (atoi mem (r.ptr .mark) p), false)
  | .reasonPhrase => (r.fromMark .reasonPhrase p, false)
  | .upgrade =>
    let r' := r.fromMark .upgrade p
    if (r'.str .upgrade).bytes mem = codes "websocket" then (r'.setNum .websocket 1, false)
    else (r', false)
  | .secWebsocketKey => (r.fromMark .secWebsocketKey p, false)
  | .secWebsocketVersion => (r.fromMark .secWebsocketVersion p, false)
  | .fragment => (r.fromMark .fragment p, false)
  | .httpVersion10 => (r.setNum .version 1, false)
  | .httpVersion11 => (r.setNum .version 0, false)
  | .requestPath => (r.fromMark .path p, false)
  | .requestMethodGet => (r.setNum .method 0, false)
  | .requestMethodPost => (r.setNum .method 1, false)
  | .requestUri => (r.fromMark .uri p, false)
  | .requestHost => (r.fromMark .host p, false)
  | .startQuery => (r.setPtr .queryStart p, false)
  | .queryString => (r.setStr .queryString (initRefStr (r.ptr .queryStart) p), false)
  | .httpRequestType => (r.setNum .httpType 1, false)
  | .httpResponseType => (r.setNum .httpType 2, false)
  | .done => (r.setPtr .body (p + 1), true)

/-- The actions of one transition, up to one that breaks. -/
def perform (mem : ℤ → UInt8) (p : ℤ) : List Action → HttpRequest → HttpRequest × Bool
  | [], r => (r, false)
  | x :: xs, r =>
    match act mem p r x with
    | (r', true) => (r', true)
    | (r', false) => perform mem p xs r'

/-- `write exec` over the `n` bytes from `p` on: where it stops, and in which state. -/
def exec (mem : ℤ → UInt8) : ℕ → ℤ → Expr → HttpRequest → ℤ × Expr × HttpRequest
  | 0, p, cs, r => (p, cs, r)
  | n + 1, p, cs, r =>
    if cs.deriv (mem p) = void then (p, void, r)
    else
      match perform mem p (cs.actions (mem p)) r with
      | (r', true) => (p + 1, cs.deriv (mem p), r')
      | (r', false) => exec mem n (p + 1) (cs.deriv (mem p)) r'

/-- `http_request_init`; the `bzero` is commented out in the source. -/
def httpRequestInit (parser : HttpRequest) : HttpRequest :=
  { parser with headersNum := 0, status := httpRequestStart, nread := 0 }

/-- `http_request_parse`: the number it returns and the record after it. -/
def httpRequestParse (parser : HttpRequest) (mem : ℤ → UInt8) (buffer : ℤ) (len off : ℕ) :
    ℕ × HttpRequest :=
  if off > len then (2 ^ 64 - 1, parser)
  else
    let (p, cs, parser') := exec mem (len - off) (buffer + off) parser.status parser
    let nread := parser.nread + (p - (buffer + off)).toNat
    (nread, { parser' with status := cs, nread := nread })

def httpRequestHasError (parser : HttpRequest) : Bool :=
  decide (parser.status = void) || decide (parser.num .errTooManyHeader ≠ 0)

def httpRequestIsFinished (parser : HttpRequest) : Bool := parser.status.nullable

def httpRequestFinish (parser : HttpRequest) : ℤ :=
  if httpRequestHasError parser then -1
  else if httpRequestIsFinished parser then 1
  else 0

end Conet.Base.HttpParser
