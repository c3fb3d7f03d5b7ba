/- Module: Conet/Svrkit/HttpConn
   source: svrkit/src/http_server.cpp
   digest: The loop of http_server_t::conn_proc: its buffer, its cursors and the requests it serves. -/

import Conet.Base.HttpParser
import Conet.Lib.Loop

set_option autoImplicit false
set_option relaxedAutoImplicit false

namespace Conet.Svrkit.HttpConn

open Conet.Lib Conet.Base.HttpParser

/-- What `conn_proc` reads of the server. The buffer has `2 * maxPacketSize` bytes, an `int`. -/
structure Config where
  maxPacketSize : ℤ
  toStop : Bool
  nonneg : 0 ≤ maxPacketSize
  int : 2 * maxPacketSize < 2 ^ 31

def Config.len (cfg : Config) : ℤ := cfg.maxPacketSize * 2

/-- What `http_server_main` is called with: the request, the memory it points to, the end of the
received data and the start of the request. -/
structure Call where
  req : HttpRequest
  mem : ℤ → UInt8
  recvP : ℤ
  parseP : ℤ

/-- What `http_server_main` asks: the settings of the server, the command for a call (from whether
the response keeps the connection to what `proc` returns, whether the response still does and
`to_close`), and what `output_response` returns. -/
structure Server where
  enableKeepalive : Bool
  enableClientClose : Bool
  cmd : Call → Option (Bool → ℤ × Bool × Bool)
  output : Call → ℤ

def httpServerMain (server : Server) (call : Call) : ℤ :=
  let keepalive := decide (call.req.num .connection = 1) && server.enableKeepalive
  let (keepalive, toClose) := match server.cmd call with
    | none => (false, true)
    | some proc =>
      let (ret, keepalive, toClose) := proc keepalive
      (keepalive, toClose || decide (ret ≠ 0))
  if server.output call ≤ 0 then -1
  else if !server.enableClientClose && (!keepalive || toClose) then 1
  else 0

/-- The local variables of `conn_proc`; `buf` is at address 0. -/
structure Conn where
  mem : ℤ → UInt8
  recvP : ℤ
  recvLen : ℤ
  parseP : ℤ
  nparsed : ℤ
  req : HttpRequest
  /-- the calls of `http_server_main` -/
  calls : List Call

/-- The variables before the loop; `req` and the buffer are not initialised. -/
def Conn.init (mem : ℤ → UInt8) (req : HttpRequest) : Conn where
  mem := mem
  recvP := 0
  recvLen := 0
  parseP := 0
  nparsed := 0
  req := req
  calls := []

/-- What `recv` comes back with: data, the end of the stream, `EAGAIN` or `EINTR`, `ETIMEDOUT` or
`ECONNRESET`, or another error. -/
inductive Recv
  | data (chunk : List UInt8)
  | closed
  | again
  | reset
  | failed

/-- How a run of the loop ends: `conn_proc` returns, or waits in `recv` for what is not yet there. -/
inductive Exit
  | returned (ret : ℤ)
  | waiting
  deriving DecidableEq

/-- The body of the loop: the connection and what `recv` will come back with. -/
abbrev Body := Conn × List Recv → Turn (Conn × List Recv) (Exit × Conn)

/-- `recv` and the two cursors after it. -/
def receive (c : Conn) (chunk : List UInt8) : Conn :=
  { c with
    mem := write c.mem c.recvP chunk
    recvP := c.recvP + chunk.length
    recvLen := c.recvLen + chunk.length }

/-- After `http_server_main` returned 0: on to the next request. -/
def advance (cfg : Config) (c : Conn) : Conn :=
  let parseP := c.parseP + wrapInt64 (c.nparsed + c.req.num .contentLength)
  if c.recvP - parseP ≤ 0 then { c with parseP := 0, recvP := 0, recvLen := 0, nparsed := 0 }
  else if parseP > cfg.maxPacketSize then
    let recvLen := c.recvP - parseP
    { c with
      mem := write c.mem 0 (slice c.mem parseP recvLen.toNat)
      recvLen := recvLen
      parseP := 0
      recvP := recvLen
      nparsed := 0 }
  else { c with parseP := parseP, nparsed := 0 }

/-- The part of the loop from the end of the head on. `serve` is what `http_server_main` returns;
`ws_main` returns 1. -/
def serveTurn (cfg : Config) (serve : Call → ℤ) (c : Conn) (rs : List Recv) :
    Turn (Conn × List Recv) (Exit × Conn) :=
  let req := { c.req with
    restData := c.parseP + c.nparsed
    restLen := (c.recvP - c.parseP - c.nparsed) % 2 ^ 64 }
  let c := { c with req := req }
  if req.num .websocket = 1 then .leave (.returned 1, c)
  else
    let call : Call := ⟨req, c.mem, c.recvP, c.parseP⟩
    let c := { c with calls := c.calls ++ [call] }
    if serve call ≠ 0 then .leave (.returned (serve call), c)
    else .again (advance cfg c, rs)

/-- The part of the loop after `recv`. -/
def parseTurn (cfg : Config) (serve : Call → ℤ) (c : Conn) (rs : List Recv) :
    Turn (Conn × List Recv) (Exit × Conn) :=
  let stop := c.recvP - c.parseP
  let req := if c.nparsed = 0 then httpRequestInit c.req else c.req
  let parsed := httpRequestParse req c.mem c.parseP (stop % 2 ^ 64).toNat (c.nparsed % 2 ^ 64).toNat
  let c := { c with req := parsed.2, nparsed := wrapInt64 (c.nparsed + parsed.1) }
  if httpRequestFinish c.req = 0 then .again (c, rs)
  else if httpRequestFinish c.req ≠ 1 then .leave (.returned (-1), c)
  else serveTurn cfg serve c rs

/-- The body of the loop. `recv` does not bring more than it is asked for. -/
def connTurn (cfg : Config) (serve : Call → ℤ) : Body := fun (c, rs) =>
  if cfg.toStop then .leave (.returned 0, c)
  else if 0 < c.recvLen ∧ c.nparsed = 0 then parseTurn cfg serve c rs
  else if cfg.len - c.recvLen ≤ 0 then .leave (.returned (-2), c)
  else
    match rs with
    | [] => .leave (.waiting, c)
    | .data chunk :: rs =>
      if chunk.length ≤ cfg.len - c.recvLen then parseTurn cfg serve (receive c chunk) rs
      else .undefined
    | .closed :: _ => .leave (.returned (if c.nparsed = 0 then 0 else -2), c)
    | .again :: rs => .again (c, rs)
    | .reset :: _ => .leave (.returned 0, c)
    | .failed :: _ => .leave (.returned (-2), c)

end Conet.Svrkit.HttpConn
