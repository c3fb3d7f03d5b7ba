/- Module: Conet/Base/PacketStreamRun
   source: base/src/net_tool.cpp, base/net_tool.h
   digest: read_packet and next_packet in turns return the frames of a stream. -/

import Conet.Base.NetToolRead

set_option autoImplicit false
set_option relaxedAutoImplicit false

namespace Conet.Base.PacketStreamRun

open Conet.Lib Conet.Lib.Frame Conet.Lib.Loop Conet.Base.Pbc Conet.Base.NetTool
open Conet.Base.NetToolRead

/-- A packet that was returned: where it starts, its length, its bytes and `total_len` then. -/
structure Packet where
  off : ℤ
  len : ℤ
  bytes : List UInt8
  totalLen : ℤ

/-- A stream, the system calls to come, the packets returned so far, what `recv` was asked for, how
many calls of `read_packet` there were, and whether the next call is one. -/
structure Driver where
  stream : PacketStream
  script : List Attempt
  packets : List Packet
  asks : List (ℤ × ℤ)
  round : ℕ
  reading : Bool

def packetOf (s : PacketStream) : Option (ℤ × ℤ) → List Packet
  | none => []
  | some (off, len) => [⟨off, len, slice s.mem off len.toNat, s.totalLen⟩]

/-- A call of `read_packet` is over. -/
def Driver.after (d : Driver) (out : ReadOut) : Driver where
  stream := out.stream
  script := out.script
  packets := d.packets ++ packetOf out.stream out.pack
  asks := d.asks ++ out.asks
  round := d.round + 1
  reading := false

/-- One call: a `read_packet`, or a `next_packet`, which is repeated until it fails. A
`read_packet` that waits or fails ends the run. -/
def driverTurn (choice : ℕ → Overload) (d : Driver) : Turn Driver (ReadEnd × Driver) :=
  if d.reading then
    let out := (choice d.round).read d.stream d.script
    match out.outcome with
    | .undefined => .undefined
    | .returned ret => if ret = 1 then .again (d.after out) else .leave (.returned ret, d.after out)
    | e => .leave (e, d.after out)
  else
    match nextPacket d.stream with
    | none => .undefined
    | some (ret, s, pack) =>
      .again { d with
        stream := s
        packets := d.packets ++ packetOf s pack
        reading := decide (ret ≠ 0) }

def Driver.init (maxSize : ℤ) (mem : ℤ → UInt8) (script : List Attempt) : Driver where
  stream := ⟨maxSize, mem, 0, 0, false⟩
  script := script
  packets := []
  asks := []
  round := 0
  reading := true

/-- Payloads that `read_packet` takes. -/
def Valid (maxSize : ℤ) (p : List UInt8) : Prop := 0 < p.length ∧ p.length ≤ maxSize - 4

/-- After every call: the packets are the first frames of the stream, inside of what was received,
and the bytes from `prev_pos` to `total_len` are the ones received and not returned. -/
structure InStep (ps : List (List UInt8)) (d : Driver) : Prop where
  packets : ∃ todo, ps = d.packets.map Packet.bytes ++ todo ∧
    stream todo = slice d.stream.mem d.stream.prevPos
      (d.stream.totalLen - d.stream.prevPos).toNat ++ bytesOf d.script
  inside : ∀ p ∈ d.packets, 0 ≤ p.off ∧ 0 ≤ p.len ∧ p.off + p.len ≤ p.totalLen ∧
    p.totalLen ≤ d.stream.maxSize
  cursors : 0 ≤ d.stream.prevPos ∧ d.stream.prevPos ≤ d.stream.totalLen ∧
    d.stream.totalLen ≤ d.stream.maxSize
  asks : AsksOk d.stream.maxSize d.asks

/-- The invariant of the run: the bytes `bs` are held, and the frames `todo` are to come. -/
structure Inv (maxSize : ℤ) (ps : List (List UInt8)) (d : Driver) (bs : List UInt8)
    (todo : List (List UInt8)) : Prop where
  size : d.stream.maxSize = maxSize
  isHttp : d.stream.isHttp = false
  held : Held d.stream bs
  split : ps = d.packets.map Packet.bytes ++ todo
  bytes : stream todo = bs ++ bytesOf d.script
  fine : ∀ a ∈ d.script, Fine a
  inside : ∀ p ∈ d.packets, 0 ≤ p.off ∧ 0 ≤ p.len ∧ p.off + p.len ≤ p.totalLen ∧
    p.totalLen ≤ maxSize
  asks : AsksOk maxSize d.asks

section Run

variable {maxSize : ℤ} {ps todo : List (List UInt8)} {d : Driver} {bs : List UInt8}

theorem Inv.inStep (inv : Inv maxSize ps d bs todo) : InStep ps d := by
  have total := inv.held.total
  have start := inv.held.start
  have fits := inv.held.fits
  refine ⟨⟨todo, inv.split, ?_⟩, ?_, ⟨start, by omega, fits⟩, ?_⟩
  · rw [inv.held.count, inv.held.bytes]
    exact inv.bytes
  · rw [inv.size]
    exact inv.inside
  · rw [inv.size]
    exact inv.asks

theorem Valid.short {p : List UInt8} (valid : Valid maxSize p) (small : maxSize < 2 ^ 31) :
    Short p := by
  have le := valid.2
  simp only [Short]
  omega

/-- The first four bytes of a stream announce one of its payloads. -/
theorem announced_valid (small : maxSize < 2 ^ 31) (valid : ∀ p ∈ todo, Valid maxSize p)
    {more : List UInt8} (bytes : stream todo = bs ++ more) (four : 4 ≤ bs.length) :
    0 < announced bs ∧ announced bs ≤ maxSize - 4 := by
  cases todo with
  | nil =>
    have length := congrArg List.length bytes
    simp at length
    omega
  | cons p todo =>
    have short := (valid p (by simp)).short small
    have len : announced bs = p.length := by
      rw [← announced_append four more, ← bytes, stream_cons, announced_frame short]
    rw [len]
    exact valid p (by simp)

theorem not_refused (small : maxSize < 2 ^ 31) (valid : ∀ p ∈ todo, Valid maxSize p)
    {s : PacketStream} (http : s.isHttp = false) (size : s.maxSize = maxSize) {more : List UInt8}
    (bytes : stream todo = bs ++ more) : ¬ Refused s bs := by
  rintro ⟨four, refused⟩
  have len := announced_valid small valid bytes four
  rcases refused with zero | large | ⟨yes, -⟩
  · omega
  · omega
  · simp [http] at yes

theorem first_packet (small : maxSize < 2 ^ 31) (valid : ∀ p ∈ todo, Valid maxSize p)
    {p rest more : List UInt8} (short : Short p) (bytes : stream todo = frame p ++ rest ++ more) :
    ∃ todo', todo = p :: todo' ∧ stream todo' = rest ++ more := by
  obtain ⟨p', todo', rest', rfl, split, tail⟩ := stream_first
    (fun q hq => (valid q hq).short small) bytes (not_unfinished_frame short rest)
  obtain ⟨rfl, rfl⟩ := frame_inj short ((valid p' (by simp)).short small) split
  exact ⟨todo', rfl, tail⟩

theorem Inv.read (choice : ℕ → Overload) (inv : Inv maxSize ps d bs todo) (reading : d.reading = true)
    (small : maxSize < 2 ^ 31) (big : 4 < maxSize) (valid : ∀ p ∈ ps, Valid maxSize p) :
    (∃ e d', driverTurn choice d = .leave (e, d') ∧ (e = .impossible ∨ e = .waits ∧
      d'.packets.map Packet.bytes = ps ∧ AsksOk maxSize d'.asks)) ∨
    ∃ d' bs' todo', driverTurn choice d = .again d' ∧ Inv maxSize ps d' bs' todo' ∧
      (stream todo').length < (stream todo).length := by
  have valid' : ∀ p ∈ todo, Valid maxSize p := fun p hp => valid p (by rw [inv.split]; simp [hp])
  have size := inv.size
  have reads : Reads (choice d.round).reader ((choice d.round).early bs) d.stream bs d.script
      ((choice d.round).read d.stream d.script) :=
    read_reads (choice d.round) inv.held (by omega) (by omega)
  have brings : ∀ {got script'}, Gets (choice d.round).reader ((choice d.round).early bs) d.script got
      script' → Brings d.script got script' := fun gets =>
    gets_brings gets fun a ha => (inv.fine a ha).early
  have asks : AsksOk maxSize (d.asks ++ ((choice d.round).read d.stream d.script).asks) := by
    intro ask hask
    rcases List.mem_append.mp hask with hask | hask
    · exact inv.asks ask hask
    · rw [← size]
      exact reads.asks ask hask
  have unrefused : ∀ {got script'}, Gets (choice d.round).reader ((choice d.round).early bs) d.script
      got script' → ¬ Refused d.stream (bs ++ got) := by
    intro got script' gets
    have whole : stream todo = bs ++ got ++ bytesOf script' := by
      rw [inv.bytes, (brings gets).bytes, List.append_assoc]
    exact not_refused small valid' inv.isHttp size whole
  cases outcome : ((choice d.round).read d.stream d.script).outcome with
  | undefined =>
    obtain ⟨got, script', gets, refused⟩ := reads.undefined outcome
    exact absurd refused (unrefused gets)
  | failed ret =>
    obtain ⟨got, stops⟩ := reads.failed ret outcome
    exact absurd stops (not_stops inv.fine)
  | impossible =>
    exact .inl ⟨.impossible, d.after ((choice d.round).read d.stream d.script),
      by simp [driverTurn, reading, outcome], .inl rfl⟩
  | waits =>
    obtain ⟨none, got, gets, unfinished⟩ := reads.waits outcome
    have all : bytesOf d.script = got := by simpa [bytesOf] using (brings gets).bytes
    refine .inl ⟨.waits, d.after ((choice d.round).read d.stream d.script),
      by simp [driverTurn, reading, outcome], .inr ⟨rfl, ?_, asks⟩⟩
    rw [← all, ← inv.bytes] at unfinished
    cases todo with
    | nil =>
      rw [inv.split, Driver.after, none]
      simp [packetOf]
    | cons p todo =>
      exact absurd unfinished (not_unfinished_frame ((valid' p (by simp)).short small) _)
  | returned ret =>
    rcases reads.returns ret outcome with ⟨rfl, p, got, rest, took⟩ | ⟨-, got, script', gets, refused⟩
    · have held := took.held
      have inside := took.inside
      have fits := held.fits
      have size' := took.maxSize
      have short : Short p := by
        rw [Short]
        omega
      have bytes : stream todo = frame p ++ rest ++ bytesOf
          ((choice d.round).read d.stream d.script).script := by
        rw [inv.bytes, (brings took.gets).bytes, ← List.append_assoc, took.frame]
      obtain ⟨todo', rfl, tail⟩ := first_packet small valid' short bytes
      refine .inr ⟨d.after ((choice d.round).read d.stream d.script), rest, todo',
        by simp [driverTurn, reading, outcome], ⟨?_, ?_, held, ?_, tail, ?_, ?_, asks⟩, ?_⟩
      · exact size'.trans size
      · exact took.isHttp.trans inv.isHttp
      · rw [inv.split, Driver.after, took.pack]
        simp [packetOf, took.here]
      · exact fun a ha => inv.fine a ((brings took.gets).sub a ha)
      · intro q hq
        simp only [Driver.after, took.pack, packetOf] at hq
        rcases List.mem_append.mp hq with hq | hq
        · exact inv.inside q hq
        · obtain rfl := List.mem_singleton.mp hq
          simp only
          omega
      · rw [stream_cons, List.length_append, frame_length]
        omega
    · exact absurd refused (unrefused gets)

theorem Inv.next (choice : ℕ → Overload) (inv : Inv maxSize ps d bs todo) (reading : d.reading = false)
    (small : maxSize < 2 ^ 31) (valid : ∀ p ∈ ps, Valid maxSize p)
    (low : 4 + d.stream.prevPos < 2 ^ 31) :
    ∃ d' bs' todo', driverTurn choice d = .again d' ∧ Inv maxSize ps d' bs' todo' ∧
      ((stream todo').length < (stream todo).length ∨
        (d'.reading = true ∧ todo' = todo)) := by
  have valid' : ∀ p ∈ todo, Valid maxSize p := fun p hp => valid p (by rw [inv.split]; simp [hp])
  have size := inv.size
  by_cases finished : Unfinished bs
  · have wrap : 4 ≤ bs.length → announced bs + 4 < 2 ^ 32 := fun four => by
      have len := announced_valid small valid' inv.bytes four
      omega
    obtain ⟨ret, next, fails⟩ := next_unfinished inv.held (by omega) finished wrap low
    refine ⟨{ d with packets := d.packets ++ [], reading := decide (ret ≠ 0) }, bs, todo,
      by simp [driverTurn, reading, next, packetOf], ?_, .inr ⟨by simpa using fails, rfl⟩⟩
    exact ⟨size, inv.isHttp, inv.held, by simpa using inv.split, inv.bytes, inv.fine,
      by simpa using inv.inside, inv.asks⟩
  · obtain ⟨p, rest, rfl, -, short⟩ := exists_frame finished
    obtain ⟨todo', rfl, bytes⟩ := first_packet small valid' short inv.bytes
    obtain ⟨s', next, held, size', http, here, inside, mem, total⟩ :=
      next_frame inv.held (by omega) short low
    have start := inv.held.start
    have fits := inv.held.fits
    refine ⟨{ d with
        stream := s'
        packets := d.packets ++ packetOf s' (some (d.stream.prevPos + 4, (p.length : ℤ)))
        reading := false }, rest, todo',
      by simp [driverTurn, reading, next], ?_, .inl ?_⟩
    · refine ⟨size'.trans size, http.trans inv.isHttp, held, ?_, bytes, inv.fine, ?_, inv.asks⟩
      · rw [inv.split]
        simp [packetOf, mem, here]
      · intro q hq
        rcases List.mem_append.mp hq with hq | hq
        · exact inv.inside q hq
        · obtain rfl := List.mem_singleton.mp hq
          simp only [total]
          omega
    · rw [stream_cons, List.length_append, frame_length]
      omega

theorem Inv.init (mem : ℤ → UInt8) {script : List Attempt} (big : 4 < maxSize)
    (fine : ∀ a ∈ script, Fine a) (bytes : bytesOf script = stream ps) :
    Inv maxSize ps (Driver.init maxSize mem script) [] ps := by
  refine ⟨rfl, rfl, ⟨le_rfl, rfl, ?_, rfl, fun _ => rfl⟩, rfl, bytes.symm, fine, ?_, ?_⟩
  · simp only [Driver.init]
    omega
  · simp [Driver.init]
  · simp [Driver.init, AsksOk]

/-- The frames are returned: the last `read_packet` waits, every one of them has been returned, and
every call before kept in step with the stream. -/
def ReturnsFrames (choice : ℕ → Overload) (maxSize : ℤ) (ps : List (List UInt8)) (d : Driver) :
    Prop :=
  ∃ d', Completes (driverTurn choice) (InStep ps) d (.waits, d') ∧
    d'.packets.map Packet.bytes = ps ∧ AsksOk maxSize d'.asks

/-- The sum of `prev_pos` and 4 in `next_packet` is an `int`. -/
def Sums (d : Driver) : Prop := d.reading = false → 4 + d.stream.prevPos < 2 ^ 31

/-- `read_packet` and `next_packet` in turns return the frames of a stream if and only if the sum in
`next_packet` never leaves the range of `int`. -/
theorem returnsFrames_iff (choice : ℕ → Overload) (mem : ℤ → UInt8) (script : List Attempt)
    (big : 4 < maxSize) (small : maxSize < 2 ^ 31) (valid : ∀ p ∈ ps, Valid maxSize p)
    (fine : ∀ a ∈ script, Fine a) (bytes : bytesOf script = stream ps)
    (possible : ∀ d, ¬ Returns (driverTurn choice) (Driver.init maxSize mem script) (.impossible, d)) :
    ReturnsFrames choice maxSize ps (Driver.init maxSize mem script) ↔
      ∀ d, Reaches (driverTurn choice) (Driver.init maxSize mem script) d → Sums d := by
  constructor
  · rintro ⟨d', completes, -⟩ d reach reading
    by_contra high
    have undefined : driverTurn choice d = .undefined := by
      rw [driverTurn, if_neg (by simp [reading]), nextPacket, if_pos (not_lt.mp high)]
    exact not_returns_undefined undefined (reach.returns.mp completes.returns)
  · intro sums
    let inv : ℕ → Driver → Prop := fun i d => ∃ bs todo, Inv maxSize ps d bs todo ∧
      i = 2 * (stream todo).length + if d.reading then 0 else 1
    let post : ReadEnd × Driver → Prop := fun t => t.1 = .impossible ∨ t.1 = .waits ∧
      t.2.packets.map Packet.bytes = ps ∧ AsksOk maxSize t.2.asks
    have turn : ∀ i d, inv i d → InStep ps d ∧ (Sums d →
        (∃ t, driverTurn choice d = .leave t ∧ post t) ∨
        ∃ j d', driverTurn choice d = .again d' ∧ inv j d' ∧ j < i) := by
      rintro i d ⟨bs, todo, inv', rfl⟩
      refine ⟨inv'.inStep, fun low => ?_⟩
      cases reading : d.reading with
      | true =>
        rcases inv'.read choice reading small big valid with
          ⟨e, d', turn, post⟩ | ⟨d', bs', todo', turn, next, less⟩
        · exact .inl ⟨(e, d'), turn, post⟩
        · refine .inr ⟨_, d', turn, ⟨bs', todo', next, rfl⟩, ?_⟩
          split <;> simp <;> omega
      | false =>
        obtain ⟨d', bs', todo', turn, next, less⟩ :=
          inv'.next choice reading small valid (low reading)
        refine .inr ⟨_, d', turn, ⟨bs', todo', next, rfl⟩, ?_⟩
        rcases less with less | ⟨reading', rfl⟩
        · split <;> simp <;> omega
        · simp [reading']
    obtain ⟨⟨e, d'⟩, completes, rfl | ⟨rfl, all, asks⟩⟩ := completes_of_progress inv Sums (InStep ps)
      post turn _ _ ⟨[], ps, Inv.init mem big fine bytes, rfl⟩ sums
    · exact absurd completes.returns (possible d')
    · exact ⟨d', completes, all, asks⟩

theorem Inv.sums (inv : Inv maxSize ps d bs todo) (room : maxSize < 2 ^ 31 - 4) : Sums d := by
  intro _
  have total := inv.held.total
  have fits := inv.held.fits
  rw [inv.size] at fits
  omega

/-- The sum stays within `int` in a buffer with four bytes less than the largest one. -/
theorem sums_of_room (choice : ℕ → Overload) (mem : ℤ → UInt8) (script : List Attempt)
    (big : 4 < maxSize) (room : maxSize < 2 ^ 31 - 4) (valid : ∀ p ∈ ps, Valid maxSize p)
    (fine : ∀ a ∈ script, Fine a) (bytes : bytesOf script = stream ps)
    (reach : Reaches (driverTurn choice) (Driver.init maxSize mem script) d) : Sums d := by
  let keeps : Driver → Prop := fun d => ∃ bs todo, Inv maxSize ps d bs todo
  have start : keeps (Driver.init maxSize mem script) := ⟨[], ps, Inv.init mem big fine bytes⟩
  have turn : ∀ d d', keeps d → driverTurn choice d = .again d' → keeps d' := by
    rintro d d' ⟨bs, todo, inv⟩ turn
    cases reading : d.reading with
    | true =>
      rcases inv.read choice reading (by omega) big valid with
        ⟨e, d₁, turn₁, -⟩ | ⟨d₁, bs₁, todo₁, turn₁, inv₁, -⟩
      · cases turn.symm.trans turn₁
      · cases turn.symm.trans turn₁
        exact ⟨bs₁, todo₁, inv₁⟩
    | false =>
      obtain ⟨d₁, bs₁, todo₁, turn₁, inv₁, -⟩ :=
        inv.next choice reading (by omega) valid (inv.sums room reading)
      cases turn.symm.trans turn₁
      exact ⟨bs₁, todo₁, inv₁⟩
  obtain ⟨bs, todo, inv⟩ : keeps d := Reaches.invariant start turn reach
  exact inv.sums room

/-- The packets `[7]` and `[8, 9]` come in two pieces, and the first one ends within the second
length. -/
theorem returnsFrames_two_pieces : ReturnsFrames (fun _ => .plain) 64 [[7], [8, 9]]
    (Driver.init 64 (fun _ => 0) [brings [0, 0, 0, 1, 7, 0, 0], brings [0, 2, 8, 9]]) := by
  have valid : ∀ p ∈ [[7], [8, 9]], Valid 64 p := by simp [Valid]
  have fine : ∀ a ∈ [brings [0, 0, 0, 1, 7, 0, 0], brings [0, 2, 8, 9]], Fine a := by
    simp [fine_brings]
  obtain ⟨d', run⟩ : ∃ d', Returns (driverTurn fun _ => .plain) (Driver.init 64 (fun _ => 0)
    [brings [0, 0, 0, 1, 7, 0, 0], brings [0, 2, 8, 9]]) (.waits, d') := ⟨_, 5, rfl⟩
  apply (returnsFrames_iff _ _ _ (by decide) (by decide) valid fine rfl ?_).mpr
  · intro d reach
    exact sums_of_room _ _ _ (by decide) (by decide) valid fine rfl reach
  · intro d waits
    simpa using run.unique waits

/-- The longest payload that `read_packet` takes into the largest buffer. -/
def longPayload : List UInt8 := List.replicate (2 ^ 31 - 5) 0

/-- A `read_packet` that gets a whole frame at once. -/
theorem readPacket_whole {p : List UInt8} (some : 0 < p.length) (room : p.length ≤ maxSize - 4)
    (small : maxSize < 2 ^ 31) (mem : ℤ → UInt8) :
    let out := readPacket ⟨maxSize, mem, 0, 0, false⟩ [brings (frame p)]
    out.outcome = .returned 1 ∧ out.stream.prevPos = p.length + 4 := by
  have length : (frame p).length = 4 + p.length := frame_length p
  have data : plain.read false (brings (frame p)) = .data (frame p) :=
    ((fine_brings (frame_ne_nil p)).reads .plain false).1
  have short : Short p := by
    rw [Short]
    omega
  have fits : ((frame p).length : ℤ) ≤ maxSize - 0 := by omega
  have four : announced (slice (write mem 0 (frame p)) 0 4) = p.length := by
    have same : announced (slice (write mem 0 (frame p)) 0 4) = announced (frame p) :=
      announced_slice (by omega) (slice_write ..)
    rw [same]
    simpa using announced_frame short []
  have first : fill plain maxSize 4 false [brings (frame p)] ⟨mem, 0, [], []⟩ =
      .full ⟨write mem 0 (frame p), 0 + (frame p).length, [(0, maxSize - 0)], [] ++ frame p⟩ [] := by
    rw [fill, if_neg (by simp)]
    have late : plain.late (brings (frame p)) = false := rfl
    simp only [data, if_pos fits, late, Bool.false_eq_true, if_false]
    rw [fill, if_pos (by simp only; omega)]
    rfl
  have second : fill plain maxSize (p.length + 4) false []
      ⟨write mem 0 (frame p), 0 + (frame p).length, [(0, maxSize - 0)], [] ++ frame p⟩ =
      .full ⟨write mem 0 (frame p), 0 + (frame p).length, [(0, maxSize - 0)], [] ++ frame p⟩ [] := by
    rw [fill, if_pos (by simp only; omega)]
  have pos : toInt32 (p.length : ℤ) = p.length := toInt32_of_lt (by omega) (by omega)
  simp only [readPacket, readPacketWith, compact, lt_irrefl, if_false, first, Bool.false_and,
    Bool.false_eq_true, readBody, four, pos]
  rw [if_neg (by omega), if_neg (by omega), if_neg (by omega), second]
  exact ⟨rfl, rfl⟩

/-- A frame that ends where `int` does leaves no room for the sum in `next_packet`. -/
theorem whole_overflows {p : List UInt8} (some : 0 < p.length) (room : p.length ≤ maxSize - 4)
    (small : maxSize < 2 ^ 31) (high : 2 ^ 31 ≤ p.length + 8) (mem : ℤ → UInt8)
    (t : ReadEnd × Driver) :
    ¬ Returns (driverTurn fun _ => .plain) (Driver.init maxSize mem [brings (frame p)]) t := by
  intro returns
  obtain ⟨one, pos⟩ := readPacket_whole some room small mem
  have first : driverTurn (fun _ => .plain) (Driver.init maxSize mem [brings (frame p)]) =
      .again ((Driver.init maxSize mem [brings (frame p)]).after
        (readPacket ⟨maxSize, mem, 0, 0, false⟩ [brings (frame p)])) := by
    simp [driverTurn, Driver.init, Overload.read, one]
  refine not_returns_undefined ?_ ((returns_again first).mp returns)
  rw [driverTurn, if_neg (by simp [Driver.after]), nextPacket, if_pos]
  simp only [Driver.after, pos]
  omega

/-- A frame as long as the largest `int` allows fills a buffer of that size, and the sum in
`next_packet` leaves the range of `int`. -/
theorem longPayload_overflows : Valid (2 ^ 31 - 1) longPayload ∧
    (∀ a ∈ [brings (frame longPayload)], Fine a) ∧
    bytesOf [brings (frame longPayload)] = stream [longPayload] ∧
    (∀ d, ¬ Returns (driverTurn fun _ => .plain) (Driver.init (2 ^ 31 - 1) (fun _ => 0)
      [brings (frame longPayload)]) (.impossible, d)) ∧
    ¬ ReturnsFrames (fun _ => .plain) (2 ^ 31 - 1) [longPayload]
      (Driver.init (2 ^ 31 - 1) (fun _ => 0) [brings (frame longPayload)]) := by
  have length : longPayload.length = 2 ^ 31 - 5 := List.length_replicate
  have ends : ∀ t, ¬ Returns (driverTurn fun _ => .plain) (Driver.init (2 ^ 31 - 1) (fun _ => 0)
      [brings (frame longPayload)]) t :=
    whole_overflows (by omega) (by omega) (by decide) (by omega) fun _ => 0
  refine ⟨⟨by omega, by omega⟩, ?_, by simp [bytesOf, brings, chunk], fun d => ends _, ?_⟩
  · simp only [List.mem_singleton, forall_eq]
    exact fine_brings (frame_ne_nil _)
  · rintro ⟨d', completes, -⟩
    exact ends _ completes.returns

end Run

end Conet.Base.PacketStreamRun
