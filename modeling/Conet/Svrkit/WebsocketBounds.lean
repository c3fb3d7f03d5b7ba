/- Module: Conet/Svrkit/WebsocketBounds
   source: svrkit/src/http_server.cpp
   digest: The frame reader on whatever bytes arrive: where its loop ends, and where its payloads lie. -/

import Conet.Svrkit.WebsocketRead

set_option autoImplicit false
set_option relaxedAutoImplicit false

namespace Conet.Svrkit.WebsocketBounds

open Conet.Lib Conet.Svrkit.Websocket
open Conet.Svrkit.WebsocketRead (Sane doProcPkg_fields)

/-! The blocks of a turn, from each of them up to `PROC_MSG`. -/

def fromCalc : Block := fun c => (calcRestSize c).andThen readData

def fromMasking : Block := fun c => (parseMasking c).andThen fromCalc

def fromLen : Block := fun c => (parsePayloadLen c).andThen fromMasking

def parseTurn : Block := fun c => (readPayloadLen c).andThen fromLen

/-- In a turn that begins with `c`, `do_proc_pkg` is called with `c₁`. -/
def Handed (c c₁ : Conn) : Prop := parseTurn c = .again c₁ ∧ c₁.state = .procMsg

/-- The whole payload lies in the received part of the buffer. -/
structure Inside (c : Conn) : Prop where
  nonneg : 0 ≤ c.prevDataPos
  received : c.prevDataPos + c.payloadLen ≤ c.dataPos
  max : c.dataPos ≤ c.maxBufLen

/-- The extended length of a frame is not there yet, where nothing leaves the loop for that. -/
def Stuck (c : Conn) : Prop :=
  c.state = .parsePayloadLen ∧
    ((c.head.payloadLen = 126 ∧ c.dataPos - c.prevDataPos < 2) ∨
      (c.head.payloadLen = 127 ∧ c.dataPos - c.prevDataPos < 8))

/-- All packets so far have lengths that are positive as an `int64_t`. -/
def Fits (c : Conn) : Prop := ∀ p ∈ c.packets, p.payloadLen < 2 ^ 63

/-- A connection after some `do_read` calls, with other frames queued in between. -/
inductive Reached (max : ℤ) : Conn → Prop
  | init : Reached max (Conn.init max)
  | write {c : Conn} (sendQueue : List (List UInt8)) (toClose : Bool) :
      Reached max c → Reached max { c with sendQueue := sendQueue, toClose := toClose }
  | read {c c' : Conn} {r : Recv} {ret : ℤ} :
      Reached max c → DoRead c r (ret, c') → Reached max c'

def left (c : Conn) : ℕ := (c.dataPos - c.prevDataPos).toNat

/-- The cursors are in order, and they and the log are those of `c` but for bytes parsed. -/
structure Advances (c c' : Conn) : Prop where
  sane : Sane c'
  left : left c' ≤ left c
  packets : c'.packets = c.packets
  max : c'.maxBufLen = c.maxBufLen

/-- The payload of the frame has arrived, in the arithmetic of the source. -/
structure Whole (c : Conn) : Prop where
  state : c.state = .procMsg
  arrived : toInt64 c.payloadLen ≤ c.dataPos - c.prevDataPos

/-- How a turn ends that gets past the length of its frame: it leaves the loop, as bytes are missing,
or comes to `PROC_MSG`. -/
inductive Parsed (c : Conn) : Turn Conn (ℤ × Conn) → Prop
  | leaves {c' : Conn} : Advances c c' → c'.state ≠ .procMsg → Parsed c (.leave (1, c'))
  | whole {c' : Conn} : Advances c c' → Whole c' → Parsed c (.again c')

section Blocks

variable {c c' c₁ : Conn} {t : Turn Conn (ℤ × Conn)}

theorem readTurn_eq (c : Conn) : readTurn c = (parseTurn c).andThen procMsg := by
  simp only [readTurn, parseTurn, fromLen, fromMasking, fromCalc, Turn.andThen_assoc]

theorem Advances.refl (sane : Sane c) : Advances c c := ⟨sane, le_rfl, rfl, rfl⟩

theorem Advances.trans (first : Advances c c₁) (second : Advances c₁ c') : Advances c c' :=
  ⟨second.sane, second.left.trans first.left, second.packets.trans first.packets,
    second.max.trans first.max⟩

theorem Parsed.after (first : Advances c c₁) (parsed : Parsed c₁ t) : Parsed c t := by
  cases parsed with
  | leaves next state => exact .leaves (first.trans next) state
  | whole next whole => exact .whole (first.trans next) whole

theorem advances_of_consume (sane : Sane c) {n : ℤ} (nonneg : 0 ≤ n)
    (there : n ≤ c.dataPos - c.prevDataPos) (dataPos : c'.dataPos = c.dataPos)
    (prev : c'.prevDataPos = c.prevDataPos + n) (max : c'.maxBufLen = c.maxBufLen)
    (packets : c'.packets = c.packets) : Advances c c' := by
  have lower := sane.nonneg
  have upper := sane.inside
  have int64 := sane.int64
  refine ⟨⟨by omega, by omega, by omega, by omega⟩, ?_, packets, max⟩
  rw [left, left]
  omega

theorem readData_parsed (sane : Sane c) (state : c.state = .readData) : Parsed c (readData c) := by
  by_cases short : c.dataPos - c.prevDataPos < toInt64 c.payloadLen
  · have turn : readData c = .leave (1, c) := (if_pos state).trans (if_pos short)
    rw [turn]
    apply Parsed.leaves (.refl sane)
    rw [state]
    exact nofun
  · have turn : readData c = .again { c with state := .procMsg } := (if_pos state).trans (if_neg short)
    rw [turn]
    apply Parsed.whole
    · exact advances_of_consume sane le_rfl (by have := sane.le; omega) rfl (by simp) rfl rfl
    · exact ⟨rfl, not_lt.mp short⟩

theorem fromCalc_parsed (sane : Sane c) (state : c.state = .calcRestSize) : Parsed c (fromCalc c) := by
  have le := sane.le
  have lower := sane.nonneg
  by_cases full : c.maxBufLen - c.dataPos < toInt64 c.payloadLen
  · have turn : calcRestSize c = _ := (if_pos state).trans (if_pos full)
    rw [fromCalc, turn, Turn.again_andThen]
    -- what is left is moved to the front
    have moved : Sane { c with dataPos := c.dataPos - c.prevDataPos, prevDataPos := 0 } := by
      have upper := sane.inside
      exact ⟨le_rfl, by simp only; omega, by simp only; omega, sane.int64⟩
    set c₁ := { c with
      buffer := write c.buffer 0 (slice c.buffer c.prevDataPos (c.dataPos - c.prevDataPos).toNat)
      dataPos := c.dataPos - c.prevDataPos
      prevDataPos := 0
      state := .readData } with hc₁
    have sane₁ : Sane c₁ := ⟨moved.nonneg, moved.le, moved.inside, moved.int64⟩
    have keeps : left c₁ = left c := by rw [left, left, hc₁, sub_zero]
    exact .after ⟨sane₁, keeps.le, rfl, rfl⟩ (readData_parsed sane₁ rfl)
  · have turn : calcRestSize c = .again { c with state := .readData } :=
      (if_pos state).trans (if_neg full)
    rw [fromCalc, turn, Turn.again_andThen]
    have next : Advances c { c with state := .readData } :=
      advances_of_consume sane le_rfl (by omega) rfl (by simp) rfl rfl
    exact .after next (readData_parsed next.sane rfl)

theorem fromCalc_skips (state : c.state = .readData) : fromCalc c = readData c := by
  have skip : calcRestSize c = .again c := if_neg (by simp [state])
  rw [fromCalc, skip, Turn.again_andThen]

theorem fromMasking_parsed (sane : Sane c) (state : c.state = .parseMasking) :
    Parsed c (fromMasking c) := by
  have le := sane.le
  by_cases mask : c.head.mask = true
  · by_cases there : 4 ≤ c.dataPos - c.prevDataPos
    · have turn : parseMasking c = _ := (if_pos state).trans ((if_pos mask).trans (if_pos there))
      rw [fromMasking, turn, Turn.again_andThen]
      have next : Advances c { c with
          maskingKey := Key.ofBytes (slice c.buffer c.prevDataPos 4)
          prevDataPos := c.prevDataPos + 4
          state := .calcRestSize } :=
        advances_of_consume sane (n := 4) (by omega) there rfl rfl rfl rfl
      exact .after next (fromCalc_parsed next.sane rfl)
    · have turn : parseMasking c = .leave (1, c) :=
        (if_pos state).trans ((if_pos mask).trans (if_neg there))
      rw [fromMasking, turn, Turn.leave_andThen]
      apply Parsed.leaves (.refl sane)
      rw [state]
      exact nofun
  · have turn : parseMasking c = .again { c with state := .calcRestSize } :=
      (if_pos state).trans (if_neg mask)
    rw [fromMasking, turn, Turn.again_andThen]
    have next : Advances c { c with state := .calcRestSize } :=
      advances_of_consume sane le_rfl (by omega) rfl (by simp) rfl rfl
    exact .after next (fromCalc_parsed next.sane rfl)

theorem fromMasking_skips (state : c.state = .calcRestSize ∨ c.state = .readData) :
    fromMasking c = fromCalc c := by
  have skip : parseMasking c = .again c := if_neg (by rcases state with h | h <;> simp [h])
  rw [fromMasking, skip, Turn.again_andThen]

/-- With its extended length incomplete, a turn does nothing. -/
theorem fromLen_stuck (stuck : Stuck c) : fromLen c = .again c := by
  obtain ⟨state, short⟩ := stuck
  have stay : parsePayloadLen c = .again c := by
    rw [parsePayloadLen, if_pos state]
    obtain ⟨medium, short⟩ | ⟨long, short⟩ := short
    · rw [if_pos medium, if_neg (by omega)]
    · rw [if_neg (by rw [long]; decide), if_pos long, if_neg (by omega)]
  have skip₃ : parseMasking c = .again c := if_neg (by simp [state])
  have skip₄ : calcRestSize c = .again c := if_neg (by simp [state])
  have skip₅ : readData c = .again c := if_neg (by simp [state])
  simp only [fromLen, fromMasking, fromCalc, stay, skip₃, skip₄, skip₅, Turn.again_andThen]

theorem fromLen_parsed (sane : Sane c) (state : c.state = .parsePayloadLen) (stuck : ¬ Stuck c) :
    Parsed c (fromLen c) := by
  have le := sane.le
  -- how the length is read, and how many bytes that takes
  have parses : ∃ n : ℤ, ∃ len : ℕ, 0 ≤ n ∧ n ≤ c.dataPos - c.prevDataPos ∧
      parsePayloadLen c = .again { c with
        payloadLen := len, prevDataPos := c.prevDataPos + n, state := .parseMasking } := by
    rw [parsePayloadLen, if_pos state]
    simp only [Stuck, state, true_and, not_or, not_and, not_lt] at stuck
    by_cases medium : c.head.payloadLen = 126
    · rw [if_pos medium, if_pos (stuck.1 medium)]
      exact ⟨2, _, by omega, stuck.1 medium, rfl⟩
    · rw [if_neg medium]
      by_cases long : c.head.payloadLen = 127
      · rw [if_pos long, if_pos (stuck.2 long)]
        exact ⟨8, _, by omega, stuck.2 long, rfl⟩
      · rw [if_neg long]
        exact ⟨0, c.head.payloadLen, le_rfl, by omega, by rw [add_zero]⟩
  obtain ⟨n, len, nonneg, there, turn⟩ := parses
  rw [fromLen, turn, Turn.again_andThen]
  have next : Advances c { c with
      payloadLen := len, prevDataPos := c.prevDataPos + n, state := .parseMasking } :=
    advances_of_consume sane nonneg there rfl rfl rfl rfl
  exact .after next (fromMasking_parsed next.sane rfl)

theorem fromLen_skips (state : c.state ≠ .parsePayloadLen) : fromLen c = fromMasking c := by
  have skip : parsePayloadLen c = .again c := if_neg state
  rw [fromLen, skip, Turn.again_andThen]

theorem parseTurn_skips (state : c.state ≠ .readPayloadLen) : parseTurn c = fromLen c := by
  have skip : readPayloadLen c = .again c := if_neg state
  rw [parseTurn, skip, Turn.again_andThen]

theorem parseTurn_parsed (sane : Sane c) (state : c.state ≠ .readPayloadLen)
    (proc : c.state ≠ .procMsg) (stuck : ¬ Stuck c) : Parsed c (parseTurn c) := by
  rw [parseTurn_skips state]
  by_cases atLen : c.state = .parsePayloadLen
  · exact fromLen_parsed sane atLen stuck
  rw [fromLen_skips atLen]
  by_cases atMasking : c.state = .parseMasking
  · exact fromMasking_parsed sane atMasking
  by_cases atCalc : c.state = .calcRestSize
  · rw [fromMasking_skips (.inl atCalc)]
    exact fromCalc_parsed sane atCalc
  have atData : c.state = .readData := by
    cases h : c.state <;> simp_all
  rw [fromMasking_skips (.inr atData), fromCalc_skips atData]
  exact readData_parsed sane atData

/-- Between two frames: the header is not there yet, or two bytes are parsed. -/
theorem parseTurn_fresh (sane : Sane c) (state : c.state = .readPayloadLen) :
    parseTurn c = .leave (1, c) ∨ ∃ c₁, Advances c c₁ ∧ left c₁ + 2 ≤ left c ∧
      (Stuck c₁ ∧ parseTurn c = .again c₁ ∨ Parsed c₁ (parseTurn c)) := by
  by_cases short : c.dataPos - c.prevDataPos < 2
  · left
    have turn : readPayloadLen c = .leave (1, c) := (if_pos state).trans (if_pos short)
    rw [parseTurn, turn, Turn.leave_andThen]
  · right
    have turn : readPayloadLen c = _ := (if_pos state).trans (if_neg short)
    rw [parseTurn, turn, Turn.again_andThen]
    have next : Advances c { c with
        head := Head.ofBytes (c.buffer c.prevDataPos) (c.buffer (c.prevDataPos + 1))
        prevDataPos := c.prevDataPos + 2
        state := .parsePayloadLen } :=
      advances_of_consume sane (n := 2) (by omega) (by omega) rfl rfl rfl rfl
    refine ⟨_, next, ?_, ?_⟩
    · simp only [left]
      omega
    · by_cases stuck : Stuck { c with
          head := Head.ofBytes (c.buffer c.prevDataPos) (c.buffer (c.prevDataPos + 1))
          prevDataPos := c.prevDataPos + 2
          state := .parsePayloadLen }
      · exact .inl ⟨stuck, fromLen_stuck stuck⟩
      · exact .inr (fromLen_parsed next.sane rfl stuck)

/-- `if (state == PROC_MSG)`: one more packet is in the log, and the cursor moves by its length. -/
theorem procMsg_delivers (state : c.state = .procMsg) : ∃ c' p, procMsg c = .again c' ∧
    c'.state = .readPayloadLen ∧ c'.dataPos = c.dataPos ∧ c'.maxBufLen = c.maxBufLen ∧
    c'.prevDataPos = wrapInt64 (c.prevDataPos + c.payloadLen) ∧
    c'.packets = c.packets ++ [p] ∧ p.payloadLen = c.payloadLen := by
  obtain ⟨buffer, head, toClose, sendQueue, msgs, eq, -⟩ :=
    doProcPkg_fields { c with state := .readPayloadLen }
  have turn : procMsg c = _ := if_pos state
  simp only [eq] at turn
  exact ⟨_, _, turn, rfl, rfl, rfl, rfl, rfl, rfl⟩

/-- The payload lies in the buffer exactly if the test in `READ_DATA` was made with its own length. -/
theorem Whole.inside_iff (whole : Whole c) (sane : Sane c) : Inside c ↔ c.payloadLen < 2 ^ 63 := by
  have upper := sane.inside
  have int64 := sane.int64
  constructor
  · intro inside
    have received := inside.received
    have lower := inside.nonneg
    omega
  · intro small
    have arrived := whole.arrived
    rw [toInt64_of_lt small] at arrived
    exact ⟨sane.nonneg, by omega, upper⟩

end Blocks

structure Good (c : Conn) : Prop where
  sane : Sane c
  state : c.state ≠ .procMsg

def weight (c : Conn) : ℕ := 2 * left c + if c.state = .readPayloadLen then 0 else 1

/-- How a turn goes: bytes are missing, the length of a frame is not there yet, or a packet is
delivered. -/
inductive Turned (c : Conn) : Turn Conn (ℤ × Conn) → Prop
  | leaves {c' : Conn} : Good c' → c'.packets = c.packets → Turned c (.leave (1, c'))
  | stuck {c' : Conn} : Good c' → c'.packets = c.packets → Stuck c' →
      (Stuck c ∧ c' = c ∨ weight c' < weight c) → Turned c (.again c')
  | delivers {c' : Conn} {p : Packet} : c'.packets = c.packets ++ [p] →
      (p.payloadLen < 2 ^ 63 → Good c' ∧ weight c' < weight c) → Turned c (.again c')

section Turns

variable {c c' c₁ : Conn} {chunk : List UInt8} {max : ℤ}

/-- The end of a turn that has got past the length of its frame. -/
theorem turned_of_parsed (first : Advances c c₁) (parsed : Parsed c₁ (parseTurn c))
    (lower : 2 * left c₁ < weight c) : Turned c (readTurn c) := by
  rw [readTurn_eq]
  cases h : parseTurn c with
  | leave r =>
    rw [h] at parsed
    obtain ⟨next, state⟩ := parsed
    rw [Turn.leave_andThen]
    exact .leaves ⟨next.sane, state⟩ (next.packets.trans first.packets)
  | undefined =>
    rw [h] at parsed
    cases parsed
  | again c₂ =>
    rw [h] at parsed
    cases parsed with
    | whole next whole =>
      obtain ⟨c', p, turn, state, dataPos, max, prev, packets, len⟩ := procMsg_delivers whole.state
      have inside := whole.inside_iff next.sane
      rw [Turn.again_andThen, turn]
      refine .delivers (p := p) ?_ fun small => ?_
      · rw [packets, next.packets, first.packets]
      · rw [len] at small
        have received := (inside.mpr small).received
        have nonneg := next.sane.nonneg
        have upper := next.sane.inside
        have int64 := next.sane.int64
        rw [wrapInt64_of_lt (by omega) (by omega)] at prev
        refine ⟨⟨⟨by omega, by omega, by omega, by omega⟩, ?_⟩, ?_⟩
        · rw [state]
          exact nofun
        · have le := next.left
          rw [weight, if_pos state]
          simp only [left] at le lower ⊢
          omega

theorem readTurn_stuck (stuck : Stuck c) : readTurn c = .again c := by
  have skip : procMsg c = .again c := if_neg (by rw [stuck.1]; exact nofun)
  rw [readTurn_eq, parseTurn_skips (by rw [stuck.1]; exact nofun), fromLen_stuck stuck,
    Turn.again_andThen, skip]

theorem readTurn_turned (good : Good c) : Turned c (readTurn c) := by
  by_cases stuck : Stuck c
  · rw [readTurn_stuck stuck]
    exact .stuck good rfl stuck (.inl ⟨stuck, rfl⟩)
  by_cases fresh : c.state = .readPayloadLen
  · have full : weight c = 2 * left c := by rw [weight, if_pos fresh, add_zero]
    obtain leaves | ⟨c₁, next, two, ⟨short, turn⟩ | parsed⟩ := parseTurn_fresh good.sane fresh
    · rw [readTurn_eq, leaves, Turn.leave_andThen]
      exact .leaves good rfl
    · have skip : procMsg c₁ = .again c₁ := if_neg (by rw [short.1]; exact nofun)
      rw [readTurn_eq, turn, Turn.again_andThen, skip]
      refine .stuck ⟨next.sane, by rw [short.1]; exact nofun⟩ next.packets short (.inr ?_)
      rw [full, weight, if_neg (by rw [short.1]; exact nofun)]
      omega
    · apply turned_of_parsed next parsed
      omega
  · apply turned_of_parsed (.refl good.sane) (parseTurn_parsed good.sane fresh good.state stuck)
    rw [weight, if_neg fresh]
    omega

/-- The payload that is handed over in a turn lies in the buffer exactly if its length is positive as
an `int64_t`. -/
theorem handed_inside_iff (good : Good c) (handed : Handed c c₁) :
    Inside c₁ ↔ c₁.payloadLen < 2 ^ 63 := by
  obtain ⟨turn, proc⟩ := handed
  have of_parsed : ∀ c₀, Parsed c₀ (parseTurn c) → (Inside c₁ ↔ c₁.payloadLen < 2 ^ 63) := by
    intro c₀ parsed
    rw [turn] at parsed
    cases parsed with
    | whole next whole => exact whole.inside_iff next.sane
  have off : ∀ c₂, Stuck c₂ → parseTurn c ≠ .again c₂ := by
    rintro c₂ ⟨state, -⟩ same
    cases turn.symm.trans same
    rw [proc] at state
    cases state
  by_cases fresh : c.state = .readPayloadLen
  · obtain leaves | ⟨c₀, -, -, ⟨short, same⟩ | parsed⟩ := parseTurn_fresh good.sane fresh
    · cases turn.symm.trans leaves
    · exact absurd same (off c₀ short)
    · exact of_parsed c₀ parsed
  · by_cases stuck : Stuck c
    · rw [parseTurn_skips fresh, fromLen_stuck stuck] at turn
      cases turn
      cases stuck.1.symm.trans proc
    · exact of_parsed c (parseTurn_parsed good.sane fresh good.state stuck)

end Turns

section Loops

variable {c c' c₁ : Conn} {r : ℤ × Conn} {chunk : List UInt8}

theorem readTurn_packets (c : Conn) : (readTurn c).Meets (fun c' => c.packets <+: c'.packets)
    fun r => c.packets <+: r.2.packets := by
  have keep : ∀ (block : Block) (s : Conn), c.packets <+: s.packets →
      (block s).Meets (fun c' => c'.packets = s.packets) (fun r => r.2.packets = s.packets) →
      (block s).Meets (fun c' => c.packets <+: c'.packets) fun r => c.packets <+: r.2.packets := by
    intro block s before same
    cases h : block s with
    | again s' =>
      rw [h] at same
      have log : s'.packets = s.packets := same
      change c.packets <+: s'.packets
      rwa [log]
    | leave r =>
      rw [h] at same
      have log : r.2.packets = s.packets := same
      change c.packets <+: r.2.packets
      rwa [log]
    | undefined => trivial
  rw [readTurn]
  apply Turn.Meets.andThen (keep readPayloadLen c List.prefix_rfl ?_)
  · intro s before
    apply Turn.Meets.andThen (keep parsePayloadLen s before ?_)
    · intro s before
      apply Turn.Meets.andThen (keep parseMasking s before ?_)
      · intro s before
        apply Turn.Meets.andThen (keep calcRestSize s before ?_)
        · intro s before
          apply Turn.Meets.andThen (keep readData s before ?_)
          · intro s before
            by_cases state : s.state = .procMsg
            · obtain ⟨s', p, turn, -, -, -, -, packets, -⟩ := procMsg_delivers state
              rw [turn]
              change _ <+: s'.packets
              rw [packets]
              exact before.trans (List.prefix_append _ _)
            · rw [procMsg, if_neg state]
              exact before
          · unfold readData
            split_ifs <;> exact rfl
        · unfold calcRestSize
          split_ifs <;> exact rfl
      · unfold parseMasking
        split_ifs <;> exact rfl
    · unfold parsePayloadLen
      split_ifs <;> exact rfl
  · unfold readPayloadLen
    split_ifs <;> exact rfl

theorem Fits.of_prefix (fits : Fits c') (before : c.packets <+: c'.packets) : Fits c :=
  fun p hp => fits p (before.subset hp)

theorem again_packets (turn : readTurn c = .again c') : c.packets <+: c'.packets := by
  have packets := readTurn_packets c
  rwa [turn] at packets

/-- As long as the lengths are positive, the connection stays good. -/
theorem again_good (good : Fits c → Good c) (turn : readTurn c = .again c') (fits : Fits c') :
    Good c' := by
  have turned := readTurn_turned (good (fits.of_prefix (again_packets turn)))
  rw [turn] at turned
  cases turned with
  | stuck next => exact next
  | delivers packets next =>
    apply (next _).1
    apply fits
    rw [packets]
    simp

theorem reaches_good (good : Fits c → Good c) (reach : Loop.Reaches readTurn c c') :
    Fits c' → Good c' :=
  Loop.Reaches.invariant good (fun _ _ => again_good) reach

theorem returns_good (good : Fits c → Good c) (returns : Loop.Returns readTurn c r) :
    Fits r.2 → Good r.2 := by
  apply returns.post (fun s => Fits s → Good s) (fun r => Fits r.2 → Good r.2) good fun _ _ => again_good
  intro s t inv turn fits
  have packets := readTurn_packets s
  rw [turn] at packets
  have turned := readTurn_turned (inv (fits.of_prefix packets))
  rw [turn] at turned
  cases turned with
  | leaves next => exact next

theorem Good.receive (good : Good c) (room : chunk.length ≤ c.maxBufLen - c.dataPos) :
    Good (receive c chunk) :=
  ⟨(good.sane.receive room).2, good.state⟩

theorem returns_packets (returns : Loop.Returns readTurn c r) : c.packets <+: r.2.packets := by
  apply returns.post (fun s => c.packets <+: s.packets) (fun r => c.packets <+: r.2.packets) List.prefix_rfl
  · exact fun _ _ before turn => before.trans (again_packets turn)
  · intro s t before turn
    have packets := readTurn_packets s
    rw [turn] at packets
    exact before.trans packets

end Loops

section Runs

variable {max : UInt32} {c c' : Conn} {chunk : List UInt8}

theorem init_good (max : UInt32) : Good (Conn.init max.toNat) := by
  have lt := max.toNat_lt
  refine ⟨⟨le_rfl, le_rfl, ?_, ?_⟩, nofun⟩
  · simp [Conn.init]
  · simp only [Conn.init]
    omega

theorem Reached.good (reached : Reached max.toNat c) : Fits c → Good c := by
  induction reached with
  | init => exact fun _ => init_good max
  | write sendQueue toClose _ ih =>
    intro fits
    obtain ⟨sane, state⟩ := ih fits
    exact ⟨⟨sane.nonneg, sane.le, sane.inside, sane.int64⟩, state⟩
  | read before read ih =>
    cases read with
    | full | failed | interrupted | closed => exact ih
    | data some room returns =>
      intro fits
      have packets := returns_packets returns
      exact returns_good (fun _ => (ih (fits.of_prefix packets)).receive room) returns fits

theorem Reached.turn (reached : Reached max.toNat c) (room : chunk.length ≤ c.maxBufLen - c.dataPos)
    (reach : Loop.Reaches readTurn (receive c chunk) c') (fits : Fits c') : Good c' := by
  have start : Fits (receive c chunk) → Good (receive c chunk) := fun before =>
    (reached.good before).receive room
  exact reaches_good start reach fits

/-- After every `do_read` the cursors are in order, and every payload that is handed over lies in the
received part of the buffer, as long as the lengths are positive as an `int64_t`; the first one that
is not does not lie there. -/
theorem bounds_iff (reached : Reached max.toNat c) :
    (Fits c → 0 ≤ c.prevDataPos ∧ c.prevDataPos ≤ c.dataPos ∧ c.dataPos ≤ c.maxBufLen) ∧
      ∀ chunk c' c₁, (chunk.length : ℤ) ≤ c.maxBufLen - c.dataPos →
        Loop.Reaches readTurn (receive c chunk) c' → Fits c' → Handed c' c₁ →
          (Inside c₁ ↔ c₁.payloadLen < 2 ^ 63) := by
  constructor
  · intro fits
    have sane := (reached.good fits).sane
    exact ⟨sane.nonneg, sane.le, sane.inside⟩
  · intro chunk c' c₁ room reach fits handed
    exact handed_inside_iff (reached.turn room reach fits) handed

/-- Where the lengths are positive as an `int64_t`, the loop of a `do_read` ends exactly if it comes
to no turn without the extended length of its frame; that turn does nothing, and no other one. -/
theorem terminates_iff (reached : Reached max.toNat c) (room : chunk.length ≤ c.maxBufLen - c.dataPos)
    (fits : ∀ c', Loop.Reaches readTurn (receive c chunk) c' → Fits c') :
    ((∃ r, Loop.Returns readTurn (receive c chunk) r) ↔
      ∀ c', Loop.Reaches readTurn (receive c chunk) c' → ¬ Stuck c') ∧
    ∀ c', Loop.Reaches readTurn (receive c chunk) c' → (readTurn c' = .again c' ↔ Stuck c') := by
  constructor
  · have start : Good (receive c chunk) := reached.turn room .start (fits _ .start)
    rw [← Loop.returns_iff_ok (fun i s => weight s = i ∧ Good s ∧ ∀ s', Loop.Reaches readTurn s s' → Fits s')
      (fun s => ¬ Stuck s) (fun _ => True) ?_ ?_ _ _ ⟨rfl, start, fits⟩]
    · simp only [and_true]
    · rintro _ s ⟨rfl, good, all⟩ free
      have turned := readTurn_turned good
      cases turn : readTurn s with
      | leave r => exact .inl ⟨r, rfl, trivial⟩
      | undefined =>
        rw [turn] at turned
        cases turned
      | again s' =>
        right
        have later : ∀ s'', Loop.Reaches readTurn s' s'' → Fits s'' := fun s'' reach =>
          all s'' (reach.of_again turn)
        rw [turn] at turned
        cases turned with
        | stuck next packets stuck lower =>
          exact ⟨_, s', rfl, ⟨rfl, next, later⟩, lower.resolve_left fun same => free same.1⟩
        | delivers packets next =>
          obtain ⟨good', lower⟩ := next (later s' .start _ (by rw [packets]; simp))
          exact ⟨_, s', rfl, ⟨rfl, good', later⟩, lower⟩
    · rintro _ s t - stuck returns -
      have stands : Loop.Diverges readTurn s := by
        apply Loop.diverges_of_invariant (fun s' => s' = s) _ s rfl
        rintro s' rfl
        exact ⟨s', readTurn_stuck (not_not.mp stuck), rfl⟩
      exact stands.not_returns returns
  · intro c' reach
    refine ⟨fun same => ?_, readTurn_stuck⟩
    have turned := readTurn_turned (reached.turn room reach (fits c' reach))
    rw [same] at turned
    cases turned with
    | stuck _ _ stuck _ => exact stuck
    | delivers packets _ => simp at packets

/-- A text frame of one byte, in one chunk. -/
def helloChunk : List UInt8 := [0x81, 1, 7]

/-- Its payload is handed over in the first turn, and lies in the buffer. -/
theorem bounds_hello : ∃ c₁, Handed (receive (Conn.init 1024) helloChunk) c₁ ∧ Inside c₁ := by
  have handed : ∃ c₁, Handed (receive (Conn.init 1024) helloChunk) c₁ ∧ c₁.payloadLen < 2 ^ 63 :=
    ⟨_, ⟨rfl, rfl⟩, by decide⟩
  obtain ⟨c₁, handed, small⟩ := handed
  have reached : Reached (UInt32.toNat 1024) (Conn.init 1024) := .init
  refine ⟨c₁, handed, ?_⟩
  exact ((bounds_iff reached).2 helloChunk _ c₁ (by decide) .start nofun handed).mpr small

/-- A frame with the 64-bit length 2^63: the reader hands it over with no byte of its payload. -/
def hugeChunk : List UInt8 := [0x82, 0x7F, 0x80, 0, 0, 0, 0, 0, 0, 0]

theorem huge_not_inside : Reached (UInt32.toNat 1024) (Conn.init 1024) ∧
    ∃ c₁, Handed (receive (Conn.init 1024) hugeChunk) c₁ ∧ ¬ Inside c₁ := by
  have handed : ∃ c₁, Handed (receive (Conn.init 1024) hugeChunk) c₁ ∧ c₁.payloadLen = 2 ^ 63 ∧
      c₁.dataPos = 10 :=
    ⟨_, ⟨rfl, rfl⟩, by decide, by decide⟩
  obtain ⟨c₁, handed, len, dataPos⟩ := handed
  refine ⟨.init, c₁, handed, fun inside => ?_⟩
  have received := inside.received
  have nonneg := inside.nonneg
  omega

theorem terminates_hello : ∃ r, Loop.Returns readTurn (receive (Conn.init 1024) helloChunk) r := by
  have turns : ∃ c₁ r, readTurn (receive (Conn.init 1024) helloChunk) = .again c₁ ∧ Fits c₁ ∧
      ¬ Stuck c₁ ∧ readTurn c₁ = .leave r := by
    refine ⟨_, _, rfl, ?_, ?_, rfl⟩
    · intro p hp
      obtain rfl := List.mem_singleton.mp hp
      decide
    · exact fun stuck => absurd stuck.1 nofun
  obtain ⟨c₁, r, first, fits, free, second⟩ := turns
  have reached : Reached (UInt32.toNat 1024) (Conn.init 1024) := .init
  have two : ∀ c', Loop.Reaches readTurn (receive (Conn.init 1024) helloChunk) c' →
      c' = receive (Conn.init 1024) helloChunk ∨ c' = c₁ := by
    intro c' reach
    obtain same | ⟨c₂, turn, rest⟩ := reach.first
    · exact .inl same
    · cases first.symm.trans turn
      obtain same | ⟨c₃, turn', -⟩ := rest.first
      · exact .inr same
      · cases second.symm.trans turn'
  refine (terminates_iff reached (by decide) ?_).1.mpr ?_
  · intro c' reach
    obtain rfl | rfl := two c' reach
    · exact nofun
    · exact fits
  · intro c' reach
    obtain rfl | rfl := two c' reach
    · exact fun stuck => absurd stuck.1 nofun
    · exact free

/-- The two header bytes of a frame with a 16-bit length. -/
def cutChunk : List UInt8 := [0x82, 0xFE]

theorem cut_length_diverges : Reached (UInt32.toNat 1024) (Conn.init 1024) ∧
    ¬ ∃ r, Loop.Returns readTurn (receive (Conn.init 1024) cutChunk) r := by
  refine ⟨.init, fun ⟨r, returns⟩ => ?_⟩
  have first : ∃ c', readTurn (receive (Conn.init 1024) cutChunk) = .again c' ∧ Stuck c' :=
    ⟨_, rfl, rfl, .inl (by decide)⟩
  obtain ⟨c', turn, stuck⟩ := first
  rw [Loop.returns_again turn] at returns
  have stands : Loop.Diverges readTurn c' := by
    apply Loop.diverges_of_invariant (fun s => s = c') _ c' rfl
    rintro s rfl
    exact ⟨s, readTurn_stuck stuck, rfl⟩
  exact stands.not_returns returns

/-- A frame whose 64-bit length is 2^64 - 10, without opcode: the cursor goes back to its start. -/
def rewoundChunk : List UInt8 := [0, 0x7F, 0xFF, 0xFF, 0xFF, 0xFF, 0xFF, 0xFF, 0xFF, 0xF6]

/-- A frame without opcode changes nothing but the cursor and the log. -/
theorem procMsg_divided (state : c.state = .procMsg) (opcode : c.head.opcode = 0x0) :
    ∃ c', procMsg c = .again c' ∧ c'.buffer = c.buffer ∧ c'.dataPos = c.dataPos ∧
      c'.prevDataPos = wrapInt64 (c.prevDataPos + c.payloadLen) ∧ c'.state = .readPayloadLen ∧
      c'.maxBufLen = c.maxBufLen := by
  have other : c.head.opcode ≠ 0x9 := by
    rw [opcode]
    decide
  rw [procMsg, if_pos state, doProcPkg]
  simp only
  rw [if_neg other, if_pos (.inl opcode)]
  exact ⟨_, rfl, rfl, rfl, rfl, rfl, rfl⟩

structure Rewound (c : Conn) : Prop where
  buffer : c.buffer = (receive (Conn.init 1024) rewoundChunk).buffer
  dataPos : c.dataPos = 10
  prev : c.prevDataPos = 0
  state : c.state = .readPayloadLen
  max : c.maxBufLen = 1024

theorem Rewound.parse (rewound : Rewound c) : ∃ c₁, parseTurn c = .again c₁ ∧
    c₁.buffer = c.buffer ∧ c₁.dataPos = 10 ∧ c₁.prevDataPos + c₁.payloadLen = 2 ^ 64 ∧
    c₁.state = .procMsg ∧ c₁.maxBufLen = 1024 ∧ c₁.head.opcode = 0x0 := by
  obtain ⟨buffer, dataPos, prev, state, max⟩ := rewound
  have head : Head.ofBytes (c.buffer c.prevDataPos) (c.buffer (c.prevDataPos + 1)) =
      ⟨0, 0, false, 127, false⟩ := by
    rw [buffer, prev]
    decide
  have len : beNat (slice c.buffer (c.prevDataPos + 2) 8) = 2 ^ 64 - 10 := by
    rw [buffer, prev]
    decide
  have negative : toInt64 (2 ^ 64 - 10) = -10 := by decide
  have read : readPayloadLen c = .again { c with
      head := ⟨0, 0, false, 127, false⟩, prevDataPos := c.prevDataPos + 2, state := .parsePayloadLen } := by
    rw [readPayloadLen, if_pos state, if_neg (by omega), head]
  rw [parseTurn, read, Turn.again_andThen, fromLen, parsePayloadLen]
  simp only [if_true]
  rw [if_neg (by decide), if_pos (by omega), len, Turn.again_andThen, fromMasking, parseMasking]
  simp only [if_true]
  rw [if_neg (by decide), Turn.again_andThen, fromCalc, calcRestSize]
  simp only [if_true]
  rw [negative, if_neg (by omega), Turn.again_andThen, readData]
  simp only [if_true]
  rw [negative, if_neg (by omega)]
  refine ⟨_, rfl, rfl, dataPos, ?_, rfl, max, rfl⟩
  rw [prev]
  norm_num

/-- Without a stuck turn the loop does not end either. -/
theorem rewound_length_diverges :
    Loop.Diverges readTurn (receive (Conn.init 1024) rewoundChunk) := by
  apply Loop.diverges_of_invariant Rewound _ _ ⟨rfl, rfl, rfl, rfl, rfl⟩
  intro s rewound
  obtain ⟨c₁, turn, buffer, dataPos, sum, state, max, opcode⟩ := rewound.parse
  obtain ⟨c₂, proc, buffer', dataPos', prev, state', max'⟩ := procMsg_divided state opcode
  refine ⟨c₂, ?_, ?_, dataPos'.trans dataPos, ?_, state', max'.trans max⟩
  · rw [readTurn_eq, turn, Turn.again_andThen, proc]
  · rw [buffer', buffer, rewound.buffer]
  · rw [prev, sum]
    decide

end Runs

end Conet.Svrkit.WebsocketBounds
