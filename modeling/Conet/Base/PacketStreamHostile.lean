/- Module: Conet/Base/PacketStreamHostile
   source: base/src/net_tool.cpp, base/net_tool.h
   digest: next_packet and read_packet on lengths that a peer chooses. -/

import Conet.Base.NetToolRead

set_option autoImplicit false
set_option relaxedAutoImplicit false

namespace Conet.Base.PacketStreamHostile

open Conet.Lib Conet.Lib.Frame Conet.Base.Pbc Conet.Base.NetTool Conet.Base.NetToolRead

structure Sane (s : PacketStream) : Prop where
  start : 0 ≤ s.prevPos
  le : s.prevPos ≤ s.totalLen
  fits : s.totalLen ≤ s.maxSize

/-- A packet of some bytes, which follow the length of the first frame and have all been
received. -/
structure Whole (mem : ℤ → UInt8) (pack : ℤ × ℤ) (bytes : List UInt8) : Prop where
  some : 0 < pack.2
  received : 4 + pack.2 ≤ bytes.length
  payload : slice mem pack.1 pack.2.toNat = (bytes.drop 4).take pack.2.toNat

/-- A call of `next_packet` is defined, keeps the cursors in order and returns whole packets
only. -/
def NextOk (s : PacketStream) (bs : List UInt8) : Prop :=
  ∃ ret s' pack, nextPacket s = some (ret, s', pack) ∧ Sane s' ∧
    (ret = 0 → ∃ p, pack = some p ∧ Whole s'.mem p bs)

/-- The same of a call of `read_packet`. -/
structure ReadOk (out : ReadOut) (bs : List UInt8) : Prop where
  defined : out.outcome ≠ .undefined
  sane : Sane out.stream
  whole : out.outcome = .returned 1 →
    ∃ p, out.pack = some p ∧ Whole out.stream.mem p (bs ++ out.got)

def NextAccepts (s : PacketStream) : Prop := ∃ s' pack, nextPacket s = some (0, s', pack)

/-- What `next_packet` and `read_packet` promise for the bytes `bs` of a stream: each takes the frame
that the other takes, and both keep the stream in order, whatever else is received. -/
structure Conforms (o : Overload) (s : PacketStream) (bs : List UInt8) (script : List Attempt) :
    Prop where
  agrees : NextAccepts s ↔ (o.read s []).outcome = .returned 1
  next : NextOk s bs
  read : ReadOk (o.read s script) bs

/-- Bytes that `read_packet` takes for an http request. -/
def Http (s : PacketStream) (bs : List UInt8) : Prop :=
  s.isHttp = true ∧ bs.head?.any isAlpha = true

instance (s : PacketStream) (bs : List UInt8) : Decidable (Http s bs) :=
  inferInstanceAs (Decidable (_ ∧ _))

/-- `got` is received with the system calls up to the `recv` that completes the length. -/
inductive Arrives (r : Reader) (maxSize : ℤ) :
    Bool → List UInt8 → List Attempt → List UInt8 → Prop
  | here {hasData : Bool} {bs : List UInt8} {script : List Attempt} :
    4 ≤ bs.length → Arrives r maxSize hasData bs script []
  | more {hasData : Bool} {bs chunk got : List UInt8} {a : Attempt} {script : List Attempt} :
    bs.length < 4 → r.read hasData a = .data chunk → bs.length + chunk.length ≤ maxSize →
    r.late a = false → Arrives r maxSize false (bs ++ chunk) script got →
    Arrives r maxSize hasData bs (a :: script) (chunk ++ got)

/-- The lengths that do no harm: the buffered one is neither 0 nor so large that the sum with 4 wraps
around, the one that arrives is not among the last four positive values of an `int`, and no http
request is in the place of a length. -/
structure Harmless (o : Overload) (s : PacketStream) (bs : List UInt8) (script : List Attempt) :
    Prop where
  low : 4 + s.prevPos < 2 ^ 31
  length : 4 ≤ bs.length → 0 < announced bs ∧ announced bs + 4 < 2 ^ 32
  binary : Http s bs → bs.length < announced bs + 4
  arriving : ∀ got, Arrives o.reader s.maxSize o.hasData bs script got →
    if Http s (bs ++ got) then (got.length : ℤ) ≤ s.prevPos
    else announced (bs ++ got) + 4 < 2 ^ 31 ∨ 2 ^ 31 ≤ announced (bs ++ got)

section Arrives

variable {r : Reader} {maxSize : ℤ} {hasData : Bool} {script script' : List Attempt} {b b' : Buffer}
  {bs got : List UInt8}

/-- The first loop of `read_packet` ends with the length in the buffer. -/
theorem arrives_of_full (holds : Holds b bs)
    (full : fill r maxSize 4 hasData script b = .full b' script') :
    ∃ got, b'.got = b.got ++ got ∧ Holds b' (bs ++ got) ∧ Arrives r maxSize hasData bs script got := by
  have curLen := holds.curLen
  induction script generalizing hasData b bs with
  | nil =>
    rw [fill] at full
    split at full
    case isTrue enough =>
      obtain ⟨rfl, -⟩ := Fill.full.inj full
      exact ⟨[], by simp, by simpa using holds, .here (by omega)⟩
    case isFalse => cases full
  | cons a script ih =>
    rw [fill] at full
    split at full
    case isTrue enough =>
      obtain ⟨rfl, -⟩ := Fill.full.inj full
      exact ⟨[], by simp, by simpa using holds, .here (by omega)⟩
    case isFalse less =>
      cases read : r.read hasData a with
      | fails ret => simp [read] at full
      | data chunk =>
        simp only [read] at full
        split at full
        case isFalse => cases full
        case isTrue fits =>
          cases late : r.late a with
          | true => simp [late] at full
          | false =>
            simp only [late, Bool.false_eq_true, if_false] at full
            have holds' := holds.write chunk (b.asks ++ [(b.curLen, maxSize - b.curLen)])
              (b.got ++ chunk)
            obtain ⟨got, all, holds, arrives⟩ := ih holds' full holds'.curLen
            refine ⟨chunk ++ got, by simp [all], by simpa using holds, ?_⟩
            exact .more (by omega) read (by omega) late arrives

theorem full_of_arrives (holds : Holds b bs) (arrives : Arrives r maxSize hasData bs script got) :
    ∃ b' script', fill r maxSize 4 hasData script b = .full b' script' ∧ b'.got = b.got ++ got := by
  induction arrives generalizing b with
  | here enough => exact ⟨b, _, fill_enough (by rw [holds.curLen]; omega), by simp⟩
  | @more hasData bs chunk got a script less read fits late _ ih =>
    have curLen := holds.curLen
    obtain ⟨b', script', full, all⟩ := ih (holds.write chunk (b.asks ++ [(b.curLen, maxSize - b.curLen)])
      (b.got ++ chunk))
    refine ⟨b', script', ?_, by simp [all]⟩
    rw [fill, if_neg (by omega)]
    simp only [read, late]
    rw [if_pos (by omega)]
    exact full

end Arrives

section Next

variable {s : PacketStream} {bs : List UInt8}

theorem held_sane (held : Held s bs) : Sane s := by
  have total := held.total
  exact ⟨held.start, by omega, held.fits⟩

theorem nextPacket_eq (held : Held s bs) (small : s.maxSize < 2 ^ 31) (low : 4 + s.prevPos < 2 ^ 31) :
    nextPacket s =
      if bs.length < 4 then some (-1, s, none)
      else if (bs.length : ℤ) < ((announced bs : ℤ) + 4) % 2 ^ 32 then some (-2, s, none)
      else some (0, { s with prevPos := toInt32 (s.prevPos + (announced bs + 4)) },
        some (s.prevPos + 4, toInt32 (announced bs))) := by
  have total := held.total
  have start := held.start
  have fits := held.fits
  rw [nextPacket, if_neg (by omega)]
  by_cases short : bs.length < 4
  · rw [if_pos short, if_pos (by omega)]
  · have count : (s.totalLen - s.prevPos) % 2 ^ 32 = bs.length := by omega
    rw [if_neg short, if_neg (by omega)]
    simp only [count, announced_slice (not_lt.mp short) held.bytes]

theorem payload_slice {mem : ℤ → UInt8} {start : ℤ} {n : ℕ} (le : 4 + n ≤ bs.length)
    (bytes : slice mem start bs.length = bs) : slice mem (start + 4) n = (bs.drop 4).take n := by
  have part := slice_part mem start le
  rw [bytes] at part
  exact part

theorem next_iff (held : Held s bs) (small : s.maxSize < 2 ^ 31) :
    NextOk s bs ↔ 4 + s.prevPos < 2 ^ 31 ∧
      (4 ≤ bs.length → 0 < announced bs ∧ announced bs + 4 < 2 ^ 32) := by
  have total := held.total
  have start := held.start
  have fits := held.fits
  have sane := held_sane held
  have bound := announced_lt bs
  by_cases low : 4 + s.prevPos < 2 ^ 31
  · rw [NextOk, nextPacket_eq held small low]
    split_ifs with short less
    · exact iff_of_true ⟨_, _, _, rfl, sane, by simp⟩ ⟨low, by omega⟩
    · exact iff_of_true ⟨_, _, _, rfl, sane, by simp⟩ ⟨low, by omega⟩
    · constructor
      · rintro ⟨ret, s', pack, called, -, whole⟩
        simp only [Option.some.injEq, Prod.mk.injEq] at called
        obtain ⟨rfl, rfl, rfl⟩ := called
        obtain ⟨p, same, whole⟩ := whole rfl
        obtain rfl := Option.some.inj same
        have some := whole.some
        have received := whole.received
        simp only [toInt32] at some received
        exact ⟨low, by omega⟩
      · rintro ⟨-, length⟩
        have range := length (by omega)
        have len : toInt32 (announced bs) = announced bs := toInt32_of_lt (by omega) (by omega)
        have pos : toInt32 (s.prevPos + (announced bs + 4)) = s.prevPos + (announced bs + 4) :=
          toInt32_of_lt (by omega) (by omega)
        refine ⟨_, _, _, rfl, ⟨?_, ?_, fits⟩, fun _ => ⟨_, rfl, ?_, ?_, ?_⟩⟩
        · simp only [pos]
          omega
        · simp only [pos]
          omega
        · simp only [len]
          omega
        · simp only [len]
          omega
        · simp only [len, Int.toNat_natCast]
          exact payload_slice (by omega) held.bytes
  · refine iff_of_false ?_ (fun h => low h.1)
    rintro ⟨ret, s', pack, called, -⟩
    rw [nextPacket, if_pos (by omega)] at called
    cases called

theorem nextAccepts_iff (held : Held s bs) (small : s.maxSize < 2 ^ 31)
    (low : 4 + s.prevPos < 2 ^ 31) : NextAccepts s ↔
      4 ≤ bs.length ∧ ((announced bs : ℤ) + 4) % 2 ^ 32 ≤ bs.length := by
  rw [NextAccepts, nextPacket_eq held small low]
  split_ifs with short less
  · exact iff_of_false (by simp) (by omega)
  · exact iff_of_false (by simp) (by omega)
  · exact iff_of_true ⟨_, _, rfl⟩ (by omega)

end Next

section Read

variable {o : Overload} {s : PacketStream} {bs got : List UInt8} {script script' : List Attempt}
  {b : Buffer} {hasData : Bool}

theorem Sane.mem (sane : Sane s) (mem : ℤ → UInt8) : Sane { s with mem := mem } :=
  ⟨sane.start, sane.le, sane.fits⟩

theorem Arrives.bounds {r : Reader} {maxSize : ℤ}
    (arrives : Arrives r maxSize hasData bs script got) (le : bs.length ≤ maxSize) :
    4 ≤ (bs ++ got).length ∧ (bs ++ got).length ≤ maxSize := by
  induction arrives with
  | here enough => simpa using ⟨enough, le⟩
  | more _ _ fits _ _ ih =>
    rw [← List.append_assoc]
    apply ih
    simpa using fits

theorem readBody_iff (holds : Holds b (bs ++ got)) (four : 4 ≤ (bs ++ got).length)
    (le : (bs ++ got).length ≤ s.maxSize) (asks : AsksOk s.maxSize b.asks) (all : b.got = got)
    (sane : Sane s) : ReadOk (readBody o.reader s script b) bs ↔
      announced (bs ++ got) + 4 < 2 ^ 31 ∨ 2 ^ 31 ≤ announced (bs ++ got) := by
  have len : announced (slice b.mem 0 4) = announced (bs ++ got) := announced_slice four holds.bytes
  have bound := announced_lt (bs ++ got)
  simp only [readBody, len]
  split_ifs with bad wrap large
  · refine iff_of_true ⟨by simp, sane.mem _, by simp⟩ ?_
    rw [toInt32] at bad
    omega
  · refine iff_of_false (fun ok => ok.defined rfl) ?_
    rw [toInt32] at bad
    omega
  · exact iff_of_true ⟨by simp, sane.mem _, by simp⟩ (by omega)
  · rw [toInt32] at bad
    refine iff_of_true ?_ (by omega)
    have meets : Meets (fill o.reader s.maxSize (announced (bs ++ got) + 4) false script b) _ _ _ :=
      fill_meets holds asks (by omega) (by rw [holds.curLen]; exact le)
    cases second : fill o.reader s.maxSize (announced (bs ++ got) + 4) false script b with
    | impossible => exact ⟨by simp, sane.mem _, by simp⟩
    | waits b' => exact ⟨by simp, sane.mem _, by simp⟩
    | fails ret b' script' => exact ⟨by simp, sane.mem _, by simp⟩
    | full b' script' =>
      rw [second] at meets
      obtain ⟨got', gets, holds', enough, le', -, -, all'⟩ := meets
      have curLen := holds'.curLen
      refine ⟨by simp, ⟨?_, enough, le'⟩, fun _ => ⟨_, rfl, ?_, ?_, ?_⟩⟩
      · simp only
        omega
      · simp only
        omega
      · simp only [all', all, ← List.append_assoc]
        omega
      · simp only [all', all, Int.toNat_natCast, ← List.append_assoc]
        exact payload_slice (by omega) holds'.bytes

theorem read_iff (held : Held s bs) : ReadOk (o.read s script) bs ↔
    ∀ got, Arrives o.reader s.maxSize o.hasData bs script got →
      if Http s (bs ++ got) then (got.length : ℤ) ≤ s.prevPos
      else announced (bs ++ got) + 4 < 2 ^ 31 ∨ 2 ^ 31 ≤ announced (bs ++ got) := by
  rw [Overload.read_eq, readPacketWith]
  obtain ⟨holds, noAsks⟩ := held.compact
  have none : (compact s).got = [] := by
    simp only [compact]
    split <;> rfl
  have sane := held_sane held
  have total := held.total
  have start := held.start
  have fits := held.fits
  cases first : fill o.reader s.maxSize 4 o.hasData script (compact s) with
  | waits b =>
    refine iff_of_true ⟨by simp, sane.mem _, by simp⟩ fun got arrives => ?_
    obtain ⟨b', script', full, -⟩ := full_of_arrives holds arrives
    cases first.symm.trans full
  | impossible =>
    refine iff_of_true ⟨by simp, sane, by simp⟩ fun got arrives => ?_
    obtain ⟨b', script', full, -⟩ := full_of_arrives holds arrives
    cases first.symm.trans full
  | fails ret b script' =>
    refine iff_of_true ⟨by simp, sane.mem _, by simp⟩ fun got arrives => ?_
    obtain ⟨b', script', full, -⟩ := full_of_arrives holds arrives
    cases first.symm.trans full
  | full b script' =>
    obtain ⟨got, all, holds', arrives⟩ := arrives_of_full holds first
    rw [none, List.nil_append] at all
    obtain ⟨four, le⟩ := arrives.bounds (by omega)
    have only : ∀ got', Arrives o.reader s.maxSize o.hasData bs script got' → got' = got := by
      intro got' arrives'
      obtain ⟨b', script'', full, all'⟩ := full_of_arrives holds arrives'
      obtain ⟨rfl, -⟩ := Fill.full.inj (first.symm.trans full)
      rw [all', none, List.nil_append] at all
      exact all
    have head : (bs ++ got).head? = some (b.mem 0) := by
      rw [← holds'.bytes, show (bs ++ got).length = 1 + ((bs ++ got).length - 1) by omega, slice_add]
      simp [slice]
    have letter : (s.isHttp && isAlpha (b.mem 0)) = true ↔ Http s (bs ++ got) := by
      simp [Http, head]
    have arriving : (∀ got, Arrives o.reader s.maxSize o.hasData bs script got →
        if Http s (bs ++ got) then (got.length : ℤ) ≤ s.prevPos
        else announced (bs ++ got) + 4 < 2 ^ 31 ∨ 2 ^ 31 ≤ announced (bs ++ got)) ↔
        if Http s (bs ++ got) then (got.length : ℤ) ≤ s.prevPos
        else announced (bs ++ got) + 4 < 2 ^ 31 ∨ 2 ^ 31 ≤ announced (bs ++ got) :=
      ⟨fun h => h got arrives, fun h got' arrives' => only got' arrives' ▸ h⟩
    rw [arriving]
    simp only [letter]
    split_ifs with http
    · have curLen := holds'.curLen
      rw [List.length_append] at curLen
      constructor
      · rintro ⟨-, ⟨-, le', -⟩, -⟩
        simp only at le'
        omega
      · intro le'
        refine ⟨by simp, ⟨?_, ?_, fits⟩, by simp⟩
        · simp only
          omega
        · simp only
          omega
    · have meets : Meets (fill o.reader s.maxSize 4 o.hasData script (compact s)) _ _ _ :=
        fill_meets holds (by simp [noAsks, AsksOk]) (by omega) (by rw [holds.curLen]; omega)
      rw [first] at meets
      obtain ⟨-, -, -, -, -, asks, -⟩ := meets
      exact readBody_iff holds' four le asks all sane

theorem readAccepts_iff (held : Held s bs) (small : s.maxSize < 2 ^ 31) :
    (o.read s []).outcome = .returned 1 ↔
      ¬ Http s bs ∧ 0 < announced bs ∧ announced bs + 4 ≤ bs.length := by
  rw [Overload.read_eq, readPacketWith]
  obtain ⟨holds, -⟩ := held.compact
  have curLen := holds.curLen
  have total := held.total
  have start := held.start
  have fits := held.fits
  by_cases four : 4 ≤ bs.length
  · have len : announced (slice (compact s).mem 0 4) = announced bs := announced_slice four holds.bytes
    have head : bs.head? = some ((compact s).mem 0) := by
      rw [← holds.bytes, show bs.length = 1 + (bs.length - 1) by omega, slice_add]
      simp [slice]
    have letter : (s.isHttp && isAlpha ((compact s).mem 0)) = true ↔ Http s bs := by
      simp [Http, head]
    rw [fill_enough (by omega)]
    simp only [letter]
    split_ifs with http
    · simp [http]
    · have bound := announced_lt bs
      simp only [readBody, len]
      split_ifs with bad wrap large
      · rw [toInt32] at bad
        simp only [reduceCtorEq, ReadEnd.returned.injEq, false_iff]
        omega
      · rw [toInt32] at bad
        simp only [false_iff]
        omega
      · simp only [reduceCtorEq, ReadEnd.returned.injEq, false_iff]
        omega
      · rw [toInt32] at bad
        rw [fill]
        split_ifs with enough
        · simp only [true_iff]
          exact ⟨http, by omega⟩
        · simp only [false_iff]
          omega
  · rw [fill, if_neg (by omega)]
    simp only [reduceCtorEq, false_iff]
    omega

/-- The two functions agree and keep the stream in order exactly if no length is a harmful one. -/
theorem conforms_iff (held : Held s bs) (small : s.maxSize < 2 ^ 31) :
    Conforms o s bs script ↔ Harmless o s bs script := by
  have total := held.total
  have start := held.start
  have fits := held.fits
  constructor
  · rintro ⟨agrees, next, read⟩
    obtain ⟨low, length⟩ := (next_iff held small).mp next
    refine ⟨low, length, fun http => ?_, (read_iff held).mp read⟩
    rw [nextAccepts_iff held small low, readAccepts_iff held small] at agrees
    by_contra enough
    have range := length (by omega)
    exact (agrees.mp (by omega)).1 http
  · rintro ⟨low, length, binary, arriving⟩
    refine ⟨?_, (next_iff held small).mpr ⟨low, length⟩, (read_iff held).mpr arriving⟩
    rw [nextAccepts_iff held small low, readAccepts_iff held small]
    constructor
    · rintro ⟨four, enough⟩
      have range := length four
      exact ⟨fun http => by have := binary http; omega, by omega⟩
    · rintro ⟨-, some, enough⟩
      have range := length (by omega)
      omega

end Read

/-- A packet of one byte, and behind it a length of 0. -/
def zeroBehind : PacketStream :=
  { maxSize := 64, mem := fun i => if i = 3 then 1 else 0, prevPos := 5, totalLen := 9, isHttp := false }

theorem held_zeroBehind : Held zeroBehind [0, 0, 0, 0] :=
  ⟨by decide, rfl, by decide, by decide, by decide⟩

/-- A packet of one byte behind another one. -/
def oneBehind : PacketStream :=
  { maxSize := 64, mem := fun i => if i = 3 ∨ i = 8 then 1 else 0, prevPos := 5, totalLen := 10,
    isHttp := false }

/-- Both functions take a packet of one byte. -/
theorem conforms_one : Conforms .plain oneBehind [0, 0, 0, 1, 0] [] := by
  have held : Held oneBehind [0, 0, 0, 1, 0] := ⟨by decide, rfl, by decide, by decide, by decide⟩
  apply (conforms_iff held (by decide)).mpr
  refine ⟨by decide, by decide, by decide, fun got arrives => ?_⟩
  cases arrives with
  | here => decide

/-- `next_packet` takes the length 0, which `read_packet` does not take. -/
theorem zero_length_accepted : ¬ ∀ (o : Overload) (s : PacketStream) (bs : List UInt8)
    (script : List Attempt), Held s bs → s.maxSize < 2 ^ 31 → Conforms o s bs script := by
  intro claim
  have conforms := claim .plain zeroBehind [0, 0, 0, 0] [] held_zeroBehind (by decide)
  have accepts : NextAccepts zeroBehind :=
    (nextAccepts_iff held_zeroBehind (by decide) (by decide)).mpr ⟨by decide, by decide⟩
  have taken := (readAccepts_iff held_zeroBehind (by decide)).mp (conforms.agrees.mp accepts)
  exact absurd taken.2.1 (by decide)


end Conet.Base.PacketStreamHostile
