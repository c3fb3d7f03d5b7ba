/- Module: Conet/Base/PacketStreamFail
   source: base/src/net_tool.cpp, base/net_tool.h
   digest: What a read_packet whose reading fails leaves to the next one. -/

import Conet.Base.NetToolRead

set_option autoImplicit false
set_option relaxedAutoImplicit false

namespace Conet.Base.PacketStreamFail

open Conet.Lib Conet.Lib.Frame Conet.Base.Pbc Conet.Base.NetTool Conet.Base.NetToolRead

/-- The bytes with which the next `read_packet` starts. -/
def pending (s : PacketStream) : List UInt8 :=
  if 0 < s.prevPos then slice s.mem s.prevPos (s.totalLen - s.prevPos).toNat else []

/-- A call that fails does no harm: the bytes held before and those received are there for the next
one, which returns the packet that it would have returned without the failure, and the call reports
no timeout with a whole packet in the buffer. -/
structure Survives (s : PacketStream) (bs : List UInt8) (out : ReadOut) : Prop where
  kept : pending out.stream = bs ++ out.got
  same : ∀ (o o' : Overload) (script script' : List Attempt) (p : List UInt8),
    (∀ a ∈ script, Fine a) → (∀ a ∈ script', Fine a) →
    bytesOf script = out.got ++ bytesOf script' → Gives (o.read s script) p →
    (o'.read out.stream script').outcome ≠ .impossible → Gives (o'.read out.stream script') p
  timely : out.outcome = .failed (-2) → Unfinished (bs ++ out.got)

/-- The first data that a call asks for does not come. -/
def FirstFails (o : Overload) (bs : List UInt8) (script : List Attempt) : Prop :=
  ∃ a rest ret, script = a :: rest ∧
    o.reader.read (o.hasData && decide (bs.length < 4)) a = .fails ret

section Fail

variable {o : Overload} {s : PacketStream} {bs got : List UInt8} {script script' : List Attempt}
  {a : Attempt} {hasData : Bool} {b : Buffer} {ret : ℤ}

theorem stops_nil_iff (stops : Stops o.reader hasData script ret got) :
    got = [] ↔ ∃ a rest ret, script = a :: rest ∧ o.reader.read hasData a = .fails ret := by
  cases stops with
  | @fails _ a rest ret read => exact ⟨fun _ => ⟨a, rest, ret, rfl, read⟩, fun _ => rfl⟩
  | @late _ a rest chunk read late =>
    refine ⟨fun none => absurd none ((read_data read).2), ?_⟩
    rintro ⟨a', rest', ret', split, fails⟩
    obtain ⟨rfl, rfl⟩ := List.cons.inj split
    exact absurd (read.symm.trans fails) (by simp)
  | @cons _ a rest ret chunk got read late stops =>
    refine ⟨fun none => absurd (List.append_eq_nil_iff.mp none).1 ((read_data read).2), ?_⟩
    rintro ⟨a', rest', ret', split, fails⟩
    obtain ⟨rfl, rfl⟩ := List.cons.inj split
    exact absurd (read.symm.trans fails) (by simp)

/-- Where data has come, the first call for it did not fail. -/
theorem gets_not_fails (gets : Gets o.reader hasData script got script') (some : got ≠ []) :
    ¬ ∃ a rest ret, script = a :: rest ∧ o.reader.read hasData a = .fails ret := by
  rintro ⟨a', rest', ret', split, fails⟩
  cases gets with
  | nil => exact some rfl
  | cons read late gets =>
    obtain ⟨rfl, rfl⟩ := List.cons.inj split
    exact absurd (read.symm.trans fails) (by simp)

theorem compact_mem (held : Held s bs) : (compact s).mem = write s.mem 0 bs := by
  simp only [compact]
  split
  case isTrue => rw [held.count, held.bytes]
  case isFalse zero =>
    have start := held.start
    obtain rfl := held.fresh (by omega)
    exact (write_nil s.mem 0).symm

/-- What a call that fails leaves in the stream: the cursors as they were, and over the buffer's
start the bytes held before and those received. -/
structure Left (o : Overload) (s : PacketStream) (bs : List UInt8) (script : List Attempt)
    (out : ReadOut) : Prop where
  stream : out.stream = { s with mem := write s.mem 0 (bs ++ out.got) }
  first : out.got = [] ↔ FirstFails o bs script
  unfinished : out.got = [] → Unfinished bs

theorem readBody_failed (holds : Holds b (bs ++ got)) (four : 4 ≤ (bs ++ got).length)
    (le : (bs ++ got).length ≤ s.maxSize) (asks : AsksOk s.maxSize b.asks)
    (mem : b.mem = write s.mem 0 (bs ++ got)) (all : b.got = got)
    (gets : Gets o.reader o.hasData script got script') (here : 4 ≤ bs.length → got = [] ∧ script' = script)
    (failed : (readBody o.reader s script' b).outcome = .failed ret) :
    Left o s bs script (readBody o.reader s script' b) := by
  have len : announced (slice b.mem 0 4) = announced (bs ++ got) := announced_slice four holds.bytes
  revert failed
  simp only [readBody, len]
  split_ifs with bad wrap large
  · simp
  · simp
  · simp
  · have meets : Meets (fill o.reader s.maxSize (announced (bs ++ got) + 4) false script' b) _ _ _ :=
      fill_meets holds asks (by omega) (by rw [holds.curLen]; exact le)
    cases second : fill o.reader s.maxSize (announced (bs ++ got) + 4) false script' b with
    | full b' script'' => simp
    | waits b' => simp
    | impossible => simp
    | fails ret' b' script'' =>
      rw [second] at meets
      obtain ⟨got', stops, holds', less, mem', all', -⟩ := meets
      intro _
      rw [all] at all'
      rw [holds.curLen] at less mem'
      refine ⟨?_, ?_, fun none => ?_⟩
      · simp only [mem', all', mem]
        have joined := write_append s.mem 0 (bs ++ got) got'
        rw [zero_add] at joined
        rw [joined, List.append_assoc]
      · simp only [all', List.append_eq_nil_iff, FirstFails]
        by_cases early : bs.length < 4
        · have some : got ≠ [] := by
            rintro rfl
            rw [List.append_nil] at four
            omega
          have given := gets_not_fails gets some
          simp only [early, decide_true, Bool.and_true, some, false_and, false_iff]
          exact given
        · obtain ⟨rfl, rfl⟩ := here (by omega)
          have first := stops_nil_iff stops
          simpa only [early, decide_false, Bool.and_false, true_and] using first
      · simp only [all', List.append_eq_nil_iff] at none
        obtain ⟨rfl, rfl⟩ := none
        rw [List.append_nil] at less
        rw [Unfinished]
        omega

theorem read_failed (held : Held s bs) (big : 4 < s.maxSize)
    (failed : (o.read s script).outcome = .failed ret) : Left o s bs script (o.read s script) := by
  revert failed
  rw [Overload.read_eq, readPacketWith]
  obtain ⟨holds, noAsks⟩ := held.compact
  have total := held.total
  have start := held.start
  have fits := held.fits
  have none : (compact s).got = [] := by
    simp only [compact]
    split <;> rfl
  have meets : Meets (fill o.reader s.maxSize 4 o.hasData script (compact s)) _ _ _ :=
    fill_meets holds (by simp [noAsks, AsksOk]) (by omega) (by rw [holds.curLen]; omega)
  cases first : fill o.reader s.maxSize 4 o.hasData script (compact s) with
  | impossible => simp
  | waits b => simp
  | fails ret' b script' =>
    rw [first] at meets
    obtain ⟨got, stops, holds', less, mem, all, -⟩ := meets
    intro _
    rw [none, List.nil_append] at all
    rw [holds.curLen] at less mem
    refine ⟨?_, ?_, fun _ => .inl (by omega)⟩
    · have joined := write_append s.mem 0 bs got
      rw [zero_add] at joined
      simp only [mem, all, compact_mem held, joined]
    · have early : bs.length < 4 := by omega
      simpa only [all, FirstFails, early, decide_true, Bool.and_true] using stops_nil_iff stops
  | full b script' =>
    rw [first] at meets
    obtain ⟨got, gets, holds', enough, le, asks, mem, all⟩ := meets
    rw [none, List.nil_append] at all
    rw [holds.curLen] at mem
    rw [holds'.curLen] at enough le
    have four : 4 ≤ (bs ++ got).length := by omega
    simp only
    split
    case isTrue => simp
    case isFalse =>
      intro failed
      refine readBody_failed holds' four le asks ?_ all gets (fun long => ?_) failed
      · have joined := write_append s.mem 0 bs got
        rw [zero_add] at joined
        rw [mem, compact_mem held, joined]
      · have given : fill o.reader s.maxSize 4 o.hasData script (compact s) =
            .full (compact s) script := fill_enough (by rw [holds.curLen]; omega)
        obtain ⟨rfl, rfl⟩ := Fill.full.inj (given.symm.trans first)
        exact ⟨all.symm.trans none, rfl⟩

theorem slice_eq_iff {mem : ℤ → UInt8} {pos : ℤ} :
    slice mem pos bs.length = bs ↔ ∀ (i : ℕ) (h : i < bs.length), mem (pos + i) = bs[i] := by
  constructor
  · intro same i h
    have get : (slice mem pos bs.length)[i]? = bs[i]? := by rw [same]
    rw [List.getElem?_eq_getElem h, List.getElem?_eq_getElem (by simpa using h)] at get
    simpa [slice] using get
  · intro same
    apply List.ext_getElem (by simp)
    intro i _ h
    simpa [slice] using same i h

/-- The leftover bytes stand where they stood after they have been copied to the start. -/
theorem slice_write_same {mem : ℤ → UInt8} {pos : ℤ} (le : 0 ≤ pos)
    (here : slice mem pos bs.length = bs) :
    slice (write mem 0 bs) pos bs.length = bs ↔ bs.drop pos.toNat <+: bs := by
  rw [slice_eq_iff] at here ⊢
  rw [List.prefix_iff_getElem?]
  constructor
  · intro same i h
    rw [List.length_drop] at h
    have at_i := same i (by omega)
    rw [write, if_pos (by omega)] at at_i
    have index : (pos + i - 0).toNat = pos.toNat + i := by omega
    rw [index, List.getD_eq_getElem?_getD, List.getElem?_eq_getElem (by omega)] at at_i
    rw [List.getElem?_eq_getElem (by omega), List.getElem_drop]
    exact congrArg some at_i.symm
  · intro same i h
    rw [write]
    split
    case isTrue inside =>
      have index : (pos + i - 0).toNat = pos.toNat + i := by omega
      have at_i := same i (by rw [List.length_drop]; omega)
      rw [List.getElem?_eq_getElem h, List.getElem_drop, Option.some.injEq] at at_i
      rw [index, List.getD_eq_getElem?_getD, List.getElem?_eq_getElem (by omega)]
      exact at_i.symm
    case isFalse => exact here i h

theorem pending_of_held (held : Held s bs) : pending s = bs := by
  have start := held.start
  rw [pending]
  split
  case isTrue => rw [held.count, held.bytes]
  case isFalse zero => exact (held.fresh (by omega)).symm

/-- As long as the cursors stand, as many bytes are pending. -/
theorem pending_length (held : Held s bs) (mem : ℤ → UInt8) :
    (pending { s with mem := mem }).length = bs.length := by
  have start := held.start
  rw [pending]
  split
  case isTrue => simp only [held.count, slice_length]
  case isFalse zero => rw [held.fresh (by simp only at zero; omega)]

/-- A call that fails does no harm if and only if the first data it asks for does not come, and the
leftover bytes overlap with nothing else than themselves when they are moved. -/
theorem survives_iff (held : Held s bs) (big : 4 < s.maxSize) (small : s.maxSize < 2 ^ 31)
    (failed : (o.read s script).outcome = .failed ret) :
    Survives s bs (o.read s script) ↔
      FirstFails o bs script ∧ bs.drop s.prevPos.toNat <+: bs := by
  obtain ⟨stream, first, unfinished⟩ := read_failed held big failed
  constructor
  · rintro ⟨kept, -, -⟩
    have length : (pending (o.read s script).stream).length = bs.length := by
      rw [stream]
      exact pending_length held _
    have none : (o.read s script).got = [] := by
      rw [kept, List.length_append] at length
      exact List.eq_nil_of_length_eq_zero (by omega)
    refine ⟨first.mp none, ?_⟩
    rw [stream, none, List.append_nil, pending] at kept
    split at kept
    case isTrue =>
      simp only [held.count] at kept
      exact (slice_write_same held.start held.bytes).mp kept
    case isFalse => simp [← kept]
  · rintro ⟨fails, overlap⟩
    have none := first.mpr fails
    have held' : Held (o.read s script).stream bs := by
      rw [stream, none, List.append_nil]
      exact ⟨held.start, held.total, held.fits, (slice_write_same held.start held.bytes).mpr overlap,
        held.fresh⟩
    refine ⟨?_, ?_, fun _ => ?_⟩
    · rw [none, List.append_nil]
      exact pending_of_held held'
    · intro o₁ o₂ script₁ script₂ p fine₁ fine₂ bytes gives possible
      rw [none, List.nil_append] at bytes
      have size : (o.read s script).stream.maxSize = s.maxSize := by rw [stream]
      have http : (o.read s script).stream.isHttp = s.isHttp := by rw [stream]
      obtain ⟨short, frames, unrefused⟩ := (gives_iff held big small fine₁ (by simp [gives.outcome])).mp gives
      rw [bytes] at frames unrefused
      apply (gives_iff held' (by omega) (by omega) fine₂ possible).mpr
      refine ⟨short, frames, ?_⟩
      rwa [Refused, size, http]
    · rw [none, List.append_nil]
      exact unfinished none

end Fail

def silence : Attempt := ⟨.again, .timeout, .again, false⟩

def emptyStream : PacketStream := ⟨64, fun _ => 0, 0, 0, false⟩

theorem held_emptyStream : Held emptyStream [] := ⟨le_rfl, rfl, by decide, rfl, fun _ => rfl⟩

/-- Five bytes of a packet of six were left by the call before. -/
def leftover : List UInt8 := [0, 0, 0, 2, 9]

def leftoverStream : PacketStream := ⟨64, fun a => leftover.getD (a - 10).toNat 0, 10, 15, false⟩

theorem held_leftoverStream : Held leftoverStream leftover :=
  ⟨by decide, rfl, by decide, by decide, fun zero => absurd zero (by decide)⟩

/-- The time is up before the rest has come. -/
theorem survives_silence :
    Survives leftoverStream leftover ((Overload.timeout false).read leftoverStream [silence]) := by
  have failed : ((Overload.timeout false).read leftoverStream [silence]).outcome = .failed (-2) := by
    decide
  apply (survives_iff held_leftoverStream (by decide) (by decide) failed).mpr
  exact ⟨⟨silence, [], -2, rfl, by decide⟩, by decide⟩

/-- The length of a packet has come before the time is up, and it is lost. -/
theorem partial_packet_lost : ¬ ∀ (o : Overload) (s : PacketStream) (bs : List UInt8)
    (script : List Attempt) (ret : ℤ), Held s bs → 4 < s.maxSize → s.maxSize < 2 ^ 31 →
    (o.read s script).outcome = .failed ret → Survives s bs (o.read s script) := by
  intro claim
  have survives := claim (.timeout false) emptyStream []
    [⟨.again, .pollIn, .data [0, 0, 0, 1], false⟩, silence] (-2) held_emptyStream (by decide)
    (by decide) (by decide)
  exact absurd survives.kept (by decide)

end Conet.Base.PacketStreamFail
