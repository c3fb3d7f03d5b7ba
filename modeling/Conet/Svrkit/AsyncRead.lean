/- Module: Conet/Svrkit/AsyncRead
   source: svrkit/src/rpc_pb_server.cpp
   digest: The packets that a duplex server cuts out of the data that a channel has read. -/

import Conet.Base.Pbc
import Conet.Lib.Frame
import Conet.Lib.Loop

set_option autoImplicit false
set_option relaxedAutoImplicit false

namespace Conet.Svrkit.AsyncRead

open Conet.Lib Conet.Lib.Frame Conet.Lib.Loop Conet.Base.Pbc

/-- A call of `proc_data`: the contents of `read_data`, whose fifth byte `data` points to, and
`len`. -/
structure Call where
  readData : List UInt8
  len : ℤ
  deriving DecidableEq

/-- The bytes that `proc_data` is called with. -/
def Call.bytes (c : Call) : List UInt8 := (c.readData.drop 4).take c.len.toNat

/-- `async_rpc_channel_ctx_t`, with the calls of `proc_data` so far. `pack_len` is a `uint32_t`. -/
structure AsyncRpcChannelCtx where
  readData : List UInt8
  packLen : ℕ
  calls : List Call
  deriving DecidableEq

def AsyncRpcChannelCtx.init : AsyncRpcChannelCtx := ⟨[], 0, []⟩

/-- `read_data_cb` up to the loop. -/
def AsyncRpcChannelCtx.insert (c : AsyncRpcChannelCtx) (data : List UInt8) : AsyncRpcChannelCtx where
  readData := c.readData ++ data
  packLen := if c.readData = [] then 0 else c.packLen
  calls := c.calls

/-- One turn of the loop of `read_data_cb`. The sum in the test is one of `uint32_t`s, the one in
`erase` adds to an iterator twice. -/
def readDataTurn (procData : Call → ℤ) (c : AsyncRpcChannelCtx) :
    Turn AsyncRpcChannelCtx (ℤ × AsyncRpcChannelCtx) :=
  let rLen := c.readData.length
  let packLen := if c.packLen = 0 ∧ 4 ≤ rLen then announced c.readData else c.packLen
  if (packLen + 4) % 2 ^ 32 ≤ rLen then
    let call : Call := ⟨c.readData, toInt32 packLen⟩
    if packLen + 4 ≤ rLen then
      let c : AsyncRpcChannelCtx := ⟨c.readData.drop (packLen + 4), 0, c.calls ++ [call]⟩
      if procData call ≠ 0 then .leave (-1, c) else .again c
    else .undefined
  else .leave (1, { c with packLen := packLen })

/-- `read_data_cb(data)` returns `ret` and leaves the context `c'`. -/
def ReadDataCb (procData : Call → ℤ) (c : AsyncRpcChannelCtx) (data : List UInt8) (ret : ℤ)
    (c' : AsyncRpcChannelCtx) : Prop :=
  Returns (readDataTurn procData) (c.insert data) (ret, c')

/-- Calls of `read_data_cb` one after another, which return 1. -/
inductive Fed (procData : Call → ℤ) :
    AsyncRpcChannelCtx → List (List UInt8) → AsyncRpcChannelCtx → Prop
  | nil {c : AsyncRpcChannelCtx} : Fed procData c [] c
  | cons {c c' c'' : AsyncRpcChannelCtx} {data : List UInt8} {datas : List (List UInt8)} :
    ReadDataCb procData c data 1 c' → Fed procData c' datas c'' →
    Fed procData c (data :: datas) c''

/-- A call of `proc_data` with the payload of a frame, which is inside of `read_data`. -/
def Gets (call : Call) (p : List UInt8) : Prop :=
  call.bytes = p ∧ call.len = p.length ∧ 4 + p.length ≤ call.readData.length

/-- The calls of `proc_data` are the frames of the stream, and the rest of it is kept. -/
def Framed (bs : List UInt8) (c : AsyncRpcChannelCtx) : Prop :=
  ∃ ps rest, Cut bs ps rest ∧ List.Forall₂ Gets c.calls ps ∧ c.readData = rest

/-- Lengths that `proc_data` and the sum with 4 can take: an `int` for a frame that is there, and
for the one that is not there yet four less than a `uint32_t` can hold. -/
def Moderate (bs : List UInt8) : Prop :=
  ∀ ps rest, Cut bs ps rest → (∀ p ∈ ps, p.length < 2 ^ 31) ∧
    (4 ≤ rest.length → announced rest + 4 < 2 ^ 32)

section Loop

variable {procData : Call → ℤ} {c c' : AsyncRpcChannelCtx} {bs rest more : List UInt8}
  {ps : List (List UInt8)}

/-- `pack_len` is 0, or the length that stands in `read_data`. -/
def Known (c : AsyncRpcChannelCtx) : Prop :=
  c.packLen = 0 ∨ 4 ≤ c.readData.length ∧ c.packLen = announced c.readData

/-- The calls of `proc_data` for frames, with their lengths as `int`s. -/
def Passed (call : Call) (p : List UInt8) : Prop :=
  call.len = toInt32 p.length ∧ ∃ more, call.readData = frame p ++ more

theorem gets_iff {call : Call} {p : List UInt8} (passed : Passed call p) :
    Gets call p ↔ p.length < 2 ^ 31 := by
  obtain ⟨len, more, here⟩ := passed
  constructor
  · rintro ⟨-, same, -⟩
    rw [toInt32] at len
    omega
  · intro small
    have same : call.len = p.length := len.trans (toInt32_of_lt (by omega) (by omega))
    have four : (beBytes 4 p.length).length = 4 := beBytes_length ..
    refine ⟨?_, same, ?_⟩
    · rw [Call.bytes, same, here, frame, List.append_assoc, List.drop_left' four, Int.toNat_natCast]
      exact List.take_left
    · rw [here, List.length_append, frame_length]
      omega

theorem Known.packLen (known : Known c) (four : 4 ≤ c.readData.length) :
    (if c.packLen = 0 ∧ 4 ≤ c.readData.length then announced c.readData else c.packLen) =
      announced c.readData := by
  split
  case isTrue => rfl
  case isFalse some =>
    rcases known with zero | ⟨-, same⟩
    · exact absurd ⟨zero, four⟩ some
    · exact same

theorem turn_frame {p : List UInt8} (zero : ∀ call, procData call = 0) (known : Known c)
    (short : Short p) (here : c.readData = frame p ++ rest) :
    readDataTurn procData c =
      .again ⟨rest, 0, c.calls ++ [⟨c.readData, toInt32 p.length⟩]⟩ := by
  have length : c.readData.length = 4 + p.length + rest.length := by
    rw [here, List.length_append, frame_length]
  have len : announced c.readData = p.length := by rw [here, announced_frame short]
  have drop : c.readData.drop (p.length + 4) = rest := by
    rw [here, List.drop_left' (by rw [frame_length, add_comm])]
  have pack := (known.packLen (by omega)).trans len
  simp only [readDataTurn, pack]
  rw [if_pos (by omega), if_pos (by omega), if_neg (by simp [zero]), drop]

/-- A turn without one: the length is kept in mind. -/
theorem turn_unfinished (procData : Call → ℤ) (known : Known c) (unfinished : Unfinished c.readData)
    (room : 4 ≤ c.readData.length → announced c.readData + 4 < 2 ^ 32) :
    ∃ c', readDataTurn procData c = .leave (1, c') ∧ Known c' ∧ c'.readData = c.readData ∧
      c'.calls = c.calls := by
  by_cases four : 4 ≤ c.readData.length
  · have less : c.readData.length < 4 + announced c.readData := unfinished.resolve_left (by omega)
    have lt := room four
    refine ⟨{ c with packLen := announced c.readData }, ?_, .inr ⟨four, rfl⟩, rfl, rfl⟩
    simp only [readDataTurn, known.packLen four]
    rw [if_neg (by omega)]
  · have zero : c.packLen = 0 := known.resolve_right fun h => four h.1
    refine ⟨{ c with packLen := 0 }, ?_, .inl rfl, rfl, rfl⟩
    simp only [readDataTurn, four, and_false, if_false, zero]
    rw [if_neg (by omega)]

/-- A turn in which the sum with 4 leaves the range of `uint32_t`. -/
theorem turn_wraps (known : Known c) (unfinished : Unfinished c.readData)
    (four : 4 ≤ c.readData.length) (wraps : 2 ^ 32 ≤ announced c.readData + 4) :
    readDataTurn procData c = .undefined := by
  have less : c.readData.length < 4 + announced c.readData := unfinished.resolve_left (by omega)
  have lt := announced_lt c.readData
  simp only [readDataTurn, known.packLen four]
  rw [if_pos (by omega), if_neg (by omega)]

/-- The frame that is not there yet has a length that the sum with 4 can take. -/
def Room (rest : List UInt8) : Prop := 4 ≤ rest.length → announced rest + 4 < 2 ^ 32

theorem loop_returns (zero : ∀ call, procData call = 0) (known : Known c)
    (cut : Cut c.readData ps rest) (room : Room rest) :
    ∃ c' calls, Returns (readDataTurn procData) c (1, c') ∧ Known c' ∧ c'.readData = rest ∧
      c'.calls = c.calls ++ calls ∧ List.Forall₂ Passed calls ps := by
  induction ps generalizing c with
  | nil =>
    obtain rfl : c.readData = rest := cut.bytes
    obtain ⟨c', turn, known', data, calls⟩ := turn_unfinished procData known cut.unfinished room
    exact ⟨c', [], .of_leave turn, known', data, by simpa using calls, .nil⟩
  | cons p ps ih =>
    have here : c.readData = frame p ++ (stream ps ++ rest) := by
      rw [cut.bytes, stream_cons, List.append_assoc]
    have turn := turn_frame zero known (cut.short p (by simp)) here
    obtain ⟨c', calls, returns, known', data, all, passed⟩ :=
      ih (c := ⟨stream ps ++ rest, 0, _⟩) (.inl rfl) cut.tail
    refine ⟨c', ⟨c.readData, toInt32 p.length⟩ :: calls, (returns_again turn).mpr returns, known',
      data, by simpa using all, .cons ⟨rfl, _, here⟩ passed⟩

theorem loop_not_returns (zero : ∀ call, procData call = 0) (known : Known c)
    (cut : Cut c.readData ps rest) (wraps : ¬ Room rest) (t : ℤ × AsyncRpcChannelCtx) :
    ¬ Returns (readDataTurn procData) c t := by
  induction ps generalizing c with
  | nil =>
    obtain rfl : c.readData = rest := cut.bytes
    simp only [Room, not_forall, not_lt] at wraps
    obtain ⟨four, wraps⟩ := wraps
    exact not_returns_undefined (turn_wraps known cut.unfinished four wraps)
  | cons p ps ih =>
    have here : c.readData = frame p ++ (stream ps ++ rest) := by
      rw [cut.bytes, stream_cons, List.append_assoc]
    have turn := turn_frame zero known (cut.short p (by simp)) here
    rw [returns_again turn]
    exact ih (.inl rfl) cut.tail

/-- The invariant between two calls of `read_data_cb`, after the bytes `bs`. -/
def Inv (bs : List UInt8) (c : AsyncRpcChannelCtx) : Prop :=
  Known c ∧ ∃ ps, Cut bs ps c.readData ∧ Room c.readData ∧ List.Forall₂ Passed c.calls ps

theorem Inv.init : Inv [] .init :=
  ⟨.inl rfl, [], ⟨rfl, by simp, .inl (by decide)⟩, by simp [Room, AsyncRpcChannelCtx.init], .nil⟩

theorem Known.insert (known : Known c) (data : List UInt8) : Known (c.insert data) := by
  by_cases none : c.readData = []
  · exact .inl (by simp [AsyncRpcChannelCtx.insert, none])
  · rcases known with zero | ⟨four, same⟩
    · exact .inl (by simp [AsyncRpcChannelCtx.insert, zero])
    · refine .inr ⟨?_, ?_⟩
      · rw [AsyncRpcChannelCtx.insert, List.length_append]
        omega
      · simp only [AsyncRpcChannelCtx.insert, none, if_false, same, announced_append four]

/-- A call of `read_data_cb` returns if and only if there is room for the length in the end. -/
theorem Inv.step (zero : ∀ call, procData call = 0) (inv : Inv bs c) {data : List UInt8}
    (cut : Cut (bs ++ data) ps rest) :
    (Room rest → ∃ c', ReadDataCb procData c data 1 c') ∧
      ∀ c', ReadDataCb procData c data 1 c' → Inv (bs ++ data) c' := by
  obtain ⟨known, ps', cut', room', passed⟩ := inv
  obtain ⟨ps'', rest'', cut''⟩ := exists_cut (c.readData ++ data)
  obtain ⟨rfl, rfl⟩ := cut.unique (cut'.append cut'')
  have inserted : Cut (c.insert data).readData ps'' rest := cut''
  constructor
  · intro room
    obtain ⟨c', -, returns, -⟩ := loop_returns zero (known.insert data) inserted room
    exact ⟨c', returns⟩
  · intro c' returns
    by_cases room : Room rest
    · obtain ⟨c₁, calls, returns₁, known₁, rfl, all, passed₁⟩ :=
        loop_returns zero (known.insert data) inserted room
      obtain rfl : c' = c₁ := (Prod.mk.inj (returns.unique returns₁)).2
      refine ⟨known₁, ps' ++ ps'', cut, room, ?_⟩
      rw [all]
      exact List.rel_append passed passed₁
    · exact absurd returns (loop_not_returns zero (known.insert data) inserted room _)

theorem Fed.inv (zero : ∀ call, procData call = 0) {datas : List (List UInt8)}
    (fed : Fed procData c datas c') (inv : Inv bs c) : Inv (bs ++ datas.flatten) c' := by
  induction fed generalizing bs with
  | nil => simpa using inv
  | @cons c c₁ c₂ data datas returns _ ih =>
    obtain ⟨ps, rest, cut⟩ := exists_cut (bs ++ data)
    rw [List.flatten_cons, ← List.append_assoc]
    exact ih ((inv.step zero cut).2 c₁ returns)

/-- What is moderate as a whole is so in every first part. -/
theorem Moderate.room (moderate : Moderate (bs ++ more)) (cut : Cut bs ps rest) : Room rest := by
  intro four
  obtain ⟨ps', rest', cut'⟩ := exists_cut (rest ++ more)
  obtain ⟨short, room⟩ := moderate _ _ (cut.append cut')
  cases ps' with
  | nil =>
    obtain rfl : rest ++ more = rest' := cut'.bytes
    rw [announced_append four, List.length_append] at room
    exact room (by omega)
  | cons p ps' =>
    have len : announced rest = p.length := by
      rw [← announced_append four more, cut'.bytes, stream_cons, List.append_assoc,
        announced_frame (cut'.short p (by simp))]
    have lt := short p (by simp)
    omega

theorem exists_fed (zero : ∀ call, procData call = 0) {datas : List (List UInt8)} (inv : Inv bs c)
    (moderate : Moderate (bs ++ datas.flatten)) : ∃ c', Fed procData c datas c' := by
  induction datas generalizing bs c with
  | nil => exact ⟨c, .nil⟩
  | cons data datas ih =>
    obtain ⟨ps, rest, cut⟩ := exists_cut (bs ++ data)
    rw [List.flatten_cons, ← List.append_assoc] at moderate
    obtain ⟨returns, keeps⟩ := inv.step zero cut
    obtain ⟨c₁, first⟩ := returns (moderate.room cut)
    obtain ⟨c', fed⟩ := ih (keeps c₁ first) moderate
    exact ⟨c', .cons first fed⟩

/-- However a stream is cut, `proc_data` is called with its frames if and only if their lengths are
moderate. -/
theorem framed_iff (zero : ∀ call, procData call = 0) (datas : List (List UInt8)) :
    (∃ c, Fed procData .init datas c ∧ Framed datas.flatten c) ↔ Moderate datas.flatten := by
  constructor
  · rintro ⟨c, fed, ps, rest, cut, gets, rfl⟩ ps' rest' cut'
    obtain ⟨-, ps'', cut'', room, passed⟩ := fed.inv zero Inv.init
    obtain ⟨rfl, rfl⟩ := cut.unique cut'
    obtain ⟨rfl, -⟩ := cut.unique cut''
    refine ⟨fun p hp => ?_, room⟩
    obtain ⟨i, h, rfl⟩ := List.mem_iff_getElem.mp hp
    have call := (List.forall₂_iff_get.mp passed).2 i (by rw [passed.length_eq]; exact h) h
    exact (gets_iff call).mp
      ((List.forall₂_iff_get.mp gets).2 i (by rw [passed.length_eq]; exact h) h)
  · intro moderate
    obtain ⟨c, fed⟩ := exists_fed zero Inv.init moderate
    obtain ⟨-, ps, cut, -, passed⟩ := fed.inv zero Inv.init
    refine ⟨c, fed, ps, c.readData, cut, ?_, rfl⟩
    apply List.forall₂_iff_get.mpr
    refine ⟨passed.length_eq, fun i h h' => ?_⟩
    apply (gets_iff ((List.forall₂_iff_get.mp passed).2 i h h')).mpr
    exact (moderate _ _ cut).1 _ (List.get_mem _ _)

end Loop

/-- A length that leaves no room for the sum with 4: nothing of the frame is there, and `proc_data`
is called. -/
theorem framed_wrapped : ¬ ∀ (procData : Call → ℤ) (datas : List (List UInt8)),
    (∀ call, procData call = 0) → ∃ c, Fed procData .init datas c ∧ Framed datas.flatten c := by
  intro claim
  have cut : Cut [255, 255, 255, 255] [] [255, 255, 255, 255] :=
    ⟨rfl, by simp, by decide⟩
  have moderate := (framed_iff (fun _ => rfl) _).mp (claim (fun _ => 0) [[255, 255, 255, 255]]
    fun _ => rfl)
  exact absurd ((moderate _ _ cut).2 (by decide)) (by decide)

/-- Two frames, the first one without payload, in pieces that end within a length. -/
theorem framed_pieces : ∃ c, Fed (fun _ => 0) .init [[0, 0], [0, 0, 0, 0, 0], [1, 7, 0]] c ∧
    Framed [[0, 0], [0, 0, 0, 0, 0], [1, 7, 0]].flatten c := by
  apply (framed_iff (fun _ => rfl) _).mpr
  have cut : Cut [0, 0, 0, 0, 0, 0, 0, 1, 7, 0] [[], [7]] [0] :=
    ⟨rfl, by simp [Short], .inl (by decide)⟩
  intro ps rest cut'
  obtain ⟨rfl, rfl⟩ := cut.unique cut'
  simp

end Conet.Svrkit.AsyncRead
