/- Module: Conet/Base/PbcSkip
   source: base/pbc.h, base/src/pbc.cpp
   digest: pb_skip_field against the decoding of a value of the same wire type. -/

import Conet.Base.PbcFields

set_option autoImplicit false
set_option relaxedAutoImplicit false

namespace Conet.Base.PbcSkip

open Conet.Lib Conet.Lib.Protobuf Conet.Base.Pbc

section Skipping

variable (mem : ℤ → UInt8)

/-- `pb_get` without a buffer: the cursor that it leaves, and whether it succeeds. -/
def pbGet (f : PbField) (count : ℕ) : PbField × Bool :=
  if (f.left % 2 ^ 64).toNat < count then (f, false)
  else ({ f with ptr := f.ptr + count, left := toInt32 (f.left - count) }, true)

/-- `pb_skip_varint`, which returns 0 at the end of the input too. -/
def pbSkipVarint (f : PbField) : PbField :=
  if f.left < 1 then f
  else if (mem f.ptr).toNat ≥ 128 then pbSkipVarint (f.skip 1)
  else f.skip 1
termination_by f.left.toNat
decreasing_by
  simp only [PbField.skip]
  omega

def pbSkipString (f : PbField) : PbField × Bool :=
  match pbDecodeVarintRest mem 11 0 0 f with
  | (f, false) => (f, false)
  | (f, true) => pbGet f f.i32

/-- The cursor that a read without a buffer leaves. -/
def moved (f : PbField) : Option (ℕ × PbField) → PbField × Bool
  | none => (f, false)
  | some (_, g) => (g, true)

def pbSkipField (f : PbField) (wireType : ℕ) : PbField × Bool :=
  if wireType = wtVarint then (pbSkipVarint mem f, true)
  else if wireType = wtFixed64 then moved f (pbGetDdword mem f)
  else if wireType = wtString then pbSkipString mem f
  else if wireType = wtFixed32 then moved f (pbGetDword mem f)
  else (f, false)

/-- The value part of `pb_decode_tag`. -/
def pbDecodeValue (f : PbField) (wireType : ℕ) : Option PbField :=
  if wireType = wtVarint then pbDecodeVarint mem f
  else if wireType = wtFixed64 then pbDecodeFixed64 mem f
  else if wireType = wtString then pbDecodeString mem f
  else if wireType = wtFixed32 then pbDecodeFixed32 mem f
  else none

/-- Skipping succeeds exactly when decoding does, and then leaves the cursor where decoding leaves it. -/
structure Agrees (f : PbField) (wireType : ℕ) : Prop where
  ok : (pbSkipField mem f wireType).2 = true ↔ (pbDecodeValue mem f wireType).isSome
  place : ∀ g, pbDecodeValue mem f wireType = some g →
    (pbSkipField mem f wireType).1.ptr = g.ptr ∧ (pbSkipField mem f wireType).1.left = g.left

/-- The bytes that the cursor has in front of it. -/
def unread (f : PbField) : List UInt8 := slice mem f.ptr f.left.toNat

/-- A varint ends within ten bytes, and the length of a string is not taken for a shorter one that is
there: it is no more than what is left, or its low 32 bits are more too. -/
def Clear (f : PbField) (wireType : ℕ) : Prop :=
  if wireType = wtVarint then ∃ c ∈ (unread mem f).take 10, c.toNat < 128
  else if wireType = wtString then
    ∀ v rest, readVarint (unread mem f) = some (v, rest) →
      v ≤ rest.length ∨ rest.length < v % 2 ^ 32
  else True

end Skipping

section Within

variable {mem : ℤ → UInt8} {f g k : PbField}

/-- `g` is `f` after some bytes that `f` had left. -/
def Within (f g : PbField) : Prop :=
  ∃ n : ℕ, (n = 0 ∨ (n : ℤ) ≤ f.left) ∧ g.ptr = f.ptr + n ∧ g.left = f.left - n

theorem Within.refl (f : PbField) : Within f f := ⟨0, .inl rfl, by simp, by simp⟩

theorem Within.trans (first : Within f g) (second : Within g k) : Within f k := by
  obtain ⟨n, room, ptr, left⟩ := first
  obtain ⟨m, room', ptr', left'⟩ := second
  refine ⟨n + m, ?_, ?_, ?_⟩ <;> omega

theorem Within.skip {n : ℕ} (room : (n : ℤ) ≤ f.left) : Within f (f.skip n) :=
  ⟨n, .inr room, rfl, rfl⟩

theorem Within.le_end (within : Within f g) : g.ptr ≤ max f.ptr (f.ptr + f.left) := by
  obtain ⟨n, room, ptr, -⟩ := within
  omega

theorem pbGet_within (nonneg : 0 ≤ f.left) (int : f.left < 2 ^ 31) (count : ℕ) :
    Within f (pbGet f count).1 := by
  have size : (f.left % 2 ^ 64).toNat = f.left.toNat := by omega
  rw [pbGet, size]
  split_ifs with short
  · exact .refl f
  · refine ⟨count, .inr (by omega), rfl, ?_⟩
    exact toInt32_of_lt (by omega) (by omega)

theorem moved_within {r : Option (ℕ × PbField)} (inside : ∀ v g, r = some (v, g) → Within f g) :
    Within f (moved f r).1 := by
  cases r with
  | none => exact .refl f
  | some r => exact inside r.1 r.2 rfl

theorem pbSkipVarint_within (mem : ℤ → UInt8) (f : PbField) : Within f (pbSkipVarint mem f) := by
  induction f using pbSkipVarint.induct mem with
  | case1 f done =>
    rw [pbSkipVarint, if_pos done]
    exact .refl f
  | case2 f room more ih =>
    rw [pbSkipVarint, if_neg room, if_pos more]
    exact (Within.skip (n := 1) (by omega)).trans ih
  | case3 f room last =>
    rw [pbSkipVarint, if_neg room, if_neg last]
    exact .skip (by omega)

theorem pbDecodeVarintRest_within (mem : ℤ → UInt8) (n bitpos result : ℕ) (f : PbField) :
    Within f (pbDecodeVarintRest mem n bitpos result f).1 ∧
      ((pbDecodeVarintRest mem n bitpos result f).2 = true →
        0 ≤ (pbDecodeVarintRest mem n bitpos result f).1.left) := by
  induction n generalizing bitpos result f with
  | zero => exact ⟨.refl f, nofun⟩
  | succ n ih =>
    rw [pbDecodeVarintRest, pbGetByte]
    split_ifs with long short
    · exact ⟨.refl f, False.elim⟩
    · exact ⟨.refl f, False.elim⟩
    · have first : Within f (f.skip 1) := .skip (by omega)
      dsimp only
      split_ifs with more
      · obtain ⟨within, nonneg⟩ := ih ((bitpos + 7) % 256)
          ((result ||| ((mem f.ptr).toNat % 128) <<< bitpos) % 2 ^ 64) (f.skip 1)
        exact ⟨first.trans within, nonneg⟩
      · exact ⟨first, fun _ => by simp only [PbField.skip]; omega⟩

theorem pbSkipString_within (mem : ℤ → UInt8) (int : f.left < 2 ^ 31) :
    Within f (pbSkipString mem f).1 := by
  obtain ⟨within, nonneg⟩ := pbDecodeVarintRest_within mem 11 0 0 f
  rw [pbSkipString]
  rcases run : pbDecodeVarintRest mem 11 0 0 f with ⟨g, ok⟩
  rw [run] at within nonneg
  cases ok with
  | false => exact within
  | true =>
    have small : g.left < 2 ^ 31 := by
      obtain ⟨n, -, -, left⟩ := within
      dsimp only at left
      omega
    exact within.trans (pbGet_within (nonneg rfl) small g.i32)

/-- `pb_skip_field` never leaves the input, whatever it returns. -/
theorem pbSkipField_within (mem : ℤ → UInt8) (int : f.left < 2 ^ 31) (wireType : ℕ) :
    Within f (pbSkipField mem f wireType).1 := by
  unfold pbSkipField
  split_ifs
  · exact pbSkipVarint_within mem f
  · refine moved_within fun v g read => ?_
    rw [pbGetDdword] at read
    split_ifs at read with short
    obtain ⟨-, rfl⟩ := Prod.mk.inj (Option.some.inj read)
    exact .skip (by omega)
  · exact pbSkipString_within mem int
  · refine moved_within fun v g read => ?_
    rw [pbGetDword] at read
    split_ifs at read with short
    obtain ⟨-, rfl⟩ := Prod.mk.inj (Option.some.inj read)
    exact .skip (by omega)
  · exact .refl f

end Within

section Agreement

variable {mem : ℤ → UInt8} {f g : PbField} {bs rest : List UInt8} {v k : ℕ}

/-- What `pb_skip_varint` leaves of the input. -/
def skipGroups (bs : List UInt8) : List UInt8 := (bs.dropWhile fun c => 128 ≤ c.toNat).tail

theorem readGroups_rest (read : readGroups k bs = some (v, rest)) : rest = skipGroups bs := by
  induction k generalizing bs v with
  | zero => simp [readGroups] at read
  | succ k ih =>
    cases bs with
    | nil => simp [readGroups] at read
    | cons c bs =>
      rw [readGroups] at read
      split_ifs at read with last
      · obtain ⟨-, rfl⟩ := Prod.mk.inj (Option.some.inj read)
        simp [skipGroups, last]
      · obtain ⟨r, tail, same⟩ := Option.map_eq_some_iff.mp read
        obtain ⟨-, rfl⟩ := Prod.mk.inj same
        rw [ih tail, skipGroups, skipGroups, List.dropWhile_cons_of_pos (by simpa using last)]

theorem readGroups_isSome : (readGroups k bs).isSome ↔ ∃ c ∈ bs.take k, c.toNat < 128 := by
  induction k generalizing bs with
  | zero => simp [readGroups]
  | succ k ih =>
    cases bs with
    | nil => simp [readGroups]
    | cons c bs =>
      rw [readGroups, List.take_succ_cons, List.exists_mem_cons_iff]
      split_ifs with last
      · simp [last]
      · rw [Option.isSome_map, ih]
        simp [last]

theorem unread_of_nonneg (mem : ℤ → UInt8) (nonneg : 0 ≤ f.left) : Unread mem f (unread mem f) := by
  refine ⟨?_, ?_⟩
  · simp only [unread, slice_length]
    omega
  · rw [unread, slice_length]

theorem pbDecodeVarint_short (short : f.left < 1) : pbDecodeVarint mem f = none := by
  simp [pbDecodeVarint, pbDecodeVarintLoop, pbGetByte, short]

theorem unread_short (short : f.left < 1) : unread mem f = [] := by
  have none : f.left.toNat = 0 := by omega
  rw [unread, none, slice_zero]

theorem pbSkipVarint_left (unread : Unread mem f bs) :
    (pbSkipVarint mem f).left = (skipGroups bs).length := by
  induction bs generalizing f with
  | nil =>
    rw [pbSkipVarint, if_pos (by simp [unread.left])]
    exact unread.left
  | cons c bs ih =>
    obtain ⟨byte, rest⟩ := pbGetByte_cons unread
    have room : ¬ f.left < 1 := by simp [unread.left]
    have here : mem f.ptr = c := by
      rw [pbGetByte, if_neg room] at byte
      exact (Prod.mk.inj (Option.some.inj byte)).1
    rw [pbSkipVarint, if_neg room, here]
    split_ifs with more
    · rw [ih rest, skipGroups, skipGroups, List.dropWhile_cons_of_pos (by simpa using more)]
    · rw [rest.left, skipGroups, List.dropWhile_cons_of_neg (by simpa using more), List.tail_cons]

/-- Two cursors in the same input are at the same place where the same is left of it. -/
theorem place_of_left (within : Within f g) {h : PbField} (within' : Within f h)
    (left : g.left = h.left) : g.ptr = h.ptr ∧ g.left = h.left := by
  obtain ⟨n, -, ptr, rest⟩ := within
  obtain ⟨m, -, ptr', rest'⟩ := within'
  omega

theorem read_within (unread : Unread mem f bs) (part : rest <:+ bs) (v : ℕ) :
    Within f (f.read v rest) := by
  obtain ⟨pre, rfl⟩ := part
  have left := unread.left
  rw [List.length_append] at left
  refine ⟨pre.length, .inr (by omega), ?_, ?_⟩ <;> simp only [PbField.read] <;> omega

theorem pbDecodeVarint_isSome (mem : ℤ → UInt8) (f : PbField) :
    (pbDecodeVarint mem f).isSome ↔ ∃ c ∈ (unread mem f).take 10, c.toNat < 128 := by
  by_cases nonneg : 0 ≤ f.left
  · rw [pbDecodeVarint_eq (unread_of_nonneg mem nonneg), Option.isSome_map, readVarint,
      Option.isSome_map, readGroups_isSome]
  · rw [pbDecodeVarint_short (by omega), unread_short (by omega)]
    simp

theorem varint_agrees_iff (mem : ℤ → UInt8) (f : PbField) :
    Agrees mem f wtVarint ↔ Clear mem f wtVarint := by
  have skip : pbSkipField mem f wtVarint = (pbSkipVarint mem f, true) := rfl
  have decode : pbDecodeValue mem f wtVarint = pbDecodeVarint mem f := rfl
  have clear : Clear mem f wtVarint ↔ (pbDecodeVarint mem f).isSome :=
    (pbDecodeVarint_isSome mem f).symm
  rw [clear]
  constructor
  · intro agrees
    exact agrees.ok.mp rfl
  · intro decodes
    refine ⟨iff_of_true rfl decodes, fun g found => ?_⟩
    rw [decode] at found
    have room : 0 ≤ f.left := by
      by_contra short
      rw [pbDecodeVarint_short (by omega)] at found
      cases found
    have text := unread_of_nonneg mem room
    rw [pbDecodeVarint_eq text] at found
    obtain ⟨⟨v, rest⟩, read, rfl⟩ := Option.map_eq_some_iff.mp found
    obtain ⟨r, groups, same⟩ := Option.map_eq_some_iff.mp read
    obtain ⟨-, rfl⟩ := Prod.mk.inj same
    obtain ⟨-, c, pre, split⟩ := readVarint_suffix read
    have within : Within f (f.read v r.2) := read_within text ⟨c :: pre, split⟩ v
    rw [skip]
    refine place_of_left (pbSkipVarint_within mem f) within ?_
    rw [pbSkipVarint_left text, readGroups_rest groups]
    rfl

/-- `pb_skip_string` reads the length as `pb_decode_string` does. -/
theorem pbSkipString_eq (mem : ℤ → UInt8) (f : PbField) : match pbDecodeVarint mem f with
    | none => (pbSkipString mem f).2 = false
    | some g => pbSkipString mem f = pbGet g g.i32 := by
  rw [pbDecodeVarint, pbDecodeVarintRest_eq, pbSkipString]
  rcases pbDecodeVarintRest mem 11 0 0 f with ⟨g, ok⟩
  cases ok with
  | false => rfl
  | true => rfl

theorem string_agrees_none (fails : pbDecodeVarint mem f = none) : Agrees mem f wtString := by
  have skip := pbSkipString_eq mem f
  rw [fails] at skip
  have decode : pbDecodeValue mem f wtString = none := by
    change pbDecodeString mem f = none
    rw [pbDecodeString, fails]
  refine ⟨?_, fun g found => ?_⟩
  · change (pbSkipString mem f).2 = true ↔ _
    rw [skip, decode]
    simp
  · rw [decode] at found
    cases found

/-- Behind a length `v`, decoding compares it with what is left, and skipping its low 32 bits. -/
theorem string_agrees_some (int : f.left < 2 ^ 31) (text : Unread mem f bs)
    (read : readVarint bs = some (v, rest)) :
    Agrees mem f wtString ↔ v ≤ rest.length ∨ rest.length < v % 2 ^ 32 := by
  obtain ⟨-, c, pre, split⟩ := readVarint_suffix read
  have total := text.left
  rw [← split, List.length_append, List.length_cons] at total
  have length := pbDecodeVarint_eq text
  rw [read, Option.map_some] at length
  have skip := pbSkipString_eq mem f
  rw [length] at skip
  have decode := pbDecodeString_eq text (by have left := text.left; omega)
  rw [read, Option.bind_some] at decode
  have size : ((rest.length : ℤ) % 2 ^ 64).toNat = rest.length := by omega
  have got : pbSkipField mem f wtString =
      if rest.length < v % 2 ^ 32 then (f.read v rest, false)
      else ({ f.read v rest with
        ptr := (f.read v rest).ptr + (v % 2 ^ 32 : ℕ)
        left := toInt32 (rest.length - (v % 2 ^ 32 : ℕ)) }, true) := by
    change pbSkipString mem f = _
    rw [skip, pbGet]
    simp only [PbField.read, PbField.i32, size]
  have decoded : pbDecodeValue mem f wtString = if v ≤ rest.length then
      some { f.read v (rest.drop v) with data := f.ptr + f.left - rest.length } else none := decode
  by_cases fits : v ≤ rest.length
  · have low : v % 2 ^ 32 = v := Nat.mod_eq_of_lt (by omega)
    rw [if_neg (by omega), low] at got
    rw [if_pos fits] at decoded
    refine iff_of_true ⟨?_, fun g found => ?_⟩ (.inl fits)
    · rw [got, decoded]
      simp
    · rw [decoded] at found
      obtain rfl := Option.some.inj found
      rw [got]
      have left : toInt32 (rest.length - v) = rest.length - v := toInt32_of_lt (by omega) (by omega)
      simp only [PbField.read, left, List.length_drop]
      omega
  · rw [if_neg fits] at decoded
    have fails : Agrees mem f wtString ↔ (pbSkipField mem f wtString).2 = false := by
      constructor
      · intro agrees
        have ok := agrees.ok
        rw [decoded] at ok
        simpa using ok
      · intro failed
        refine ⟨by simp [failed, decoded], fun g found => ?_⟩
        rw [decoded] at found
        cases found
    rw [fails, got]
    split_ifs with short
    · exact iff_of_true rfl (.inr short)
    · exact iff_of_false (by simp) (not_or.mpr ⟨fits, short⟩)

theorem string_agrees_iff (mem : ℤ → UInt8) (int : f.left < 2 ^ 31) :
    Agrees mem f wtString ↔ Clear mem f wtString := by
  have clear : Clear mem f wtString ↔ ∀ v rest, readVarint (unread mem f) = some (v, rest) →
      v ≤ rest.length ∨ rest.length < v % 2 ^ 32 := Iff.rfl
  rw [clear]
  by_cases nonneg : 0 ≤ f.left
  · have text := unread_of_nonneg mem nonneg
    cases read : readVarint (unread mem f) with
    | none =>
      have fails : pbDecodeVarint mem f = none := by rw [pbDecodeVarint_eq text, read, Option.map_none]
      exact iff_of_true (string_agrees_none fails) nofun
    | some r =>
      rw [string_agrees_some int text read]
      constructor
      · rintro one v rest same
        obtain rfl := Option.some.inj same
        exact one
      · intro all
        exact all r.1 r.2 rfl
  · refine iff_of_true (string_agrees_none (pbDecodeVarint_short (by omega))) ?_
    rw [unread_short (by omega)]
    nofun

/-- Reading a number of a fixed width moves the cursor alike, wherever the number is stored. -/
theorem fixed_agrees {wireType : ℕ} {r : Option (ℕ × PbField)} {store : ℕ × PbField → PbField}
    (skip : pbSkipField mem f wireType = moved f r)
    (decode : pbDecodeValue mem f wireType = r.map store)
    (keeps : ∀ x, (store x).ptr = x.2.ptr ∧ (store x).left = x.2.left) : Agrees mem f wireType := by
  constructor
  · rw [skip, decode]
    cases r with
    | none => simp [moved]
    | some x => simp [moved]
  · intro g found
    rw [decode] at found
    obtain ⟨x, rfl, rfl⟩ := Option.map_eq_some_iff.mp found
    rw [skip]
    exact ⟨(keeps x).1.symm, (keeps x).2.symm⟩

/-- A wire type that is not one of the four is refused by both. -/
theorem invalid_agrees (mem : ℤ → UInt8) (f : PbField) {wireType : ℕ} (varint : wireType ≠ wtVarint)
    (fixed64 : wireType ≠ wtFixed64) (string : wireType ≠ wtString) (fixed32 : wireType ≠ wtFixed32) :
    Agrees mem f wireType := by
  have decode : pbDecodeValue mem f wireType = none := by
    simp only [pbDecodeValue, varint, fixed64, string, fixed32, if_false]
  refine ⟨?_, fun g found => ?_⟩
  · rw [decode]
    simp [pbSkipField, varint, fixed64, string, fixed32]
  · rw [decode] at found
    cases found

theorem agrees_iff (mem : ℤ → UInt8) (int : f.left < 2 ^ 31) (wireType : ℕ) :
    Agrees mem f wireType ↔ Clear mem f wireType := by
  by_cases varint : wireType = wtVarint
  · rw [varint]
    exact varint_agrees_iff mem f
  by_cases string : wireType = wtString
  · rw [string]
    exact string_agrees_iff mem int
  have clear : Clear mem f wireType := by
    rw [Clear, if_neg varint, if_neg string]
    trivial
  refine iff_of_true ?_ clear
  by_cases fixed64 : wireType = wtFixed64
  · rw [fixed64]
    exact fixed_agrees rfl rfl fun _ => ⟨rfl, rfl⟩
  by_cases fixed32 : wireType = wtFixed32
  · rw [fixed32]
    exact fixed_agrees rfl rfl fun _ => ⟨rfl, rfl⟩
  exact invalid_agrees mem f varint fixed64 string fixed32

end Agreement

section Main

/-- `pb_skip_field` agrees with decoding exactly where the varint, or the length of the string, is as
it should be; and it never moves the cursor past the end of the input. -/
theorem pbSkipField_iff (mem : ℤ → UInt8) (f : PbField) (int : f.left < 2 ^ 31) (wireType : ℕ) :
    Agrees mem f wireType ∧ (pbSkipField mem f wireType).1.ptr ≤ max f.ptr (f.ptr + f.left) ↔
      Clear mem f wireType := by
  rw [agrees_iff mem int, and_iff_left (pbSkipField_within mem int wireType).le_end]

/-- A cursor in front of `left` bytes. -/
def cursor (left : ℤ) : PbField := ⟨0, 0, 0, 0, 0, left⟩

/-- The length 2 as a varint of two bytes, two bytes, and what follows them. -/
def lengthTwo (p : ℤ) : UInt8 := if p = 0 then 130 else if p = 1 then 0 else 7

theorem pbSkipField_string : Agrees lengthTwo (cursor 6) wtString ∧
    (pbSkipField lengthTwo (cursor 6) wtString).1.ptr ≤ 6 := by
  have two : readVarint (unread lengthTwo (cursor 6)) = some (2, [7, 7, 7, 7]) := by decide
  have clear : Clear lengthTwo (cursor 6) wtString := by
    intro v rest read
    obtain ⟨rfl, rfl⟩ := Prod.mk.inj (Option.some.inj (two.symm.trans read))
    exact .inl (by decide)
  exact (pbSkipField_iff lengthTwo (cursor 6) (by decide) wtString).mpr clear

/-- The byte 0x80 is no varint, but it is skipped as one. -/
theorem truncated_skipped : ¬ ∀ (mem : ℤ → UInt8) (f : PbField) (wireType : ℕ), f.left < 2 ^ 31 →
    Agrees mem f wireType ∧
      (pbSkipField mem f wireType).1.ptr ≤ max f.ptr (f.ptr + f.left) := by
  intro claim
  have agrees := (claim (fun _ => 128) (cursor 1) wtVarint (by decide)).1
  have skipped : (pbSkipField (fun _ => 128) (cursor 1) wtVarint).2 = true := rfl
  have refused : (pbDecodeValue (fun _ => 128) (cursor 1) wtVarint).isSome = false := by decide
  rw [agrees.ok.mp skipped] at refused
  cases refused

end Main

end Conet.Base.PbcSkip
