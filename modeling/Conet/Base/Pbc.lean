/- Module: Conet/Base/Pbc
   source: base/pbc.h, base/src/pbc.cpp
   digest: The reader and the writer of protobuf fields. -/

import Conet.Lib.Protobuf

set_option autoImplicit false
set_option relaxedAutoImplicit false

namespace Conet.Base.Pbc

open Conet.Lib Conet.Lib.Protobuf

/-- The conversion to `int`. -/
def toInt32 (x : ℤ) : ℤ := (x + 2 ^ 31) % 2 ^ 32 - 2 ^ 31

/-- `pb_wire_type_t`. -/
def wtVarint : ℕ := 0

def wtFixed64 : ℕ := 1

def wtString : ℕ := 2

def wtFixed32 : ℕ := 5

section Reader

/-- `pb_field_t`. The union `val` is `i64`, whose low half is `i32` and `str.len`, and the pointer
`str.data` behind it. -/
@[ext] structure PbField where
  tag : ℕ
  type : ℕ
  i64 : ℕ
  data : ℤ
  ptr : ℤ
  left : ℤ

namespace PbField

/-- `val.i32`, and `val.str.len`. -/
def i32 (f : PbField) : ℕ := f.i64 % 2 ^ 32

def setI32 (f : PbField) (v : ℕ) : PbField := { f with i64 := f.i64 / 2 ^ 32 * 2 ^ 32 + v % 2 ^ 32 }

/-- The cursor after `n` more bytes. -/
def skip (f : PbField) (n : ℕ) : PbField := { f with ptr := f.ptr + n, left := f.left - n }

end PbField

variable (mem : ℤ → UInt8)

def pbGetByte (f : PbField) : Option (UInt8 × PbField) :=
  if f.left < 1 then none else some (mem f.ptr, f.skip 1)

def pbGetDword (f : PbField) : Option (ℕ × PbField) :=
  if f.left < 4 then none else some (leNat (slice mem f.ptr 4), f.skip 4)

def pbGetDdword (f : PbField) : Option (ℕ × PbField) :=
  if f.left < 8 then none else some (leNat (slice mem f.ptr 8), f.skip 8)

/-- The loop of `pb_decode_varint`. -/
def pbDecodeVarintLoop : ℕ → ℕ → ℕ → PbField → Option PbField
  | 0, _, _, _ => none
  | n + 1, bitpos, result, f =>
    if bitpos ≥ 64 then none
    else
      match pbGetByte mem f with
      | none => none
      | some (byte, f) =>
        let result := (result ||| (byte.toNat % 128) <<< bitpos) % 2 ^ 64
        if byte.toNat ≥ 128 then pbDecodeVarintLoop n ((bitpos + 7) % 256) result f
        else some { f with i64 := result }

/-- `pb_decode_varint`; `none` stands for the returned error. The eleventh round ends the loop. -/
def pbDecodeVarint (f : PbField) : Option PbField := pbDecodeVarintLoop mem 11 0 0 f

def pbDecodeFixed32 (f : PbField) : Option PbField :=
  (pbGetDword mem f).map fun r => r.2.setI32 r.1

def pbDecodeFixed64 (f : PbField) : Option PbField :=
  (pbGetDdword mem f).map fun r => { r.2 with i64 := r.1 }

def pbDecodeString (f : PbField) : Option PbField :=
  match pbDecodeVarint mem f with
  | none => none
  | some f =>
    if (f.i64 : ℤ) > f.left % 2 ^ 64 then none
    else
      let sz := f.i64 % 2 ^ 32
      let f := f.setI32 sz
      some ({ f with data := f.ptr }.skip sz)

def pbDecodeTag (f : PbField) : Option PbField :=
  match pbDecodeVarint mem f with
  | none => none
  | some f =>
    if f.i64 = 0 then none
    else
      let f := { f with tag := f.i64 / 8 % 2 ^ 32, type := f.i32 % 8 }
      if f.type = wtVarint then pbDecodeVarint mem f
      else if f.type = wtFixed64 then pbDecodeFixed64 mem f
      else if f.type = wtString then pbDecodeString mem f
      else if f.type = wtFixed32 then pbDecodeFixed32 mem f
      else none

/-- `pb_begin`: `f` holds what its memory held before. -/
def pbBegin (f : PbField) (data dlen : ℤ) : Option PbField :=
  pbDecodeTag mem { f with ptr := data, left := dlen }

def pbNext (f : PbField) : Option PbField := pbDecodeTag mem f

end Reader

section Writer

/-- `pb_buff_t`, with what has been written from `start` on; `ptr` is behind it. -/
@[ext] structure PbBuff where
  out : List UInt8
  size : ℕ
  left : ℤ

def pbInitBuff (sz : ℕ) : PbBuff := ⟨[], (toInt32 sz % 2 ^ 64).toNat, toInt32 sz⟩

/-- `pb_add` with its return value. -/
def pbAdd (b : PbBuff) (buf : List UInt8) : PbBuff × ℤ :=
  if (b.left % 2 ^ 64).toNat < buf.length then (b, -1)
  else ({ b with out := b.out ++ buf, left := toInt32 (b.left - buf.length) }, 0)

def pbAddDword (b : PbBuff) (val : ℕ) : PbBuff × ℤ :=
  if b.left < 4 then (b, -1)
  else ({ b with out := b.out ++ leBytes 4 val, left := toInt32 (b.left - 4) }, 0)

/-- The loop of `pb_add_vint`, for a value that is not zero. -/
def pbVintGroups : ℕ → ℕ → List UInt8
  | 0, _ => []
  | n + 1, value => if value = 0 then [] else
    UInt8.ofNat (value % 128 + 128) :: pbVintGroups n (value / 128)

/-- `buffer[i-1] &= 0x7F`. -/
def clearLast (buffer : List UInt8) : List UInt8 :=
  buffer.dropLast ++ buffer.getLast?.toList.map fun c => UInt8.ofNat (c.toNat % 128)

def pbAddVint (b : PbBuff) (value : ℕ) : PbBuff × ℤ :=
  if value = 0 then pbAdd b [0] else pbAdd b (clearLast (pbVintGroups 10 value))

def pbAddTag (b : PbBuff) (wiretype fieldNumber : ℕ) : PbBuff × ℤ :=
  pbAddVint b (wiretype ||| fieldNumber <<< 3)

def pbAddVarint (b : PbBuff) (tag value : ℕ) : PbBuff × ℤ :=
  match pbAddTag b wtVarint tag with
  | (b, 0) => pbAddVint b value
  | (b, _) => (b, -1)

def pbAddString (b : PbBuff) (tag : ℕ) (buffer : List UInt8) : PbBuff × ℤ :=
  match pbAddTag b wtString tag with
  | (b, 0) =>
    match pbAddVint b buffer.length with
    | (b, 0) => pbAdd b buffer
    | (b, _) => (b, -2)
  | (b, _) => (b, -1)

def pbAddStringHead (b : PbBuff) (tag size : ℕ) : PbBuff × ℤ :=
  match pbAddTag b wtString tag with
  | (b, 0) => pbAddVint b size
  | (b, _) => (b, -1)

def pbAddFixed32 (b : PbBuff) (tag value : ℕ) : PbBuff × ℤ :=
  match pbAddTag b wtFixed32 tag with
  | (b, 0) => pbAddDword b value
  | (b, _) => (b, -1)

def pbGetEncodedLength (b : PbBuff) : ℤ := toInt32 (b.size - b.left)

end Writer

section Reading

variable {mem : ℤ → UInt8} {f : PbField} {bs : List UInt8}

structure Unread (mem : ℤ → UInt8) (f : PbField) (bs : List UInt8) : Prop where
  left : f.left = bs.length
  text : slice mem f.ptr bs.length = bs

theorem Unread.skip (unread : Unread mem f bs) {n : ℕ} (le : n ≤ bs.length) :
    Unread mem (f.skip n) (bs.drop n) ∧ slice mem f.ptr n = bs.take n := by
  obtain ⟨left, text⟩ := unread
  obtain ⟨k, hk⟩ := Nat.exists_eq_add_of_le le
  rw [hk, slice_add] at text
  obtain ⟨first, second⟩ : slice mem f.ptr n = bs.take n ∧ slice mem (f.ptr + n) k = bs.drop n := by
    constructor
    · have := congrArg (List.take n) text
      simpa using this
    · have := congrArg (List.drop n) text
      simpa using this
  refine ⟨⟨?_, ?_⟩, first⟩
  · simp only [PbField.skip, left, List.length_drop]
    omega
  · rw [List.length_drop, show bs.length - n = k by omega]
    exact second

theorem pbGetByte_nil (unread : Unread mem f []) : pbGetByte mem f = none := by
  rw [pbGetByte, if_pos (by simp [unread.left])]

theorem pbGetByte_cons {c : UInt8} (unread : Unread mem f (c :: bs)) :
    pbGetByte mem f = some (c, f.skip 1) ∧ Unread mem (f.skip 1) bs := by
  obtain ⟨rest, first⟩ := unread.skip (n := 1) (by simp)
  have byte : mem f.ptr = c := by simpa [slice] using first
  rw [pbGetByte, if_neg (by simp [unread.left]), byte]
  exact ⟨rfl, rest⟩

/-- Or-ing a group in above the bits that are there. -/
theorem or_group {result bitpos x : ℕ} (lt : result < 2 ^ bitpos) :
    result ||| x <<< bitpos = result + 2 ^ bitpos * x := by
  rw [Nat.shiftLeft_eq, Nat.or_comm, Nat.mul_comm, ← Nat.two_pow_add_eq_or_of_lt lt, Nat.add_comm]

/-- The cursor in front of `rest`, which ends where the text ends, after a number is read. -/
def PbField.read (f : PbField) (v : ℕ) (rest : List UInt8) : PbField :=
  { f with i64 := v, ptr := f.ptr + f.left - rest.length, left := rest.length }

@[simp] theorem PbField.skip_read (f : PbField) (n v : ℕ) (rest : List UInt8) :
    (f.skip n).read v rest = f.read v rest := by
  simp [PbField.read, PbField.skip]

@[simp] theorem PbField.read_read (f : PbField) (v v' : ℕ) (rest rest' : List UInt8) :
    (f.read v rest).read v' rest' = f.read v' rest' := by
  simp [PbField.read]

theorem Unread.read {pre rest : List UInt8} (unread : Unread mem f (pre ++ rest)) (v : ℕ) :
    Unread mem (f.read v rest) rest := by
  obtain ⟨⟨left, text⟩, -⟩ := unread.skip (n := pre.length) (by simp)
  refine ⟨rfl, ?_⟩
  have ptr : f.ptr + f.left - rest.length = f.ptr + pre.length := by
    rw [unread.left, List.length_append]
    omega
  simpa [PbField.read, ptr, PbField.skip] using text

theorem pbDecodeVarintLoop_eq (unread : Unread mem f bs) {k result : ℕ} (le : k ≤ 10)
    (lt : k = 0 ∨ result < 2 ^ (7 * (10 - k))) :
    pbDecodeVarintLoop mem (k + 1) (7 * (10 - k)) result f =
      (readGroups k bs).map fun r => f.read ((result + 2 ^ (7 * (10 - k)) * r.1) % 2 ^ 64) r.2 := by
  induction k generalizing f bs result with
  | zero => simp [pbDecodeVarintLoop, readGroups]
  | succ k ih =>
    have small := lt.resolve_left (by omega)
    have next : 7 * (10 - k) = 7 * (10 - (k + 1)) + 7 := by omega
    generalize 7 * (10 - (k + 1)) = bitpos at small next
    rw [pbDecodeVarintLoop, if_neg (by omega)]
    cases bs with
    | nil => simp [pbGetByte_nil unread, readGroups]
    | cons c bs =>
      obtain ⟨byte, unread'⟩ := pbGetByte_cons unread
      have high : c.toNat < 256 := c.toNat_lt
      simp only [byte, or_group small, readGroups]
      by_cases last : c.toNat < 128
      · rw [if_neg (by omega), if_pos last, Nat.mod_eq_of_lt last]
        simp [PbField.read, PbField.skip, unread.left]
        omega
      · have low : c.toNat % 128 = c.toNat - 128 := by omega
        have sum : k = 0 ∨
            (result + 2 ^ bitpos * (c.toNat % 128)) % 2 ^ 64 < 2 ^ (7 * (10 - k)) := by
          rcases Nat.eq_zero_or_pos k with zero | pos
          · exact .inl zero
          · right
            rw [next, pow_add]
            refine (Nat.mod_le _ _).trans_lt ?_
            have group : 2 ^ bitpos * (c.toNat % 128) ≤ 2 ^ bitpos * 127 :=
              Nat.mul_le_mul_left _ (by omega)
            omega
        rw [if_pos (by omega), if_neg last, show (bitpos + 7) % 256 = 7 * (10 - k) by omega,
          ih unread' (by omega) sum, Option.map_map]
        congr 1
        funext r
        have value : result + 2 ^ bitpos * (c.toNat - 128) + 2 ^ (bitpos + 7) * r.1 =
            result + 2 ^ bitpos * (c.toNat - 128 + 128 * r.1) := by ring
        simp only [Function.comp_apply, PbField.skip_read, next, low, Nat.mod_add_mod, value]

/-- `pb_decode_varint` reads the varint at the start of the text. -/
theorem pbDecodeVarint_eq (unread : Unread mem f bs) :
    pbDecodeVarint mem f = (readVarint bs).map fun r => f.read r.1 r.2 := by
  have loop := pbDecodeVarintLoop_eq unread (k := 10) (le_refl 10) (.inr (show 0 < 2 ^ 0 by simp))
  simp only [Nat.sub_self, Nat.mul_zero, pow_zero, Nat.one_mul, Nat.zero_add] at loop
  rw [pbDecodeVarint, loop, readVarint, Option.map_map]
  rfl

theorem Unread.take (unread : Unread mem f bs) {n : ℕ} (le : n ≤ bs.length) (v : ℕ) :
    f.skip n = { f.read v (bs.drop n) with i64 := f.i64 } ∧ slice mem f.ptr n = bs.take n := by
  refine ⟨?_, (unread.skip le).2⟩
  ext <;> simp [PbField.skip, PbField.read, unread.left] <;> omega

/-- `val.i64` after a field. The low half is all that a fixed32 writes; above it the tag stays. -/
def word (fd : Field) : ℕ :=
  match fd.value with
  | .varint v => v
  | .fixed64 v => v
  | .bytes s => s.length
  | .fixed32 v => (fd.num * 8 + wtFixed32) / 2 ^ 32 * 2 ^ 32 + v

/-- What a field and the bytes behind it leave in `pb_field_t`. -/
def PbField.take (f : PbField) (fd : Field) (rest : List UInt8) : PbField :=
  { f.read (word fd) rest with
    tag := fd.num % 2 ^ 32
    type := fd.value.wireType
    data := match fd.value with
      | .bytes s => f.ptr + f.left - rest.length - s.length
      | _ => f.data }

theorem pbDecodeFixed32_eq (unread : Unread mem f bs) : pbDecodeFixed32 mem f =
    if 4 ≤ bs.length then
      some (f.read (f.i64 / 2 ^ 32 * 2 ^ 32 + leNat (bs.take 4)) (bs.drop 4))
    else none := by
  rw [pbDecodeFixed32, pbGetDword]
  by_cases enough : 4 ≤ bs.length
  · obtain ⟨skip, slice⟩ := unread.take enough 0
    have small := leNat_lt (bs.take 4)
    rw [List.length_take, Nat.min_eq_left enough] at small
    rw [if_neg (by rw [unread.left]; omega), if_pos enough, slice, skip]
    have mod : leNat (bs.take 4) % 2 ^ 32 = leNat (bs.take 4) := Nat.mod_eq_of_lt (by omega)
    simp only [Option.map_some, PbField.setI32, PbField.read, mod]
  · rw [if_pos (by rw [unread.left]; omega), if_neg enough]
    rfl

theorem pbDecodeFixed64_eq (unread : Unread mem f bs) : pbDecodeFixed64 mem f =
    if 8 ≤ bs.length then some (f.read (leNat (bs.take 8)) (bs.drop 8)) else none := by
  rw [pbDecodeFixed64, pbGetDdword]
  by_cases enough : 8 ≤ bs.length
  · obtain ⟨skip, slice⟩ := unread.take enough 0
    rw [if_neg (by rw [unread.left]; omega), if_pos enough, slice, skip]
    rfl
  · rw [if_pos (by rw [unread.left]; omega), if_neg enough]
    rfl

theorem pbDecodeString_eq (unread : Unread mem f bs) (lt : bs.length < 2 ^ 31) :
    pbDecodeString mem f = (readVarint bs).bind fun r =>
      if r.1 ≤ r.2.length then
        some { f.read r.1 (r.2.drop r.1) with data := f.ptr + f.left - r.2.length }
      else none := by
  rw [pbDecodeString, pbDecodeVarint_eq unread]
  cases read : readVarint bs with
  | none => rfl
  | some r =>
    obtain ⟨v, rest⟩ := r
    obtain ⟨-, c, pre, rfl⟩ := readVarint_suffix read
    simp only [List.length_append, List.length_cons] at lt
    have left : (rest.length : ℤ) % 2 ^ 64 = rest.length := Int.emod_eq_of_lt (by omega) (by omega)
    simp only [Option.map_some, Option.bind_some, PbField.read, left]
    by_cases inside : v ≤ rest.length
    · rw [if_neg (by omega), if_pos inside]
      simp only [PbField.setI32, PbField.skip, List.length_drop, Option.some.injEq]
      ext <;> simp <;> omega
    · rw [if_pos (by omega), if_neg inside]

/-- `pb_decode_tag` reads the field at the start of the text. -/
theorem pbDecodeTag_eq (unread : Unread mem f bs) (lt : bs.length < 2 ^ 31) :
    pbDecodeTag mem f = (readField bs).map fun r => f.take r.1 r.2 := by
  rw [pbDecodeTag, pbDecodeVarint_eq unread, readField]
  cases tag : readVarint bs with
  | none => rfl
  | some r =>
    obtain ⟨t, rest⟩ := r
    obtain ⟨-, c, pre, rfl⟩ := readVarint_suffix tag
    have unread' := unread.read t
    have lt' : rest.length < 2 ^ 31 := by
      rw [List.length_append] at lt
      omega
    have low : (f.read t rest).i32 % 8 = t % 8 := by
      simp only [PbField.i32, PbField.read]
      omega
    simp only [Option.map_some, Option.bind_some, low]
    by_cases zero : t = 0
    · simp [zero, PbField.read]
    rw [if_neg zero, if_neg (show (f.read t rest).i64 ≠ 0 from zero)]
    generalize hg :
      { f.read t rest with tag := (f.read t rest).i64 / 8 % 2 ^ 32, type := t % 8 } = g
    have unread'' : Unread mem g rest := hg ▸ ⟨unread'.left, unread'.text⟩
    have type : g.type = t % 8 := hg ▸ rfl
    have unfolded : g = { f.read t rest with tag := t / 8 % 2 ^ 32, type := t % 8 } := hg.symm
    have ways : t % 8 = 0 ∨ t % 8 = 1 ∨ t % 8 = 2 ∨ t % 8 = 5 ∨
        t % 8 = 3 ∨ t % 8 = 4 ∨ t % 8 = 6 ∨ t % 8 = 7 := by omega
    rcases ways with way | way | way | way | way
    · simp only [way, wtVarint, if_true, readValue, pbDecodeVarint_eq unread'', Option.map_map]
      congr 1
      funext r
      simp [unfolded, way, PbField.take, PbField.read, word, Value.wireType]
    · simp only [way, wtVarint, wtFixed64, one_ne_zero, if_false, if_true, readValue,
        pbDecodeFixed64_eq unread'']
      split_ifs
      · simp [unfolded, way, PbField.take, PbField.read, word, Value.wireType]
      · rfl
    · simp only [way, wtVarint, wtFixed64, wtString, OfNat.ofNat_ne_zero, OfNat.ofNat_ne_one,
        if_false, if_true, readValue, pbDecodeString_eq unread'' lt']
      cases len : readVarint rest with
      | none => rfl
      | some r =>
        obtain ⟨v, rest'⟩ := r
        simp only [Option.bind_some]
        split_ifs with inside
        · simp only [Option.map_some, Option.some.injEq, unfolded, PbField.take, PbField.read, word,
            Value.wireType, way, List.length_drop, List.length_take, Nat.min_eq_left inside]
          ext <;> simp
          omega
        · rfl
    · simp only [way, wtVarint, wtFixed64, wtString, wtFixed32, OfNat.ofNat_ne_zero,
        OfNat.ofNat_ne_one, show (5 : ℕ) ≠ 2 by decide, if_false, if_true, readValue,
        pbDecodeFixed32_eq unread'']
      split_ifs
      · have back : t / 8 * 8 + 5 = t := by omega
        simp [unfolded, way, PbField.take, PbField.read, word, Value.wireType, wtFixed32, back]
      · rfl
    -- wire types that are not in use
    · rcases way with way | way | way | way <;>
        simp [way, wtVarint, wtFixed64, wtString, wtFixed32, readValue]

theorem Unread.next (unread : Unread mem f bs) {fd : Field} {rest : List UInt8}
    (read : readField bs = some (fd, rest)) : Unread mem (f.take fd rest) rest := by
  obtain ⟨c, pre, rfl⟩ := readField_suffix read
  have unread' := unread.read 0
  exact ⟨unread'.left, unread'.text⟩

end Reading

section Writing

variable {b : PbBuff} {v n k : ℕ}

theorem toInt32_of_lt {x : ℤ} (nonneg : 0 ≤ x) (lt : x < 2 ^ 31) : toInt32 x = x := by
  unfold toInt32
  omega

theorem toInt32_of_ge {x : ℤ} (ge : 2 ^ 31 ≤ x) (lt : x < 2 ^ 32) : toInt32 x = x - 2 ^ 32 := by
  unfold toInt32
  omega

theorem toInt32_sub (x y : ℤ) : toInt32 (toInt32 x - y) = toInt32 (x - y) := by
  unfold toInt32
  omega

theorem toInt32_congr {x y : ℤ} (h : x % 2 ^ 32 = y % 2 ^ 32) : toInt32 x = toInt32 y := by
  unfold toInt32
  omega

theorem toInt32_emod (x : ℤ) : toInt32 x % 2 ^ 32 = x % 2 ^ 32 := by
  unfold toInt32
  omega

theorem toInt32_used (x y : ℤ) : toInt32 (toInt32 x % 2 ^ 64 - toInt32 (x - y)) = toInt32 y := by
  apply toInt32_congr
  have size := toInt32_emod x
  have left := toInt32_emod (x - y)
  generalize toInt32 x = size' at *
  generalize toInt32 (x - y) = left' at *
  omega

theorem clearLast_vintGroups (pos : 0 < v) (lt : v < 128 ^ (k + 1)) :
    clearLast (pbVintGroups (k + 1) v) = groups k v := by
  induction k generalizing v with
  | zero =>
    have low : (v % 128 + 128) % 256 % 128 = v := by omega
    simp [pbVintGroups, pos.ne', clearLast, groups, low]
  | succ k ih =>
    rw [pbVintGroups, if_neg pos.ne', groups]
    by_cases small : v < 128
    · have quot : v / 128 = 0 := by omega
      have low : (v % 128 + 128) % 256 % 128 = v := by omega
      simp [quot, pbVintGroups, clearLast, small, low]
    · have quot : v / 128 < 128 ^ (k + 1) := by
        rw [Nat.div_lt_iff_lt_mul (by omega), ← pow_succ]
        exact lt
      have tail := ih (show 0 < v / 128 by omega) quot
      rw [if_neg small, ← tail]
      have more : pbVintGroups (k + 1) (v / 128) ≠ [] := by
        rw [pbVintGroups, if_neg (by omega)]
        exact List.cons_ne_nil _ _
      obtain ⟨c, cs, eq⟩ := List.exists_cons_of_ne_nil more
      simp [eq, clearLast]

theorem pbAddVint_eq (b : PbBuff) (lt : v < 2 ^ 64) : pbAddVint b v = pbAdd b (varint v) := by
  rw [pbAddVint]
  split_ifs with zero
  · rw [zero]
    rfl
  · rw [clearLast_vintGroups (by omega) (lt.trans (by decide)), varint]

theorem pbAddTag_eq (b : PbBuff) (hk : k < 8) (hn : n < 2 ^ 32) :
    pbAddTag b k n = pbAdd b (varint (n * 8 + k)) := by
  have tag : k ||| n <<< 3 = n * 8 + k := by
    rw [or_group (show k < 2 ^ 3 from hk)]
    omega
  rw [pbAddTag, tag, pbAddVint_eq b (by omega)]

end Writing

/-! ### Fields in pieces -/

/-- What one call of `pb_add` or `pb_add_dword` writes. -/
inductive Piece
  | bytes (s : List UInt8)
  | dword (v : ℕ)

namespace Piece

def wire : Piece → List UInt8
  | bytes s => s
  | dword v => leBytes 4 v

/-- The checks of `pb_add` and `pb_add_dword`. -/
def refused (left : ℤ) : Piece → Bool
  | bytes s => decide ((left % 2 ^ 64).toNat < s.length)
  | dword _ => decide (left < 4)

def isDword : Piece → Bool
  | bytes _ => false
  | dword _ => true

end Piece

/-- Pieces one after another up to one that is refused, and whether none is. -/
@[grind =] def put (b : PbBuff) : List Piece → PbBuff × Bool
  | [] => (b, true)
  | p :: ps =>
    if p.refused b.left then (b, false)
    else put { b with
      out := b.out ++ p.wire
      left := toInt32 (b.left - p.wire.length) } ps

/-- Fields one after another, each as far as it goes, and whether all are complete. -/
@[grind =] def putAll (b : PbBuff) : List (List Piece) → PbBuff × Bool
  | [] => (b, true)
  | f :: fs => ((putAll (put b f).1 fs).1, (put b f).2 && (putAll (put b f).1 fs).2)

def text (ps : List Piece) : List UInt8 := ps.flatMap Piece.wire

section Pieces

variable {b : PbBuff} {p : Piece} {ps : List Piece} {fs : List (List Piece)} {L : ℤ} {n : ℕ}

theorem putAll_append (b : PbBuff) (fs gs : List (List Piece)) : putAll b (fs ++ gs) =
    ((putAll (putAll b fs).1 gs).1, (putAll b fs).2 && (putAll (putAll b fs).1 gs).2) := by
  induction fs generalizing b with
  | nil => simp [putAll]
  | cons f fs ih => simp [putAll, ih, Bool.and_assoc]

theorem put_ok (ok : (put b ps).2 = true) : (put b ps).1.out = b.out ++ text ps := by
  induction ps generalizing b with
  | nil => simp [put, text]
  | cons p ps ih =>
    rw [put] at ok ⊢
    split_ifs at ok ⊢
    simp [ih ok, text]

theorem putAll_ok (ok : (putAll b fs).2 = true) :
    (putAll b fs).1.out = b.out ++ fs.flatMap text := by
  induction fs generalizing b with
  | nil => simp [putAll]
  | cons f fs ih =>
    simp only [putAll, Bool.and_eq_true] at ok ⊢
    rw [ih ok.2, put_ok ok.1]
    simp

/-- `left` counts what is written down from `L`. -/
def Counts (b : PbBuff) (L : ℤ) : Prop := b.left = toInt32 (L - b.out.length)

theorem Counts.add (counts : Counts b L) (s : List UInt8) :
    Counts { b with out := b.out ++ s, left := toInt32 (b.left - s.length) } L := by
  have sum : L - b.out.length - s.length = L - (b.out ++ s).length := by
    rw [List.length_append]
    push_cast
    ring
  exact (congrArg (fun x => toInt32 (x - s.length)) counts).trans
    ((toInt32_sub _ _).trans (congrArg toInt32 sum))

theorem Counts.put (counts : Counts b L) (ps : List Piece) : Counts (put b ps).1 L := by
  induction ps generalizing b with
  | nil => exact counts
  | cons p ps ih =>
    rw [Pbc.put]
    split_ifs
    · exact counts
    · exact ih (counts.add p.wire)

theorem Counts.putAll (counts : Counts b L) (fs : List (List Piece)) :
    Counts (putAll b fs).1 L := by
  induction fs generalizing b with
  | nil => exact counts
  | cons f fs ih => exact ih (counts.put f)

@[simp] theorem put_size (b : PbBuff) (ps : List Piece) : (put b ps).1.size = b.size := by
  induction ps generalizing b with
  | nil => rfl
  | cons p ps ih =>
    rw [put]
    split_ifs
    · rfl
    · exact ih _

@[simp] theorem putAll_size (b : PbBuff) (fs : List (List Piece)) :
    (putAll b fs).1.size = b.size := by
  induction fs generalizing b with
  | nil => rfl
  | cons f fs ih => exact (ih _).trans (put_size b f)

/-- How far pieces get in a buffer of `L` bytes that holds `n` already, by their lengths alone, and
whether none of them is refused. -/
@[grind =] def laid (L : ℤ) (n : ℕ) : List Piece → ℕ × Bool
  | [] => (n, true)
  | p :: ps =>
    if p.refused (toInt32 (L - n)) then (n, false) else laid L (n + p.wire.length) ps

@[grind =] def laidAll (L : ℤ) (n : ℕ) : List (List Piece) → ℕ × Bool
  | [] => (n, true)
  | f :: fs => ((laidAll L (laid L n f).1 fs).1, (laid L n f).2 && (laidAll L (laid L n f).1 fs).2)

theorem Counts.put_laid (counts : Counts b L) (ps : List Piece) :
    ((Pbc.put b ps).1.out.length, (Pbc.put b ps).2) = laid L b.out.length ps := by
  induction ps generalizing b with
  | nil => rfl
  | cons p ps ih =>
    rw [Pbc.put, laid, ← show b.left = _ from counts]
    split_ifs
    · rfl
    · have tail := ih (counts.add p.wire)
      rwa [List.length_append] at tail

theorem Counts.putAll_laid (counts : Counts b L) (fs : List (List Piece)) :
    ((Pbc.putAll b fs).1.out.length, (Pbc.putAll b fs).2) = laidAll L b.out.length fs := by
  induction fs generalizing b with
  | nil => rfl
  | cons f fs ih =>
    have first := counts.put_laid f
    have tail := ih (counts.put f)
    simp only [Pbc.putAll, laidAll, ← first, ← tail]

theorem laid_full (ok : (laid L n ps).2 = true) : (laid L n ps).1 = n + (text ps).length := by
  induction ps generalizing n with
  | nil => simp [laid, text]
  | cons p ps ih =>
    rw [laid] at ok ⊢
    split_ifs at ok ⊢
    rw [ih ok]
    simp [text]
    omega

theorem laid_le_text (L : ℤ) (n : ℕ) (ps : List Piece) :
    n ≤ (laid L n ps).1 ∧ (laid L n ps).1 ≤ n + (text ps).length := by
  induction ps generalizing n with
  | nil => simp [laid, text]
  | cons p ps ih =>
    rw [laid]
    split_ifs
    · simp
    · have tail := ih (n + p.wire.length)
      simp only [text, List.flatMap_cons, List.length_append] at tail ⊢
      omega

theorem laid_short (real : ∀ p ∈ ps, p.wire ≠ []) (short : (laid L n ps).2 = false) :
    (laid L n ps).1 < n + (text ps).length := by
  induction ps generalizing n with
  | nil => simp [laid] at short
  | cons p ps ih =>
    have pos : 0 < p.wire.length := List.length_pos_of_ne_nil (real p (by simp))
    rw [laid] at short ⊢
    simp only [text, List.flatMap_cons, List.length_append]
    split_ifs at short ⊢
    · simp only
      omega
    · have tail := ih (fun q hq => real q (by simp [hq])) short
      simp only [text] at tail
      omega

theorem laidAll_full (ok : (laidAll L n fs).2 = true) :
    (laidAll L n fs).1 = n + (fs.flatMap text).length := by
  induction fs generalizing n with
  | nil => simp [laidAll]
  | cons f fs ih =>
    simp only [laidAll, Bool.and_eq_true] at ok ⊢
    rw [ih ok.2, laid_full ok.1]
    simp
    omega

theorem laidAll_le_text (L : ℤ) (n : ℕ) (fs : List (List Piece)) :
    (laidAll L n fs).1 ≤ n + (fs.flatMap text).length := by
  induction fs generalizing n with
  | nil => simp [laidAll]
  | cons f fs ih =>
    have first := laid_le_text L n f
    have tail := ih (laid L n f).1
    simp only [laidAll, List.flatMap_cons, List.length_append]
    omega

theorem laidAll_short (real : ∀ f ∈ fs, ∀ p ∈ f, p.wire ≠ []) (short : (laidAll L n fs).2 = false) :
    (laidAll L n fs).1 < n + (fs.flatMap text).length := by
  induction fs generalizing n with
  | nil => simp [laidAll] at short
  | cons f fs ih =>
    have first := laid_le_text L n f
    have tail := laidAll_le_text L (laid L n f).1 fs
    simp only [laidAll, List.flatMap_cons, List.length_append] at short ⊢
    cases ok : (laid L n f).2 with
    | false =>
      have less := laid_short (real f (by simp)) ok
      omega
    | true =>
      have less := ih (fun g hg => real g (by simp [hg])) (by simpa [ok] using short)
      omega

/-- Pieces for which there is room are all accepted. -/
theorem laid_fits (lt : L < 2 ^ 32) (room : (n + (text ps).length : ℕ) ≤ L)
    (dwords : L - n < 2 ^ 31 ∨ ∀ p ∈ ps, p.isDword = false) : (laid L n ps).2 = true := by
  induction ps generalizing n with
  | nil => rfl
  | cons p ps ih =>
    simp only [text, List.flatMap_cons, List.length_append] at room
    have accepted : p.refused (toInt32 (L - n)) = false := by
      cases p with
      | bytes s =>
        simp only [Piece.wire] at room
        simp only [Piece.refused, decide_eq_false_iff_not, not_lt]
        unfold toInt32
        omega
      | dword v =>
        have small : L - n < 2 ^ 31 := dwords.resolve_right fun none => by
          simpa [Piece.isDword] using none (.dword v) (by simp)
        simp only [Piece.wire, leBytes_length] at room
        simp only [Piece.refused, decide_eq_false_iff_not, not_lt]
        rw [toInt32_of_lt (by omega) (by omega)]
        omega
    rw [laid, accepted, if_neg (by simp)]
    apply ih
    · simp only [text]
      omega
    · rcases dwords with small | none
      · exact .inl (by omega)
      · exact .inr fun q hq => none q (by simp [hq])

theorem laidAll_fits (lt : L < 2 ^ 32) (room : (n + (fs.flatMap text).length : ℕ) ≤ L)
    (dwords : L - n < 2 ^ 31 ∨ ∀ f ∈ fs, ∀ p ∈ f, p.isDword = false) :
    (laidAll L n fs).2 = true := by
  induction fs generalizing n with
  | nil => rfl
  | cons f fs ih =>
    simp only [List.flatMap_cons, List.length_append] at room
    have first := laid_fits lt (by omega) (dwords.imp id fun none => none f (by simp))
    have full := laid_full first
    have tail : (laidAll L (laid L n f).1 fs).2 = true := by
      rw [full]
      refine ih (by omega) ?_
      rcases dwords with small | none
      · exact .inl (by omega)
      · exact .inr fun g hg => none g (by simp [hg])
    simp [laidAll, first, tail]

/-- A buffer whose size fits an `int` is never overrun. -/
theorem laid_inside (lt : L < 2 ^ 31) (le : (n : ℤ) ≤ L) (ps : List Piece) :
    (laid L n ps).1 ≤ L := by
  induction ps generalizing n with
  | nil => exact le
  | cons p ps ih =>
    have left : toInt32 (L - n) = L - n := toInt32_of_lt (by omega) (by omega)
    rw [laid, left]
    split_ifs with no
    · exact le
    · apply ih
      cases p with
      | bytes s =>
        simp only [Piece.refused, decide_eq_true_eq] at no
        simp only [Piece.wire]
        omega
      | dword v =>
        simp only [Piece.refused, decide_eq_true_eq] at no
        simp only [Piece.wire, leBytes_length]
        omega

theorem laidAll_inside (lt : L < 2 ^ 31) (le : (n : ℤ) ≤ L) (fs : List (List Piece)) :
    (laidAll L n fs).1 ≤ L := by
  induction fs generalizing n with
  | nil => exact le
  | cons f fs ih => exact ih (laid_inside lt le f)

end Pieces

/-! ### The fields that are written -/

section Fields

variable {b : PbBuff} {n v : ℕ}

/-- The pieces of the tag of a field and of a varint behind it. -/
def headPieces (wt n v : ℕ) : List Piece := [.bytes (varint (n * 8 + wt)), .bytes (varint v)]

theorem pbAdd_eq (b : PbBuff) (s : List UInt8) :
    pbAdd b s = ((put b [.bytes s]).1, if (put b [.bytes s]).2 then 0 else -1) := by
  rw [pbAdd, put]
  by_cases no : (b.left % 2 ^ 64).toNat < s.length
  · rw [if_pos no, if_pos (show Piece.refused b.left (.bytes s) = true from decide_eq_true no)]
    rfl
  · rw [if_neg no, if_neg (show ¬ Piece.refused b.left (.bytes s) = true by
      simpa only [Piece.refused, decide_eq_true_eq] using no)]
    rfl

theorem pbAddDword_eq (b : PbBuff) (v : ℕ) :
    pbAddDword b v = ((put b [.dword v]).1, if (put b [.dword v]).2 then 0 else -1) := by
  rw [pbAddDword, put]
  by_cases no : b.left < 4
  · rw [if_pos no, if_pos (show Piece.refused b.left (.dword v) = true from decide_eq_true no)]
    rfl
  · rw [if_neg no, if_neg (show ¬ Piece.refused b.left (.dword v) = true by
      simpa only [Piece.refused, decide_eq_true_eq] using no)]
    rfl

theorem put_cons (b : PbBuff) (p : Piece) (ps : List Piece) : put b (p :: ps) =
    if (put b [p]).2 then put (put b [p]).1 ps else ((put b [p]).1, false) := by
  cases no : p.refused b.left <;> simp [put, no]

theorem pbAddVarint_eq (b : PbBuff) (hn : n < 2 ^ 32) (hv : v < 2 ^ 64) :
    pbAddVarint b n v = ((put b (headPieces wtVarint n v)).1,
      if (put b (headPieces wtVarint n v)).2 then 0 else -1) := by
  rw [headPieces, put_cons b _ [_], pbAddVarint, pbAddTag_eq b (by decide) hn, pbAdd_eq]
  cases (put b [.bytes (varint (n * 8 + wtVarint))]).2
  · simp
  · simp [pbAddVint_eq _ hv, pbAdd_eq]

theorem pbAddStringHead_eq (b : PbBuff) (hn : n < 2 ^ 32) (hv : v < 2 ^ 64) :
    pbAddStringHead b n v = ((put b (headPieces wtString n v)).1,
      if (put b (headPieces wtString n v)).2 then 0 else -1) := by
  rw [headPieces, put_cons b _ [_], pbAddStringHead, pbAddTag_eq b (by decide) hn, pbAdd_eq]
  cases (put b [.bytes (varint (n * 8 + wtString))]).2
  · simp
  · simp [pbAddVint_eq _ hv, pbAdd_eq]

theorem pbAddString_eq (b : PbBuff) (hn : n < 2 ^ 32) {s : List UInt8} (hs : s.length < 2 ^ 64) :
    (pbAddString b n s).1 = (put b (headPieces wtString n s.length ++ [.bytes s])).1 := by
  rw [headPieces, List.cons_append, List.singleton_append, put_cons b _ [_, _], pbAddString,
    pbAddTag_eq b (by decide) hn, pbAdd_eq]
  cases (put b [.bytes (varint (n * 8 + wtString))]).2
  · simp
  · simp only [if_true, pbAddVint_eq _ hs, pbAdd_eq]
    rw [put_cons _ (.bytes (varint s.length)) [_]]
    cases (put (put b [.bytes (varint (n * 8 + wtString))]).1 [.bytes (varint s.length)]).2 <;> simp

theorem pbAddFixed32_eq (b : PbBuff) (hn : n < 2 ^ 32) (v : ℕ) : (pbAddFixed32 b n v).1 =
    (put b [.bytes (varint (n * 8 + wtFixed32)), .dword v]).1 := by
  rw [put_cons b _ [_], pbAddFixed32, pbAddTag_eq b (by decide) hn, pbAdd_eq]
  cases (put b [.bytes (varint (n * 8 + wtFixed32))]).2
  · simp
  · simp [pbAddDword_eq]

def pieces : Field → List Piece
  | ⟨n, .varint v⟩ => headPieces wtVarint n v
  | ⟨n, .fixed64 v⟩ => [.bytes (varint (n * 8 + wtFixed64)), .bytes (leBytes 8 v)]
  | ⟨n, .bytes s⟩ => headPieces wtString n s.length ++ [.bytes s]
  | ⟨n, .fixed32 v⟩ => [.bytes (varint (n * 8 + wtFixed32)), .dword v]

theorem text_pieces (f : Field) : text (pieces f) = f.wire := by
  obtain ⟨n, v⟩ := f
  cases v <;>
    simp [text, pieces, headPieces, Piece.wire, Field.wire, Value.wire, Value.wireType, wtVarint,
      wtFixed64, wtString, wtFixed32]

theorem varint_ne_nil (v : ℕ) : varint v ≠ [] :=
  List.ne_nil_of_length_pos (varint_length_pos v)

/-- Only the bytes of an empty string are no bytes. -/
theorem pieces_real {f : Field} (some : f.value ≠ .bytes []) : ∀ p ∈ pieces f, p.wire ≠ [] := by
  obtain ⟨n, v⟩ := f
  have dword (v : ℕ) : leBytes 4 v ≠ [] := List.ne_nil_of_length_pos (by simp)
  have ddword (v : ℕ) : leBytes 8 v ≠ [] := List.ne_nil_of_length_pos (by simp)
  cases v with
  | bytes s =>
    have filled : s ≠ [] := fun none => some (by rw [none])
    simp [pieces, headPieces, Piece.wire, varint_ne_nil, filled]
  | _ => simp [pieces, headPieces, Piece.wire, varint_ne_nil, dword, ddword]

theorem pieces_isDword {f : Field} (other : f.value.wireType ≠ wtFixed32) :
    ∀ p ∈ pieces f, p.isDword = false := by
  obtain ⟨n, v⟩ := f
  cases v with
  | fixed32 v => simp [Value.wireType, wtFixed32] at other
  | _ => simp [pieces, headPieces, Piece.isDword]

end Fields

end Conet.Base.Pbc
