/- Module: Conet/Svrkit/CmdBaseParse
   source: svrkit/cmd_base.h, base/src/pbc.cpp
   digest: The parser of a packet head reads a sequence of fields; what it makes of each of them. -/

import Conet.Svrkit.CmdBase

set_option autoImplicit false
set_option relaxedAutoImplicit false

namespace Conet.Svrkit.CmdBaseParse

open Conet.Lib Conet.Lib.Protobuf Conet.Base.Pbc Conet.Svrkit.CmdBase

section Trail

variable {mem : ℤ → UInt8} {f start : PbField} {bs left : List UInt8} {buff : ℤ} {len : ℕ}
  {fs : List (Field × List UInt8)} {c : CmdBase}

/-- What `pb_field_t` holds after each field. -/
def trail (f : PbField) : List (Field × List UInt8) → List PbField
  | [] => []
  | (fd, rest) :: fs => f.take fd rest :: trail (f.take fd rest) fs

theorem trail_append (f : PbField) (fs gs : List (Field × List UInt8)) : trail f (fs ++ gs) =
    trail f fs ++ trail (fs.foldl (fun f x => f.take x.1 x.2) f) gs := by
  induction fs generalizing f with
  | nil => rfl
  | cons x fs ih =>
    rw [List.cons_append, trail, trail, List.cons_append, ih, List.foldl_cons]

theorem parseLoop_eq (unread : Unread mem f bs) (short : bs.length < 2 ^ 31)
    (reads : Reads bs fs left) {n : ℕ} (enough : bs.length < n) :
    parseLoop mem n (pbDecodeTag mem f) c = (trail f fs).foldl parseField c := by
  induction reads generalizing f n c with
  | stop none =>
    rw [pbDecodeTag_eq unread short, none]
    cases n <;> rfl
  | @next bs rest left fd fs read tail ih =>
    obtain ⟨_, pre, split⟩ := readField_suffix read
    have less : rest.length < bs.length := by
      rw [← split]
      simp only [List.length_append, List.length_cons]
      omega
    obtain ⟨n, rfl⟩ : ∃ m, n = m + 1 := Nat.exists_eq_succ_of_ne_zero (by omega)
    rw [pbDecodeTag_eq unread short, read]
    exact ih (unread.next read) (by omega) (by omega)

/-- `parse` goes through the fields at the start of its input, and always returns 0. -/
theorem parse_eq (short : len < 2 ^ 31) (reads : Reads (slice mem buff len) fs left) :
    parse mem start buff len c =
      (0, (trail { start with ptr := buff, left := len } fs).foldl parseField c) := by
  have unread : Unread mem { start with ptr := buff, left := len } (slice mem buff len) :=
    ⟨by simp, by simp⟩
  have dlen : toInt32 len = len := toInt32_of_lt (by omega) (by omega)
  have loop := parseLoop_eq (c := c) unread (by simpa using short) reads (n := len + 1) (by simp)
  rw [parse, dlen]
  exact congrArg (Prod.mk 0) loop

theorem parse_none (none : pbBegin mem start buff (toInt32 len) = none) :
    parse mem start buff len c = (0, c) := by
  rw [parse, none]
  rfl

end Trail

/-! ### Truncated input -/

/-- A head is parsed without an error whatever the input is. So its return value says that the input
is a sequence of complete fields exactly if it is. -/
theorem parse_ret_iff (mem : ℤ → UInt8) (start : PbField) (buff : ℤ) (len : ℕ) (c : CmdBase) :
    ((parse mem start buff len c).1 = 0 ↔ WellFormed (slice mem buff len)) ↔
      WellFormed (slice mem buff len) := by
  have zero : (parse mem start buff len c).1 = 0 := rfl
  simp [zero]

/-- The tag of `type` without its value. -/
theorem parse_ret_truncated :
    ¬ ∀ (mem : ℤ → UInt8) (start : PbField) (buff : ℤ) (len : ℕ) (c : CmdBase),
      (parse mem start buff len c).1 = 0 ↔ WellFormed (slice mem buff len) := by
  intro claim
  obtain ⟨fs, reads⟩ := (claim (fun _ => 8) ⟨0, 0, 0, 0, 0, 0⟩ 0 1 CmdBase.init).mp rfl
  have stop : Reads [8] [] [8] := .stop rfl
  have same := reads.unique stop
  simp at same

/-! ### Strings inside the input -/

section Strings

variable {mem : ℤ → UInt8} {f start : PbField} {left : List UInt8} {buff : ℤ} {len : ℕ}
  {fs pre post : List (Field × List UInt8)} {fd : Field} {rest : List UInt8} {c : CmdBase}

/-- A string is empty or lies inside the `len` bytes at `buff`. -/
def Inside (buff : ℤ) (len : ℕ) (s : RefStr) : Prop :=
  s.len = 0 ∨ buff ≤ s.data ∧ s.data + s.len.toNat ≤ buff + len

instance (buff : ℤ) (len : ℕ) (s : RefStr) : Decidable (Inside buff len s) :=
  inferInstanceAs (Decidable (_ ∨ _))

/-- `str.data` behind the fields `fs`: where the last string among them starts. Without one it is
what the memory of `pb_field_t` held before. -/
def strData (top : ℤ) (data : ℤ) (fs : List (Field × List UInt8)) : ℤ :=
  fs.foldl (fun d x => match x.1.value with
    | .bytes s => top - x.2.length - s.length
    | _ => d) data

/-- The tag that the code sees in a field. -/
def tagOf (x : Field × List UInt8) : ℕ := x.1.num % 2 ^ 32

/-- The last field with tag `t` is a string, or a number that is 0 in its low half, or one that is
harmless as the length of a string behind the last pointer. -/
def Harmless (buff : ℤ) (len : ℕ) (data : ℤ) (t : ℕ) (fs : List (Field × List UInt8)) : Prop :=
  ∀ pre x post, fs = pre ++ x :: post → tagOf x = t → (∀ y ∈ post, tagOf y ≠ t) →
    x.1.value.wireType = wtString ∨ word x.1 % 2 ^ 32 = 0 ∨
      buff ≤ strData (buff + len) data pre ∧
        strData (buff + len) data pre + (word x.1 % 2 ^ 32 : ℕ) ≤ buff + len

theorem last_occurrence {α : Type} (p : α → Prop) [DecidablePred p] (xs : List α) :
    (∀ x ∈ xs, ¬ p x) ∨ ∃ pre x post, xs = pre ++ x :: post ∧ p x ∧ ∀ y ∈ post, ¬ p y := by
  induction xs with
  | nil => simp
  | cons x xs ih =>
    rcases ih with none | ⟨pre, y, post, rfl, hy, hpost⟩
    · by_cases hx : p x
      · exact .inr ⟨[], x, xs, rfl, hx, none⟩
      · exact .inl (by simpa [hx] using none)
    · exact .inr ⟨x :: pre, y, post, rfl, hy, hpost⟩

/-- The member of the head that a tag sets to a string. -/
structure Str (t : ℕ) (get : CmdBase → RefStr) : Prop where
  set : ∀ c f, f.tag = t → get (parseField c f) = initRefStr f.data f.i32
  keep : ∀ c f, f.tag ≠ t → get (parseField c f) = get c
  init : get CmdBase.init = ⟨0, 0⟩

theorem str_cmdName : Str 2 CmdBase.cmdName where
  set c f tag := by simp [parseField, tag]
  keep c f tag := by
    unfold parseField
    split <;> simp_all
  init := rfl

theorem str_body : Str 5 CmdBase.body where
  set c f tag := by simp [parseField, tag]
  keep c f tag := by
    unfold parseField
    split <;> simp_all
  init := rfl

theorem str_errmsg : Str 7 CmdBase.errmsg where
  set c f tag := by simp [parseField, tag]
  keep c f tag := by
    unfold parseField
    split <;> simp_all
  init := rfl

theorem Str.foldl_keep {t : ℕ} {get : CmdBase → RefStr} (str : Str t get) {gs : List PbField}
    (other : ∀ g ∈ gs, g.tag ≠ t) (c : CmdBase) : get (gs.foldl parseField c) = get c := by
  induction gs generalizing c with
  | nil => rfl
  | cons g gs ih =>
    rw [List.foldl_cons, ih fun h hh => other h (by simp [hh]), str.keep c g (other g (by simp))]

theorem trail_tag {t : ℕ} (other : ∀ y ∈ fs, tagOf y ≠ t) (f : PbField) :
    ∀ g ∈ trail f fs, g.tag ≠ t := by
  induction fs generalizing f with
  | nil => simp [trail]
  | cons x fs ih =>
    intro g hg
    rcases List.mem_cons.mp hg with rfl | hg
    · exact other x (by simp)
    · exact ih (fun y hy => other y (by simp [hy])) _ g hg

theorem foldl_take_data (f : PbField) (fs : List (Field × List UInt8)) :
    (fs.foldl (fun f x => f.take x.1 x.2) f).data = strData (f.ptr + f.left) f.data fs ∧
      (fs.foldl (fun f x => f.take x.1 x.2) f).ptr + (fs.foldl (fun f x => f.take x.1 x.2) f).left =
        f.ptr + f.left := by
  induction fs generalizing f with
  | nil => exact ⟨rfl, rfl⟩
  | cons x fs ih =>
    have top : (f.take x.1 x.2).ptr + (f.take x.1 x.2).left = f.ptr + f.left := by
      simp [PbField.take, PbField.read]
    obtain ⟨data, top'⟩ := ih (f.take x.1 x.2)
    rw [List.foldl_cons, data, top', top]
    exact ⟨rfl, rfl⟩

/-- The member that the last field with its tag leaves. -/
theorem Str.foldl_last {t : ℕ} {get : CmdBase → RefStr} (str : Str t get) {x : Field × List UInt8}
    (tag : tagOf x = t) (last : ∀ y ∈ post, tagOf y ≠ t) (f : PbField) (c : CmdBase) :
    get ((trail f (pre ++ x :: post)).foldl parseField c) =
      initRefStr (strData (f.ptr + f.left) f.data (pre ++ [x])) (word x.1 % 2 ^ 32) := by
  have data := (foldl_take_data f (pre ++ [x])).1
  rw [List.foldl_append, List.foldl_cons, List.foldl_nil] at data
  rw [trail_append, trail, List.foldl_append, List.foldl_cons, str.foldl_keep (trail_tag last _),
    str.set _ _ tag, data]
  rfl

theorem Str.inside_iff {t : ℕ} {get : CmdBase → RefStr} (str : Str t get) (short : len < 2 ^ 31)
    (reads : Reads (slice mem buff len) fs left) :
    Inside buff len (get (parse mem start buff len CmdBase.init).2) ↔
      Harmless buff len start.data t fs := by
  rw [parse_eq short reads]
  -- what the last field with the tag leaves decides
  have decides : ∀ pre x post, fs = pre ++ x :: post → tagOf x = t → (∀ y ∈ post, tagOf y ≠ t) →
      (Inside buff len (get ((trail { start with ptr := buff, left := len } fs).foldl parseField
          CmdBase.init)) ↔
        x.1.value.wireType = wtString ∨ word x.1 % 2 ^ 32 = 0 ∨
          buff ≤ strData (buff + len) start.data pre ∧
            strData (buff + len) start.data pre + (word x.1 % 2 ^ 32 : ℕ) ≤ buff + len) := by
    rintro pre ⟨fd, rest⟩ post rfl tag last
    have low : (UInt32.ofNat (word fd % 2 ^ 32)).toNat = word fd % 2 ^ 32 := by
      rw [UInt32.toNat_ofNat']
      omega
    have zero : UInt32.ofNat (word fd % 2 ^ 32) = 0 ↔ word fd % 2 ^ 32 = 0 := by
      rw [← UInt32.toNat_inj, low]
      rfl
    rw [str.foldl_last tag last, Inside, initRefStr, zero, low]
    cases value : fd.value with
    | bytes s =>
      obtain ⟨pre', bs', eq, read⟩ := reads.mem (x := (fd, rest)) (by simp)
      obtain ⟨pre'', eq'⟩ := readField_bytes read value
      have size := congrArg List.length (eq' ▸ eq)
      simp only [List.length_append, slice_length] at size
      have length : word fd = s.length := by simp [word, value]
      have data : strData (buff + len) start.data (pre ++ [(fd, rest)]) =
          buff + len - rest.length - s.length := by simp [strData, value]
      simp only [Value.wireType, wtString, true_or, iff_true, data, length]
      right
      omega
    | _ =>
      have data : strData (buff + len) start.data (pre ++ [(fd, rest)]) =
          strData (buff + len) start.data pre := by simp [strData, value]
      simp [Value.wireType, wtString, data]
  rcases last_occurrence (fun x => tagOf x = t) fs with none | ⟨pre, x, post, eq, tag, last⟩
  · refine ⟨fun _ pre x post eq tag => absurd tag (none x (by simp [eq])), fun _ => .inl ?_⟩
    rw [str.foldl_keep (trail_tag none _), str.init]
  · exact ⟨fun inside pre x post eq tag last => (decides pre x post eq tag last).mp inside,
      fun harmless => (decides pre x post eq tag last).mpr (harmless pre x post eq tag last)⟩

/-- The strings of a parsed head are empty or inside the input exactly if the last fields with their
tags are harmless. -/
theorem parse_inside_iff (mem : ℤ → UInt8) (start : PbField) (buff : ℤ) {len : ℕ}
    (short : len < 2 ^ 31) {fs : List (Field × List UInt8)} {left : List UInt8}
    (reads : Reads (slice mem buff len) fs left) :
    (Inside buff len (parse mem start buff len CmdBase.init).2.cmdName ∧
      Inside buff len (parse mem start buff len CmdBase.init).2.body ∧
      Inside buff len (parse mem start buff len CmdBase.init).2.errmsg) ↔
    ∀ t ∈ [2, 5, 7], Harmless buff len start.data t fs := by
  rw [str_cmdName.inside_iff short reads, str_body.inside_iff short reads,
    str_errmsg.inside_iff short reads]
  simp

end Strings

/-- The head with the name `a`, and `errmsg` as the varint 127. -/
def strayBytes : List UInt8 := [0x12, 1, 0x61, 0x38, 127]

def strayMem (a : ℤ) : UInt8 := strayBytes.getD (a - 1).toNat 0

/-- 127 bytes from the name on are more than the input has. -/
theorem parse_inside_stray : ¬ ∀ (mem : ℤ → UInt8) (start : PbField) (buff : ℤ) (len : ℕ),
    len < 2 ^ 31 → Inside buff len (parse mem start buff len CmdBase.init).2.cmdName ∧
      Inside buff len (parse mem start buff len CmdBase.init).2.body ∧
      Inside buff len (parse mem start buff len CmdBase.init).2.errmsg := by
  intro claim
  have inside := (claim strayMem ⟨0, 0, 0, 0, 0, 0⟩ 1 5 (by decide)).2.2
  revert inside
  decide

theorem parse_inside_name :
    Inside 1 3 (parse strayMem ⟨0, 0, 0, 0, 0, 0⟩ 1 3 CmdBase.init).2.cmdName ∧
      Inside 1 3 (parse strayMem ⟨0, 0, 0, 0, 0, 0⟩ 1 3 CmdBase.init).2.body ∧
      Inside 1 3 (parse strayMem ⟨0, 0, 0, 0, 0, 0⟩ 1 3 CmdBase.init).2.errmsg := by
  have reads : Reads (slice strayMem 1 3) [(⟨2, .bytes [0x61]⟩, [])] [] := .next rfl (.stop rfl)
  refine (parse_inside_iff strayMem ⟨0, 0, 0, 0, 0, 0⟩ 1 (by decide) reads).mpr ?_
  intro t ht pre x post eq tag last
  left
  obtain rfl : x = (⟨2, .bytes [0x61]⟩, []) := by
    have hx : x ∈ [((⟨2, .bytes [0x61]⟩, []) : Field × List UInt8)] := by simp [eq]
    simpa using hx
  rfl

end Conet.Svrkit.CmdBaseParse
