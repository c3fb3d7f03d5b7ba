/- Module: Conet/Core/AresWrap
   source: core/src/ares_wrap.cpp
   digest: The copying of a hostent into one buffer. -/

import Conet.Base.Pbc

set_option autoImplicit false
set_option relaxedAutoImplicit false

namespace Conet.Core.AresWrap

open Conet.Lib Conet.Base.Pbc

/-- A `hostent` with what it points to: the texts without their final zero, and addresses of
`h_length` bytes, of IPv4 or IPv6. -/
structure Hostent where
  hName : List UInt8
  hAliases : List (List UInt8)
  hAddrtype : ℤ
  hLength : ℕ
  hAddrList : List (List UInt8)
  texts : ∀ s ∈ hName :: hAliases, 0 ∉ s
  family : hLength = 4 ∨ hLength = 16
  addresses : ∀ a ∈ hAddrList, a.length = hLength

/-- The copy, whose pointers are addresses. -/
structure Copy where
  hName : ℤ
  hAliases : ℤ
  hAddrtype : ℤ
  hLength : ℕ
  hAddrList : ℤ

/-- `calc_hostent_len`; every sum is converted to an `int`. A pointer has 8 bytes, and an `in_addr` 4. -/
def calcHostentLen (src : Hostent) : ℤ :=
  let len := toInt32 (src.hName.length + 1)
  let len := src.hAliases.foldl (fun len s => toInt32 (toInt32 (len + (s.length + 1)) + 8)) len
  let len := toInt32 (len + 8)
  let len := src.hAddrList.foldl (fun len _ => toInt32 (toInt32 (len + 4) + 8)) len
  toInt32 (len + 8)

/-- A memory, and the places and lengths of what has been written to it. -/
structure Writes where
  mem : ℤ → UInt8
  written : List (ℤ × ℕ)

def Writes.put (w : Writes) (a : ℤ) (bs : List UInt8) : Writes :=
  ⟨write w.mem a bs, w.written ++ [(a, bs.length)]⟩

def pointer (a : ℤ) : List UInt8 := leBytes 8 a.toNat

/-- The two copying loops: the bytes of each item are written to the cursor `p`, which is then moved by
the number of the item, and their place is stored in the array at `q`, which a `NULL` ends. -/
def store : List (List UInt8 × ℕ) → ℤ → ℤ → Writes → Writes
  | [], q, _, w => w.put q (pointer 0)
  | (bs, n) :: items, q, p, w => store items (q + 8) (p + n) ((w.put p bs).put q (pointer p))

/-- `int nlen = strlen(s)`. -/
def strlen (s : List UInt8) : ℤ := toInt32 s.length

/-- A text as it is copied, and what the cursor is moved by. -/
def textItem (s : List UInt8) : List UInt8 × ℕ := (s.take (strlen s).toNat ++ [0], (strlen s).toNat + 1)

/-- What the cursor is moved by in all. -/
def moved (items : List (List UInt8 × ℕ)) : ℕ := (items.map Prod.snd).sum

/-- The text whose length `nlen` holds after the copying of the texts. -/
def lastText (src : Hostent) : List UInt8 := (src.hAliases.getLast?).getD src.hName

/-- `hostent_copy` into a buffer at `base`. There is no result when a negative `nlen` is taken for the
number of bytes to copy. -/
def hostentCopy (src : Hostent) (base : ℤ) (mem : ℤ → UInt8) : Option (Writes × Copy) :=
  if ∃ s ∈ src.hName :: src.hAliases, strlen s < 0 then none
  else
    let w := Writes.put ⟨mem, []⟩ base (textItem src.hName).1
    let pAliases := base + (textItem src.hName).2
    let p := pAliases + 8 * (src.hAliases.length + 1)
    let w := store (src.hAliases.map textItem) pAliases p w
    let pAddrList := p + moved (src.hAliases.map textItem)
    let p := pAddrList + 8 * (src.hAddrList.length + 1)
    let nlen := (strlen (lastText src)).toNat
    let w := store (src.hAddrList.map fun a => (a.take 4, nlen)) pAddrList p w
    some (w, ⟨base, pAliases, src.hAddrtype, src.hLength, pAddrList⟩)

def pointerAt (mem : ℤ → UInt8) (a : ℤ) : ℤ := leNat (slice mem a 8)

/-- At `q` stands an array of pointers to the given bytes, which a `NULL` ends. -/
def Listed (mem : ℤ → UInt8) : ℤ → List (List UInt8) → Prop
  | q, [] => pointerAt mem q = 0
  | q, bs :: items => pointerAt mem q ≠ 0 ∧ slice mem (pointerAt mem q) bs.length = bs ∧
    Listed mem (q + 8) items

structure Equal (mem : ℤ → UInt8) (dst : Copy) (src : Hostent) : Prop where
  name : slice mem dst.hName (src.hName.length + 1) = src.hName ++ [0]
  aliases : Listed mem dst.hAliases (src.hAliases.map (· ++ [0]))
  addrList : Listed mem dst.hAddrList src.hAddrList
  addrtype : dst.hAddrtype = src.hAddrtype
  length : dst.hLength = src.hLength

/-- Nothing was written but from `lo` up to `hi`. -/
def Inside (w : Writes) (lo hi : ℤ) : Prop := ∀ e ∈ w.written, lo ≤ e.1 ∧ e.1 + e.2 ≤ hi

/-- Whatever the memory holds before, a copy into a buffer of `calc_hostent_len` bytes stays inside of it
and is equal to the source. -/
def Copies (src : Hostent) : Prop :=
  ∀ (mem : ℤ → UInt8) (base : ℤ), 0 < base → base + calcHostentLen src ≤ 2 ^ 63 →
    ∃ w dst, hostentCopy src base mem = some (w, dst) ∧ Inside w base (base + calcHostentLen src) ∧
      Equal w.mem dst src

/-- The number of bytes that the copy needs. -/
def Hostent.size (src : Hostent) : ℕ :=
  src.hName.length + 1 + (src.hAliases.map fun s => s.length + 1 + 8).sum + 8 +
    12 * src.hAddrList.length + 8

/-- There is no address, or one of IPv4, or some of IPv4 and the last text is no longer than 4 bytes; and
if it is shorter, the addresses agree where one is written on another. -/
structure Hostent.Suits (src : Hostent) : Prop where
  size : src.size < 2 ^ 31
  length : src.hAddrList ≠ [] → src.hLength = 4
  stride : 2 ≤ src.hAddrList.length → (lastText src).length ≤ 4
  agree : src.hAddrList.IsChain fun a b =>
    a.drop (lastText src).length = b.take (4 - (lastText src).length)

section Store

variable {m : ℤ → UInt8} {w : Writes} {items : List (List UInt8 × ℕ)} {q p x lo hi : ℤ}

theorem pointer_length (a : ℤ) : (pointer a).length = 8 := leBytes_length 8 _

theorem put_of_lt {a : ℤ} {bs : List UInt8} (lt : x < a) : (w.put a bs).mem x = w.mem x := by
  show write w.mem a bs x = _
  rw [write, if_neg (by omega)]

theorem put_of_ge {a : ℤ} {bs : List UInt8} (ge : a + bs.length ≤ x) : (w.put a bs).mem x = w.mem x := by
  show write w.mem a bs x = _
  rw [write, if_neg (by omega)]

theorem store_front (room : q + 8 * (items.length + 1) ≤ p) (lt : x < q) :
    (store items q p w).mem x = w.mem x := by
  induction items generalizing q p w with
  | nil => exact put_of_lt lt
  | cons item items ih =>
    rw [List.length_cons] at room
    push_cast at room
    rw [store, ih (by omega) (by omega), put_of_lt lt, put_of_lt (by omega)]

/-- Nothing between the array and the cursor is written. -/
theorem store_between (ge : q + 8 * (items.length + 1) ≤ x) (lt : x < p) :
    (store items q p w).mem x = w.mem x := by
  induction items generalizing q p w with
  | nil =>
    apply put_of_ge
    rw [pointer_length]
    simpa using ge
  | cons item items ih =>
    rw [List.length_cons] at ge
    push_cast at ge
    rw [store, ih (by omega) (by omega), put_of_ge, put_of_lt lt]
    rw [pointer_length]
    push_cast
    omega

/-- The items, each at its place, do not reach beyond `hi`. -/
def Within (hi : ℤ) : ℤ → List (List UInt8 × ℕ) → Prop
  | _, [] => True
  | p, (bs, n) :: items => p + bs.length ≤ hi ∧ Within hi (p + n) items

theorem inside_put {a : ℤ} {bs : List UInt8} :
    Inside (w.put a bs) lo hi ↔ Inside w lo hi ∧ lo ≤ a ∧ a + bs.length ≤ hi := by
  simp only [Inside, Writes.put, List.forall_mem_append, List.forall_mem_singleton]

theorem inside_store (low : lo ≤ q) (room : q + 8 * (items.length + 1) ≤ p) :
    Inside (store items q p w) lo hi ↔
      Inside w lo hi ∧ q + 8 * (items.length + 1) ≤ hi ∧ Within hi p items := by
  induction items generalizing q p w with
  | nil =>
    rw [store, inside_put, pointer_length]
    simp [Within, low]
  | cons item items ih =>
    rw [List.length_cons] at room ⊢
    push_cast at room
    rw [store, ih (by omega) (by omega), inside_put, inside_put, pointer_length, Within]
    push_cast
    constructor
    · rintro ⟨⟨⟨before, -, data⟩, -, -⟩, ends, within⟩
      exact ⟨before, by omega, data, within⟩
    · rintro ⟨before, ends, data, within⟩
      exact ⟨⟨⟨before, by omega, data⟩, low, by omega⟩, by omega, within⟩

/-- The array at `q` holds the places of the items, of which the first is at `p`. -/
def Pointing (m : ℤ → UInt8) : ℤ → ℤ → List (List UInt8 × ℕ) → Prop
  | q, _, [] => pointerAt m q = 0
  | q, p, (_, n) :: items => pointerAt m q = p ∧ Pointing m (q + 8) (p + n) items

def Holding (m : ℤ → UInt8) : ℤ → List (List UInt8 × ℕ) → Prop
  | _, [] => True
  | p, (bs, n) :: items => slice m p bs.length = bs ∧ Holding m (p + n) items

theorem listed_iff (positive : 0 < p) (pointing : Pointing m q p items) :
    Listed m q (items.map Prod.fst) ↔ Holding m p items := by
  induction items generalizing q p with
  | nil => exact iff_of_true pointing trivial
  | cons item items ih =>
    obtain ⟨here, pointing⟩ := pointing
    have rest := ih (by omega) pointing
    rw [List.map_cons, Listed, here, rest, Holding]
    exact and_iff_right (by omega)

theorem pointerAt_put {a : ℤ} (nonneg : 0 ≤ a) (lt : a < 2 ^ 64) : pointerAt (w.put q (pointer a)).mem q = a := by
  have written : slice (write w.mem q (pointer a)) q 8 = pointer a := by
    simpa only [pointer_length] using slice_write w.mem q (pointer a)
  show (leNat (slice (write w.mem q (pointer a)) q 8) : ℤ) = a
  rw [written, pointer, leNat_leBytes, Nat.mod_eq_of_lt (by omega)]
  omega

theorem pointerAt_congr (m' : ℤ → UInt8) (same : ∀ x, q ≤ x → x < q + 8 → m x = m' x) :
    pointerAt m q = pointerAt m' q := by
  rw [pointerAt, slice_congr same, pointerAt]

/-- The array holds the places, also in a memory that differs elsewhere. -/
theorem store_pointing (positive : 0 < p) (small : p + moved items < 2 ^ 64)
    (room : q + 8 * (items.length + 1) ≤ p)
    (same : ∀ x, q ≤ x → x < q + 8 * (items.length + 1) → m x = (store items q p w).mem x) :
    Pointing m q p items := by
  induction items generalizing q p w with
  | nil =>
    rw [Pointing, pointerAt_congr (store [] q p w).mem]
    · exact pointerAt_put le_rfl (by omega)
    · intro x ge lt
      exact same x ge (by simpa using lt)
  | cons item items ih =>
    obtain ⟨bs, n⟩ := item
    rw [List.length_cons] at room same
    push_cast at room same
    have sum : (moved ((bs, n) :: items) : ℤ) = n + moved items := by simp [moved]
    refine ⟨?_, ih (w := (w.put p bs).put q (pointer p)) (by omega) (by omega) (by omega) fun x ge lt => ?_⟩
    · rw [pointerAt_congr ((w.put p bs).put q (pointer p)).mem]
      · exact pointerAt_put positive.le (by omega)
      · intro x ge lt
        rw [same x ge (by omega), store, store_front (by omega) (by omega)]
    · exact same x (by omega) (by omega)

/-- Items that are not longer than the cursor is moved are all kept. -/
theorem store_holding (fit : ∀ item ∈ items, item.1.length ≤ item.2)
    (room : q + 8 * (items.length + 1) ≤ p)
    (same : ∀ x, p ≤ x → x < p + moved items → m x = (store items q p w).mem x) : Holding m p items := by
  induction items generalizing q p w with
  | nil => trivial
  | cons item items ih =>
    obtain ⟨bs, n⟩ := item
    rw [List.forall_mem_cons] at fit
    rw [List.length_cons] at room
    push_cast at room
    have sum : (moved ((bs, n) :: items) : ℤ) = n + moved items := by simp [moved]
    have short : bs.length ≤ n := fit.1
    refine ⟨?_, ih (w := (w.put p bs).put q (pointer p)) fit.2 (q := q + 8) (by omega) fun x ge lt => ?_⟩
    · have here : slice m p bs.length = slice (write w.mem p bs) p bs.length := by
        apply slice_congr
        intro x ge lt
        rw [same x ge (by omega), store, store_between (by omega) (by omega), put_of_ge]
        · rfl
        · rw [pointer_length]
          push_cast
          omega
      rw [here, slice_write]
    · exact same x (by omega) (by omega)

/-- Nothing beyond the array and the items is written. -/
theorem store_above (ge : q + 8 * (items.length + 1) ≤ x) (above : Within x p items) :
    (store items q p w).mem x = w.mem x := by
  induction items generalizing q p w with
  | nil =>
    apply put_of_ge
    rw [pointer_length]
    simpa using ge
  | cons item items ih =>
    obtain ⟨bs, n⟩ := item
    rw [List.length_cons] at ge
    push_cast at ge
    rw [store, ih (by omega) above.2, put_of_ge, put_of_ge above.1]
    rw [pointer_length]
    push_cast
    omega

theorem within_of_fit (fit : ∀ item ∈ items, item.1.length ≤ item.2) (le : p + moved items ≤ hi) :
    Within hi p items := by
  induction items generalizing p with
  | nil => trivial
  | cons item items ih =>
    obtain ⟨bs, n⟩ := item
    rw [List.forall_mem_cons] at fit
    have sum : (moved ((bs, n) :: items) : ℤ) = n + moved items := by simp [moved]
    have short : bs.length ≤ n := fit.1
    exact ⟨by omega, ih fit.2 (by omega)⟩

end Store

section Addresses

variable {m : ℤ → UInt8} {w : Writes} {as : List (List UInt8)} {n : ℕ} {q p hi : ℤ}

theorem within_same (four : ∀ a ∈ as, a.length = 4) (ne : as ≠ []) :
    Within hi p (as.map fun a => (a, n)) ↔ p + (as.length - 1 : ℕ) * n + 4 ≤ hi := by
  induction as generalizing p with
  | nil => exact absurd rfl ne
  | cons a as ih =>
    rw [List.forall_mem_cons] at four
    rw [List.map_cons, Within, four.1]
    cases as with
    | nil => simp [Within]
    | cons b as =>
      have nonneg : (0 : ℤ) ≤ (as.length : ℤ) * n := by positivity
      rw [ih four.2 (by simp)]
      simp only [List.length_cons, Nat.add_sub_cancel]
      push_cast
      rw [add_mul]
      omega

/-- The addresses are all kept exactly if they agree where one is written on another. -/
theorem store_chain (four : ∀ a ∈ as, a.length = 4) (le : 2 ≤ as.length → n ≤ 4)
    (room : q + 8 * (as.length + 1) ≤ p)
    (same : ∀ x, p ≤ x → m x = (store (as.map fun a => (a, n)) q p w).mem x) :
    Holding m p (as.map fun a => (a, n)) ↔ as.IsChain fun a b => a.drop n = b.take (4 - n) := by
  induction as generalizing q p w with
  | nil => exact iff_of_true trivial .nil
  | cons a as ih =>
    rw [List.forall_mem_cons] at four
    rw [List.length_cons] at room
    push_cast at room
    -- what the later addresses leave of the first one
    have kept : ∀ k : ℕ, k ≤ 4 → (∀ x, x < p + k → as = [] ∨ x < p + n) →
        slice m p k = a.take k := by
      intro k short free
      have here : slice m p k = slice (write w.mem p a) p k := by
        apply slice_congr
        intro x ge lt
        rw [same x ge, List.map_cons, store]
        have untouched : (store (as.map fun a => (a, n)) (q + 8) (p + n) ((w.put p a).put q (pointer p))).mem x =
            ((w.put p a).put q (pointer p)).mem x := by
          rcases free x lt with rfl | lt
          · apply put_of_ge
            rw [pointer_length]
            simp only [List.length_nil] at room
            omega
          · exact store_between (by rw [List.length_map]; omega) lt
        rw [untouched, put_of_ge]
        · rfl
        · rw [pointer_length]
          push_cast
          omega
      have part := slice_part (write w.mem p a) p (i := 0) (n := k) (l := a.length) (by omega)
      rw [slice_write, List.drop_zero] at part
      simpa [here] using part
    cases as with
    | nil =>
      have whole := kept 4 le_rfl fun _ _ => .inl rfl
      refine iff_of_true ⟨?_, trivial⟩ (.singleton a)
      rw [four.1, whole, List.take_of_length_le four.1.le]
    | cons b as =>
      have stride := le (by simp)
      have next := ih four.2 (fun _ => stride) (q := q + 8) (p := p + n) (w := (w.put p a).put q (pointer p))
        (by omega) fun x ge => same x (by omega)
      have first := kept n stride fun x lt => .inr lt
      rw [List.map_cons, Holding, next, List.isChain_cons_cons, four.1]
      apply and_congr_left
      intro chain
      have held := (next.mpr chain).1
      rw [(List.forall_mem_cons.mp four.2).1] at held
      have rest := slice_part m (p + n) (i := 0) (n := 4 - n) (l := 4) (by omega)
      rw [held, List.drop_zero, Nat.cast_zero, add_zero] at rest
      have split := slice_add m p n (4 - n)
      rw [Nat.add_sub_cancel' stride, first, rest] at split
      rw [split]
      constructor
      · intro whole
        have tails := congrArg (List.drop n) whole
        rw [List.drop_append_of_le_length (by rw [List.length_take, four.1]; omega)] at tails
        simpa [four.1] using tails.symm
      · intro agree
        rw [← agree, List.take_append_drop]

theorem holding_last (holding : Holding m p (as.map fun a => (a, n))) (ne : as ≠ []) :
    slice m (p + (as.length - 1 : ℕ) * n) (as.getLast ne).length = as.getLast ne := by
  induction as generalizing p with
  | nil => exact absurd rfl ne
  | cons a as ih =>
    cases as with
    | nil => simpa using holding.1
    | cons b as =>
      have last := ih holding.2 (by simp)
      simp only [List.length_cons, Nat.add_sub_cancel] at last ⊢
      rw [List.getLast_cons (by simp)]
      have place : p + n + (as.length : ℕ) * n = p + ((as.length + 1 : ℕ) : ℤ) * n := by
        push_cast
        ring
      rwa [place] at last

end Addresses

section Sizes

variable {src : Hostent} {s : List UInt8}

theorem toInt32_add_left (x y : ℤ) : toInt32 (toInt32 x + y) = toInt32 (x + y) := by
  unfold toInt32
  omega

theorem foldl_texts (ss : List (List UInt8)) (x : ℤ) :
    ss.foldl (fun len s => toInt32 (toInt32 (len + (s.length + 1)) + 8)) (toInt32 x) =
      toInt32 (x + ((ss.map fun s => s.length + 1 + 8).sum : ℕ)) := by
  induction ss generalizing x with
  | nil => simp
  | cons s ss ih =>
    rw [List.foldl_cons, toInt32_add_left, add_assoc, toInt32_add_left, ih, List.map_cons, List.sum_cons]
    push_cast
    congr 1
    ring

theorem foldl_addresses (as : List (List UInt8)) (x : ℤ) :
    as.foldl (fun len _ => toInt32 (toInt32 (len + 4) + 8)) (toInt32 x) = toInt32 (x + 12 * as.length) := by
  induction as generalizing x with
  | nil => simp
  | cons a as ih =>
    rw [List.foldl_cons, toInt32_add_left, add_assoc, toInt32_add_left, ih, List.length_cons]
    push_cast
    congr 1
    ring

theorem calcHostentLen_eq (src : Hostent) : calcHostentLen src = toInt32 src.size := by
  simp only [calcHostentLen]
  rw [foldl_texts, toInt32_add_left, foldl_addresses, toInt32_add_left, Hostent.size]
  push_cast
  congr 1

theorem strlen_of_lt (lt : s.length < 2 ^ 31) : strlen s = s.length := toInt32_of_lt (by omega) (by omega)

theorem textItem_of_lt (lt : s.length < 2 ^ 31) : textItem s = (s ++ [0], s.length + 1) := by
  rw [textItem, strlen_of_lt lt, Int.toNat_natCast, List.take_length]

theorem textItem_fit (s : List UInt8) : (textItem s).1.length ≤ (textItem s).2 := by
  rw [textItem, List.length_append, List.length_take, List.length_singleton]
  omega

theorem texts_fit : ∀ item ∈ src.hAliases.map textItem, item.1.length ≤ item.2 := by
  intro item mem
  obtain ⟨s, -, rfl⟩ := List.mem_map.mp mem
  exact textItem_fit s

theorem lastText_mem (src : Hostent) : lastText src ∈ src.hName :: src.hAliases := by
  rw [lastText]
  cases last : src.hAliases.getLast? with
  | none => exact List.mem_cons_self
  | some s => exact List.mem_cons_of_mem _ (List.mem_of_getLast? last)

theorem sum_texts (ss : List (List UInt8)) :
    (ss.map fun s => s.length + 1 + 8).sum = (ss.map fun s => s.length + 1).sum + 8 * ss.length := by
  induction ss with
  | nil => rfl
  | cons s ss ih =>
    simp only [List.map_cons, List.sum_cons, List.length_cons, ih]
    omega

theorem length_lt_size (mem : s ∈ src.hName :: src.hAliases) : s.length < src.size := by
  rw [Hostent.size]
  rcases List.mem_cons.mp mem with rfl | mem
  · omega
  · have le := List.le_sum_of_mem (List.mem_map_of_mem (f := fun s : List UInt8 => s.length + 1 + 8) mem)
    omega

/-- With texts whose lengths are an `int`, the cursor is moved as they need. -/
theorem moved_texts (short : ∀ s ∈ src.hName :: src.hAliases, s.length < 2 ^ 31) :
    src.hAliases.map textItem = src.hAliases.map (fun s => (s ++ [0], s.length + 1)) ∧
      src.size = src.hName.length + 1 + 8 * (src.hAliases.length + 1) + moved (src.hAliases.map textItem) +
        8 * (src.hAddrList.length + 1) + 4 * src.hAddrList.length := by
  rw [List.forall_mem_cons] at short
  have items : src.hAliases.map textItem = src.hAliases.map (fun s => (s ++ [0], s.length + 1)) :=
    List.map_congr_left fun s mem => textItem_of_lt (short.2 s mem)
  refine ⟨items, ?_⟩
  rw [items, moved, List.map_map, Hostent.size, sum_texts]
  simp only [Function.comp_def]
  omega

end Sizes

section Conform

variable {src : Hostent} {mem : ℤ → UInt8} {base : ℤ}

/-- The memory after the copying of the texts. -/
def textWrites (src : Hostent) (base : ℤ) (mem : ℤ → UInt8) : Writes :=
  store (src.hAliases.map textItem) (base + (textItem src.hName).2)
    (base + (textItem src.hName).2 + 8 * (src.hAliases.length + 1))
    (Writes.put ⟨mem, []⟩ base (textItem src.hName).1)

/-- The place of the array of addresses. -/
def addrPlace (src : Hostent) (base : ℤ) : ℤ :=
  base + (textItem src.hName).2 + 8 * (src.hAliases.length + 1) + moved (src.hAliases.map textItem)

def allWrites (src : Hostent) (base : ℤ) (mem : ℤ → UInt8) : Writes :=
  store (src.hAddrList.map fun a => (a.take 4, (strlen (lastText src)).toNat)) (addrPlace src base)
    (addrPlace src base + 8 * (src.hAddrList.length + 1)) (textWrites src base mem)

theorem hostentCopy_eq (nonneg : ∀ s ∈ src.hName :: src.hAliases, 0 ≤ strlen s) (base : ℤ)
    (mem : ℤ → UInt8) : hostentCopy src base mem = some (allWrites src base mem,
      ⟨base, base + (textItem src.hName).2, src.hAddrtype, src.hLength, addrPlace src base⟩) := by
  rw [hostentCopy, if_neg]
  · rfl
  · rintro ⟨s, mem, negative⟩
    have ge := nonneg s mem
    omega

theorem inside_allWrites {hi : ℤ} : Inside (allWrites src base mem) base hi ↔
    (base + (textItem src.hName).1.length ≤ hi ∧
      base + (textItem src.hName).2 + 8 * (src.hAliases.length + 1) ≤ hi ∧
      Within hi (base + (textItem src.hName).2 + 8 * (src.hAliases.length + 1)) (src.hAliases.map textItem)) ∧
    addrPlace src base + 8 * (src.hAddrList.length + 1) ≤ hi ∧
    Within hi (addrPlace src base + 8 * (src.hAddrList.length + 1))
      (src.hAddrList.map fun a => (a.take 4, (strlen (lastText src)).toNat)) := by
  have front : base ≤ addrPlace src base := by
    unfold addrPlace
    omega
  have none : Inside ⟨mem, []⟩ base hi := fun e mem => absurd mem List.not_mem_nil
  rw [allWrites, inside_store front (by rw [List.length_map]), textWrites,
    inside_store (by omega) (by rw [List.length_map]), inside_put, List.length_map, List.length_map]
  simp only [none, le_refl, true_and]

/-- The texts and their array stay as the copying of the texts leaves them. -/
theorem allWrites_front {x : ℤ} (lt : x < addrPlace src base) :
    (allWrites src base mem).mem x = (textWrites src base mem).mem x :=
  store_front (by rw [List.length_map]) lt

theorem name_held (src : Hostent) (mem : ℤ → UInt8) (base : ℤ) :
    slice (allWrites src base mem).mem base (textItem src.hName).1.length = (textItem src.hName).1 := by
  have fit := textItem_fit src.hName
  have kept : slice (allWrites src base mem).mem base (textItem src.hName).1.length =
      slice (write mem base (textItem src.hName).1) base (textItem src.hName).1.length := by
    apply slice_congr
    intro x ge lt
    rw [allWrites_front, textWrites, store_front (by rw [List.length_map]) (by omega)]
    · rfl
    · unfold addrPlace
      omega
  rw [kept, slice_write]

theorem texts_pointing (src : Hostent) (mem : ℤ → UInt8) (positive : 0 < base) (small : addrPlace src base < 2 ^ 64) :
    Pointing (allWrites src base mem).mem (base + (textItem src.hName).2)
      (base + (textItem src.hName).2 + 8 * (src.hAliases.length + 1)) (src.hAliases.map textItem) := by
  apply store_pointing (w := Writes.put ⟨mem, []⟩ base (textItem src.hName).1) (by omega) small
    (by rw [List.length_map])
  intro x ge lt
  rw [List.length_map] at lt
  apply allWrites_front
  unfold addrPlace
  omega

theorem texts_holding : Holding (allWrites src base mem).mem
    (base + (textItem src.hName).2 + 8 * (src.hAliases.length + 1)) (src.hAliases.map textItem) := by
  apply store_holding (w := Writes.put ⟨mem, []⟩ base (textItem src.hName).1) texts_fit
    (q := base + (textItem src.hName).2) (by rw [List.length_map])
  intro x ge lt
  exact allWrites_front lt

/-- Nothing behind the texts is written by their copying. -/
theorem textWrites_behind {x : ℤ} (ge : addrPlace src base ≤ x) : (textWrites src base mem).mem x = mem x := by
  have fit := textItem_fit src.hName
  unfold addrPlace at ge
  rw [textWrites, store_above (by rw [List.length_map]; omega) (within_of_fit texts_fit ge), put_of_ge (by omega)]

theorem addresses_eq (as : List (List UInt8)) (n : ℕ) :
    (as.map fun a => (a.take 4, n)) = (as.map (List.take 4)).map fun a => (a, n) := by
  rw [List.map_map]
  rfl

theorem moved_same (as : List (List UInt8)) (n : ℕ) : moved (as.map fun a => (a, n)) = as.length * n := by
  simp [moved, Function.comp_def]

theorem address_ge (a : List UInt8) (mem : a ∈ src.hAddrList) : 4 ≤ a.length := by
  rcases src.family with four | sixteen
  · rw [src.addresses a mem, four]
  · rw [src.addresses a mem, sixteen]
    omega

theorem taken_four : ∀ a ∈ src.hAddrList.map (List.take 4), a.length = 4 := by
  intro a taken
  obtain ⟨b, listed, rfl⟩ := List.mem_map.mp taken
  rw [List.length_take, Nat.min_eq_left (address_ge b listed)]

theorem addresses_pointing (mem : ℤ → UInt8) {n : ℕ} (eq : (strlen (lastText src)).toNat = n) (positive : 0 < base)
    (small : addrPlace src base + 8 * (src.hAddrList.length + 1) + src.hAddrList.length * n < 2 ^ 64) :
    Pointing (allWrites src base mem).mem (addrPlace src base)
      (addrPlace src base + 8 * (src.hAddrList.length + 1)) (src.hAddrList.map fun a => (a.take 4, n)) := by
  have front : base ≤ addrPlace src base := by
    unfold addrPlace
    omega
  apply store_pointing (w := textWrites src base mem) (by omega)
  · rw [addresses_eq, moved_same, List.length_map]
    push_cast
    exact small
  · rw [List.length_map]
  · intro x _ _
    rw [allWrites, eq]

theorem pointing_bytes {m : ℤ → UInt8} {as : List (List UInt8)} {n : ℕ} {f : List UInt8 → List UInt8} {q p : ℤ} :
    Pointing m q p (as.map fun a => (f a, n)) ↔ Pointing m q p (as.map fun a => (a, n)) := by
  induction as generalizing q p with
  | nil => rfl
  | cons a as ih => exact and_congr_right fun _ => ih

/-- With sizes that are an `int`, and addresses of IPv4 that do not reach beyond the buffer, the copy's
addresses are the source's exactly if they agree where one is written on another. -/
theorem addrList_listed {n : ℕ} (eq : (strlen (lastText src)).toNat = n) (positive : 0 < base)
    (small : addrPlace src base + 8 * (src.hAddrList.length + 1) + src.hAddrList.length * n < 2 ^ 64)
    (four : ∀ a ∈ src.hAddrList, a.length = 4) (stride : 2 ≤ src.hAddrList.length → n ≤ 4) :
    Listed (allWrites src base mem).mem (addrPlace src base) src.hAddrList ↔
      src.hAddrList.IsChain fun a b => a.drop n = b.take (4 - n) := by
  have front : base ≤ addrPlace src base := by
    unfold addrPlace
    omega
  have whole : (src.hAddrList.map fun a => (a.take 4, n)) = src.hAddrList.map fun a => (a, n) :=
    List.map_congr_left fun a mem => by rw [List.take_of_length_le (four a mem).le]
  have pointing := addresses_pointing mem eq positive small
  rw [whole] at pointing
  have listed := listed_iff (by omega) pointing
  rw [List.map_map, Function.comp_def, List.map_id'] at listed
  rw [listed]
  apply store_chain four stride (q := addrPlace src base) (w := textWrites src base mem) le_rfl
  intro x _
  rw [allWrites, eq, whole]

/-- The array of addresses ends 4 bytes for each address before the size. -/
theorem addrPlace_add (short : ∀ s ∈ src.hName :: src.hAliases, s.length < 2 ^ 31) (base : ℤ) :
    addrPlace src base + 8 * (src.hAddrList.length + 1) + 4 * src.hAddrList.length = base + src.size := by
  have size := (moved_texts short).2
  rw [addrPlace, textItem_of_lt (List.forall_mem_cons.mp short).1, size]
  push_cast
  ring

/-- A copy is inside of the buffer exactly if the array of addresses and the addresses are. -/
theorem inside_addresses {hi : ℤ} : Inside (allWrites src base mem) base hi ↔
    addrPlace src base + 8 * (src.hAddrList.length + 1) ≤ hi ∧
      Within hi (addrPlace src base + 8 * (src.hAddrList.length + 1))
        ((src.hAddrList.map (List.take 4)).map fun a => (a, (strlen (lastText src)).toNat)) := by
  rw [inside_allWrites, addresses_eq]
  apply and_iff_right_of_imp
  rintro ⟨ends, -⟩
  have fit := textItem_fit src.hName
  have unfolded : addrPlace src base = base + (textItem src.hName).2 + 8 * (src.hAliases.length + 1) +
      moved (src.hAliases.map textItem) := rfl
  exact ⟨by omega, by omega, within_of_fit texts_fit (by omega)⟩

/-- The cursor stays small when it is moved by at most 4 for each address but the last. -/
theorem addresses_small (base : ℤ) (short : ∀ s ∈ src.hName :: src.hAliases, s.length < 2 ^ 31)
    (stride : 2 ≤ src.hAddrList.length → (lastText src).length ≤ 4) (le : base + src.size ≤ 2 ^ 63) :
    addrPlace src base + 8 * (src.hAddrList.length + 1) +
      src.hAddrList.length * (lastText src).length < 2 ^ 64 := by
  have ends := addrPlace_add short base
  have last := short _ (lastText_mem src)
  have product : src.hAddrList.length * (lastText src).length ≤
      4 * src.hAddrList.length + (lastText src).length := by
    by_cases two : 2 ≤ src.hAddrList.length
    · rw [mul_comm]
      exact le_add_right (Nat.mul_le_mul_right _ (stride two))
    · exact le_add_left (mul_le_of_le_one_left (Nat.zero_le _) (by omega))
  have cast : ((src.hAddrList.length * (lastText src).length : ℕ) : ℤ) =
    src.hAddrList.length * (lastText src).length := Nat.cast_mul _ _
  omega

theorem copies_of_suits (suits : src.Suits) : Copies src := by
  intro mem base positive top
  have int := suits.size
  have short : ∀ s ∈ src.hName :: src.hAliases, s.length < 2 ^ 31 := by
    intro s mem
    have lt := length_lt_size mem
    omega
  have len : calcHostentLen src = src.size := by
    rw [calcHostentLen_eq, toInt32_of_lt (by omega) (by omega)]
  have ends := addrPlace_add short base
  have nlen : (strlen (lastText src)).toNat = (lastText src).length := by
    rw [strlen_of_lt (short _ (lastText_mem src)), Int.toNat_natCast]
  have four : ∀ a ∈ src.hAddrList, a.length = 4 := by
    intro a listed
    rw [src.addresses a listed, suits.length (List.ne_nil_of_mem listed)]
  have small := addresses_small base short suits.stride (by omega)
  have name := textItem_of_lt (List.forall_mem_cons.mp short).1
  refine ⟨_, _, hostentCopy_eq (fun s mem => ?_) base mem, ?_, ?_, ?_, ?_, rfl, rfl⟩
  · rw [strlen_of_lt (short s mem)]
    omega
  · rw [len, inside_addresses]
    refine ⟨by omega, ?_⟩
    by_cases ne : src.hAddrList = []
    · rw [ne]
      trivial
    · rw [within_same taken_four (by simpa using ne), nlen, List.length_map]
      have pos := List.length_pos_iff.mpr ne
      have strides : (src.hAddrList.length - 1) * (lastText src).length ≤ (src.hAddrList.length - 1) * 4 := by
        by_cases two : 2 ≤ src.hAddrList.length
        · exact Nat.mul_le_mul_left _ (suits.stride two)
        · rw [Nat.sub_eq_zero_of_le (by omega), Nat.zero_mul, Nat.zero_mul]
      have cast : (((src.hAddrList.length - 1) * (lastText src).length : ℕ) : ℤ) =
        (src.hAddrList.length - 1 : ℕ) * (lastText src).length := Nat.cast_mul _ _
      omega
  · have held := name_held src mem base
    rw [name] at held
    simpa using held
  · have pointing := texts_pointing src mem positive (by omega)
    have listed := (listed_iff (by omega) pointing).mpr texts_holding
    rw [(moved_texts short).1, List.map_map] at listed
    exact listed
  · exact (addrList_listed nlen positive small four suits.stride).mpr suits.agree

/-- A text whose copy is whole has a length that is an `int`. -/
theorem short_of_whole {m : ℤ → UInt8} {a : ℤ} {s : List UInt8} (text : 0 ∉ s) (nonneg : 0 ≤ strlen s)
    (held : slice m a (textItem s).1.length = (textItem s).1) (whole : slice m a (s.length + 1) = s ++ [0]) :
    s.length < 2 ^ 31 := by
  by_contra long
  have lt : (strlen s).toNat < s.length := by
    unfold strlen toInt32 at *
    omega
  have part := slice_part m a (i := 0) (n := (strlen s).toNat + 1) (l := s.length + 1) (by omega)
  have length : (textItem s).1.length = (strlen s).toNat + 1 := by
    rw [textItem, List.length_append, List.length_take, List.length_singleton]
    omega
  rw [length] at held
  rw [Nat.cast_zero, add_zero, held, whole, List.drop_zero, List.take_append_of_le_length (by omega)] at part
  -- the zero behind the part that was copied is then a byte of the text
  have zero : 0 ∈ (textItem s).1 := List.mem_append_right _ (List.mem_singleton_self 0)
  rw [part] at zero
  exact text (List.mem_of_mem_take zero)

theorem short_of_listed {m : ℤ → UInt8} {q p : ℤ} {ss : List (List UInt8)} (text : ∀ s ∈ ss, 0 ∉ s)
    (nonneg : ∀ s ∈ ss, 0 ≤ strlen s) (pointing : Pointing m q p (ss.map textItem))
    (holding : Holding m p (ss.map textItem)) (listed : Listed m q (ss.map (· ++ [0]))) :
    ∀ s ∈ ss, s.length < 2 ^ 31 := by
  induction ss generalizing q p with
  | nil => exact fun s mem => absurd mem List.not_mem_nil
  | cons s ss ih =>
    rw [List.forall_mem_cons] at text nonneg ⊢
    obtain ⟨here, pointing⟩ := pointing
    obtain ⟨held, holding⟩ := holding
    obtain ⟨-, whole, listed⟩ := listed
    rw [here, List.length_append, List.length_singleton] at whole
    exact ⟨short_of_whole text.1 nonneg.1 held whole, ih text.2 nonneg.2 pointing holding listed⟩

theorem copies_one (copies : Copies src) (mem : ℤ → UInt8) :
    (∀ s ∈ src.hName :: src.hAliases, 0 ≤ strlen s) ∧
      Inside (allWrites src 1 mem) 1 (1 + calcHostentLen src) ∧
      Equal (allWrites src 1 mem).mem
        ⟨1, 1 + (textItem src.hName).2, src.hAddrtype, src.hLength, addrPlace src 1⟩ src := by
  have le : 1 + calcHostentLen src ≤ 2 ^ 63 := by
    rw [calcHostentLen_eq]
    unfold toInt32
    omega
  obtain ⟨w, dst, copied, inside, equal⟩ := copies mem 1 one_pos le
  have nonneg : ∀ s ∈ src.hName :: src.hAliases, 0 ≤ strlen s := by
    intro s mem
    by_contra negative
    rw [hostentCopy, if_pos ⟨s, mem, by omega⟩] at copied
    cases copied
  rw [hostentCopy_eq nonneg] at copied
  cases copied
  exact ⟨nonneg, inside, equal⟩

theorem calcHostentLen_lt (src : Hostent) : calcHostentLen src < 2 ^ 31 := by
  rw [calcHostentLen_eq]
  unfold toInt32
  omega

theorem short_of_copies (copies : Copies src) : ∀ s ∈ src.hName :: src.hAliases, s.length < 2 ^ 31 := by
  obtain ⟨nonneg, inside, equal⟩ := copies_one copies fun _ => 0
  have ends := (inside_addresses.mp inside).1
  have len := calcHostentLen_lt src
  have texts := src.texts
  rw [List.forall_mem_cons] at nonneg texts ⊢
  constructor
  · exact short_of_whole texts.1 nonneg.1 (name_held src _ 1) equal.name
  · exact short_of_listed texts.2 nonneg.2 (texts_pointing src _ one_pos (by omega)) texts_holding equal.aliases

theorem size_of_copies (copies : Copies src) : src.size < 2 ^ 31 := by
  obtain ⟨-, inside, -⟩ := copies_one copies fun _ => 0
  have ends := (inside_addresses.mp inside).1
  have place := addrPlace_add (short_of_copies copies) 1
  rw [calcHostentLen_eq] at ends
  have addresses : 12 * src.hAddrList.length ≤ src.size := by
    unfold Hostent.size
    omega
  unfold toInt32 at ends
  omega

/-- The byte behind the 4 bytes of the last address is not written. -/
theorem last_unwritten (base : ℤ) (ne : src.hAddrList ≠ []) (mem : ℤ → UInt8) :
    (allWrites src base mem).mem (addrPlace src base + 8 * (src.hAddrList.length + 1) +
      (src.hAddrList.length - 1 : ℕ) * (strlen (lastText src)).toNat + 4) =
    mem (addrPlace src base + 8 * (src.hAddrList.length + 1) +
      (src.hAddrList.length - 1 : ℕ) * (strlen (lastText src)).toNat + 4) := by
  have within : Within (addrPlace src base + 8 * (src.hAddrList.length + 1) +
        (src.hAddrList.length - 1 : ℕ) * (strlen (lastText src)).toNat + 4)
      (addrPlace src base + 8 * (src.hAddrList.length + 1))
      (src.hAddrList.map fun a => (a.take 4, (strlen (lastText src)).toNat)) := by
    rw [addresses_eq, within_same taken_four (by simpa using ne), List.length_map]
  have nonneg : (0 : ℤ) ≤ (src.hAddrList.length - 1 : ℕ) * (strlen (lastText src)).toNat := by positivity
  rw [allWrites, store_above _ within, textWrites_behind]
  · omega
  · rw [List.length_map]
    omega

theorem length_of_copies (copies : Copies src) (ne : src.hAddrList ≠ []) : src.hLength = 4 := by
  by_contra other
  have sixteen := src.family.resolve_left other
  have last := src.addresses _ (List.getLast_mem ne)
  rw [sixteen] at last
  -- a memory that has another byte where the last address has its fifth
  obtain ⟨byte, differs⟩ : ∃ byte : UInt8, byte ≠ (src.hAddrList.getLast ne)[4] :=
    ⟨(src.hAddrList.getLast ne)[4] + 1, by simp⟩
  obtain ⟨-, inside, equal⟩ := copies_one copies fun _ => byte
  rw [inside_addresses, within_same taken_four (by simpa using ne), List.length_map] at inside
  have len := calcHostentLen_lt src
  have nlen : strlen (lastText src) < 2 ^ 31 := by
    unfold strlen toInt32
    omega
  have pos := List.length_pos_iff.mpr ne
  have small : addrPlace src 1 + 8 * (src.hAddrList.length + 1) +
      src.hAddrList.length * (strlen (lastText src)).toNat < 2 ^ 64 := by
    have split : src.hAddrList.length * (strlen (lastText src)).toNat =
        (src.hAddrList.length - 1) * (strlen (lastText src)).toNat + (strlen (lastText src)).toNat := by
      rw [← Nat.succ_mul, Nat.succ_eq_add_one, Nat.sub_add_cancel pos]
    have cast := congrArg (Nat.cast (R := ℤ)) split
    push_cast at cast
    omega
  have pointing := addresses_pointing (fun _ => byte) rfl one_pos small
  rw [pointing_bytes] at pointing
  have front : 1 ≤ addrPlace src 1 := by
    unfold addrPlace
    omega
  have listed := listed_iff (by omega) pointing
  rw [List.map_map, Function.comp_def, List.map_id'] at listed
  have held := holding_last (listed.mp equal.addrList) ne
  have unwritten := last_unwritten 1 ne fun _ => byte
  rw [last] at held
  have fifth := slice_part (allWrites src 1 fun _ => byte).mem (addrPlace src 1 + 8 * (src.hAddrList.length + 1) +
      (src.hAddrList.length - 1 : ℕ) * (strlen (lastText src)).toNat) (i := 4) (n := 1) (l := 16) (by omega)
  rw [held, List.drop_eq_getElem_cons (by omega), List.take_succ_cons, List.take_zero] at fifth
  simp only [slice, List.range_one, List.map_singleton, List.singleton_inj, Nat.cast_zero, add_zero] at fifth
  exact differs (unwritten.symm.trans fifth)

theorem suits_of_copies (copies : Copies src) : src.Suits := by
  have short := short_of_copies copies
  have int := size_of_copies copies
  have length := length_of_copies copies
  have len : calcHostentLen src = src.size := by
    rw [calcHostentLen_eq, toInt32_of_lt (by omega) (by omega)]
  have nlen : (strlen (lastText src)).toNat = (lastText src).length := by
    rw [strlen_of_lt (short _ (lastText_mem src)), Int.toNat_natCast]
  have ends := addrPlace_add short 1
  have four : ∀ a ∈ src.hAddrList, a.length = 4 := by
    intro a listed
    rw [src.addresses a listed, length (List.ne_nil_of_mem listed)]
  obtain ⟨-, inside, equal⟩ := copies_one copies fun _ => 0
  rw [inside_addresses, len, nlen] at inside
  have stride : 2 ≤ src.hAddrList.length → (lastText src).length ≤ 4 := by
    intro two
    have ne : src.hAddrList ≠ [] := List.ne_nil_of_length_pos (by omega)
    rw [within_same taken_four (by simpa using ne), List.length_map] at inside
    by_contra long
    have more : (src.hAddrList.length - 1) * 5 ≤ (src.hAddrList.length - 1) * (lastText src).length :=
      Nat.mul_le_mul_left _ (by omega)
    have cast : (((src.hAddrList.length - 1) * (lastText src).length : ℕ) : ℤ) =
      (src.hAddrList.length - 1 : ℕ) * (lastText src).length := Nat.cast_mul _ _
    have pred : (((src.hAddrList.length - 1) * 5 : ℕ) : ℤ) = (src.hAddrList.length - 1 : ℕ) * 5 := Nat.cast_mul _ _
    omega
  refine ⟨int, length, stride, ?_⟩
  exact (addrList_listed nlen one_pos (addresses_small 1 short stride (by omega)) four stride).mp equal.addrList

/-- The copy is inside of the buffer and equal to the source, exactly if there is no address, or one of
IPv4, or some of IPv4 that agree where the length of the last text makes them overlap. -/
theorem copies_iff (src : Hostent) : Copies src ↔ src.Suits := ⟨suits_of_copies, copies_of_suits⟩

/-- The host `redis` with the addresses 10.0.0.1 and 10.0.0.2. -/
def redis : Hostent where
  hName := [114, 101, 100, 105, 115]
  hAliases := []
  hAddrtype := 2
  hLength := 4
  hAddrList := [[10, 0, 0, 1], [10, 0, 0, 2]]
  texts := by decide
  family := by decide
  addresses := by decide

/-- The second address is written from the fifth byte behind the first one on, beyond the buffer. -/
theorem not_copied : ¬ Copies redis := by
  intro copies
  have le : redis.hName.length ≤ 4 := (suits_of_copies copies).stride le_rfl
  exact absurd le (by decide)

end Conform

end Conet.Core.AresWrap
