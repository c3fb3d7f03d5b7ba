/- Module: Conet/Base/NetToolWritev
   source: base/src/net_tool.cpp
   digest: write_all: the writing of a list of buffers with writev. -/

import Conet.Base.Pbc

set_option autoImplicit false
set_option relaxedAutoImplicit false

namespace Conet.Base.NetToolWritev

universe u

/-- What a `writev` is ready to do: to take up to so many bytes, or to fail. -/
inductive Writev
  | sent (k : ℕ)
  | failed
  deriving DecidableEq

/-- The variables of `write_all` while it loops, and what the socket has taken; `iov_base` is given by
the offset in its buffer. -/
structure Writing (α : Type u) where
  wlen : ℕ
  startPos : ℕ
  iovBase : ℕ → ℕ
  iovLen : ℕ → ℕ
  out : List α

/-- The loop goes on, or the function returns. -/
inductive Outcome (α : Type u)
  | goes (w : Writing α)
  | returns (ret : ℤ) (out : List α)

def Outcome.out {α : Type u} : Outcome α → List α
  | goes w => w.out
  | returns _ out => out

section Model

variable {α : Type u} (bufs : List (List α))

/-- `need_outs[i]`. -/
def needOuts (i : ℕ) : ℕ := (bufs.take (i + 1)).flatten.length

/-- `std::upper_bound` from `start` on, in the next `cnt` elements. -/
def upperBound (need : ℕ → ℕ) (v : ℕ) : ℕ → ℕ → ℕ
  | start, 0 => start
  | start, cnt + 1 => if v < need start then start else upperBound need v (start + 1) cnt

def start : Writing α where
  wlen := 0
  startPos := 0
  iovBase := fun _ => 0
  iovLen := fun i => (bufs[i]?.getD []).length
  out := []

/-- How many bytes a `writev` of `w_cnt` buffers takes, `w_cnt` being 0 or 1. -/
def took (r : Writev) (w : Writing α) : ℕ :=
  match r with
  | .sent k => if min (bufs.length - w.startPos) 1 = 0 then 0 else min k (w.iovLen w.startPos)
  | .failed => 0

/-- The return value of the `writev` as a `size_t`. -/
def wret (r : Writev) (w : Writing α) : ℕ :=
  match r with
  | .sent _ => took bufs r w
  | .failed => 2 ^ 64 - 1

/-- What the function returns after the loop. -/
def finish (wlen : ℕ) : ℤ := if wlen = bufs.flatten.length then 0 else -1

@[grind =] def turn (r : Writev) (w : Writing α) : Outcome α :=
  let out := w.out ++ ((bufs[w.startPos]?.getD []).drop (w.iovBase w.startPos)).take (took bufs r w)
  if wret bufs r w = 0 then .returns (finish bufs w.wlen) out
  else
    let wlen := (w.wlen + wret bufs r w) % 2 ^ 64
    if bufs.flatten.length ≤ wlen then .returns (finish bufs wlen) out
    else
      let pos := upperBound (needOuts bufs) wlen w.startPos (bufs.length - w.startPos)
      let nlen := (wlen + w.iovLen pos) % 2 ^ 64
      if needOuts bufs pos < nlen then
        let l := nlen - needOuts bufs pos
        .goes ⟨wlen, pos, Function.update w.iovBase pos (w.iovBase pos + l),
          Function.update w.iovLen pos (w.iovLen pos - l), out⟩
      else .goes ⟨wlen, pos, w.iovBase, w.iovLen, out⟩

@[grind =] def run : ℕ → (ℕ → Writev) → Writing α → Outcome α
  | 0, _, w => .goes w
  | n + 1, rs, w =>
    match turn bufs (rs 0) w with
    | .goes w' => run n (fun i => rs (i + 1)) w'
    | .returns ret out => .returns ret out

/-- From here, the socket only ever takes a prefix, and after `n` turns the function has returned, with
0 exactly if the socket has taken everything. -/
def DeliversIn (n : ℕ) (rs : ℕ → Writev) (w : Writing α) : Prop :=
  (∀ m, (run bufs m rs w).out <+: bufs.flatten) ∧
  ∃ ret out, run bufs n rs w = .returns ret out ∧ (ret = 0 ↔ out = bufs.flatten)

def Delivers (rs : ℕ → Writev) : Prop := ∃ n, DeliversIn bufs n rs (start bufs)

end Model

/-- A failure has come when a part was taken. The loop ends, because of a result of zero or because the
number `c` is used up by failures; until then, if it still may, the socket takes at most one more
piece: of the current buffer, of which `l` bytes are left, but not all `rest` bytes of the whole. -/
inductive Ends (l rest : ℕ) : Bool → ℕ → (ℕ → Writev) → Prop
  | stop {may : Bool} {c : ℕ} {rs : ℕ → Writev} : rs 0 = .sent 0 → Ends l rest may c rs
  | spent {may : Bool} {rs : ℕ → Writev} : rs 0 = .failed → Ends l rest may 0 rs
  | fails {may : Bool} {c : ℕ} {rs : ℕ → Writev} : rs 0 = .failed →
      Ends l rest may c (fun i => rs (i + 1)) → Ends l rest may (c + 1) rs
  | takes {c k : ℕ} {rs : ℕ → Writev} : rs 0 = .sent (k + 1) → min (k + 1) l < rest →
      Ends l rest false (c + min (k + 1) l) (fun i => rs (i + 1)) → Ends l rest true c rs

/-- Results that the loop can do with, when `lens` bytes are left of the buffers and `c` bytes have been
taken: failures only come at the beginning, or they end the loop in time. -/
inductive Suits : List ℕ → ℕ → (ℕ → Writev) → Prop
  | nothing {k : ℕ} {rs : ℕ → Writev} : rs 0 = .sent k → Suits [] 0 rs
  | stop {l : ℕ} {ls : List ℕ} {c : ℕ} {rs : ℕ → Writev} : rs 0 = .sent 0 → Suits (l :: ls) c rs
  | refused {l : ℕ} {ls : List ℕ} {rs : ℕ → Writev} : rs 0 = .failed → Suits (l :: ls) 0 rs
  | last {l c k : ℕ} {rs : ℕ → Writev} : rs 0 = .sent k → l ≤ k → Suits [l] c rs
  | part {l : ℕ} {ls : List ℕ} {c k : ℕ} {rs : ℕ → Writev} : rs 0 = .sent (k + 1) → k + 1 < l →
      Suits ((l - (k + 1)) :: ls) (c + (k + 1)) (fun i => rs (i + 1)) → Suits (l :: ls) c rs
  | next {l l' : ℕ} {ls : List ℕ} {c k : ℕ} {rs : ℕ → Writev} : rs 0 = .sent k → l ≤ k →
      Suits (l' :: ls) (c + l) (fun i => rs (i + 1)) → Suits (l :: l' :: ls) c rs
  | fails {l : ℕ} {ls : List ℕ} {c : ℕ} {rs : ℕ → Writev} : rs 0 = .failed →
      Ends l (l + ls.sum) true c (fun i => rs (i + 1)) → Suits (l :: ls) (c + 1) rs

section Turn

variable {α : Type u} {bufs pre post : List (List α)} {b b' : List α} {off d k c : ℕ} {r : Writev}
  {w w' : Writing α}

/-- The loop is at the offset `off` of the buffer `b`, and its counter is not ahead of that. -/
structure Cursor (bufs pre : List (List α)) (b : List α) (post : List (List α)) (off : ℕ)
    (w : Writing α) : Prop where
  split : bufs = pre ++ b :: post
  small : bufs.flatten.length < 2 ^ 63
  start : w.startPos = pre.length
  base : w.iovBase pre.length = off
  len : w.iovLen pre.length = b.length - off
  lt : off < b.length
  le : w.wlen ≤ pre.flatten.length + off

theorem wret_failed_ne : wret bufs .failed w ≠ 0 := by
  rw [wret]
  decide

namespace Cursor

theorem total (at' : Cursor bufs pre b post off w) :
    bufs.flatten.length = pre.flatten.length + b.length + post.flatten.length := by
  rw [at'.split]
  simp
  omega

theorem need (at' : Cursor bufs pre b post off w) :
    needOuts bufs pre.length = pre.flatten.length + b.length := by
  rw [needOuts, at'.split, List.take_append, List.take_of_length_le (by omega)]
  simp

theorem current (at' : Cursor bufs pre b post off w) : bufs[w.startPos]?.getD [] = b := by
  rw [at'.start, at'.split]
  simp

theorem left (at' : Cursor bufs pre b post off w) : bufs.length - w.startPos = post.length + 1 := by
  rw [at'.start, at'.split]
  simp

theorem took_sent (at' : Cursor bufs pre b post off w) : took bufs (.sent k) w = min k (b.length - off) := by
  rw [took, at'.left, if_neg (by omega), at'.start, at'.len]

theorem search (at' : Cursor bufs pre b post off w) {v : ℕ} (lt : v < pre.flatten.length + b.length) :
    upperBound (needOuts bufs) v w.startPos (bufs.length - w.startPos) = pre.length := by
  rw [at'.left, upperBound, at'.start, at'.need, if_pos lt]

theorem finish_eq (at' : Cursor bufs pre b post off w) : finish bufs w.wlen = -1 := by
  have lt := at'.lt
  have le := at'.le
  have total := at'.total
  rw [finish, if_neg (by omega)]

theorem turn_stop (at' : Cursor bufs pre b post off w) : turn bufs (.sent 0) w = .returns (-1) w.out := by
  have none : took bufs (.sent 0) w = 0 := by
    rw [at'.took_sent, Nat.zero_min]
  rw [turn, if_pos (by rw [wret, none]), none, at'.finish_eq, List.take_zero, List.append_nil]

theorem turn_spent (at' : Cursor bufs pre b post off w) (zero : w.wlen = 0) :
    turn bufs .failed w = .returns (-1) w.out := by
  have small := at'.small
  rw [turn, if_neg wret_failed_ne]
  simp only [wret, took, zero, List.take_zero, List.append_nil, finish]
  rw [if_pos (by omega), if_neg (by omega)]

theorem turn_fails (at' : Cursor bufs pre b post off w) (wlen : w.wlen = c + 1) :
    turn bufs .failed w = .goes { w with wlen := c } := by
  have small := at'.small
  have total := at'.total
  have lt := at'.lt
  have le := at'.le
  have back : (w.wlen + (2 ^ 64 - 1)) % 2 ^ 64 = c := by omega
  rw [turn, if_neg wret_failed_ne]
  simp only [wret, took, back, List.take_zero, List.append_nil]
  rw [if_neg (by omega), at'.search (by omega), at'.need, at'.len, if_neg (by omega), ← at'.start]

/-- A piece is taken, and the loop stays at its buffer: the counter says how far it goes on in it. -/
theorem turn_takes (at' : Cursor bufs pre b post off w) (some : 0 < min k (b.length - off))
    (stays : w.wlen + min k (b.length - off) < pre.flatten.length + b.length) :
    ∃ w', turn bufs (.sent k) w = .goes w' ∧
      Cursor bufs pre b post (off + (w.wlen + min k (b.length - off) - (pre.flatten.length + off))) w' ∧
      w'.wlen = w.wlen + min k (b.length - off) ∧
      w'.out = w.out ++ (b.drop off).take (min k (b.length - off)) ∧
      ∀ i, pre.length < i → w'.iovBase i = w.iovBase i ∧ w'.iovLen i = w.iovLen i := by
  have small := at'.small
  have total := at'.total
  have lt := at'.lt
  have le := at'.le
  have sum : (w.wlen + min k (b.length - off)) % 2 ^ 64 = w.wlen + min k (b.length - off) :=
    Nat.mod_eq_of_lt (by omega)
  have next : (w.wlen + min k (b.length - off) + (b.length - off)) % 2 ^ 64 =
      w.wlen + min k (b.length - off) + (b.length - off) := Nat.mod_eq_of_lt (by omega)
  rw [turn, if_neg (by rw [wret, at'.took_sent]; omega)]
  simp only [wret, at'.took_sent, sum, at'.current]
  rw [if_neg (by omega), at'.search stays, at'.need, at'.len, next]
  split_ifs with ahead
  · refine ⟨_, rfl, ⟨at'.split, small, rfl, ?_, ?_, by omega, ?_⟩, rfl, ?_, fun i later => ?_⟩
    · simp only [Function.update_self, at'.base]
      omega
    · simp only [Function.update_self]
      omega
    · show w.wlen + min k (b.length - off) ≤ _
      omega
    · rw [at'.start, at'.base]
    · exact ⟨Function.update_of_ne (by omega) _ _, Function.update_of_ne (by omega) _ _⟩
  · have same : w.wlen + min k (b.length - off) - (pre.flatten.length + off) = 0 := by omega
    rw [same, Nat.add_zero]
    refine ⟨_, rfl, ⟨at'.split, small, rfl, at'.base, at'.len, lt, ?_⟩, rfl, ?_, fun _ _ => ⟨rfl, rfl⟩⟩
    · show w.wlen + min k (b.length - off) ≤ _
      omega
    · rw [at'.start, at'.base]

end Cursor

end Turn

section States

variable {α : Type u} {bufs pre post : List (List α)} {b b' : List α} {off real d k c n : ℕ}
  {rs : ℕ → Writev} {w w' : Writing α}

/-- Everything up to the cursor has been taken, and the counter is `d` behind. -/
structure At (bufs pre : List (List α)) (b : List α) (post : List (List α)) (off d : ℕ)
    (w : Writing α) : Prop where
  cursor : Cursor bufs pre b post off w
  fresh : ∀ i, pre.length < i → w.iovBase i = 0 ∧ w.iovLen i = (bufs[i]?.getD []).length
  wlen : w.wlen + d = pre.flatten.length + off
  out : w.out = pre.flatten ++ b.take off

/-- The cursor is behind what has been taken. -/
structure Behind (bufs pre : List (List α)) (b : List α) (post : List (List α)) (off real : ℕ)
    (w : Writing α) : Prop where
  cursor : Cursor bufs pre b post off w
  lt : off < real
  out : w.out = pre.flatten ++ b.take real

theorem take_prefix (split : bufs = pre ++ b :: post) (n : ℕ) :
    pre.flatten ++ b.take n <+: bufs.flatten := by
  rw [split, List.flatten_append, List.flatten_cons, List.prefix_append_right_inj]
  exact (List.take_prefix n b).trans (List.prefix_append _ _)

theorem At.is_prefix (at' : At bufs pre b post off d w) : w.out <+: bufs.flatten := by
  rw [at'.out]
  exact take_prefix at'.cursor.split off

theorem At.out_ne (at' : At bufs pre b post off d w) : w.out ≠ bufs.flatten := by
  intro same
  have length := congrArg List.length same
  have total := at'.cursor.total
  have lt := at'.cursor.lt
  rw [at'.out, List.length_append, List.length_take] at length
  omega

theorem start_at (small : bufs.flatten.length < 2 ^ 63) (split : bufs = b :: post) (ne : b ≠ []) :
    At bufs [] b post 0 0 (start bufs) := by
  refine ⟨⟨split, small, rfl, rfl, ?_, List.length_pos_iff.mpr ne, le_rfl⟩, fun i _ => ⟨rfl, rfl⟩, rfl, ?_⟩
  · simp [start, split]
  · simp [start]

theorem At.back (at' : At bufs pre b post off d w) (wlen : w.wlen = c + 1) :
    At bufs pre b post off (d + 1) { w with wlen := c } := by
  have cursor := at'.cursor
  have le := cursor.le
  have sum := at'.wlen
  refine ⟨⟨cursor.split, cursor.small, cursor.start, cursor.base, cursor.len, cursor.lt, ?_⟩, at'.fresh, ?_,
    at'.out⟩
  · show c ≤ _
    omega
  · show c + (d + 1) = _
    omega

theorem Behind.back (behind : Behind bufs pre b post off real w) (wlen : w.wlen = c + 1) :
    Behind bufs pre b post off real { w with wlen := c } := by
  have cursor := behind.cursor
  have le := cursor.le
  refine ⟨⟨cursor.split, cursor.small, cursor.start, cursor.base, cursor.len, cursor.lt, ?_⟩, behind.lt,
    behind.out⟩
  show c ≤ _
  omega

/-- A part of the current buffer is taken, the counter being right. -/
theorem At.turn_part (at' : At bufs pre b post off 0 w) (part : k + 1 < b.length - off) :
    ∃ w', turn bufs (.sent (k + 1)) w = .goes w' ∧ At bufs pre b post (off + (k + 1)) 0 w' := by
  have cursor := at'.cursor
  have sum := at'.wlen
  have piece : min (k + 1) (b.length - off) = k + 1 := by omega
  obtain ⟨w', goes, next, wlen, out, rest⟩ :=
    cursor.turn_takes (k := k + 1) (by omega) (by omega)
  have place : off + (w.wlen + (k + 1) - (pre.flatten.length + off)) = off + (k + 1) := by omega
  rw [piece] at next wlen out
  rw [place] at next
  refine ⟨w', goes, next, fun i later => ?_, by omega, ?_⟩
  · rw [(rest i later).1, (rest i later).2]
    exact at'.fresh i later
  · rw [out, at'.out, List.append_assoc, ← List.take_add]

/-- The rest of the current buffer is taken, and another one follows. -/
theorem At.turn_next (at' : At bufs pre b (b' :: post) off 0 w) (all : b.length - off ≤ k) (ne : b' ≠ []) :
    ∃ w', turn bufs (.sent k) w = .goes w' ∧ At bufs (pre ++ [b]) b' post 0 0 w' := by
  have cursor := at'.cursor
  have sum := at'.wlen
  have small := cursor.small
  have total := cursor.total
  have lt := cursor.lt
  have positive := List.length_pos_iff.mpr ne
  have piece : min k (b.length - off) = b.length - off := by omega
  have split : bufs = (pre ++ [b]) ++ b' :: post := by
    rw [cursor.split, List.append_assoc]
    rfl
  have length : (pre ++ [b]).flatten.length = pre.flatten.length + b.length := by simp
  have after : (b' :: post).flatten.length = b'.length + post.flatten.length := by simp
  have wlen : (w.wlen + (b.length - off)) % 2 ^ 64 = pre.flatten.length + b.length := by omega
  have fresh := at'.fresh (pre.length + 1) (by omega)
  have follows : bufs[pre.length + 1]?.getD [] = b' := by
    rw [cursor.split]
    simp
  have need : needOuts bufs (pre.length + 1) = pre.flatten.length + b.length + b'.length := by
    rw [needOuts, split, List.take_append, List.take_of_length_le (by simp)]
    simp [Nat.add_assoc]
  have found : upperBound (needOuts bufs) (pre.flatten.length + b.length) w.startPos
      (bufs.length - w.startPos) = pre.length + 1 := by
    rw [cursor.left, upperBound, cursor.start, cursor.need, if_neg (lt_irrefl _), List.length_cons,
      upperBound, need, if_pos (by omega)]
  rw [follows] at fresh
  refine ⟨⟨pre.flatten.length + b.length, pre.length + 1, w.iovBase, w.iovLen,
    w.out ++ (b.drop off).take (b.length - off)⟩, ?_, ⟨split, small, ?_, ?_, ?_, positive, ?_⟩,
    fun i later => ?_, ?_, ?_⟩
  · have nlen : (pre.flatten.length + b.length + b'.length) % 2 ^ 64 =
        pre.flatten.length + b.length + b'.length := Nat.mod_eq_of_lt (by omega)
    rw [turn, if_neg (by rw [wret, cursor.took_sent]; omega)]
    simp only [wret, cursor.took_sent, piece, wlen, cursor.current]
    rw [if_neg (by omega), found, need, fresh.2, nlen, if_neg (lt_irrefl _), cursor.start, cursor.base]
  · simp
  · simpa using fresh.1
  · simpa using fresh.2
  · show pre.flatten.length + b.length ≤ _
    omega
  · apply at'.fresh
    rw [List.length_append, List.length_singleton] at later
    omega
  · show pre.flatten.length + b.length + 0 = _
    omega
  · show w.out ++ (b.drop off).take (b.length - off) = _
    rw [at'.out, List.append_assoc, ← List.take_add, List.take_of_length_le (by omega)]
    simp

theorem At.turn_last (at' : At bufs pre b [] off 0 w) (all : b.length - off ≤ k) :
    turn bufs (.sent k) w = .returns 0 bufs.flatten := by
  have cursor := at'.cursor
  have sum := at'.wlen
  have small := cursor.small
  have total := cursor.total
  have lt := cursor.lt
  have none : ([] : List (List α)).flatten.length = 0 := rfl
  have piece : min k (b.length - off) = b.length - off := by omega
  have wlen : (w.wlen + (b.length - off)) % 2 ^ 64 = bufs.flatten.length := by omega
  rw [turn, if_neg (by rw [wret, cursor.took_sent]; omega)]
  simp only [wret, cursor.took_sent, piece, wlen, cursor.current]
  rw [if_pos le_rfl, finish, if_pos rfl, cursor.start, cursor.base, at'.out, List.append_assoc,
    ← List.take_add, List.take_of_length_le (by omega), cursor.split]
  simp

/-- After a failure, a piece is taken but partly counted. -/
theorem At.turn_lag (at' : At bufs pre b post off (d + 1) w) :
    ∃ off' w', turn bufs (.sent (k + 1)) w = .goes w' ∧
      Behind bufs pre b post off' (off + min (k + 1) (b.length - off)) w' ∧
      w'.wlen = w.wlen + min (k + 1) (b.length - off) := by
  have cursor := at'.cursor
  have sum := at'.wlen
  have lt := cursor.lt
  obtain ⟨w', goes, next, wlen, out, -⟩ := cursor.turn_takes (k := k + 1) (by omega) (by omega)
  refine ⟨_, w', goes, ⟨next, by omega, ?_⟩, wlen⟩
  rw [out, at'.out, List.append_assoc, ← List.take_add]

end States

section Runs

variable {α : Type u} {bufs pre post : List (List α)} {b : List α} {off off' real d c n : ℕ} {ret : ℤ}
  {out : List α} {rs : ℕ → Writev} {w w' : Writing α}

theorem turn_out (r : Writev) (w : Writing α) : (turn bufs r w).out =
    w.out ++ ((bufs[w.startPos]?.getD []).drop (w.iovBase w.startPos)).take (took bufs r w) := by
  simp only [turn]
  split_ifs <;> rfl

theorem deliversIn_zero : ¬ DeliversIn bufs 0 rs w := by
  rintro ⟨-, ret, out, returns, -⟩
  cases returns

theorem DeliversIn.turn_prefix (delivers : DeliversIn bufs n rs w) :
    (turn bufs (rs 0) w).out <+: bufs.flatten := by
  have first := delivers.1 1
  rw [run] at first
  cases turned : turn bufs (rs 0) w with
  | goes w' =>
    rw [turned] at first
    exact first
  | returns ret out =>
    rw [turned] at first
    exact first

theorem DeliversIn.goes (delivers : DeliversIn bufs (n + 1) rs w) (goes : turn bufs (rs 0) w = .goes w') :
    DeliversIn bufs n (fun i => rs (i + 1)) w' := by
  obtain ⟨prefixes, ret, out, returns, told⟩ := delivers
  rw [run, goes] at returns
  refine ⟨fun m => ?_, ret, out, returns, told⟩
  have later := prefixes (m + 1)
  rw [run, goes] at later
  exact later

theorem DeliversIn.returns (delivers : DeliversIn bufs (n + 1) rs w)
    (returns : turn bufs (rs 0) w = .returns ret out) : ret = 0 ↔ out = bufs.flatten := by
  obtain ⟨-, ret', out', returns', told⟩ := delivers
  rw [run, returns] at returns'
  cases returns'
  exact told

theorem deliversIn_goes (before : w.out <+: bufs.flatten) (goes : turn bufs (rs 0) w = .goes w')
    (rest : ∃ n, DeliversIn bufs n (fun i => rs (i + 1)) w') : ∃ n, DeliversIn bufs n rs w := by
  obtain ⟨n, prefixes, ret, out, returns, told⟩ := rest
  refine ⟨n + 1, fun m => ?_, ret, out, ?_, told⟩
  · cases m with
    | zero => exact before
    | succ m =>
      rw [run, goes]
      exact prefixes m
  · rw [run, goes]
    exact returns

theorem deliversIn_returns (before : w.out <+: bufs.flatten) (after : out <+: bufs.flatten)
    (returns : turn bufs (rs 0) w = .returns ret out) (told : ret = 0 ↔ out = bufs.flatten) :
    ∃ n, DeliversIn bufs n rs w := by
  refine ⟨1, fun m => ?_, ret, out, ?_, told⟩
  · cases m with
    | zero => exact before
    | succ m =>
      rw [run, returns]
      exact after
  · rw [run, returns]

theorem deliversIn_part (before : w.out <+: bufs.flatten) (part : w.out ≠ bufs.flatten)
    (returns : turn bufs (rs 0) w = .returns (-1) w.out) : ∃ n, DeliversIn bufs n rs w :=
  deliversIn_returns before before returns (iff_of_false (by decide) part)

theorem Behind.is_prefix (behind : Behind bufs pre b post off real w) : w.out <+: bufs.flatten := by
  rw [behind.out]
  exact take_prefix behind.cursor.split real

/-- After a failure, the loop ends well in the given ways. -/
theorem ends_delivers {l rest : ℕ} {may : Bool} (ends : Ends l rest may c rs) (wlen : w.wlen = c)
    (left : l = b.length - off) (all : rest = b.length - off + post.flatten.length)
    (state : (may = true ∧ ∃ d, At bufs pre b post off (d + 1) w) ∨
      (may = false ∧ ∃ off' real, Behind bufs pre b post off' real w ∧ w.out ≠ bufs.flatten)) :
    ∃ n, DeliversIn bufs n rs w := by
  have known : w.out <+: bufs.flatten ∧ w.out ≠ bufs.flatten ∧ ∃ off', Cursor bufs pre b post off' w := by
    rcases state with ⟨-, d, at'⟩ | ⟨-, off', real, behind, part⟩
    · exact ⟨at'.is_prefix, at'.out_ne, off, at'.cursor⟩
    · exact ⟨behind.is_prefix, part, off', behind.cursor⟩
  obtain ⟨before, part, off', cursor⟩ := known
  induction ends generalizing w off' with
  | stop zero =>
    apply deliversIn_part before part
    rw [zero]
    exact cursor.turn_stop
  | spent failed =>
    apply deliversIn_part before part
    rw [failed]
    exact cursor.turn_spent wlen
  | fails failed ends ih =>
    have goes := cursor.turn_fails wlen
    rw [← failed] at goes
    apply deliversIn_goes before goes
    rcases state with ⟨may, d, at'⟩ | ⟨may, off'', real, behind, -⟩
    · exact ih rfl (.inl ⟨may, d + 1, at'.back wlen⟩) before part off (at'.back wlen).cursor
    · exact ih rfl (.inr ⟨may, off'', real, behind.back wlen, part⟩) before part off''
        (behind.back wlen).cursor
  | @takes c k rs sent more ends ih =>
    rcases state with ⟨-, d, at'⟩ | ⟨may, -⟩
    · obtain ⟨off'', w', goes, behind, wlen'⟩ := at'.turn_lag (k := k)
      rw [← sent] at goes
      apply deliversIn_goes before goes
      have missing : w'.out ≠ bufs.flatten := by
        intro same
        have length := congrArg List.length same
        have total := cursor.total
        rw [behind.out, List.length_append, List.length_take] at length
        have lt := at'.cursor.lt
        omega
      have count : w'.wlen = c + min (k + 1) l := by rw [wlen', wlen, left]
      exact ih count (.inr ⟨rfl, off'', _, behind, missing⟩) behind.is_prefix missing off'' behind.cursor
    · cases may

theorem suits_delivers {lens : List ℕ} (suits : Suits lens c rs) (at' : At bufs pre b post off 0 w)
    (wlen : w.wlen = c) (same : lens = (b.length - off) :: post.map List.length)
    (ne : ∀ b' ∈ post, b' ≠ []) : ∃ n, DeliversIn bufs n rs w := by
  induction suits generalizing pre b post off w with
  | nothing => cases same
  | stop zero =>
    apply deliversIn_part at'.is_prefix at'.out_ne
    rw [zero]
    exact at'.cursor.turn_stop
  | refused failed =>
    apply deliversIn_part at'.is_prefix at'.out_ne
    rw [failed]
    exact at'.cursor.turn_spent wlen
  | last sent all =>
    rw [List.cons.injEq] at same
    obtain ⟨rfl, none⟩ := same
    obtain rfl := List.map_eq_nil_iff.mp none.symm
    have returns := at'.turn_last all
    rw [← sent] at returns
    exact deliversIn_returns at'.is_prefix (List.prefix_refl _) returns (iff_of_true rfl rfl)
  | part sent lt suits ih =>
    rw [List.cons.injEq] at same
    obtain ⟨rfl, rfl⟩ := same
    obtain ⟨w', goes, next⟩ := at'.turn_part lt
    rw [← sent] at goes
    apply deliversIn_goes at'.is_prefix goes
    have sum := at'.wlen
    have sum' := next.wlen
    exact ih next (by omega) (by rw [Nat.sub_sub]) ne
  | next sent all suits ih =>
    cases post with
    | nil => cases same
    | cons b' post =>
      rw [List.map_cons, List.cons.injEq, List.cons.injEq] at same
      obtain ⟨rfl, rfl, rfl⟩ := same
      rw [List.forall_mem_cons] at ne
      obtain ⟨w', goes, next⟩ := at'.turn_next all ne.1
      rw [← sent] at goes
      apply deliversIn_goes at'.is_prefix goes
      have sum := at'.wlen
      have sum' := next.wlen
      have lt := at'.cursor.lt
      have length : (pre ++ [b]).flatten.length = pre.flatten.length + b.length := by simp
      exact ih next (by omega) rfl ne.2
  | fails failed ends =>
    rw [List.cons.injEq] at same
    obtain ⟨rfl, rfl⟩ := same
    have goes := at'.cursor.turn_fails wlen
    rw [← failed] at goes
    apply deliversIn_goes at'.is_prefix goes
    exact ends_delivers ends rfl rfl (by rw [List.length_flatten]) (.inl ⟨rfl, 0, at'.back wlen⟩)

end Runs

section Needed

variable {α : Type u} {bufs pre post : List (List α)} {b : List α} {off real d n : ℕ}
  {rs : ℕ → Writev} {w : Writing α}

/-- A second piece after a failure repeats an element. -/
theorem Behind.not_sent {k : ℕ} (distinct : bufs.flatten.Nodup) (behind : Behind bufs pre b post off real w)
    (sent : rs 0 = .sent (k + 1)) : ¬ DeliversIn bufs n rs w := by
  intro delivers
  have cursor := behind.cursor
  have lt := cursor.lt
  have positive : 0 < min (k + 1) (b.length - off) := by omega
  have taken := delivers.turn_prefix
  rw [turn_out, sent, cursor.took_sent, cursor.current, cursor.start, cursor.base, behind.out] at taken
  have nodup := taken.sublist.nodup distinct
  have here : b[off] ∈ pre.flatten ++ b.take real :=
    List.mem_append_right _ (List.mem_take_iff_getElem.mpr ⟨off, by have := behind.lt; omega, rfl⟩)
  have again : b[off] ∈ (b.drop off).take (min (k + 1) (b.length - off)) := by
    apply List.mem_take_iff_getElem.mpr
    exact ⟨0, by rw [List.length_drop]; omega, by simp⟩
  exact (List.nodup_append'.mp nodup).2.2 here again

theorem Behind.ends {l rest : ℕ} (distinct : bufs.flatten.Nodup) (behind : Behind bufs pre b post off real w)
    (delivers : DeliversIn bufs n rs w) : Ends l rest false w.wlen rs ∧ w.out ≠ bufs.flatten := by
  induction n generalizing w rs with
  | zero => exact absurd delivers deliversIn_zero
  | succ n ih =>
    cases result : rs 0 with
    | sent k =>
      cases k with
      | zero =>
        have returns := behind.cursor.turn_stop
        rw [← result] at returns
        have told := delivers.returns returns
        refine ⟨.stop result, fun same => ?_⟩
        exact absurd (told.mpr same) (by decide)
      | succ k => exact absurd delivers (behind.not_sent distinct result)
    | failed =>
      cases count : w.wlen with
      | zero =>
        have returns := behind.cursor.turn_spent count
        rw [← result] at returns
        have told := delivers.returns returns
        refine ⟨.spent result, fun same => ?_⟩
        exact absurd (told.mpr same) (by decide)
      | succ c =>
        have goes := behind.cursor.turn_fails count
        rw [← result] at goes
        obtain ⟨ends, part⟩ := ih (behind.back count) (delivers.goes goes)
        exact ⟨.fails result ends, part⟩

theorem At.ends (distinct : bufs.flatten.Nodup) (at' : At bufs pre b post off (d + 1) w)
    (delivers : DeliversIn bufs n rs w) :
    Ends (b.length - off) (b.length - off + post.flatten.length) true w.wlen rs := by
  induction n generalizing d w rs with
  | zero => exact absurd delivers deliversIn_zero
  | succ n ih =>
    cases result : rs 0 with
    | sent k =>
      cases k with
      | zero => exact .stop result
      | succ k =>
        obtain ⟨off', w', goes, behind, wlen⟩ := at'.turn_lag (k := k)
        rw [← result] at goes
        obtain ⟨ends, part⟩ := behind.ends distinct (delivers.goes goes)
        refine .takes result ?_ (wlen ▸ ends)
        by_contra whole
        apply part
        apply behind.is_prefix.eq_of_length
        have total := behind.cursor.total
        have lt := at'.cursor.lt
        rw [behind.out, List.length_append, List.length_take]
        omega
    | failed =>
      cases count : w.wlen with
      | zero => exact .spent result
      | succ c =>
        have goes := at'.cursor.turn_fails count
        rw [← result] at goes
        exact .fails result (ih (at'.back count) (delivers.goes goes))

/-- If the loop delivers elements that can be told from each other, the results suit it. -/
theorem At.suits (distinct : bufs.flatten.Nodup) (at' : At bufs pre b post off 0 w)
    (ne : ∀ b' ∈ post, b' ≠ []) (delivers : DeliversIn bufs n rs w) :
    Suits ((b.length - off) :: post.map List.length) w.wlen rs := by
  induction n generalizing pre b post off w rs with
  | zero => exact absurd delivers deliversIn_zero
  | succ n ih =>
    have sum := at'.wlen
    have lt := at'.cursor.lt
    cases result : rs 0 with
    | sent k =>
      by_cases all : b.length - off ≤ k
      · cases post with
        | nil => exact .last result all
        | cons b' post =>
          rw [List.forall_mem_cons] at ne
          obtain ⟨w', goes, next⟩ := at'.turn_next all ne.1
          rw [← result] at goes
          have suits := ih next ne.2 (delivers.goes goes)
          have sum' := next.wlen
          have length : (pre ++ [b]).flatten.length = pre.flatten.length + b.length := by simp
          have wlen : w'.wlen = w.wlen + (b.length - off) := by omega
          exact .next result all (wlen ▸ suits)
      · cases k with
        | zero => exact .stop result
        | succ k =>
          obtain ⟨w', goes, next⟩ := at'.turn_part (k := k) (by omega)
          rw [← result] at goes
          have suits := ih next ne (delivers.goes goes)
          have sum' := next.wlen
          have wlen : w'.wlen = w.wlen + (k + 1) := by omega
          rw [wlen, ← Nat.sub_sub] at suits
          exact .part result (by omega) suits
    | failed =>
      cases count : w.wlen with
      | zero => exact .refused result
      | succ c =>
        have goes := at'.cursor.turn_fails count
        rw [← result] at goes
        have ends := (at'.back count).ends distinct (delivers.goes goes)
        rw [List.length_flatten] at ends
        exact .fails result ends

end Needed

section Whole

variable {α : Type u} {bufs : List (List α)} {rs : ℕ → Writev}

theorem nothing_delivers : Delivers ([] : List (List α)) rs ↔ Suits [] 0 rs := by
  cases result : rs 0 with
  | sent k =>
    refine iff_of_true ?_ (.nothing result)
    have returns : turn ([] : List (List α)) (rs 0) (start []) = .returns 0 [] := by
      rw [result]
      rfl
    exact deliversIn_returns (List.prefix_refl _) (List.prefix_refl _) returns (iff_of_true rfl rfl)
  | failed =>
    constructor
    · rintro ⟨n, delivers⟩
      cases n with
      | zero => exact absurd delivers deliversIn_zero
      | succ n =>
        have returns : turn ([] : List (List α)) (rs 0) (start []) = .returns (-1) [] := by
          rw [result]
          simp [turn, wret, took, finish, start]
        exact absurd ((delivers.returns returns).mpr rfl) (by decide)
    · intro suits
      cases suits with
      | nothing sent =>
        rw [result] at sent
        cases sent

/-- The loop delivers exactly with the results that suit the lengths of the buffers, when the elements can
be told from each other. -/
theorem delivers_iff_suits (distinct : bufs.flatten.Nodup) (small : bufs.flatten.length < 2 ^ 63)
    (ne : ∀ b ∈ bufs, b ≠ []) : Delivers bufs rs ↔ Suits (bufs.map List.length) 0 rs := by
  cases bufs with
  | nil => exact nothing_delivers
  | cons b post =>
    rw [List.forall_mem_cons] at ne
    have at' := start_at small rfl ne.1
    constructor
    · rintro ⟨n, delivers⟩
      exact at'.suits distinct ne.2 delivers
    · intro suits
      exact suits_delivers suits at' rfl rfl ne.2

/-- With results that suit the lengths, the loop delivers any elements. -/
theorem delivers_of_suits (small : bufs.flatten.length < 2 ^ 63) (ne : ∀ b ∈ bufs, b ≠ [])
    (suits : Suits (bufs.map List.length) 0 rs) : Delivers bufs rs := by
  cases bufs with
  | nil => exact nothing_delivers.mpr suits
  | cons b post =>
    rw [List.forall_mem_cons] at ne
    exact suits_delivers suits (start_at small rfl ne.1) rfl rfl ne.2

end Whole

section Contents

variable {α β : Type u} (f : α → β)

def Writing.map (w : Writing α) : Writing β := ⟨w.wlen, w.startPos, w.iovBase, w.iovLen, w.out.map f⟩

def Outcome.map : Outcome α → Outcome β
  | goes w => goes (w.map f)
  | returns ret out => returns ret (out.map f)

variable (bufs : List (List α))

theorem length_map_flatten : (bufs.map (List.map f)).flatten.length = bufs.flatten.length := by
  rw [← List.map_flatten, List.length_map]

theorem needOuts_map : needOuts (bufs.map (List.map f)) = needOuts bufs := by
  funext i
  rw [needOuts, ← List.map_take, length_map_flatten, needOuts]

theorem getD_map (i : ℕ) : (bufs.map (List.map f))[i]?.getD [] = (bufs[i]?.getD []).map f := by
  rw [List.getElem?_map]
  cases bufs[i]? <;> rfl

theorem turn_map (r : Writev) (w : Writing α) :
    turn (bufs.map (List.map f)) r (w.map f) = (turn bufs r w).map f := by
  have took_eq : took (bufs.map (List.map f)) r (w.map f) = took bufs r w := by
    cases r with
    | sent k => simp only [took, Writing.map, List.length_map]
    | failed => rfl
  have wret_eq : wret (bufs.map (List.map f)) r (w.map f) = wret bufs r w := by
    cases r with
    | sent k => exact took_eq
    | failed => rfl
  simp only [turn, took_eq, wret_eq]
  simp only [finish, length_map_flatten, needOuts_map, List.length_map, getD_map, Writing.map]
  split_ifs <;> simp only [Outcome.map, Writing.map, List.map_append, List.map_take, List.map_drop]

theorem run_map (n : ℕ) (rs : ℕ → Writev) (w : Writing α) :
    run (bufs.map (List.map f)) n rs (w.map f) = (run bufs n rs w).map f := by
  induction n generalizing rs w with
  | zero => rfl
  | succ n ih =>
    rw [run, run, turn_map]
    cases turn bufs (rs 0) w with
    | goes w' => exact ih (fun i => rs (i + 1)) w'
    | returns ret out => rfl

theorem start_map : start (bufs.map (List.map f)) = (start bufs).map f := by
  simp only [start, Writing.map, getD_map, List.length_map, List.map_nil]

end Contents

section Bytes

/-- Buffers of the given lengths, whose elements are numbered from `a` on. -/
def labels : ℕ → List ℕ → List (List ℕ)
  | _, [] => []
  | a, l :: ls => List.range' a l :: labels (a + l) ls

theorem labels_length (a : ℕ) (lens : List ℕ) : (labels a lens).map List.length = lens := by
  induction lens generalizing a with
  | nil => rfl
  | cons l ls ih => rw [labels, List.map_cons, List.length_range', ih]

theorem labels_flatten (a : ℕ) (lens : List ℕ) : (labels a lens).flatten = List.range' a lens.sum := by
  induction lens generalizing a with
  | nil => rfl
  | cons l ls ih => rw [labels, List.flatten_cons, ih, List.sum_cons, List.range'_append_1]

/-- Numbers that stand for a prefix, whatever bytes they are given, are one. -/
theorem prefix_of_bytes {os : List ℕ} {n : ℕ}
    (all : ∀ f : ℕ → UInt8, os.map f <+: (List.range' 0 n).map f) : os <+: List.range' 0 n := by
  have le : os.length ≤ n := by
    simpa using (all fun _ => 0).length_le
  have same : os = List.range' 0 os.length := by
    apply List.ext_getElem (by simp)
    intro i hi hi'
    have marked := all fun o => if o = os[i] then 1 else 0
    have here := marked.getElem (i := i) (by simpa using hi)
    simp only [List.getElem_map, if_true, List.getElem_range', Nat.zero_add, Nat.one_mul] at here
    rw [List.getElem_range']
    by_contra ne
    rw [if_neg (by omega)] at here
    exact absurd here (by decide)
  rw [same, ← Nat.add_sub_cancel' le, ← List.range'_append_1]
  exact List.prefix_append _ _

variable {lens : List ℕ} {rs : ℕ → Writev}

/-- If the loop delivers all bytes in buffers of the given lengths, it delivers their places. -/
theorem delivers_labels (delivers : ∀ bufs : List (List UInt8), bufs.map List.length = lens → Delivers bufs rs) :
    Delivers (labels 0 lens) rs := by
  have bytes : ∀ f : ℕ → UInt8, Delivers ((labels 0 lens).map (List.map f)) rs := by
    intro f
    apply delivers
    rw [List.map_map]
    exact (List.map_congr_left fun b _ => List.length_map f).trans (labels_length 0 lens)
  have prefixes : ∀ m, (run (labels 0 lens) m rs (start (labels 0 lens))).out <+: (labels 0 lens).flatten := by
    intro m
    rw [labels_flatten]
    apply prefix_of_bytes
    intro f
    obtain ⟨n, all, -⟩ := bytes f
    have here := all m
    rw [start_map, run_map, ← List.map_flatten, labels_flatten] at here
    cases result : run (labels 0 lens) m rs (start (labels 0 lens)) <;>
      rw [result] at here <;> exact here
  obtain ⟨n, -, ret, out, returns, told⟩ := bytes fun _ => 0
  rw [start_map, run_map] at returns
  refine ⟨n, prefixes, ?_⟩
  have whole := prefixes n
  cases result : run (labels 0 lens) n rs (start (labels 0 lens)) with
  | goes w =>
    rw [result] at returns
    cases returns
  | returns ret' out' =>
    rw [result] at returns whole
    cases returns
    refine ⟨_, _, rfl, told.trans ?_⟩
    rw [← List.map_flatten]
    constructor
    · intro same
      have lengths : out'.length = (labels 0 lens).flatten.length := by
        simpa only [List.length_map] using congrArg List.length same
      exact whole.eq_of_length lengths
    · intro same
      rw [same]

/-- For non-empty buffers of the given lengths, whatever they hold, the loop delivers exactly with the
results that suit the lengths. -/
theorem writeAll_iff (small : lens.sum < 2 ^ 63) (positive : ∀ l ∈ lens, 0 < l) (rs : ℕ → Writev) :
    (∀ bufs : List (List UInt8), bufs.map List.length = lens → Delivers bufs rs) ↔ Suits lens 0 rs := by
  constructor
  · intro delivers
    have labelled := delivers_labels delivers
    rw [delivers_iff_suits, labels_length] at labelled
    · exact labelled
    · rw [labels_flatten]
      exact List.nodup_range'
    · rw [labels_flatten, List.length_range']
      exact small
    · intro b mem none
      have length := List.mem_map_of_mem (f := List.length) mem
      rw [labels_length, none] at length
      exact absurd (positive _ length) (lt_irrefl 0)
  · rintro suits bufs rfl
    apply delivers_of_suits _ _ suits
    · rw [List.length_flatten]
      exact small
    · rintro b mem rfl
      exact absurd (positive _ (List.mem_map_of_mem mem)) (lt_irrefl 0)

/-- What `writev` says of three buffers: a byte of the first is taken, then the rest of it, and then the
other two one after another. -/
def threeParts (n : ℕ) : Writev := [.sent 1, .sent 2, .sent 1].getD n (.sent 2)

theorem writeAll_threeParts : Delivers [[(1 : UInt8), 2, 3], [4], [5, 6]] threeParts := by
  have last : Suits [2] 4 fun i => threeParts (i + 3) := .last rfl le_rfl
  have second : Suits [1, 2] 3 fun i => threeParts (i + 2) := .next rfl le_rfl last
  have rest : Suits [2, 1, 2] 1 fun i => threeParts (i + 1) := .next rfl le_rfl second
  have suits : Suits [3, 1, 2] 0 threeParts := .part rfl (by decide) rest
  exact (writeAll_iff (by decide) (by decide) threeParts).mpr suits _ rfl

/-- A failure between the first and the second of two bytes: the second byte is sent twice. -/
theorem not_delivered : ¬ ∀ (bufs : List (List UInt8)) (rs : ℕ → Writev), (∀ b ∈ bufs, b ≠ []) →
    bufs.flatten.length < 2 ^ 63 → Delivers bufs rs := by
  intro delivers
  obtain ⟨n, prefixes, -⟩ := delivers [[1, 2]] (fun n => if n = 1 then .failed else .sent 1)
    (by decide) (by decide)
  have sent : (run [[1, 2]] 4 (fun n => if n = 1 then .failed else .sent 1)
      (start [[(1 : UInt8), 2]])).out = [1, 2, 2] := by
    decide +kernel
  have four := prefixes 4
  rw [sent] at four
  exact absurd four (by decide)

end Bytes

end Conet.Base.NetToolWritev
