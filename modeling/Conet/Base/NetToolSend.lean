/- Module: Conet/Base/NetToolSend
   source: base/src/net_tool.cpp, base/net_tool.h
   digest: send_data: the sending of a buffer in pieces, with and without a deadline. -/

import Conet.Base.Pbc

set_option autoImplicit false
set_option relaxedAutoImplicit false

namespace Conet.Base.NetToolSend

open Conet.Base.Pbc

/-- What a `send` is ready to do: to take up to so many bytes, or to fail with `EAGAIN` or another
error. -/
inductive Send
  | sent (k : ℕ)
  | again
  | failed
  deriving DecidableEq

/-- The most bytes that one `send` takes. -/
def maxRwCount : ℕ := 0x7ffff000

/-- The return value of a `send` of `n` bytes. -/
def Send.result (n : ℕ) : Send → ℤ
  | sent k => min k (min n maxRwCount)
  | again => -1
  | failed => -1

/-- What `poll` comes back with, with the events that are looked at. -/
inductive Poll
  | timeout
  | failed
  | pollErr
  | pollOut
  | other
  deriving DecidableEq

/-- What the system calls for one piece of the data come back with: the `send` before `poll`, `poll`,
the `send` after it, and the clock after that. -/
structure Attempt where
  early : Send
  poll : Poll
  send : Send
  cur : UInt64

/-- `write_timeout` of `n` bytes. -/
def writeTimeout (n : ℕ) (a : Attempt) : ℤ :=
  if 0 ≤ a.early.result n then a.early.result n
  else if a.early ≠ .again then a.early.result n
  else
    match a.poll with
    | .timeout => -2
    | .failed => -1
    | .pollErr => -1
    | .other => -1
    | .pollOut => a.send.result n

/-- `timeout - (int)(cur - start_ms)`. -/
def restMs (timeout : ℤ) (startMs cur : UInt64) : ℤ := toInt32 (timeout - toInt32 (cur - startMs).toNat)

/-- How the two functions `send_data` send a piece, and whether they give up after it. -/
structure Sender (A : Type) where
  write : ℕ → A → ℤ
  late : A → Bool

def plain : Sender Send := ⟨Send.result, fun _ => false⟩

def withTimeout (timeout : ℤ) (startMs : UInt64) : Sender Attempt :=
  ⟨writeTimeout, fun a => decide (restMs timeout startMs a.cur ≤ 0)⟩

section Loop

variable {A : Type}

def finish (buf : List UInt8) (ret : ℤ) : ℤ := if ret < 0 then ret else toInt32 buf.length

/-- The loop of `send_data`, with what the socket has taken; it waits when there are no more results.
`ERR_TIMEOUT_NET_HELPER` is -2. -/
def sendLoop (s : Sender A) (buf : List UInt8) : List A → ℕ → ℤ → List UInt8 → Option (ℤ × List UInt8)
  | [], curLen, ret, out => if curLen < buf.length then none else some (finish buf ret, out)
  | a :: script, curLen, ret, out =>
    if curLen < buf.length then
      let ret := toInt32 (s.write (buf.length - curLen) a)
      if ret < 0 then some (finish buf ret, out)
      else if ret = 0 then some (finish buf ret, out)
      else
        let out := out ++ (buf.drop curLen).take ret.toNat
        if s.late a then some (-2, out) else sendLoop s buf script (curLen + ret.toNat) ret out
    else some (finish buf ret, out)

end Loop

def sendData (buf : List UInt8) (script : List Send) : Option (ℤ × List UInt8) :=
  sendLoop plain buf script 0 0 []

/-- `send_data(fd, buf, len, timeout)`, started at `startMs`. -/
def sendDataTimeout (buf : List UInt8) (timeout : ℤ) (startMs : UInt64) (script : List Attempt) :
    Option (ℤ × List UInt8) :=
  sendLoop (withTimeout timeout startMs) buf script 0 0 []

/-- The length is returned exactly if everything was taken, and else a negative value. -/
def Told (buf : List UInt8) (ret : ℤ) (out : List UInt8) : Prop :=
  (ret = buf.length ↔ out = buf) ∧ (out ≠ buf → ret < 0)

section Conform

variable {A : Type} (s : Sender A)

/-- The results take `n` more bytes, the deadline being kept but perhaps at the end. -/
def Takes : ℕ → List A → Prop
  | 0, _ => True
  | _ + 1, [] => False
  | n + 1, a :: script => 0 < s.write (n + 1) a ∧
    (s.late a = true → s.write (n + 1) a = (n + 1 : ℕ)) ∧ Takes (n + 1 - (s.write (n + 1) a).toNat) script

/-- The results take `n` more bytes, and the deadline has passed when the last of them is taken. -/
def TakesLate : ℕ → List A → Prop
  | 0, _ => False
  | _ + 1, [] => False
  | n + 1, a :: script => 0 < s.write (n + 1) a ∧
    if s.write (n + 1) a = (n + 1 : ℕ) then s.late a = true
    else s.late a = false ∧ TakesLate (n + 1 - (s.write (n + 1) a).toNat) script

/-- A result of zero comes while there are `n` more bytes to send, the deadline being kept. -/
def Stalls : ℕ → List A → Prop
  | 0, _ => False
  | _ + 1, [] => False
  | n + 1, a :: script => s.write (n + 1) a = 0 ∨ (0 < s.write (n + 1) a ∧ s.late a = false ∧
    Stalls (n + 1 - (s.write (n + 1) a).toNat) script)

/-- With `n` more bytes to send: everything is taken only of a buffer whose length is an `int`, and in
time; and if a result is zero before that, the length is a negative `int`. -/
def Suits (buf : List UInt8) (n : ℕ) (script : List A) : Prop :=
  (Takes s n script → buf.length < 2 ^ 31 ∧ ¬ TakesLate s n script) ∧
  (Stalls s n script → 2 ^ 31 ≤ buf.length % 2 ^ 32)

/-- No call takes more than it is given. -/
structure Sender.Bounded : Prop where
  le : ∀ n a, s.write n a ≤ n
  lt : ∀ n a, s.write n a < 2 ^ 31
  ge : ∀ n a, -2 ^ 31 ≤ s.write n a

variable {s} {buf out : List UInt8} {cur n : ℕ} {ret : ℤ} {a : A} {script : List A}

theorem toInt32_length : toInt32 buf.length = buf.length ↔ buf.length < 2 ^ 31 := by
  unfold toInt32
  omega

theorem told_all (nonneg : 0 ≤ ret) : Told buf (finish buf ret) buf ↔ buf.length < 2 ^ 31 := by
  rw [finish, if_neg (by omega), ← toInt32_length]
  simp [Told]

theorem told_part (missing : out ≠ buf) : Told buf ret out ↔ ret < 0 := by
  constructor
  · intro told
    exact told.2 missing
  · intro negative
    refine ⟨iff_of_false ?_ missing, fun _ => negative⟩
    omega

theorem take_ne (lt : cur < buf.length) : buf.take cur ≠ buf := by
  intro same
  have length := congrArg List.length same
  rw [List.length_take] at length
  omega

theorem suits_zero : Suits s buf 0 script ↔ buf.length < 2 ^ 31 := by
  simp [Suits, Takes, TakesLate, Stalls]

theorem suits_negative (fails : s.write (n + 1) a < 0) : Suits s buf (n + 1) (a :: script) := by
  constructor
  · intro takes
    have positive := takes.1
    omega
  · intro stalls
    rcases stalls with zero | ⟨positive, -⟩ <;> omega

theorem suits_stalled (zero : s.write (n + 1) a = 0) :
    Suits s buf (n + 1) (a :: script) ↔ 2 ^ 31 ≤ buf.length % 2 ^ 32 := by
  constructor
  · intro suits
    exact suits.2 (.inl zero)
  · intro negative
    refine ⟨fun takes => ?_, fun _ => negative⟩
    have positive := takes.1
    omega

theorem suits_late (positive : 0 < s.write (n + 1) a) (late : s.late a = true) :
    Suits s buf (n + 1) (a :: script) ↔ s.write (n + 1) a ≠ (n + 1 : ℕ) := by
  constructor
  · intro suits last
    refine (suits.1 ⟨positive, fun _ => last, ?_⟩).2 ⟨positive, ?_⟩
    · have rest : n + 1 - (s.write (n + 1) a).toNat = 0 := by omega
      rw [rest, Takes]
      trivial
    · rw [if_pos last]
      exact late
  · intro more
    refine ⟨fun takes => absurd (takes.2.1 late) more, fun stalls => ?_⟩
    rcases stalls with zero | ⟨-, kept, -⟩
    · omega
    · rw [late] at kept
      cases kept

theorem suits_goes_on (positive : 0 < s.write (n + 1) a) (kept : s.late a = false) :
    Suits s buf (n + 1) (a :: script) ↔ Suits s buf (n + 1 - (s.write (n + 1) a).toNat) script := by
  have takes : Takes s (n + 1) (a :: script) ↔ Takes s (n + 1 - (s.write (n + 1) a).toNat) script := by
    simp [Takes, positive, kept]
  have stalls : Stalls s (n + 1) (a :: script) ↔
      Stalls s (n + 1 - (s.write (n + 1) a).toNat) script := by
    simp [Stalls, positive, kept, positive.ne']
  have late : TakesLate s (n + 1) (a :: script) ↔
      TakesLate s (n + 1 - (s.write (n + 1) a).toNat) script := by
    by_cases last : s.write (n + 1) a = (n + 1 : ℕ)
    · have rest : n + 1 - (s.write (n + 1) a).toNat = 0 := by omega
      rw [rest]
      simp [TakesLate, last, kept]
    · simp only [TakesLate, if_neg last, kept, true_and, and_iff_right positive]
  rw [Suits, takes, stalls, late, Suits]

/-- One run of the loop, from the middle of the buffer. -/
theorem sendLoop_told (bounded : s.Bounded) (le : cur ≤ buf.length) (nonneg : 0 ≤ ret)
    (enough : buf.length - cur ≤ script.length) :
    ∃ r out, sendLoop s buf script cur ret (buf.take cur) = some (r, out) ∧
      (Told buf r out ↔ Suits s buf (buf.length - cur) script) := by
  induction script generalizing cur ret with
  | nil =>
    rw [List.length_nil] at enough
    have full : cur = buf.length := by omega
    refine ⟨finish buf ret, buf, ?_, ?_⟩
    · rw [sendLoop, if_neg (by omega), full, List.take_length]
    · rw [told_all nonneg, full, Nat.sub_self, suits_zero]
  | cons a script ih =>
    by_cases more : cur < buf.length
    · obtain ⟨n, rest⟩ : ∃ n, buf.length - cur = n + 1 := ⟨buf.length - cur - 1, by omega⟩
      have top := bounded.le (n + 1) a
      have low := bounded.lt (n + 1) a
      have ge := bounded.ge (n + 1) a
      have int : toInt32 (s.write (n + 1) a) = s.write (n + 1) a := by
        unfold toInt32
        omega
      rw [rest, sendLoop, if_pos more, rest, int]
      by_cases fails : s.write (n + 1) a < 0
      · refine ⟨_, _, if_pos fails, ?_⟩
        rw [told_part (take_ne more), finish, if_pos fails]
        exact iff_of_true fails (suits_negative fails)
      · rw [if_neg fails]
        by_cases zero : s.write (n + 1) a = 0
        · refine ⟨_, _, if_pos zero, ?_⟩
          rw [told_part (take_ne more), suits_stalled zero, finish, if_neg fails]
          unfold toInt32
          omega
        · have positive : 0 < s.write (n + 1) a := by omega
          have joined : buf.take cur ++ (buf.drop cur).take (s.write (n + 1) a).toNat =
              buf.take (cur + (s.write (n + 1) a).toNat) := List.take_add.symm
          simp only [if_neg zero, joined]
          cases late : s.late a with
          | true =>
            refine ⟨-2, _, rfl, ?_⟩
            rw [suits_late positive late]
            by_cases last : s.write (n + 1) a = (n + 1 : ℕ)
            · rw [List.take_of_length_le (by omega)]
              refine iff_of_false (fun told => ?_) (not_not.mpr last)
              have same := told.1.mpr rfl
              omega
            · rw [told_part (take_ne (by omega))]
              exact iff_of_true (by decide) last
          | false =>
            obtain ⟨r, out, runs, told⟩ := @ih (cur + (s.write (n + 1) a).toNat) (s.write (n + 1) a)
              (by omega) positive.le (by rw [List.length_cons] at enough; omega)
            refine ⟨r, out, runs, ?_⟩
            rw [told, suits_goes_on positive late, ← rest, Nat.sub_sub]
    · have full : cur = buf.length := by omega
      refine ⟨finish buf ret, buf, ?_, ?_⟩
      · rw [sendLoop, if_neg more, full, List.take_length]
      · rw [told_all nonneg, full, Nat.sub_self, suits_zero]

end Conform

section Senders

theorem result_le (n : ℕ) (a : Send) : a.result n ≤ n ∧ a.result n < 2 ^ 31 ∧ -2 ^ 31 ≤ a.result n := by
  cases a with
  | sent k =>
    simp only [Send.result, maxRwCount]
    omega
  | again =>
    simp only [Send.result]
    omega
  | failed =>
    simp only [Send.result]
    omega

theorem plain_bounded : plain.Bounded :=
  ⟨fun n a => (result_le n a).1, fun n a => (result_le n a).2.1, fun n a => (result_le n a).2.2⟩

theorem writeTimeout_le (n : ℕ) (a : Attempt) :
    writeTimeout n a ≤ n ∧ writeTimeout n a < 2 ^ 31 ∧ -2 ^ 31 ≤ writeTimeout n a := by
  unfold writeTimeout
  split_ifs
  · exact result_le n a.early
  · exact result_le n a.early
  · have ends := result_le n a.send
    cases a.poll <;> simp only <;> omega

theorem withTimeout_bounded (timeout : ℤ) (startMs : UInt64) : (withTimeout timeout startMs).Bounded :=
  ⟨fun n a => (writeTimeout_le n a).1, fun n a => (writeTimeout_le n a).2.1,
    fun n a => (writeTimeout_le n a).2.2⟩

/-- With as many results as there are bytes, both functions return, and they tell what became of the
buffer under exactly one condition. -/
theorem sendData_iff (buf : List UInt8) (timeout : ℤ) (startMs : UInt64) (script : List Send)
    (timed : List Attempt) (enough : buf.length ≤ script.length) (enough' : buf.length ≤ timed.length) :
    (∃ ret out, sendData buf script = some (ret, out) ∧
      (Told buf ret out ↔ Suits plain buf buf.length script)) ∧
    ∃ ret out, sendDataTimeout buf timeout startMs timed = some (ret, out) ∧
      (Told buf ret out ↔ Suits (withTimeout timeout startMs) buf buf.length timed) :=
  ⟨sendLoop_told plain_bounded (Nat.zero_le _) le_rfl enough,
    sendLoop_told (withTimeout_bounded timeout startMs) (Nat.zero_le _) le_rfl enough'⟩

/-- Of three bytes two are taken, and the third after a wait. -/
def twoThenOne : List Attempt :=
  [⟨.sent 2, .other, .failed, 10⟩, ⟨.again, .pollOut, .sent 1, 20⟩, ⟨.failed, .other, .failed, 30⟩]

theorem sendData_pieces : (∃ ret out, sendData [1, 2, 3] [.sent 2, .sent 1, .failed] = some (ret, out) ∧
      (Told [1, 2, 3] ret out ↔ Suits plain [1, 2, 3] 3 [.sent 2, .sent 1, .failed])) ∧
    ∃ ret out, sendDataTimeout [1, 2, 3] 1000 0 twoThenOne = some (ret, out) ∧
      (Told [1, 2, 3] ret out ↔ Suits (withTimeout 1000 0) [1, 2, 3] 3 twoThenOne) :=
  sendData_iff [1, 2, 3] 1000 0 [.sent 2, .sent 1, .failed] twoThenOne le_rfl le_rfl

/-- A result of zero counts as success, and a byte that is taken when the deadline has passed counts as
missing. -/
theorem not_told :
    ¬ (∀ buf script ret out, sendData buf script = some (ret, out) → Told buf ret out) ∧
    ¬ ∀ buf timeout startMs script ret out, sendDataTimeout buf timeout startMs script = some (ret, out) →
      Told buf ret out := by
  constructor
  · intro told
    have missing := told [1] [.sent 0] 1 [] (by decide)
    exact absurd (missing.1.mp (by decide)) (by decide)
  · intro told
    have done := told [1] 1000 0 [⟨.sent 1, .other, .failed, 2000⟩] (-2) [1] (by decide)
    exact absurd (done.1.mpr rfl) (by decide)

end Senders

end Conet.Base.NetToolSend
