/- Module: Conet/Core/TimewheelScan
   source: core/src/timewheel.cpp
   digest: What one turn of the slot scan of check does to the lists of the wheel. -/

import Conet.Core.Timewheel
import Mathlib.Data.Prod.Lex

set_option autoImplicit false
set_option relaxedAutoImplicit false

namespace Conet.Core.TimewheelScan

open Conet.Lib Conet.Base.ListHead Conet.Base.ListRings Conet.Core.Timewheel

universe u

variable {H : Type u} [DecidableEq H]

/-- The layout of a wheel: the lists `L` on its heads, and a power of two of slots. -/
structure Layout (w : Wheel H) (L : Head → List H) : Prop where
  rings : Rings w.links L
  queue : L .queue = []
  pow : ∃ e, w.slotNum = 2 ^ e
  mask : w.slotNumMask = w.slotNum - 1
  pos : w.pos < w.slotNum
  slots : ∀ i, w.slotNum ≤ i → L (.slot i) = []

omit [DecidableEq H] in
theorem Layout.and_mask {w : Wheel H} {L : Head → List H} (layout : Layout w L) (x : ℕ) :
    x &&& w.slotNumMask = x % w.slotNum := by
  obtain ⟨e, he⟩ := layout.pow
  rw [layout.mask, he, Nat.and_two_pow_sub_one_eq_mod]

omit [DecidableEq H] in
theorem Layout.slotNum_pos {w : Wheel H} {L : Head → List H} (layout : Layout w L) :
    0 < w.slotNum := by
  obtain ⟨e, he⟩ := layout.pow
  rw [he]
  exact Nat.two_pow_pos e

omit [DecidableEq H] in
/-- A reading of the clock plus a positive `int` fits. -/
theorem deadline_of_pos (clk : Clock) (w : Wheel H) {timeout : ℤ} (pos : 0 < timeout)
    (int : timeout < 2 ^ 31) :
    (deadline clk w timeout : ℤ) = max (w.prevMs : ℤ) (clk.read w.reads + timeout) := by
  have bound := clk.bound w.reads
  have eq : ((clk.read w.reads + timeout) % 2 ^ 64).toNat = (clk.read w.reads + timeout).toNat := by
    rw [Int.emod_eq_of_lt] <;> omega
  simp only [deadline, eq]
  split <;> omega

omit [DecidableEq H] in
/-- A reading of the clock plus a positive `int` is the deadline itself. -/
theorem deadline_eq (clk : Clock) (w : Wheel H) {timeout : ℤ} (pos : 0 < timeout)
    (int : timeout < 2 ^ 31) (prev : w.prevMs ≤ clk.read w.reads) :
    (deadline clk w timeout : ℤ) = clk.read w.reads + timeout := by
  rw [deadline_of_pos clk w pos int]
  omega

/-- The scan is in slot `pos`, has passed `passed` in it, and has `left` more slots to visit. -/
structure Walking (s : Scan H) (L : Head → List H) (passed rest : List H) (left : ℕ) : Prop where
  layout : Layout s.c.st.w L
  ring : OnRing L (.slot s.pos) s.c passed rest
  inside : s.pos < s.c.st.w.slotNum
  last : (s.pos + left) % s.c.st.w.slotNum = s.endPos

def dueIn (s : Scan H) (hs : List H) : ℕ := hs.countP fun h => timeAfterEq s.curMs (s.c.st.w.timeout h)

/-- The order in which the scan makes progress: slots left, due handles and entries of the slot. -/
abbrev Progress := ℕ ×ₗ ℕ ×ₗ ℕ

def progress (s : Scan H) (left : ℕ) (rest : List H) : Progress :=
  toLex (left, toLex (dueIn s rest, rest.length))

omit [DecidableEq H] in
theorem progress_slot (s s' : Scan H) (left : ℕ) (rest rest' : List H) :
    progress s left rest < progress s' (left + 1) rest' :=
  Prod.Lex.toLex_lt_toLex.mpr (.inl (Nat.lt_succ_self _))

omit [DecidableEq H] in
theorem progress_due {s s' : Scan H} (left : ℕ) {rest rest' : List H} (lt : dueIn s rest < dueIn s' rest') :
    progress s left rest < progress s' left rest' :=
  Prod.Lex.toLex_lt_toLex.mpr (.inr ⟨rfl, Prod.Lex.toLex_lt_toLex.mpr (.inl lt)⟩)

omit [DecidableEq H] in
theorem progress_skip {s s' : Scan H} (left : ℕ) {rest rest' : List H} (due : dueIn s rest = dueIn s' rest')
    (lt : rest.length < rest'.length) : progress s left rest < progress s' left rest' :=
  Prod.Lex.toLex_lt_toLex.mpr (.inr ⟨rfl, Prod.Lex.toLex_lt_toLex.mpr (.inr ⟨due, lt⟩)⟩)

/-- The callback run in this turn does not cancel the handle saved as `next`. -/
def Spares (cs : Callbacks H) (s : Scan H) : Prop :=
  ∀ h m, s.c.pos = .item h → s.c.n = .item m →
    timeAfterEq s.curMs (s.c.st.w.timeout h) = true → m ∉ cs s.c.st.w.log h

/-- The handle fired in this turn is not due again when it comes back to a slot with handles to visit. -/
def Ahead (clk : Clock) (s : Scan H) : Prop :=
  ∀ h m, s.c.pos = .item h → s.c.n = .item m →
    timeAfterEq s.curMs (s.c.st.w.timeout h) = true → s.c.st.w.interval h ≠ 0 →
    s.pos = deadline clk s.c.st.w (s.c.st.w.interval h) &&& s.c.st.w.slotNumMask →
    timeAfterEq s.curMs (deadline clk s.c.st.w (s.c.st.w.interval h)) = false

/-- The wheel after the entry of `check` has read the clock, if it had to. -/
def entered (w : Wheel H) (cur : ℕ) : Wheel H :=
  { w with reads := if cur = 0 then w.reads + 1 else w.reads }

def startScan (w : Wheel H) (curMs : ℕ) : Scan H :=
  ⟨forEachStart walkNext (.head (.slot w.pos)) ⟨w, 0⟩, w.pos, endPos w curMs, curMs⟩

/-- The scan after the loop's `t1 = next, next = next->next`. -/
def advance (s : Scan H) (st : Walk H) : Scan H :=
  { s with c := ⟨s.c.n, walkNext st s.c.n, st⟩ }

/-- The scan at the start of the following slot. -/
def nextSlot (s : Scan H) : Scan H :=
  { s with
    c := forEachStart walkNext (.head (.slot ((s.pos + 1) &&& s.c.st.w.slotNumMask))) s.c.st
    pos := (s.pos + 1) &&& s.c.st.w.slotNumMask }

/-- The wheel and the count after a due handle has been fired. -/
def fired (cs : Callbacks H) (clk : Clock) (st : Walk H) (h : H) : Walk H :=
  ⟨fire cs clk st.w h, st.cnt + 1⟩

section Turns

variable {clk : Clock} {cs : Callbacks H} {s : Scan H} {L : Head → List H}
  {passed rest post : List H} {left : ℕ} {h : H}

theorem check_enter (cs : Callbacks H) (clk : Clock) (w : Wheel H) (cur : ℕ) :
    check cs clk (.enter w cur) =
      if w.taskNum ≤ 0 then .leave ⟨(entered w cur).setNow (checkCurMs clk w cur), 0⟩
      else if timeDiff (checkCurMs clk w cur) w.prevMs ≤ 0 then .leave ⟨entered w cur, 0⟩
      else .again (.scan (startScan (entered w cur) (checkCurMs clk w cur))) := rfl

/-- The turns of the scan: leave the slot, fire a due handle, or pass over a later one. -/
theorem check_scan (cs : Callbacks H) (clk : Clock) (s : Scan H) :
    check cs clk (.scan s) =
      if s.c.pos = .head (.slot s.pos) then
        if s.pos = s.endPos then .leave ⟨s.c.st.w.setNow s.curMs, s.c.st.cnt⟩
        else .again (.scan (nextSlot s))
      else match s.c.pos with
        | .item t1 =>
          if timeAfterEq s.curMs (s.c.st.w.timeout t1) then
            .again (.scan (advance s (fired cs clk s.c.st t1)))
          else .again (.scan (advance s s.c.st))
        | _ => .undefined := by
  simp only [check, forEachSafe]
  by_cases hp : s.c.pos = .head (.slot s.pos)
  · simp only [hp, if_true, nextSlot]
  · simp only [hp, if_false]
    cases s.c.pos with
    | item t1 =>
      cases due : timeAfterEq s.curMs (s.c.st.w.timeout t1) <;>
        simp [checkBody, due, advance, fired]
    | head k => rfl
    | spare => rfl

theorem check_slot_done (pos : s.c.pos = .head (.slot s.pos)) :
    check cs clk (.scan s) =
      if s.pos = s.endPos then .leave ⟨s.c.st.w.setNow s.curMs, s.c.st.cnt⟩
      else .again (.scan (nextSlot s)) := by
  rw [check_scan, if_pos pos]

theorem check_skip (pos : s.c.pos = .item h)
    (late : timeAfterEq s.curMs (s.c.st.w.timeout h) = false) :
    check cs clk (.scan s) = .again (.scan (advance s s.c.st)) := by
  simp [check_scan, pos, late]

theorem check_fire (pos : s.c.pos = .item h)
    (due : timeAfterEq s.curMs (s.c.st.w.timeout h) = true) :
    check cs clk (.scan s) = .again (.scan (advance s (fired cs clk s.c.st h))) := by
  simp [check_scan, pos, due]

theorem check_scan_again {a : CheckAt H} (again : check cs clk (.scan s) = .again a) :
    ∃ s', a = .scan s' ∧ (s' = nextSlot s ∨ s' = advance s s.c.st ∨
      ∃ h, s.c.pos = .item h ∧ s' = advance s (fired cs clk s.c.st h)) := by
  rw [check_scan] at again
  split at again
  · split at again
    · cases again
    · cases again
      exact ⟨_, rfl, .inl rfl⟩
  · split at again
    · rename_i h pos
      split at again
      · cases again
        exact ⟨_, rfl, .inr (.inr ⟨h, pos, rfl⟩)⟩
      · cases again
        exact ⟨_, rfl, .inr (.inl rfl)⟩
    · cases again

omit [DecidableEq H] in
theorem checkCurMs_le {w : Wheel H} {cur : ℕ} (now : cur ≤ clk.read w.reads) :
    checkCurMs clk w cur ≤ clk.read (entered w cur).reads := by
  unfold checkCurMs entered
  split
  · exact clk.mono (Nat.le_succ _)
  · exact now

omit [DecidableEq H] in
theorem Layout.entered {w : Wheel H} (layout : Layout w L) (cur : ℕ) : Layout (entered w cur) L :=
  { layout with }

omit [DecidableEq H] in
theorem Walking.start {w : Wheel H} (layout : Layout w L) (curMs : ℕ) :
    ∃ left, Walking (startScan w curMs) L [] (L (.slot w.pos)) left := by
  have endLt : endPos w curMs < w.slotNum := by
    have lt := fun x => Nat.mod_lt x layout.slotNum_pos
    unfold endPos
    split <;> exact (layout.and_mask _).trans_lt (lt _)
  refine ⟨endPos w curMs + w.slotNum - w.pos, layout, OnRing.start walkNext layout.rings rfl _, layout.pos,
    ?_⟩
  have pos := layout.pos
  change (w.pos + _) % w.slotNum = endPos _ _
  rw [← Nat.add_sub_assoc (by omega), Nat.add_sub_cancel_left, Nat.add_mod_right, Nat.mod_eq_of_lt endLt]

omit [DecidableEq H] in
theorem Walking.nextSlot (walk : Walking s L passed [] left) (hp : s.pos ≠ s.endPos) :
    ∃ left', left = left' + 1 ∧ Walking (nextSlot s) L [] (L (.slot (nextSlot s).pos)) left' := by
  have layout := walk.layout
  have left_pos : left ≠ 0 := by
    rintro rfl
    exact hp ((Nat.mod_eq_of_lt walk.inside).symm.trans walk.last)
  obtain ⟨left', rfl⟩ := Nat.exists_eq_succ_of_ne_zero left_pos
  have pos : (TimewheelScan.nextSlot s).pos = (s.pos + 1) % s.c.st.w.slotNum :=
    layout.and_mask _
  refine ⟨left', rfl, layout, OnRing.start walkNext layout.rings rfl _, ?_, ?_⟩
  · rw [pos]
    exact Nat.mod_lt _ layout.slotNum_pos
  · have last := walk.last
    rw [pos]
    simp only [TimewheelScan.nextSlot, forEachStart, Nat.mod_add_mod]
    rwa [Nat.succ_eq_add_one, Nat.add_comm left', ← Nat.add_assoc] at last

omit [DecidableEq H] in
/-- A handle of a later turn of the wheel is passed over. -/
theorem Walking.skip (walk : Walking s L passed (h :: post) left) :
    Walking (advance s s.c.st) L (passed ++ [h]) post left :=
  { walk with
    ring := OnRing.step walkNext walk.layout.rings rfl (walk.ring.split.trans (by simp))
      (walk.ring.n rfl) }

omit [DecidableEq H] in
theorem progress_advance (left : ℕ) (late : timeAfterEq s.curMs (s.c.st.w.timeout h) = false) :
    progress (advance s s.c.st) left post < progress s left (h :: post) := by
  have same : dueIn s (h :: post) = dueIn s post := List.countP_cons_of_neg (by simp [late])
  exact progress_skip left same.symm (Nat.lt_succ_self _)

theorem mem_rearmed (clk : Clock) {w : Wheel H} (rings : Rings w.links L) {g : H} {k : Head} :
    g ∈ rearmed clk w L h k ↔ (g ∈ L k ∧ g ≠ h) ∨
      (g = h ∧ w.interval h ≠ 0 ∧
        k = .slot (deadline clk w (w.interval h) &&& w.slotNumMask)) := by
  have erase : ∀ k, g ∈ (L k).erase h ↔ g ∈ L k ∧ g ≠ h := by
    intro k
    rw [(rings.nodup k).mem_erase_iff, and_comm]
  unfold rearmed
  by_cases hi : w.interval h = 0
  · simp [hi, erase]
  · by_cases hk : k = .slot (deadline clk w (w.interval h) &&& w.slotNumMask)
    · subst hk
      simp [hi, moved, erase]
    · simp [hi, hk, moved, erase]

/-- The circle the scan is on after a handle of it has been fired, when the saved successor has
not been cancelled. -/
theorem rearmed_split (clk : Clock) {w : Wheel H} {k : Head} (rings : Rings w.links L)
    (split : L k = passed ++ h :: post) (hs : List H)
    (spared : ∀ m, follow k post = .item m → m ∉ hs) :
    ∃ passed' rest' extra, (rearmed clk w L h k).filter (· ∉ hs) = passed' ++ rest' ∧
      follow k rest' = follow k post ∧ (∀ g ∈ passed', g ∈ passed ∨ g = h) ∧
      rest'.Sublist (post ++ extra) ∧ ∀ g ∈ extra, g = h ∧ post ≠ [] ∧ w.interval h ≠ 0 ∧
        k = .slot (deadline clk w (w.interval h) &&& w.slotNumMask) := by
  have nodup := rings.nodup k
  rw [split] at nodup
  have hpre : h ∉ passed := fun hmem => by
    simp [List.nodup_append] at nodup
    exact (nodup.2.2 h hmem).1 rfl
  have erased : (L k).erase h = passed ++ post := by
    rw [split, List.erase_append_right _ hpre, List.erase_cons_head]
  obtain ⟨extra, lists, only⟩ : ∃ extra, rearmed clk w L h k = passed ++ post ++ extra ∧
      ∀ g ∈ extra, g = h ∧ w.interval h ≠ 0 ∧
        k = .slot (deadline clk w (w.interval h) &&& w.slotNumMask) := by
    unfold rearmed moved
    by_cases hi : w.interval h = 0
    · exact ⟨[], by simp [hi, erased], by simp⟩
    · by_cases hk : k = .slot (deadline clk w (w.interval h) &&& w.slotNumMask)
      · subst hk
        exact ⟨[h], by simp [hi, erased], by simp [hi]⟩
      · exact ⟨[], by simp [hi, hk, erased], by simp⟩
  cases post with
  | nil =>
    refine ⟨_, [], [], (List.append_nil _).symm, rfl, ?_, List.nil_sublist _, by simp⟩
    intro g hg
    have hg' := (List.mem_filter.mp hg).1
    rw [lists] at hg'
    rcases List.mem_append.mp hg' with hmem | hmem
    · exact .inl (by simpa using hmem)
    · exact .inr (only g hmem).1
  | cons x post =>
    have keep : x ∉ hs := spared x rfl
    refine ⟨passed.filter (· ∉ hs), (x :: post ++ extra).filter (· ∉ hs), extra, ?_, ?_, ?_,
      List.filter_sublist, fun g hg => ⟨(only g hg).1, by simp, (only g hg).2⟩⟩
    · rw [lists, List.append_assoc, List.filter_append]
    · simp [keep, follow]
    · intro g hg
      exact .inl (List.mem_filter.mp hg).1

theorem Layout.fire {w : Wheel H} (layout : Layout w L) (h : H) :
    Layout (fire cs clk w h) (fun k => (rearmed clk w L h k).filter (· ∉ cs w.log h)) := by
  have rings := fire_rings cs clk layout.rings h
  obtain ⟨links, taskNum, tw, eq⟩ := fire_fields cs clk w h
  have empty : ∀ k, L k = [] → k ≠ .slot (deadline clk w (w.interval h) &&& w.slotNumMask) →
      (rearmed clk w L h k).filter (· ∉ cs w.log h) = [] := by
    intro k nil hk
    refine List.eq_nil_iff_forall_not_mem.mpr fun g hg => ?_
    rcases (mem_rearmed clk layout.rings).mp (List.mem_filter.mp hg).1 with ⟨hmem, -⟩ | ⟨-, -, hk'⟩
    · simp [nil] at hmem
    · exact hk hk'
  refine ⟨rings, empty _ layout.queue (by simp), ?_, ?_, ?_, ?_⟩ <;> rw [eq]
  · exact layout.pow
  · exact layout.mask
  · exact layout.pos
  · intro i hi
    refine empty _ (layout.slots i hi) ?_
    rw [layout.and_mask]
    have lt := Nat.mod_lt (deadline clk w (w.interval h)) layout.slotNum_pos
    simpa using fun e : i = _ => absurd hi (by rw [e]; exact Nat.not_le.mpr lt)

theorem fire_timeout (cs : Callbacks H) (clk : Clock) (w : Wheel H) {g : H} (other : g ≠ h) :
    (fire cs clk w h).timeout g = w.timeout g := by
  obtain ⟨links, taskNum, tw, eq⟩ := fire_fields cs clk w h
  rw [eq]
  by_cases hi : w.interval h = 0 <;> simp [hi, other]

theorem fire_timeout_self (cs : Callbacks H) (clk : Clock) {w : Wheel H} (hi : w.interval h ≠ 0) :
    (fire cs clk w h).timeout h = deadline clk w (w.interval h) := by
  obtain ⟨links, taskNum, tw, eq⟩ := fire_fields cs clk w h
  simp [eq, hi]

/-- Firing a due handle whose callback spares the saved successor. -/
theorem Walking.fire (clk : Clock) (walk : Walking s L passed (h :: post) left)
    (due : timeAfterEq s.curMs (s.c.st.w.timeout h) = true) (spares : Spares cs s) :
    ∃ passed' rest', Walking (advance s (fired cs clk s.c.st h))
        (fun k => (rearmed clk s.c.st.w L h k).filter (· ∉ cs s.c.st.w.log h)) passed' rest' left ∧
      (∀ g ∈ passed', g ∈ passed ∨ g = h) ∧ (Ahead clk s →
        progress (advance s (fired cs clk s.c.st h)) left rest' < progress s left (h :: post)) := by
  have rings := walk.layout.rings
  obtain ⟨links, taskNum, tw, eq⟩ := fire_fields cs clk s.c.st.w h
  obtain ⟨passed', rest', extra, split, follows, kept, sub, only⟩ := rearmed_split clk rings
    walk.ring.split (cs s.c.st.w.log h)
    (fun m hm => spares h m walk.ring.pos (walk.ring.n rfl ▸ hm) due)
  refine ⟨passed', rest', ⟨walk.layout.fire h, ?_, ?_, ?_⟩, kept, fun ahead => progress_due left ?_⟩
  · exact OnRing.step walkNext (fire_rings cs clk rings h) rfl split
      (by rw [walk.ring.n rfl]; exact follows.symm)
  · simpa [advance, fired, eq] using walk.inside
  · simpa [advance, fired, eq] using walk.last
  · -- the handles to come keep their deadlines, and the fired one is not among the due ones
    have fresh : h ∉ post := by
      have nodup := rings.nodup (.slot s.pos)
      rw [walk.ring.split, List.nodup_append] at nodup
      exact (List.nodup_cons.mp nodup.2.1).1
    have others : dueIn (advance s (fired cs clk s.c.st h)) post = dueIn s post := by
      refine List.countP_congr fun g hg => ?_
      have other : g ≠ h := fun e => fresh (e ▸ hg)
      change timeAfterEq s.curMs ((Timewheel.fire cs clk s.c.st.w h).timeout g) = true ↔ _
      rw [fire_timeout cs clk s.c.st.w other]
    have none : dueIn (advance s (fired cs clk s.c.st h)) extra = 0 := by
      refine List.countP_eq_zero.mpr fun g hg => ?_
      obtain ⟨rfl, some, hi, here⟩ := only g hg
      obtain ⟨m, post', rfl⟩ := List.exists_cons_of_ne_nil some
      have late := ahead g m walk.ring.pos (walk.ring.n rfl) due hi (Head.slot.inj here)
      change ¬ timeAfterEq s.curMs ((Timewheel.fire cs clk s.c.st.w g).timeout g) = true
      rw [fire_timeout_self cs clk hi, late]
      decide
    calc dueIn (advance s (fired cs clk s.c.st h)) rest'
        ≤ dueIn (advance s (fired cs clk s.c.st h)) (post ++ extra) := sub.countP_le
      _ = dueIn s post := by rw [dueIn, List.countP_append, ← dueIn, ← dueIn, others, none, Nat.add_zero]
      _ < dueIn s (h :: post) := by
        rw [dueIn, dueIn, List.countP_cons_of_pos (by simp [due])]
        exact Nat.lt_succ_self _

end Turns

section Now

variable {clk : Clock} {cs : Callbacks H} {w : Wheel H} {L : Head → List H} {h : H}
  {post : List H}

/-- The lists of the wheel when `do_now_task` enters its loop. -/
def swapped (L : Head → List H) : Head → List H :=
  Function.update (Function.update L .queue (L .nowList)) .nowList (L .queue)

end Now

end Conet.Core.TimewheelScan
