/- Module: Conet/Core/TimewheelInv
   source: core/src/timewheel.cpp
   digest: The representation invariant of the wheel, and a check with callbacks that leave it alone. -/

import Conet.Core.TimewheelScan
import Mathlib.Data.Nat.ModEq

set_option autoImplicit false
set_option relaxedAutoImplicit false

namespace Conet.Core.TimewheelInv

open Conet.Lib Conet.Base.ListHead Conet.Base.ListRings Conet.Core.Timewheel
  Conet.Core.TimewheelScan

universe u

variable {H : Type u} [DecidableEq H]

/-- What holds of a handle that hangs in slot `i`. -/
structure Placed (w : Wheel H) (i : ℕ) (h : H) : Prop where
  home : i = w.timeout h &&& w.slotNumMask
  later : w.prevMs ≤ w.timeout h
  pos : 0 < w.timeout h
  fits : w.timeout h < 2 ^ 64
  tw : w.tw h = true

/-- The representation invariant: `A` are the handles that hang in slots. -/
structure Rep (w : Wheel H) (L : Head → List H) (A : List H) : Prop extends Layout w L where
  prev : w.prevMs < 2 ^ 64
  ints : ∀ h, w.interval h < 2 ^ 31
  home : w.pos = w.prevMs &&& w.slotNumMask
  task : w.taskNum = A.length
  nodup : A.Nodup
  armed : ∀ h, h ∈ A ↔ ∃ i, h ∈ L (.slot i)
  placed : ∀ i h, h ∈ L (.slot i) → Placed w i h
  now : ∀ h ∈ L .nowList, w.interval h = 0

/-- The wheel is not ahead of the clock, and its handles fire in the future. -/
structure Inv (clk : Clock) (w : Wheel H) (L : Head → List H) (A : List H) : Prop
    extends Rep w L A where
  clock : w.prevMs ≤ clk.read w.reads
  soon : ∀ i h, h ∈ L (.slot i) → w.timeout h < 2 ^ 63
  steady : ∀ i h, h ∈ L (.slot i) → 0 ≤ w.interval h

/-- Every residue of a time between `prev` and `cur` is met on the way from the slot of `prev` to
the last slot of the scan. -/
theorem covered {n prev cur t a : ℕ} (hn : 0 < n) (from_prev : prev ≤ t) (to_cur : t ≤ cur)
    (last : (prev % n + a) % n = if n ≤ cur - prev then (prev % n + n - 1) % n else cur % n) :
    ∃ b ≤ a, t % n = (prev % n + b) % n := by
  -- the scan goes `e` slots, less than a whole turn
  obtain ⟨e, he, reach, last⟩ : ∃ e < n, (t - prev) % n ≤ e ∧ (prev + a) % n = (prev + e) % n := by
    rw [Nat.mod_add_mod] at last
    split_ifs at last with turn
    · refine ⟨n - 1, by omega, Nat.le_pred_of_lt (Nat.mod_lt _ hn), ?_⟩
      rw [last, Nat.add_sub_assoc hn, Nat.mod_add_mod]
    · refine ⟨cur - prev, by omega, (Nat.mod_le _ _).trans (by omega), ?_⟩
      rw [last]
      congr 1
      omega
  have same : a % n = e := by
    have cancel : a ≡ e [MOD n] := Nat.ModEq.add_left_cancel' prev last
    rwa [Nat.ModEq, Nat.mod_eq_of_lt he] at cancel
  refine ⟨(t - prev) % n, reach.trans (same ▸ Nat.mod_le a n), ?_⟩
  rw [Nat.mod_add_mod, Nat.add_mod_mod]
  congr 1
  omega

section Ops

variable {clk : Clock} {w : Wheel H} {L : Head → List H} {A : List H} {h : H}

omit [DecidableEq H] in
theorem rep_init (clk : Clock) (n : ℕ) : Rep (Wheel.init (H := H) clk n) (fun _ => []) [] where
  rings := ⟨fun _ => Circular.nil_iff.mpr ⟨rfl, rfl⟩, fun _ _ => Circular.nil_iff.mpr ⟨rfl, rfl⟩⟩
  queue := rfl
  pow := ⟨_, rfl⟩
  mask := rfl
  pos := by
    simp only [Wheel.init, Nat.and_two_pow_sub_one_eq_mod]
    exact Nat.mod_lt _ (Nat.two_pow_pos _)
  prev := by
    have bound := clk.bound 0
    simp only [Wheel.init]
    omega
  slots := fun _ _ => rfl
  ints := fun _ => by simp [Wheel.init]
  home := rfl
  task := rfl
  nodup := List.nodup_nil
  armed := by simp
  placed := by simp
  now := by simp

omit [DecidableEq H] in
theorem inv_init (clk : Clock) (n : ℕ) : Inv clk (Wheel.init (H := H) clk n) (fun _ => []) [] where
  toRep := rep_init clk n
  clock := clk.mono (Nat.zero_le 1)
  soon := by simp
  steady := by simp

omit [DecidableEq H] in
theorem Rep.log (rep : Rep w L A) (log : List (Event H)) : Rep { w with log := log } L A :=
  { rep with placed := fun i h on => { rep.placed i h on with } }

omit [DecidableEq H] in
theorem Inv.log (inv : Inv clk w L A) (log : List (Event H)) : Inv clk { w with log := log } L A :=
  { inv with toRep := inv.toRep.log log }

/-- `cancel_timeout` gives up the count of a handle exactly when it takes it out of a slot. -/
theorem Rep.cancel_task (rep : Rep w L A) (fresh : h ∈ L .nowList → w.timeout h = 0) :
    (cancelTimeout w h).taskNum = (A.erase h).length := by
  have empty := rep.rings.empty_iff h
  by_cases hA : h ∈ A
  · obtain ⟨i, hi⟩ := (rep.armed h).mp hA
    have slot := rep.placed i h hi
    have linked : listEmpty w.links (.item h) = false := by
      rw [Bool.eq_false_iff, ne_eq, empty]
      exact fun free => free _ hi
    have length : (A.erase h).length + 1 = A.length := List.length_erase_add_one hA
    have task : (cancelTimeout w h).taskNum = w.taskNum - 1 := by
      simp [cancelTimeout, linked, slot.tw, slot.pos]
    rw [task, rep.task]
    omega
  · rw [List.erase_of_not_mem hA, ← rep.task]
    refine if_neg ?_
    rintro ⟨linked, -, pos⟩
    refine hA ?_
    have some : ∃ k, h ∈ L k := by
      by_contra none
      simp [empty.mpr (not_exists.mp none)] at linked
    obtain ⟨k, hk⟩ := some
    cases k with
    | slot i => exact (rep.armed h).mpr ⟨i, hk⟩
    | nowList => exact absurd (fresh hk) (Nat.pos_iff_ne_zero.mp pos)
    | queue => simp [rep.queue] at hk

/-- `cancel_timeout` keeps the invariant unless it takes a handle off the now list that was armed
with a delay before. -/
theorem Rep.cancel (rep : Rep w L A) (fresh : h ∈ L .nowList → w.timeout h = 0) :
    Rep (cancelTimeout w h) (fun k => (L k).erase h) (A.erase h) := by
  have rings := rep.rings
  have mem : ∀ {g k}, g ∈ (L k).erase h ↔ g ≠ h ∧ g ∈ L k := (rings.nodup _).mem_erase_iff
  exact {
    rings := cancelTimeout_rings rings h
    queue := by simp [rep.queue]
    pow := rep.pow
    mask := rep.mask
    pos := rep.pos
    prev := rep.prev
    slots := fun i hi => by simp [rep.slots i hi]
    ints := rep.ints
    home := rep.home
    task := rep.cancel_task fresh
    nodup := rep.nodup.erase h
    armed := by
      intro g
      rw [rep.nodup.mem_erase_iff, rep.armed]
      simp [mem]
    placed := by
      intro i g hg
      obtain ⟨hne, hg⟩ := mem.mp hg
      exact { rep.placed i g hg with
        tw := by simpa [cancelTimeout, hne] using (rep.placed i g hg).tw }
    now := fun g hg => rep.now g (mem.mp hg).2 }

theorem Inv.cancel (inv : Inv clk w L A) (fresh : h ∈ L .nowList → w.timeout h = 0) :
    Inv clk (cancelTimeout w h) (fun k => (L k).erase h) (A.erase h) where
  toRep := inv.toRep.cancel fresh
  clock := inv.clock
  soon := fun i g hg => inv.soon i g (List.mem_of_mem_erase hg)
  steady := fun i g hg => inv.steady i g (List.mem_of_mem_erase hg)

theorem mem_moved (free : ∀ k, h ∉ L k) {g : H} {k k' : Head} :
    g ∈ moved L h k k' ↔ g ∈ L k' ∨ g = h ∧ k' = k := by
  unfold moved
  by_cases hk : k' = k
  · subst hk
    simp [List.erase_of_not_mem (free k')]
  · simp [hk, List.erase_of_not_mem (free k')]

theorem setTimeoutImpl_slot (clk : Clock) (w : Wheel H) (h : H) {timeout interval : ℤ}
    (delayed : ¬ (timeout ≤ 0 ∧ interval = 0)) : setTimeoutImpl clk w h timeout interval =
      { w with
        links := listAddTail (listDelInit w.links (.item h)) (.item h)
          (.head (.slot (deadline clk w timeout &&& w.slotNumMask)))
        interval := Function.update w.interval h interval
        tw := Function.update w.tw h true
        timeout := Function.update w.timeout h (deadline clk w timeout)
        taskNum := w.taskNum + 1
        reads := w.reads + 1 } := by
  unfold setTimeoutImpl
  rw [if_neg delayed]
  rfl

omit [DecidableEq H] in
theorem prev_le_deadline (clk : Clock) (w : Wheel H) (timeout : ℤ) :
    w.prevMs ≤ deadline clk w timeout := by
  simp only [deadline]
  split <;> omega

omit [DecidableEq H] in
theorem deadline_lt (clk : Clock) {w : Wheel H} (prev : w.prevMs < 2 ^ 64) (timeout : ℤ) :
    deadline clk w timeout < 2 ^ 64 := by
  simp only [deadline]
  split <;> omega

/-- Arming a handle that hangs on nothing, with a deadline. -/
theorem Rep.arm (rep : Rep w L A) (free : ∀ k, h ∉ L k) {timeout interval : ℤ}
    (delayed : ¬ (timeout ≤ 0 ∧ interval = 0)) (pos : 0 < deadline clk w timeout)
    (int : interval < 2 ^ 31) :
    Rep (setTimeoutImpl clk w h timeout interval)
      (moved L h (.slot (deadline clk w timeout &&& w.slotNumMask))) (A ++ [h]) := by
  have other : ∀ {g k}, g ∈ L k → g ≠ h := fun hg e => free _ (e ▸ hg)
  have lt := Nat.mod_lt (deadline clk w timeout) rep.slotNum_pos
  rw [← rep.and_mask] at lt
  have linked := setTimeoutImpl_rings clk rep.rings h timeout interval
  rw [target, if_neg delayed] at linked
  rw [setTimeoutImpl_slot clk w h delayed] at linked ⊢
  exact {
    rings := linked
    queue := by simp [moved, rep.queue]
    pow := rep.pow
    mask := rep.mask
    pos := rep.pos
    prev := rep.prev
    slots := by
      intro i hi
      refine List.eq_nil_iff_forall_not_mem.mpr fun g hg => ?_
      rcases (mem_moved free).mp hg with hg | ⟨-, hk⟩
      · simp [rep.slots i hi] at hg
      · cases hk
        exact absurd hi (Nat.not_le.mpr lt)
    ints := by
      intro g
      by_cases hg : g = h
      · simpa [hg] using int
      · simpa [hg] using rep.ints g
    home := rep.home
    task := by simp [rep.task]
    nodup := by
      have notMem : h ∉ A := fun hA => by
        obtain ⟨i, hi⟩ := (rep.armed h).mp hA
        exact free _ hi
      exact List.nodup_append.mpr ⟨rep.nodup, by simp, by
        rintro a ha b hb rfl
        exact notMem (List.mem_singleton.mp hb ▸ ha)⟩
    armed := by
      intro g
      simp only [List.mem_append, rep.armed, List.mem_singleton, mem_moved free, Head.slot.injEq]
      constructor
      · rintro (⟨i, hi⟩ | rfl)
        · exact ⟨i, .inl hi⟩
        · exact ⟨_, .inr ⟨rfl, rfl⟩⟩
      · rintro ⟨i, hi | ⟨rfl, -⟩⟩
        · exact .inl ⟨i, hi⟩
        · exact .inr rfl
    placed := by
      intro i g hg
      rcases (mem_moved free).mp hg with hg | ⟨rfl, hk⟩
      · obtain ⟨home, later, pos, fits, tw⟩ := rep.placed i g hg
        have hne := other hg
        exact ⟨by simpa [hne] using home, by simpa [hne] using later, by simpa [hne] using pos,
          by simpa [hne] using fits, by simpa [hne] using tw⟩
      · cases hk
        exact ⟨by simp, by simpa using prev_le_deadline clk w timeout, by simpa using pos,
          by simpa using deadline_lt clk rep.prev timeout, by simp⟩
    now := by
      intro g hg
      rcases (mem_moved free).mp hg with hg | ⟨-, hk⟩
      · simpa [other hg] using rep.now g hg
      · cases hk }

/-- Arming a handle that hangs on nothing, with a positive delay. -/
theorem Inv.arm (inv : Inv clk w L A) (free : ∀ k, h ∉ L k) {timeout interval : ℤ}
    (pos : 0 < timeout) (int : timeout < 2 ^ 31) (nonneg : 0 ≤ interval)
    (int' : interval < 2 ^ 31) :
    Inv clk (setTimeoutImpl clk w h timeout interval)
      (moved L h (.slot (deadline clk w timeout &&& w.slotNumMask))) (A ++ [h]) := by
  have at_deadline := deadline_eq clk w pos int inv.clock
  have bound := clk.bound w.reads
  have delayed : ¬ (timeout ≤ 0 ∧ interval = 0) := fun e => absurd e.1 (not_le.mpr pos)
  have rep := inv.toRep.arm free delayed (show 0 < deadline clk w timeout by omega) int'
  have other : ∀ {g k}, g ∈ L k → g ≠ h := fun hg e => free _ (e ▸ hg)
  rw [setTimeoutImpl_slot clk w h delayed] at rep ⊢
  refine ⟨rep, inv.clock.trans (clk.mono (Nat.le_succ _)), fun i g hg => ?_, fun i g hg => ?_⟩
  · rcases (mem_moved free).mp hg with hg | ⟨rfl, -⟩
    · simpa [other hg] using inv.soon i g hg
    · simp only [Function.update_self]
      omega
  · rcases (mem_moved free).mp hg with hg | ⟨rfl, -⟩
    · simpa [other hg] using inv.steady i g hg
    · simpa using nonneg

/-- The re-arming of a due handle in `check` keeps the invariant. -/
theorem Rep.rearm (rep : Rep w L A) {i : ℕ} (on : h ∈ L (.slot i))
    (pos : w.interval h ≠ 0 → 0 < deadline clk w (w.interval h)) :
    ∃ A', Rep (rearm clk w h) (rearmed clk w L h) A' := by
  have offNow : h ∉ L .nowList := rep.rings.notMem_of_ne on (by simp)
  have off := rep.cancel fun hnow => absurd hnow offNow
  unfold Timewheel.rearm rearmed
  by_cases hi : w.interval h = 0
  · rw [if_neg (by simpa [cancelTimeout] using hi), if_pos hi]
    exact ⟨_, off⟩
  · have free : ∀ k, h ∉ (L k).erase h := fun k => (rep.rings.nodup k).not_mem_erase
    have again := off.arm free (fun e : w.interval h ≤ 0 ∧ _ => hi e.2) (pos hi) (rep.ints h)
    rw [if_pos (by simpa [cancelTimeout] using hi), if_neg hi]
    rw [moved_erase rep.rings h] at again
    exact ⟨_, again⟩

theorem Inv.rearm (inv : Inv clk w L A) {i : ℕ} (on : h ∈ L (.slot i)) :
    ∃ A', Inv clk (rearm clk w h) (rearmed clk w L h) A' := by
  have offNow : h ∉ L .nowList := inv.rings.notMem_of_ne on (by simp)
  have off := inv.cancel fun hnow => absurd hnow offNow
  unfold Timewheel.rearm rearmed
  by_cases hi : w.interval h = 0
  · rw [if_neg (by simpa [cancelTimeout] using hi), if_pos hi]
    exact ⟨_, off⟩
  · have pos : 0 < w.interval h := by
      have nonneg := inv.steady i h on
      omega
    have free : ∀ k, h ∉ (L k).erase h := fun k => (inv.rings.nodup k).not_mem_erase
    have again := off.arm free pos (inv.ints h) pos.le (inv.ints h)
    rw [if_pos (by simpa [cancelTimeout] using hi), if_neg hi]
    rw [moved_erase inv.rings h] at again
    exact ⟨_, again⟩

theorem Rep.fire (rep : Rep w L A) {i : ℕ} (on : h ∈ L (.slot i))
    (pos : w.interval h ≠ 0 → 0 < deadline clk w (w.interval h)) :
    ∃ A', Rep (fire .none clk w h) (rearmed clk w L h) A' := by
  obtain ⟨A', rep'⟩ := rep.rearm on pos
  exact ⟨A', rep'.log _⟩

theorem Inv.fire (inv : Inv clk w L A) {i : ℕ} (on : h ∈ L (.slot i)) :
    ∃ A', Inv clk (fire .none clk w h) (rearmed clk w L h) A' := by
  obtain ⟨A', inv'⟩ := inv.rearm on
  exact ⟨A', inv'.log _⟩

end Ops

section Sweep

variable {clk : Clock} {late : ℕ → Prop} {w w₀ : Wheel H} {L L₀ : Head → List H}
  {passed rest post : List H} {h : H} {cur left a : ℕ} {s : Scan H}

/-- The scan of a check on `w₀` has passed `a` slots, and left in them only handles that are late. -/
structure Swept (late : ℕ → Prop) (w₀ : Wheel H) (cur : ℕ) (s : Scan H) (L : Head → List H)
    (passed rest : List H) (left a : ℕ) : Prop extends Walking s L passed rest left where
  curMs : s.curMs = cur
  endPos : s.endPos = endPos w₀ cur
  slot : s.pos = (w₀.pos + a) % w₀.slotNum
  slotNum : s.c.st.w.slotNum = w₀.slotNum
  prevMs : s.c.st.w.prevMs = w₀.prevMs
  behind : ∀ g ∈ passed, late (s.c.st.w.timeout g)
  swept : ∀ b < a, ∀ g ∈ L (.slot ((w₀.pos + b) % w₀.slotNum)), late (s.c.st.w.timeout g)

omit [DecidableEq H] in
theorem Swept.start (layout : Layout w L) (late : ℕ → Prop) (cur : ℕ) :
    ∃ left, Swept late w cur (startScan w cur) L [] (L (.slot w.pos)) left 0 := by
  obtain ⟨left, walk⟩ := Walking.start layout cur
  exact ⟨left, walk, rfl, rfl, (Nat.mod_eq_of_lt layout.pos).symm, rfl, rfl, by simp, by simp⟩

omit [DecidableEq H] in
theorem Swept.nextSlot (swept : Swept late w₀ cur s L passed [] left a) (hp : s.pos ≠ s.endPos) :
    ∃ left', left = left' + 1 ∧
      Swept late w₀ cur (nextSlot s) L [] (L (.slot (nextSlot s).pos)) left' (a + 1) := by
  obtain ⟨left', rfl, walk⟩ := swept.toWalking.nextSlot hp
  refine ⟨left', rfl, walk, swept.curMs, swept.endPos, ?_, swept.slotNum, swept.prevMs, by simp, ?_⟩
  · change (s.pos + 1) &&& s.c.st.w.slotNumMask = _
    rw [swept.layout.and_mask, swept.slot, swept.slotNum, Nat.mod_add_mod, Nat.add_assoc]
  · intro b hb g hg
    rcases Nat.lt_succ_iff_lt_or_eq.mp hb with hb | rfl
    · exact swept.swept b hb g hg
    · rw [← swept.slot] at hg
      exact swept.behind g (by simpa [swept.ring.split] using hg)

omit [DecidableEq H] in
theorem Swept.skip (swept : Swept late w₀ cur s L passed (h :: post) left a)
    (is_late : late (s.c.st.w.timeout h)) :
    Swept late w₀ cur (advance s s.c.st) L (passed ++ [h]) post left a :=
  { swept with
    toWalking := swept.toWalking.skip
    behind := by
      intro g hg
      rcases List.mem_append.mp hg with hg | hg
      · exact swept.behind g hg
      · obtain rfl := List.mem_singleton.mp hg
        exact is_late }

/-- A due handle is fired; if it has an interval, its next deadline is late. -/
theorem Swept.fire (clk : Clock) (swept : Swept late w₀ cur s L passed (h :: post) left a)
    (due : timeAfterEq s.curMs (s.c.st.w.timeout h) = true)
    (again : s.c.st.w.interval h ≠ 0 → late (deadline clk s.c.st.w (s.c.st.w.interval h))) :
    ∃ passed' rest', Swept late w₀ cur (advance s (TimewheelScan.fired .none clk s.c.st h))
        (rearmed clk s.c.st.w L h) passed' rest' left a ∧ (Ahead clk s →
      progress (advance s (TimewheelScan.fired .none clk s.c.st h)) left rest' <
        progress s left (h :: post)) := by
  have rings := swept.layout.rings
  have spares : Spares Callbacks.none s := by simp [Spares, Callbacks.none]
  have all : (fun k => (rearmed clk s.c.st.w L h k).filter (· ∉ Callbacks.none s.c.st.w.log h)) =
      rearmed clk s.c.st.w L h := by
    funext k
    simp [Callbacks.none]
  obtain ⟨passed', rest', walk, kept, less⟩ := swept.toWalking.fire clk due spares
  rw [all] at walk
  obtain ⟨links, taskNum, tw, eq⟩ := fire_fields Callbacks.none clk s.c.st.w h
  -- the fired handle is late wherever it hangs now, the others keep their deadlines
  have stays : ∀ {g k}, g ∈ rearmed clk s.c.st.w L h k → (g ≠ h → late (s.c.st.w.timeout g)) →
      late ((Timewheel.fire Callbacks.none clk s.c.st.w h).timeout g) := by
    intro g k hg was
    rcases (mem_rearmed clk rings).mp hg with ⟨-, other⟩ | ⟨rfl, hi, -⟩
    · rw [fire_timeout _ clk s.c.st.w other]
      exact was other
    · rw [fire_timeout_self _ clk hi]
      exact again hi
  refine ⟨passed', rest', ⟨walk, swept.curMs, swept.endPos, swept.slot, ?_, ?_, ?_, ?_⟩, less⟩
  · simp [advance, TimewheelScan.fired, eq, swept.slotNum]
  · simp [advance, TimewheelScan.fired, eq, swept.prevMs]
  · intro g hg
    refine stays (k := .slot s.pos) ?_ fun other => swept.behind g ((kept g hg).resolve_right other)
    have on : g ∈ passed' ++ rest' := List.mem_append_left _ hg
    rwa [← walk.ring.split] at on
  · intro b hb g hg
    refine stays hg fun other => swept.swept b hb g ?_
    rcases (mem_rearmed clk rings).mp hg with ⟨hg, -⟩ | ⟨e, -⟩
    · exact hg
    · exact absurd e other

omit [DecidableEq H] in
/-- When the scan stops no slot is left in which a handle of the elapsed time may hang. -/
theorem Swept.clean (swept : Swept late w₀ cur s L passed [] left a) (layout₀ : Layout w₀ L₀)
    (home₀ : w₀.pos = w₀.prevMs &&& w₀.slotNumMask) (diff : timeDiff cur w₀.prevMs = cur - w₀.prevMs)
    (hp : s.pos = s.endPos) {i : ℕ} (on : h ∈ L (.slot i))
    (home : i = s.c.st.w.timeout h &&& s.c.st.w.slotNumMask) (from_prev : w₀.prevMs ≤ s.c.st.w.timeout h)
    (to_cur : s.c.st.w.timeout h ≤ cur) : late (s.c.st.w.timeout h) := by
  have last : (w₀.prevMs % w₀.slotNum + a) % w₀.slotNum =
      if w₀.slotNum ≤ cur - w₀.prevMs then (w₀.prevMs % w₀.slotNum + w₀.slotNum - 1) % w₀.slotNum
      else cur % w₀.slotNum := by
    rw [layout₀.and_mask] at home₀
    rw [← home₀, ← swept.slot, hp, swept.endPos, Timewheel.endPos, diff, layout₀.and_mask,
      layout₀.and_mask]
    refine if_congr ?_ rfl rfl
    omega
  obtain ⟨b, hb, residue⟩ := covered layout₀.slotNum_pos from_prev to_cur last
  have i_eq : i = (w₀.pos + b) % w₀.slotNum := by
    rw [home, swept.layout.and_mask, swept.slotNum, residue, home₀, layout₀.and_mask]
  rcases Nat.lt_or_eq_of_le hb with hb | rfl
  · exact swept.swept b hb h (i_eq ▸ on)
  · rw [i_eq, ← swept.slot, swept.ring.split, List.append_nil] at on
    exact swept.behind h on

end Sweep

section Check

variable {clk : Clock} {w w₀ : Wheel H} {L L₀ : Head → List H} {A F : List H} {h : H} {cur : ℕ}

/-- What a check has done so far to the handles of the wheel `w₀` it started on: `F` are the
handles it has fired, in order. -/
structure Fired (clk : Clock) (w₀ : Wheel H) (L₀ : Head → List H) (cur : ℕ) (w : Wheel H)
    (L : Head → List H) (F : List H) : Prop where
  log : w.log = w₀.log ++ F.map .called
  nodup : F.Nodup
  interval : w.interval = w₀.interval
  mask : w.slotNumMask = w₀.slotNumMask
  reads : w₀.reads ≤ w.reads
  now : L .nowList = L₀ .nowList
  due : ∀ h ∈ F, (∃ i, h ∈ L₀ (.slot i)) ∧ w₀.timeout h ≤ cur
  others : ∀ h ∉ F, w.timeout h = w₀.timeout h ∧ ∀ k, h ∈ L k ↔ h ∈ L₀ k
  oneShot : ∀ h ∈ F, w₀.interval h = 0 → ∀ k, h ∉ L k
  repeated : ∀ h ∈ F, w₀.interval h ≠ 0 → (∃ i, h ∈ L (.slot i)) ∧
    ∃ k, w₀.reads ≤ k ∧ (w.timeout h : ℤ) = clk.read k + w₀.interval h

omit [DecidableEq H] in
theorem Fired.start (w : Wheel H) (L : Head → List H) : Fired clk w L cur w L [] where
  log := by simp
  nodup := List.nodup_nil
  interval := rfl
  mask := rfl
  reads := le_rfl
  now := rfl
  due := by simp
  others := by simp
  oneShot := by simp
  repeated := by simp

omit [DecidableEq H] in
/-- A handle that has been fired and hangs in a slot again is not due. -/
theorem Fired.late (fired : Fired clk w₀ L₀ cur w L F) (inv : Inv clk w L A)
    (now : cur ≤ clk.read w₀.reads) (hF : h ∈ F) {i : ℕ} (on : h ∈ L (.slot i)) :
    cur < w.timeout h := by
  have hi : w₀.interval h ≠ 0 := fun e => fired.oneShot h hF e _ on
  obtain ⟨-, k, hk, at_deadline⟩ := fired.repeated h hF hi
  have mono := clk.mono hk
  have nonneg := inv.steady i h on
  rw [fired.interval] at nonneg
  omega

theorem Fired.fire (fired : Fired clk w₀ L₀ cur w L F) (inv : Inv clk w L A)
    (now : cur ≤ clk.read w₀.reads) {i : ℕ} (on : h ∈ L (.slot i)) (due : w.timeout h ≤ cur) :
    Fired clk w₀ L₀ cur (fire .none clk w h) (rearmed clk w L h) (F ++ [h]) := by
  obtain ⟨links, taskNum, tw, eq⟩ := fire_fields Callbacks.none clk w h
  have hF : h ∉ F := fun hF => absurd (fired.late inv now hF on) (not_lt.mpr due)
  obtain ⟨timeout, lists⟩ := fired.others h hF
  have mem : ∀ {g k}, g ∈ rearmed clk w L h k ↔ _ := mem_rearmed clk inv.rings
  have offNow : h ∉ L .nowList := inv.rings.notMem_of_ne on (by simp)
  rw [eq]
  exact {
    log := by simp [fired.log, Callbacks.none]
    nodup := by
      refine List.nodup_append.mpr ⟨fired.nodup, by simp, ?_⟩
      rintro a ha b hb rfl
      exact hF (List.mem_singleton.mp hb ▸ ha)
    interval := fired.interval
    mask := fired.mask
    reads := by
      have reads := fired.reads
      simp only
      split <;> omega
    now := by
      unfold rearmed
      split
      · exact (List.erase_of_not_mem offNow).trans fired.now
      · simpa [moved, List.erase_of_not_mem offNow] using fired.now
    due := by
      intro g hg
      rcases List.mem_append.mp hg with hg | hg
      · exact fired.due g hg
      · obtain rfl := List.mem_singleton.mp hg
        exact ⟨⟨i, (lists _).mp on⟩, timeout ▸ due⟩
    others := by
      intro g hg
      obtain ⟨hgF, hgh⟩ : g ∉ F ∧ g ≠ h := by simpa [not_or] using hg
      obtain ⟨timeout, lists⟩ := fired.others g hgF
      refine ⟨?_, fun k => ?_⟩
      · by_cases hi : w.interval h = 0 <;> simpa [hi, hgh] using timeout
      · simpa [mem, hgh] using lists k
    oneShot := by
      intro g hg hi k hmem
      rcases mem.mp hmem with ⟨hmem, hgh⟩ | ⟨rfl, hi', -⟩
      · have hgF : g ∈ F := by simpa [hgh] using hg
        exact fired.oneShot g hgF hi k hmem
      · exact hi' (fired.interval ▸ hi)
    repeated := by
      intro g hg hi
      by_cases hgh : g = h
      · subst hgh
        have hi' : w.interval g ≠ 0 := fired.interval ▸ hi
        refine ⟨⟨_, mem.mpr (.inr ⟨rfl, hi', rfl⟩)⟩, w.reads, fired.reads, ?_⟩
        have pos : 0 < w.interval g := by
          have nonneg := inv.steady i g on
          omega
        simp only [hi', if_false, Function.update_self]
        rw [deadline_eq clk w pos (inv.ints g) inv.clock, fired.interval]
      · have hgF : g ∈ F := by simpa [hgh] using hg
        obtain ⟨⟨j, hj⟩, k, hk, at_deadline⟩ := fired.repeated g hgF hi
        refine ⟨⟨j, mem.mpr (.inl ⟨hj, hgh⟩)⟩, k, hk, ?_⟩
        by_cases hi' : w.interval h = 0 <;> simpa [hi', hgh] using at_deadline }

/-- The scan of a check on `w₀` has passed `a` slots, and fired the due handles in them. -/
structure Sweeping (clk : Clock) (w₀ : Wheel H) (L₀ : Head → List H) (cur : ℕ) (s : Scan H)
    (L : Head → List H) (passed rest : List H) (left : ℕ) (A F : List H) (a : ℕ) : Prop
    extends Swept (cur < ·) w₀ cur s L passed rest left a where
  inv : Inv clk s.c.st.w L A
  fired : Fired clk w₀ L₀ cur s.c.st.w L F
  cnt : s.c.st.cnt = F.length

variable {s : Scan H} {passed rest post A₀ : List H} {left a : ℕ}

omit [DecidableEq H] in
/-- The due test of the scan, on handles that hang in slots. -/
theorem Sweeping.due_iff (sweep : Sweeping clk w₀ L₀ cur s L passed rest left A F a)
    (now : cur ≤ clk.read w₀.reads) {i : ℕ} (on : h ∈ L (.slot i)) :
    timeAfterEq s.curMs (s.c.st.w.timeout h) = true ↔ s.c.st.w.timeout h ≤ cur := by
  have bound := clk.bound w₀.reads
  rw [sweep.curMs, timeAfterEq_iff (by omega) (sweep.inv.soon i h on)]

omit [DecidableEq H] in
/-- A deadline that is computed during the scan lies behind it. -/
theorem Sweeping.again (sweep : Sweeping clk w₀ L₀ cur s L passed rest left A F a)
    (now : cur ≤ clk.read w₀.reads) {i : ℕ} (on : h ∈ L (.slot i)) (hi : s.c.st.w.interval h ≠ 0) :
    cur < deadline clk s.c.st.w (s.c.st.w.interval h) ∧
      deadline clk s.c.st.w (s.c.st.w.interval h) < 2 ^ 63 := by
  have nonneg := sweep.inv.steady i h on
  have int := sweep.inv.ints h
  have bound := clk.bound s.c.st.w.reads
  have mono := clk.mono sweep.fired.reads
  have at_deadline := deadline_eq clk s.c.st.w (by omega) int sweep.inv.clock
  omega

omit [DecidableEq H] in
theorem Sweeping.ahead (sweep : Sweeping clk w₀ L₀ cur s L passed (h :: post) left A F a)
    (now : cur ≤ clk.read w₀.reads) : Ahead clk s := by
  intro g m pos _ due hi _
  have bound := clk.bound w₀.reads
  obtain rfl : h = g := Node.item.inj (sweep.ring.pos.symm.trans pos)
  have on : h ∈ L (.slot s.pos) := by simp [sweep.ring.split]
  obtain ⟨lt, fits⟩ := sweep.again now on hi
  rw [Bool.eq_false_iff, ne_eq, sweep.curMs, timeAfterEq_iff (by omega) fits]
  omega

theorem Sweeping.fire (sweep : Sweeping clk w₀ L₀ cur s L passed (h :: post) left A F a)
    (now : cur ≤ clk.read w₀.reads) (due : timeAfterEq s.curMs (s.c.st.w.timeout h) = true) :
    ∃ passed' rest' A', Sweeping clk w₀ L₀ cur
        (advance s (TimewheelScan.fired .none clk s.c.st h)) (rearmed clk s.c.st.w L h)
        passed' rest' left A' (F ++ [h]) a ∧
      progress (advance s (TimewheelScan.fired .none clk s.c.st h)) left rest' <
        progress s left (h :: post) := by
  have on : h ∈ L (.slot s.pos) := by simp [sweep.ring.split]
  obtain ⟨passed', rest', swept, less⟩ := sweep.toSwept.fire clk due
    fun hi => (sweep.again now on hi).1
  obtain ⟨A', inv⟩ := sweep.inv.fire on
  have fired := sweep.fired.fire sweep.inv now on ((sweep.due_iff now on).mp due)
  exact ⟨passed', rest', A', ⟨swept, inv, fired, by simp [advance, TimewheelScan.fired, sweep.cnt]⟩,
    less (sweep.ahead now)⟩

omit [DecidableEq H] in
/-- When the scan stops no due handle is left in any slot. -/
theorem Sweeping.clean (sweep : Sweeping clk w₀ L₀ cur s L passed [] left A F a)
    (inv₀ : Inv clk w₀ L₀ A₀) (now : cur ≤ clk.read w₀.reads) (hp : s.pos = s.endPos) {i : ℕ}
    (on : h ∈ L (.slot i)) : cur < s.c.st.w.timeout h := by
  by_contra due
  have slot := sweep.inv.placed i h on
  have bound := clk.bound w₀.reads
  have clock := inv₀.clock
  have later := slot.later
  have prev := sweep.prevMs
  exact due (sweep.toSwept.clean inv₀.toLayout inv₀.home (timeDiff_eq (by omega) (by omega)) hp on
    slot.home (by omega) (not_lt.mp due))

omit [DecidableEq H] in
/-- The time of the wheel may be set where it passes no handle. -/
theorem Rep.setNow (rep : Rep w L A) (fits : cur < 2 ^ 64)
    (later : ∀ i h, h ∈ L (.slot i) → cur ≤ w.timeout h) : Rep (w.setNow cur) L A :=
  { rep with
    pos := by
      change cur &&& w.slotNumMask < w.slotNum
      rw [rep.and_mask]
      exact Nat.mod_lt _ rep.slotNum_pos
    prev := fits
    home := rfl
    placed := fun i h on => { rep.placed i h on with later := later i h on } }

/-- What a check that returns `r` has done to the wheel `w`. -/
structure Checked (clk : Clock) (w : Wheel H) (L : Head → List H) (cur : ℕ) (r : Walk H)
    (L' : Head → List H) (F : List H) : Prop where
  inv : ∃ A, Inv clk r.w L' A
  fired : Fired clk w L cur r.w L' F
  cnt : r.cnt = F.length
  prevMs : r.w.prevMs = cur
  exact : ∀ h, h ∈ F ↔ w.prevMs < cur ∧ ∃ i, h ∈ L (.slot i) ∧ w.timeout h ≤ cur

theorem Sweeping.checked (sweep : Sweeping clk w₀ L₀ cur s L passed [] left A F a)
    (inv₀ : Inv clk w₀ L₀ A₀) (now : cur ≤ clk.read w₀.reads) (moved : w₀.prevMs < cur)
    (hp : s.pos = s.endPos) :
    Checked clk w₀ L₀ cur ⟨s.c.st.w.setNow s.curMs, s.c.st.cnt⟩ L F := by
  have curMs := sweep.curMs
  have bound := clk.bound w₀.reads
  have mono := clk.mono sweep.fired.reads
  have rep : Rep (s.c.st.w.setNow s.curMs) L A := sweep.inv.toRep.setNow (by omega) fun i h on => by
    have late := sweep.clean inv₀ now hp on
    omega
  refine ⟨⟨A, rep, ?_, sweep.inv.soon, sweep.inv.steady⟩, { sweep.fired with }, sweep.cnt, curMs, ?_⟩
  · change s.curMs ≤ clk.read s.c.st.w.reads
    omega
  · intro h
    constructor
    · intro hF
      obtain ⟨⟨i, hi⟩, due⟩ := sweep.fired.due h hF
      exact ⟨moved, i, hi, due⟩
    · rintro ⟨-, i, hi, due⟩
      by_contra hF
      obtain ⟨timeout, lists⟩ := sweep.fired.others h hF
      have late := sweep.clean inv₀ now hp ((lists _).mpr hi)
      omega

omit [DecidableEq H] in
theorem Rep.entered (rep : Rep w L A) (cur : ℕ) : Rep (entered w cur) L A :=
  { rep with placed := fun i h on => { rep.placed i h on with } }

omit [DecidableEq H] in
theorem Inv.entered (inv : Inv clk w L A) (cur : ℕ) : Inv clk (entered w cur) L A :=
  { inv with
    toRep := inv.toRep.entered cur
    clock := by
      refine inv.clock.trans (clk.mono ?_)
      simp only [TimewheelScan.entered]
      split <;> omega }

omit [DecidableEq H] in
/-- Without armed handles the time of the wheel may be set at will. -/
theorem Inv.setNow (inv : Inv clk w L []) (now : cur ≤ clk.read w.reads) :
    Inv clk (w.setNow cur) L [] := by
  have bound := clk.bound w.reads
  have empty : ∀ {i h}, h ∉ L (.slot i) := fun {i h} on => by
    simpa using (inv.armed h).mpr ⟨i, on⟩
  have rep : Rep (w.setNow cur) L [] := inv.toRep.setNow (by omega) fun i h on => absurd on empty
  exact ⟨rep, now, fun i h on => absurd on empty, fun i h on => absurd on empty⟩

/-- The turns of a sweep, from the first slot to the return of the check. -/
theorem Sweeping.returns (sweep : Sweeping clk w₀ L₀ cur s L passed rest left A F a)
    (inv₀ : Inv clk w₀ L₀ A₀) (now : cur ≤ clk.read w₀.reads) (moved : w₀.prevMs < cur) :
    ∃ r, Loop.Returns (check .none clk) (.scan s) r ∧
      ∃ L' F, Checked clk w₀ L₀ cur r L' F := by
  refine Loop.returns_of_progress
    (fun i p => ∃ s L passed rest left A F a, p = CheckAt.scan s ∧
      Sweeping clk w₀ L₀ cur s L passed rest left A F a ∧ i = progress s left rest)
    (fun r => ∃ L' F, Checked clk w₀ L₀ cur r L' F) ?_ _ _
    ⟨s, L, passed, rest, left, A, F, a, rfl, sweep, rfl⟩
  rintro _ _ ⟨s, L, passed, rest, left, A, F, a, rfl, sweep, rfl⟩
  have ring := sweep.ring
  cases rest with
  | nil =>
    have turn : check .none clk (.scan s) = _ := check_slot_done ring.pos
    by_cases hp : s.pos = s.endPos
    · rw [if_pos hp] at turn
      exact .inl ⟨_, turn, L, F, sweep.checked inv₀ now moved hp⟩
    · obtain ⟨left', rfl, swept⟩ := sweep.toSwept.nextSlot hp
      rw [if_neg hp] at turn
      exact .inr ⟨_, _, turn, ⟨_, _, _, _, _, _, _, _, rfl, ⟨swept, sweep.inv, sweep.fired, sweep.cnt⟩,
        rfl⟩, progress_slot _ _ _ _ _⟩
  | cons h post =>
    cases due : timeAfterEq s.curMs (s.c.st.w.timeout h) with
    | true =>
      obtain ⟨passed', rest', A', sweep', less⟩ := sweep.fire now due
      exact .inr ⟨_, _, check_fire ring.pos due, ⟨_, _, _, _, _, _, _, _, rfl, sweep', rfl⟩, less⟩
    | false =>
      have on : h ∈ L (.slot s.pos) := by simp [ring.split]
      have is_late : cur < s.c.st.w.timeout h := by
        rw [← not_le, ← sweep.due_iff now on, due]
        decide
      exact .inr ⟨_, _, check_skip ring.pos due,
        ⟨_, _, _, _, _, _, _, _, rfl, ⟨sweep.toSwept.skip is_late, sweep.inv, sweep.fired, sweep.cnt⟩,
          rfl⟩, progress_advance left due⟩

end Check

section Now

variable {clk : Clock} {w : Wheel H} {L : Head → List H} {A : List H} {h : H}

/-- The lists while the batch is being run. -/
def batch (L : Head → List H) (rest : List H) : Head → List H :=
  Function.update (Function.update L .nowList []) .queue rest

omit [DecidableEq H] in
theorem Rep.ranNow (rep : Rep w L A) {links : Links (Node Head H)}
    (rings : Rings links (batch L [])) (log : List (Event H)) :
    Rep { w with links := links, log := log } (batch L []) A := by
  have slots : ∀ i, batch L [] (.slot i) = L (.slot i) := fun i => by simp [batch]
  exact {
    rings := rings
    queue := by simp [batch]
    pow := rep.pow
    mask := rep.mask
    pos := rep.pos
    prev := rep.prev
    slots := fun i hi => (slots i).trans (rep.slots i hi)
    ints := rep.ints
    home := rep.home
    task := rep.task
    nodup := rep.nodup
    armed := by simpa only [slots] using rep.armed
    placed := fun i h on => { rep.placed i h (slots i ▸ on) with }
    now := by simp [batch] }

end Now

end Conet.Core.TimewheelInv
