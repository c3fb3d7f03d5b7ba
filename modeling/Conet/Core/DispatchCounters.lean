/- Module: Conet/Core/DispatchCounters
   source: core/src/dispatch.cpp
   digest: When the counters of the dispatcher are the lengths of its queues. -/

import Mathlib.Algebra.Group.Nat.Defs
import Conet.Core.Dispatch

set_option autoImplicit false
set_option relaxedAutoImplicit false

namespace Conet.Core.DispatchCounters

open Conet.Lib Conet.Base.ListHead Conet.Base.ListRings Conet.Core.Dispatch

universe u

variable {T : Type u}

/-- The counters are the numbers of the tasks in the queues, so the guards let every task through. -/
def Counted (m : Mgr T) : Prop :=
  ∃ ts ds, Holds m.links .tasks ts ∧ Holds m.links .delayTasks ds ∧
    m.taskNum.toNat = ts.length ∧ m.delayTaskNum.toNat = ds.length ∧
    (ts ≠ [] → 0 < m.taskNum) ∧ (ds ≠ [] → ¬ m.delayTaskNum ≤ 0)

/-- There is room for one more task in the counter of the queue. -/
def Room (m : Mgr T) (k : Head) : Prop := ∀ l, Holds m.links k l → l.length + 1 < 2 ^ 32

variable [DecidableEq T]

/-- The condition on a step: what is registered hangs on neither queue, what is unregistered hangs
on the one it is unregistered from, and the next task of the second loop has not been moved to a
queue since the loop began. -/
def Meets (s : Sys T) : Event T → Prop
  | .registry t =>
    ¬ Linked s.mgr.links .tasks t ∧ ¬ Linked s.mgr.links .delayTasks t ∧ Room s.mgr .tasks
  | .unregistry t => Linked s.mgr.links .tasks t
  | .delay t _ => listEmpty s.mgr.links (.item t) = true → Room s.mgr .delayTasks
  | .unregistryDelay t => Linked s.mgr.links .delayTasks t
  | .registryDelayTask _ => Room s.mgr .delayTasks
  | .run t => ¬ Linked s.mgr.links .tasks t ∧ ¬ Linked s.mgr.links .delayTasks t
  | _ => True

def MeetsRun (autoDel : T → Bool) : List (Event T) → Sys T → Prop :=
  Trace Sys.init fun s ev s' => Step autoDel s ev s' ∧ Meets s ev

def CountedRun (autoDel : T → Bool) : List (Event T) → Sys T → Prop :=
  Trace Sys.init fun s ev s' => Step autoDel s ev s' ∧ Counted s'.mgr

/-- What the second loop goes on with: the rest of its list, or a task that has left this list. -/
def Saved (L : Head → List T) (n : Node Head T) : Prop :=
  n = follow .delayList (L .delayList) ∨ ∃ t, n = .item t ∧ t ∉ L .delayList

/-- Where the second loop is in `delay_list`, which is empty while it does not run. -/
def Looping (m : Mgr T) (L : Head → List T) : Pc T → Prop
  | .atDelay t n _ => Saved L t ∧ n = m.links.next t
  | .inDelay _ n _ _ => Saved L n
  | _ => L .delayList = []

structure Inv (autoDel : T → Bool) (s : Sys T) (L : Head → List T) : Prop where
  rings : Rings s.mgr.links L
  tasks : s.mgr.taskNum.toNat = (L .tasks).length
  delayTasks : s.mgr.delayTaskNum.toNat = (L .delayTasks).length
  loop : Looping s.mgr L s.pc
  fresh : ∀ t, autoDel t = true → s.created t = false → ∀ k, t ∉ L k

section Steps

variable {autoDel : T → Bool} {s s' : Sys T} {m m' : Mgr T} {L : Head → List T} {t : T}

omit [DecidableEq T] in
theorem counted_iff (rings : Rings m.links L) : Counted m ↔
    m.taskNum.toNat = (L .tasks).length ∧ m.delayTaskNum.toNat = (L .delayTasks).length := by
  constructor
  · rintro ⟨ts, ds, hts, hds, htask, hdelay, -, -⟩
    rw [rings.holds_iff] at hts hds
    exact ⟨hts ▸ htask, hds ▸ hdelay⟩
  · rintro ⟨htask, hdelay⟩
    refine ⟨_, _, rings.circ _, rings.circ _, htask, hdelay, fun some => ?_, fun some => ?_⟩
    · have pos := List.length_pos_iff.mpr some
      rw [UInt32.lt_iff_toNat_lt, htask]
      exact pos
    · have pos := List.length_pos_iff.mpr some
      rw [UInt32.le_iff_toNat_le, hdelay, Nat.not_le]
      exact pos

omit [DecidableEq T] in
theorem room_iff (rings : Rings m.links L) (k : Head) : Room m k ↔ (L k).length + 1 < 2 ^ 32 := by
  simp [Room, rings.holds_iff]

theorem succ_toNat (n : UInt32) : (n + 1).toNat = (n.toNat + 1) % 2 ^ 32 := by
  simp [UInt32.toNat_add]

theorem pred_toNat (n : UInt32) : (n - 1).toNat = (n.toNat + (2 ^ 32 - 1)) % 2 ^ 32 := by
  rw [UInt32.toNat_sub]
  simp [Nat.add_comm]

/-- What is unlinked leaves a list one shorter if it was there. -/
theorem erase_length (l : List T) (t : T) :
    (t ∈ l ∧ (l.erase t).length + 1 = l.length) ∨ (t ∉ l ∧ (l.erase t).length = l.length) := by
  by_cases mem : t ∈ l
  · have pos := List.length_pos_of_mem mem
    have len := List.length_erase_of_mem mem
    exact .inl ⟨mem, by omega⟩
  · exact .inr ⟨mem, by rw [List.erase_of_not_mem mem]⟩

theorem Saved.erase {n : Node Head T} {L' : Head → List T} (saved : Saved L n)
    (nodup : (L .delayList).Nodup) (erased : L' .delayList = (L .delayList).erase t) :
    Saved L' n := by
  rcases saved with rfl | ⟨x, rfl, off⟩
  · cases hl : L .delayList with
    | nil => exact .inl (by simp [erased, hl])
    | cons h rest =>
      rw [hl, List.nodup_cons] at nodup
      by_cases ht : h = t
      · exact .inr ⟨h, rfl, by simpa [erased, hl, ht] using ht ▸ nodup.1⟩
      · exact .inl (by simp [erased, hl, ht, follow])
  · exact .inr ⟨x, rfl, fun mem => off (List.mem_of_mem_erase (erased ▸ mem))⟩

/-- A call moves the second loop at most off the task that is unlinked. -/
theorem Looping.call {pc : Pc T} {L' : Head → List T} (loop : Looping m L pc) (out : pc.Outside)
    (nodup : (L .delayList).Nodup) (erased : L' .delayList = (L .delayList).erase t) :
    Looping m' L' pc := by
  cases pc with
  | idle =>
    have empty : L .delayList = [] := loop
    simpa [Looping, empty] using erased
  | inTask =>
    have empty : L .delayList = [] := loop
    simpa [Looping, empty] using erased
  | inDelay => exact Saved.erase loop nodup erased
  | _ => exact out.elim

theorem Inv.registry (inv : Inv autoDel s L) (out : s.pc.Outside) (own : autoDel t = false) :
    (Counted (registry s.mgr t) ↔ Meets s (.registry t)) ∧
      (Counted (registry s.mgr t) →
        Inv autoDel { s with mgr := registry s.mgr t } (moved L t .tasks)) := by
  have rings := registry_rings inv.rings t
  have counted := counted_iff rings
  have lists : moved L t .tasks .tasks = (L .tasks).erase t ++ [t] ∧
      moved L t .tasks .delayTasks = (L .delayTasks).erase t ∧
      moved L t .tasks .delayList = (L .delayList).erase t := by
    simp [moved]
  constructor
  · rw [counted, lists.1, lists.2.1, List.length_append, List.length_singleton]
    simp only [Dispatch.registry, succ_toNat, Meets, inv.rings.linked_iff, room_iff inv.rings]
    have tasks := inv.tasks
    have delayTasks := inv.delayTasks
    have small := s.mgr.taskNum.toNat_lt
    rcases erase_length (L .tasks) t with ⟨h₁, e₁⟩ | ⟨h₁, e₁⟩ <;>
      rcases erase_length (L .delayTasks) t with ⟨h₂, e₂⟩ | ⟨h₂, e₂⟩ <;>
      simp only [h₁, h₂, not_true_eq_false, not_false_eq_true, true_and, false_and, iff_false] <;>
      omega
  · intro h
    obtain ⟨tasks, delayTasks⟩ := counted.mp h
    refine ⟨rings, tasks, delayTasks, inv.loop.call out (inv.rings.nodup _) lists.2.2, ?_⟩
    intro x auto fresh k
    have ne : x ≠ t := by
      rintro rfl
      simp [own] at auto
    have off := fun j => inv.fresh x auto fresh j
    by_cases hk : k = .tasks
    · simp [hk, lists.1, ne, off]
    · simp [moved, hk, ne, off]

/-- The two calls that unlink a task and count one of the queues down. -/
theorem Inv.unlinked (inv : Inv autoDel s L) (out : s.pc.Outside) {m : Mgr T}
    (links : m.links = listDelInit s.mgr.links (.item t)) (h : Counted m) :
    Inv autoDel { s with mgr := m } (fun k => (L k).erase t) := by
  have rings : Rings m.links (fun k => (L k).erase t) := links ▸ inv.rings.unlink t
  obtain ⟨tasks, delayTasks⟩ := (counted_iff rings).mp h
  refine ⟨rings, tasks, delayTasks, inv.loop.call out (inv.rings.nodup _) rfl, ?_⟩
  exact fun x auto fresh k mem => inv.fresh x auto fresh k (List.mem_of_mem_erase mem)

theorem Inv.unregistry_iff (inv : Inv autoDel s L) :
    Counted (unregistry s.mgr t) ↔ Meets s (.unregistry t) := by
  have rings : Rings (unregistry s.mgr t).links (fun k => (L k).erase t) := inv.rings.unlink t
  rw [counted_iff rings]
  simp only [Dispatch.unregistry, pred_toNat, Meets, inv.rings.linked_iff]
  have tasks := inv.tasks
  have delayTasks := inv.delayTasks
  have small := s.mgr.taskNum.toNat_lt
  have apart : t ∈ L .tasks → t ∉ L .delayTasks := fun h =>
    inv.rings.notMem_of_ne h (by simp)
  rcases erase_length (L .tasks) t with ⟨h₁, e₁⟩ | ⟨h₁, e₁⟩ <;>
    rcases erase_length (L .delayTasks) t with ⟨h₂, e₂⟩ | ⟨h₂, e₂⟩ <;>
    simp only [h₁, h₂, not_true_eq_false, not_false_eq_true, imp_false, iff_false, iff_true]
      at apart ⊢ <;>
    omega

theorem Inv.unregistryDelay_iff (inv : Inv autoDel s L) :
    Counted (unregistryDelay s.mgr t) ↔ Meets s (.unregistryDelay t) := by
  have rings : Rings (unregistryDelay s.mgr t).links (fun k => (L k).erase t) :=
    inv.rings.unlink t
  rw [counted_iff rings]
  simp only [Dispatch.unregistryDelay, pred_toNat, Meets, inv.rings.linked_iff]
  have tasks := inv.tasks
  have delayTasks := inv.delayTasks
  have small := s.mgr.delayTaskNum.toNat_lt
  have apart : t ∈ L .delayTasks → t ∉ L .tasks := fun h =>
    inv.rings.notMem_of_ne h (by simp)
  rcases erase_length (L .tasks) t with ⟨h₁, e₁⟩ | ⟨h₁, e₁⟩ <;>
    rcases erase_length (L .delayTasks) t with ⟨h₂, e₂⟩ | ⟨h₂, e₂⟩ <;>
    simp only [h₁, h₂, not_true_eq_false, not_false_eq_true, imp_false, iff_false, iff_true]
      at apart ⊢ <;>
    omega

theorem Inv.delay_free (inv : Inv autoDel s L) (out : s.pc.Outside) (free : ∀ k, t ∉ L k)
    (created : T → Bool) (marked : ∀ x, autoDel x = true → created x = false →
      x ≠ t ∧ s.created x = false) :
    (Counted (delay s.mgr t) ↔ Room s.mgr .delayTasks) ∧
      (Counted (delay s.mgr t) →
        Inv autoDel { s with mgr := delay s.mgr t, created := created }
          (Function.update L .delayTasks (L .delayTasks ++ [t]))) := by
  obtain ⟨rings, taskNum, delayTaskNum⟩ := Dispatch.delay_free inv.rings free
  have counted := counted_iff rings
  constructor
  · rw [counted, taskNum, delayTaskNum, succ_toNat, room_iff inv.rings]
    simp only [Function.update_self, ne_eq, reduceCtorEq, not_false_eq_true,
      Function.update_of_ne, List.length_append, List.length_singleton, inv.tasks, true_and]
    have delayTasks := inv.delayTasks
    have small := s.mgr.delayTaskNum.toNat_lt
    omega
  · intro h
    obtain ⟨tasks, delayTasks⟩ := counted.mp h
    refine ⟨rings, tasks, delayTasks, ?_, ?_⟩
    · apply inv.loop.call (t := t) out (inv.rings.nodup _)
      simp [List.erase_of_not_mem (free .delayList)]
    · intro x auto fresh k
      obtain ⟨ne, fresh⟩ := marked x auto fresh
      have off := fun j => inv.fresh x auto fresh j
      by_cases hk : k = .delayTasks
      · simp [hk, ne, off]
      · simp [hk, off]

theorem Inv.phase (inv : Inv autoDel s L) {num : ℕ} (pc : s.pc = .guard num) :
    Counted (guardDelay s.mgr num).1 ∧ ∃ L', Inv autoDel { s with
      mgr := (guardDelay s.mgr num).1, pc := (guardDelay s.mgr num).2 } L' := by
  have empty : L .delayList = [] := by simpa [Looping, pc] using inv.loop
  by_cases some : s.mgr.delayTaskNum = 0
  · rw [guardDelay_skip some]
    exact ⟨(counted_iff inv.rings).mpr ⟨inv.tasks, inv.delayTasks⟩,
      L, inv.rings, inv.tasks, inv.delayTasks, empty, inv.fresh⟩
  · obtain ⟨m', n, eq, rings, taskNum, delayTaskNum, saved⟩ :=
      guardDelay_spec inv.rings empty some num
    have tasks : m'.taskNum.toNat = (swapped L .tasks).length := by
      simp [taskNum, inv.tasks, swapped]
    have delayTasks : m'.delayTaskNum.toNat = (swapped L .delayTasks).length := by
      simp [delayTaskNum, swapped]
    rw [eq]
    refine ⟨(counted_iff rings).mpr ⟨tasks, delayTasks⟩, _, rings, tasks, delayTasks,
      ⟨.inl (by simp [swapped]), saved⟩, ?_⟩
    intro x auto fresh k
    have off := fun j => inv.fresh x auto fresh j
    cases k <;> simp [swapped, off]

theorem Inv.run (inv : Inv autoDel s L) {n : Node Head T} {num : ℕ}
    (pc : s.pc = .atDelay (.item t) n num) :
    (Counted { s.mgr with links := listDelInit s.mgr.links (.item t) } ↔ Meets s (.run t)) ∧
      (Meets s (.run t) → Inv autoDel { s with
        mgr := { s.mgr with links := listDelInit s.mgr.links (.item t) }
        pc := .inDelay t n (autoDel t) num } (fun k => (L k).erase t)) := by
  have rings := inv.rings.unlink t
  have tasks := inv.tasks
  have delayTasks := inv.delayTasks
  have counted : Counted { s.mgr with links := listDelInit s.mgr.links (.item t) } ↔
      Meets s (.run t) := by
    rw [counted_iff (m := { s.mgr with links := listDelInit s.mgr.links (.item t) }) rings]
    simp only [Meets, inv.rings.linked_iff]
    rcases erase_length (L .tasks) t with ⟨h₁, e₁⟩ | ⟨h₁, e₁⟩ <;>
      rcases erase_length (L .delayTasks) t with ⟨h₂, e₂⟩ | ⟨h₂, e₂⟩ <;>
      simp only [h₁, h₂, not_true_eq_false, not_false_eq_true, and_true, and_false, iff_false,
        iff_true] <;>
      omega
  refine ⟨counted, fun meets => ?_⟩
  obtain ⟨tasks', delayTasks'⟩ := (counted_iff
    (m := { s.mgr with links := listDelInit s.mgr.links (.item t) }) rings).mp (counted.mpr meets)
  obtain ⟨offTasks, offDelay⟩ := meets
  rw [inv.rings.linked_iff] at offTasks offDelay
  have loop := inv.loop
  simp only [Looping, pc] at loop
  obtain ⟨saved, next⟩ := loop
  refine ⟨rings, tasks', delayTasks', ?_, fun x auto fresh k mem =>
    inv.fresh x auto fresh k (List.mem_of_mem_erase mem)⟩
  rcases saved with first | ⟨x, ⟨⟩, off⟩
  · -- the loop is in its list, and goes on with the task behind
    cases hl : L .delayList with
    | nil => simp [hl, follow] at first
    | cons h rest =>
      obtain rfl : t = h := by simpa [hl, follow] using first
      left
      rw [next, inv.rings.next_first hl]
      simp [hl]
  · -- the task has left the list and hangs on nothing: the loop stays at it
    have alone := inv.rings.alone t fun k => by cases k <;> assumption
    right
    refine ⟨t, ?_, fun mem => off (List.mem_of_mem_erase mem)⟩
    rw [next]
    exact (Circular.nil_iff.mp alone).1

/-- A step keeps the counters right if and only if it meets the condition. -/
theorem Inv.step (inv : Inv autoDel s L) {ev : Event T} (step : Step autoDel s ev s') :
    (Counted s'.mgr ↔ Meets s ev) ∧ (Counted s'.mgr → ∃ L', Inv autoDel s' L') := by
  have same : Counted s.mgr := (counted_iff inv.rings).mpr ⟨inv.tasks, inv.delayTasks⟩
  have loop := inv.loop
  cases step with
  | registry t out own =>
    obtain ⟨iff, keeps⟩ := inv.registry out own
    exact ⟨iff, fun h => ⟨_, keeps h⟩⟩
  | unregistry t out own =>
    exact ⟨inv.unregistry_iff, fun h => ⟨_, inv.unlinked out rfl h⟩⟩
  | delay t out own =>
    by_cases alone : listEmpty s.mgr.links (.item t) = true
    · obtain ⟨iff, keeps⟩ := inv.delay_free out ((inv.rings.empty_iff t).mp alone)
        s.created fun x auto fresh => ⟨by rintro rfl; simp [own] at auto, fresh⟩
      exact ⟨by simpa [Meets, alone] using iff, fun h => ⟨_, keeps h⟩⟩
    · have still : delay s.mgr t = s.mgr := by rw [delay, if_neg alone]
      simp only [Meets, alone, still]
      exact ⟨by simpa using same, fun _ => ⟨L, inv⟩⟩
  | unregistryDelay t out own =>
    exact ⟨inv.unregistryDelay_iff, fun h => ⟨_, inv.unlinked out rfl h⟩⟩
  | registryDelayTask t out auto fresh =>
    have free := inv.fresh t auto fresh
    obtain ⟨iff, keeps⟩ := inv.delay_free out free (Function.update s.created t true) (by
      intro x auto fresh
      by_cases hx : x = t
      · simp [hx] at fresh
      · exact ⟨hx, by simpa [hx] using fresh⟩)
    simp only [registryDelayTask_eq inv.rings free]
    exact ⟨iff, fun h => ⟨_, keeps h⟩⟩
  | enter idle =>
    refine ⟨by simpa [Meets] using same, fun _ => ⟨L, inv.rings, inv.tasks, inv.delayTasks, ?_,
      inv.fresh⟩⟩
    rw [idle] at loop
    unfold Dispatch.enter
    dsimp only
    split_ifs <;> exact loop
  | call t n num pc =>
    rw [pc] at loop
    exact ⟨by simpa [Meets] using same, fun _ => ⟨L, inv.rings, inv.tasks, inv.delayTasks, loop,
      inv.fresh⟩⟩
  | returned t n num ret pc =>
    rw [pc] at loop
    exact ⟨by simpa [Meets] using same, fun _ => ⟨L, inv.rings, inv.tasks, inv.delayTasks, loop,
      inv.fresh⟩⟩
  | looped n num pc =>
    rw [pc] at loop
    exact ⟨by simpa [Meets] using same, fun _ => ⟨L, inv.rings, inv.tasks, inv.delayTasks, loop,
      inv.fresh⟩⟩
  | phase num pc =>
    obtain ⟨counted, next⟩ := inv.phase pc
    exact ⟨by simpa [Meets] using counted, fun _ => next⟩
  | run t n num pc =>
    obtain ⟨iff, keeps⟩ := inv.run pc
    exact ⟨iff, fun h => ⟨_, keeps (iff.mp h)⟩⟩
  | finished t n del num ret pc =>
    rw [pc] at loop
    exact ⟨by simpa [Meets] using same, fun _ => ⟨L, inv.rings, inv.tasks, inv.delayTasks,
      ⟨loop, rfl⟩, inv.fresh⟩⟩
  | ended n num pc =>
    rw [pc] at loop
    refine ⟨by simpa [Meets] using same, fun _ => ⟨L, inv.rings, inv.tasks, inv.delayTasks, ?_,
      inv.fresh⟩⟩
    rcases loop.1 with last | ⟨x, hx, -⟩
    · cases hl : L .delayList with
      | nil => exact hl
      | cons h rest => simp [hl, follow] at last
    · simp at hx
  | leave num pc =>
    rw [pc] at loop
    exact ⟨by simpa [Meets] using same, fun _ => ⟨L, inv.rings, inv.tasks, inv.delayTasks, loop,
      inv.fresh⟩⟩

end Steps

section Runs

omit [DecidableEq T] in
theorem inv_init (autoDel : T → Bool) : Inv autoDel Sys.init (fun _ => []) :=
  ⟨init_rings, rfl, rfl, rfl, fun _ _ _ _ => by simp⟩

/-- The runs in which the counters are right in every state are those whose steps all meet the
condition. -/
theorem countedRun_iff (autoDel : T → Bool) (tr : List (Event T)) (s : Sys T) :
    CountedRun autoDel tr s ↔ MeetsRun autoDel tr s := by
  apply Trace.iff_of_invariant fun s => ∃ L, Inv autoDel s L
  · exact ⟨_, inv_init autoDel⟩
  · rintro s ev s' ⟨L, inv⟩
    exact and_congr_right fun step => (inv.step step).1
  · rintro s ev s' ⟨L, inv⟩ ⟨step, counted⟩
    exact (inv.step step).2 counted

/-- The time wheel leaves as its destructor does: its task has been run, so it hangs on no queue
when it is unregistered. The next task that is put off counts up to 0, and is skipped. -/
theorem counted_drift : ¬ ∀ (tr : List (Event ℕ)) (s : Sys ℕ), Run (fun _ => false) tr s →
    Counted s.mgr := by
  intro all
  have start : Run (fun _ => false) [] (Sys.init : Sys ℕ) := .init
  have delayed := start.step (.delay _ 0 trivial rfl)
  have round := ((delayed.step (.enter _ rfl)).step (.phase _ 0 rfl)).step
    (.run _ 0 (.head .delayList) 0 rfl)
  have idle := ((round.step (.finished _ 0 _ _ _ 1 rfl)).step (.ended _ _ _ rfl)).step
    (.leave _ _ rfl)
  have drift := (idle.step (.unregistryDelay _ 0 trivial rfl)).step (.delay _ 1 trivial rfl)
  obtain ⟨ts, ds, -, held, -, count, -⟩ := all _ _ drift
  have queue := Circular.unique held (show Circular _ _ [.item 1] from
    ⟨⟨rfl, rfl, rfl, rfl⟩, by simp⟩)
  have length := congrArg List.length queue
  rw [List.length_map, ← count] at length
  exact absurd length (by decide)

end Runs

end Conet.Core.DispatchCounters
