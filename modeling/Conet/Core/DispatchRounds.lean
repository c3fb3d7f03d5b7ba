/- Module: Conet/Core/DispatchRounds
   source: core/src/dispatch.cpp, base/list.h
   digest: Which of the tasks that have been put off run in which round, and when they are deleted. -/

import Mathlib.Algebra.Group.Nat.Defs
import Conet.Core.Dispatch

set_option autoImplicit false
set_option relaxedAutoImplicit false

namespace Conet.Core.DispatchRounds

open Conet.Lib Conet.Base.ListHead Conet.Base.ListRings Conet.Core.Dispatch

universe u

variable {T : Type u}

/-- The task that an event puts off; putting off a task that is linked does nothing. -/
def delayOf : Event T → Option T
  | .delay t false => some t
  | .registryDelayTask t => some t
  | _ => none

def runOf : Event T → Option T
  | .run t => some t
  | _ => none

/-- The tasks that have been put off, one entry for each time, and those that have been run. -/
def delays (tr : List (Event T)) : List T := tr.filterMap delayOf

def runs (tr : List (Event T)) : List T := tr.filterMap runOf

/-- The tasks that have been put off and not run since. -/
def waiting (tr : List (Event T)) : List T := (delays tr).drop (runs tr).length

variable [DecidableEq T]

def isFinished (t : T) : Event T → Bool
  | .finished t' _ _ => decide (t' = t)
  | _ => false

/-- How often the `proc` of `t` has come back to the second loop. -/
def finishes (t : T) (tr : List (Event T)) : ℕ := tr.countP (isFinished t)

/-- The task whose `proc` the second loop is calling. -/
def running {T : Type u} : Pc T → Option T
  | .inDelay t _ _ _ => some t
  | _ => none

/-- The tasks marked by `put` are only ever passed to `delay`, and the others never. -/
def Only (put : T → Bool) : Event T → Prop
  | .registry t => put t = false
  | .unregistry t => put t = false
  | .delay t _ => put t = true
  | .unregistryDelay _ => False
  | .registryDelayTask t => put t = true
  | _ => True

omit [DecidableEq T] in
/-- The condition on the start of a delay phase: the number of tasks that are linked is not one that
`delay_task_num` takes for 0. -/
def Meets (s : Sys T) : Event T → Prop
  | .phase => ∀ ds, Holds s.mgr.links .delayTasks ds → ds.length % 2 ^ 32 = 0 → ds = []
  | _ => True

/-- What the rounds owe the tasks that are put off. -/
structure Delayed (autoDel put : T → Bool) (s : Sys T) (tr : List (Event T)) : Prop where
  /-- the tasks run in the order they were put off, once for each time -/
  fifo : ∃ batch queue, Holds s.mgr.links .delayList batch ∧ Holds s.mgr.links .delayTasks queue ∧
    delays tr = runs tr ++ (batch ++ queue)
  /-- a task that is put off is linked already if and only if it still has to run -/
  linked : ∀ tr₁ t linked tr₂, tr = tr₁ ++ .delay t linked :: tr₂ →
    (linked = true ↔ t ∈ waiting tr₁)
  /-- at the end of a round all tasks have run that had been put off when its delay phase started,
  and no other ones -/
  round : ∀ tr₁ tr₂ num tr₃, tr = tr₁ ++ .phase :: (tr₂ ++ .leave num :: tr₃) → .phase ∉ tr₂ →
    runs (tr₁ ++ .phase :: tr₂) = delays tr₁
  /-- the first loop runs none of them -/
  call : ∀ t, .call t ∈ tr → put t = false
  /-- what has been run has come back once, unless it is running -/
  finished : ∀ t, (runs tr).count t = finishes t tr +
    if running s.pc = some t then 1 else 0
  /-- what has come back is deleted if it is `auto_del`, and this happens once -/
  deleted : ∀ tr₁ t ret del tr₂, tr = tr₁ ++ .finished t ret del :: tr₂ →
    del = autoDel t ∧ (del = true → finishes t tr = 1)
  /-- the second loop always finds a task of its list or its end -/
  goes : ∀ t n num, s.pc = .atDelay t n num → ∃ ev s', Step autoDel s ev s'

/-- A link of the first loop: its head or a task that is never put off. -/
def Own (put : T → Bool) (n : Node Head T) : Prop :=
  n = .head .tasks ∨ ∃ t, n = .item t ∧ put t = false

def Looping (autoDel put : T → Bool) (m : Mgr T) (L : Head → List T) : Pc T → Prop
  | .atTask t n _ => L .delayList = [] ∧ Own put t ∧ Own put n
  | .inTask _ n _ => L .delayList = [] ∧ Own put n
  | .atDelay t n _ => t = follow .delayList (L .delayList) ∧ n = m.links.next t
  | .inDelay t n del _ => n = follow .delayList (L .delayList) ∧ del = autoDel t
  | _ => L .delayList = []

def InPhase : Pc T → Prop
  | .atDelay .. => True
  | .inDelay .. => True
  | .leaving .. => True
  | _ => False

structure Inv (autoDel put : T → Bool) (s : Sys T) (L : Head → List T) (tr : List (Event T)) :
    Prop where
  rings : Rings s.mgr.links L
  counter : s.mgr.delayTaskNum.toNat = (L .delayTasks).length % 2 ^ 32
  loop : Looping autoDel put s.mgr L s.pc
  own : ∀ t, t ∈ L .tasks → put t = false
  others : ∀ k t, t ∈ L k → k ≠ .tasks → put t = true
  queue : delays tr = runs tr ++ (L .delayList ++ L .delayTasks)
  phase : ∀ tr₁ tr₂, tr = tr₁ ++ .phase :: tr₂ → .phase ∉ tr₂ → InPhase s.pc →
    runs tr ++ L .delayList = delays tr₁
  call : ∀ t, .call t ∈ tr → put t = false
  finished : ∀ t, (runs tr).count t = finishes t tr + if running s.pc = some t then 1 else 0
  fresh : ∀ t, autoDel t = true → (delays tr).count t ≤ if s.created t then 1 else 0
  deleted : ∀ t ret del, .finished t ret del ∈ tr → del = autoDel t

section Snoc

variable {tr : List (Event T)} {ev : Event T} {t : T}

omit [DecidableEq T] in
@[simp] theorem delays_snoc : delays (tr ++ [ev]) = delays tr ++ (delayOf ev).toList := by
  cases h : delayOf ev <;> simp [delays, h]

omit [DecidableEq T] in
@[simp] theorem runs_snoc : runs (tr ++ [ev]) = runs tr ++ (runOf ev).toList := by
  cases h : runOf ev <;> simp [runs, h]

@[simp] theorem finishes_snoc :
    finishes t (tr ++ [ev]) = finishes t tr + if isFinished t ev then 1 else 0 := by
  simp [finishes, List.countP_append, List.countP_cons]

end Snoc

section Steps

variable {autoDel put : T → Bool} {s s' : Sys T} {m m' : Mgr T} {L L' : Head → List T}
  {tr : List (Event T)} {ev : Event T} {t : T}

theorem Inv.phase_snoc (inv : Inv autoDel put s L tr) (ne : ev ≠ .phase)
    {tr₁ tr₂ : List (Event T)} (split : tr ++ [ev] = tr₁ ++ .phase :: tr₂) (none : .phase ∉ tr₂)
    (before : InPhase s.pc) : runs tr ++ L .delayList = delays tr₁ := by
  rcases List.eq_nil_or_concat' tr₂ with rfl | ⟨tr₂, last, rfl⟩
  · have same := (List.append_inj' split rfl).2
    exact absurd (by simpa using same) ne
  · have split : tr ++ [ev] = (tr₁ ++ .phase :: tr₂) ++ [last] := by simpa using split
    exact inv.phase tr₁ tr₂ (List.append_inj_left' split rfl)
      (fun mem => none (List.mem_append_left _ mem)) before

/-- The steps that leave the tasks that are put off where they are. -/
theorem Inv.still (inv : Inv autoDel put s L tr) (hd : delayOf ev = none) (hr : runOf ev = none)
    (hf : ∀ t ret del, ev ≠ .finished t ret del) (hp : ev ≠ .phase)
    (hc : ∀ t, ev = .call t → put t = false) (rings : Rings s'.mgr.links L')
    (list : L' .delayList = L .delayList) (queue : L' .delayTasks = L .delayTasks)
    (own : ∀ t, t ∈ L' .tasks → put t = false)
    (counter : s'.mgr.delayTaskNum = s.mgr.delayTaskNum)
    (loop : Looping autoDel put s'.mgr L' s'.pc) (before : InPhase s'.pc → InPhase s.pc)
    (same : running s'.pc = running s.pc) (created : s'.created = s.created) :
    Inv autoDel put s' L' (tr ++ [ev]) := by
  have notFinished : ∀ t, isFinished t ev = false := by
    intro t
    cases ev with
    | finished t' ret del => exact absurd rfl (hf t' ret del)
    | _ => rfl
  constructor
  · exact rings
  · rw [counter, queue]
    exact inv.counter
  · exact loop
  · exact own
  · intro k t mem ne
    cases k with
    | tasks => exact absurd rfl ne
    | delayTasks => exact inv.others _ t (queue ▸ mem) ne
    | delayList => exact inv.others _ t (list ▸ mem) ne
  · simpa [hd, hr, list, queue] using inv.queue
  · intro tr₁ tr₂ split none inPhase
    simpa [hr, list] using inv.phase_snoc hp split none (before inPhase)
  · intro t mem
    rw [List.mem_append, List.mem_singleton] at mem
    exact mem.elim (inv.call t) fun h => hc t h.symm
  · intro t
    simpa [hr, notFinished, same] using inv.finished t
  · intro t auto
    simpa [hd, created] using inv.fresh t auto
  · intro t ret del mem
    rw [List.mem_append, List.mem_singleton] at mem
    exact mem.elim (inv.deleted t ret del) fun h => absurd h.symm (hf t ret del)

omit [DecidableEq T] in
/-- A call does not touch the list of the second loop. -/
theorem Looping.call {pc : Pc T} (loop : Looping autoDel put m L pc) (out : pc.Outside)
    (list : L' .delayList = L .delayList) : Looping autoDel put m' L' pc := by
  cases pc with
  | idle => exact list.trans loop
  | inTask => exact ⟨list.trans loop.1, loop.2⟩
  | inDelay => exact ⟨by rw [list]; exact loop.1, loop.2⟩
  | _ => exact out.elim

/-- The links of the tasks that are never put off lead to such tasks and to their head. -/
theorem Inv.own_next (inv : Inv autoDel put s L tr) {n : Node Head T} (own : Own put n) :
    Own put (s.mgr.links.next n) := by
  have first : ∀ l : List T, (∀ t ∈ l, put t = false) → Own put (follow .tasks l) := by
    intro l hl
    cases l with
    | nil => exact .inl rfl
    | cons t rest => exact .inr ⟨t, rfl, hl t (by simp)⟩
  rcases own with rfl | ⟨t, rfl, hput⟩
  · rw [inv.rings.next_head]
    exact first _ inv.own
  · by_cases mem : t ∈ L .tasks
    · obtain ⟨pre, post, split⟩ := List.append_of_mem mem
      rw [inv.rings.next_item split]
      exact first _ fun x hx => inv.own x (by simp [split, hx])
    · have alone := inv.rings.alone t fun k hk => by
        by_cases hk' : k = .tasks
        · exact mem (hk' ▸ hk)
        · simp [inv.others k t hk hk'] at hput
      rw [(Circular.nil_iff.mp alone).1]
      exact .inr ⟨t, rfl, hput⟩

theorem Inv.waiting_eq (inv : Inv autoDel put s L tr) :
    waiting tr = L .delayList ++ L .delayTasks := by
  simp [waiting, inv.queue]

theorem Inv.put_free (inv : Inv autoDel put s L tr) (hput : put t = true)
    (off : t ∉ waiting tr) (k : Head) : t ∉ L k := by
  rw [inv.waiting_eq, List.mem_append, not_or] at off
  cases k with
  | tasks =>
    intro mem
    simp [inv.own t mem] at hput
  | delayTasks => exact off.2
  | delayList => exact off.1

theorem Inv.putOff (inv : Inv autoDel put s L tr) (out : s.pc.Outside) (hput : put t = true)
    (off : t ∉ waiting tr) (hd : delayOf ev = some t) (created : T → Bool)
    (fresh : ∀ x, autoDel x = true →
      (delays tr).count x + (if x = t then 1 else 0) ≤ if created x then 1 else 0) :
    ∃ L', Inv autoDel put { s with mgr := delay s.mgr t, created := created } L' (tr ++ [ev]) := by
  obtain ⟨rings, -, delayTaskNum⟩ := Dispatch.delay_free inv.rings (inv.put_free hput off)
  have others : runOf ev = none ∧ (∀ t ret del, ev ≠ .finished t ret del) ∧ ev ≠ .phase ∧
      (∀ t, ev ≠ .call t) ∧ ∀ t, isFinished t ev = false := by
    cases ev with
    | delay t' linked => simp [runOf, isFinished]
    | registryDelayTask t' => simp [runOf, isFinished]
    | _ => simp [delayOf] at hd
  obtain ⟨hr, hf, hp, hc, hfin⟩ := others
  refine ⟨_, rings, ?_, inv.loop.call out (by simp), ?_, ?_, ?_, ?_, ?_, ?_, ?_, ?_⟩
  · have counter := inv.counter
    simp only [delayTaskNum, UInt32.toNat_add, counter, Function.update_self, List.length_append,
      List.length_singleton, UInt32.toNat_one]
    omega
  · intro x mem
    exact inv.own x (by simpa using mem)
  · intro k x mem ne
    by_cases hk : k = .delayTasks
    · rw [hk, Function.update_self, List.mem_append, List.mem_singleton] at mem
      rcases mem with mem | rfl
      · exact inv.others _ x mem (by simp)
      · exact hput
    · rw [Function.update_of_ne hk] at mem
      exact inv.others k x mem ne
  · simp [hd, hr, inv.queue]
  · intro tr₁ tr₂ split none inPhase
    simpa [hr] using inv.phase_snoc hp split none inPhase
  · intro x mem
    rw [List.mem_append, List.mem_singleton] at mem
    exact mem.elim (inv.call x) fun h => absurd h.symm (hc x)
  · intro x
    simpa [hr, hfin] using inv.finished x
  · intro x auto
    have bound := fresh x auto
    by_cases hx : x = t
    · simpa [hd, hx] using bound
    · have ne : t ≠ x := fun h => hx h.symm
      simpa [hd, hx, ne] using bound
  · intro x ret del mem
    rw [List.mem_append, List.mem_singleton] at mem
    exact mem.elim (inv.deleted x ret del) fun h => absurd h.symm (hf x ret del)

omit [DecidableEq T] in
theorem phase_split {tr₁ tr₂ : List (Event T)} (split : tr ++ [.phase] = tr₁ ++ .phase :: tr₂)
    (none : .phase ∉ tr₂) : tr₁ = tr := by
  rcases List.eq_nil_or_concat' tr₂ with rfl | ⟨tr₂, last, rfl⟩
  · exact (List.append_inj_left' split rfl).symm
  · have split : tr ++ [.phase] = (tr₁ ++ .phase :: tr₂) ++ [last] := by simpa using split
    have same := (List.append_inj' split rfl).2
    exact absurd (by simpa using Or.inr (List.singleton_inj.mp same)) none

theorem Inv.startPhase (inv : Inv autoDel put s L tr) {num : ℕ} (pc : s.pc = .guard num)
    (meets : Meets s .phase) : ∃ L', Inv autoDel put { s with
      mgr := (guardDelay s.mgr num).1, pc := (guardDelay s.mgr num).2 } L' (tr ++ [.phase]) := by
  have empty : L .delayList = [] := by simpa [Looping, pc] using inv.loop
  have queue : delays tr = runs tr ++ L .delayTasks := by simpa [empty] using inv.queue
  have notRunning : running s.pc = none := by simp [pc, running]
  have call : ∀ t, .call t ∈ tr ++ [.phase] → put t = false := fun t mem =>
    inv.call t (by simpa using mem)
  have deleted : ∀ t ret del, .finished t ret del ∈ tr ++ [.phase] → del = autoDel t :=
    fun t ret del mem => inv.deleted t ret del (by simpa using mem)
  have finished := inv.finished
  simp only [notRunning, reduceCtorEq, ↓reduceIte] at finished
  by_cases zero : s.mgr.delayTaskNum = 0
  · have none : L .delayTasks = [] := by
      apply meets _ (inv.rings.circ _)
      rw [← inv.counter, zero]
      rfl
    rw [guardDelay_skip zero]
    refine ⟨L, inv.rings, inv.counter, empty, inv.own, inv.others, ?_, ?_, call, ?_, ?_, deleted⟩
    · simpa [delayOf, runOf] using inv.queue
    · rintro tr₁ tr₂ split noPhase -
      obtain rfl := phase_split split noPhase
      simp [runOf, queue, none, empty]
    · intro t
      simpa [runOf, isFinished, running] using finished t
    · intro t auto
      simpa [delayOf] using inv.fresh t auto
  · obtain ⟨m', n, eq, rings, -, delayTaskNum, saved⟩ := guardDelay_spec inv.rings empty zero num
    rw [eq]
    refine ⟨_, rings, ?_, ⟨by simp [swapped], saved⟩, ?_, ?_, ?_, ?_, call, ?_, ?_, deleted⟩
    · simp [delayTaskNum, swapped]
    · intro t mem
      exact inv.own t (by simpa [swapped] using mem)
    · intro k t mem ne
      cases k with
      | tasks => exact absurd rfl ne
      | delayTasks => simp [swapped] at mem
      | delayList => exact inv.others .delayTasks t (by simpa [swapped] using mem) (by simp)
    · simpa [delayOf, runOf, swapped] using queue
    · rintro tr₁ tr₂ split noPhase -
      obtain rfl := phase_split split noPhase
      simpa [runOf, swapped] using queue.symm
    · intro t
      simpa [runOf, isFinished, running] using finished t
    · intro t auto
      simpa [delayOf] using inv.fresh t auto

theorem Inv.run (inv : Inv autoDel put s L tr) {n : Node Head T} {num : ℕ}
    (pc : s.pc = .atDelay (.item t) n num) : Inv autoDel put { s with
      mgr := { s.mgr with links := listDelInit s.mgr.links (.item t) }
      pc := .inDelay t n (autoDel t) num } (fun k => (L k).erase t) (tr ++ [.run t]) := by
  have loop := inv.loop
  simp only [Looping, pc] at loop
  obtain ⟨first, next⟩ := loop
  obtain ⟨rest, list⟩ : ∃ rest, L .delayList = t :: rest := by
    cases hl : L .delayList with
    | nil => simp [hl, follow] at first
    | cons h rest =>
      obtain rfl : t = h := by simpa [hl, follow] using first
      exact ⟨rest, rfl⟩
  have mem : t ∈ L .delayList := by simp [list]
  have off : ∀ k, k ≠ .delayList → (L k).erase t = L k := fun k hk =>
    List.erase_of_not_mem (inv.rings.notMem_of_ne mem hk)
  have finished := inv.finished
  simp only [pc, running, reduceCtorEq, ↓reduceIte] at finished
  constructor
  · exact inv.rings.unlink t
  · rw [off _ (by simp)]
    exact inv.counter
  · refine ⟨?_, rfl⟩
    rw [next, inv.rings.next_first list]
    simp [list]
  · exact fun x hx => inv.own x (List.mem_of_mem_erase hx)
  · exact fun k x hx => inv.others k x (List.mem_of_mem_erase hx)
  · have queue := inv.queue
    rw [off .delayTasks (by simp), list]
    simpa [delayOf, runOf, list] using queue
  · intro tr₁ tr₂ split none _
    have phase := inv.phase_snoc (by simp) split none (by simp [pc, InPhase])
    simpa [runOf, list] using phase
  · intro x hx
    exact inv.call x (by simpa using hx)
  · intro x
    by_cases hx : t = x
    · simp [runOf, isFinished, running, hx, finished]
    · simp [runOf, isFinished, running, hx, finished]
  · intro x auto
    simpa [delayOf] using inv.fresh x auto
  · intro x ret del hx
    exact inv.deleted x ret del (by simpa using hx)

theorem Inv.finish (inv : Inv autoDel put s L tr) {n : Node Head T} {del : Bool} {num num' : ℕ}
    (pc : s.pc = .inDelay t n del num) (ret : ℤ) (deleted : T → Bool) : Inv autoDel put { s with
      pc := .atDelay n (s.mgr.links.next n) num', deleted := deleted } L
      (tr ++ [.finished t ret del]) := by
  have loop := inv.loop
  simp only [Looping, pc] at loop
  obtain ⟨saved, auto⟩ := loop
  have finished := inv.finished
  simp only [pc, running] at finished
  refine ⟨inv.rings, inv.counter, ⟨saved, rfl⟩, inv.own, inv.others, ?_, ?_, ?_, ?_, ?_, ?_⟩
  · simpa [delayOf, runOf] using inv.queue
  · intro tr₁ tr₂ split none _
    simpa [runOf] using inv.phase_snoc (by simp) split none (by simp [pc, InPhase])
  · intro x hx
    exact inv.call x (by simpa using hx)
  · intro x
    by_cases hx : t = x
    · simp [runOf, isFinished, running, hx, finished]
    · simp [runOf, isFinished, running, hx, finished]
  · intro x auto
    simpa [delayOf] using inv.fresh x auto
  · intro x ret' del' hx
    rw [List.mem_append, List.mem_singleton] at hx
    rcases hx with hx | hx
    · exact inv.deleted x ret' del' hx
    · cases hx
      exact auto

/-- A task that is never put off hangs on none of the lists of those that are. -/
theorem Inv.off (inv : Inv autoDel put s L tr) (never : put t = false) {k : Head} (ne : k ≠ .tasks) :
    (L k).erase t = L k := by
  apply List.erase_of_not_mem
  intro mem
  simp [inv.others k t mem ne] at never

theorem Inv.registry (inv : Inv autoDel put s L tr) (out : s.pc.Outside) (never : put t = false) :
    Inv autoDel put { s with mgr := Dispatch.registry s.mgr t } (moved L t .tasks)
      (tr ++ [.registry t]) := by
  have list : moved L t .tasks .delayList = L .delayList := by simp [moved, inv.off never]
  refine inv.still rfl rfl (by simp) (by simp) (by simp) (registry_rings inv.rings t) list
    (by simp [moved, inv.off never]) ?_ rfl (inv.loop.call out list) id rfl rfl
  intro x mem
  simp only [moved, Function.update_self, List.mem_append, List.mem_singleton] at mem
  rcases mem with mem | rfl
  · exact inv.own x (List.mem_of_mem_erase mem)
  · exact never

theorem Inv.unregistry (inv : Inv autoDel put s L tr) (out : s.pc.Outside) (never : put t = false) :
    Inv autoDel put { s with mgr := Dispatch.unregistry s.mgr t } (fun k => (L k).erase t)
      (tr ++ [.unregistry t]) := by
  have list : (L .delayList).erase t = L .delayList := inv.off never (by simp)
  exact inv.still rfl rfl (by simp) (by simp) (by simp) (inv.rings.unlink t) list
    (inv.off never (by simp)) (fun x mem => inv.own x (List.mem_of_mem_erase mem)) rfl
    (inv.loop.call out list) id rfl rfl

theorem Inv.delay (inv : Inv autoDel put s L tr) (out : s.pc.Outside) (own : autoDel t = false)
    (hput : put t = true) : ∃ L', Inv autoDel put { s with mgr := Dispatch.delay s.mgr t } L'
      (tr ++ [.delay t (!listEmpty s.mgr.links (.item t))]) := by
  by_cases alone : listEmpty s.mgr.links (.item t) = true
  · have free := (inv.rings.empty_iff t).mp alone
    have offList : t ∉ waiting tr := by
      simp [inv.waiting_eq, free]
    rw [alone]
    apply inv.putOff out hput offList rfl s.created
    intro x auto
    have ne : x ≠ t := by
      rintro rfl
      simp [own] at auto
    simpa [ne] using inv.fresh x auto
  · have same : Dispatch.delay s.mgr t = s.mgr := by rw [Dispatch.delay, if_neg alone]
    simp only [alone, same, Bool.not_false]
    exact ⟨L, inv.still rfl rfl (by simp) (by simp) (by simp) inv.rings rfl rfl inv.own rfl inv.loop
      id rfl rfl⟩

theorem Inv.registryDelayTask (inv : Inv autoDel put s L tr) (out : s.pc.Outside)
    (auto : autoDel t = true) (fresh : s.created t = false) (hput : put t = true) :
    ∃ L', Inv autoDel put { s with
      mgr := Dispatch.registryDelayTask s.mgr t, created := Function.update s.created t true } L'
      (tr ++ [.registryDelayTask t]) := by
  have never : (delays tr).count t = 0 := by
    have bound := inv.fresh t auto
    simp only [fresh, Bool.false_eq_true, ↓reduceIte] at bound
    omega
  have offList : t ∉ waiting tr := fun mem =>
    List.count_eq_zero.mp never (List.mem_of_mem_drop mem)
  rw [registryDelayTask_eq inv.rings (inv.put_free hput offList)]
  apply inv.putOff out hput offList rfl
  intro x autox
  by_cases hx : x = t
  · simp [hx, never]
  · simpa [hx] using inv.fresh x autox

/-- The steps that only go on in the loops. -/
theorem Inv.goOn (inv : Inv autoDel put s L tr) {pc : Pc T} (hd : delayOf ev = none)
    (hr : runOf ev = none) (hf : ∀ t ret del, ev ≠ .finished t ret del) (hp : ev ≠ .phase)
    (hc : ∀ t, ev = .call t → put t = false) (loop : Looping autoDel put s.mgr L pc)
    (before : InPhase pc → InPhase s.pc) (same : running pc = running s.pc) :
    Inv autoDel put { s with pc := pc } L (tr ++ [ev]) :=
  inv.still hd hr hf hp hc inv.rings rfl rfl inv.own rfl loop before same rfl

theorem Inv.enter (inv : Inv autoDel put s L tr) (idle : s.pc = .idle) :
    Inv autoDel put { s with pc := Dispatch.enter s.mgr } L (tr ++ [.enter]) := by
  have loop : Looping autoDel put s.mgr L .idle := idle ▸ inv.loop
  refine inv.goOn rfl rfl (by simp) (by simp) (by simp) ?_ ?_ ?_ <;> unfold Dispatch.enter <;> dsimp only
  · split_ifs
    · exact ⟨loop, inv.own_next (.inl rfl), inv.own_next (inv.own_next (.inl rfl))⟩
    · exact loop
  · split_ifs <;> exact fun h => h.elim
  · split_ifs <;> simp [idle, running]

theorem Inv.calls (inv : Inv autoDel put s L tr) {n : Node Head T} {num : ℕ}
    (pc : s.pc = .atTask (.item t) n num) :
    Inv autoDel put { s with pc := .inTask t n num } L (tr ++ [.call t]) := by
  obtain ⟨empty, own, next⟩ : Looping autoDel put s.mgr L (.atTask (.item t) n num) := pc ▸ inv.loop
  have never : put t = false := by
    rcases own with h | ⟨x, h, never⟩
    · simp at h
    · cases h
      exact never
  refine inv.goOn rfl rfl (by simp) (by simp) ?_ ⟨empty, next⟩ (fun h => h.elim) (by simp [pc, running])
  rintro x ⟨⟩
  exact never

theorem Inv.ended (inv : Inv autoDel put s L tr) {n : Node Head T} {num : ℕ}
    (pc : s.pc = .atDelay (.head .delayList) n num) :
    Inv autoDel put { s with pc := .leaving num } L (tr ++ [.ended]) := by
  have loop : Looping autoDel put s.mgr L (.atDelay (.head .delayList) n num) := pc ▸ inv.loop
  have empty : L .delayList = [] := by
    cases hl : L .delayList with
    | nil => rfl
    | cons h rest => simp [Looping, hl, follow] at loop
  exact inv.goOn rfl rfl (by simp) (by simp) (by simp) empty (by simp [pc, InPhase])
    (by simp [pc, running])

theorem Inv.step (inv : Inv autoDel put s L tr) (step : Step autoDel s ev s')
    (only : Only put ev) (meets : Meets s ev) : ∃ L', Inv autoDel put s' L' (tr ++ [ev]) := by
  cases step with
  | registry t out own => exact ⟨_, inv.registry out only⟩
  | unregistry t out own => exact ⟨_, inv.unregistry out only⟩
  | delay t out own => exact inv.delay out own only
  | unregistryDelay t out own => exact only.elim
  | registryDelayTask t out auto fresh => exact inv.registryDelayTask out auto fresh only
  | enter idle => exact ⟨L, inv.enter idle⟩
  | call t n num pc => exact ⟨L, inv.calls pc⟩
  | returned t n num ret pc =>
    obtain ⟨empty, own⟩ : Looping autoDel put s.mgr L (.inTask t n num) := pc ▸ inv.loop
    exact ⟨L, inv.goOn rfl rfl (by simp) (by simp) (by simp) ⟨empty, own, inv.own_next own⟩
      (fun h => h.elim) (by simp [pc, running])⟩
  | looped n num pc =>
    have loop : Looping autoDel put s.mgr L (.atTask (.head .tasks) n num) := pc ▸ inv.loop
    exact ⟨L, inv.goOn rfl rfl (by simp) (by simp) (by simp) loop.1 (fun h => h.elim)
      (by simp [pc, running])⟩
  | phase num pc => exact inv.startPhase pc meets
  | run t n num pc => exact ⟨_, inv.run pc⟩
  | finished t n del num ret pc => exact ⟨L, inv.finish pc ret _⟩
  | ended n num pc => exact ⟨L, inv.ended pc⟩
  | leave num pc =>
    have loop : Looping autoDel put s.mgr L (.leaving num) := pc ▸ inv.loop
    exact ⟨L, inv.goOn rfl rfl (by simp) (by simp) (by simp) loop (fun h => h.elim)
      (by simp [pc, running])⟩

end Steps

section Runs

variable {autoDel put : T → Bool} {s : Sys T} {tr tr₁ tr₂ : List (Event T)} {ev : Event T} {t : T}

/-- Runs of a new dispatcher that put off the tasks marked by `put` only, and start every delay
phase as the condition has it. -/
def MeetsRun (autoDel put : T → Bool) : List (Event T) → Sys T → Prop :=
  Trace Sys.init fun s ev s' => Step autoDel s ev s' ∧ Only put ev ∧ Meets s ev

theorem inv_init (autoDel put : T → Bool) : Inv autoDel put Sys.init (fun _ => []) [] where
  rings := init_rings
  counter := rfl
  loop := rfl
  own := by simp
  others := by simp
  queue := rfl
  phase := by simp
  call := by simp
  finished := by simp [runs, finishes, Sys.init, running]
  fresh := by simp [delays]
  deleted := by simp

theorem MeetsRun.inv (run : MeetsRun autoDel put tr s) : ∃ L, Inv autoDel put s L tr := by
  apply run.invariant fun tr s => ∃ L, Inv autoDel put s L tr
  · exact ⟨_, inv_init autoDel put⟩
  · rintro tr s ev s' ⟨L, inv⟩ ⟨step, only, meets⟩
    exact inv.step step only meets

/-- Any order of rounds and of tasks that are put off, also by the tasks that run. -/
theorem run_delayed (run : MeetsRun autoDel put tr s) : Delayed autoDel put s tr := by
  obtain ⟨L, inv⟩ := run.inv
  constructor
  · exact ⟨_, _, inv.rings.circ _, inv.rings.circ _, inv.queue⟩
  · rintro tr₁ t linked tr₂ rfl
    obtain ⟨s₁, s₂, run₁, step, only, -⟩ := run.split
    obtain ⟨L₁, inv₁⟩ := MeetsRun.inv run₁
    have hput : put t = true := only
    cases step with
    | delay t out own =>
      have off := inv₁.put_free (t := t) hput
      rw [Bool.not_eq_true', ← Bool.not_eq_true, inv₁.rings.empty_iff]
      constructor
      · intro some
        by_contra none
        exact some (off none)
      · intro mem free
        rw [inv₁.waiting_eq, List.mem_append] at mem
        exact mem.elim (free _) (free _)
  · rintro tr₁ tr₂ num tr₃ split none
    have run' : MeetsRun autoDel put ((tr₁ ++ .phase :: tr₂) ++ .leave num :: tr₃) s := by
      simpa [split] using run
    obtain ⟨s₁, s₂, run₁, step, -⟩ := run'.split
    obtain ⟨L₁, inv₁⟩ := MeetsRun.inv run₁
    cases step with
    | leave _ pc =>
      have empty : L₁ .delayList = [] := by simpa [Looping, pc] using inv₁.loop
      simpa [empty] using inv₁.phase tr₁ tr₂ rfl none (by simp [pc, InPhase])
  · exact inv.call
  · exact inv.finished
  · rintro tr₁ t ret del tr₂ rfl
    have auto := inv.deleted t ret del (by simp)
    refine ⟨auto, fun hdel => ?_⟩
    have once := inv.fresh t (auto ▸ hdel)
    have finished := inv.finished t
    have queue := congrArg (List.count t) inv.queue
    have back : 0 < finishes t (tr₁ ++ .finished t ret del :: tr₂) :=
      List.countP_pos_iff.mpr ⟨.finished t ret del, by simp, by simp [isFinished]⟩
    rw [List.count_append] at queue
    split_ifs at once <;> omega
  · rintro t n num pc
    have loop := inv.loop
    simp only [Looping, pc] at loop
    cases hl : L .delayList with
    | nil =>
      obtain rfl : t = .head .delayList := by simpa [hl, follow] using loop.1
      exact ⟨_, _, .ended s n num pc⟩
    | cons h rest =>
      obtain rfl : t = .item h := by simpa [hl, follow] using loop.1
      exact ⟨_, _, .run s h n num pc⟩

theorem run_delayed_again : ∃ s : Sys ℕ,
    MeetsRun (fun _ => false) (fun _ => true)
      [.delay 0 false, .enter, .phase, .run 0, .delay 0 false, .finished 0 1 false, .ended, .leave 1]
      s ∧
    Delayed (fun _ => false) (fun _ => true) s
      [.delay 0 false, .enter, .phase, .run 0, .delay 0 false, .finished 0 1 false, .ended,
        .leave 1] := by
  have start : MeetsRun (fun _ => false) (fun _ => true) [] (Sys.init : Sys ℕ) := .init
  have delayed := start.step ⟨.delay _ 0 trivial rfl, rfl, trivial⟩
  have phase := (delayed.step ⟨.enter _ rfl, trivial, trivial⟩).step
    ⟨.phase _ 0 rfl, trivial, by
      rintro ds held zero
      have queue := Circular.unique held (show Circular _ _ [.item 0] from
        ⟨⟨rfl, rfl, rfl, rfl⟩, by simp⟩)
      have length := congrArg List.length queue
      rw [List.length_map] at length
      simp [length] at zero⟩
  have again := (phase.step ⟨.run _ 0 (.head .delayList) 0 rfl, trivial, trivial⟩).step
    ⟨.delay _ 0 trivial rfl, rfl, trivial⟩
  have ended := (again.step ⟨.finished _ 0 _ _ _ 1 rfl, trivial, trivial⟩).step
    ⟨.ended _ _ _ rfl, trivial, trivial⟩
  have left := ended.step ⟨.leave _ _ rfl, trivial, trivial⟩
  exact ⟨_, left, run_delayed left⟩

/-- A new dispatcher can be given any number of tasks. -/
theorem delay_many (n : ℕ) : ∃ s : Sys ℕ,
    Trace Sys.init (fun s ev s' => Step (fun _ => false) s ev s' ∧ Only (fun _ => true) ev)
      ((List.range n).map fun t => .delay t false) s ∧
    s.pc = .idle ∧ s.mgr.taskNum = 0 ∧ s.mgr.delayTaskNum = UInt32.ofNat n ∧
    Rings s.mgr.links (Function.update (fun _ => []) .delayTasks (List.range n)) := by
  induction n with
  | zero => exact ⟨Sys.init, .init, rfl, rfl, rfl, by simpa [Sys.init] using init_rings⟩
  | succ n ih =>
    obtain ⟨s, run, idle, taskNum, delayTaskNum, rings⟩ := ih
    have free : ∀ k, n ∉ Function.update (fun _ => []) Head.delayTasks (List.range n) k := by
      intro k
      by_cases hk : k = .delayTasks <;> simp [hk]
    have alone : listEmpty s.mgr.links (.item n) = true := (rings.empty_iff n).mpr free
    obtain ⟨rings', taskNum', delayTaskNum'⟩ := Dispatch.delay_free rings free
    have step : Step (fun _ => false) s (.delay n (!listEmpty s.mgr.links (.item n)))
        { s with mgr := delay s.mgr n } := .delay s n (by simp [idle, Pc.Outside]) rfl
    rw [alone] at step
    refine ⟨{ s with mgr := delay s.mgr n }, ?_, idle, taskNum'.trans taskNum, ?_, ?_⟩
    · rw [List.range_succ, List.map_append]
      exact run.step ⟨step, rfl⟩
    · simp [delayTaskNum', delayTaskNum]
    · simpa [List.range_succ] using rings'

/-- A round that counts 2^32 tasks that have been put off runs none of them. -/
theorem round_skipped : ¬ ∀ (tr : List (Event ℕ)) (s : Sys ℕ),
    Trace Sys.init (fun s ev s' => Step (fun _ => false) s ev s' ∧ Only (fun _ => true) ev) tr s →
      Delayed (fun _ => false) (fun _ => true) s tr := by
  intro all
  obtain ⟨n, pos, zero⟩ : ∃ n, 0 < n ∧ UInt32.ofNat n = 0 := ⟨2 ^ 32, by decide, by decide⟩
  obtain ⟨s, run, idle, taskNum, delayTaskNum, -⟩ := delay_many n
  have entered := run.step ⟨.enter s idle, trivial⟩
  have guarded : enter s.mgr = .guard 0 := by simp [enter, taskNum]
  have phase := entered.step ⟨.phase _ 0 guarded, trivial⟩
  have skipped : guardDelay s.mgr 0 = (s.mgr, .leaving 0) :=
    guardDelay_skip (delayTaskNum.trans zero) 0
  have left := phase.step ⟨.leave _ 0 (by simp [skipped]), trivial⟩
  have round := (all _ _ left).round (((List.range n).map fun t => .delay t false) ++ [.enter]) []
    0 [] (by simp) (by simp)
  have first : 0 ∈ delays (((List.range n).map fun t => .delay t false) ++ [.enter]) := by
    refine List.mem_filterMap.mpr ⟨.delay 0 false, ?_, rfl⟩
    simpa using pos
  rw [← round] at first
  simp [runs, runOf] at first

end Runs

end Conet.Core.DispatchRounds
