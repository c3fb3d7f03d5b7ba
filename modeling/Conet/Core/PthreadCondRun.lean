/- Module: Conet/Core/PthreadCondRun
   source: core/src/pthread_hook.cpp
   digest: Waits, signals, expiries and drains of the schedule queue in any order. -/

import Conet.Core.PthreadCond

set_option autoImplicit false
set_option relaxedAutoImplicit false

namespace Conet.Core.PthreadCondRun

open Conet.Lib Conet.Base.ListHead Conet.Base.Llist Conet.Core.PthreadCond

universe u v w

variable {K : Type u} {C : Type v} {M : Type w} [DecidableEq K] [DecidableEq C] [DecidableEq M]

/-- Where `ctx` points in the loop of `pcond_event_cb`: `container_of` of a null pointer, of the
address of the local variable `queue`, or of the node of a real context. -/
inductive Cursor (C : Type v)
  | null
  | queueVar
  | ctx (c : C)

def Cursor.ofNode : Option C → Cursor C
  | none => .null
  | some c => .ctx c

/-- The system and the loop cursor of `pcond_event_cb`. -/
structure Visit (K : Type u) (C : Type v) (M : Type w) where
  sys : Sys K C M
  pos : Cursor C

/-- One turn of the loop in `pcond_event_cb` on thread `m`. Around the variable `queue` there is no
`pcond_ctx_t`, so `cancel_timeout(&ctx->tm)` and `resume(ctx->co)` have no meaning there. -/
def visitTurn (m : M) (v : Visit K C M) : Turn (Visit K C M) (Sys K C M) :=
  match v.pos with
  | .null => .leave v.sys
  | .queueVar => .undefined
  | .ctx c => .again
      { sys := { v.sys with
          linkToSchedule := Function.update v.sys.linkToSchedule c none
          armed := Function.update v.sys.armed c false
          resumed := Function.update v.sys.resumed m (v.sys.resumed m ++ [c]) }
        pos := .ofNode (v.sys.linkToSchedule c) }

/-- `pthread_mgr_t::pcond_event_cb` of thread `m`, with a bound on the turns of its loops. The
macro is given `&queue`, so the loop starts at the variable and not at the node it points to. -/
def pcondEventCb (s : Sys K C M) (m : M) (fuel : Nat) : Outcome (Sys K C M) :=
  if s.scheduleFirst m = none then .returned s
  else match Loop.run reverseTurn fuel
      (llistReverseOrder s.linkToSchedule (s.scheduleFirst m)) with
    | .returned (next, _) => Loop.run (visitTurn m) fuel
        ⟨{ s with
            linkToSchedule := next
            scheduleFirst := Function.update s.scheduleFirst m none }, .queueVar⟩
    | .undefined => .undefined
    | .running => .running

inductive Step (K : Type u) (C : Type v) (M : Type w)
  | wait (c : C) (k : K) (m : M)
  | signal (k : K)
  | expire (c : C)
  | drain (m : M)

/-- A call is made once, and the wheel fires only handles that are armed. -/
def Enabled (s : Sys K C M) : Step K C M → Prop
  | .wait c _ _ => s.started c = false
  | .expire c => s.armed c = true
  | _ => True

/-- The step runs to its end and leaves `s'`. -/
def Does (s : Sys K C M) : Step K C M → Sys K C M → Prop
  | .wait c k m, s' => s' = pthreadCondTimedwait s c k m
  | .signal k, s' => ∃ t, SignalHelp s k true t ∧ s' = t.sys
  | .expire c, s' => s' = procPthreadCondTimeout s c
  | .drain m, s' => ∃ fuel, pcondEventCb s m fuel = .returned s'

/-- The queue of every thread is a chain without repetition of the contexts pushed on it and not
resumed yet, contexts are resumed in the order they were pushed, each is pushed at most once in
its life, and only on the queue of its own thread. -/
def Sound (s : Sys K C M) : Prop :=
  ∀ m, ∃ q, Chain s.linkToSchedule (s.scheduleFirst m) q ∧ q.Nodup ∧
    s.resumed m ++ q.reverse = s.scheduled m ∧ (s.scheduled m).Nodup ∧
    ∀ c ∈ s.scheduled m, s.pmgr c = m

/-- A drain leaves nothing queued: everything pushed has been resumed. -/
def Drained (s' : Sys K C M) : Step K C M → Prop
  | .drain m => s'.scheduleFirst m = none ∧ s'.resumed m = s'.scheduled m
  | _ => True

/-- Every step of the run is one that can happen. -/
def Possible : Sys K C M → List (Step K C M) → Prop
  | _, [] => True
  | s, st :: rest => Enabled s st ∧ ∀ s', Does s st s' → Possible s' rest

/-- Every step comes to its end, every state on the way is sound, and every drain is complete. -/
def SoundRun : Sys K C M → List (Step K C M) → Prop
  | s, [] => Sound s
  | s, st :: rest => Sound s ∧ (∃ s', Does s st s') ∧
      ∀ s', Does s st s' → Drained s' st ∧ SoundRun s' rest

/-- What a step must find for the code to do its work: nothing queued at a drain, and no timer
expiring for a context that a signal has queued already. -/
def Meets (s : Sys K C M) : Step K C M → Prop
  | .expire c => c ∉ s.scheduled (s.pmgr c)
  | .drain m => s.scheduleFirst m = none
  | _ => True

/-- Every step of the run meets its condition. -/
def MeetsAll : Sys K C M → List (Step K C M) → Prop
  | _, [] => True
  | s, st :: rest => Meets s st ∧ ∀ s', Does s st s' → MeetsAll s' rest

/-- What every step that meets its condition keeps: the wait lists `ws` and the queues `q` hold,
a context hangs on nothing or on its wait list, and a waiting context has not been queued. -/
structure Inv (s : Sys K C M) (ws : K → List C) (q : M → List C) : Prop extends Holds s ws q where
  alone : ∀ c, (∀ k, c ∉ ws k) → Circular s.links (.item c) []
  log : ∀ m, s.resumed m ++ (q m).reverse = s.scheduled m
  nodup : ∀ m, (s.scheduled m).Nodup
  owner : ∀ m, ∀ c ∈ s.scheduled m, s.pmgr c = m
  begun : ∀ m, ∀ c ∈ s.scheduled m, s.started c = true
  waits : ∀ k, ∀ c ∈ ws k, s.started c = true ∧ c ∉ s.scheduled (s.pmgr c)
  timed : ∀ c, s.armed c = true → s.started c = true

section Step

variable {s s' : Sys K C M} {ws : K → List C} {q : M → List C} {c : C} {k : K} {m : M}

omit [DecidableEq K] [DecidableEq C] [DecidableEq M] in
theorem Inv.sound (inv : Inv s ws q) : Sound s := fun m =>
  ⟨q m, inv.chain m, (inv.chain m).nodup, inv.log m, inv.nodup m, inv.owner m⟩

omit [DecidableEq K] [DecidableEq C] [DecidableEq M] in
theorem Inv.queue_subset (inv : Inv s ws q) (hc : c ∈ q m) : c ∈ s.scheduled m := by
  rw [← inv.log m]
  exact List.mem_append_right _ (List.mem_reverse.mpr hc)

omit [DecidableEq K] [DecidableEq C] [DecidableEq M] in
/-- A context that has not been pushed on its own thread's queue is in no queue. -/
theorem Inv.fresh (inv : Inv s ws q) (hc : c ∉ s.scheduled (s.pmgr c)) (m : M) : c ∉ q m := by
  intro hq
  have hs := inv.queue_subset hq
  exact hc (inv.owner m c hs ▸ hs)

omit [DecidableEq K] [DecidableEq C] [DecidableEq M] in
theorem inv_init (pmgr : C → M) : Inv (init pmgr : Sys K C M) (fun _ => []) (fun _ => []) where
  waiting := fun _ => Circular.nil_iff.mpr ⟨rfl, rfl⟩
  notify := Circular.nil_iff.mpr ⟨rfl, rfl⟩
  chain := fun _ => rfl
  apart := by simp
  alone := fun _ _ => Circular.nil_iff.mpr ⟨rfl, rfl⟩
  log := by simp [init]
  nodup := by simp [init]
  owner := by simp [init]
  begun := by simp [init]
  waits := by simp
  timed := by simp [init]

omit [DecidableEq C] [DecidableEq M] in
theorem Inv.one_list {k' : K} (inv : Inv s ws q) (hc : c ∈ ws k) (hc' : c ∈ ws k') : k' = k := by
  by_contra hne
  have apart : Node.waitList k' ∉ Node.waitList k :: (ws k).map (Node.item (K := K)) := by
    simpa using hne
  exact (inv.waiting k).disjoint (inv.waiting k') apart
    (z := .item c) (by simpa using hc') (by simpa using hc)

omit [DecidableEq M] in
theorem Inv.wait (inv : Inv s ws q) (hc : s.started c = false) (k : K) (m : M) :
    Inv (pthreadCondTimedwait s c k m) (Function.update ws k (ws k ++ [c])) q := by
  have notIn : ∀ k, c ∉ ws k := fun k hk => by simpa [hc] using (inv.waits k c hk).1
  have notPushed : ∀ m, c ∉ s.scheduled m := fun m hm => by simpa [hc] using inv.begun m c hm
  have alone := inv.alone c notIn
  have links : (pthreadCondTimedwait s c k m).links =
      listAddTail s.links (.item c) (.waitList k) := by
    simp [pthreadCondTimedwait, initListHead_of_nil alone]
  have keep : ∀ a zs, Circular s.links a zs → a ∉ Node.waitList k :: (ws k).map .item →
      a ≠ .item c → Circular (listAddTail s.links (.item c) (.waitList k)) a zs :=
    fun a zs circ apart hne => listAddTail_frame (inv.waiting k) circ apart
      (alone.notMem_of_nil circ hne)
  constructor
  · constructor
    · intro k'
      rw [links]
      by_cases he : k' = k
      · subst he
        simpa using listAddTail_circular (inv.waiting k') (n := .item c) (by simpa using notIn k')
      · simpa [Function.update_of_ne he] using
          keep _ _ (inv.waiting k') (by simpa using he) (by simp)
    · rw [links]
      exact keep _ _ inv.notify (by simp) (by simp)
    · exact inv.chain
    · intro k' c' m' hc'
      rcases eq_or_ne c' c with rfl | hne
      · exact fun hq => notPushed m' (inv.queue_subset hq)
      · refine inv.apart k' c' m' ?_
        by_cases he : k' = k
        · subst he
          simpa [hne] using hc'
        · simpa [Function.update_of_ne he] using hc'
  · intro c' hc'
    rw [links]
    have hne : c' ≠ c := fun e => hc' k (by simp [e])
    have old : ∀ k', c' ∉ ws k' := by
      intro k' hk'
      refine hc' k' ?_
      by_cases he : k' = k
      · subst he
        simp [hk']
      · simpa [Function.update_of_ne he] using hk'
    exact keep _ _ (inv.alone c' old) (by simpa using old k) (by simpa using hne)
  · exact inv.log
  · exact inv.nodup
  · intro m' c' hm'
    have hne : c' ≠ c := fun e => notPushed m' (e ▸ hm')
    simpa [pthreadCondTimedwait, Function.update_of_ne hne] using inv.owner m' c' hm'
  · intro m' c' hm'
    have hne : c' ≠ c := fun e => notPushed m' (e ▸ hm')
    simpa [pthreadCondTimedwait, Function.update_of_ne hne] using inv.begun m' c' hm'
  · intro k' c' hk'
    rcases eq_or_ne c' c with rfl | hne
    · exact ⟨by simp [pthreadCondTimedwait], notPushed _⟩
    · have old : c' ∈ ws k' := by
        by_cases he : k' = k
        · subst he
          simpa [hne] using hk'
        · simpa [Function.update_of_ne he] using hk'
      simpa [pthreadCondTimedwait, Function.update_of_ne hne] using inv.waits k' c' old
  · intro c' hc'
    rcases eq_or_ne c' c with rfl | hne
    · simp [pthreadCondTimedwait]
    · simp only [pthreadCondTimedwait, Function.update_of_ne hne] at hc' ⊢
      exact inv.timed c' hc'

/-- Pushing a context that has not been queued before, once it hangs on nothing. -/
theorem Inv.push (inv : Inv s ws q) (links : Links (Node K C)) (ws' : K → List C)
    (hc : c ∉ s.scheduled (s.pmgr c)) (started : s.started c = true)
    (waiting : ∀ k, Circular links (.waitList k) ((ws' k).map .item))
    (notify : Circular links .notifyQueue [])
    (alone : ∀ c, (∀ k, c ∉ ws' k) → Circular links (.item c) [])
    (left : ∀ k, ∀ d ∈ ws' k, d ∈ ws k ∧ d ≠ c) :
    Inv { addToPcondSchedule s c with links := links } ws'
      (Function.update q (s.pmgr c) (c :: q (s.pmgr c))) := by
  have pushed : ∀ m, ∀ d, d ∈ (addToPcondSchedule s c).scheduled m →
      d ∈ s.scheduled m ∨ d = c ∧ m = s.pmgr c := by
    intro m d hd
    by_cases hm : m = s.pmgr c
    · subst hm
      simpa [addToPcondSchedule, or_comm] using hd
    · exact Or.inl (by simpa [addToPcondSchedule, Function.update_of_ne hm] using hd)
  constructor
  · refine ⟨waiting, notify, ?_, ?_⟩
    · intro m
      have chain := addToPcondSchedule_chain inv.chain (inv.fresh hc) m
      by_cases hm : m = s.pmgr c
      · subst hm
        simpa using chain
      · simpa [Function.update_of_ne hm, Ne.symm hm] using chain
    · intro k d m hd
      obtain ⟨old, hne⟩ := left k d hd
      by_cases hm : m = s.pmgr c
      · subst hm
        simpa [hne] using inv.apart k d _ old
      · simpa [Function.update_of_ne hm] using inv.apart k d m old
  · exact alone
  · intro m
    by_cases hm : m = s.pmgr c
    · subst hm
      simp [addToPcondSchedule, ← inv.log]
    · simpa [addToPcondSchedule, Function.update_of_ne hm] using inv.log m
  · intro m
    by_cases hm : m = s.pmgr c
    · subst hm
      have := List.nodup_append.mpr ⟨inv.nodup (s.pmgr c), List.nodup_singleton c, by
        intro a ha b hb e
        exact hc (by simpa [e, List.mem_singleton.mp hb] using ha)⟩
      simpa [addToPcondSchedule] using this
    · simpa [addToPcondSchedule, Function.update_of_ne hm] using inv.nodup m
  · intro m d hd
    rcases pushed m d hd with old | ⟨rfl, rfl⟩
    · exact inv.owner m d old
    · rfl
  · intro m d hd
    rcases pushed m d hd with old | ⟨rfl, rfl⟩
    · exact inv.begun m d old
    · exact started
  · intro k d hd
    obtain ⟨old, hne⟩ := left k d hd
    refine ⟨(inv.waits k d old).1, fun hs => ?_⟩
    rcases pushed _ d hs with hs | ⟨rfl, -⟩
    · exact (inv.waits k d old).2 hs
    · exact hne rfl
  · exact inv.timed

theorem Inv.signal (inv : Inv s ws q) (k : K) :
    (∃ s', Does s (.signal k) s') ∧
      ∀ s', Does s (.signal k) s' → ∃ ws' q', Inv s' ws' q' := by
  cases hk : ws k with
  | nil =>
    refine ⟨⟨s, ⟨s, 0⟩, (signalHelp_empty inv.toHolds hk true).mpr rfl, rfl⟩, ?_⟩
    rintro s' ⟨t, help, rfl⟩
    obtain rfl := (signalHelp_empty inv.toHolds hk true).mp help
    exact ⟨ws, q, inv⟩
  | cons c cs =>
    obtain ⟨links, help, rest, notify, alone, keep⟩ := signal_one inv.toHolds hk
    refine ⟨⟨_, _, help, rfl⟩, ?_⟩
    rintro s' ⟨t, help', rfl⟩
    obtain rfl := ((signalHelp_nonempty inv.toHolds (by simp [hk]) true).mp help').unique
      ((signalHelp_nonempty inv.toHolds (by simp [hk]) true).mp help)
    have hc : c ∈ ws k := by simp [hk]
    have nodup : (c :: cs).Nodup := by
      have := (inv.waiting k).nodup_tail.of_map
      rwa [hk] at this
    refine ⟨Function.update ws k cs, _, inv.push links _ (inv.waits k c hc).2
      (inv.waits k c hc).1 ?_ notify ?_ ?_⟩
    · intro k'
      by_cases he : k' = k
      · subst he
        simpa using rest
      · simpa [Function.update_of_ne he] using
          keep _ _ (inv.waiting k') (by simpa using he) (by simp)
    · intro d hd
      rcases eq_or_ne d c with rfl | hne
      · exact alone
      · have hcs : d ∉ cs := by simpa using hd k
        have old : ∀ k', d ∉ ws k' := by
          intro k'
          by_cases he : k' = k
          · subst he
            simp [hk, hne, hcs]
          · simpa [Function.update_of_ne he] using hd k'
        exact keep _ _ (inv.alone d old) (by simp [hne, hcs]) (by simp)
    · intro k' d hd
      by_cases he : k' = k
      · subst he
        have hd : d ∈ cs := by simpa using hd
        exact ⟨by simp [hk, hd], fun e => (List.nodup_cons.mp nodup).1 (e ▸ hd)⟩
      · have hd : d ∈ ws k' := by simpa [Function.update_of_ne he] using hd
        exact ⟨hd, fun e => he (inv.one_list hc (e ▸ hd))⟩

theorem Inv.expire (inv : Inv s ws q) (armed : s.armed c = true)
    (hc : c ∉ s.scheduled (s.pmgr c)) :
    ∃ ws' q', Inv (procPthreadCondTimeout s c) ws' q' := by
  set s₀ : Sys K C M := { s with
    armed := Function.update s.armed c false
    retTimeout := Function.update s.retTimeout c true } with hs₀
  have inv₀ : Inv s₀ ws q :=
    { inv with
      timed := by
        intro d hd
        rcases eq_or_ne d c with rfl | hne
        · exact inv.timed d armed
        · exact inv.timed d (by simpa [hs₀, Function.update_of_ne hne] using hd) }
  by_cases linked : ∃ k, c ∈ ws k
  · obtain ⟨k, hk⟩ := linked
    obtain ⟨xs, ys, hxy⟩ := List.append_of_mem hk
    have circ : Circular s₀.links (.waitList k) (xs.map .item ++ .item c :: ys.map .item) := by
      simpa [hxy] using inv₀.waiting k
    have nodup : (xs ++ c :: ys).Nodup := by
      have := (inv₀.waiting k).nodup_tail.of_map
      rwa [hxy] at this
    have hnot : c ∉ xs ++ ys := (List.nodup_cons.mp (List.perm_middle.nodup_iff.mp nodup)).1
    have mem : Node.item c ∈ Node.waitList k :: (ws k).map (Node.item (K := K)) := by
      simpa using hk
    have final : procPthreadCondTimeout s c =
        { addToPcondSchedule s₀ c with links := listDelInit s₀.links (.item c) } := by
      rw [← addToPcondSchedule_links circ]
      rfl
    rw [final]
    refine ⟨Function.update ws k (xs ++ ys), _, inv₀.push _ _ hc (inv.timed c armed) ?_ ?_ ?_ ?_⟩
    · intro k'
      by_cases he : k' = k
      · subst he
        simpa using listDelInit_circular circ
      · simpa [Function.update_of_ne he] using
          listDelInit_frame (inv₀.waiting k) mem (inv₀.waiting k') (by simpa using he)
    · exact listDelInit_frame (inv₀.waiting k) mem inv₀.notify (by simp)
    · intro d hd
      rcases eq_or_ne d c with rfl | hne
      · exact listDelInit_self _ _
      · have old : ∀ k', d ∉ ws k' := by
          intro k'
          by_cases he : k' = k
          · subst he
            have := hd k'
            simp only [Function.update_self, List.mem_append, not_or] at this
            simp [hxy, hne, this]
          · simpa [Function.update_of_ne he] using hd k'
        exact listDelInit_frame (inv₀.waiting k) mem (inv₀.alone d old) (by simpa using old k)
    · intro k' d hd
      by_cases he : k' = k
      · subst he
        have hd : d ∈ xs ++ ys := by simpa using hd
        refine ⟨?_, fun e => hnot (e ▸ hd)⟩
        rw [hxy]
        exact (List.perm_middle.mem_iff).mpr (List.mem_cons_of_mem _ hd)
      · have hd : d ∈ ws k' := by simpa [Function.update_of_ne he] using hd
        exact ⟨hd, fun e => he (inv.one_list hk (e ▸ hd))⟩
  · have apart : ∀ k, c ∉ ws k := fun k hk => linked ⟨k, hk⟩
    have final : procPthreadCondTimeout s c = { addToPcondSchedule s₀ c with links := s₀.links } := by
      rw [← addToPcondSchedule_links_alone (inv₀.alone c apart)]
      rfl
    rw [final]
    exact ⟨ws, _, inv₀.push _ _ hc (inv.timed c armed) inv₀.waiting inv₀.notify inv₀.alone
      fun k d hd => ⟨hd, fun e => apart k (e ▸ hd)⟩⟩

end Step

theorem drain_returns_iff (s s' : Sys K C M) (m : M) :
    Does s (.drain m) s' ↔ s.scheduleFirst m = none ∧ s' = s := by
  constructor
  · rintro ⟨fuel, run⟩
    by_cases empty : s.scheduleFirst m = none
    · exact ⟨empty, by simpa [pcondEventCb, empty, eq_comm] using run⟩
    · exfalso
      rw [pcondEventCb, if_neg empty] at run
      -- the loop's first turn works on the variable `queue`
      split at run
      · cases fuel <;> simp [Loop.run, visitTurn] at run
      · simp at run
      · simp at run
  · rintro ⟨empty, rfl⟩
    exact ⟨0, by simp [pcondEventCb, empty]⟩

/-- A run does all the hooked condition variables promise exactly when no drain finds a context
queued and no timer expires for a context already queued. -/
theorem soundRun_iff_of_inv {s : Sys K C M} {ws : K → List C} {q : M → List C}
    (steps : List (Step K C M)) (inv : Inv s ws q) (possible : Possible s steps) :
    SoundRun s steps ↔ MeetsAll s steps := by
  induction steps generalizing s ws q with
  | nil => exact iff_of_true inv.sound trivial
  | cons st rest ih =>
    obtain ⟨enabled, possible⟩ := possible
    cases st with
    | wait c k m =>
      have next := ih (inv.wait enabled k m) (possible _ rfl)
      constructor
      · rintro ⟨-, -, run⟩
        exact ⟨trivial, fun s' hs' => hs' ▸ next.mp (run _ rfl).2⟩
      · rintro ⟨-, run⟩
        exact ⟨inv.sound, ⟨_, rfl⟩, fun s' hs' => ⟨trivial, hs' ▸ next.mpr (run _ rfl)⟩⟩
    | signal k =>
      obtain ⟨total, keeps⟩ := inv.signal k
      constructor
      · rintro ⟨-, -, run⟩
        refine ⟨trivial, fun s' hs' => ?_⟩
        obtain ⟨ws', q', inv'⟩ := keeps s' hs'
        exact (ih inv' (possible s' hs')).mp (run s' hs').2
      · rintro ⟨-, run⟩
        refine ⟨inv.sound, total, fun s' hs' => ⟨trivial, ?_⟩⟩
        obtain ⟨ws', q', inv'⟩ := keeps s' hs'
        exact (ih inv' (possible s' hs')).mpr (run s' hs')
    | expire c =>
      have meets_of : SoundRun (procPthreadCondTimeout s c) rest →
          c ∉ s.scheduled (s.pmgr c) := by
        intro run hc
        have sound : Sound (procPthreadCondTimeout s c) := by
          cases rest with
          | nil => exact run
          | cons _ _ => exact run.1
        obtain ⟨q', -, -, -, nodup, -⟩ := sound (s.pmgr c)
        simp only [procPthreadCondTimeout, addToPcondSchedule, Function.update_self] at nodup
        exact (List.nodup_append.mp nodup).2.2 c hc c (by simp) rfl
      constructor
      · rintro ⟨-, -, run⟩
        have fresh := meets_of (run _ rfl).2
        obtain ⟨ws', q', inv'⟩ := inv.expire enabled fresh
        exact ⟨fresh, fun s' hs' => hs' ▸ (ih inv' (possible _ rfl)).mp (run _ rfl).2⟩
      · rintro ⟨fresh, run⟩
        obtain ⟨ws', q', inv'⟩ := inv.expire enabled fresh
        exact ⟨inv.sound, ⟨_, rfl⟩, fun s' hs' =>
          ⟨trivial, hs' ▸ (ih inv' (possible _ rfl)).mpr (run _ rfl)⟩⟩
    | drain m =>
      constructor
      · rintro ⟨-, ⟨s', hs'⟩, run⟩
        obtain ⟨empty, rfl⟩ := (drain_returns_iff s s' m).mp hs'
        refine ⟨empty, fun s'' hs'' => ?_⟩
        obtain ⟨-, rfl⟩ := (drain_returns_iff _ s'' m).mp hs''
        exact (ih inv (possible _ hs'')).mp (run _ hs'').2
      · rintro ⟨empty, run⟩
        have hq : q m = [] := ((inv.chain m).none_iff).mp empty
        refine ⟨inv.sound, ⟨s, (drain_returns_iff s s m).mpr ⟨empty, rfl⟩⟩, fun s' hs' => ?_⟩
        obtain ⟨-, rfl⟩ := (drain_returns_iff s s' m).mp hs'
        refine ⟨⟨empty, ?_⟩, (ih inv (possible _ hs')).mpr (run _ hs')⟩
        simpa [hq] using inv.log m

/-- Any sequence of waits, signals, expiries and drains, from a program that has not waited yet. -/
theorem pcond_soundRun_iff (pmgr : C → M) (steps : List (Step K C M))
    (possible : Possible (init pmgr) steps) :
    SoundRun (init pmgr) steps ↔ MeetsAll (init pmgr) steps :=
  soundRun_iff_of_inv steps (inv_init pmgr) possible

/-- Two waits on one condition variable, a drain with nothing queued, and then the first wait expires and
the second is signalled. -/
def twoWaits : List (Step Nat Nat Nat) :=
  [.wait 0 0 0, .wait 1 0 0, .drain 0, .expire 0, .signal 0]

theorem pcond_soundRun_twoWaits : SoundRun (init fun _ => 0) twoWaits := by
  refine (pcond_soundRun_iff (fun _ => 0) twoWaits ?_).mpr ?_
  · refine ⟨rfl, ?_⟩
    rintro _ rfl
    refine ⟨rfl, ?_⟩
    rintro _ rfl
    refine ⟨trivial, fun s drained => ?_⟩
    obtain ⟨-, rfl⟩ := (drain_returns_iff _ s 0).mp drained
    refine ⟨rfl, ?_⟩
    rintro _ rfl
    exact ⟨trivial, fun _ _ => trivial⟩
  · refine ⟨trivial, ?_⟩
    rintro _ rfl
    refine ⟨trivial, ?_⟩
    rintro _ rfl
    refine ⟨rfl, fun s drained => ?_⟩
    obtain ⟨-, rfl⟩ := (drain_returns_iff _ s 0).mp drained
    refine ⟨List.not_mem_nil, ?_⟩
    rintro _ rfl
    exact ⟨trivial, fun _ _ => trivial⟩

/-- One waiter is signalled: the drain that should resume it has no defined behaviour, and if its
timer expires before the drain its context is queued a second time. -/
theorem pcond_signal_then_drain_or_expire :
    ¬ SoundRun (init (fun _ : Nat => 0) : Sys Nat Nat Nat) [.wait 0 0 0, .signal 0, .drain 0] ∧
    ¬ SoundRun (init (fun _ : Nat => 0) : Sys Nat Nat Nat) [.wait 0 0 0, .signal 0, .expire 0] := by
  have signalled : ∃ s', Does oneWaiting (.signal 0) s' ∧ s'.scheduleFirst 0 = some 0 ∧
      s'.scheduled 0 = [0] ∧ s'.pmgr 0 = 0 :=
    ⟨_, ⟨_, ⟨2, rfl⟩, rfl⟩, rfl, rfl, rfl⟩
  obtain ⟨s', does, first, pushed, owner⟩ := signalled
  constructor
  · rintro ⟨-, -, run⟩
    obtain ⟨-, -, -, run⟩ := run oneWaiting rfl
    obtain ⟨-, -, ⟨s'', drained⟩, -⟩ := run s' does
    have empty := ((drain_returns_iff s' s'' 0).mp drained).1
    simp [first] at empty
  · rintro ⟨-, -, run⟩
    obtain ⟨-, -, -, run⟩ := run oneWaiting rfl
    obtain ⟨-, -, -, run⟩ := run s' does
    obtain ⟨-, sound⟩ := run _ rfl
    obtain ⟨q, -, -, -, nodup, -⟩ := sound 0
    simp [procPthreadCondTimeout, addToPcondSchedule, owner, pushed] at nodup

end Conet.Core.PthreadCondRun
