/- Module: Conet/Core/CoroutineRun
   source: core/src/coroutine.cpp
   digest: Any order of resumes, yields and ends of coroutines: the stack of those that resumed. -/

import Conet.Core.Coroutine

set_option autoImplicit false
set_option relaxedAutoImplicit false

namespace Conet.Core.CoroutineRun

open Conet.Lib Conet.Base.ListHead Conet.Base.ListRings Conet.Core.Coroutine

universe u v

variable {C : Type u} {W : Type v} [DecidableEq C] [DecidableEq W]

inductive Event (C : Type u) (W : Type v)
  | resumed (cur co : C)
  | yielded (cur : C) (waitTo : Option (Head C W))
  | returned (cur : C)

/-- The coroutines whose `resume` has not been returned from, the last one first. -/
def pending : List (Event C W) → List C :=
  List.foldl (fun stack ev => match ev with
    | .resumed cur _ => cur :: stack
    | .yielded _ _ => stack.tail
    | .returned _ => stack.tail) []

/-- The list that a coroutine passed to its last `yield`. -/
def lastWait (co : C) : List (Event C W) → Option (Head C W) :=
  List.foldl (fun last ev => match ev with
    | .yielded cur waitTo => if cur = co then waitTo else last
    | _ => last) none

inductive Run (main : C) (isEndDelete : C → Bool) : List (Event C W) → Env C W → Prop
  | init : Run main isEndDelete [] (Env.init main isEndDelete)
  | resume {tr : List (Event C W)} {e : Env C W} (run : Run main isEndDelete tr e) (co : C)
      (val : Val C) (idle : e.state co = .create ∨ e.state co = .suspend) :
      Run main isEndDelete (tr ++ [.resumed e.currCo co]) (resume e co val)
  | yield {tr : List (Event C W)} {e e' : Env C W} (run : Run main isEndDelete tr e)
      (waitTo : Option (Head C W)) (val : Val C) (ne : e.currCo ≠ main)
      (list : ∀ k, waitTo = some k → k.IsWaitList) (yields : yield e waitTo val = some e') :
      Run main isEndDelete (tr ++ [.yielded e.currCo waitTo]) e'
  | ret {tr : List (Event C W)} {e e' : Env C W} (run : Run main isEndDelete tr e) (ret : ℤ)
      (ne : e.currCo ≠ main) (ends : coMainHelper2 e ret = some e') :
      Run main isEndDelete (tr ++ [.returned e.currCo]) e'

/-- The list `k` is the one that `co` passed to its last `yield`, or the queue that has taken that
list over when the coroutine it belongs to ended. -/
def Passed (e : Env C W) (tr : List (Event C W)) (co : C) (k : Head C W) : Prop :=
  lastWait co tr = some k ∨
    ∃ c, k = .notifier c ∧ lastWait co tr = some (.exitNotifyQueue c) ∧ e.state c = .stop

/-- A jump back: control goes to the coroutine that made the last `resume` not returned from, and
there this `resume` goes on. -/
def GoesBack (tr : List (Event C W)) (e' : Option (Env C W)) : Prop :=
  ∃ next cur rest, e' = some next ∧ pending tr = cur :: rest ∧ next.currCo = cur ∧
    next.point = some .resume

/-- What holds from the first resume on. -/
structure Switching (e : Env C W) (tr : List (Event C W)) : Prop where
  queue : ∃ q, Holds e.links .runQueue q ∧ q.Nodup ∧ e.currCo ∉ q ∧
    (e.currCo ≠ e.main → q.head? = some e.main) ∧
    ∀ co, e.state co = .running ↔ co = e.currCo ∨ co ∈ q
  linked : ∀ co k, e.state co = .suspend → Linked e.links k co →
    Passed e tr co k ∧ ∀ k', Linked e.links k' co → k' = k
  yields : e.currCo ≠ e.main → ∀ waitTo val, GoesBack tr (yield e waitTo val)
  ends : e.currCo ≠ e.main → ∀ ret, GoesBack tr (coMainHelper2 e ret)

/-- The running coroutine on top of those that resumed; `main` starts out in the run queue. -/
structure Inv (e : Env C W) (L : Head C W → List C) (tr : List (Event C W)) : Prop where
  rings : Rings e.links L
  queue : (L .runQueue).erase e.currCo = (pending tr).reverse
  apart : tr ≠ [] → e.currCo ∉ L .runQueue
  nodup : (e.currCo :: pending tr).Nodup
  bottom : (e.currCo :: pending tr).getLast (by simp) = e.main
  running : ∀ co, e.state co = .running ↔ co ∈ e.currCo :: pending tr
  waiting : ∀ k co, co ∈ L k → k ≠ .runQueue → e.state co = .suspend ∧ Passed e tr co k
  saved : ∀ co ∈ pending tr, e.fctx co = some .resume
  notifier : ∀ co, e.state co ≠ .stop → L (.notifier co) = []

section Traces

variable {tr : List (Event C W)} {co cur c : C} {waitTo : Option (Head C W)}

omit [DecidableEq C] [DecidableEq W] in
@[simp] theorem pending_resumed : pending (tr ++ [.resumed cur co]) = cur :: pending tr := by
  simp [pending]

omit [DecidableEq C] [DecidableEq W] in
@[simp] theorem pending_yielded : pending (tr ++ [.yielded cur waitTo]) = (pending tr).tail := by
  simp [pending]

omit [DecidableEq C] [DecidableEq W] in
@[simp] theorem pending_returned : pending (tr ++ [.returned cur]) = (pending tr).tail := by
  simp [pending]

omit [DecidableEq W] in
@[simp] theorem lastWait_resumed : lastWait c (tr ++ [.resumed cur co]) = lastWait c tr := by
  simp [lastWait]

omit [DecidableEq W] in
@[simp] theorem lastWait_yielded :
    lastWait c (tr ++ [.yielded cur waitTo]) = if cur = c then waitTo else lastWait c tr := by
  simp [lastWait]

omit [DecidableEq W] in
@[simp] theorem lastWait_returned : lastWait c (tr ++ [.returned cur]) = lastWait c tr := by
  simp [lastWait]

end Traces

section Steps

variable {e e' : Env C W} {L : Head C W → List C} {tr : List (Event C W)} {co last : C}
  {rest : List C} {waitTo : Option (Head C W)}

theorem inv_init (main : C) (isEndDelete : C → Bool) :
    Inv (Env.init main isEndDelete : Env C W)
      (Function.update (fun _ => []) .runQueue [main]) [] where
  rings := init_rings main isEndDelete
  queue := by simp [Env.init, pending]
  apart := by simp
  nodup := by simp [pending]
  bottom := rfl
  running := by
    intro co
    by_cases hco : co = main <;> simp [Env.init, pending, hco]
  waiting := by
    intro k co hco hk
    simp [hk] at hco
  saved := by simp [pending]
  notifier := by simp

omit [DecidableEq W] in
theorem Inv.cur_running (inv : Inv e L tr) : e.state e.currCo = .running :=
  (inv.running _).mpr (by simp)

omit [DecidableEq W] in
theorem Inv.waiting_ne_cur (inv : Inv e L tr) {k : Head C W} (hco : co ∈ L k)
    (hk : k ≠ .runQueue) : co ≠ e.currCo := by
  rintro rfl
  have suspended := (inv.waiting k _ hco hk).1
  simp [inv.cur_running] at suspended

omit [DecidableEq W] in
/-- After the first resume the running coroutine hangs on nothing. -/
theorem Inv.free (inv : Inv e L tr) (started : tr ≠ []) (k : Head C W) : e.currCo ∉ L k := by
  by_cases hk : k = .runQueue
  · exact hk ▸ inv.apart started
  · exact fun hco => inv.waiting_ne_cur hco hk rfl

omit [DecidableEq W] in
theorem Inv.queue_eq (inv : Inv e L tr) (started : tr ≠ []) :
    L .runQueue = (pending tr).reverse := by
  rw [← inv.queue, List.erase_of_not_mem (inv.apart started)]

omit [DecidableEq W] in
theorem Inv.pending_of_ne (inv : Inv e L tr) (ne : e.currCo ≠ e.main) :
    ∃ last rest, pending tr = last :: rest ∧ tr ≠ [] ∧ L .runQueue = rest.reverse ++ [last] := by
  cases stack : pending tr with
  | nil =>
    have bottom := inv.bottom
    simp only [stack, List.getLast_singleton] at bottom
    exact absurd bottom ne
  | cons last rest =>
    have started : tr ≠ [] := by
      rintro rfl
      simp [pending] at stack
    refine ⟨last, rest, rfl, started, ?_⟩
    rw [inv.queue_eq started, stack, List.reverse_cons]

theorem Inv.resume (inv : Inv e L tr) (idle : e.state co = .create ∨ e.state co = .suspend)
    (val : Val C) :
    Inv (resume e co val) (relinked (fun k => (L k).erase co) e.currCo .runQueue)
      (tr ++ [.resumed e.currCo co]) := by
  have quiet : e.state co ≠ .running ∧ e.state co ≠ .stop := by
    rcases idle with h | h <;> simp [h]
  have fresh : co ∉ e.currCo :: pending tr := fun h => quiet.1 ((inv.running co).mpr h)
  have off : co ∉ (L .runQueue).erase e.currCo := by
    rw [inv.queue]
    simpa using fun h => fresh (List.mem_cons_of_mem _ h)
  have ne : e.currCo ≠ co := fun h => fresh (by simp [h])
  have queue : ((L .runQueue).erase co).erase e.currCo = (pending tr).reverse := by
    rw [List.erase_comm, List.erase_of_not_mem off, inv.queue]
  -- a coroutine on a wait list stays there unless it is the one resumed
  have kept : ∀ k c, c ∈ relinked (fun k => (L k).erase co) e.currCo .runQueue k → k ≠ .runQueue →
      c ∈ L k ∧ c ≠ co := by
    intro k c hc hk
    simp only [relinked, Function.update_of_ne hk] at hc
    have hc' := List.mem_of_mem_erase hc
    exact ⟨List.mem_of_mem_erase hc', fun h => inv.rings.notMem_erase co k (h ▸ hc')⟩
  constructor
  · exact resume_rings inv.rings co val
  · have notin : co ∉ (pending tr).reverse ++ [e.currCo] := by
      simpa [and_comm, ne.symm] using fun h => fresh (List.mem_cons_of_mem _ h)
    simp [relinked, queue, Coroutine.resume, List.erase_of_not_mem notin]
  · intro _
    have notin : co ∉ (pending tr).reverse ++ [e.currCo] := by
      simpa [and_comm, ne.symm] using fun h => fresh (List.mem_cons_of_mem _ h)
    simpa [relinked, queue, Coroutine.resume] using notin
  · rw [pending_resumed]
    exact List.nodup_cons.mpr ⟨fresh, inv.nodup⟩
  · simpa [Coroutine.resume] using inv.bottom
  · intro c
    rw [pending_resumed]
    by_cases hc : c = co
    · simp [Coroutine.resume, hc]
    · simpa [Coroutine.resume, hc] using inv.running c
  · intro k c hc hk
    obtain ⟨old, hne⟩ := kept k c hc hk
    obtain ⟨suspended, passed⟩ := inv.waiting k c old hk
    refine ⟨by simpa [Coroutine.resume, hne] using suspended, ?_⟩
    rcases passed with passed | ⟨c', hk', passed, stopped⟩
    · exact .inl (by simpa using passed)
    · have hne' : c' ≠ co := fun h => quiet.2 (h ▸ stopped)
      exact .inr ⟨c', hk', by simpa using passed, by simpa [Coroutine.resume, hne'] using stopped⟩
  · intro c hc
    rw [pending_resumed] at hc
    by_cases hcur : c = e.currCo
    · simp [Coroutine.resume, hcur]
    · have old : c ∈ pending tr := by simpa [hcur] using hc
      have hne : c ≠ co := fun h => fresh (by simp [← h, old])
      have saved := inv.saved c old
      unfold Coroutine.resume
      split_ifs <;> simp [hcur, hne, saved]
  · intro c hc
    have live : e.state c ≠ .stop := by
      by_cases hco : c = co
      · exact hco ▸ quiet.2
      · simpa [Coroutine.resume, hco] using hc
    simp [relinked, inv.notifier c live]

omit [DecidableEq W] in
/-- What does not run is neither the running coroutine nor the one that resumed it. -/
theorem Inv.idle (inv : Inv e L tr) (stack : pending tr = last :: rest) {c : C}
    (idle : e.state c ≠ .running) : c ≠ last ∧ c ≠ e.currCo := by
  constructor <;> rintro rfl
  · exact idle ((inv.running _).mpr (by simp [stack]))
  · exact idle inv.cur_running

omit [DecidableEq W] in
/-- The coroutine that resumed the running one goes on, whichever way control is given up. -/
theorem Inv.popped {L' : Head C W → List C} {tr' : List (Event C W)} {s : State}
    {point : Option Point} (inv : Inv e L tr) (stack : pending tr = last :: rest)
    (split : L .runQueue = rest.reverse ++ [last]) (left : pending tr' = rest)
    (currCo : e'.currCo = last) (main : e'.main = e.main)
    (state : e'.state = Function.update (Function.update e.state e.currCo s) last .running)
    (given : s ≠ .running) (fctx : e'.fctx = Function.update e.fctx e.currCo point)
    (rings : Rings e'.links L') (runQueue : L' .runQueue = (L .runQueue).erase last)
    (waiting : ∀ k c, c ∈ L' k → k ≠ .runQueue → e'.state c = .suspend ∧ Passed e' tr' c k)
    (notifier : ∀ c, e'.state c ≠ .stop → L (.notifier c) = [] → L' (.notifier c) = []) :
    Inv e' L' tr' := by
  have nodup := inv.nodup
  rw [stack] at nodup
  obtain ⟨cur_notin, nodup'⟩ := List.nodup_cons.mp nodup
  obtain ⟨last_notin, -⟩ := List.nodup_cons.mp nodup'
  have ne : e.currCo ≠ last := fun h => cur_notin (by simp [h])
  have queue : L' .runQueue = rest.reverse := by
    rw [runQueue, split, List.erase_append_right _ (by simpa using last_notin)]
    simp
  constructor
  · exact rings
  · rw [queue, left, currCo]
    exact List.erase_of_not_mem (by simpa using last_notin)
  · intro _
    rw [queue, currCo]
    simpa using last_notin
  · simpa [currCo, left] using nodup'
  · have bottom := inv.bottom
    simp only [stack] at bottom
    simpa [currCo, main, left] using bottom
  · intro c
    rw [left, currCo, state]
    by_cases hlast : c = last
    · simp [hlast]
    by_cases hcur : c = e.currCo
    · have : e.currCo ∉ rest := fun h => cur_notin (List.mem_cons_of_mem _ h)
      simp [hcur, ne, this, given]
    · simpa [hlast, hcur, stack] using inv.running c
  · exact waiting
  · intro c hc
    rw [left] at hc
    have hne : c ≠ e.currCo := by
      rintro rfl
      exact cur_notin (List.mem_cons_of_mem _ hc)
    rw [fctx, Function.update_of_ne hne]
    exact inv.saved c (by rw [stack]; exact List.mem_cons_of_mem _ hc)
  · intro c hc
    refine notifier c hc (inv.notifier c fun stopped => hc ?_)
    obtain ⟨hlast, hcur⟩ := inv.idle stack (c := c) (by simp [stopped])
    simp [state, hlast, hcur, stopped]

theorem Inv.yieldTo (inv : Inv e L tr) (stack : pending tr = last :: rest)
    (split : L .runQueue = rest.reverse ++ [last]) (started : tr ≠ [])
    (list : ∀ k, waitTo = some k → k.IsWaitList) (val : Val C) :
    Inv (yieldTo e last (listDelInit e.links (.item last)) waitTo val)
      (yieldLists L e.currCo last waitTo) (tr ++ [.yielded e.currCo waitTo]) := by
  have ne : e.currCo ≠ last := by
    have nodup := inv.nodup
    rw [stack, List.nodup_cons] at nodup
    exact fun h => nodup.1 (by simp [h])
  have off : ∀ k, e.currCo ∉ (L k).erase last := fun k h =>
    inv.free started k (List.mem_of_mem_erase h)
  set L' := yieldLists L e.currCo last waitTo with hL'
  -- off the list that was passed everything is as before
  have others : ∀ k, waitTo ≠ some k → L' k = (L k).erase last := by
    intro k hk
    cases waitTo with
    | none => rfl
    | some k' =>
      have hne : k ≠ k' := fun h => hk (by rw [h])
      simp only [hL', yieldLists, relinked, Function.update_of_ne hne]
      exact List.erase_of_not_mem (off k)
  refine inv.popped stack split (by simp [stack]) rfl rfl rfl (by simp) rfl
    (yieldTo_rings inv.rings last waitTo val) (others .runQueue fun h => list .runQueue h) ?_ ?_
  · intro k c hc hk
    by_cases hcur : c = e.currCo
    · -- the running coroutine hangs on what it passed
      subst hcur
      have passed : waitTo = some k := by
        by_contra hne
        rw [others k hne] at hc
        exact off k hc
      exact ⟨by simp [Coroutine.yieldTo, ne], .inl (by simp [passed])⟩
    · have old : c ∈ L k := by
        by_cases passed : waitTo = some k
        · subst passed
          have : c ∈ ((L k).erase last).erase e.currCo ++ [e.currCo] := by
            simpa [hL', yieldLists, relinked] using hc
          rw [List.mem_append, List.mem_singleton, or_iff_left hcur] at this
          exact List.mem_of_mem_erase (List.mem_of_mem_erase this)
        · rw [others k passed] at hc
          exact List.mem_of_mem_erase hc
      obtain ⟨suspended, passed⟩ := inv.waiting k c old hk
      have hlast : c ≠ last := (inv.idle stack (by simp [suspended])).1
      refine ⟨by simpa [Coroutine.yieldTo, hlast, hcur] using suspended, ?_⟩
      rcases passed with passed | ⟨c', hk', passed, stopped⟩
      · exact .inl (by simpa [Ne.symm hcur] using passed)
      · have hne := inv.idle stack (c := c') (by simp [stopped])
        exact .inr ⟨c', hk', by simpa [Ne.symm hcur] using passed,
          by simpa [Coroutine.yieldTo, hne.1, hne.2] using stopped⟩
  · intro c _ idle
    rw [others (.notifier c) fun h => list (.notifier c) h, idle]
    rfl

theorem Inv.ended (inv : Inv e L tr) (stack : pending tr = last :: rest)
    (split : L .runQueue = rest.reverse ++ [last]) {ret : ℤ}
    (ended : Ended e e' last ret (L (.exitNotifyQueue e.currCo)))
    (rings : Rings e'.links (fun k => (handedOver L e.currCo k).erase last)) :
    Inv e' (fun k => (handedOver L e.currCo k).erase last) (tr ++ [.returned e.currCo]) := by
  have ne : e.currCo ≠ last := by
    have nodup := inv.nodup
    rw [stack, List.nodup_cons] at nodup
    exact fun h => nodup.1 (by simp [h])
  -- only the notifier of `curr_co` and the queue of its end change
  have others : ∀ k, k ≠ .notifier e.currCo → k ≠ .exitNotifyQueue e.currCo →
      handedOver L e.currCo k = L k := by
    intro k hn hq
    unfold handedOver
    split_ifs
    · rfl
    · rw [Function.update_of_ne hn, Function.update_of_ne hq]
  have still : ∀ c, e.state c ≠ .running → e'.state c = e.state c := by
    intro c idle
    obtain ⟨hlast, hcur⟩ := inv.idle stack idle
    simp [ended.state, hlast, hcur]
  refine inv.popped stack split (by simp [stack]) ended.currCo ended.main ended.state (by simp)
    ended.fctx rings (by rw [others .runQueue (by simp) (by simp)]) ?_ ?_
  · intro k c hc hk
    -- a coroutine that waits for the end of `curr_co` is handed over with the whole list
    have old : c ∈ L k ∨ k = .notifier e.currCo ∧ c ∈ L (.exitNotifyQueue e.currCo) := by
      have hc := List.mem_of_mem_erase hc
      by_cases hn : k = .notifier e.currCo
      · subst hn
        unfold handedOver at hc
        split_ifs at hc with idle
        · exact .inl hc
        · exact .inr ⟨rfl, by simpa using hc⟩
      by_cases hq : k = .exitNotifyQueue e.currCo
      · subst hq
        unfold handedOver at hc
        split_ifs at hc with idle
        · exact .inl hc
        · simp at hc
      · rw [others k hn hq] at hc
        exact .inl hc
    have suspended : e.state c = .suspend := by
      rcases old with old | ⟨-, old⟩
      · exact (inv.waiting k c old hk).1
      · exact (inv.waiting _ c old (by simp)).1
    refine ⟨by rw [still c (by simp [suspended]), suspended], ?_⟩
    rcases old with old | ⟨rfl, old⟩
    · rcases (inv.waiting k c old hk).2 with passed | ⟨c', hk', passed, stopped⟩
      · exact .inl (by simpa using passed)
      · exact .inr ⟨c', hk', by simpa using passed, by rw [still c' (by simp [stopped]), stopped]⟩
    · rcases (inv.waiting _ c old (by simp)).2 with passed | ⟨c', hk', -, -⟩
      · exact .inr ⟨e.currCo, rfl, by simpa using passed, by simp [ended.state, ne]⟩
      · simp at hk'
  · intro c live idle
    have hne : c ≠ e.currCo := by
      rintro rfl
      exact live (by simp [ended.state, ne])
    show (handedOver L e.currCo (.notifier c)).erase last = []
    rw [others (.notifier c) (by simp [hne]) (by simp), idle]
    rfl

/-- What the steps do to a list other than the run queue. -/
theorem Inv.resume_lists (inv : Inv e L tr) (co : C) {k : Head C W} (hk : k ≠ .runQueue) :
    relinked (fun k => (L k).erase co) e.currCo .runQueue k = (L k).erase co := by
  rw [relinked, Function.update_of_ne hk]
  exact List.erase_of_not_mem fun h =>
    inv.waiting_ne_cur (List.mem_of_mem_erase h) hk rfl

omit [DecidableEq W] in
theorem Inv.last_free (inv : Inv e L tr) (stack : pending tr = last :: rest) {k : Head C W}
    (hk : k ≠ .runQueue) : last ∉ L k := by
  intro hlast
  have suspended := (inv.waiting k last hlast hk).1
  simp [(inv.running last).mpr (by simp [stack])] at suspended

theorem Inv.yield_lists (inv : Inv e L tr) (stack : pending tr = last :: rest) {k : Head C W}
    (hk : k ≠ .runQueue) :
    yieldLists L e.currCo last waitTo k = if waitTo = some k then L k ++ [e.currCo] else L k := by
  have off : e.currCo ∉ L k := fun h => inv.waiting_ne_cur h hk rfl
  have popped : (L k).erase last = L k := List.erase_of_not_mem (inv.last_free stack hk)
  cases waitTo with
  | none => simpa [yieldLists] using popped
  | some k' =>
    by_cases hk' : k' = k
    · subst hk'
      simp [yieldLists, relinked, popped, List.erase_of_not_mem off]
    · simp [yieldLists, relinked, Function.update_of_ne (Ne.symm hk'), popped, hk',
        List.erase_of_not_mem off]

theorem Inv.ended_lists (inv : Inv e L tr) (stack : pending tr = last :: rest) {k : Head C W}
    (hk : k ≠ .runQueue) : (handedOver L e.currCo k).erase last = handedOver L e.currCo k := by
  apply List.erase_of_not_mem
  unfold handedOver
  split_ifs
  · exact inv.last_free stack hk
  · by_cases hn : k = .notifier e.currCo
    · subst hn
      simpa using inv.last_free stack (k := .exitNotifyQueue e.currCo) (by simp)
    · rw [Function.update_of_ne hn]
      by_cases hq : k = .exitNotifyQueue e.currCo
      · simp [hq]
      · rw [Function.update_of_ne hq]
        exact inv.last_free stack hk

/-- Off `main` both ways of giving control up succeed. -/
theorem Inv.back (inv : Inv e L tr) (ne : e.currCo ≠ e.main) :
    (∀ waitTo val, GoesBack tr (yield e waitTo val)) ∧
      ∀ ret, GoesBack tr (coMainHelper2 e ret) := by
  obtain ⟨last, rest, stack, started, split⟩ := inv.pending_of_ne ne
  have saved : e.fctx last = some .resume := inv.saved last (by simp [stack])
  constructor
  · intro waitTo val
    exact ⟨_, last, rest, yield_eq inv.rings split waitTo val, stack, rfl, saved⟩
  · intro ret
    have idle : L (.notifier e.currCo) = [] := inv.notifier _ (by simp [inv.cur_running])
    obtain ⟨e', ends, ended, -⟩ := coMainHelper2_ended inv.rings split (inv.free started) idle ret
    exact ⟨e', last, rest, ends, stack, ended.currCo, ended.point.trans saved⟩

theorem Inv.switching (inv : Inv e L tr) (started : tr ≠ []) : Switching e tr where
  queue := by
    refine ⟨L .runQueue, inv.rings.circ _, inv.rings.nodup _, inv.apart started, ?_, ?_⟩
    · intro ne
      have bottom := inv.bottom
      obtain ⟨last, rest, stack, -⟩ := inv.pending_of_ne ne
      rw [inv.queue_eq started, List.head?_reverse, stack]
      simp only [stack] at bottom
      rw [List.getLast_cons (by simp)] at bottom
      rw [← bottom, List.getLast?_eq_getLast_of_ne_nil (by simp)]
    · intro co
      rw [inv.running, inv.queue_eq started]
      simp
  linked := by
    intro co k suspended linked
    have hco := inv.rings.linked_iff.mp linked
    have hk : k ≠ .runQueue := by
      rintro rfl
      rw [inv.queue_eq started] at hco
      have running := (inv.running co).mpr (List.mem_cons_of_mem _ (List.mem_reverse.mp hco))
      simp [running] at suspended
    exact ⟨(inv.waiting k co hco hk).2, fun k' linked' =>
      (inv.rings.disjoint hco (inv.rings.linked_iff.mp linked')).symm⟩
  yields := fun ne => (inv.back ne).1
  ends := fun ne => (inv.back ne).2

end Steps

section Runs

variable {main : C} {isEndDelete : C → Bool} {e : Env C W} {tr : List (Event C W)}

theorem Run.inv (run : Run main isEndDelete tr e) : e.main = main ∧ ∃ L, Inv e L tr := by
  induction run with
  | init => exact ⟨rfl, _, inv_init main isEndDelete⟩
  | resume run co val idle ih =>
    obtain ⟨same, L, inv⟩ := ih
    exact ⟨same, _, inv.resume idle val⟩
  | @yield tr e e' run waitTo val ne list yields ih =>
    obtain ⟨same, L, inv⟩ := ih
    obtain ⟨last, rest, stack, started, split⟩ := inv.pending_of_ne (same.symm ▸ ne)
    rw [yield_eq inv.rings split] at yields
    obtain rfl := Option.some.inj yields
    exact ⟨same, _, inv.yieldTo stack split started list val⟩
  | @ret tr e e' run ret ne ends ih =>
    obtain ⟨same, L, inv⟩ := ih
    obtain ⟨last, rest, stack, started, split⟩ := inv.pending_of_ne (same.symm ▸ ne)
    have idle : L (.notifier e.currCo) = [] := inv.notifier _ (by simp [inv.cur_running])
    obtain ⟨e'', ends', ended, rings⟩ :=
      coMainHelper2_ended inv.rings split (inv.free started) idle ret
    obtain rfl : e'' = e' := Option.some.inj (ends'.symm.trans ends)
    exact ⟨ended.main.trans same, _, inv.ended stack split ended rings⟩

/-- Any order of resumes, yields and ends, from a fresh environment on. -/
theorem run_switching (run : Run main isEndDelete tr e) (started : tr ≠ []) : Switching e tr := by
  obtain ⟨-, L, inv⟩ := run.inv
  exact inv.switching started

end Runs

section Examples

/-- Coroutine 1 waits for the end of coroutine 2, which is resumed next. -/
def waited : Env ℕ Unit :=
  resume (yieldTo (resume (Env.init 0 fun _ => false) 1 (.num 0)) 0
    (listDelInit (resume (Env.init 0 fun _ => false : Env ℕ Unit) 1 (.num 0)).links (.item 0))
    (some (.exitNotifyQueue 2)) (.num 0)) 2 (.num 0)

theorem waited_run : Run 0 (fun _ => false)
    [.resumed 0 1, .yielded 1 (some (.exitNotifyQueue 2)), .resumed 0 2] waited := by
  have start : Run 0 (fun _ => false) [] (Env.init 0 fun _ => false : Env ℕ Unit) := .init
  have first := start.resume 1 (.num 0) (.inl rfl)
  have second := first.yield (some (.exitNotifyQueue 2)) (.num 0) (by decide)
    (by rintro k ⟨⟩; trivial) rfl
  exact second.resume 2 (.num 0) (.inl rfl)

theorem run_switching_waited :
    Run 0 (fun _ => false) [.resumed 0 1, .yielded 1 (some (.exitNotifyQueue 2)), .resumed 0 2]
      waited ∧
    Switching waited [.resumed 0 1, .yielded 1 (some (.exitNotifyQueue 2)), .resumed 0 2] :=
  ⟨waited_run, run_switching waited_run (by simp)⟩

/-- When coroutine 2 ends, coroutine 1 hangs on the queue of the notifier, which it has not passed
to `yield`. -/
theorem waiter_on_notifier : ¬ ∀ (tr : List (Event ℕ Unit)) (e : Env ℕ Unit),
    Run 0 (fun _ => false) tr e → tr ≠ [] → ∀ co k, e.state co = .suspend →
      Linked e.links k co → lastWait co tr = some k := by
  intro all
  obtain ⟨e, ends⟩ : ∃ e, coMainHelper2 waited 0 = some e := ⟨_, rfl⟩
  have run := waited_run.ret 0 (by decide) ends
  obtain rfl := Option.some.inj ends
  have linked := all _ _ run (by simp) 1 (.notifier 2) rfl
    ⟨[1], ⟨⟨rfl, rfl, rfl, rfl⟩, by simp⟩, by simp⟩
  cases linked

end Examples

end Conet.Core.CoroutineRun
