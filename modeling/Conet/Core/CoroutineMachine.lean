/- Module: Conet/Core/CoroutineMachine
   source: core/src/coroutine.cpp, core/src/jump_x86_64_sysv_elf_gas.s
   digest: The coroutines of a thread on the machine: control goes to the point that the model says. -/

import Conet.Core.CoroutineRun
import Conet.Core.FcontextRun

set_option autoImplicit false
set_option relaxedAutoImplicit false

namespace Conet.Core.CoroutineMachine

open Conet.Lib Conet.Lib.X86 Conet.Base.ListHead Conet.Core.Coroutine Conet.Core.Fcontext
open Conet.Core.FcontextRun

universe u v

variable {C : Type u} {W : Type v} [DecidableEq C] [DecidableEq W]

/-- The addresses of the compiled code: the entry of `co_main_helper2` and the instructions after
the three calls of `jump_fcontext`. And what a `void *` is in a register. -/
structure Code (C : Type u) where
  point : Point → Word
  val : Val C → Word

/-- The operations of `coroutine.cpp` that switch, with the point where they leave. -/
inductive Switch : Env C W → CoroutineRun.Event C W → Env C W → Point → Prop
  | resume {e : Env C W} (co : C) (val : Val C)
      (idle : e.state co = .create ∨ e.state co = .suspend) :
      Switch e (.resumed e.currCo co) (resume e co val) .resume
  | yield {e e' : Env C W} (waitTo : Option (Head C W)) (val : Val C) (ne : e.currCo ≠ e.main)
      (list : ∀ k, waitTo = some k → k.IsWaitList) (yields : yield e waitTo val = some e') :
      Switch e (.yielded e.currCo waitTo) e' .yield
  | ret {e e' : Env C W} (ret : ℤ) (ne : e.currCo ≠ e.main)
      (ends : coMainHelper2 e ret = some e') :
      Switch e (.returned e.currCo) e' .coReturn

variable (lay : Layout C) (finish : Word) (code : Code C) (main : C) (isEndDelete : C → Bool)

/-- A thread and the machine it runs on: each switch of the one is a jump of the other. -/
inductive Thread : List (CoroutineRun.Event C W) → Env C W → List (FcontextRun.Event C) →
    World C → Prop
  | init (m : X86.State) : Thread [] (Env.init main isEndDelete) [] (World.init m main)
  | ran {tr : List (CoroutineRun.Event C W)} {e : Env C W} {mtr : List (FcontextRun.Event C)}
      {w w' : World C} (thread : Thread tr e mtr w) (step : Step lay finish w .ran w') :
      Thread tr e (mtr ++ [.ran]) w'
  | freed {tr : List (CoroutineRun.Event C W)} {e : Env C W} {mtr : List (FcontextRun.Event C)}
      {w w' : World C} {co : C} (thread : Thread tr e mtr w)
      (step : Step lay finish w (.freed co) w') : Thread tr e (mtr ++ [.freed co]) w'
  | made {tr : List (CoroutineRun.Event C W)} {e : Env C W} {mtr : List (FcontextRun.Event C)}
      {w w' : World C} {co : C} {c : Context} (thread : Thread tr e mtr w)
      (create : e.state co = .create) (entry : c.rip = code.point .start)
      (step : Step lay finish w (.made co c) w') : Thread tr e (mtr ++ [.made co c]) w'
  | switched {tr : List (CoroutineRun.Event C W)} {e e' : Env C W}
      {mtr : List (FcontextRun.Event C)} {w w' : World C} {ev : CoroutineRun.Event C W} {p : Point}
      {c : Context} (thread : Thread tr e mtr w) (switch : Switch e ev e' p)
      (left : c.rip = code.point p)
      (step : Step lay finish w (.jumped e'.currCo (code.val e'.val) c) w') :
      Thread (tr ++ [ev]) e' (mtr ++ [.jumped e'.currCo (code.val e'.val) c]) w'

/-- The machine holds the contexts that the model says are saved. -/
structure Sync (e : Env C W) (w : World C) : Prop where
  cur : w.contexts.cur = e.currCo
  live : e.state e.currCo ≠ .create
  point : ∀ co, co ≠ e.currCo → e.state co ≠ .create →
    ∃ p, e.fctx co = some p ∧ ∀ c, w.contexts.saved co = some c → c.rip = code.point p
  start : ∀ co c, e.state co = .create → w.contexts.saved co = some c → c.rip = code.point .start

variable {lay : Layout C} {finish : Word} {code : Code C} {main : C} {isEndDelete : C → Bool}
  {tr : List (CoroutineRun.Event C W)} {e e' : Env C W} {mtr : List (FcontextRun.Event C)}
  {w w' : World C} {ev : CoroutineRun.Event C W} {p : Point} {c : Context} {co : C}

/-- What a switch does to the contexts of the model. -/
structure Switched (e e' : Env C W) (p : Point) : Prop where
  other : e'.currCo ≠ e.currCo
  fctx : ∀ co, co ≠ e.currCo → co ≠ e'.currCo → e'.fctx co = e.fctx co
  left : e'.fctx e.currCo = some p
  point : e'.point = if e.state e'.currCo = .create then some .start else e.fctx e'.currCo
  created : ∀ co, e'.state co = .create ↔ e.state co = .create ∧ co ≠ e'.currCo

omit [DecidableEq W] in
/-- A switch back to `last`, which has made the last `resume` not returned from. -/
theorem switched_back {L : Head C W → List C} {last : C} {rest : List C} {state : Coroutine.State}
    (inv : CoroutineRun.Inv e L tr) (stack : CoroutineRun.pending tr = last :: rest)
    (gone : state ≠ .create) (cur : e'.currCo = last)
    (states : e'.state = Function.update (Function.update e.state e.currCo state) last .running)
    (fctx : e'.fctx = Function.update e.fctx e.currCo (some p)) (point : e'.point = e.fctx last) :
    Switched e e' p := by
  have nodup := inv.nodup
  rw [stack] at nodup
  have ne : last ≠ e.currCo := fun h => (List.nodup_cons.mp nodup).1 (by simp [h])
  have running : e.state last = .running := (inv.running last).mpr (by simp [stack])
  constructor
  · exact cur ▸ ne
  · intro co other _
    rw [fctx, Function.update_of_ne other]
  · rw [fctx, Function.update_self]
  · rw [cur, point, running]
    rfl
  · intro co
    rw [states, cur]
    by_cases here : co = last
    · simp [here]
    by_cases leaves : co = e.currCo
    · simp [leaves, ne.symm, gone, inv.cur_running]
    · simp [here, leaves]

theorem Switch.switched (run : CoroutineRun.Run main isEndDelete tr e) (switch : Switch e ev e' p) :
    Switched e e' p := by
  obtain ⟨-, L, inv⟩ := run.inv
  cases switch with
  | resume co val idle =>
    have ne : co ≠ e.currCo := by
      rintro rfl
      simp [inv.cur_running] at idle
    constructor
    · exact ne
    · intro d other entered
      unfold Coroutine.resume at entered ⊢
      split_ifs <;> simp [other, entered]
    · simp [Coroutine.resume]
    · by_cases create : e.state co = .create <;> simp [Coroutine.resume, create]
    · intro d
      by_cases here : d = co <;> simp [Coroutine.resume, here]
  | yield waitTo val ne list yields =>
    obtain ⟨last, rest, stack, started, split⟩ := inv.pending_of_ne ne
    rw [yield_eq inv.rings split] at yields
    obtain rfl := Option.some.inj yields
    have gone : Coroutine.State.suspend ≠ .create := by decide
    exact switched_back inv stack gone rfl rfl rfl rfl
  | ret ret ne ends =>
    obtain ⟨last, rest, stack, started, split⟩ := inv.pending_of_ne ne
    have idle : L (.notifier e.currCo) = [] := inv.notifier _ (by simp [inv.cur_running])
    obtain ⟨e'', ends', ended, -⟩ :=
      coMainHelper2_ended inv.rings split (inv.free started) idle ret
    obtain rfl : e'' = e' := Option.some.inj (ends'.symm.trans ends)
    exact switched_back inv stack (by simp) ended.currCo ended.state ended.fctx ended.point

theorem Thread.run (thread : Thread lay finish code main isEndDelete tr e mtr w) :
    CoroutineRun.Run main isEndDelete tr e ∧
      ∃ m, Trace (World.init m main) (Step lay finish) mtr w := by
  induction thread with
  | init m => exact ⟨.init, m, .init⟩
  | ran _ step ih => exact ⟨ih.1, ih.2.imp fun _ run => run.step step⟩
  | freed _ step ih => exact ⟨ih.1, ih.2.imp fun _ run => run.step step⟩
  | made _ create entry step ih => exact ⟨ih.1, ih.2.imp fun _ run => run.step step⟩
  | switched _ switch left step ih =>
    refine ⟨?_, ih.2.imp fun _ run => run.step step⟩
    have same := ih.1.inv.1
    cases switch with
    | resume co val idle => exact ih.1.resume co val idle
    | yield waitTo val ne list yields => exact ih.1.yield waitTo val (same ▸ ne) list yields
    | ret ret ne ends => exact ih.1.ret ret (same ▸ ne) ends

omit [DecidableEq C] [DecidableEq W] in
theorem Sync.fewer (sync : Sync code e w) (cur : w'.contexts.cur = w.contexts.cur)
    (less : ∀ co c, w'.contexts.saved co = some c → w.contexts.saved co = some c) :
    Sync code e w' where
  cur := cur.trans sync.cur
  live := sync.live
  point co other live := (sync.point co other live).imp fun _ point =>
    ⟨point.1, fun c saved => point.2 c (less co c saved)⟩
  start co c create saved := sync.start co c create (less co c saved)

omit [DecidableEq W] in
theorem Sync.switched (sync : Sync code e w) (switched : Switched e e' p) {val : Word}
    (left : c.rip = code.point p) (step : Step lay finish w (.jumped e'.currCo val c) w') :
    Sync code e' w' := by
  have contexts := step.contexts
  have saved : ∀ co, co ≠ e'.currCo → w'.contexts.saved co =
      if co = e.currCo then some c else w.contexts.saved co := by
    intro co other
    by_cases leaves : co = e.currCo <;>
      simp [contexts, Contexts.step, sync.cur, other, leaves, switched.other.symm]
  constructor
  · simp [contexts, Contexts.step]
  · simp [switched.created]
  · intro co other live
    rw [saved co other]
    by_cases leaves : co = e.currCo
    · subst leaves
      rw [if_pos rfl]
      exact ⟨p, switched.left, fun d same => Option.some.inj same ▸ left⟩
    · have before : e.state co ≠ .create := fun create =>
        live ((switched.created co).mpr ⟨create, other⟩)
      rw [switched.fctx co leaves other, if_neg leaves]
      exact sync.point co leaves before
  · intro co d create there
    obtain ⟨before, other⟩ := (switched.created co).mp create
    have leaves : co ≠ e.currCo := by
      rintro rfl
      exact sync.live before
    rw [saved co other, if_neg leaves] at there
    exact sync.start co d before there

theorem Thread.sync (thread : Thread lay finish code main isEndDelete tr e mtr w) :
    Sync code e w := by
  induction thread with
  | init m =>
    constructor
    · rfl
    · simp [Env.init]
    · intro co other live
      have other : co ≠ main := other
      simp [Env.init, other] at live
    · simp [World.init]
  | ran _ step ih =>
    have contexts := step.contexts
    exact ih.fewer (by simp [contexts, Contexts.step]) (by simp [contexts, Contexts.step])
  | @freed _ _ _ _ _ co _ step ih =>
    have contexts := step.contexts
    refine ih.fewer (by simp [contexts, Contexts.step]) fun d c saved => ?_
    by_cases here : d = co
    · simp [contexts, Contexts.step, here] at saved
    · simpa [contexts, Contexts.step, here] using saved
  | @made _ e _ w _ co c _ create entry step ih =>
    have contexts := step.contexts
    constructor
    · rw [contexts]
      exact ih.cur
    · exact ih.live
    · intro d other live
      have ne : d ≠ co := by
        rintro rfl
        exact live create
      simpa [contexts, Contexts.step, ne] using ih.point d other live
    · intro d c' created saved
      by_cases here : d = co
      · subst here
        obtain rfl : c = c' := by simpa [contexts, Contexts.step] using saved
        exact entry
      · exact ih.start d c' created (by simpa [contexts, Contexts.step, here] using saved)
  | switched thread switch left step ih =>
    exact ih.switched (switch.switched thread.run.1) left step

/-- In every run of coroutines, a switch brings the machine to the code of the point that the model
names, on the stack pointer and with the registers that the coroutine left with, and hands the value
over. -/
theorem switch_arrives (thread : Thread lay finish code main isEndDelete tr e mtr w)
    (switch : Switch e ev e' p)
    (step : Step lay finish w (.jumped e'.currCo (code.val e'.val) c) w') :
    (∃ q, e'.point = some q ∧ w'.machine.rip = code.point q) ∧
      (contexts main mtr).saved e'.currCo = some (context w'.machine w'.machine.rip) ∧
      w'.machine.reg .rax = code.val e'.val ∧ w'.machine.reg .rdi = code.val e'.val := by
  obtain ⟨run, m, trace⟩ := thread.run
  have sync := thread.sync
  have switched := switch.switched run
  obtain ⟨saved, rax, rdi⟩ := jump_resumes trace step
  refine ⟨?_, saved, rax, rdi⟩
  rw [← contexts_run trace] at saved
  rw [switched.point]
  by_cases create : e.state e'.currCo = .create
  · exact ⟨.start, by simp [create], sync.start _ _ create saved⟩
  · obtain ⟨q, point, there⟩ := sync.point _ switched.other create
    exact ⟨q, by simp [create, point], there _ saved⟩

section Examples

/-- `co_main_helper2` at `0x400`, and the call of `resume` that returns to `0x200`. -/
def entry : Code Bool where
  point p := if p = .start then 0x400 else 0x200
  val _ := 7

def first : Env Bool Unit := Env.init false fun _ => false

theorem first_thread :
    Thread pages 0x300 entry false (fun _ => false) [] first [madeEvent, .ran] readyWorld :=
  ((Thread.init booted).made rfl rfl booted_made).ran madeWorld_ran

theorem switch_arrives_first :
    (∃ q, (resume first true (.co true)).point = some q ∧
      enteredWorld.machine.rip = entry.point q) ∧
      (contexts false [madeEvent, .ran]).saved true =
        some (context enteredWorld.machine enteredWorld.machine.rip) ∧
      enteredWorld.machine.reg .rax = 7 ∧ enteredWorld.machine.reg .rdi = 7 :=
  switch_arrives first_thread (.resume true (.co true) (.inl rfl)) readyWorld_jump

end Examples

end Conet.Core.CoroutineMachine
