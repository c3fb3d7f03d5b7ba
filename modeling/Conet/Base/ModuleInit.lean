/- Module: Conet/Base/ModuleInit
   source: base/src/module.cpp
   digest: What the initialisation of modules does, and what their end does after it. -/

import Conet.Base.Module

set_option autoImplicit false
set_option relaxedAutoImplicit false

namespace Conet.Base.Module

open Conet.Lib
open Relation (TransGen ReflTransGen)

section Relations

variable (s : Mgr)

/-- The modules that a module names as its dependencies. -/
def Mgr.deps (n : ℕ) : List ℕ := (s.node n).dependNames.filterMap s.mModuleMaps

/-- The module `n` names `d`. -/
def Mgr.Needs (d n : ℕ) : Prop := d ∈ s.deps n

/-- The dependencies of every module are registered. -/
def Mgr.Closed : Prop := ∀ n, ∀ name ∈ (s.node n).dependNames, s.mModuleMaps name ≠ none

/-- The calls of all `init` functions of a module, in their order. -/
def Mgr.initCalls (n : ℕ) : List Call := (List.range (s.node n).initList.length).map (.init n)

/-- All `init` functions of a module succeed. -/
def Mgr.Succeeds (n : ℕ) : Prop := ∀ ret ∈ (s.node n).initList, ret = 0

/-- Some `init` function of `n` fails, the `i`-th as the first one. -/
def Mgr.FailsAt (n i : ℕ) : Prop :=
  ∃ ret, (s.node n).initList[i]? = some ret ∧ ret ≠ 0 ∧ ∀ ret ∈ (s.node n).initList.take i, ret = 0

end Relations

section Registration

/-- A manager before its modules are initialised. -/
structure Linked (s : Mgr) : Prop where
  linked : s.linked.Perm (List.range s.nodes.length)
  maps : ∀ name n, s.mModuleMaps name = some n → n < s.nodes.length
  mCalcCalled : s.mCalcCalled = false
  mInitCalled : s.mInitCalled = false
  mFinCalled : s.mFinCalled = false
  mFinQueue : s.mFinQueue = []
  dependList : s.dependList = fun _ => []
  initCalled : s.initCalled = fun _ => false
  finCalled : s.finCalled = fun _ => false
  calls : s.calls = []

variable {s : Mgr} {reg : Node} {level : ℕ}

theorem linked_start : Linked start := by
  refine ⟨?_, ?_, rfl, rfl, rfl, rfl, rfl, rfl, rfl, rfl⟩
  · have none : start.linked = [] := List.flatMap_eq_nil_iff.mpr fun _ _ => rfl
    rw [none]
    exact .nil
  · intro name n found
    cases found

theorem Linked.link (inv : Linked s) (lt : level < moduleLevelNum) {maps : String → Option ℕ}
    (bound : ∀ name n, maps name = some n → n ≤ s.nodes.length) :
    Linked ({ s with mModuleMaps := maps }.link reg level) := by
  refine ⟨?_, fun name n eq => ?_, inv.mCalcCalled, inv.mInitCalled, inv.mFinCalled, inv.mFinQueue,
    inv.dependList, inv.initCalled, inv.finCalled, inv.calls⟩
  · have one := flatMap_update_perm (f := s.mLevel) List.nodup_range (List.mem_range.mpr lt) s.nodes.length
    show List.Perm _ (List.range (s.nodes ++ [reg]).length)
    rw [List.length_append, List.length_singleton, List.range_succ]
    exact one.trans (inv.linked.append_right _)
  · show n < (s.nodes ++ [reg]).length
    rw [List.length_append, List.length_singleton]
    have le := bound name n eq
    omega

theorem Linked.regModule (inv : Linked s) : Linked (s.regModule reg level).2 := by
  have bound (name : String) (n : ℕ) (eq : s.mModuleMaps name = some n) : n ≤ s.nodes.length :=
    (inv.maps name n eq).le
  rw [Mgr.regModule]
  by_cases high : moduleLevelNum ≤ level
  · rwa [if_pos high]
  · rw [if_neg high]
    by_cases anon : reg.moduleName = ""
    · rw [if_pos anon]
      exact inv.link (by omega) bound
    · rw [if_neg anon]
      cases found : s.mModuleMaps reg.moduleName with
      | some n => exact inv
      | none =>
        apply inv.link (by omega)
        intro name n eq
        by_cases same : name = reg.moduleName
        · rw [same, Function.update_self] at eq
          cases eq
          exact le_rfl
        · rw [Function.update_of_ne same] at eq
          exact bound name n eq

theorem linked_registered (regs : List (Node × ℕ)) : Linked (registered regs) := by
  unfold registered
  generalize init : start = s
  have inv : Linked s := init ▸ linked_start
  clear init
  induction regs generalizing s with
  | nil => exact inv
  | cons reg regs ih => exact ih _ inv.regModule

theorem Linked.mem_linked (inv : Linked s) {n : ℕ} : n ∈ s.linked ↔ n < s.nodes.length := by
  rw [inv.linked.mem_iff, List.mem_range]

end Registration

section Dependencies

variable {s : Mgr}

@[simp] theorem depend_maps (p : ℕ) (ms : List ℕ) : (s.depend p ms).mModuleMaps = s.mModuleMaps := rfl

@[simp] theorem depend_dependList (p : ℕ) (ms : List ℕ) :
    (s.depend p ms).dependList = Function.update s.dependList p (s.dependList p ++ ms) := rfl

@[simp] theorem depend_node (p : ℕ) (ms : List ℕ) : (s.depend p ms).node = s.node := rfl

theorem depend_nil (p : ℕ) : s.depend p [] = s := by
  rw [Mgr.depend, List.append_nil, Function.update_eq_self]

theorem depend_depend (p : ℕ) (ms ms' : List ℕ) : (s.depend p ms).depend p ms' = s.depend p (ms ++ ms') := by
  simp [Mgr.depend]

theorem addDeps_of_closed {p : ℕ} {names : List String} (closed : ∀ name ∈ names, s.mModuleMaps name ≠ none) :
    s.addDeps p names = (0, s.depend p (names.filterMap s.mModuleMaps)) := by
  induction names generalizing s with
  | nil => rw [Mgr.addDeps, List.filterMap_nil, depend_nil]
  | cons name names ih =>
    rw [List.forall_mem_cons] at closed
    obtain ⟨n, found⟩ := Option.ne_none_iff_exists'.mp closed.1
    simp only [Mgr.addDeps, found]
    rw [@ih (s.depend p [n]) closed.2, List.filterMap_cons_some found, depend_depend]
    rfl

theorem addDeps_of_open {p : ℕ} {names : List String} {name : String} (mem : name ∈ names)
    (missing : s.mModuleMaps name = none) : (s.addDeps p names).1 ≠ 0 := by
  induction names generalizing s with
  | nil => exact absurd mem List.not_mem_nil
  | cons first names ih =>
    cases found : s.mModuleMaps first with
    | none =>
      simp only [Mgr.addDeps, found]
      decide
    | some n =>
      simp only [Mgr.addDeps, found]
      rcases List.mem_cons.mp mem with rfl | mem
      · rw [found] at missing
        cases missing
      · exact @ih (s.depend p [n]) mem missing

/-- When it has done all of `ps`. -/
def Mgr.dependAll (s : Mgr) (ps : List ℕ) : Mgr := ps.foldl (fun s p => s.depend p (s.deps p)) s

theorem dependAll_dependList {ps : List ℕ} (nodup : ps.Nodup) (n : ℕ) :
    (s.dependAll ps).dependList n = if n ∈ ps then s.dependList n ++ s.deps n else s.dependList n := by
  induction ps generalizing s with
  | nil => rfl
  | cons p ps ih =>
    rw [List.nodup_cons] at nodup
    have rest := @ih (s.depend p (s.deps p)) nodup.2
    rw [Mgr.dependAll, List.foldl_cons, ← Mgr.dependAll, rest]
    by_cases same : n = p
    · subst same
      rw [if_neg nodup.1, if_pos List.mem_cons_self, depend_dependList, Function.update_self]
    · simp only [List.mem_cons, same, false_or]
      rw [depend_dependList, Function.update_of_ne same]
      rfl

theorem calcDeps_of_closed {ps : List ℕ}
    (closed : ∀ n ∈ ps, ∀ name ∈ (s.node n).dependNames, s.mModuleMaps name ≠ none) :
    s.calcDeps ps = (0, s.dependAll ps) := by
  induction ps generalizing s with
  | nil => rfl
  | cons p ps ih =>
    rw [List.forall_mem_cons] at closed
    rw [Mgr.calcDeps, addDeps_of_closed closed.1]
    exact @ih (s.depend p (s.deps p)) closed.2

theorem calcDeps_of_open {ps : List ℕ} {n : ℕ} (mem : n ∈ ps) {name : String}
    (named : name ∈ (s.node n).dependNames) (missing : s.mModuleMaps name = none) : (s.calcDeps ps).1 ≠ 0 := by
  induction ps generalizing s with
  | nil => exact absurd mem List.not_mem_nil
  | cons p ps ih =>
    by_cases closed : ∀ name ∈ (s.node p).dependNames, s.mModuleMaps name ≠ none
    · rcases List.mem_cons.mp mem with rfl | mem
      · exact absurd missing (closed name named)
      · rw [Mgr.calcDeps, addDeps_of_closed closed]
        exact @ih (s.depend p (s.deps p)) mem named missing
    · push Not at closed
      obtain ⟨other, named, missing⟩ := closed
      have failed : (s.addDeps p (s.node p).dependNames).1 ≠ 0 := addDeps_of_open named missing
      rw [Mgr.calcDeps]
      exact fun zero => failed ((congrArg Prod.fst (if_pos failed)).symm.trans zero)

theorem dependAll_eq (ps : List ℕ) : s.dependAll ps = { s with dependList := (s.dependAll ps).dependList } := by
  induction ps generalizing s with
  | nil => rfl
  | cons p ps ih => exact ih

/-- The manager when the dependencies have been looked up. -/
def Mgr.looked (s : Mgr) : Mgr := { s with mCalcCalled := true, dependList := s.deps }

theorem node_of_length_le {n : ℕ} (le : s.nodes.length ≤ n) : s.node n = ⟨"", [], [], []⟩ := by
  rw [Mgr.node, List.getD_eq_getElem?_getD, List.getElem?_eq_none le]
  rfl

theorem deps_of_length_le {n : ℕ} (le : s.nodes.length ≤ n) : s.deps n = [] := by
  rw [Mgr.deps, node_of_length_le le]
  rfl

theorem Linked.calcAllDeps (inv : Linked s) (closed : s.Closed) :
    { s with mCalcCalled := true }.calcAllDeps = (0, s.looked) := by
  have calculated := @calcDeps_of_closed { s with mCalcCalled := true } s.linked fun n _ => closed n
  rw [dependAll_eq] at calculated
  refine calculated.trans ?_
  rw [Mgr.looked]
  congr 2
  ext1 n
  rw [dependAll_dependList (inv.linked.nodup_iff.mpr List.nodup_range)]
  by_cases lt : n < s.nodes.length
  · rw [if_pos (inv.mem_linked.mpr lt)]
    show s.dependList n ++ s.deps n = s.deps n
    rw [inv.dependList, List.nil_append]
  · rw [if_neg fun mem => lt (inv.mem_linked.mp mem), deps_of_length_le (by omega)]
    show s.dependList n = []
    rw [inv.dependList]

theorem Linked.calcAllDeps_open (inv : Linked s) (opened : ¬ s.Closed) :
    ({ s with mCalcCalled := true }.calcAllDeps).1 ≠ 0 := by
  unfold Mgr.Closed at opened
  push Not at opened
  obtain ⟨n, name, named, missing⟩ := opened
  have lt : n < s.nodes.length := by
    by_contra le
    rw [node_of_length_le (by omega)] at named
    cases named
  exact calcDeps_of_open (inv.mem_linked.mpr lt) named missing

end Dependencies

section Running

/-- What the initialisation from `g` on keeps: the queue holds the completed modules, each behind what it
depends on. -/
structure Running (g s : Mgr) : Prop where
  nodes : s.nodes = g.nodes
  dependList : s.dependList = g.dependList
  finCalled : s.finCalled = g.finCalled
  mInitCalled : s.mInitCalled = g.mInitCalled
  mFinCalled : s.mFinCalled = g.mFinCalled
  ready : Ready (fun d n => d ∈ g.dependList n) s.mFinQueue
  nodup : s.mFinQueue.Nodup
  initCalled : ∀ n, s.initCalled n = true ↔ n ∈ s.mFinQueue
  succeeds : ∀ n ∈ s.mFinQueue, g.Succeeds n

/-- Between two modules all calls are of completed modules. -/
structure Steady (g s : Mgr) : Prop extends Running g s where
  calls : s.calls = s.mFinQueue.flatMap g.initCalls

/-- One of `ns` depends on `m`, maybe through others, or is `m`. -/
def Reaches (g : Mgr) (ns : List ℕ) (m : ℕ) : Prop :=
  ∃ n ∈ ns, ReflTransGen (fun d n => d ∈ g.dependList n) m n

/-- The modules `ns` are completed, and those that they depend on. -/
structure Succeeded (g s : Mgr) (ns : List ℕ) (s' : Mgr) : Prop extends Steady g s' where
  all : ∀ n ∈ ns, n ∈ s'.mFinQueue
  kept : s.mFinQueue ⊆ s'.mFinQueue
  reached : ∀ m ∈ s'.mFinQueue, m ∈ s.mFinQueue ∨ Reaches g ns m

/-- A function of a module `m` has failed as the last call. -/
structure Failed (g : Mgr) (ns : List ℕ) (s' : Mgr) : Prop extends Running g s' where
  fails : ∃ m i, Reaches g ns m ∧ m ∉ s'.mFinQueue ∧ g.FailsAt m i ∧
    s'.calls = s'.mFinQueue.flatMap g.initCalls ++ (List.range (i + 1)).map (.init m)

/-- What the initialisation of `ns` comes back with. -/
def Result (g s : Mgr) (ns : List ℕ) (r : ℤ × Mgr) : Prop :=
  r.1 = 0 ∧ Succeeded g s ns r.2 ∨ r.1 ≠ 0 ∧ Failed g ns r.2

variable {g s s' : Mgr} {n m : ℕ} {ns : List ℕ} {r : ℤ × Mgr}

@[simp] theorem called_nil : s.called [] = s := by
  rw [Mgr.called, List.append_nil]

theorem called_called (cs cs' : List Call) : (s.called cs).called cs' = s.called (cs ++ cs') := by
  rw [Mgr.called, Mgr.called, Mgr.called, List.append_assoc]

/-- The functions of a module are called in their order, up to the first one that fails. -/
theorem callInits_cases (s : Mgr) (n : ℕ) (xs : List ℤ) (j : ℕ) :
    ((∀ ret ∈ xs, ret = 0) ∧
      s.callInits n (xs.zipIdx j) = (0, s.called ((List.range' j xs.length).map (.init n)))) ∨
    ∃ i ret, xs[i]? = some ret ∧ ret ≠ 0 ∧ (∀ ret ∈ xs.take i, ret = 0) ∧
      s.callInits n (xs.zipIdx j) = (-1, s.called ((List.range' j (i + 1)).map (.init n))) := by
  induction xs generalizing s j with
  | nil => exact .inl ⟨fun ret mem => absurd mem List.not_mem_nil, by simp [Mgr.callInits]⟩
  | cons x xs ih =>
    rw [List.zipIdx_cons, Mgr.callInits]
    by_cases fails : x ≠ 0
    · rw [if_pos fails]
      exact .inr ⟨0, x, rfl, fails, fun ret mem => absurd mem List.not_mem_nil, rfl⟩
    · rw [if_neg fails]
      have zero := not_not.mp fails
      rcases ih (s.called [.init n j]) (j + 1) with ⟨succeed, eq⟩ | ⟨i, ret, found, fails, before, eq⟩
      · refine .inl ⟨List.forall_mem_cons.mpr ⟨zero, succeed⟩, ?_⟩
        rw [eq, called_called]
        rfl
      · refine .inr ⟨i + 1, ret, found, fails, ?_, ?_⟩
        · rw [List.take_succ_cons]
          exact List.forall_mem_cons.mpr ⟨zero, before⟩
        · rw [eq, called_called]
          rfl

theorem Reaches.mono {ns' : List ℕ} (reaches : Reaches g ns m) (sub : ns ⊆ ns') : Reaches g ns' m := by
  obtain ⟨n, mem, path⟩ := reaches
  exact ⟨n, sub mem, path⟩

theorem Reaches.of_dependList (reaches : Reaches g (g.dependList n) m) :
    TransGen (fun d n => d ∈ g.dependList n) m n := by
  obtain ⟨d, depends, path⟩ := reaches
  exact .tail' path depends

theorem Reaches.of_deps (reaches : Reaches g (g.dependList n) m) : Reaches g [n] m :=
  ⟨n, List.mem_singleton_self n, reaches.of_dependList.to_reflTransGen⟩

theorem callEach_cons {call : Mgr → ℕ → Option (ℤ × Mgr)} (first : call s n = some r) :
    Mgr.callEach call s (n :: ns) = if r.1 ≠ 0 then some (-1, r.2) else Mgr.callEach call r.2 ns := by
  rw [Mgr.callEach, first]

theorem callEach_none {call : Mgr → ℕ → Option (ℤ × Mgr)} (first : call s n = none) :
    Mgr.callEach call s (n :: ns) = none := by
  rw [Mgr.callEach, first]

theorem callEach_result {call : Mgr → ℕ → Option (ℤ × Mgr)}
    (spec : ∀ s n r, Steady g s → call s n = some r → Result g s [n] r) (steady : Steady g s)
    (runs : Mgr.callEach call s ns = some r) : Result g s ns r := by
  induction ns generalizing s with
  | nil =>
    cases runs
    exact .inl ⟨rfl, steady, fun n mem => absurd mem List.not_mem_nil, List.Subset.refl _, fun m => .inl⟩
  | cons n ns ih =>
    cases first : call s n with
    | none =>
      rw [callEach_none first] at runs
      cases runs
    | some r₁ =>
      rw [callEach_cons first] at runs
      rcases spec s n _ steady first with ⟨zero, done⟩ | ⟨fails, failed⟩
      · rw [if_neg (not_not.mpr zero)] at runs
        rcases ih done.toSteady runs with ⟨zero, rest⟩ | ⟨fails, failed⟩
        · refine .inl ⟨zero, rest.toSteady, ?_, fun m mem => rest.kept (done.kept mem), ?_⟩
          · exact List.forall_mem_cons.mpr ⟨rest.kept (done.all n List.mem_cons_self), rest.all⟩
          · intro m mem
            rcases rest.reached m mem with mem | reaches
            · exact (done.reached m mem).imp_right fun reaches => reaches.mono (by simp)
            · exact .inr (reaches.mono (List.subset_cons_self _ _))
        · obtain ⟨m, i, reaches, rest⟩ := failed.fails
          exact .inr ⟨fails, failed.toRunning, m, i, reaches.mono (List.subset_cons_self _ _), rest⟩
      · rw [if_pos fails] at runs
        cases runs
        obtain ⟨m, i, reaches, rest⟩ := failed.fails
        exact .inr ⟨by simp, failed.toRunning, m, i, reaches.mono (by simp), rest⟩

theorem Running.acc (running : Running g s) (mem : n ∈ s.mFinQueue) :
    Acc (fun d n => d ∈ g.dependList n) n := running.ready.acc mem

theorem Running.node (running : Running g s) : s.node = g.node := by
  ext1 n
  rw [Mgr.node, running.nodes, Mgr.node]

theorem Running.called (running : Running g s) (cs : List Call) : Running g (s.called cs) :=
  { running with }

/-- A module is completed when its dependencies are. -/
theorem Steady.complete (steady : Steady g s) (fresh : n ∉ s.mFinQueue)
    (before : ∀ d ∈ g.dependList n, d ∈ s.mFinQueue) (succeeds : g.Succeeds n) :
    Steady g ((s.called (g.initCalls n)).complete n) := by
  refine { steady.toRunning.called (g.initCalls n) with
    ready := steady.ready.concat before, nodup := ?_, initCalled := ?_, succeeds := ?_, calls := ?_ }
  · exact List.nodup_append.mpr ⟨steady.nodup, List.nodup_singleton n, fun m mem m' single same =>
      fresh (List.mem_singleton.mp single ▸ same ▸ mem)⟩
  · intro m
    show Function.update s.initCalled n true m = true ↔ m ∈ s.mFinQueue ++ [n]
    rw [List.mem_append, List.mem_singleton]
    by_cases same : m = n
    · rw [same, Function.update_self]
      simp
    · rw [Function.update_of_ne same, steady.initCalled, or_iff_left same]
  · intro m mem
    rcases List.mem_append.mp mem with mem | mem
    · exact steady.succeeds m mem
    · rwa [List.mem_singleton.mp mem]
  · show s.calls ++ g.initCalls n = (s.mFinQueue ++ [n]).flatMap g.initCalls
    rw [List.flatMap_append, steady.calls, List.flatMap_singleton]

theorem Steady.callInits (steady : Steady g s) (n : ℕ) :
    (g.Succeeds n ∧ s.callInits n (s.node n).initList.zipIdx = (0, s.called (g.initCalls n))) ∨
      ∃ i, g.FailsAt n i ∧ s.callInits n (s.node n).initList.zipIdx =
        (-1, s.called ((List.range (i + 1)).map (.init n))) := by
  rw [steady.node]
  rcases callInits_cases s n (g.node n).initList 0 with ⟨succeed, eq⟩ | ⟨i, ret, found, fails, zeros, eq⟩
  · rw [← List.range_eq_range'] at eq
    exact .inl ⟨succeed, eq⟩
  · rw [← List.range_eq_range'] at eq
    exact .inr ⟨i, ⟨ret, found, fails, zeros⟩, eq⟩

section Unfold

variable {k : ℕ}

theorem callModuleInit_marked (marked : s.initCalled n = true) :
    Mgr.callModuleInit (k + 1) s n = some (0, s) := by
  rw [Mgr.callModuleInit, if_pos marked]

theorem callModuleInit_none (fresh : s.initCalled n ≠ true)
    (deps : Mgr.callEach (Mgr.callModuleInit k) s (s.dependList n) = none) :
    Mgr.callModuleInit (k + 1) s n = none := by
  rw [Mgr.callModuleInit, if_neg fresh, deps]

theorem callModuleInit_fails (fresh : s.initCalled n ≠ true)
    (deps : Mgr.callEach (Mgr.callModuleInit k) s (s.dependList n) = some r) (fails : r.1 ≠ 0) :
    Mgr.callModuleInit (k + 1) s n = some (-1, r.2) := by
  rw [Mgr.callModuleInit, if_neg fresh, deps]
  exact if_pos fails

theorem callModuleInit_goes (fresh : s.initCalled n ≠ true)
    (deps : Mgr.callEach (Mgr.callModuleInit k) s (s.dependList n) = some r) (zero : r.1 = 0) :
    Mgr.callModuleInit (k + 1) s n =
      if (r.2.callInits n (r.2.node n).initList.zipIdx).1 ≠ 0 then
        some (-1, (r.2.callInits n (r.2.node n).initList.zipIdx).2)
      else some (0, (r.2.callInits n (r.2.node n).initList.zipIdx).2.complete n) := by
  rw [Mgr.callModuleInit, if_neg fresh, deps]
  exact if_neg (not_not.mpr zero)

end Unfold

/-- Whatever `call_module_init` comes back with is right, as deep as its calls go. -/
theorem callModuleInit_result {k : ℕ} (steady : Steady g s) (runs : Mgr.callModuleInit k s n = some r) :
    Result g s [n] r := by
  induction k generalizing s n r with
  | zero => cases runs
  | succ k ih =>
    by_cases marked : s.initCalled n = true
    · rw [callModuleInit_marked marked] at runs
      cases runs
      refine .inl ⟨rfl, steady, ?_, List.Subset.refl _, fun m => .inl⟩
      exact List.forall_mem_singleton.mpr ((steady.initCalled n).mp marked)
    · cases deps : Mgr.callEach (Mgr.callModuleInit k) s (s.dependList n) with
      | none =>
        rw [callModuleInit_none marked deps] at runs
        cases runs
      | some r₁ =>
        have result := callEach_result (fun s n r => ih) steady deps
        rw [steady.dependList] at result
        rcases result with ⟨zero, done⟩ | ⟨fails, failed⟩
        · rw [callModuleInit_goes marked deps zero] at runs
          have fresh : n ∉ r₁.2.mFinQueue := by
            intro mem
            rcases done.reached n mem with mem | reaches
            · exact marked ((steady.initCalled n).mpr mem)
            · exact not_acc_of_cycle reaches.of_dependList (done.acc mem)
          rcases done.callInits n with ⟨succeeds, eq⟩ | ⟨i, fails, eq⟩
          · rw [eq, if_neg (by simp)] at runs
            cases runs
            refine .inl ⟨rfl, done.complete fresh done.all succeeds, ?_, ?_, ?_⟩
            · exact List.forall_mem_singleton.mpr (List.mem_append_right _ (List.mem_singleton_self n))
            · exact fun m mem => List.mem_append_left _ (done.kept mem)
            · intro m mem
              rcases List.mem_append.mp mem with mem | mem
              · exact (done.reached m mem).imp_right Reaches.of_deps
              · rw [List.mem_singleton.mp mem]
                exact .inr ⟨n, List.mem_singleton_self n, .refl⟩
          · rw [eq, if_pos (by simp)] at runs
            cases runs
            refine .inr ⟨by simp, done.toRunning.called _, n, i, ⟨n, List.mem_singleton_self n, .refl⟩, fresh,
              fails, ?_⟩
            show r₁.2.calls ++ _ = _
            rw [done.calls]
            rfl
        · rw [callModuleInit_fails marked deps fails] at runs
          cases runs
          obtain ⟨m, i, reaches, rest⟩ := failed.fails
          exact .inr ⟨by simp, failed.toRunning, m, i, reaches.of_deps, rest⟩

end Running

end Conet.Base.Module
