/- Module: Conet/Base/Module
   source: base/module.h, base/src/module.cpp
   digest: The registration of modules, their initialisation and their end. -/

import Conet.Lib.Dependencies

set_option autoImplicit false
set_option relaxedAutoImplicit false

namespace Conet.Base.Module

open Conet.Lib
open Relation (TransGen)

section Model

/-- `module_node_t`; of each of its functions stands what it returns when it is called. -/
structure Node where
  moduleName : String
  dependNames : List String
  initList : List ℤ
  finList : List ℤ

/-- The call of the `i`-th `init` or `fin` function of a module. -/
inductive Call
  | init (n i : ℕ)
  | fin (n i : ℕ)
  deriving DecidableEq

/-- `module_mgr_t`, with the nodes that are linked to it and the calls of their functions; a pointer to a
node is its index. -/
structure Mgr where
  nodes : List Node
  mModuleMaps : String → Option ℕ
  mFinQueue : List ℕ
  mLevel : ℕ → List ℕ
  mCalcCalled : Bool
  mInitCalled : Bool
  mFinCalled : Bool
  mModuleNum : ℕ
  mInitSuccNum : ℕ
  mFinSuccNum : ℕ
  dependList : ℕ → List ℕ
  initCalled : ℕ → Bool
  finCalled : ℕ → Bool
  calls : List Call

/-- `module_mgr_t::module_mgr_t`, before any module. -/
def start : Mgr where
  nodes := []
  mModuleMaps := fun _ => none
  mFinQueue := []
  mLevel := fun _ => []
  mCalcCalled := false
  mInitCalled := false
  mFinCalled := false
  mModuleNum := 0
  mInitSuccNum := 0
  mFinSuccNum := 0
  dependList := fun _ => []
  initCalled := fun _ => false
  finCalled := fun _ => false
  calls := []

def moduleLevelNum : ℕ := 20

namespace Mgr

variable (s : Mgr)

def node (n : ℕ) : Node := s.nodes.getD n ⟨"", [], [], []⟩

/-- The end of `reg_module`. -/
def link (n : Node) (level : ℕ) : Mgr :=
  { s with
    nodes := s.nodes ++ [n]
    mLevel := Function.update s.mLevel level (s.mLevel level ++ [s.nodes.length])
    mModuleNum := s.mModuleNum + 1 }

def regModule (n : Node) (level : ℕ) : ℤ × Mgr :=
  if moduleLevelNum ≤ level then (-1, s)
  else if n.moduleName = "" then (0, s.link n level)
  else
    match s.mModuleMaps n.moduleName with
    | some _ => (-2, s)
    | none =>
      let maps := Function.update s.mModuleMaps n.moduleName (some s.nodes.length)
      (0, { s with mModuleMaps := maps }.link n level)

/-- The modules as the loops over the levels come to them. -/
def linked : List ℕ := (List.range moduleLevelNum).flatMap s.mLevel

/-- `p->depend_list` with more modules. -/
def depend (p : ℕ) (ms : List ℕ) : Mgr :=
  { s with dependList := Function.update s.dependList p (s.dependList p ++ ms) }

/-- The inner loop of `calc_all_deps`. -/
@[grind =] def addDeps (s : Mgr) (p : ℕ) : List String → ℤ × Mgr
  | [] => (0, s)
  | depName :: names =>
    match s.mModuleMaps depName with
    | none => (-1, s)
    | some depM => addDeps (s.depend p [depM]) p names

@[grind =] def calcDeps (s : Mgr) : List ℕ → ℤ × Mgr
  | [] => (0, s)
  | p :: ps =>
    let (ret, s) := s.addDeps p (s.node p).dependNames
    if ret ≠ 0 then (ret, s) else calcDeps s ps

def calcAllDeps : ℤ × Mgr := s.calcDeps s.linked

def called (cs : List Call) : Mgr := { s with calls := s.calls ++ cs }

/-- The calls of `init` functions, with their places, up to one that fails. -/
@[grind =] def callInits (s : Mgr) (n : ℕ) : List (ℤ × ℕ) → ℤ × Mgr
  | [] => (0, s)
  | (ret, i) :: items =>
    let s := s.called [.init n i]
    if ret ≠ 0 then (-1, s) else callInits s n items

/-- The modules one after the other, up to one that fails. -/
@[grind =] def callEach (call : Mgr → ℕ → Option (ℤ × Mgr)) (s : Mgr) : List ℕ → Option (ℤ × Mgr)
  | [] => some (0, s)
  | n :: ns =>
    match call s n with
    | none => none
    | some (ret, s) => if ret ≠ 0 then some (-1, s) else callEach call s ns

/-- The end of `call_module_init`. -/
def complete (n : ℕ) : Mgr :=
  { s with
    mFinQueue := s.mFinQueue ++ [n]
    initCalled := Function.update s.initCalled n true
    mInitSuccNum := s.mInitSuccNum + 1 }

/-- `call_module_init` with at most `k` calls inside of each other. -/
@[grind =] def callModuleInit : ℕ → Mgr → ℕ → Option (ℤ × Mgr)
  | 0, _, _ => none
  | k + 1, s, n =>
    if s.initCalled n then some (0, s)
    else
      match callEach (callModuleInit k) s (s.dependList n) with
      | none => none
      | some (ret, s) =>
        if ret ≠ 0 then some (-1, s)
        else
          let (ret, s) := s.callInits n (s.node n).initList.zipIdx
          if ret ≠ 0 then some (-1, s) else some (0, s.complete n)

def callAllInit (k : ℕ) : Option (ℤ × Mgr) := callEach (callModuleInit k) s s.linked

/-- The second half of `init_all_modules`. -/
def initOnce (k : ℕ) : Option (ℤ × Mgr) :=
  if s.mInitCalled then some (0, s)
  else
    match { s with mInitCalled := true }.callAllInit k with
    | none => none
    | some (ret, s) => if ret ≠ 0 then some (-2, s) else some (0, s)

def initAllModules (k : ℕ) : Option (ℤ × Mgr) :=
  if s.mInitCalled || s.mFinCalled then some (0, s)
  else if s.mCalcCalled then s.initOnce k
  else
    let (ret, s) := { s with mCalcCalled := true }.calcAllDeps
    if ret ≠ 0 then some (-1, s) else s.initOnce k

/-- The loop of `call_module_fin`, with what it returns so far. -/
def callFins (s : Mgr) (n : ℕ) (ret1 : ℤ) : List (ℤ × ℕ) → ℤ × Mgr
  | [] => (ret1, s)
  | (ret, i) :: items =>
    callFins (s.called [.fin n i]) n (if ret ≠ 0 then ret else ret1) items

def callModuleFin (n : ℕ) : ℤ × Mgr :=
  if s.finCalled n then (0, s)
  else
    let s := { s with finCalled := Function.update s.finCalled n true }
    s.callFins n 0 (s.node n).finList.zipIdx.reverse

/-- The loop of `fin_all_modules`. -/
def finEach (s : Mgr) : List ℕ → Mgr
  | [] => s
  | n :: ns =>
    let (ret, s) := s.callModuleFin n
    finEach (if ret = 0 then { s with mFinSuccNum := s.mFinSuccNum + 1 } else s) ns

def finAllModules : ℤ × Mgr :=
  if s.mInitCalled = false then (-1, s)
  else if s.mFinCalled then (0, s)
  else (0, { s with mFinCalled := true }.finEach s.mFinQueue.reverse)

end Mgr

/-- The manager when the given modules have been registered with their levels. -/
def registered (regs : List (Node × ℕ)) : Mgr := regs.foldl (fun s reg => (s.regModule reg.1 reg.2).2) start

end Model

end Conet.Base.Module
