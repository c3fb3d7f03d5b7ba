/- Module: Conet/Svrkit/CmdRegistry
   source: svrkit/src/rpc_pb_server_base.cpp, svrkit/rpc_pb_server_base.h, base/hash_table_base.h
   digest: Commands from their registration to their calls, with arguments or with objects of a class. -/

import Conet.Base.HashTable
import Conet.Svrkit.RpcServerBase

set_option autoImplicit false
set_option relaxedAutoImplicit false

namespace Conet.Svrkit.CmdRegistry

open Conet.Base

abbrev Name := List UInt8

/-- What a handler gets as its first argument: a pointer, which may be `NULL`, or the `n`th object
that was made, of the class `cls`. -/
inductive Arg (A K : Type)
  | pointer (arg : Option A)
  | object (cls : K) (n : ℕ)

/-- What a call does beside its messages. -/
inductive Use (A K : Type)
  | alloc (cls : K) (n : ℕ)
  | ran (arg : Arg A K)
  | free (cls : K) (n : ℕ)

variable {M A K : Type}

/-- `rpc_pb_cmd_t`, with a `proc` that is given its argument. An `obj_mgr` is known by its class. -/
structure Cmd (M A K : Type) where
  methodName : Name
  cmdId : UInt64
  reqPool : Option (PbObjPool M)
  rspPool : Option (PbObjPool M)
  proc : Arg A K → Option M → Option M → Outcome M
  arg : Option A
  objMgr : Option K

/-- The command for calls with this argument. -/
def Cmd.withArg (c : Cmd M A K) (a : Arg A K) : RpcPbCmd M where
  methodName := c.methodName
  cmdId := c.cmdId
  reqPool := c.reqPool
  rspPool := c.rspPool
  proc := c.proc a

structure Seen (M A K : Type) where
  ret : UInt32
  rsp : Option M
  errmsg : List UInt8
  received : Option (Option M × Option M)
  crash : Option Crash
  uses : List (Use A K)

/-- A call that did `uses` if it got to the handler. -/
def seen (r : Called M) (uses : List (Use A K)) : Seen M A K :=
  ⟨r.ret, r.rsp, r.errmsg, r.received, r.crash, if r.received.isSome then uses else []⟩

/-- `rpc_pb_call_cb`, when `next` objects have been made. -/
def rpcPbCallCb (self : Cmd M A K) (logged : Bool) (body : List UInt8) (next : ℕ) : Seen M A K :=
  match self.objMgr with
  | some cls =>
    let obj := Arg.object cls next
    seen ((self.withArg obj).rpcPbCallCb logged body) [.alloc cls next, .ran obj, .free cls next]
  | none => seen ((self.withArg (.pointer self.arg)).rpcPbCallCb logged body) [.ran (.pointer self.arg)]

/-- `clone`. The new command has no `obj_mgr` when its own is tested. -/
def Cmd.clone (c : Cmd M A K) : Cmd M A K :=
  let n : Cmd M A K :=
    { methodName := c.methodName
      cmdId := c.cmdId
      reqPool := c.reqPool.map fun p => ⟨p.objProto, []⟩
      rspPool := c.rspPool.map fun p => ⟨p.objProto, []⟩
      proc := c.proc
      arg := c.arg
      objMgr := none }
  if n.objMgr.isSome then { n with objMgr := c.objMgr } else n

/-! ### Registration -/

/-- With what a handler is registered: an argument, or an object manager. -/
inductive Target (A K : Type)
  | pointer (arg : Option A)
  | manager (cls : K)

/-- A call of `registry_rpc_pb_cmd`. -/
structure Registration (M A K : Type) where
  serverName : Name
  cmdId : UInt64
  methodName : Name
  req : Option (Prototype M)
  rsp : Option (Prototype M)
  proc : Arg A K → Option M → Option M → Outcome M
  target : Target A K

/-- The command that `registry_rpc_pb_cmd` makes. -/
def Registration.cmd (r : Registration M A K) : Cmd M A K where
  methodName := r.methodName
  cmdId := r.cmdId
  reqPool := r.req.map fun p => ⟨p, []⟩
  rspPool := r.rsp.map fun p => ⟨p, []⟩
  proc := r.proc
  arg := match r.target with
    | .pointer arg => arg
    | .manager _ => none
  objMgr := match r.target with
    | .pointer _ => none
    | .manager cls => some cls

/-- `g_server_cmd_maps`. -/
abbrev CmdMaps (M A K : Type) := Option (Name → Option (List (Cmd M A K)))

def globalRegistryCmd (g : CmdMaps M A K) (serverName : Name) (cmd : Cmd M A K) : ℤ × CmdMaps M A K :=
  let maps := g.getD fun _ => none
  let serverMap := (maps serverName).getD []
  if serverMap.any fun c => c.methodName = cmd.methodName then
    (-1, some (Function.update maps serverName (some serverMap)))
  else (0, some (Function.update maps serverName (some (serverMap ++ [cmd]))))

def registryRpcPbCmd (g : CmdMaps M A K) (r : Registration M A K) : CmdMaps M A K :=
  (globalRegistryCmd g r.serverName r.cmd).2

/-- The two tables of `rpc_pb_server_base_t`. -/
structure ServerBase (M A K : Type) where
  cmdMaps : HashTable (Cmd M A K)
  cmdIdMaps : HashTable (Cmd M A K)

def ServerBase.init : ServerBase M A K := ⟨.init 1000, .init 1000⟩

section Tables

variable (hashCode : Name → ℕ)

def addCmd (t : HashTable (Cmd M A K)) (c : Cmd M A K) : HashTable (Cmd M A K) :=
  t.add hashCode Cmd.methodName c

def addCmdId (t : HashTable (Cmd M A K)) (c : Cmd M A K) : HashTable (Cmd M A K) :=
  t.add UInt64.toNat Cmd.cmdId c

/-- A turn of the loop of `get_global_server_cmd`. -/
def addClone (s : ServerBase M A K) (cmd : Cmd M A K) : ServerBase M A K :=
  let cmd2 := cmd.clone
  { cmdMaps := addCmd hashCode s.cmdMaps cmd2
    cmdIdMaps := if 0 < cmd2.cmdId then addCmdId s.cmdIdMaps cmd2 else s.cmdIdMaps }

/-- `get_global_server_cmd`; `iter` is the order in which the commands of a server are gone through. -/
def getGlobalServerCmd (iter : List (Cmd M A K) → List (Cmd M A K)) (g : CmdMaps M A K)
    (s : ServerBase M A K) (serverName : Name) : ℤ × ServerBase M A K :=
  match g with
  | none => (-1, s)
  | some maps =>
    match maps serverName with
    | none => (-2, s)
    | some serverMap =>
      let s := (iter serverMap).foldl (addClone hashCode) s
      (s.cmdMaps.num, s)

/-- `get_rpc_pb_cmd` with a method name. -/
def getRpcPbCmd (s : ServerBase M A K) (methodName : Name) : Option (Cmd M A K) :=
  s.cmdMaps.find hashCode Cmd.methodName methodName

end Tables

/-- `get_rpc_pb_cmd` with a number. -/
def getRpcPbCmdById (s : ServerBase M A K) (cmdId : UInt64) : Option (Cmd M A K) :=
  s.cmdIdMaps.find UInt64.toNat Cmd.cmdId cmdId

/-! ### What a registration promises -/

/-- What a call does: it runs the registered handler with the registered argument, or with a new
object, which is freed afterwards. -/
def Registration.promised (r : Registration M A K) (logged : Bool) (body : List UInt8) (next : ℕ) :
    Seen M A K :=
  match r.target with
  | .pointer arg => seen ((r.cmd.withArg (.pointer arg)).rpcPbCallCb logged body) [.ran (.pointer arg)]
  | .manager cls => seen ((r.cmd.withArg (.object cls next)).rpcPbCallCb logged body)
      [.alloc cls next, .ran (.object cls next), .free cls next]

/-- The command that is found is the registered one, and its calls are as promised. -/
def Registration.Answers (r : Registration M A K) (found : Option (Cmd M A K)) : Prop :=
  ∃ n, found = some n ∧ n.methodName = r.methodName ∧ n.cmdId = r.cmdId ∧
    ∀ logged body next, rpcPbCallCb n logged body next = r.promised logged body next

/-- The registrations for a server: those whose method had none before. -/
def registered (serverName : Name) (rs : List (Registration M A K)) : List (Registration M A K) :=
  rs.foldl (fun acc r =>
    if r.serverName = serverName ∧ ∀ r' ∈ acc, r'.methodName ≠ r.methodName then acc ++ [r] else acc) []

/-- The command is found by its name, and by its number if it has one. -/
def Served (hashCode : Name → ℕ) (s : ServerBase M A K) (r : Registration M A K) : Prop :=
  r.Answers (getRpcPbCmd hashCode s r.methodName) ∧
    (0 < r.cmdId → r.Answers (getRpcPbCmdById s r.cmdId))

/-- The handler takes no object of a class, unless no request ever reaches it. -/
def Registration.Plain (r : Registration M A K) : Prop :=
  (∃ arg, r.target = .pointer arg) ∨ ∃ p, r.req = some p ∧ ∀ body, (p.parseFromArray body p.new).1 = false

section Calls

variable {r : Registration M A K} {c : Cmd M A K}

/-- The clone of a command is called with the registered pointer, whatever it was registered with. -/
theorem clone_call (r : Registration M A K) (logged : Bool) (body : List UInt8) (next : ℕ) :
    rpcPbCallCb r.cmd.clone logged body next =
      seen ((r.cmd.withArg (.pointer r.cmd.arg)).rpcPbCallCb logged body) [.ran (.pointer r.cmd.arg)] := by
  have same : r.cmd.clone.withArg (.pointer r.cmd.arg) = r.cmd.withArg (.pointer r.cmd.arg) := by
    cases req : r.req <;> cases rsp : r.rsp <;>
      simp [Cmd.withArg, Cmd.clone, Registration.cmd, req, rsp]
  rw [← same]
  rfl

/-- Whether the handler is reached depends on the request only. -/
theorem received_isSome (c : Cmd M A K) (a : Arg A K) (logged : Bool) (body : List UInt8) :
    ((c.withArg a).rpcPbCallCb logged body).received.isSome = ((c.withArg a).request body).isSome := by
  rw [RpcPbCmd.rpcPbCallCb, RpcPbCmd.request]
  simp only [Cmd.withArg]
  cases c.reqPool with
  | none => rfl
  | some p =>
    simp only [PbObjPool.alloc]
    rw [p.objProto.clears body p.top p.objProto.new]
    rcases p.objProto.parseFromArray body p.objProto.new with ⟨_ | _, m⟩
    · rfl
    · rfl

theorem seen_rejected {a : Arg A K} {logged : Bool} {body : List UInt8}
    (rejected : (c.withArg a).request body = none) (uses : List (Use A K)) :
    seen ((c.withArg a).rpcPbCallCb logged body) uses =
      ⟨RpcPbCmd.errParseReqBody, none, [], none, none, []⟩ := by
  have outcome : (c.withArg a).outcome body = none := by
    rw [RpcPbCmd.outcome, rejected]
    rfl
  obtain ⟨ret, rsp, errmsg, crash⟩ := RpcPbCmd.rpcPbCallCb_rejected logged outcome
  have reached := received_isSome c a logged body
  rw [rejected, Option.isSome_none] at reached
  have received := Option.isSome_eq_false_iff.mp reached
  rw [Option.isNone_iff_eq_none] at received
  rw [seen, ret, rsp, errmsg, crash, received]
  rfl

theorem request_cmd (r : Registration M A K) (a : Arg A K) (body : List UInt8) :
    (r.cmd.withArg a).request body = none ↔
      ∃ p, r.req = some p ∧ (p.parseFromArray body p.new).1 = false := by
  rw [RpcPbCmd.request]
  cases req : r.req with
  | none => simp [Cmd.withArg, Registration.cmd, req]
  | some p =>
    simp only [Cmd.withArg, Registration.cmd, req, Option.map_some]
    rcases parsed : p.parseFromArray body p.new with ⟨_ | _, m⟩
    · simp [parsed]
    · simp [parsed]

/-- The calls of a clone are as promised exactly if the handler was registered with a pointer. -/
theorem clone_promised : (∀ logged body next, rpcPbCallCb r.cmd.clone logged body next =
    r.promised logged body next) ↔ r.Plain := by
  simp only [clone_call]
  cases target : r.target with
  | pointer arg =>
    refine iff_of_true (fun logged body next => ?_) (.inl ⟨arg, target⟩)
    simp only [Registration.promised, target, Registration.cmd]
  | manager cls =>
    constructor
    · intro same
      right
      have rejects : ∀ body, ∃ p, r.req = some p ∧ (p.parseFromArray body p.new).1 = false := by
        intro body
        apply (request_cmd r (.pointer r.cmd.arg) body).mp
        by_contra reached
        have uses := congrArg Seen.uses (same false body 0)
        have here : ∀ a, ((r.cmd.withArg a).rpcPbCallCb false body).received.isSome = true := by
          intro a
          rw [received_isSome, Option.isSome_iff_ne_none, Ne, request_cmd,
            ← request_cmd r (.pointer r.cmd.arg)]
          exact reached
        simp [Registration.promised, target, seen, here] at uses
      obtain ⟨p, req, -⟩ := rejects []
      refine ⟨p, req, fun body => ?_⟩
      obtain ⟨p', req', bad⟩ := rejects body
      obtain rfl : p = p' := Option.some.inj (req.symm.trans req')
      exact bad
    · rintro (⟨arg, plain⟩ | ⟨p, req, bad⟩) logged body next
      · cases target.symm.trans plain
      · have rejected : ∀ a, (r.cmd.withArg a).request body = none :=
          fun a => (request_cmd r a body).mpr ⟨p, req, bad body⟩
        simp only [Registration.promised, target]
        rw [seen_rejected (rejected _), seen_rejected (rejected _)]

end Calls

section Registry

variable {rs : List (Registration M A K)} {r r' : Registration M A K} {serverName : Name}

/-- The commands that are registered for a server. -/
def commands (g : CmdMaps M A K) (serverName : Name) : List (Cmd M A K) :=
  ((g.getD fun _ => none) serverName).getD []

theorem registered_snoc (serverName : Name) (rs : List (Registration M A K)) (r : Registration M A K) :
    registered serverName (rs ++ [r]) =
      if r.serverName = serverName ∧ ∀ r' ∈ registered serverName rs, r'.methodName ≠ r.methodName then
        registered serverName rs ++ [r] else registered serverName rs := by
  rw [registered, List.foldl_append]
  rfl

theorem commands_registry (g : CmdMaps M A K) (r : Registration M A K) (serverName : Name) :
    commands (registryRpcPbCmd g r) serverName =
      if r.serverName = serverName ∧ ∀ c ∈ commands g serverName, c.methodName ≠ r.methodName then
        commands g serverName ++ [r.cmd] else commands g serverName := by
  have name : r.cmd.methodName = r.methodName := rfl
  by_cases here : r.serverName = serverName
  · subst here
    simp only [registryRpcPbCmd, globalRegistryCmd, name, true_and]
    by_cases fresh : ∀ c ∈ commands g r.serverName, c.methodName ≠ r.methodName
    · have new : ¬ (((g.getD fun _ => none) r.serverName).getD []).any
          (fun c => c.methodName = r.methodName) = true := by
        simpa [commands] using fresh
      rw [if_neg new, if_pos fresh]
      simp [commands]
    · have dup : (((g.getD fun _ => none) r.serverName).getD []).any
          (fun c => c.methodName = r.methodName) = true := by
        simpa [commands] using fresh
      rw [if_pos dup, if_neg fresh]
      simp [commands]
  · rw [if_neg (fun h => here h.1)]
    simp only [registryRpcPbCmd, globalRegistryCmd]
    split_ifs
    · simp [commands, Function.update_of_ne (Ne.symm here)]
    · simp [commands, Function.update_of_ne (Ne.symm here)]

theorem commands_eq (rs : List (Registration M A K)) (serverName : Name) :
    commands (rs.foldl registryRpcPbCmd none) serverName =
      (registered serverName rs).map Registration.cmd := by
  induction rs using List.reverseRecOn with
  | nil => rfl
  | append_singleton rs r ih =>
    rw [List.foldl_append, List.foldl_cons, List.foldl_nil, commands_registry, registered_snoc, ih]
    have same : (∀ c ∈ (registered serverName rs).map Registration.cmd, c.methodName ≠ r.methodName) ↔
        ∀ r' ∈ registered serverName rs, r'.methodName ≠ r.methodName := List.forall_mem_map
    simp only [same]
    split_ifs
    · rw [List.map_append, List.map_singleton]
    · rfl

theorem registered_pairwise (rs : List (Registration M A K)) (serverName : Name) :
    (registered serverName rs).Pairwise fun r r' => r.methodName ≠ r'.methodName := by
  induction rs using List.reverseRecOn with
  | nil => exact .nil
  | append_singleton rs r ih =>
    rw [registered_snoc]
    split_ifs with fresh
    · rw [List.pairwise_append]
      refine ⟨ih, List.pairwise_singleton _ _, fun r' among r'' last => ?_⟩
      rw [List.mem_singleton.mp last]
      exact fresh.2 r' among
    · exact ih

theorem registered_unique (mem : r ∈ registered serverName rs) (mem' : r' ∈ registered serverName rs)
    (same : r'.methodName = r.methodName) : r' = r := by
  have nodup := List.pairwise_map.mpr (registered_pairwise rs serverName)
  exact List.inj_on_of_nodup_map nodup mem' mem same

end Registry

section Server

variable {hashCode : Name → ℕ} {iter : List (Cmd M A K) → List (Cmd M A K)}
  {rs : List (Registration M A K)} {r r' : Registration M A K} {serverName : Name} {s : ServerBase M A K}

theorem foldl_addClone (cs : List (Cmd M A K)) (s : ServerBase M A K) :
    cs.foldl (addClone hashCode) s =
      ⟨(cs.map Cmd.clone).foldl (addCmd hashCode) s.cmdMaps,
        ((cs.map Cmd.clone).filter fun c => 0 < c.cmdId).foldl addCmdId s.cmdIdMaps⟩ := by
  induction cs generalizing s with
  | nil => rfl
  | cons c cs ih =>
    rw [List.foldl_cons, ih, List.map_cons, List.foldl_cons, List.filter_cons]
    simp only [addClone, decide_eq_true_eq]
    split_ifs
    · rfl
    · rfl

theorem getGlobalServerCmd_eq (some : registered serverName rs ≠ []) :
    (getGlobalServerCmd hashCode iter (rs.foldl registryRpcPbCmd none) s serverName).2 =
      (iter ((registered serverName rs).map Registration.cmd)).foldl (addClone hashCode) s := by
  have all := commands_eq rs serverName
  cases maps : rs.foldl registryRpcPbCmd none with
  | none =>
    rw [maps] at all
    exact absurd (List.map_eq_nil_iff.mp all.symm) some
  | some g =>
    rw [maps] at all
    cases cmds : g serverName with
    | none =>
      simp only [commands, Option.getD_some, cmds, Option.getD_none] at all
      exact absurd (List.map_eq_nil_iff.mp all.symm) some
    | some cs =>
      simp only [commands, Option.getD_some, cmds] at all
      simp only [getGlobalServerCmd, cmds, all]

variable (order : ∀ l, (iter l).Perm l)

/-- The clones that are added to the tables. -/
def clones (iter : List (Cmd M A K) → List (Cmd M A K)) (rs : List (Registration M A K))
    (serverName : Name) : List (Cmd M A K) :=
  (iter ((registered serverName rs).map Registration.cmd)).map Cmd.clone

include order in
theorem mem_clones {c : Cmd M A K} :
    c ∈ clones iter rs serverName ↔ ∃ r ∈ registered serverName rs, r.cmd.clone = c := by
  rw [clones, List.mem_map]
  simp only [(order _).mem_iff, List.mem_map]
  constructor
  · rintro ⟨-, ⟨r, mem, rfl⟩, same⟩
    exact ⟨r, mem, same⟩
  · rintro ⟨r, mem, same⟩
    exact ⟨r.cmd, ⟨r, mem, rfl⟩, same⟩

include order in
theorem find_name (mem : r ∈ registered serverName rs) : getRpcPbCmd hashCode
    (getGlobalServerCmd hashCode iter (rs.foldl registryRpcPbCmd none) s serverName).2 r.methodName =
      some r.cmd.clone := by
  rw [getGlobalServerCmd_eq (List.ne_nil_of_mem mem), foldl_addClone]
  have among : r.cmd.clone ∈ clones iter rs serverName := (mem_clones order).mpr ⟨r, mem, rfl⟩
  refine HashTable.find_of_unique among fun c hc same => ?_
  obtain ⟨r', mem', rfl⟩ := (mem_clones order).mp hc
  rw [registered_unique mem mem' same]

include order in
theorem find_id (mem : r ∈ registered serverName rs) (pos : 0 < r.cmdId)
    (unique : ∀ r' ∈ registered serverName rs, r'.cmdId = r.cmdId → r' = r) : getRpcPbCmdById
    (getGlobalServerCmd hashCode iter (rs.foldl registryRpcPbCmd none) s serverName).2 r.cmdId =
      some r.cmd.clone := by
  rw [getGlobalServerCmd_eq (List.ne_nil_of_mem mem), foldl_addClone]
  have among : r.cmd.clone ∈ (clones iter rs serverName).filter fun c => 0 < c.cmdId :=
    List.mem_filter.mpr ⟨(mem_clones order).mpr ⟨r, mem, rfl⟩, decide_eq_true pos⟩
  refine HashTable.find_of_unique among fun c hc same => ?_
  obtain ⟨r', mem', rfl⟩ := (mem_clones order).mp (List.mem_filter.mp hc).1
  rw [unique r' mem' same]

include order in
/-- Every command is found and called as promised exactly if none was registered with an object
manager and no two have one number. -/
theorem served_iff (hashCode : Name → ℕ) (rs : List (Registration M A K)) (serverName : Name)
    (s : ServerBase M A K) :
    (∀ r ∈ registered serverName rs, Served hashCode
      (getGlobalServerCmd hashCode iter (rs.foldl registryRpcPbCmd none) s serverName).2 r) ↔
    ∀ r ∈ registered serverName rs, r.Plain ∧
      (0 < r.cmdId → ∀ r' ∈ registered serverName rs, r'.cmdId = r.cmdId → r' = r) := by
  constructor
  · intro served r mem
    obtain ⟨byName, byId⟩ := served r mem
    refine ⟨?_, fun pos r' mem' same => ?_⟩
    · obtain ⟨n, found, -, -, calls⟩ := byName
      rw [find_name order mem] at found
      obtain rfl := Option.some.inj found
      exact clone_promised.mp calls
    · obtain ⟨n, found, name, -⟩ := byId pos
      obtain ⟨n', found', name', -⟩ := (served r' mem').2 (by rwa [same])
      rw [same, found] at found'
      obtain rfl := Option.some.inj found'
      exact registered_unique mem mem' (name'.symm.trans name)
  · intro plain r mem
    obtain ⟨here, unique⟩ := plain r mem
    have calls := clone_promised.mpr here
    refine ⟨⟨_, find_name order mem, rfl, rfl, calls⟩, fun pos => ?_⟩
    exact ⟨_, find_id order mem pos (unique pos), rfl, rfl, calls⟩

end Server

section Samples

def idle (_ : Arg Unit Unit) (_ _ : Option Unit) : Outcome Unit := ⟨0, [], id, id⟩

/-- A handler of a function, with the number 7. -/
def funcRegistration : Registration Unit Unit Unit := ⟨[115], 7, [109], none, none, idle, .pointer none⟩

def classRegistration : Registration Unit Unit Unit := ⟨[115], 7, [109], none, none, idle, .manager ()⟩

/-- Another function, with the number 8. -/
def otherRegistration : Registration Unit Unit Unit := ⟨[115], 8, [110], none, none, idle, .pointer none⟩

/-- Two commands of a server for functions, and one of another server. -/
def threeRegistrations : List (Registration Unit Unit Unit) :=
  [funcRegistration, { classRegistration with serverName := [116] }, otherRegistration]

theorem served_two :
    Served List.length (getGlobalServerCmd List.length id
      (threeRegistrations.foldl registryRpcPbCmd none) .init [115]).2 funcRegistration ∧
    Served List.length (getGlobalServerCmd List.length id
      (threeRegistrations.foldl registryRpcPbCmd none) .init [115]).2 otherRegistration := by
  have two : registered [115] threeRegistrations = [funcRegistration, otherRegistration] := rfl
  have served := (served_iff (fun l => List.Perm.refl l) List.length threeRegistrations [115] .init).mpr
  rw [two] at served
  have apart : ∀ r ∈ [funcRegistration, otherRegistration], r.Plain ∧
      (0 < r.cmdId → ∀ r' ∈ [funcRegistration, otherRegistration], r'.cmdId = r.cmdId → r' = r) := by
    simp only [List.forall_mem_cons, List.not_mem_nil, false_implies, implies_true, and_true]
    exact ⟨⟨.inl ⟨none, rfl⟩, fun _ => ⟨trivial, fun same => absurd same (by decide)⟩⟩,
      ⟨.inl ⟨none, rfl⟩, fun _ same => absurd same (by decide)⟩⟩
  exact ⟨served apart _ (by simp), served apart _ (by simp)⟩

/-- The handler of a class is called without an object. -/
theorem class_without_object : ¬ ∀ (M A K : Type) (hashCode : Name → ℕ)
    (iter : List (Cmd M A K) → List (Cmd M A K)), (∀ l, (iter l).Perm l) →
    ∀ (rs : List (Registration M A K)) (serverName : Name), ∀ r ∈ registered serverName rs, Served hashCode
      (getGlobalServerCmd hashCode iter (rs.foldl registryRpcPbCmd none) .init serverName).2 r := by
  intro claim
  obtain ⟨⟨n, found, -, -, calls⟩, -⟩ := claim Unit Unit Unit List.length id (fun l => List.Perm.refl l)
    [classRegistration] [115] classRegistration (List.mem_singleton.mpr rfl)
  have clone : getRpcPbCmd List.length (getGlobalServerCmd List.length id
      ([classRegistration].foldl registryRpcPbCmd none) .init [115]).2 [109] =
        some classRegistration.cmd.clone := rfl
  obtain rfl := Option.some.inj (clone.symm.trans found)
  have uses := congrArg (fun s => s.uses.length) (calls false [] 0)
  exact absurd uses (by decide)

end Samples

end Conet.Svrkit.CmdRegistry
