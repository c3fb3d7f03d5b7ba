/- Module: Conet/Svrkit/TcpServer
   source: svrkit/src/tcp_server.cpp, base/obj_pool.h
   digest: Accepted connections, their addresses, and the pooled objects that are to carry them. -/

import Conet.Lib.Trace
import Mathlib.Data.Int.Notation
import Mathlib.Data.List.Nodup
import Mathlib.Logic.Function.Basic

set_option autoImplicit false
set_option relaxedAutoImplicit false

namespace Conet.Svrkit.TcpServer

open Conet.Lib

section Objects

/-- `sockaddr_in`. -/
structure Sockaddr where
  family : BitVec 16
  port : BitVec 16
  addr : BitVec 32
  deriving DecidableEq

/-- `conn_info_t`. -/
structure ConnInfo where
  fd : ℤ
  addr : Sockaddr
  co : ℕ
  extend : ℕ
  deriving DecidableEq

def ConnInfo.new : ConnInfo := ⟨-1, ⟨0, 0, 0⟩, 0, 0⟩

/-- `obj_pool_t`: what has been released, the last one first, and the next new object. -/
structure ObjPool where
  used : List ℕ
  fresh : ℕ

def ObjPool.alloc (p : ObjPool) : ℕ × ObjPool :=
  match p.used with
  | [] => (p.fresh, { p with fresh := p.fresh + 1 })
  | obj :: used => (obj, { p with used })

def ObjPool.release (p : ObjPool) (obj : ℕ) : ObjPool := { p with used := obj :: p.used }

end Objects

section Server

/-- Where `main_proc` is: in the accept loop, before the first or a later connection of the batch, or
between `proc_pool` and the next `alloc`. -/
inductive Phase
  | accepting
  | first
  | later
  | taking
  deriving DecidableEq

/-- A call of `conn_proc`: the connection, its peer, and the object that it is called with. -/
structure Invocation where
  fd : ℤ
  peer : Sockaddr
  info : ConnInfo
  deriving DecidableEq

/-- The server; `newFds` has the address of each peer beside the descriptor. -/
structure Server where
  infos : ℕ → ConnInfo
  connInfoPool : ObjPool
  coPool : ObjPool
  cbArg : ℕ
  toStop : Bool
  phase : Phase
  connInfo : ℕ
  newFds : List (ℤ × Sockaddr)
  running : List ℕ
  calls : List Invocation

/-- A connection is accepted; the accept loop ends; a connection is handed to `proc_pool`; `main_proc`
takes the next object; `conn_proc` returns, with the object as it leaves it; the server is stopped. -/
inductive Event
  | accept (fd : ℤ) (addr : Sockaddr)
  | endLoop
  | proc
  | take
  | finish (info : ℕ) (left : ConnInfo) (ret : ℤ)
  | stop

namespace Server

variable (s : Server)

/-- `my_accept4`, which writes the address into the object at hand. -/
def accept (acceptNum : ℕ) (fd : ℤ) (addr : Sockaddr) : Server :=
  if s.phase = .accepting ∧ s.newFds.length < acceptNum then
    { s with
      infos := Function.update s.infos s.connInfo { s.infos s.connInfo with addr }
      newFds := s.newFds ++ [(fd, addr)] }
  else s

def endLoop : Server :=
  if s.phase = .accepting ∧ s.newFds ≠ [] then { s with phase := .first } else s

/-- A coroutine that has served before looks at `to_stop` first. -/
def invokes : Bool := s.coPool.used.isEmpty || !s.toStop

/-- What `main_proc` and `proc_pool` write to the object at hand. -/
def filled (fd : ℤ) : ConnInfo :=
  { s.infos s.connInfo with
    fd
    co := s.coPool.alloc.1
    extend := s.cbArg }

/-- The coroutine calls `conn_proc`. -/
def callProc (fd : ℤ) (peer : Sockaddr) (rest : List (ℤ × Sockaddr)) : Server :=
  { s with
    infos := Function.update s.infos s.connInfo (s.filled fd)
    coPool := s.coPool.alloc.2
    phase := .taking
    newFds := rest
    running := s.connInfo :: s.running
    calls := ⟨fd, peer, s.filled fd⟩ :: s.calls }

/-- The coroutine closes the connection. -/
def closeConn (fd : ℤ) (rest : List (ℤ × Sockaddr)) : Server :=
  { s with
    infos := Function.update s.infos s.connInfo { s.filled fd with fd := -1 }
    connInfoPool := s.connInfoPool.release s.connInfo
    coPool := s.coPool.alloc.2
    phase := .taking
    newFds := rest }

/-- One round of the second loop, up to and with `proc_pool`. -/
def proc : Server :=
  match s.newFds with
  | [] => s
  | (fd, peer) :: rest =>
    if s.phase = .first ∨ s.phase = .later then
      if s.invokes then s.callProc fd peer rest else s.closeConn fd rest
    else s

/-- `conn_info = this->conn_info_pool.alloc()`; a new object is as the constructor makes it. -/
def take : Server :=
  if s.phase = .taking then
    { s with
      infos :=
        if s.connInfoPool.used = [] then Function.update s.infos s.connInfoPool.fresh .new
        else s.infos
      connInfoPool := s.connInfoPool.alloc.2
      connInfo := s.connInfoPool.alloc.1
      phase := if s.newFds = [] then .accepting else .later }
  else s

/-- The end of `conn_proc_co`'s round. -/
def finish (info : ℕ) (left : ConnInfo) (ret : ℤ) : Server :=
  if info ∈ s.running then
    { s with
      infos := Function.update s.infos info
        { left with fd := if 0 ≤ left.fd then -1 else left.fd }
      connInfoPool := s.connInfoPool.release info
      coPool := if ret = 0 ∧ s.toStop = false then s.coPool.release left.co else s.coPool
      running := s.running.erase info }
  else s

def step (acceptNum : ℕ) : Event → Server
  | .accept fd addr => s.accept acceptNum fd addr
  | .endLoop => s.endLoop
  | .proc => s.proc
  | .take => s.take
  | .finish info left ret => s.finish info left ret
  | .stop => { s with toStop := true }

/-- `main_proc` begins with one object. -/
def start (cbArg : ℕ) : Server where
  infos := fun _ => .new
  connInfoPool := ⟨[], 1⟩
  coPool := ⟨[], 0⟩
  cbArg := cbArg
  toStop := false
  phase := .accepting
  connInfo := 0
  newFds := []
  running := []
  calls := []

def run (acceptNum cbArg : ℕ) (events : List Event) : Server :=
  events.foldl (fun s => s.step acceptNum) (start cbArg)

/-- Every call of `conn_proc` has got the connection's own descriptor and address. -/
def Right : Prop := ∀ c ∈ s.calls, c.info.fd = c.fd ∧ c.info.addr = c.peer

end Server

/-- For the first connection of a batch: the last one comes from the same address. For a later one: its
address is there already, in the object that the pool has given. -/
def Server.Finds (s : Server) (peer : Sockaddr) : Prop :=
  match s.phase with
  | .first => ∀ last, s.newFds.getLast? = some last → last.2 = peer
  | .later => (s.infos s.connInfo).addr = peer
  | _ => True

/-- If `conn_proc` is called next, the address of the peer is found. -/
def Event.Fair (s : Server) : Event → Prop
  | proc => ∀ fd peer rest, s.newFds = (fd, peer) :: rest → s.invokes = true → s.Finds peer
  | _ => True

end Server

section Invariant

variable {s : Server} {acceptNum : ℕ}

/-- No object is in two places, and the one at hand has the address that was accepted last. -/
structure Server.Inv (acceptNum : ℕ) (s : Server) : Prop where
  places : (s.connInfoPool.used ++ s.running).Nodup
  made : ∀ obj ∈ s.connInfoPool.used ++ s.running, obj < s.connInfoPool.fresh
  own : s.phase ≠ .taking →
    s.connInfo ∉ s.connInfoPool.used ++ s.running ∧ s.connInfo < s.connInfoPool.fresh
  address : s.phase = .accepting ∨ s.phase = .first →
    ∀ last, s.newFds.getLast? = some last → (s.infos s.connInfo).addr = last.2
  batch : s.newFds.length ≤ acceptNum
  rest : s.phase = .later ∨ s.phase = .taking → s.newFds.length < acceptNum

theorem accept_inv (inv : s.Inv acceptNum) (fd : ℤ) (addr : Sockaddr) :
    (s.accept acceptNum fd addr).Inv acceptNum := by
  unfold Server.accept
  split_ifs with can
  · refine ⟨inv.places, inv.made, inv.own, fun _ last => ?_, ?_, fun no => ?_⟩
    · simp only [List.getLast?_append, List.getLast?_singleton, Option.some_or, Option.some.injEq,
        Function.update_self]
      rintro rfl
      rfl
    · simp only [List.length_append, List.length_singleton]
      omega
    · rw [can.1] at no
      simp at no
  · exact inv

theorem endLoop_inv (inv : s.Inv acceptNum) : s.endLoop.Inv acceptNum := by
  unfold Server.endLoop
  split_ifs with can
  · refine ⟨inv.places, inv.made, fun _ => inv.own (by simp [can.1]), fun _ => inv.address (.inl can.1),
      inv.batch, fun no => ?_⟩
    simp at no
  · exact inv

theorem Server.Inv.callProc (inv : s.Inv acceptNum) (serving : s.phase = .first ∨ s.phase = .later)
    {fd : ℤ} {peer : Sockaddr} {rest : List (ℤ × Sockaddr)} (next : s.newFds = (fd, peer) :: rest) :
    (s.callProc fd peer rest).Inv acceptNum := by
  obtain ⟨apart, bound⟩ := inv.own (by grind)
  have batch := inv.batch
  rw [next, List.length_cons] at batch
  refine ⟨?_, ?_, by simp [Server.callProc], by simp [Server.callProc], ?_, fun _ => ?_⟩
  · exact List.nodup_middle.mpr (List.nodup_cons.mpr ⟨apart, inv.places⟩)
  · intro obj mem
    obtain rfl | old := List.mem_cons.mp (List.perm_middle.mem_iff.mp mem)
    · exact bound
    · exact inv.made obj old
  · exact Nat.le_of_succ_le batch
  · exact batch

theorem Server.Inv.closeConn (inv : s.Inv acceptNum) (serving : s.phase = .first ∨ s.phase = .later)
    {fd : ℤ} {peer : Sockaddr} {rest : List (ℤ × Sockaddr)} (next : s.newFds = (fd, peer) :: rest) :
    (s.closeConn fd rest).Inv acceptNum := by
  obtain ⟨apart, bound⟩ := inv.own (by grind)
  have batch := inv.batch
  rw [next, List.length_cons] at batch
  refine ⟨?_, ?_, by simp [Server.closeConn], by simp [Server.closeConn], ?_, fun _ => ?_⟩
  · exact List.nodup_cons.mpr ⟨apart, inv.places⟩
  · intro obj mem
    obtain rfl | old := List.mem_cons.mp mem
    · exact bound
    · exact inv.made obj old
  · exact Nat.le_of_succ_le batch
  · exact batch

theorem proc_inv (inv : s.Inv acceptNum) : s.proc.Inv acceptNum := by
  unfold Server.proc
  cases next : s.newFds with
  | nil => exact inv
  | cons conn rest =>
    dsimp only
    split_ifs with serving invokes
    · exact inv.callProc serving next
    · exact inv.closeConn serving next
    · exact inv

theorem alloc_places {p : ObjPool} {running : List ℕ} (nodup : (p.used ++ running).Nodup)
    (made : ∀ obj ∈ p.used ++ running, obj < p.fresh) :
    (p.alloc.1 :: (p.alloc.2.used ++ running)).Nodup ∧
      ∀ obj ∈ p.alloc.1 :: (p.alloc.2.used ++ running), obj < p.alloc.2.fresh := by
  unfold ObjPool.alloc
  cases used : p.used with
  | nil =>
    rw [used] at nodup made
    dsimp only
    constructor
    · exact List.nodup_cons.mpr ⟨fun mem => absurd (made _ mem) (by omega), nodup⟩
    · intro obj mem
      obtain rfl | old := List.mem_cons.mp mem
      · omega
      · have := made obj old
        omega
  | cons obj rest =>
    rw [used] at nodup made
    exact ⟨nodup, made⟩

theorem take_inv (inv : s.Inv acceptNum) : s.take.Inv acceptNum := by
  unfold Server.take
  by_cases taking : s.phase = .taking
  · obtain ⟨nodup, made⟩ := alloc_places inv.places inv.made
    obtain ⟨apart, places⟩ := List.nodup_cons.mp nodup
    rw [if_pos taking]
    refine ⟨places, fun obj mem => made obj (List.mem_cons_of_mem _ mem), fun _ => ?_, ?_, inv.batch,
      fun _ => inv.rest (.inr taking)⟩
    · exact ⟨apart, made _ List.mem_cons_self⟩
    · intro phase last is
      have none : s.newFds = [] := by
        by_contra some
        simp [some] at phase
      simp [none] at is
  · rw [if_neg taking]
    exact inv

theorem finish_inv (inv : s.Inv acceptNum) (info : ℕ) (left : ConnInfo) (ret : ℤ) :
    (s.finish info left ret).Inv acceptNum := by
  unfold Server.finish
  by_cases runs : info ∈ s.running
  · have perm : (info :: s.connInfoPool.used ++ s.running.erase info).Perm
        (s.connInfoPool.used ++ s.running) :=
      List.perm_middle.symm.trans ((List.perm_cons_erase runs).symm.append_left _)
    rw [if_pos runs]
    refine ⟨?_, ?_, ?_, ?_, inv.batch, inv.rest⟩
    · exact perm.nodup_iff.mpr inv.places
    · exact fun obj mem => inv.made obj (perm.mem_iff.mp mem)
    · intro holds
      obtain ⟨apart, bound⟩ := inv.own holds
      exact ⟨fun mem => apart (perm.mem_iff.mp mem), bound⟩
    · intro phase last is
      have holds : s.phase ≠ .taking := by grind
      have other : s.connInfo ≠ info := by
        rintro rfl
        exact (inv.own holds).1 (List.mem_append_right _ runs)
      rw [← inv.address phase last is]
      exact congrArg ConnInfo.addr (Function.update_of_ne other ..)
  · rw [if_neg runs]
    exact inv

theorem Server.Inv.step (inv : s.Inv acceptNum) (event : Event) :
    (s.step acceptNum event).Inv acceptNum := by
  cases event with
  | accept fd addr => exact accept_inv inv fd addr
  | endLoop => exact endLoop_inv inv
  | proc => exact proc_inv inv
  | take => exact take_inv inv
  | finish info left ret => exact finish_inv inv info left ret
  | stop => exact ⟨inv.places, inv.made, inv.own, inv.address, inv.batch, inv.rest⟩

theorem start_inv (acceptNum cbArg : ℕ) : (Server.start cbArg).Inv acceptNum := by
  refine ⟨by simp [Server.start], by simp [Server.start], fun _ => ?_, fun _ last is => ?_,
    by simp [Server.start], fun no => ?_⟩
  · simp [Server.start]
  · simp [Server.start] at is
  · simp [Server.start] at no

end Invariant

section Main

variable {s : Server} {acceptNum : ℕ}

theorem callProc_right_iff (right : s.Right) (fd : ℤ) (peer : Sockaddr)
    (rest : List (ℤ × Sockaddr)) :
    (s.callProc fd peer rest).Right ↔ (s.infos s.connInfo).addr = peer := by
  constructor
  · intro after
    exact (after _ List.mem_cons_self).2
  · intro same c mem
    obtain rfl | old := List.mem_cons.mp mem
    · exact ⟨rfl, same⟩
    · exact right c old

theorem addr_iff_finds (inv : s.Inv acceptNum) (serving : s.phase = .first ∨ s.phase = .later)
    {fd : ℤ} {peer : Sockaddr} {rest : List (ℤ × Sockaddr)} (next : s.newFds = (fd, peer) :: rest) :
    (s.infos s.connInfo).addr = peer ↔ s.Finds peer := by
  unfold Server.Finds
  obtain first | later := serving
  · have address := inv.address (.inr first)
    obtain ⟨last, is⟩ : ∃ last, s.newFds.getLast? = some last := by
      rw [next, List.getLast?_cons]
      exact ⟨_, rfl⟩
    rw [first, address last is]
    constructor
    · intro same last' is'
      obtain rfl := Option.some.inj (is.symm.trans is')
      exact same
    · exact fun all => all last is
  · rw [later]

theorem proc_right_iff (inv : s.Inv acceptNum) (right : s.Right) :
    s.proc.Right ↔ Event.proc.Fair s := by
  unfold Server.proc Event.Fair
  cases next : s.newFds with
  | nil => exact iff_of_true right (by simp)
  | cons conn rest =>
    obtain ⟨fd, peer⟩ := conn
    dsimp only
    by_cases serving : s.phase = .first ∨ s.phase = .later
    · rw [if_pos serving]
      by_cases invokes : s.invokes = true
      · rw [if_pos invokes, callProc_right_iff right]
        have inside : (∀ fd' peer' rest', (fd, peer) :: rest = (fd', peer') :: rest' →
            s.invokes = true → s.Finds peer') ↔ s.Finds peer := by
          constructor
          · exact fun all => all fd peer rest rfl invokes
          · rintro finds _ _ _ same -
            obtain ⟨rfl, rfl⟩ := Prod.mk.inj (List.cons.inj same).1
            exact finds
        rw [inside]
        exact addr_iff_finds inv serving next
      · rw [if_neg invokes]
        exact iff_of_true right fun _ _ _ _ yes => absurd yes invokes
    · rw [if_neg serving]
      refine iff_of_true right fun _ _ _ _ _ => ?_
      unfold Server.Finds
      split
      · exact absurd (.inl ‹_›) serving
      · exact absurd (.inr ‹_›) serving
      · trivial

theorem Server.Right.congr {s' : Server} (right : s.Right) (calls : s'.calls = s.calls) :
    s'.Right := by
  intro c mem
  rw [calls] at mem
  exact right c mem

theorem step_right_iff (inv : s.Inv acceptNum) (right : s.Right) (event : Event) :
    (s.step acceptNum event).Right ↔ event.Fair s := by
  cases event with
  | proc => exact proc_right_iff inv right
  | accept fd addr =>
    refine iff_of_true ?_ trivial
    have calls : (s.accept acceptNum fd addr).calls = s.calls := by
      unfold Server.accept
      split_ifs <;> rfl
    exact right.congr calls
  | endLoop =>
    refine iff_of_true ?_ trivial
    have calls : s.endLoop.calls = s.calls := by
      unfold Server.endLoop
      split_ifs <;> rfl
    exact right.congr calls
  | take =>
    refine iff_of_true ?_ trivial
    have calls : s.take.calls = s.calls := by
      unfold Server.take
      split_ifs <;> rfl
    exact right.congr calls
  | finish info left ret =>
    refine iff_of_true ?_ trivial
    have calls : (s.finish info left ret).calls = s.calls := by
      unfold Server.finish
      split_ifs <;> rfl
    exact right.congr calls
  | stop => exact iff_of_true right trivial

/-- In a run every call of `conn_proc` gets the connection's own descriptor and address exactly when
the first connection of each batch has the address of the last one, and the later ones find theirs in
the objects that the pool gives. -/
theorem calls_right_iff (acceptNum cbArg : ℕ) (events : List Event) :
    (∀ past, past <+: events → (Server.run acceptNum cbArg past).Right) ↔
      ∀ past event, past ++ [event] <+: events → event.Fair (Server.run acceptNum cbArg past) := by
  have keeps : ∀ (s : Server) (event : Event), s.Inv acceptNum → (s.step acceptNum event).Inv acceptNum :=
    fun _ event inv => inv.step event
  have good_iff : ∀ (s : Server) (event : Event), s.Inv acceptNum → s.Right →
      ((s.step acceptNum event).Right ↔ event.Fair s) :=
    fun _ event inv right => step_right_iff inv right event
  exact foldl_good_iff keeps good_iff (start_inv acceptNum cbArg) (by simp [Server.start, Server.Right])
    events

/-- Where batches have one connection at most, all calls are right. -/
theorem single_right (cbArg : ℕ) (events : List Event) : (Server.run 1 cbArg events).Right := by
  have fair : ∀ (s : Server) (event : Event), s.Inv 1 → event.Fair s := by
    intro s event inv
    cases event with
    | proc =>
      intro fd peer rest next _
      have batch := inv.batch
      have left := inv.rest
      rw [next, List.length_cons] at batch left
      obtain rfl : rest = [] := List.eq_nil_of_length_eq_zero (by omega)
      unfold Server.Finds
      split
      · intro last is
        rw [next] at is
        obtain rfl := Option.some.inj is
        rfl
      · exact absurd (left (.inl ‹_›)) (by simp)
      · trivial
    | accept | endLoop | take | finish | stop => trivial
  have keeps : ∀ (s : Server) (event : Event), s.Inv 1 ∧ s.Right →
      (s.step 1 event).Inv 1 ∧ (s.step 1 event).Right := by
    rintro s event ⟨inv, right⟩
    exact ⟨inv.step event, (step_right_iff inv right event).mpr (fair s event inv)⟩
  have init : (Server.start cbArg).Inv 1 ∧ (Server.start cbArg).Right :=
    ⟨start_inv 1 cbArg, by simp [Server.start, Server.Right]⟩
  exact (foldl_invariant keeps init events).2

def peerA : Sockaddr := ⟨2, 1000, 1⟩

def peerB : Sockaddr := ⟨2, 2000, 2⟩

/-- Two connections are accepted in one turn. The first is served with the address of the second. -/
theorem first_gets_last_address : ¬ ∀ (acceptNum cbArg : ℕ) (events : List Event),
    (Server.run acceptNum cbArg events).Right := by
  intro claim
  have right := claim 100 0 [.accept 5 peerA, .accept 6 peerB, .endLoop, .proc]
  have same := (right ⟨5, peerA, ⟨5, peerB, 0, 0⟩⟩ (by decide)).2
  exact absurd same (by decide)

end Main

end Conet.Svrkit.TcpServer
