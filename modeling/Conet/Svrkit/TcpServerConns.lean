/- Module: Conet/Svrkit/TcpServerConns
   source: svrkit/src/tcp_server.cpp, svrkit/tcp_server.h, base/obj_pool.h
   digest: The accounts of the TCP server over its runs: its connections, its workers, and how many
   there may be. -/

import Conet.Lib.Counter
import Conet.Svrkit.TcpServer
import Mathlib.Algebra.Order.Group.Multiset
import Mathlib.Tactic.Abel

set_option autoImplicit false
set_option relaxedAutoImplicit false

namespace Conet.Svrkit.TcpServerConns

open Conet.Lib Conet.Lib.Counter Conet.Svrkit.TcpServer

/-! ### The server with its counter -/

/-- `accept_num`, `max_conn_num` and `exit_wait_ms`. -/
structure Conf where
  acceptNum : ℕ
  maxConnNum : ℕ
  exitWaitMs : ℤ
  uint32 : maxConnNum + 2 * acceptNum < 2 ^ 32

/-- Where the loop of `main_proc` is. -/
inductive Loop
  | top
  /-- in `usleep`, as there are too many connections -/
  | full
  /-- in `co_poll` -/
  | polling
  /-- from the first `my_accept4` to the end of `new_fds` -/
  | batch
  /-- behind the loop: in `clean_up`, which has waited so many times -/
  | cleaning (tries : ℕ)
  | stopped
  deriving DecidableEq

structure State where
  server : Server
  loop : Loop
  curConnNum : ℕ

/-- What happens to descriptors, where a handler can keep the one of its connection; and the end of
`clean_up`, which tells how many connections leak. -/
inductive Event
  | none
  | accepted (fd : ℤ)
  | closed (fd : ℤ)
  | kept (fd : ℤ)
  | stopped (leak : ℕ)

/-- The end of a connection, which `conn_proc` leaves in its object. -/
def ended (info left : ConnInfo) : Event := if 0 ≤ left.fd then .closed left.fd else .kept info.fd

variable (conf : Conf)

/-- The loop and the workers take turns wherever they yield. -/
inductive Step : State → Event → State → Prop
  | stop {s : State} : Step s .none { s with server := s.server.step conf.acceptNum .stop }
  /-- The object at hand goes back to the pool. -/
  | leave {s : State} (here : s.loop = .top) (stop : s.server.toStop = true) :
      Step s .none
        { s with
          server :=
            { s.server with connInfoPool := s.server.connInfoPool.release s.server.connInfo }
          loop := .cleaning 0 }
  | waitConns {s : State} (tries : ℕ) (here : s.loop = .cleaning tries)
      (more : (tries : ℤ) < conf.exitWaitMs) (some : s.curConnNum ≠ 0) :
      Step s .none { s with loop := .cleaning (tries + 1) }
  | stopped {s : State} (tries : ℕ) (here : s.loop = .cleaning tries)
      (done : conf.exitWaitMs ≤ tries ∨ s.curConnNum = 0) :
      Step s (.stopped s.curConnNum) { s with loop := .stopped }
  | wait {s : State} (here : s.loop = .top) (run : s.server.toStop = false)
      (full : conf.maxConnNum ≤ s.curConnNum) : Step s .none { s with loop := .full }
  | enter {s : State} (here : s.loop = .top) (run : s.server.toStop = false)
      (room : s.curConnNum < conf.maxConnNum) : Step s .none { s with loop := .polling }
  | waited {s : State} (here : s.loop = .full)
      (room : s.server.toStop = true ∨ s.curConnNum < conf.maxConnNum) :
      Step s .none { s with loop := .polling }
  /-- `co_poll` finds nothing, or fails. -/
  | nothing {s : State} (here : s.loop = .polling) : Step s .none { s with loop := .top }
  | ready {s : State} (here : s.loop = .polling) : Step s .none { s with loop := .batch }
  | accept {s : State} (fd : ℤ) (addr : Sockaddr) (here : s.loop = .batch) (got : 0 ≤ fd)
      (phase : s.server.phase = .accepting) (more : s.server.newFds.length < conf.acceptNum) :
      Step s (.accepted fd) { s with server := s.server.step conf.acceptNum (.accept fd addr) }
  /-- There was nothing to accept. -/
  | empty {s : State} (here : s.loop = .batch) (phase : s.server.phase = .accepting)
      (none : s.server.newFds = []) : Step s .none { s with loop := .top }
  | endLoop {s : State} (here : s.loop = .batch) (phase : s.server.phase = .accepting)
      (some : s.server.newFds ≠ []) :
      Step s .none { s with server := s.server.step conf.acceptNum .endLoop }
  | call {s : State} (fd : ℤ) (peer : Sockaddr) (rest : List (ℤ × Sockaddr))
      (here : s.loop = .batch) (phase : s.server.phase = .first ∨ s.server.phase = .later)
      (next : s.server.newFds = (fd, peer) :: rest) (invokes : s.server.invokes = true) :
      Step s .none
        { s with
          server := s.server.step conf.acceptNum .proc
          curConnNum := inc s.curConnNum }
  /-- A worker of the pool sees that the server stops. -/
  | refuse {s : State} (fd : ℤ) (peer : Sockaddr) (rest : List (ℤ × Sockaddr))
      (here : s.loop = .batch) (phase : s.server.phase = .first ∨ s.server.phase = .later)
      (next : s.server.newFds = (fd, peer) :: rest) (invokes : s.server.invokes = false) :
      Step s (.closed fd)
        { s with
          server := s.server.step conf.acceptNum .proc
          curConnNum := dec (inc s.curConnNum) }
  | take {s : State} (here : s.loop = .batch) (phase : s.server.phase = .taking) :
      Step s .none
        { s with
          server := s.server.step conf.acceptNum .take
          loop := if s.server.newFds = [] then .top else .batch }
  /-- `conn_proc` returns; it has left its worker in the object, and the descriptor or none. -/
  | finish {s : State} (info : ℕ) (left : ConnInfo) (ret : ℤ) (mem : info ∈ s.server.running)
      (co : left.co = (s.server.infos info).co)
      (fd : left.fd = (s.server.infos info).fd ∨ left.fd < 0) :
      Step s (ended (s.server.infos info) left)
        { s with
          server := s.server.step conf.acceptNum (.finish info left ret)
          curConnNum := dec s.curConnNum }

/-- `main_proc` at its loop. -/
def State.start (cbArg : ℕ) : State := ⟨.start cbArg, .top, 0⟩

def Event.accepts : Event → List ℤ
  | .accepted fd => [fd]
  | _ => []

def Event.closes : Event → List ℤ
  | .closed fd => [fd]
  | _ => []

def Event.keeps : Event → List ℤ
  | .kept fd => [fd]
  | _ => []

/-- The descriptors that have been accepted, closed, and kept by handlers. -/
def accepted (tr : List Event) : List ℤ := tr.flatMap Event.accepts

def closed (tr : List Event) : List ℤ := tr.flatMap Event.closes

def kept (tr : List Event) : List ℤ := tr.flatMap Event.keeps

/-- The descriptors of the batch that have no worker yet. -/
def State.waiting (s : State) : List ℤ := s.server.newFds.map Prod.fst

/-- The descriptors that have a worker. -/
def State.serving (s : State) : List ℤ := s.server.running.map fun obj => (s.server.infos obj).fd

/-- The workers: those in the pool, and those that have a connection. -/
def State.workers (s : State) : List ℕ :=
  s.server.coPool.used ++ s.server.running.map fun obj => (s.server.infos obj).co

/-! ### What the operations of the server change -/

section Server

variable {conf : Conf} {s : Server} {obj : ℕ} {infos : ℕ → ConnInfo} {v : ConnInfo} {l : List ℕ}

theorem map_update {β : Type} (apart : obj ∉ l) (g : ConnInfo → β) :
    (l.map fun o => g (Function.update infos obj v o)) = l.map fun o => g (infos o) := by
  refine List.map_congr_left fun o mem => ?_
  rw [Function.update_of_ne]
  rintro rfl
  exact apart mem

variable {acceptNum : ℕ} (inv : s.Inv acceptNum)
include inv

theorem own_not_running (phase : s.phase ≠ .taking) : s.connInfo ∉ s.running := fun mem =>
  (inv.own phase).1 (List.mem_append_right _ mem)

theorem fresh_not_running : s.connInfoPool.fresh ∉ s.running := fun mem =>
  Nat.lt_irrefl _ (inv.made _ (List.mem_append_right _ mem))

theorem accept_map {β : Type} (phase : s.phase = .accepting) (fd : ℤ) (addr : Sockaddr)
    (g : ConnInfo → β) :
    ((s.accept acceptNum fd addr).running.map fun o => g ((s.accept acceptNum fd addr).infos o)) =
      s.running.map fun o => g (s.infos o) := by
  unfold Server.accept
  split_ifs
  · exact map_update (own_not_running inv (by simp [phase])) g
  · rfl

theorem take_map {β : Type} (g : ConnInfo → β) :
    (s.take.running.map fun o => g (s.take.infos o)) = s.running.map fun o => g (s.infos o) := by
  unfold Server.take
  by_cases taking : s.phase = .taking
  · rw [if_pos taking]
    by_cases empty : s.connInfoPool.used = []
    · simp only [empty, if_true]
      exact map_update (fresh_not_running inv) g
    · simp only [empty, if_false]
  · rw [if_neg taking]

omit inv in
theorem finish_map {β : Type} {info : ℕ} (nodup : s.running.Nodup) (mem : info ∈ s.running)
    (left : ConnInfo) (ret : ℤ) (g : ConnInfo → β) :
    (s.running.map fun o => g (s.infos o)).Perm (g (s.infos info) ::
      (s.finish info left ret).running.map fun o => g ((s.finish info left ret).infos o)) := by
  have apart : info ∉ s.running.erase info := nodup.not_mem_erase
  unfold Server.finish
  rw [if_pos mem]
  simp only [map_update apart]
  exact (List.perm_cons_erase mem).map fun o => g (s.infos o)

omit inv in
theorem finish_places {info : ℕ} (mem : info ∈ s.running) (left : ConnInfo) (ret : ℤ) :
    ((s.finish info left ret).connInfoPool.used ++ (s.finish info left ret).running).Perm
      (s.connInfoPool.used ++ s.running) := by
  unfold Server.finish
  rw [if_pos mem]
  exact List.perm_middle.symm.trans ((List.perm_cons_erase mem).symm.append_left _)

theorem proc_map {β : Type} {fd : ℤ} {peer : Sockaddr} {rest : List (ℤ × Sockaddr)}
    (phase : s.phase = .first ∨ s.phase = .later) (next : s.newFds = (fd, peer) :: rest)
    (invokes : s.invokes = true) (g : ConnInfo → β) :
    (s.proc.running.map fun o => g (s.proc.infos o)) =
      g (s.filled fd) :: s.running.map fun o => g (s.infos o) := by
  have apart := own_not_running inv (by grind)
  have eq : s.proc = s.callProc fd peer rest := by
    rw [Server.proc, next]
    simp [phase, invokes]
  rw [eq]
  simp only [Server.callProc, List.map_cons, Function.update_self, map_update apart]

theorem refuse_map {β : Type} {fd : ℤ} {peer : Sockaddr} {rest : List (ℤ × Sockaddr)}
    (phase : s.phase = .first ∨ s.phase = .later) (next : s.newFds = (fd, peer) :: rest)
    (invokes : s.invokes = false) (g : ConnInfo → β) :
    (s.proc.running.map fun o => g (s.proc.infos o)) = s.running.map fun o => g (s.infos o) := by
  have apart := own_not_running inv (by grind)
  have eq : s.proc = s.closeConn fd rest := by
    rw [Server.proc, next]
    simp [phase, invokes]
  rw [eq]
  simp only [Server.closeConn, map_update apart]

end Server

/-! ### The accounts -/

section Accounts

variable {conf : Conf} {s s' : State} {ev : Event} {tr : List Event} {cbArg : ℕ}

/-- As many connections as there may be after so many batches in one: none, or less than a batch over the
limit for each. -/
def Conf.Bounds (conf : Conf) (batches n : ℕ) : Prop :=
  n = 0 ∨ n < conf.maxConnNum + batches * conf.acceptNum

/-- How many connections there are at each place of the loop; the loop that waits is left for a
stop, and then takes one more batch. -/
def Room (conf : Conf) (s : State) : Prop :=
  match s.loop with
  | .top => conf.Bounds 1 s.server.running.length ∨
      s.server.toStop = true ∧ conf.Bounds 2 s.server.running.length
  | .full => conf.Bounds 1 s.server.running.length
  | .polling => s.server.running.length < conf.maxConnNum ∨
      s.server.toStop = true ∧ conf.Bounds 1 s.server.running.length
  | .batch =>
    match s.server.phase with
    | .accepting => s.server.running.length < conf.maxConnNum ∨
        s.server.toStop = true ∧ conf.Bounds 1 s.server.running.length
    | _ => conf.Bounds 1 (s.server.running.length + s.server.newFds.length) ∨
        s.server.toStop = true ∧ conf.Bounds 2 (s.server.running.length + s.server.newFds.length)
  | .cleaning _ | .stopped => s.server.toStop = true ∧ conf.Bounds 2 s.server.running.length

theorem Conf.Bounds.fewer {batches m n : ℕ} (bounds : conf.Bounds batches n) (le : m ≤ n) :
    conf.Bounds batches m := by
  unfold Conf.Bounds at bounds ⊢
  omega

theorem Conf.Bounds.two {n : ℕ} (bounds : conf.Bounds 1 n) : conf.Bounds 2 n := by
  unfold Conf.Bounds at bounds ⊢
  omega

theorem Conf.bounds_of_lt {batches n : ℕ} (lt : n < conf.maxConnNum) : conf.Bounds batches n :=
  .inr (Nat.lt_add_right _ lt)

theorem Room.running (room : Room conf s) (run : s.server.toStop = false) :
    conf.Bounds 1 s.server.running.length := by
  unfold Room at room
  split at room
  · simpa [run] using room
  · exact room
  · have lt : s.server.running.length < conf.maxConnNum := by simpa [run] using room
    exact Conf.bounds_of_lt lt
  · split at room
    · have lt : s.server.running.length < conf.maxConnNum := by simpa [run] using room
      exact Conf.bounds_of_lt lt
    · have bounds : conf.Bounds 1 (s.server.running.length + s.server.newFds.length) := by
        simpa [run] using room
      exact bounds.fewer (Nat.le_add_right _ _)
  · simp [run] at room
  · simp [run] at room

theorem Room.bounds (room : Room conf s) : conf.Bounds 2 s.server.running.length := by
  by_cases run : s.server.toStop = false
  · exact (room.running run).two
  · unfold Room at room
    split at room
    · exact room.elim Conf.Bounds.two And.right
    · exact room.two
    · exact room.elim Conf.bounds_of_lt fun both => both.2.two
    · split at room
      · exact room.elim Conf.bounds_of_lt fun both => both.2.two
      · refine Conf.Bounds.fewer ?_ (Nat.le_add_right _ s.server.newFds.length)
        exact room.elim Conf.Bounds.two And.right
    · exact room.2
    · exact room.2

def Loop.listens : Loop → Bool
  | .cleaning _ | .stopped => false
  | _ => true

structure Inv (conf : Conf) (s : State) : Prop where
  server : s.loop.listens = true → s.server.Inv conf.acceptNum
  places : (s.server.connInfoPool.used ++ s.server.running).Nodup
  /-- Nothing is under way outside of a batch. -/
  idle : s.loop ≠ .batch → s.server.phase = .accepting ∧ s.server.newFds = []
  cur : s.curConnNum = s.server.running.length % 2 ^ 32
  room : Room conf s
  nodup : s.workers.Nodup
  made : ∀ co ∈ s.workers, co < s.server.coPool.fresh

theorem inv_start (cbArg : ℕ) : Inv conf (State.start cbArg) where
  server _ := start_inv conf.acceptNum cbArg
  places := List.nodup_nil
  idle _ := ⟨rfl, rfl⟩
  cur := rfl
  room := .inl (.inl rfl)
  nodup := List.nodup_nil
  made := by simp [State.workers, State.start, Server.start]

theorem Inv.listening (inv : Inv conf s) (here : s.loop = .batch) :
    s.server.Inv conf.acceptNum := inv.server (here ▸ rfl)

theorem Inv.exact (inv : Inv conf s) : s.curConnNum = s.server.running.length := by
  have bound := conf.uint32
  have bounds := inv.room.bounds
  rw [inv.cur, Nat.mod_eq_of_lt]
  unfold Conf.Bounds at bounds
  omega

theorem Inv.move {loop : Loop} (inv : Inv conf s) (room : Room conf { s with loop })
    (idle : loop ≠ .batch → s.server.phase = .accepting ∧ s.server.newFds = [])
    (listens : loop.listens = true → s.loop.listens = true) : Inv conf { s with loop } :=
  ⟨fun l => inv.server (listens l), inv.places, idle, inv.cur, room, inv.nodup, inv.made⟩

theorem Inv.stop (inv : Inv conf s) :
    Inv conf { s with server := s.server.step conf.acceptNum .stop } := by
  refine ⟨fun l => (inv.server l).step .stop, inv.places, inv.idle, inv.cur, ?_, inv.nodup,
    inv.made⟩
  have room := inv.room
  unfold Room at room ⊢
  cases here : s.loop with
  | top | polling =>
    simp only [here] at room ⊢
    exact room.imp_right fun both => ⟨rfl, both.2⟩
  | full =>
    simp only [here] at room ⊢
    exact room
  | batch =>
    simp only [here] at room ⊢
    have phase : (s.server.step conf.acceptNum .stop).phase = s.server.phase := rfl
    rw [phase]
    split at room
    · exact room.imp_right fun both => ⟨rfl, both.2⟩
    · exact room.imp_right fun both => ⟨rfl, both.2⟩
  | cleaning | stopped =>
    simp only [here] at room ⊢
    exact ⟨rfl, room.2⟩

/-- `main_proc` leaves its loop, and gives the object at hand back. -/
theorem Inv.leave (inv : Inv conf s) (here : s.loop = .top) (stop : s.server.toStop = true) :
    Inv conf
      { s with
        server := { s.server with connInfoPool := s.server.connInfoPool.release s.server.connInfo }
        loop := .cleaning 0 } := by
  obtain ⟨phase, none⟩ := inv.idle (by simp [here])
  have own := (inv.server (here ▸ rfl)).own (by simp [phase])
  have room : conf.Bounds 2 s.server.running.length := inv.room.bounds
  exact ⟨nofun, List.nodup_cons.mpr ⟨own.1, inv.places⟩, fun _ => ⟨phase, none⟩, inv.cur,
    ⟨stop, room⟩, inv.nodup, inv.made⟩

theorem Inv.accept {fd : ℤ} {addr : Sockaddr} (inv : Inv conf s) (here : s.loop = .batch)
    (phase : s.server.phase = .accepting) (more : s.server.newFds.length < conf.acceptNum) :
    Inv conf { s with server := s.server.step conf.acceptNum (.accept fd addr) } := by
  have map := accept_map (inv.listening here) phase fd addr ConnInfo.co
  have after := (inv.listening here).step (.accept fd addr)
  have eq : s.server.accept conf.acceptNum fd addr = _ := if_pos ⟨phase, more⟩
  have workers : State.workers { s with server := s.server.accept conf.acceptNum fd addr } =
      s.workers := by
    rw [State.workers, map, eq]
    rfl
  have room := inv.room
  simp only [Room, here, phase] at room
  refine ⟨fun _ => after, after.places, fun other => absurd here other, ?_, ?_, ?_, ?_⟩
  · show s.curConnNum = (s.server.accept conf.acceptNum fd addr).running.length % 2 ^ 32
    rw [eq]
    exact inv.cur
  · simpa only [Room, here, Server.step, eq, phase] using room
  · exact workers.symm ▸ inv.nodup
  · show ∀ co ∈ State.workers { s with server := s.server.accept conf.acceptNum fd addr },
      co < (s.server.accept conf.acceptNum fd addr).coPool.fresh
    rw [workers, eq]
    exact inv.made

theorem Inv.endLoop (inv : Inv conf s) (here : s.loop = .batch)
    (phase : s.server.phase = .accepting) (some : s.server.newFds ≠ []) :
    Inv conf { s with server := s.server.step conf.acceptNum .endLoop } := by
  have eq : s.server.endLoop = { s.server with phase := .first } := if_pos ⟨phase, some⟩
  have batch := (inv.listening here).batch
  have after := (inv.listening here).step .endLoop
  have room := inv.room
  simp only [Room, here, phase, Conf.Bounds] at room
  refine ⟨fun _ => after, after.places, fun other => absurd here other, ?_, ?_, ?_, ?_⟩
  · simpa only [Server.step, eq] using inv.cur
  · simp only [Room, here, Server.step, eq, Conf.Bounds]
    obtain le | ⟨stop, le⟩ := room
    · exact .inl (by omega)
    · exact .inr ⟨stop, by omega⟩
  · simpa only [State.workers, Server.step, eq] using inv.nodup
  · simpa only [State.workers, Server.step, eq] using inv.made

theorem Inv.handing (inv : Inv conf s) (here : s.loop = .batch)
    (phase : s.server.phase ≠ .accepting) :
    conf.Bounds 1 (s.server.running.length + s.server.newFds.length) ∨
      s.server.toStop = true ∧ conf.Bounds 2 (s.server.running.length + s.server.newFds.length) := by
  have room := inv.room
  unfold Room at room
  rw [here] at room
  cases at_ : s.server.phase with
  | accepting => exact absurd at_ phase
  | first | later | taking => simpa only [at_] using room

theorem alloc_workers {p : ObjPool} {cos : List ℕ} (nodup : (p.used ++ cos).Nodup)
    (made : ∀ co ∈ p.used ++ cos, co < p.fresh) :
    (p.alloc.2.used ++ p.alloc.1 :: cos).Nodup ∧
      ∀ co ∈ p.alloc.2.used ++ p.alloc.1 :: cos, co < p.alloc.2.fresh := by
  obtain ⟨nodup, made⟩ := alloc_places nodup made
  refine ⟨List.nodup_middle.mpr nodup, fun co mem => made co ?_⟩
  exact List.perm_middle.mem_iff.mp mem

theorem Inv.call {fd : ℤ} {peer : Sockaddr} {rest : List (ℤ × Sockaddr)} (inv : Inv conf s)
    (here : s.loop = .batch) (phase : s.server.phase = .first ∨ s.server.phase = .later)
    (next : s.server.newFds = (fd, peer) :: rest) (invokes : s.server.invokes = true) :
    Inv conf { s with
      server := s.server.step conf.acceptNum .proc
      curConnNum := inc s.curConnNum } := by
  have map := proc_map (inv.listening here) phase next invokes ConnInfo.co
  have after := (inv.listening here).step .proc
  have eq : s.server.proc = s.server.callProc fd peer rest := by
    rw [Server.proc, next]
    simp [phase, invokes]
  obtain ⟨nodup, made⟩ := alloc_workers inv.nodup inv.made
  have workers : State.workers ⟨s.server.proc, s.loop, inc s.curConnNum⟩ =
      s.server.coPool.alloc.2.used ++
        s.server.coPool.alloc.1 :: s.server.running.map fun obj => (s.server.infos obj).co := by
    rw [State.workers, map, eq]
    rfl
  have handing := inv.handing here (by grind)
  rw [next, List.length_cons] at handing
  refine ⟨fun _ => after, after.places, fun other => absurd here other, ?_, ?_, ?_, ?_⟩
  · show inc s.curConnNum = s.server.proc.running.length % 2 ^ 32
    rw [inv.cur, inc_mod, eq]
    rfl
  · simp only [Room, here, Server.step, eq, Server.callProc, List.length_cons]
    exact handing.imp (·.fewer (by omega)) (And.imp_right (·.fewer (by omega)))
  · exact workers.symm ▸ nodup
  · show ∀ co ∈ State.workers ⟨s.server.proc, s.loop, inc s.curConnNum⟩,
      co < s.server.proc.coPool.fresh
    rw [workers, eq]
    exact made

theorem Inv.refuse {fd : ℤ} {peer : Sockaddr} {rest : List (ℤ × Sockaddr)} (inv : Inv conf s)
    (here : s.loop = .batch) (phase : s.server.phase = .first ∨ s.server.phase = .later)
    (next : s.server.newFds = (fd, peer) :: rest) (invokes : s.server.invokes = false) :
    Inv conf { s with
      server := s.server.step conf.acceptNum .proc
      curConnNum := dec (inc s.curConnNum) } := by
  have map := refuse_map (inv.listening here) phase next invokes ConnInfo.co
  have after := (inv.listening here).step .proc
  have eq : s.server.proc = s.server.closeConn fd rest := by
    rw [Server.proc, next]
    simp [phase, invokes]
  obtain ⟨nodup, made⟩ := alloc_workers inv.nodup inv.made
  have workers : State.workers ⟨s.server.proc, s.loop, dec (inc s.curConnNum)⟩ =
      s.server.coPool.alloc.2.used ++ s.server.running.map fun obj => (s.server.infos obj).co := by
    rw [State.workers, map, eq]
    rfl
  have sub := (List.sublist_cons_self s.server.coPool.alloc.1
    (s.server.running.map fun obj => (s.server.infos obj).co)).append_left
      s.server.coPool.alloc.2.used
  have handing := inv.handing here (by grind)
  rw [next, List.length_cons] at handing
  refine ⟨fun _ => after, after.places, fun other => absurd here other, ?_, ?_, ?_, ?_⟩
  · show dec (inc s.curConnNum) = s.server.proc.running.length % 2 ^ 32
    rw [inv.cur, dec_inc_mod, eq]
    rfl
  · simp only [Room, here, Server.step, eq, Server.closeConn]
    exact handing.imp (·.fewer (by omega)) (And.imp_right (·.fewer (by omega)))
  · exact workers.symm ▸ nodup.sublist sub
  · show ∀ co ∈ State.workers ⟨s.server.proc, s.loop, dec (inc s.curConnNum)⟩,
      co < s.server.proc.coPool.fresh
    rw [workers, eq]
    exact fun co mem => made co (sub.subset mem)

theorem Inv.take (inv : Inv conf s) (here : s.loop = .batch) (phase : s.server.phase = .taking) :
    Inv conf { s with
      server := s.server.step conf.acceptNum .take
      loop := if s.server.newFds = [] then .top else .batch } := by
  have map := take_map (inv.listening here) ConnInfo.co
  have after := (inv.listening here).step .take
  have handing := inv.handing here (by simp [phase])
  have eq : s.server.take = _ := if_pos phase
  have workers : State.workers ⟨s.server.take, if s.server.newFds = [] then .top else .batch,
      s.curConnNum⟩ = s.workers := by
    rw [State.workers, map, eq]
    rfl
  refine ⟨fun _ => after, after.places, fun other => ?_, ?_, ?_, ?_, ?_⟩
  · have none : s.server.newFds = [] := by
      by_contra some
      exact other (if_neg some)
    simp [Server.step, eq, none]
  · show s.curConnNum = s.server.take.running.length % 2 ^ 32
    rw [eq]
    exact inv.cur
  · by_cases none : s.server.newFds = []
    · simp only [none, List.length_nil, Nat.add_zero] at handing
      simpa only [Room, Server.step, eq, none, if_true] using handing
    · simpa only [Room, Server.step, eq, none, if_false] using handing
  · exact workers.symm ▸ inv.nodup
  · show ∀ co ∈ State.workers ⟨s.server.take, if s.server.newFds = [] then .top else .batch,
      s.curConnNum⟩, co < s.server.take.coPool.fresh
    rw [workers, eq]
    exact inv.made

theorem Room.fewer {n : ℕ} {server : Server} (room : Room conf s)
    (toStop : server.toStop = s.server.toStop) (phase : server.phase = s.server.phase)
    (newFds : server.newFds = s.server.newFds)
    (fewer : server.running.length ≤ s.server.running.length) :
    Room conf { s with server, curConnNum := n } := by
  unfold Room at room ⊢
  cases here : s.loop with
  | top | polling =>
    simp only [here, toStop] at room ⊢
    unfold Conf.Bounds at room ⊢
    exact room.imp (by omega) fun both => ⟨both.1, by omega⟩
  | full =>
    simp only [here] at room ⊢
    exact room.fewer fewer
  | batch =>
    cases at_ : s.server.phase with
    | accepting | first | later | taking =>
      simp only [here, toStop, phase, newFds, at_] at room ⊢
      unfold Conf.Bounds at room ⊢
      exact room.imp (by omega) fun both => ⟨both.1, by omega⟩
  | cleaning | stopped =>
    simp only [here, toStop] at room ⊢
    exact ⟨room.1, room.2.fewer fewer⟩

theorem Inv.finish {info : ℕ} {left : ConnInfo} {ret : ℤ} (inv : Inv conf s)
    (mem : info ∈ s.server.running) (co : left.co = (s.server.infos info).co) :
    Inv conf { s with
      server := s.server.step conf.acceptNum (.finish info left ret)
      curConnNum := dec s.curConnNum } := by
  have map := finish_map (List.nodup_append.mp inv.places).2.1 mem left ret ConnInfo.co
  have eq : s.server.finish info left ret = _ := if_pos mem
  have length : s.server.running.length = (s.server.running.erase info).length + 1 := by
    have pos := List.length_pos_of_mem mem
    rw [List.length_erase_of_mem mem]
    omega
  have whole : s.workers.Perm (s.server.coPool.used ++ (s.server.infos info).co ::
      (s.server.finish info left ret).running.map fun obj =>
        ((s.server.finish info left ret).infos obj).co) := map.append_left _
  have used : (s.server.finish info left ret).coPool.used = s.server.coPool.used ∨
      (s.server.finish info left ret).coPool.used = left.co :: s.server.coPool.used := by
    rw [eq]
    dsimp only
    split_ifs
    · exact .inr rfl
    · exact .inl rfl
  have sub : (State.workers ⟨s.server.finish info left ret, s.loop, dec s.curConnNum⟩).Subperm
      s.workers := by
    obtain used | used := used
    · rw [State.workers, used]
      exact ((List.sublist_cons_self _ _).append_left _).subperm.trans whole.symm.subperm
    · rw [State.workers, used, co]
      exact (List.perm_middle.symm.trans whole.symm).subperm
  have fresh : (s.server.finish info left ret).coPool.fresh = s.server.coPool.fresh := by
    rw [eq]
    dsimp only
    split_ifs <;> rfl
  obtain ⟨l, perm, sublist⟩ := sub
  refine ⟨fun l => (inv.server l).step (.finish info left ret), ?_, fun other => ?_, ?_, ?_, ?_,
    fun c mem => ?_⟩
  · exact (finish_places mem left ret).nodup_iff.mpr inv.places
  · show (s.server.finish info left ret).phase = _ ∧ (s.server.finish info left ret).newFds = _
    rw [eq]
    exact inv.idle other
  · show dec s.curConnNum = (s.server.finish info left ret).running.length % 2 ^ 32
    rw [inv.cur, length, dec_mod, eq]
  · refine inv.room.fewer ?_ ?_ ?_ ?_
    · show (s.server.finish info left ret).toStop = s.server.toStop
      rw [eq]
    · show (s.server.finish info left ret).phase = s.server.phase
      rw [eq]
    · show (s.server.finish info left ret).newFds = s.server.newFds
      rw [eq]
    · show (s.server.finish info left ret).running.length ≤ s.server.running.length
      rw [eq, length]
      exact Nat.le_succ _
  · exact perm.nodup_iff.mp (inv.nodup.sublist sublist)
  · exact fresh.symm ▸ inv.made c (sublist.subset (perm.mem_iff.mpr mem))

theorem Inv.step (inv : Inv conf s) (step : Step conf s ev s') : Inv conf s' := by
  have room := inv.room
  cases step with
  | stop => exact inv.stop
  | leave here stop => exact inv.leave here stop
  | waitConns tries here more some =>
    simp only [Room, here] at room
    exact inv.move room (fun _ => inv.idle (by simp [here])) fun no => by cases no
  | stopped tries here done =>
    simp only [Room, here] at room
    exact inv.move room (fun _ => inv.idle (by simp [here])) fun no => by cases no
  | wait here run full =>
    simp only [Room, here, run, Bool.false_eq_true, false_and, or_false] at room
    exact inv.move room (fun _ => inv.idle (by simp [here])) fun _ => here ▸ rfl
  | enter here run free =>
    rw [inv.exact] at free
    exact inv.move (.inl free) (fun _ => inv.idle (by simp [here])) fun _ => here ▸ rfl
  | waited here free =>
    simp only [Room, here] at room
    rw [inv.exact] at free
    refine inv.move ?_ (fun _ => inv.idle (by simp [here])) fun _ => here ▸ rfl
    exact free.symm.imp_right fun stop => ⟨stop, room⟩
  | nothing here =>
    simp only [Room, here] at room
    refine inv.move ?_ (fun _ => inv.idle (by simp [here])) fun _ => here ▸ rfl
    exact room.imp Conf.bounds_of_lt (And.imp_right Conf.Bounds.two)
  | ready here =>
    obtain ⟨phase, -⟩ := inv.idle (by simp [here])
    simp only [Room, here] at room
    refine inv.move ?_ (fun other => absurd rfl other) fun _ => here ▸ rfl
    simpa only [Room, phase] using room
  | accept fd addr here got phase more => exact inv.accept here phase more
  | empty here phase none =>
    simp only [Room, here, phase] at room
    refine inv.move ?_ (fun _ => ⟨phase, none⟩) fun _ => here ▸ rfl
    exact room.imp Conf.bounds_of_lt (And.imp_right Conf.Bounds.two)
  | endLoop here phase some => exact inv.endLoop here phase some
  | call fd peer rest here phase next invokes => exact inv.call here phase next invokes
  | refuse fd peer rest here phase next invokes => exact inv.refuse here phase next invokes
  | take here phase => exact inv.take here phase
  | finish info left ret mem co fd => exact inv.finish mem co

theorem Step.balance (inv : Inv conf s) (step : Step conf s ev s') :
    (ev.accepts : Multiset ℤ) + s.waiting + s.serving =
      (ev.closes : Multiset ℤ) + ev.keeps + s'.waiting + s'.serving := by
  cases step with
  | accept fd addr here got phase more =>
    have map := accept_map (inv.listening here) phase fd addr ConnInfo.fd
    have eq : s.server.accept conf.acceptNum fd addr = _ := if_pos ⟨phase, more⟩
    have waiting : (s.server.accept conf.acceptNum fd addr).newFds.map Prod.fst =
        s.server.newFds.map Prod.fst ++ [fd] := by
      rw [eq]
      simp
    simp only [Event.accepts, Event.closes, Event.keeps, State.waiting, State.serving, Server.step,
      map, waiting, ← Multiset.coe_add, Multiset.coe_nil]
    abel
  | endLoop here phase some =>
    have eq : s.server.endLoop = { s.server with phase := .first } := if_pos ⟨phase, some⟩
    simp only [State.waiting, State.serving, Server.step, eq]
    rfl
  | call fd peer rest here phase next invokes =>
    have map := proc_map (inv.listening here) phase next invokes ConnInfo.fd
    have eq : s.server.proc = s.server.callProc fd peer rest := by
      rw [Server.proc, next]
      simp [phase, invokes]
    have waiting : s.server.proc.newFds = rest := by rw [eq, Server.callProc]
    simp only [Event.accepts, Event.closes, Event.keeps, State.waiting, State.serving, Server.step,
      map, waiting, next, List.map_cons, ← Multiset.cons_coe, ← Multiset.singleton_add,
      Server.filled]
    abel
  | refuse fd peer rest here phase next invokes =>
    have map := refuse_map (inv.listening here) phase next invokes ConnInfo.fd
    have eq : s.server.proc = s.server.closeConn fd rest := by
      rw [Server.proc, next]
      simp [phase, invokes]
    have waiting : s.server.proc.newFds = rest := by rw [eq, Server.closeConn]
    simp only [Event.accepts, Event.closes, Event.keeps, State.waiting, State.serving, Server.step,
      map, waiting, next, List.map_cons, ← Multiset.cons_coe, ← Multiset.singleton_add,
      Multiset.coe_nil]
    abel
  | take here phase =>
    have map := take_map (inv.listening here) ConnInfo.fd
    have eq : s.server.take = _ := if_pos phase
    have waiting : s.server.take.newFds = s.server.newFds := by rw [eq]
    simp only [State.waiting, State.serving, Server.step, map, waiting]
    rfl
  | finish info left ret mem co fd =>
    have map := Multiset.coe_eq_coe.mpr
      (finish_map (List.nodup_append.mp inv.places).2.1 mem left ret ConnInfo.fd)
    have eq : s.server.finish info left ret = _ := if_pos mem
    have waiting : (s.server.finish info left ret).newFds = s.server.newFds := by rw [eq]
    have gone : ((ended (s.server.infos info) left).closes : Multiset ℤ) +
        (ended (s.server.infos info) left).keeps = {(s.server.infos info).fd} := by
      unfold ended
      split_ifs with open_
      · rw [fd.resolve_right (by omega)]
        rfl
      · rfl
    have none : (ended (s.server.infos info) left).accepts = [] := by
      unfold ended
      split_ifs <;> rfl
    simp only [State.waiting, State.serving, Server.step, waiting, map, none, gone,
      ← Multiset.cons_coe, ← Multiset.singleton_add, Multiset.coe_nil]
    abel
  | _ => rfl

theorem accounted_run (run : Trace (State.start cbArg) (Step conf) tr s) : Inv conf s ∧
    (accepted tr : Multiset ℤ) = (closed tr : Multiset ℤ) + kept tr + s.waiting + s.serving := by
  refine run.invariant (fun tr s => Inv conf s ∧ (accepted tr : Multiset ℤ) =
    (closed tr : Multiset ℤ) + kept tr + s.waiting + s.serving) ⟨inv_start cbArg, rfl⟩ ?_
  intro tr s ev s' ⟨inv, sum⟩ step
  refine ⟨inv.step step, ?_⟩
  have one := step.balance inv
  have accepts : (accepted (tr ++ [ev]) : Multiset ℤ) = accepted tr + ev.accepts := by
    simp [accepted]
  have closes : (closed (tr ++ [ev]) : Multiset ℤ) = closed tr + ev.closes := by simp [closed]
  have keeps : (kept (tr ++ [ev]) : Multiset ℤ) = kept tr + ev.keeps := by simp [kept]
  calc (accepted (tr ++ [ev]) : Multiset ℤ)
      = (closed tr : Multiset ℤ) + kept tr + (ev.accepts + s.waiting + s.serving) := by
        rw [accepts, sum]
        abel
    _ = (closed (tr ++ [ev]) : Multiset ℤ) + kept (tr ++ [ev]) + s'.waiting + s'.serving := by
        rw [one, closes, keeps]
        abel

/-- The object that the loop has at hand. -/
def State.atHand (s : State) : List ℕ :=
  if s.loop.listens = true ∧ s.server.phase ≠ .taking then [s.server.connInfo] else []

theorem Inv.objects_nodup (inv : Inv conf s) :
    (s.atHand ++ (s.server.connInfoPool.used ++ s.server.running)).Nodup := by
  unfold State.atHand
  split_ifs with here
  · exact List.nodup_cons.mpr ⟨((inv.server here.1).own here.2).1, inv.places⟩
  · exact inv.places

/-- Every descriptor that is accepted waits in its batch, has a worker, has been closed, or has been
kept by its handler, just once; the counter is the number of the connections with a worker, which is
over the limit by less than a batch, or by less than two after a stop; and no worker and no object
is in two places. -/
theorem connections_accounted (run : Trace (State.start cbArg) (Step conf) tr s) :
    (accepted tr : Multiset ℤ) = (closed tr : Multiset ℤ) + kept tr + s.waiting + s.serving ∧
      s.curConnNum = s.server.running.length ∧
      (s.server.toStop = false → conf.Bounds 1 s.server.running.length) ∧
      conf.Bounds 2 s.server.running.length ∧ s.workers.Nodup ∧
      (s.atHand ++ (s.server.connInfoPool.used ++ s.server.running)).Nodup := by
  obtain ⟨inv, sum⟩ := accounted_run run
  exact ⟨sum, inv.exact, inv.room.running, inv.room.bounds, inv.nodup, inv.objects_nodup⟩

theorem Step.ends {leak : ℕ} (ends : Step conf s (.stopped leak) s') :
    leak = s.curConnNum ∧ ∃ tries, s.loop = .cleaning tries := by
  generalize same : Event.stopped leak = ev at ends
  cases ends with
  | stopped tries here done => exact ⟨Event.stopped.inj same, tries, here⟩
  | finish info left ret mem co fd =>
    unfold ended at same
    split_ifs at same
  | _ => cases same

/-- The end of the server: it has been stopped, all that was ever accepted has been closed or kept
but what is still served, and `clean_up` tells how many these are. -/
theorem stopped_accounted {leak : ℕ} (run : Trace (State.start cbArg) (Step conf) tr s)
    (ends : Step conf s (.stopped leak) s') :
    s.server.toStop = true ∧ leak = s.serving.length ∧
      (accepted tr : Multiset ℤ) = (closed tr : Multiset ℤ) + kept tr + s.serving := by
  obtain ⟨inv, sum⟩ := accounted_run run
  obtain ⟨rfl, tries, here⟩ := ends.ends
  have room := inv.room
  simp only [Room, here] at room
  have waiting : s.waiting = [] := by
    rw [State.waiting, (inv.idle (by simp [here])).2, List.map_nil]
  rw [waiting, Multiset.coe_nil, add_zero] at sum
  exact ⟨room.1, by rw [inv.exact, State.serving, List.length_map], sum⟩

def usual : Conf := ⟨100, 100000, 10000, by decide⟩

/-- A connection is accepted and served, its handler leaves the descriptor to the worker, and the
server is stopped. -/
def oneServed : List Event :=
  [.none, .none, .accepted 7, .none, .none, .none, .closed 7, .none, .none]

theorem oneServed_run : ∃ s s',
    Trace (State.start 0) (Step usual) oneServed s ∧ Step usual s (.stopped 0) s' := by
  have start : Trace (State.start 0) (Step usual) [] (State.start 0) := .init
  have ready := (start.step (.enter rfl rfl (by decide))).step (.ready rfl)
  have accepted := ready.step (.accept 7 ⟨2, 80, 1⟩ rfl (by decide) rfl (by decide))
  have listed := accepted.step (.endLoop rfl rfl (List.cons_ne_nil _ _))
  have called := listed.step (.call 7 ⟨2, 80, 1⟩ [] rfl (.inl rfl) rfl rfl)
  have taken := called.step (.take rfl rfl)
  have served := taken.step
    (.finish 0 ⟨7, ⟨2, 80, 1⟩, 0, 0⟩ 0 (List.mem_singleton.mpr rfl) rfl (.inl rfl))
  have left := (served.step .stop).step (.leave rfl rfl)
  exact ⟨_, _, left, .stopped 0 rfl (.inr rfl)⟩

theorem connections_accounted_oneServed : ∃ s : State,
    (accepted oneServed : Multiset ℤ) =
        (closed oneServed : Multiset ℤ) + kept oneServed + s.waiting + s.serving ∧
      s.curConnNum = s.server.running.length ∧
      (s.server.toStop = false → usual.Bounds 1 s.server.running.length) ∧
      usual.Bounds 2 s.server.running.length ∧ s.workers.Nodup ∧
      (s.atHand ++ (s.server.connInfoPool.used ++ s.server.running)).Nodup := by
  obtain ⟨s, s', run, ends⟩ := oneServed_run
  exact ⟨s, connections_accounted run⟩

theorem stopped_accounted_oneServed : ∃ s : State, s.server.toStop = true ∧ 0 = s.serving.length ∧
    (accepted oneServed : Multiset ℤ) =
      (closed oneServed : Multiset ℤ) + kept oneServed + s.serving := by
  obtain ⟨s, s', run, ends⟩ := oneServed_run
  exact ⟨s, stopped_accounted run ends⟩

end Accounts

end Conet.Svrkit.TcpServerConns
