/- Module: Conet/Svrkit/UdpServer
   source: svrkit/src/udp_server.cpp, svrkit/udp_server.h, core/src/wait_queue.cpp
   digest: The UDP server, its receiving loop, its workers and its sender in any order: what is sent,
   and who holds which buffer. -/

import Conet.Lib.Counter
import Conet.Lib.Trace
import Mathlib.Algebra.Order.Group.Multiset
import Mathlib.Data.Int.Notation
import Mathlib.Data.List.Pairwise
import Mathlib.Logic.Function.Basic
import Mathlib.Tactic.Abel

set_option autoImplicit false
set_option relaxedAutoImplicit false

namespace Conet.Svrkit.UdpServer

open Conet.Lib Conet.Lib.Counter

universe u

variable {A : Type u}

/-! ### The server -/

/-- `conf_t`. -/
structure Conf where
  maxPacketSize : ℕ
  maxConnNum : ℕ
  uint32 : maxConnNum < 2 ^ 32

/-- Where `main_proc2` is. -/
inductive Main
  | top
  /-- in `usleep`, as there are too many requests -/
  | full
  /-- in `co_poll` -/
  | polling
  /-- in `recvfrom` -/
  | receiving (buffer : ℕ)
  /-- behind its loop -/
  | closed

/-- `tx_data_t`. -/
structure TxData (A : Type u) where
  dstAddr : A
  data : ℕ
  len : ℕ
  /-- for the proof: what the handler had left in the buffer -/
  out : List UInt8

/-- Where `do_send_data` is. -/
inductive Sender (A : Type u)
  | top
  /-- in `wait_on` -/
  | waiting
  /-- before the `sendto` of the first one -/
  | sending (queue : List (TxData A))
  | done

/-- Where a worker is: in `conn_proc`, with its `obuffer`, or behind it. -/
inductive Phase
  | handling (obuffer : ℕ)
  | leaving (ret : ℤ)

/-- A worker coroutine that has a request, with the request. -/
structure Worker (A : Type u) where
  co : ℕ
  addr : A
  data : ℕ
  len : ℕ
  /-- for the proof: the datagram, if there was one -/
  given : Option (List UInt8)
  phase : Phase

structure State (A : Type u) where
  toStop : Bool
  curConnNum : ℕ
  main : Main
  sender : Sender A
  /-- the workers that have a request -/
  workers : List (Worker A)
  coPool : List ℕ
  /-- how many workers have been made -/
  made : ℕ
  txQueue : List (TxData A)
  /-- the bytes of each buffer -/
  mem : ℕ → ℕ → UInt8
  /-- the buffers that `buffer_pool` has given out -/
  used : Multiset ℕ
  /-- for the proof: those of them that nobody holds any more -/
  lost : Multiset ℕ

def State.read (s : State A) (buffer len : ℕ) : List UInt8 := (List.range len).map (s.mem buffer)

inductive Event (A : Type u)
  | none
  /-- A handler looks at its input. -/
  | looked (given : Option (List UInt8)) (input : List UInt8)
  | answered (dst : A) (out : List UInt8)
  | unanswered
  /-- a call of `sendto` -/
  | sendto (dst : A) (out : List UInt8)

/-- `wakeup_all` of `rsp_wait`. -/
def Sender.woken : Sender A → Sender A
  | .waiting => .top
  | sender => sender

/-- What `recvfrom` has done with the buffer. -/
def received (bytes : ℕ → UInt8) : Option (List UInt8) → ℕ → UInt8
  | none => bytes
  | some datagram => fun i => datagram.getD i (bytes i)

/-- `req->len = ret`. -/
def receivedLen : Option (List UInt8) → ℕ
  | none => 2 ^ 64 - 1
  | some datagram => datagram.length

/-- A worker `co` gets the request in the buffer `b`, and starts with an output buffer. -/
def State.begin (s : State A) (co b obuffer : ℕ) (addr : A) (datagram : Option (List UInt8)) :
    State A :=
  { s with
    main := .top
    curConnNum := inc s.curConnNum
    workers := ⟨co, addr, b, receivedLen datagram, datagram, .handling obuffer⟩ :: s.workers
    mem := Function.update s.mem b (received (s.mem b) datagram)
    used := obuffer ::ₘ s.used }

@[simp] theorem begin_coPool {s : State A} {co b o : ℕ} {addr : A} {datagram : Option (List UInt8)} :
    (s.begin co b o addr datagram).coPool = s.coPool := rfl

variable (conf : Conf)

/-- What one of the coroutines does from one `yield` to the next, or a part of it. -/
inductive Step : State A → Event A → State A → Prop
  | stop {s : State A} : Step s .none { s with toStop := true }
  | leave {s : State A} (here : s.main = .top) (stop : s.toStop = true) :
      Step s .none { s with main := .closed, sender := s.sender.woken }
  | wait {s : State A} (here : s.main = .top) (run : s.toStop = false)
      (full : conf.maxConnNum ≤ s.curConnNum) : Step s .none { s with main := .full }
  | enter {s : State A} (here : s.main = .top) (run : s.toStop = false)
      (room : s.curConnNum < conf.maxConnNum) : Step s .none { s with main := .polling }
  | waited {s : State A} (here : s.main = .full)
      (room : s.toStop = true ∨ s.curConnNum < conf.maxConnNum) :
      Step s .none { s with main := .polling }
  | nothing {s : State A} (here : s.main = .polling) : Step s .none { s with main := .top }
  | pollFailed {s : State A} (here : s.main = .polling) :
      Step s .none { s with main := .closed, sender := s.sender.woken }
  | ready {s : State A} (b : ℕ) (here : s.main = .polling) (fresh : b ∉ s.used) :
      Step s .none { s with main := .receiving b, used := b ::ₘ s.used }
  /-- `proc_pool` with a worker of the pool. -/
  | taken {s : State A} (b co o : ℕ) (coPool : List ℕ) (addr : A)
      (datagram : Option (List UInt8)) (here : s.main = .receiving b) (run : s.toStop = false)
      (pool : s.coPool = co :: coPool) (fresh : o ∉ s.used)
      (fits : ∀ d ∈ datagram, d.length ≤ conf.maxPacketSize) :
      Step s .none { s.begin co b o addr datagram with coPool }
  /-- A worker of the pool sees that the server stops, and ends. -/
  | dropped {s : State A} (b co : ℕ) (coPool : List ℕ) (datagram : Option (List UInt8))
      (here : s.main = .receiving b) (stop : s.toStop = true) (pool : s.coPool = co :: coPool)
      (fits : ∀ d ∈ datagram, d.length ≤ conf.maxPacketSize) :
      Step s .none
        { s with
          main := .top
          curConnNum := dec (inc s.curConnNum)
          mem := Function.update s.mem b (received (s.mem b) datagram)
          coPool
          used := s.used.erase b }
  /-- A new worker does not look whether the server stops. -/
  | made {s : State A} (b o : ℕ) (addr : A) (datagram : Option (List UInt8))
      (here : s.main = .receiving b) (pool : s.coPool = []) (fresh : o ∉ s.used)
      (fits : ∀ d ∈ datagram, d.length ≤ conf.maxPacketSize) :
      Step s .none { s.begin s.made b o addr datagram with made := s.made + 1 }
  | look {s : State A} (w : Worker A) (o : ℕ) (mem : w ∈ s.workers) (here : w.phase = .handling o) :
      Step s (.looked w.given (s.read w.data w.len)) s
  | write {s : State A} (w : Worker A) (o : ℕ) (bytes : ℕ → UInt8) (mem : w ∈ s.workers)
      (here : w.phase = .handling o) :
      Step s .none { s with mem := Function.update s.mem o bytes }
  /-- `conn_proc` returns 0 with `olen`, which is at most what it was called with. -/
  | answer {s : State A} (pre post : List (Worker A)) (w : Worker A) (o olen : ℕ)
      (split : s.workers = pre ++ w :: post) (here : w.phase = .handling o) (pos : 0 < olen)
      (fits : olen ≤ conf.maxPacketSize) :
      Step s (.answered w.addr (s.read o olen))
        { s with
          workers := pre ++ { w with phase := .leaving 0 } :: post
          txQueue := s.txQueue ++ [⟨w.addr, o, olen, s.read o olen⟩]
          sender := s.sender.woken }
  | silent {s : State A} (pre post : List (Worker A)) (w : Worker A) (o olen : ℕ) (ret : ℤ)
      (split : s.workers = pre ++ w :: post) (here : w.phase = .handling o)
      (none : ¬ (ret = 0 ∧ 0 < olen)) :
      Step s .unanswered
        { s with
          workers := pre ++ { w with phase := .leaving ret } :: post
          lost := o ::ₘ s.lost }
  | back {s : State A} (pre post : List (Worker A)) (w : Worker A)
      (split : s.workers = pre ++ w :: post) (here : w.phase = .leaving 0) (run : s.toStop = false) :
      Step s .none
        { s with
          curConnNum := dec s.curConnNum
          workers := pre ++ post
          coPool := w.co :: s.coPool
          used := s.used.erase w.data }
  | gone {s : State A} (pre post : List (Worker A)) (w : Worker A) (ret : ℤ)
      (split : s.workers = pre ++ w :: post) (here : w.phase = .leaving ret)
      (ends : ret ≠ 0 ∨ s.toStop = true) :
      Step s .none
        { s with
          curConnNum := dec s.curConnNum
          workers := pre ++ post
          used := s.used.erase w.data }
  | sleep {s : State A} (here : s.sender = .top) (run : s.toStop = false) (empty : s.txQueue = []) :
      Step s .none { s with sender := .waiting }
  | turn {s : State A} (here : s.sender = .top) (run : s.toStop = false) (some : s.txQueue ≠ []) :
      Step s .none { s with sender := .sending s.txQueue, txQueue := [] }
  | send {s : State A} (t : TxData A) (queue : List (TxData A))
      (here : s.sender = .sending (t :: queue)) :
      Step s (.sendto t.dstAddr (s.read t.data t.len))
        { s with sender := .sending queue, used := s.used.erase t.data }
  | again {s : State A} (here : s.sender = .sending []) : Step s .none { s with sender := .top }
  | finish {s : State A} (here : s.sender = .top) (stop : s.toStop = true) :
      Step s .none { s with sender := .done }

/-- The server when `main_proc2` has made its sender. -/
def State.init (mem : ℕ → ℕ → UInt8) : State A where
  toStop := false
  curConnNum := 0
  main := .top
  sender := .top
  workers := []
  coPool := []
  made := 0
  txQueue := []
  mem
  used := 0
  lost := 0

/-! ### The buffers -/

section Buffers

def Main.held : Main → List ℕ
  | .receiving b => [b]
  | _ => []

def Worker.held (w : Worker A) : List ℕ :=
  match w.phase with
  | .handling o => [w.data, o]
  | .leaving _ => [w.data]

def Sender.queue : Sender A → List (TxData A)
  | .sending queue => queue
  | _ => []

/-- The answers that have not been sent, in their order. -/
def State.pending (s : State A) : List (TxData A) := s.sender.queue ++ s.txQueue

def State.owned (s : State A) : List ℕ :=
  s.main.held ++ (s.workers.flatMap Worker.held ++ s.pending.map TxData.data)

/-- Each buffer has one holder, and it keeps what was put into it. -/
structure Owned (s : State A) : Prop where
  used : s.used = (s.owned : Multiset ℕ) + s.lost
  nodup : s.used.Nodup
  given : ∀ w ∈ s.workers, ∀ d, w.given = some d → w.len = d.length ∧ s.read w.data d.length = d
  kept : ∀ t ∈ s.pending, s.read t.data t.len = t.out

variable {conf : Conf} {s s' : State A} {ev : Event A} {b o n : ℕ} {w w' : Worker A} {t : TxData A}
  {bytes : ℕ → UInt8}

@[simp] theorem woken_queue (sender : Sender A) : sender.woken.queue = sender.queue := by
  cases sender <;> rfl

theorem owned_init (mem : ℕ → ℕ → UInt8) : Owned (State.init mem : State A) :=
  ⟨rfl, Multiset.nodup_zero, by simp [State.init], by simp [State.init, State.pending, Sender.queue]⟩

theorem Owned.same (owned : Owned s) (main : s'.main.held = s.main.held)
    (workers : s'.workers = s.workers) (pending : s'.pending = s.pending) (mem : s'.mem = s.mem)
    (used : s'.used = s.used) (lost : s'.lost = s.lost) : Owned s' := by
  refine ⟨?_, used ▸ owned.nodup, ?_, ?_⟩
  · rw [used, lost, owned.used, State.owned, State.owned, main, workers, pending]
  · rw [workers]
    simp only [State.read, mem]
    exact owned.given
  · rw [pending]
    simp only [State.read, mem]
    exact owned.kept

theorem Owned.owned_nodup (owned : Owned s) : s.owned.Nodup := by
  have nodup := owned.nodup
  rw [owned.used, Multiset.nodup_add, Multiset.coe_nodup] at nodup
  exact nodup.1

theorem data_mem_held (w : Worker A) : w.data ∈ w.held := by
  unfold Worker.held
  split <;> simp

/-- The buffer that the next datagram comes into is nobody else's. -/
theorem Owned.apart_main (owned : Owned s) (here : s.main = .receiving b) :
    (∀ w ∈ s.workers, w.data ≠ b) ∧ ∀ t ∈ s.pending, t.data ≠ b := by
  have nodup := owned.owned_nodup
  rw [State.owned, here, Main.held, List.singleton_append, List.nodup_cons] at nodup
  constructor
  · rintro w mem rfl
    exact nodup.1 (List.mem_append_left _ (List.mem_flatMap.mpr ⟨w, mem, data_mem_held w⟩))
  · rintro t mem rfl
    exact nodup.1 (List.mem_append_right _ (List.mem_map_of_mem mem))

/-- The buffer that a handler writes to is nobody else's. -/
theorem Owned.apart_worker (owned : Owned s) (mem : w ∈ s.workers) (here : w.phase = .handling o) :
    (∀ w ∈ s.workers, w.data ≠ o) ∧ ∀ t ∈ s.pending, t.data ≠ o := by
  have held : w.held = [w.data, o] := by rw [Worker.held, here]
  obtain ⟨-, rest, -⟩ := List.nodup_append.mp owned.owned_nodup
  obtain ⟨workers, -, apart⟩ := List.nodup_append.mp rest
  obtain ⟨each, pairs⟩ := List.nodup_flatMap.mp workers
  constructor
  · rintro w' mem' same
    by_cases eq : w = w'
    · subst eq
      have nodup := each w mem
      rw [held, same] at nodup
      simp at nodup
    · have symm : Std.Symm (Function.onFun List.Disjoint (Worker.held (A := A))) :=
        ⟨fun _ _ disjoint => disjoint.symm⟩
      have disjoint := pairs.forall mem mem' eq
      refine disjoint (?_ : o ∈ w.held) (same ▸ data_mem_held w')
      simp [held]
  · intro t mem' same
    refine apart o (List.mem_flatMap.mpr ⟨w, mem, by simp [held]⟩) _ (List.mem_map_of_mem mem') ?_
    exact same.symm

theorem read_update_ne (ne : b ≠ o) :
    ({ s with mem := Function.update s.mem o bytes } : State A).read b n = s.read b n := by
  simp [State.read, Function.update_of_ne ne]

theorem read_received (datagram : List UInt8) :
    (List.range datagram.length).map (received bytes (some datagram)) = datagram := by
  refine List.ext_getElem (by simp) fun i lt lt' => ?_
  simp [received, lt']

theorem erase_of_eq {m rest : Multiset ℕ} (eq : m = b ::ₘ rest) : m.erase b = rest := by
  rw [eq, Multiset.erase_cons_head]

theorem Owned.begin {co : ℕ} {addr : A} {datagram : Option (List UInt8)} (owned : Owned s)
    (here : s.main = .receiving b) (fresh : o ∉ s.used) :
    Owned (s.begin co b o addr datagram) := by
  obtain ⟨workers, pending⟩ := owned.apart_main here
  refine ⟨?_, Multiset.nodup_cons.mpr ⟨fresh, owned.nodup⟩, ?_, ?_⟩
  · have used := owned.used
    simp only [State.owned, here, Main.held] at used
    show o ::ₘ s.used = (([b, o] ++ s.workers.flatMap Worker.held ++ s.pending.map TxData.data :
      List ℕ) : Multiset ℕ) + s.lost
    rw [used]
    simp only [← Multiset.coe_add, ← Multiset.cons_coe, ← Multiset.singleton_add, Multiset.coe_nil]
    abel
  · intro w mem d given
    obtain rfl | old := List.mem_cons.mp mem
    · obtain rfl : datagram = some d := given
      refine ⟨rfl, ?_⟩
      simp only [State.read, State.begin, Function.update_self]
      exact read_received d
    · obtain ⟨len, read⟩ := owned.given w old d given
      exact ⟨len, (read_update_ne (workers w old)).trans read⟩
  · intro t mem
    exact (read_update_ne (pending t mem)).trans (owned.kept t mem)

theorem Owned.dropped {coPool : List ℕ} {n : ℕ} {datagram : Option (List UInt8)} (owned : Owned s)
    (here : s.main = .receiving b) :
    Owned { s with
      main := .top
      curConnNum := n
      mem := Function.update s.mem b (received (s.mem b) datagram)
      coPool
      used := s.used.erase b } := by
  obtain ⟨workers, pending⟩ := owned.apart_main here
  have used := owned.used
  simp only [State.owned, here, Main.held] at used
  refine ⟨?_, owned.nodup.erase b, ?_, ?_⟩
  · refine erase_of_eq (used.trans ?_)
    simp only [State.owned, Main.held, List.nil_append, List.singleton_append, ← Multiset.cons_coe,
      Multiset.cons_add]
    rfl
  · intro w mem d given
    obtain ⟨len, read⟩ := owned.given w mem d given
    exact ⟨len, (read_update_ne (workers w mem)).trans read⟩
  · intro t mem
    exact (read_update_ne (pending t mem)).trans (owned.kept t mem)

theorem Owned.write (owned : Owned s) (mem : w ∈ s.workers) (here : w.phase = .handling o) :
    Owned { s with mem := Function.update s.mem o bytes } := by
  obtain ⟨workers, pending⟩ := owned.apart_worker mem here
  refine ⟨owned.used, owned.nodup, fun w mem d given => ?_, fun t mem => ?_⟩
  · obtain ⟨len, read⟩ := owned.given w mem d given
    exact ⟨len, (read_update_ne (workers w mem)).trans read⟩
  · exact (read_update_ne (pending t mem)).trans (owned.kept t mem)

/-- A worker puts its output buffer into the queue. -/
theorem Owned.answer {pre post : List (Worker A)} {olen : ℕ} (owned : Owned s)
    (split : s.workers = pre ++ w :: post) (here : w.phase = .handling o) :
    Owned { s with
      workers := pre ++ { w with phase := .leaving 0 } :: post
      txQueue := s.txQueue ++ [⟨w.addr, o, olen, s.read o olen⟩]
      sender := s.sender.woken } := by
  have held : w.held = [w.data, o] := by rw [Worker.held, here]
  refine ⟨?_, owned.nodup, ?_, ?_⟩
  · have used := owned.used
    simp only [State.owned, State.pending, split, List.flatMap_append, List.flatMap_cons, held]
      at used
    simp only [State.owned, State.pending, woken_queue, List.flatMap_append, List.flatMap_cons,
      Worker.held, used, List.map_append, List.map_cons, List.map_nil, ← Multiset.coe_add,
      ← Multiset.cons_coe, ← Multiset.singleton_add, Multiset.coe_nil]
    abel
  · intro w' mem d given
    have mem' : w' ∈ pre ∨ w' = { w with phase := .leaving 0 } ∨ w' ∈ post := by simpa using mem
    obtain mem | rfl | mem := mem'
    · exact owned.given w' (by simp [split, mem]) d given
    · exact owned.given w (by simp [split]) d given
    · exact owned.given w' (by simp [split, mem]) d given
  · intro t mem
    rw [State.pending, woken_queue, ← List.append_assoc] at mem
    obtain old | new := List.mem_append.mp mem
    · exact owned.kept t old
    · obtain rfl := List.mem_singleton.mp new
      rfl

/-- No one holds the output buffer of a request without an answer. -/
theorem Owned.silent {pre post : List (Worker A)} {ret : ℤ} (owned : Owned s)
    (split : s.workers = pre ++ w :: post) (here : w.phase = .handling o) :
    Owned { s with
      workers := pre ++ { w with phase := .leaving ret } :: post
      lost := o ::ₘ s.lost } := by
  have held : w.held = [w.data, o] := by rw [Worker.held, here]
  refine ⟨?_, owned.nodup, ?_, owned.kept⟩
  · have used := owned.used
    simp only [State.owned, State.pending, split, List.flatMap_append, List.flatMap_cons, held]
      at used
    simp only [State.owned, State.pending, List.flatMap_append, List.flatMap_cons, Worker.held, used,
      ← Multiset.coe_add, ← Multiset.cons_coe, ← Multiset.singleton_add, Multiset.coe_nil]
    abel
  · intro w' mem d given
    have mem' : w' ∈ pre ∨ w' = { w with phase := .leaving ret } ∨ w' ∈ post := by simpa using mem
    obtain mem | rfl | mem := mem'
    · exact owned.given w' (by simp [split, mem]) d given
    · exact owned.given w (by simp [split]) d given
    · exact owned.given w' (by simp [split, mem]) d given

theorem Owned.leave {pre post : List (Worker A)} {ret : ℤ} {n : ℕ} {coPool : List ℕ}
    (owned : Owned s) (split : s.workers = pre ++ w :: post) (here : w.phase = .leaving ret) :
    Owned { s with
      curConnNum := n
      workers := pre ++ post
      coPool
      used := s.used.erase w.data } := by
  have held : w.held = [w.data] := by rw [Worker.held, here]
  refine ⟨?_, owned.nodup.erase w.data, fun w' mem => ?_, owned.kept⟩
  · refine erase_of_eq ?_
    have used := owned.used
    simp only [State.owned, State.pending, split, List.flatMap_append, List.flatMap_cons, held]
      at used
    simp only [State.owned, State.pending, List.flatMap_append, used, ← Multiset.coe_add,
      ← Multiset.singleton_add, ← Multiset.cons_coe, Multiset.coe_nil]
    abel
  · refine owned.given w' ?_
    rw [split]
    exact List.mem_append.mpr ((List.mem_append.mp mem).imp_right (List.mem_cons_of_mem w))

theorem Owned.send {queue : List (TxData A)} (owned : Owned s)
    (here : s.sender = .sending (t :: queue)) :
    Owned { s with sender := .sending queue, used := s.used.erase t.data } := by
  refine ⟨?_, owned.nodup.erase t.data, owned.given, fun t' mem => ?_⟩
  · refine erase_of_eq ?_
    have used := owned.used
    simp only [State.owned, State.pending, here, Sender.queue, List.cons_append, List.map_cons]
      at used
    simp only [State.owned, State.pending, Sender.queue, used, ← Multiset.coe_add,
      ← Multiset.singleton_add, ← Multiset.cons_coe]
    abel
  · refine owned.kept t' ?_
    rw [State.pending, here]
    exact List.mem_cons_of_mem t mem

theorem Owned.step (owned : Owned s) (step : Step conf s ev s') : Owned s' := by
  cases step with
  | stop => exact owned.same rfl rfl rfl rfl rfl rfl
  | leave here stop =>
    refine owned.same ?_ rfl ?_ rfl rfl rfl
    · rw [here]
      rfl
    · simp [State.pending]
  | wait here run full => exact owned.same (by rw [here]; rfl) rfl rfl rfl rfl rfl
  | enter here run room => exact owned.same (by rw [here]; rfl) rfl rfl rfl rfl rfl
  | waited here room => exact owned.same (by rw [here]; rfl) rfl rfl rfl rfl rfl
  | nothing here => exact owned.same (by rw [here]; rfl) rfl rfl rfl rfl rfl
  | pollFailed here =>
    refine owned.same ?_ rfl ?_ rfl rfl rfl
    · rw [here]
      rfl
    · simp [State.pending]
  | ready b here fresh =>
    refine ⟨?_, Multiset.nodup_cons.mpr ⟨fresh, owned.nodup⟩, owned.given, owned.kept⟩
    show b ::ₘ s.used = _
    rw [owned.used, State.owned, here]
    exact (Multiset.cons_add b _ _).symm
  | taken b co o coPool addr datagram here run pool fresh fits =>
    exact (owned.begin here fresh).same rfl rfl rfl rfl rfl rfl
  | dropped b co coPool datagram here stop pool fits => exact owned.dropped here
  | made b o addr datagram here pool fresh fits =>
    exact (owned.begin here fresh).same rfl rfl rfl rfl rfl rfl
  | look w o mem here => exact owned
  | write w o bytes mem here => exact owned.write mem here
  | answer pre post w o olen split here pos fits => exact owned.answer split here
  | silent pre post w o olen ret split here none => exact owned.silent split here
  | back pre post w split here run => exact owned.leave split here
  | gone pre post w ret split here ends => exact owned.leave split here
  | sleep here run empty =>
    refine owned.same rfl rfl ?_ rfl rfl rfl
    simp [State.pending, here, Sender.queue]
  | turn here run some =>
    refine owned.same rfl rfl ?_ rfl rfl rfl
    simp [State.pending, here, Sender.queue]
  | send t queue here => exact owned.send here
  | again here =>
    refine owned.same rfl rfl ?_ rfl rfl rfl
    simp [State.pending, here, Sender.queue]
  | finish here stop =>
    refine owned.same rfl rfl ?_ rfl rfl rfl
    simp [State.pending, here, Sender.queue]

end Buffers

/-! ### The answers -/

section Answers

variable {conf : Conf} {s s' : State A} {ev : Event A} {tr : List (Event A)}
  {mem : ℕ → ℕ → UInt8}

def TxData.reply (t : TxData A) : A × List UInt8 := (t.dstAddr, t.out)

def Event.answer : Event A → List (A × List UInt8)
  | .answered dst out => [(dst, out)]
  | _ => []

def Event.sent : Event A → List (A × List UInt8)
  | .sendto dst out => [(dst, out)]
  | _ => []

/-- What the handlers have answered, and what `sendto` has been called with. -/
def answers (tr : List (Event A)) : List (A × List UInt8) := tr.flatMap Event.answer

def sent (tr : List (Event A)) : List (A × List UInt8) := tr.flatMap Event.sent

/-- The sender only sleeps when there is nothing to send. -/
def Awake (s : State A) : Prop := s.sender = .waiting → s.txQueue = []

theorem woken_ne_waiting (sender : Sender A) : sender.woken ≠ .waiting := by
  cases sender <;> simp [Sender.woken]

theorem Awake.step (awake : Awake s) (step : Step conf s ev s') : Awake s' := by
  cases step with
  | leave | pollFailed | answer => exact fun waiting => absurd waiting (woken_ne_waiting s.sender)
  | sleep here run empty => exact fun _ => empty
  | turn | send | again | finish => exact fun waiting => nomatch waiting
  | _ => exact fun waiting => awake waiting

/-- What a step takes from the queue is what it sends. -/
theorem Step.pending (owned : Owned s) (step : Step conf s ev s') :
    ev.sent ++ s'.pending.map TxData.reply = s.pending.map TxData.reply ++ ev.answer := by
  cases step with
  | leave | pollFailed => simp [Event.sent, Event.answer, State.pending]
  | answer => simp [Event.sent, Event.answer, State.pending, TxData.reply]
  | sleep here | turn here | again here | finish here =>
    simp [Event.sent, Event.answer, State.pending, Sender.queue, here]
  | send t queue here =>
    have kept : s.read t.data t.len = t.out := owned.kept t (by simp [State.pending, here, Sender.queue])
    simp [Event.sent, Event.answer, State.pending, Sender.queue, here, kept, TxData.reply]
  | _ => simp [Event.sent, Event.answer, State.pending, State.begin]

theorem Step.looked {given input : List UInt8} (owned : Owned s)
    (step : Step conf s (.looked (some given) input) s') : input = given := by
  generalize same : Event.looked (some given) input = ev at step
  cases step with
  | look w o mem here =>
    obtain ⟨given', rfl⟩ := Event.looked.inj same
    obtain ⟨len, read⟩ := owned.given w mem given given'.symm
    rw [len, read]
  | _ => cases same

/-- Main theorem: the calls of `sendto` are those of the answers of the handlers that are first, in
their order, with the bytes that the handlers left; what is missing waits in the queue, and the sender
does not sleep over it. A handler sees nothing but the datagram that was received for it. -/
theorem replies_in_order (run : Trace (State.init mem) (Step conf) tr s) :
    sent tr ++ s.pending.map TxData.reply = answers tr ∧
      (s.sender = .waiting → s.pending = []) ∧
      ∀ given input, .looked (some given) input ∈ tr → input = given := by
  have inv : Owned s ∧ Awake s ∧ sent tr ++ s.pending.map TxData.reply = answers tr ∧
      ∀ given input, .looked (some given) input ∈ tr → input = given := by
    refine run.invariant (fun tr s => Owned s ∧ Awake s ∧
      sent tr ++ s.pending.map TxData.reply = answers tr ∧
      ∀ given input, .looked (some given) input ∈ tr → input = given) ?_ ?_
    · exact ⟨owned_init mem, fun _ => rfl, rfl, by simp⟩
    · intro tr s ev s' ⟨owned, awake, order, looked⟩ step
      refine ⟨owned.step step, awake.step step, ?_, fun given input mem => ?_⟩
      · have one := step.pending owned
        calc sent (tr ++ [ev]) ++ s'.pending.map TxData.reply
            = sent tr ++ (ev.sent ++ s'.pending.map TxData.reply) := by simp [sent]
          _ = answers tr ++ ev.answer := by rw [one, ← List.append_assoc, order]
          _ = answers (tr ++ [ev]) := by simp [answers]
      · obtain old | new := List.mem_append.mp mem
        · exact looked given input old
        · rw [List.mem_singleton] at new
          exact Step.looked owned (new ▸ step)
  obtain ⟨-, awake, order, looked⟩ := inv
  refine ⟨order, fun waiting => ?_, looked⟩
  rw [State.pending, waiting, awake waiting]
  rfl

/-- What is seen of a request that is answered with the byte that it has. -/
def echo : List (Event ℕ) :=
  [.none, .none, .none, .looked (some [7]) [7], .none, .none, .answered 5 [7], .none, .sendto 5 [7]]

theorem echo_run : ∃ s, Trace (State.init fun _ _ => 0) (Step ⟨1472, 10000, by decide⟩) echo s := by
  have start : Trace (State.init fun _ _ => 0) (Step ⟨1472, 10000, by decide⟩) []
    (State.init (A := ℕ) fun _ _ => 0) := .init
  have taken := ((start.step (.enter rfl rfl (by decide))).step (.ready 0 rfl (by simp [State.init]))
    ).step (.made 0 1 5 (some [7]) rfl rfl (by simp [State.init]) (by simp))
  have looked := taken.step (.look _ 1 (List.mem_singleton.mpr rfl) rfl)
  have written := (looked.step (.sleep rfl rfl rfl)).step
    (.write _ 1 (fun _ => 7) (List.mem_singleton.mpr rfl) rfl)
  have answered := written.step (.answer [] [] _ 1 1 rfl rfl (by decide) (by decide))
  have turned := answered.step (.turn rfl rfl (List.cons_ne_nil _ _))
  have run := turned.step (.send ⟨5, 1, 1, [7]⟩ [] rfl)
  exact ⟨_, run⟩

theorem replies_in_order_echo : ∃ s : State ℕ,
    sent echo ++ s.pending.map TxData.reply = answers echo ∧
      (s.sender = .waiting → s.pending = []) ∧
      ∀ given input, .looked (some given) input ∈ echo → input = given := by
  obtain ⟨s, run⟩ := echo_run
  exact ⟨s, replies_in_order run⟩

end Answers

/-! ### The accounts -/

section Accounts

variable {conf : Conf} {s s' : State A} {ev : Event A} {tr : List (Event A)}
  {mem : ℕ → ℕ → UInt8}

/-- How many requests there may be at each place of the receiving loop. The loop that waits is left for
a stop, and then takes one more request. -/
def Room (conf : Conf) (s : State A) : Prop :=
  match s.main with
  | .top => s.workers.length ≤ conf.maxConnNum ∨
      s.toStop = true ∧ s.workers.length ≤ conf.maxConnNum + 1
  | .full => s.workers.length ≤ conf.maxConnNum
  | .polling | .receiving _ => s.workers.length < conf.maxConnNum ∨
      s.toStop = true ∧ s.workers.length ≤ conf.maxConnNum
  | .closed => s.workers.length ≤ conf.maxConnNum + 1

/-- The workers that there are, in the pool and with a request. -/
def State.cos (s : State A) : List ℕ := s.coPool ++ s.workers.map Worker.co

structure Counted (conf : Conf) (s : State A) : Prop where
  cur : s.curConnNum = s.workers.length % 2 ^ 32
  room : Room conf s
  nodup : s.cos.Nodup
  made : ∀ co ∈ s.cos, co < s.made

theorem Room.le (room : Room conf s) : s.workers.length ≤ conf.maxConnNum + 1 := by
  unfold Room at room
  split at room <;> omega

theorem Room.mono (room : Room conf s) (main : s'.main = s.main)
    (fewer : s'.workers.length ≤ s.workers.length) (stop : s.toStop = true → s'.toStop = true) :
    Room conf s' := by
  unfold Room at room ⊢
  rw [main]
  cases here : s.main with
  | top =>
    simp only [here] at room
    obtain le | ⟨stopped, le⟩ := room
    · exact .inl (fewer.trans le)
    · exact .inr ⟨stop stopped, fewer.trans le⟩
  | full =>
    simp only [here] at room
    exact fewer.trans room
  | polling | receiving =>
    simp only [here] at room
    obtain lt | ⟨stopped, le⟩ := room
    · exact .inl (Nat.lt_of_le_of_lt fewer lt)
    · exact .inr ⟨stop stopped, fewer.trans le⟩
  | closed =>
    simp only [here] at room
    exact fewer.trans room

/-- As long as the server runs, the counter is the number of the requests. -/
theorem Counted.exact (counted : Counted conf s) (le : s.workers.length ≤ conf.maxConnNum) :
    s.curConnNum = s.workers.length := by
  have bound := conf.uint32
  rw [counted.cur, Nat.mod_eq_of_lt (by omega)]

theorem Counted.pool {cos : List ℕ} (counted : Counted conf s) (sub : cos.Subperm s.cos) :
    cos.Nodup ∧ ∀ co ∈ cos, co < s.made := by
  obtain ⟨l, perm, sublist⟩ := sub
  refine ⟨perm.nodup_iff.mp (counted.nodup.sublist sublist), fun co mem => ?_⟩
  exact counted.made co (sublist.subset (perm.mem_iff.mpr mem))

theorem counted_init (mem : ℕ → ℕ → UInt8) : Counted conf (State.init mem : State A) :=
  ⟨rfl, .inl (Nat.zero_le _), List.nodup_nil, by simp [State.init, State.cos]⟩

theorem Counted.move {main : Main} {sender : Sender A} {used : Multiset ℕ} (counted : Counted conf s)
    (room : Room conf { s with main, sender, used }) :
    Counted conf { s with main, sender, used } :=
  ⟨counted.cur, room, counted.nodup, counted.made⟩

theorem Counted.within {pre post : List (Worker A)} {w w' : Worker A} {txQueue : List (TxData A)}
    {sender : Sender A} {lost : Multiset ℕ} (counted : Counted conf s)
    (split : s.workers = pre ++ w :: post) (co : w'.co = w.co) :
    Counted conf { s with workers := pre ++ w' :: post, txQueue, sender, lost } := by
  have length : (pre ++ w' :: post).length = s.workers.length := by simp [split]
  have cos : s.coPool ++ (pre ++ w' :: post).map Worker.co = s.cos := by
    simp [State.cos, split, co]
  refine ⟨?_, counted.room.mono rfl (Nat.le_of_eq length) id, ?_, ?_⟩
  · show s.curConnNum = (pre ++ w' :: post).length % 2 ^ 32
    rw [length, counted.cur]
  · rw [State.cos, cos]
    exact counted.nodup
  · rw [State.cos, cos]
    exact counted.made

theorem Counted.leave {pre post : List (Worker A)} {w : Worker A} {coPool : List ℕ}
    {used : Multiset ℕ} (counted : Counted conf s) (split : s.workers = pre ++ w :: post)
    (pool : coPool = s.coPool ∨ coPool = w.co :: s.coPool) :
    Counted conf
      { s with curConnNum := dec s.curConnNum, workers := pre ++ post, coPool, used } := by
  have length : s.workers.length = (pre ++ post).length + 1 := by
    rw [split]
    simp
    omega
  have cos : (coPool ++ (pre ++ post).map Worker.co).Subperm s.cos := by
    have front : s.cos.Perm (w.co :: (s.coPool ++ (pre ++ post).map Worker.co)) := by
      rw [State.cos, split, List.map_append, List.map_cons, ← List.append_assoc, List.map_append,
        ← List.append_assoc]
      exact List.perm_middle
    obtain rfl | rfl := pool
    · exact ((List.sublist_cons_self _ _).subperm).trans front.symm.subperm
    · exact front.symm.subperm
  have left := counted.pool cos
  refine ⟨?_, counted.room.mono rfl (by rw [length]; exact Nat.le_succ _) id, left.1, left.2⟩
  show dec s.curConnNum = (pre ++ post).length % 2 ^ 32
  rw [counted.cur, length, dec_mod]

/-- A request begins, with a worker of the pool or a new one. -/
theorem Counted.begin {co b o made : ℕ} {addr : A} {datagram : Option (List UInt8)}
    {coPool : List ℕ} (counted : Counted conf s) (here : s.main = .receiving b)
    (nodup : (coPool ++ co :: s.workers.map Worker.co).Nodup)
    (lt : ∀ c ∈ coPool ++ co :: s.workers.map Worker.co, c < made) :
    Counted conf { s.begin co b o addr datagram with coPool, made } := by
  have room := counted.room
  simp only [Room, here] at room
  refine ⟨?_, ?_, nodup, lt⟩
  · show inc s.curConnNum = (s.workers.length + 1) % 2 ^ 32
    rw [counted.cur, inc_mod]
  · obtain less | ⟨stop, le⟩ := room
    · exact .inl less
    · exact .inr ⟨stop, Nat.succ_le_succ le⟩

theorem Counted.step (counted : Counted conf s) (step : Step conf s ev s') : Counted conf s' := by
  have room := counted.room
  cases step with
  | stop => exact ⟨counted.cur, room.mono rfl (Nat.le_refl _) fun _ => rfl, counted.nodup, counted.made⟩
  | leave here stop => exact counted.move (room.le : s.workers.length ≤ conf.maxConnNum + 1)
  | pollFailed here => exact counted.move (room.le : s.workers.length ≤ conf.maxConnNum + 1)
  | wait here run full =>
    simp only [Room, here, run, Bool.false_eq_true, false_and, or_false] at room
    exact counted.move (room : s.workers.length ≤ conf.maxConnNum)
  | enter here run free =>
    simp only [Room, here, run, Bool.false_eq_true, false_and, or_false] at room
    rw [counted.exact room] at free
    exact counted.move (.inl free)
  | waited here free =>
    simp only [Room, here] at room
    rw [counted.exact room] at free
    exact counted.move (free.symm.imp_right fun stop => ⟨stop, room⟩)
  | nothing here =>
    simp only [Room, here] at room
    exact counted.move (room.imp Nat.le_of_lt fun both => ⟨both.1, Nat.le_succ_of_le both.2⟩)
  | ready b here fresh =>
    simp only [Room, here] at room
    exact counted.move room
  | taken b co o coPool addr datagram here run pool fresh fits =>
    have same : (coPool ++ co :: s.workers.map Worker.co).Subperm s.cos := by
      rw [State.cos, pool]
      exact List.perm_middle.subperm
    have left := counted.pool same
    exact counted.begin here left.1 left.2
  | dropped b co coPool datagram here stop pool fits =>
    have same : (coPool ++ s.workers.map Worker.co).Subperm s.cos := by
      rw [State.cos, pool]
      exact (List.sublist_cons_self co _).subperm
    have left := counted.pool same
    simp only [Room, here] at room
    refine ⟨?_, .inr ⟨stop, ?_⟩, left.1, left.2⟩
    · show dec (inc s.curConnNum) = s.workers.length % 2 ^ 32
      rw [counted.cur, dec_inc_mod]
    · show s.workers.length ≤ conf.maxConnNum + 1
      omega
  | made b o addr datagram here pool fresh fits =>
    have nodup := counted.nodup
    have made := counted.made
    rw [State.cos, pool, List.nil_append] at nodup made
    refine counted.begin here ?_ ?_
    · rw [begin_coPool, pool, List.nil_append, List.nodup_cons]
      exact ⟨fun mem => Nat.lt_irrefl _ (made _ mem), nodup⟩
    · rw [begin_coPool, pool, List.nil_append, List.forall_mem_cons]
      exact ⟨Nat.lt_succ_self _, fun c mem => Nat.lt_succ_of_lt (made c mem)⟩
  | look => exact counted
  | write => exact ⟨counted.cur, room.mono rfl (Nat.le_refl _) id, counted.nodup, counted.made⟩
  | answer pre post w o olen split here pos fits => exact counted.within split rfl
  | silent pre post w o olen ret split here none => exact counted.within split rfl
  | back pre post w split here run => exact counted.leave split (.inr rfl)
  | gone pre post w ret split here ends => exact counted.leave split (.inl rfl)
  | sleep | turn | again | finish | send =>
    exact ⟨counted.cur, room.mono rfl (Nat.le_refl _) id, counted.nodup, counted.made⟩

/-- How many requests have got no answer. -/
def unanswered (tr : List (Event A)) : ℕ := tr.countP fun ev => ev matches .unanswered

theorem Step.lost (step : Step conf s ev s') :
    s'.lost.card = s.lost.card + unanswered [ev] := by
  cases step with
  | silent pre post w o olen ret split here none => exact Multiset.card_cons o s.lost
  | _ => rfl

/-- Main theorem: every buffer that the pool has given out has one holder, but one for each request
that got no answer, which is lost; the counter is the number of the requests in work, which is at most
one above the limit, and a worker has one request or is in the pool. -/
theorem buffers_accounted (run : Trace (State.init mem) (Step conf) tr s) :
    s.used = (s.owned : Multiset ℕ) + s.lost ∧ s.used.Nodup ∧ s.lost.card = unanswered tr ∧
      s.curConnNum = s.workers.length % 2 ^ 32 ∧ s.workers.length ≤ conf.maxConnNum + 1 ∧
      s.cos.Nodup := by
  have inv : Owned s ∧ Counted conf s ∧ s.lost.card = unanswered tr := by
    refine run.invariant (fun tr s => Owned s ∧ Counted conf s ∧ s.lost.card = unanswered tr) ?_ ?_
    · exact ⟨owned_init mem, counted_init mem, rfl⟩
    · intro tr s ev s' ⟨owned, counted, lost⟩ step
      refine ⟨owned.step step, counted.step step, ?_⟩
      rw [step.lost, lost, unanswered, unanswered, unanswered, List.countP_append]
  obtain ⟨owned, counted, lost⟩ := inv
  exact ⟨owned.used, owned.nodup, lost, counted.cur, counted.room.le, counted.nodup⟩

theorem buffers_accounted_echo : ∃ s : State ℕ,
    s.used = (s.owned : Multiset ℕ) + s.lost ∧ s.used.Nodup ∧ s.lost.card = unanswered echo ∧
      s.curConnNum = s.workers.length % 2 ^ 32 ∧ s.workers.length ≤ 10001 ∧ s.cos.Nodup := by
  obtain ⟨s, run⟩ := echo_run
  exact ⟨s, buffers_accounted run⟩

end Accounts

end Conet.Svrkit.UdpServer
