/- Module: Conet/Svrkit/RpcClient
   source: svrkit/rpc_pb_client.h, svrkit/src/rpc_pb_client.cpp, svrkit/load_balance.h,
   svrkit/src/rpc_pb_server.cpp
   digest: Coroutines that call over one pool of connections: each reads the answer to its own request. -/

import Conet.Lib.Trace
import Conet.Svrkit.RpcCall
import Mathlib.Algebra.Group.Nat.Defs
import Mathlib.Data.Int.Notation
import Mathlib.Data.List.Nodup
import Mathlib.Logic.Function.Basic

set_option autoImplicit false
set_option relaxedAutoImplicit false

namespace Conet.Svrkit.RpcClient

open Conet.Lib Conet.Base.Pbc Conet.Svrkit.CmdBase Conet.Svrkit.CmdBaseCodec Conet.Svrkit.RpcServer
open Conet.Svrkit.RpcCall (Named handle_respond lookup names_content)
open Conet.Svrkit.RpcTcpConn (Handled handle)

universe u v w

variable {K : Type u} {Q : Type v} {A : Type w} [DecidableEq K]

/-- A connection: the requests that the server has not answered, each with its `seq_id`, and the answers
that the client has not read. -/
structure Conn (Q : Type v) (A : Type w) where
  requests : List (UInt64 × Q)
  answers : List A

/-- Where a coroutine is in `rpc_pb_call(lb, …)`. -/
inductive Pc (Q : Type v)
  | idle
  /-- in the loop of `get`: the pool was empty -/
  | connecting (q : Q)
  /-- before `send_cmd_base` -/
  | sending (fd : ℕ) (q : Q)
  /-- before the answer has come -/
  | waiting (fd : ℕ) (seqId : UInt64) (q : Q)
  /-- before `release(fd, ret)` -/
  | ended (fd : ℕ) (ret : ℤ)

/-- The descriptor that a coroutine holds. -/
def Pc.fd : Pc Q → Option ℕ
  | .sending fd _ | .waiting fd _ _ | .ended fd _ => some fd
  | _ => none

structure State (K : Type u) (Q : Type v) (A : Type w) where
  /-- `m_fds`, front first -/
  fds : List ℕ
  /-- `g_rpc_client_seq_id` -/
  seqId : UInt64
  conn : ℕ → Option (Conn Q A)
  pc : K → Pc Q

inductive Event (K : Type u) (A : Type w)
  | none
  /-- `read_packet` has come back with a packet of `cmd_base_t` -/
  | received (k : K) (a : A)

/-- What the caller is told of the wait for the answer: `poll`, `read_packet` or `parse` fails. -/
def waitErrors : List ℤ := [-1, -2, -5, -6]

variable (Serves : UInt64 → Q → A → Prop)

/-- Coroutines run in any order between the calls that may switch. The server answers a request once, on
the connection that it came on. -/
inductive Step : State K Q A → Event K A → State K Q A → Prop
  | get {s : State K Q A} (k : K) (q : Q) (fd : ℕ) (rest : List ℕ) (idle : s.pc k = .idle)
      (pool : s.fds = fd :: rest) :
      Step s .none { s with fds := rest, pc := Function.update s.pc k (.sending fd q) }
  | getNone {s : State K Q A} (k : K) (q : Q) (idle : s.pc k = .idle) (pool : s.fds = []) :
      Step s .none { s with pc := Function.update s.pc k (.connecting q) }
  /-- `connect_to`: the kernel gives a descriptor that is not open. -/
  | connect {s : State K Q A} (k : K) (q : Q) (fd : ℕ) (here : s.pc k = .connecting q)
      (closed : s.conn fd = Option.none) :
      Step s .none
        { s with
          conn := Function.update s.conn fd (some ⟨[], []⟩)
          pc := Function.update s.pc k (.sending fd q) }
  /-- three times in vain: the call returns -3 -/
  | connectFails {s : State K Q A} (k : K) (q : Q) (here : s.pc k = .connecting q) :
      Step s .none { s with pc := Function.update s.pc k .idle }
  | send {s : State K Q A} (k : K) (fd : ℕ) (q : Q) (c : Conn Q A) (here : s.pc k = .sending fd q)
      (conn : s.conn fd = some c) :
      Step s .none
        { s with
          seqId := s.seqId + 1
          conn := Function.update s.conn fd
            (some { c with requests := c.requests ++ [(s.seqId + 1, q)] })
          pc := Function.update s.pc k (.waiting fd (s.seqId + 1) q) }
  | sendFails {s : State K Q A} (k : K) (fd : ℕ) (q : Q) (here : s.pc k = .sending fd q) :
      Step s .none
        { s with
          seqId := s.seqId + 1
          pc := Function.update s.pc k (.ended fd (-4)) }
  | serve {s : State K Q A} (fd : ℕ) (pre post : List (UInt64 × Q)) (seqId : UInt64) (q : Q) (a : A)
      (answers : List A) (conn : s.conn fd = some ⟨pre ++ (seqId, q) :: post, answers⟩)
      (serves : Serves seqId q a) :
      Step s .none
        { s with
          conn := Function.update s.conn fd (some ⟨pre ++ post, answers ++ [a]⟩) }
  | receive {s : State K Q A} (k : K) (fd : ℕ) (seqId : UInt64) (q : Q)
      (requests : List (UInt64 × Q)) (a : A) (answers : List A) (ret : ℤ)
      -- `rsp_base.seq_id` is not looked at.
      (here : s.pc k = .waiting fd seqId q) (conn : s.conn fd = some ⟨requests, a :: answers⟩)
      -- `ParseFromArray` of the body
      (parsed : ret = 0 ∨ ret = -7) :
      Step s (.received k a)
        { s with
          conn := Function.update s.conn fd (some ⟨requests, answers⟩)
          pc := Function.update s.pc k (.ended fd ret) }
  | waitFails {s : State K Q A} (k : K) (fd : ℕ) (seqId : UInt64) (q : Q) (ret : ℤ)
      (here : s.pc k = .waiting fd seqId q) (failed : ret ∈ waitErrors) :
      Step s .none { s with pc := Function.update s.pc k (.ended fd ret) }
  /-- A part of a packet was sent or read before the failure. -/
  | torn {s : State K Q A} (k : K) (fd : ℕ) (ret : ℤ) (c c' : Conn Q A) (here : s.pc k = .ended fd ret)
      (failed : ret ≠ 0) (conn : s.conn fd = some c) :
      Step s .none { s with conn := Function.update s.conn fd (some c') }
  | release {s : State K Q A} (k : K) (fd : ℕ) (ret : ℤ) (here : s.pc k = .ended fd ret) :
      Step s .none
        { s with
          fds := if ret ≠ 0 then s.fds else s.fds ++ [fd]
          conn := if ret ≠ 0 then Function.update s.conn fd Option.none else s.conn
          pc := Function.update s.pc k .idle }

def State.init : State K Q A where
  fds := []
  seqId := 0
  conn _ := none
  pc _ := .idle

/-- What is under way on the connection of a coroutine. -/
def Holds (conn : ℕ → Option (Conn Q A)) : Pc Q → Prop
  | .idle | .connecting _ => True
  | .sending fd _ => conn fd = some ⟨[], []⟩
  | .waiting fd seqId q => conn fd = some ⟨[(seqId, q)], []⟩ ∨
      ∃ a, conn fd = some ⟨[], [a]⟩ ∧ Serves seqId q a
  | .ended fd ret => (conn fd).isSome ∧ (ret = 0 → conn fd = some ⟨[], []⟩)

structure Inv (s : State K Q A) : Prop where
  nodup : s.fds.Nodup
  clean : ∀ fd ∈ s.fds, s.conn fd = some ⟨[], []⟩
  holds : ∀ k, Holds Serves s.conn (s.pc k)
  pooled : ∀ k fd, (s.pc k).fd = some fd → fd ∉ s.fds
  apart : ∀ k l fd, (s.pc k).fd = some fd → (s.pc l).fd = some fd → k = l
  kept : ∀ fd, (s.conn fd).isSome → fd ∈ s.fds ∨ ∃ k, (s.pc k).fd = some fd

section Keep

variable {Serves : UInt64 → Q → A → Prop} {s s' : State K Q A} {k : K} {fd : ℕ} {pc : Pc Q}
  {fds : List ℕ} {seqId : UInt64} {conn conn' : ℕ → Option (Conn Q A)} {q : Q} {a : A} {ret : ℤ}
  {ev : Event K A} {tr : List (Event K A)}

omit [DecidableEq K] in
theorem Holds.congr (holds : Holds Serves conn pc)
    (same : ∀ fd, pc.fd = some fd → conn' fd = conn fd) : Holds Serves conn' pc := by
  cases pc with
  | idle => trivial
  | connecting q => trivial
  | sending fd q => exact (same fd rfl).trans holds
  | waiting fd seqId q => simpa only [Holds, same fd rfl] using holds
  | ended fd ret => simpa only [Holds, same fd rfl] using holds

omit [DecidableEq K] in
theorem Holds.isOpen (holds : Holds Serves conn pc) (held : pc.fd = some fd) : (conn fd).isSome := by
  cases pc with
  | idle => simp [Pc.fd] at held
  | connecting q => simp [Pc.fd] at held
  | sending fd' q =>
    obtain rfl : fd' = fd := Option.some.inj held
    simp [show conn fd' = _ from holds]
  | waiting fd' seqId q =>
    obtain rfl : fd' = fd := Option.some.inj held
    obtain waits | ⟨a, answered, -⟩ := holds
    · simp [waits]
    · simp [answered]
  | ended fd' ret =>
    obtain rfl : fd' = fd := Option.some.inj held
    exact holds.1

/-- The coroutine `k` moves, and changes only what it holds or takes. -/
theorem Inv.turn (inv : Inv Serves s) (own : Holds Serves conn pc)
    (others : ∀ l, l ≠ k → ∀ fd, (s.pc l).fd = some fd → conn fd = s.conn fd ∧ fd ∉ fds)
    (nodup : fds.Nodup) (clean : ∀ fd ∈ fds, conn fd = some ⟨[], []⟩)
    (mine : ∀ fd, pc.fd = some fd → fd ∉ fds ∧ ∀ l, l ≠ k → (s.pc l).fd ≠ some fd)
    (kept : ∀ fd, (conn fd).isSome →
      fd ∈ fds ∨ pc.fd = some fd ∨ ∃ l, l ≠ k ∧ (s.pc l).fd = some fd) :
    Inv Serves ⟨fds, seqId, conn, Function.update s.pc k pc⟩ := by
  constructor
  · exact nodup
  · exact clean
  · intro l
    by_cases same : l = k
    · subst same
      simpa using own
    · simpa [same] using (inv.holds l).congr fun fd held => (others l same fd held).1
  · intro l fd held
    by_cases same : l = k
    · subst same
      exact (mine fd (by simpa using held)).1
    · exact (others l same fd (by simpa [same] using held)).2
  · intro l m fd left right
    by_cases first : l = k <;> by_cases second : m = k
    · exact first.trans second.symm
    · subst first
      exact absurd (by simpa [second] using right) ((mine fd (by simpa using left)).2 m second)
    · subst second
      exact absurd (by simpa [first] using left) ((mine fd (by simpa using right)).2 l first)
    · exact inv.apart l m fd (by simpa [first] using left) (by simpa [second] using right)
  · intro fd isOpen
    obtain pooled | held | ⟨l, other, held⟩ := kept fd isOpen
    · exact .inl pooled
    · exact .inr ⟨k, by simpa using held⟩
    · exact .inr ⟨l, by simpa [other] using held⟩

/-- The coroutine `k` goes on with the connection that it holds. -/
theorem Inv.keep (inv : Inv Serves s) (here : (s.pc k).fd = some fd) (same : pc.fd = some fd)
    (own : Holds Serves conn pc) (frame : ∀ x, x ≠ fd → conn x = s.conn x) :
    Inv Serves ⟨s.fds, seqId, conn, Function.update s.pc k pc⟩ := by
  have out : fd ∉ s.fds := inv.pooled k fd here
  apply inv.turn own
  · intro l other x held
    have ne : x ≠ fd := by
      rintro rfl
      exact other (inv.apart l k x held here)
    exact ⟨frame x ne, inv.pooled l x held⟩
  · exact inv.nodup
  · intro x pooled
    rw [frame x (ne_of_mem_of_not_mem pooled out)]
    exact inv.clean x pooled
  · intro x held
    obtain rfl : fd = x := Option.some.inj (same.symm.trans held)
    exact ⟨out, fun l other held' => other (inv.apart l k fd held' here)⟩
  · intro x isOpen
    by_cases ne : x = fd
    · exact .inr (.inl (ne ▸ same))
    · rw [frame x ne] at isOpen
      obtain pooled | ⟨l, held⟩ := inv.kept x isOpen
      · exact .inl pooled
      · refine .inr (.inr ⟨l, ?_, held⟩)
        rintro rfl
        exact ne (Option.some.inj (held.symm.trans here))

theorem Inv.write {c : Conn Q A} (inv : Inv Serves s) (held : (s.pc k).fd = some fd)
    (own : Holds Serves (Function.update s.conn fd (some c)) (s.pc k)) :
    Inv Serves { s with conn := Function.update s.conn fd (some c) } := by
  have moved : Inv Serves ⟨s.fds, s.seqId, Function.update s.conn fd (some c),
      Function.update s.pc k (s.pc k)⟩ :=
    inv.keep held held own fun x ne => Function.update_of_ne ne _ _
  rwa [Function.update_eq_self] at moved

theorem Inv.rest (inv : Inv Serves s) (here : (s.pc k).fd = none) (there : pc.fd = none)
    (own : Holds Serves s.conn pc) :
    Inv Serves { s with pc := Function.update s.pc k pc } := by
  apply inv.turn own
  · exact fun l _ x held => ⟨rfl, inv.pooled l x held⟩
  · exact inv.nodup
  · exact inv.clean
  · intro x held
    simp [there] at held
  · intro x isOpen
    obtain pooled | ⟨l, held⟩ := inv.kept x isOpen
    · exact .inl pooled
    · refine .inr (.inr ⟨l, ?_, held⟩)
      rintro rfl
      simp [here] at held

omit [DecidableEq K] in
/-- Before an answer is read it is the only one, and it is that to the request of the coroutine. -/
theorem Inv.answer {requests : List (UInt64 × Q)} {answers : List A} (inv : Inv Serves s)
    (here : s.pc k = .waiting fd seqId q) (conn : s.conn fd = some ⟨requests, a :: answers⟩) :
    Serves seqId q a ∧ requests = [] ∧ answers = [] := by
  have holds := inv.holds k
  rw [here] at holds
  obtain waits | ⟨b, answered, serves⟩ := holds
  · simp [conn] at waits
  · simp only [conn, Option.some.injEq, Conn.mk.injEq, List.cons.injEq] at answered
    obtain ⟨none, rfl, rest⟩ := answered
    exact ⟨serves, none, rest⟩

/-- The call of `k` fails: what is on its connection does not matter any more. -/
theorem Inv.fail (inv : Inv Serves s) (held : (s.pc k).fd = some fd) (failed : ret ≠ 0) :
    Inv Serves ⟨s.fds, seqId, s.conn, Function.update s.pc k (.ended fd ret)⟩ :=
  inv.keep held rfl ⟨(inv.holds k).isOpen held, fun zero => absurd zero failed⟩ fun _ _ => rfl

theorem Inv.get {rest : List ℕ} (inv : Inv Serves s) (idle : s.pc k = .idle)
    (pool : s.fds = fd :: rest) :
    Inv Serves { s with fds := rest, pc := Function.update s.pc k (.sending fd q) } := by
  have nodup := inv.nodup
  rw [pool] at nodup
  have shorter : ∀ x ∈ rest, x ∈ s.fds := fun x mem => pool ▸ List.mem_cons_of_mem _ mem
  have mem : fd ∈ s.fds := pool ▸ List.mem_cons_self
  apply inv.turn
  · exact inv.clean fd mem
  · exact fun l _ x held => ⟨rfl, fun pooled => inv.pooled l x held (shorter x pooled)⟩
  · exact (List.nodup_cons.mp nodup).2
  · exact fun x pooled => inv.clean x (shorter x pooled)
  · intro x held
    obtain rfl : fd = x := Option.some.inj held
    exact ⟨(List.nodup_cons.mp nodup).1, fun l _ held => inv.pooled l fd held mem⟩
  · intro x isOpen
    obtain pooled | ⟨l, held⟩ := inv.kept x isOpen
    · rw [pool] at pooled
      exact (List.mem_cons.mp pooled).elim (fun first => .inr (.inl (by rw [first]; rfl))) .inl
    · refine .inr (.inr ⟨l, ?_, held⟩)
      rintro rfl
      simp [idle, Pc.fd] at held

theorem Inv.connect (inv : Inv Serves s) (here : s.pc k = .connecting q) (closed : s.conn fd = none) :
    Inv Serves { s with
      conn := Function.update s.conn fd (some ⟨[], []⟩)
      pc := Function.update s.pc k (.sending fd q) } := by
  have fresh : ∀ x, (s.conn x).isSome → x ≠ fd := by
    rintro x isOpen rfl
    simp [closed] at isOpen
  have same : ∀ x, (s.conn x).isSome →
      Function.update s.conn fd (some ⟨[], []⟩) x = s.conn x := fun x isOpen =>
    Function.update_of_ne (fresh x isOpen) _ _
  have pooled_open : ∀ x ∈ s.fds, (s.conn x).isSome := fun x pooled => by
    simp [inv.clean x pooled]
  apply inv.turn
  · exact Function.update_self ..
  · exact fun l _ x held => ⟨same x ((inv.holds l).isOpen held), inv.pooled l x held⟩
  · exact inv.nodup
  · exact fun x pooled => (same x (pooled_open x pooled)).trans (inv.clean x pooled)
  · intro x held
    obtain rfl : fd = x := Option.some.inj held
    exact ⟨fun pooled => fresh fd (pooled_open fd pooled) rfl,
      fun l _ held => fresh fd ((inv.holds l).isOpen held) rfl⟩
  · intro x isOpen
    by_cases new : x = fd
    · exact .inr (.inl (new ▸ rfl))
    · rw [Function.update_of_ne new] at isOpen
      obtain pooled | ⟨l, held⟩ := inv.kept x isOpen
      · exact .inl pooled
      · refine .inr (.inr ⟨l, ?_, held⟩)
        rintro rfl
        simp [here, Pc.fd] at held

/-- A request is sent on a connection with nothing under way. -/
theorem Inv.send {c : Conn Q A} (inv : Inv Serves s) (here : s.pc k = .sending fd q)
    (conn : s.conn fd = some c) :
    Inv Serves { s with
      seqId := seqId
      conn := Function.update s.conn fd (some { c with requests := c.requests ++ [(seqId, q)] })
      pc := Function.update s.pc k (.waiting fd seqId q) } := by
  have holds := inv.holds k
  rw [here] at holds
  obtain rfl : c = ⟨[], []⟩ := Option.some.inj (conn.symm.trans holds)
  exact inv.keep (by rw [here]; rfl) rfl (.inl (Function.update_self ..)) fun x ne =>
    Function.update_of_ne ne _ _

omit [DecidableEq K] in
/-- Who holds a connection with a request on it waits for the answer, or has given up. -/
theorem Holds.serve {pre post : List (UInt64 × Q)} {answers : List A} (holds : Holds Serves conn pc)
    (held : pc.fd = some fd) (busy : conn fd = some ⟨pre ++ (seqId, q) :: post, answers⟩)
    (serves : Serves seqId q a) :
    Holds Serves (Function.update conn fd (some ⟨pre ++ post, answers ++ [a]⟩)) pc := by
  cases pc with
  | idle => trivial
  | connecting q' => trivial
  | sending fd' q' =>
    obtain rfl : fd' = fd := Option.some.inj held
    simpa using busy.symm.trans holds
  | waiting fd' seqId' q' =>
    obtain rfl : fd' = fd := Option.some.inj held
    obtain waits | ⟨b, answered, -⟩ := holds
    · have same := Option.some.inj (busy.symm.trans waits)
      simp only [Conn.mk.injEq, List.append_eq_singleton_iff, reduceCtorEq, and_false,
        List.cons.injEq, Prod.mk.injEq, or_false] at same
      obtain ⟨⟨rfl, ⟨rfl, rfl⟩, rfl⟩, rfl⟩ := same
      exact .inr ⟨a, Function.update_self .., serves⟩
    · simpa using busy.symm.trans answered
  | ended fd' ret =>
    obtain rfl : fd' = fd := Option.some.inj held
    refine ⟨by simp, fun zero => ?_⟩
    simpa using busy.symm.trans (holds.2 zero)

/-- The server answers on a connection that has a request on it. -/
theorem Inv.serve {pre post : List (UInt64 × Q)} {answers : List A} (inv : Inv Serves s)
    (conn : s.conn fd = some ⟨pre ++ (seqId, q) :: post, answers⟩) (serves : Serves seqId q a) :
    Inv Serves { s with conn := Function.update s.conn fd (some ⟨pre ++ post, answers ++ [a]⟩) } := by
  have out : fd ∉ s.fds := by
    intro pooled
    simpa using conn.symm.trans (inv.clean fd pooled)
  obtain ⟨k, held⟩ := (inv.kept fd (by simp [conn])).resolve_left out
  exact inv.write held ((inv.holds k).serve held conn serves)

/-- A connection is given back to the pool, or closed. -/
theorem Inv.release (inv : Inv Serves s) (here : s.pc k = .ended fd ret) :
    Inv Serves { s with
      fds := if ret ≠ 0 then s.fds else s.fds ++ [fd]
      conn := if ret ≠ 0 then Function.update s.conn fd none else s.conn
      pc := Function.update s.pc k .idle } := by
  have held : (s.pc k).fd = some fd := by rw [here]; rfl
  have holds := inv.holds k
  rw [here] at holds
  have out : fd ∉ s.fds := inv.pooled k fd held
  have others : ∀ l, l ≠ k → ∀ x, (s.pc l).fd = some x → x ≠ fd := by
    rintro l other x held' rfl
    exact other (inv.apart l k x held' held)
  have kept : ∀ x, x ≠ fd → (s.conn x).isSome → x ∈ s.fds ∨ ∃ l, l ≠ k ∧ (s.pc l).fd = some x := by
    intro x ne isOpen
    refine (inv.kept x isOpen).imp_right ?_
    rintro ⟨l, held'⟩
    refine ⟨l, ?_, held'⟩
    rintro rfl
    exact ne (Option.some.inj (held'.symm.trans held))
  by_cases failed : ret ≠ 0
  · simp only [if_pos failed]
    apply inv.turn
    · trivial
    · exact fun l other x held' =>
        ⟨Function.update_of_ne (others l other x held') _ _, inv.pooled l x held'⟩
    · exact inv.nodup
    · exact fun x pooled => (Function.update_of_ne (ne_of_mem_of_not_mem pooled out) _ _).trans
        (inv.clean x pooled)
    · simp [Pc.fd]
    · intro x isOpen
      by_cases closed : x = fd
      · simp [closed] at isOpen
      · rw [Function.update_of_ne closed] at isOpen
        exact (kept x closed isOpen).imp_right .inr
  · simp only [if_neg failed]
    apply inv.turn
    · trivial
    · exact fun l other x held' =>
        ⟨rfl, by simp [inv.pooled l x held', others l other x held']⟩
    · exact List.nodup_append.mpr ⟨inv.nodup, List.nodup_singleton fd, by
        rintro x pooled y mem rfl
        exact out (List.mem_singleton.mp mem ▸ pooled)⟩
    · intro x pooled
      rcases List.mem_append.mp pooled with before | new
      · exact inv.clean x before
      · rw [List.mem_singleton.mp new]
        exact holds.2 (not_not.mp failed)
    · simp [Pc.fd]
    · intro x isOpen
      by_cases new : x = fd
      · exact .inl (by simp [new])
      · exact (kept x new isOpen).imp (fun pooled => List.mem_append_left _ pooled) .inr

theorem Inv.step (inv : Inv Serves s) (step : Step Serves s ev s') : Inv Serves s' := by
  cases step with
  | get k q fd rest idle pool => exact inv.get idle pool
  | getNone k q idle pool => exact inv.rest (by rw [idle]; rfl) rfl trivial
  | connect k q fd here closed => exact inv.connect here closed
  | connectFails k q here => exact inv.rest (by rw [here]; rfl) rfl trivial
  | send k fd q c here conn => exact inv.send here conn
  | sendFails k fd q here => exact inv.fail (by rw [here]; rfl) (by decide)
  | serve fd pre post seqId q a answers conn serves => exact inv.serve conn serves
  | receive k fd seqId q requests a answers ret here conn parsed =>
    obtain ⟨-, rfl, rfl⟩ := inv.answer here conn
    refine inv.keep (by rw [here]; rfl) rfl ?_ fun x ne => Function.update_of_ne ne _ _
    simp [Holds]
  | waitFails k fd seqId q ret here failed =>
    refine inv.fail (by rw [here]; rfl) ?_
    rintro rfl
    simp [waitErrors] at failed
  | torn k fd ret c c' here failed conn =>
    have held : (s.pc k).fd = some fd := by rw [here]; rfl
    have own : Holds Serves (Function.update s.conn fd (some c')) (s.pc k) := by
      rw [here]
      exact ⟨by simp, fun zero => absurd zero failed⟩
    exact inv.write held own
  | release k fd ret here => exact inv.release here

omit [DecidableEq K] in
theorem inv_init : Inv Serves (State.init : State K Q A) where
  nodup := List.nodup_nil
  clean := by simp [State.init]
  holds _ := trivial
  pooled := by simp [State.init]
  apart := by simp [State.init, Pc.fd]
  kept := by simp [State.init]

theorem inv_run (run : Trace (State.init : State K Q A) (Step Serves) tr s) : Inv Serves s :=
  run.invariant (fun _ => Inv Serves) inv_init fun inv step => inv.step step

/-- A connection in the pool is open, is there once, nobody uses it, and nothing is under way on it; and
a connection that is open is in the pool or with one coroutine. -/
theorem pool_clean (run : Trace (State.init : State K Q A) (Step Serves) tr s) :
    s.fds.Nodup ∧
      (∀ fd ∈ s.fds, s.conn fd = some ⟨[], []⟩ ∧ ∀ k, (s.pc k).fd ≠ some fd) ∧
      ∀ fd, (s.conn fd).isSome → fd ∈ s.fds ∨ ∃! k, (s.pc k).fd = some fd := by
  have inv := inv_run run
  refine ⟨inv.nodup, fun fd pooled => ⟨inv.clean fd pooled, ?_⟩, fun fd isOpen => ?_⟩
  · exact fun k held => inv.pooled k fd held pooled
  · refine (inv.kept fd isOpen).imp_right ?_
    rintro ⟨k, held⟩
    exact ⟨k, held, fun l held' => inv.apart l k fd held' held⟩

end Keep

/-! ### The answers of the server -/

section Answers

variable {M : Type}

/-- What the server answers to a request that names a command, and goes on or closes, in one of the states
that it may be in, wherever the request is in its memory. -/
def Replied (servers : RpcPbServerBase M → Prop) (serialize : M → Message) (seqId : UInt64)
    (q a : Content) : Prop :=
  ∃ (s : RpcPbServerBase M) (mem : ℤ → UInt8) (start : PbField) (text data : ℤ) (len : ℕ)
    (r : Reply M), servers s ∧ Named q ∧
    content mem (headOf mem start data len) = { q with type := requestType, seqId := seqId } ∧
    (handle s start text mem data len = .answered r ∨
      handle s start text mem data len = .ends (some r)) ∧
    a = contentWith (write mem text r.errmsg) r.head (r.rsp.map serialize)

/-- The answer to a request: what the handler of its command makes of its body, without a `seq_id`, or a
refusal, with that of the request. -/
def Answers (s : RpcPbServerBase M) (serialize : M → Message) (seqId : UInt64) (q a : Content) :
    Prop :=
  match lookup s q with
  | some cmd =>
    let called := cmd.rpcPbCallCb s.logged q.body
    a = ⟨responseType, [], 0, 0, (called.rsp.map serialize).elim [] Message.bytes, called.ret, []⟩
  | none => a.cmdId = q.cmdId ∧ a.seqId = seqId ∧ a.ret = errUnsupporedCmd ∧ a.body = []

variable {K : Type u} [DecidableEq K] {servers : RpcPbServerBase M → Prop} {serialize : M → Message}
  {seqId : UInt64} {q a : Content} {s s' : State K Content Content} {k : K}
  {tr : List (Event K Content)}

theorem contentWith_respond (mem : ℤ → UInt8) (r : Called M) (msg : Option Message) :
    contentWith mem (respond r).head msg =
      ⟨responseType, [], 0, 0, msg.elim [] Message.bytes, r.ret, []⟩ := rfl

/-- What the head of a request that is answered makes of it. -/
theorem answers_head {server : RpcPbServerBase M} {mem : ℤ → UInt8} {text : ℤ} {h : CmdBase}
    {r : Reply M} (named : Named q)
    (parsed : content mem h = { q with type := requestType, seqId := seqId })
    (written : serveHead server mem (tcpPath text) h = .ok (some r)) :
    Answers server serialize seqId q
      (contentWith (write mem text r.errmsg) r.head (r.rsp.map serialize)) := by
  obtain ⟨request, -, id, seq, body, -⟩ := Content.ext_iff.mp parsed
  simp only [content] at request id seq body
  have named' : Named (content mem h) := by
    rw [parsed]
    exact named
  obtain ⟨names, found⟩ := names_content (s := server) named'
  have same : lookup server (content mem h) = lookup server q := by
    rw [parsed]
    rfl
  rw [same] at found
  unfold Answers
  cases command : lookup server q with
  | some cmd =>
    rw [command] at found
    obtain ⟨-, reply⟩ := (serveHead_found _ request names found).mp written
    obtain rfl := Except.ok.inj reply
    rw [body]
    exact contentWith_respond ..
  | none =>
    rw [command] at found
    have refused := (serveHead_unknown (tcpPath text) request names found).symm.trans written
    obtain rfl := Option.some.inj (Except.ok.inj refused)
    exact ⟨id, seq, rfl, rfl⟩

theorem written_of_handle {server : RpcPbServerBase M} {mem : ℤ → UInt8} {start : PbField}
    {text data : ℤ} {len : ℕ} {r : Reply M}
    (handled : handle server start text mem data len = .answered r ∨
      handle server start text mem data len = .ends (some r)) :
    procTcpRpcPb server mem start text data len = .ok (some r) := by
  unfold handle at handled
  generalize procTcpRpcPb server mem start text data len = served at handled ⊢
  generalize target server mem (headOf mem start data len) = found at handled
  obtain e | _ | r' := served
  · simp [Handled.of] at handled
  · simp [Handled.of] at handled
  · cases found with
    | error errmsg => simpa [Handled.of] using handled
    | ok cmd => simpa [Handled.of] using handled

/-- Every answer comes from the handler of the command, or is a refusal. -/
theorem Replied.answers (replied : Replied servers serialize seqId q a) :
    ∃ s, servers s ∧ Answers s serialize seqId q a := by
  obtain ⟨s, mem, start, text, data, len, r, server, named, parsed, handled, rfl⟩ := replied
  have written := written_of_handle handled
  rw [procTcpRpcPb, serve_eq] at written
  exact ⟨s, server, answers_head named parsed written⟩

/-- A request that is sent to a server with its command can be answered. -/
theorem replied_found {server : RpcPbServerBase M} {cmd : RpcPbCmd M} {mem : ℤ → UInt8} {c : CmdBase}
    {msg : Option Message} (known : servers server) (request : c.type = requestType)
    (short : (encoding mem c msg).length < 2 ^ 31) (named : Named (contentWith mem c msg))
    (found : lookup server (contentWith mem c msg) = some cmd)
    (quiet : Printable server cmd (contentWith mem c msg).body) :
    ∃ a, Replied servers serialize c.seqId (contentWith mem c msg) a := by
  have parsed : content (write mem 1 (encoding mem c msg))
      (headOf (write mem 1 (encoding mem c msg)) ⟨0, 0, 0, 0, 0, 0⟩ 1 (encoding mem c msg).length) =
        contentWith mem c msg := by
    rw [headOf]
    exact parse_encoding (slice_write ..) short (by decide)
  have same : { contentWith mem c msg with type := requestType, seqId := c.seqId } =
      contentWith mem c msg := by simp only [contentWith, content, request]
  have answered : handle server ⟨0, 0, 0, 0, 0, 0⟩ 0 (write mem 1 (encoding mem c msg)) 1
      (encoding mem c msg).length = .answered (respond (cmd.rpcPbCallCb server.logged _)) :=
    handle_respond parsed request named found quiet
  exact ⟨_, server, _, _, 0, 1, _, _, known, named, parsed.trans same.symm, .inl answered, rfl⟩

/-- Whatever fails, and in any order of the coroutines: an answer that `read_packet` brings is the
server's answer to the caller's own request. -/
theorem received_own
    (run : Trace (State.init : State K Content Content) (Step (Replied servers serialize)) tr s)
    (step : Step (Replied servers serialize) s (.received k a) s') :
    ∃ fd seqId q, s.pc k = .waiting fd seqId q ∧
      ∃ server, servers server ∧ Answers server serialize seqId q a := by
  cases step with
  | receive k fd seqId q requests a answers ret here conn parsed =>
    obtain ⟨replied, -⟩ := (inv_run run).answer here conn
    exact ⟨fd, seqId, q, here, replied.answers⟩

end Answers

section Examples

open Conet.Svrkit.RpcCall (number succServer succ)

/-- A request for the successor of a number, with its `seq_id`. -/
def requestHead (i : UInt64) : CmdBase :=
  { CmdBase.init with type := requestType, cmdId := 1, seqId := i }

def question (i : UInt64) (n : UInt8) : Content :=
  contentWith (fun _ => 0) (requestHead i) (some (number n))

theorem replied_succ {i : UInt64} {n : UInt8}
    (short : (encoding (fun _ => 0) (requestHead i) (some (number n))).length < 2 ^ 31) :
    ∃ a, Replied (· = succServer) number i (question i n) a :=
  replied_found rfl rfl short (.inl (show (1 : UInt64) > 0 by decide))
    (show lookup succServer (question i n) = some succ from rfl) fun _ _ _ _ => ⟨rfl, rfl⟩

/-- Two coroutines have asked over two connections. The first has its answer and has given its connection
back, and the answer to the second is there. -/
theorem asked_run : ∃ (a : Content) (tr : List (Event Bool Content)) (s : State Bool Content Content),
    Trace State.init (Step (Replied (· = succServer) number)) tr s ∧ s.fds = [5] ∧
      s.pc false = .waiting 6 2 (question 2 7) ∧ s.conn 6 = some ⟨[], [a]⟩ := by
  obtain ⟨a, first⟩ := replied_succ (i := 1) (n := 3) (by decide)
  obtain ⟨b, second⟩ := replied_succ (i := 2) (n := 7) (by decide)
  have one : Trace (State.init : State Bool Content Content)
      (Step (Replied (· = succServer) number)) [.none] _ :=
    Trace.init.step (.getNone true (question 1 3) rfl rfl)
  have two := one.step (.getNone false (question 2 7) rfl rfl)
  have three := two.step (.connect true (question 1 3) 5 rfl rfl)
  have four := three.step (.connect false (question 2 7) 6 rfl rfl)
  have five := four.step (.send true 5 (question 1 3) ⟨[], []⟩ rfl rfl)
  have six := five.step (.send false 6 (question 2 7) ⟨[], []⟩ rfl rfl)
  have seven := six.step (.serve 6 [] [] 2 (question 2 7) b [] rfl second)
  have eight := seven.step (.serve 5 [] [] 1 (question 1 3) a [] rfl first)
  have nine := eight.step (.receive true 5 1 (question 1 3) [] a [] 0 rfl rfl (.inl rfl))
  exact ⟨b, _, _, nine.step (.release true 5 0 rfl), rfl, rfl, rfl⟩

theorem received_own_asked : ∃ (s : State Bool Content Content) (a : Content) (fd : ℕ) (seqId : UInt64)
    (q : Content), s.pc false = .waiting fd seqId q ∧
      ∃ server, server = succServer ∧ Answers server number seqId q a := by
  obtain ⟨a, tr, s, run, -, waits, answered⟩ := asked_run
  exact ⟨s, a, received_own run (.receive false 6 2 (question 2 7) [] a [] 0 waits answered (.inl rfl))⟩

theorem pool_clean_asked : ∃ s : State Bool Content Content, s.fds = [5] ∧ s.fds.Nodup ∧
    (∀ fd ∈ s.fds, s.conn fd = some ⟨[], []⟩ ∧ ∀ k, (s.pc k).fd ≠ some fd) ∧
    ∀ fd, (s.conn fd).isSome → fd ∈ s.fds ∨ ∃! k, (s.pc k).fd = some fd := by
  obtain ⟨a, tr, s, run, pooled, -, -⟩ := asked_run
  exact ⟨s, pooled, pool_clean run⟩

end Examples

end Conet.Svrkit.RpcClient
