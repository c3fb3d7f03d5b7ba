/- Module: Conet/Core/NetworkMirror
   source: core/src/network.cpp
   digest: When the wait items mirror what the epoll descriptor has registered. -/

import Conet.Core.Network

set_option autoImplicit false
set_option relaxedAutoImplicit false

namespace Conet.Core.NetworkMirror

open Conet.Lib Conet.Lib.Epoll Conet.Core.Network

universe u

variable {P : Type u}

/-- `wait_events` is 0 for the descriptors that are not registered, and else the registered mask
without the edge-trigger flag; and no `epoll_ctl` has failed. A descriptor without a wait item counts
as one whose `wait_events` is 0. -/
structure Mirrored (n : Net P) : Prop where
  zero : ∀ fd, (itemOr n fd).waitEvents = 0 ↔ n.kernel.reg fd = none
  mask : ∀ fd mask ptr, n.kernel.reg fd = some (mask, ptr) →
    mask &&& ~~~epollEt = (itemOr n fd).waitEvents
  failed : n.failed = 0

/-- The condition on a step: a `co_poll` asks for some event of every descriptor, or the descriptor is
registered already. -/
def Meets (n : Net P) : Event P → Prop
  | .polled _ fds _ => ∀ f ∈ fds,
    pollEvent2epoll f.events ≠ 0 ∨ (itemOr n f.fd.toNat).waitEvents ≠ 0
  | _ => True

def MirroredRun [DecidableEq P] : List (Event P) → Net P → Prop :=
  Trace Net.init fun n ev n' => Step n ev n' ∧ Mirrored n'

def MeetsRun [DecidableEq P] : List (Event P) → Net P → Prop :=
  Trace Net.init fun n ev n' => Step n ev n' ∧ Meets n ev

/-- The wait item and the registration of one descriptor. -/
def Cell (n : Net P) (fd : Fd) : Prop :=
  ((itemOr n fd).waitEvents = 0 ∧ n.kernel.reg fd = none) ∨
  ((itemOr n fd).waitEvents ≠ 0 ∧ Registered n fd)

structure Inv (n : Net P) : Prop where
  cell : ∀ fd, Cell n fd
  failed : n.failed = 0

section Cells

variable {n n' : Net P} {fd g : Fd}

theorem Inv.mirrored (inv : Inv n) : Mirrored n := by
  refine ⟨fun fd => ?_, fun fd mask ptr reg => ?_, inv.failed⟩
  · rcases inv.cell fd with ⟨zero, none⟩ | ⟨pos, -, ptr, -, some⟩
    · simp [zero, none]
    · exact iff_of_false pos (by simp [some])
  · rcases inv.cell fd with ⟨-, none⟩ | ⟨-, within, ptr', -, some⟩
    · simp [none] at reg
    · rw [some, Option.some.injEq, Prod.mk.injEq] at reg
      rw [← reg.1]
      apply or_et_and_not
      rw [← within.and_eq, BitVec.and_assoc, show pollMask &&& epollEt = 0 from by decide]
      simp

theorem Cell.congr (cell : Cell n fd)
    (item : (itemOr n' fd).waitEvents = (itemOr n fd).waitEvents)
    (reg : n'.kernel.reg fd = n.kernel.reg fd) : Cell n' fd := by
  unfold Cell
  rw [item, reg]
  exact cell.imp_right fun busy => ⟨busy.1, busy.2.congr item reg⟩

theorem Inv.congr (inv : Inv n) (item : ∀ fd, (itemOr n' fd).waitEvents = (itemOr n fd).waitEvents)
    (reg : n'.kernel.reg = n.kernel.reg) (failed : n'.failed = n.failed) : Inv n' :=
  ⟨fun fd => (inv.cell fd).congr (item fd) (congrFun reg fd), failed.trans inv.failed⟩

theorem within_pollEvent2epoll (events : BitVec 16) : Within (pollEvent2epoll events) pollMask :=
  within_and

/-- A turn of `poll_ctx_t::init` on the cell of its descriptor. -/
theorem Cell.interest (cell : Cell n fd) (ptr : Ptr) (hptr : ptr.fd = fd) {m : Events}
    (within : Within m pollMask)
    (item : (itemOr n' fd).waitEvents = m ||| (itemOr n fd).waitEvents)
    (kernel : n'.kernel = (interestKernel n.kernel ptr (itemOr n fd).waitEvents m).1) :
    (interestKernel n.kernel ptr (itemOr n fd).waitEvents m).2 = false ∧
      (m ≠ 0 ∨ (itemOr n fd).waitEvents ≠ 0 → Cell n' fd) ∧
      (¬ (m ≠ 0 ∨ (itemOr n fd).waitEvents ≠ 0) →
        (itemOr n' fd).waitEvents = 0 ∧ n'.kernel.reg fd ≠ none) := by
  subst hptr
  unfold Cell Registered
  rw [item, kernel]
  unfold interestKernel
  rcases cell with ⟨zero, none⟩ | ⟨pos, old, ptr', hptr', some⟩
  · rw [if_neg (not_not.mpr zero), zero]
    obtain ⟨reg, ok⟩ := add_reg (m ||| epollEt) ptr none
    rw [reg, Function.update_self]
    refine ⟨ok, fun h => .inr ⟨?_, ?_, ptr, rfl, ?_⟩, fun h => ⟨?_, by simp⟩⟩
    · exact or_ne_zero.mpr h
    · simpa using within
    · simp
    · simpa using (not_or.mp h).1
  · rw [if_pos pos]
    split_ifs with change
    · obtain ⟨reg, ok⟩ := mod_reg ((m ||| (itemOr n ptr.fd).waitEvents) ||| epollEt) ptr
        (show (n.kernel.reg ptr.fd).isSome by rw [some]; rfl)
      rw [reg, Function.update_self]
      exact ⟨ok, fun h => .inr ⟨or_ne_zero.mpr h, within.or old, ptr, rfl, rfl⟩,
        fun h => absurd (.inr pos) h⟩
    · rw [not_not.mp change]
      exact ⟨rfl, fun _ => .inr ⟨pos, old, ptr', hptr', some⟩, fun h => absurd (.inr pos) h⟩

/-- `clear_invalid_event` on the cell of a registered descriptor. -/
theorem Cell.clear (cell : Cell n fd) (registered : n.kernel.reg fd ≠ none) {ptr : Ptr}
    (hptr : ptr.fd = fd) {events : Events}
    (item : (itemOr n' fd).waitEvents = (itemOr n fd).waitEvents &&& ~~~events)
    (kernel : n'.kernel =
      (clearKernel n.kernel ptr ((itemOr n fd).waitEvents &&& ~~~events)).1) :
    (clearKernel n.kernel ptr ((itemOr n fd).waitEvents &&& ~~~events)).2 = false ∧ Cell n' fd := by
  subst hptr
  unfold Cell Registered
  rw [item, kernel]
  unfold clearKernel
  have isSome : (n.kernel.reg ptr.fd).isSome := Option.isSome_iff_ne_none.mpr registered
  rcases cell with ⟨-, none⟩ | ⟨-, old, ptr', hptr', some⟩
  · exact absurd none registered
  · split_ifs with left
    · obtain ⟨reg, ok⟩ := mod_reg (((itemOr n ptr.fd).waitEvents &&& ~~~events) ||| epollEt) ptr
        isSome
      rw [reg, Function.update_self]
      exact ⟨ok, .inr ⟨left, old.and_not, ptr, rfl, rfl⟩⟩
    · obtain ⟨reg, ok⟩ := del_reg isSome
      rw [reg, Function.update_self]
      exact ⟨ok, .inl ⟨not_not.mp left, rfl⟩⟩

end Cells

section Steps

variable [DecidableEq P] {n n' : Net P} {p : P} {fd g : Fd} {i : ℕ} {fds : List PollFd}

/-- The loop of `poll_ctx_t::init` leaves the other descriptors alone. -/
theorem initAll_frame (all : InitAll p i fds n n') (off : ∀ f ∈ fds, f.fd.toNat ≠ g) :
    itemOr n' g = itemOr n g ∧ n'.kernel.reg g = n.kernel.reg g := by
  induction all with
  | nil => exact ⟨rfl, rfl⟩
  | @cons i f fs n n₁ n' c ctx inits rest ih =>
    have hne : g ≠ f.fd.toNat := (off f (by simp)).symm
    obtain ⟨item, reg⟩ := ih fun f hf => off f (by simp [hf])
    refine ⟨item.trans ?_, reg.trans ?_⟩
    · simp [itemOr, inits.item, hne]
    · rw [inits.kernel]
      exact interestKernel_reg_ne hne

/-- It finds no call on its descriptors, and so no descriptor twice. -/
theorem initAll_free (all : InitAll p i fds n n') : ∀ f ∈ fds, (itemOr n f.fd.toNat).pollCtx = none := by
  induction all with
  | nil => simp
  | @cons i f fs n n₁ n' c ctx inits rest ih =>
    intro f' hf
    rcases List.mem_cons.mp hf with rfl | hf
    · exact inits.free
    · have free := ih f' hf
      by_cases hne : f'.fd.toNat = f.fd.toNat
      · simp [itemOr, inits.item, hne] at free
      · simpa [itemOr, inits.item, hne] using free

theorem Inv.initAll (inv : Inv n) (all : InitAll p i fds n n') :
    ((∀ f ∈ fds, pollEvent2epoll f.events ≠ 0 ∨ (itemOr n f.fd.toNat).waitEvents ≠ 0) → Inv n') ∧
      (Mirrored n' →
        ∀ f ∈ fds, pollEvent2epoll f.events ≠ 0 ∨ (itemOr n f.fd.toNat).waitEvents ≠ 0) := by
  induction all with
  | nil => exact ⟨fun _ => inv, by simp⟩
  | @cons i f fs n n₁ n' c ctx inits rest ih =>
    have self : (itemOr n₁ f.fd.toNat).waitEvents =
        pollEvent2epoll f.events ||| (itemOr n f.fd.toNat).waitEvents := by
      simp [itemOr, inits.item]
    have others : ∀ g, g ≠ f.fd.toNat → itemOr n₁ g = itemOr n g := by
      intro g hg
      simp [itemOr, inits.item, hg]
    obtain ⟨ok, keeps, breaks⟩ := (inv.cell f.fd.toNat).interest
      ⟨f.fd.toNat, n₁.gen f.fd.toNat⟩ rfl (within_pollEvent2epoll f.events) self inits.kernel
    -- the descriptors of the rest are other ones
    have apart : ∀ f' ∈ fs, f'.fd.toNat ≠ f.fd.toNat := by
      intro f' hf hne
      have free := initAll_free rest f' hf
      simp [itemOr, inits.item, hne] at free
    by_cases first : pollEvent2epoll f.events ≠ 0 ∨ (itemOr n f.fd.toNat).waitEvents ≠ 0
    · have inv₁ : Inv n₁ := by
        refine ⟨fun g => ?_, ?_⟩
        · by_cases hg : g = f.fd.toNat
          · exact hg ▸ keeps first
          · refine (inv.cell g).congr (by rw [others g hg]) ?_
            rw [inits.kernel]
            exact interestKernel_reg_ne hg
        · rw [inits.failed, ok]
          exact inv.failed
      obtain ⟨forth, back⟩ := ih inv₁
      have same : ∀ f' ∈ fs, (itemOr n₁ f'.fd.toNat).waitEvents = (itemOr n f'.fd.toNat).waitEvents :=
        fun f' hf => by rw [others _ (apart f' hf)]
      constructor
      · intro meets
        apply forth
        intro f' hf
        rw [same f' hf]
        exact meets f' (by simp [hf])
      · intro mirrored f' hf
        rcases List.mem_cons.mp hf with rfl | hf
        · exact first
        · have rest := back mirrored f' hf
          rwa [same f' hf] at rest
    · refine ⟨fun meets => absurd (meets f (by simp)) first, fun mirrored => ?_⟩
      obtain ⟨zero, some⟩ := breaks first
      obtain ⟨item, reg⟩ := initAll_frame rest apart
      refine absurd ((mirrored.zero f.fd.toNat).mp (by rw [item]; exact zero)) ?_
      rw [reg]
      exact some

/-- An event for a registered descriptor: its cell stays right, and the others stay as they are. -/
theorem Inv.notify (inv : Inv n) {ptr : Ptr} {events : Events}
    (registered : n.kernel.reg ptr.fd ≠ none)
    (ok : fdNotifyEventsToPoll n ptr events = .ok n') :
    Inv n' ∧ ∀ g, g ≠ ptr.fd → n'.kernel.reg g = n.kernel.reg g := by
  obtain ⟨w, item, -, notified⟩ := fdNotify_ok ok
  have self : itemOr n ptr.fd = w := by simp [itemOr, item]
  have cleared : Inv (clearInvalidEvent n ptr w events) ∧ ∀ g, g ≠ ptr.fd →
      (clearInvalidEvent n ptr w events).kernel.reg g = n.kernel.reg g := by
    rw [clearInvalidEvent_eq]
    set n₁ := ctl (setItem n ptr.fd { w with waitEvents := w.waitEvents &&& ~~~events })
      (clearKernel n.kernel ptr (w.waitEvents &&& ~~~events)) with hn₁
    have frame : ∀ g, g ≠ ptr.fd → n₁.kernel.reg g = n.kernel.reg g := fun g hg =>
      clearKernel_reg_ne hg
    have rest : (itemOr n₁ ptr.fd).waitEvents = (itemOr n ptr.fd).waitEvents &&& ~~~events := by
      simp [hn₁, itemOr, ctl, setItem, item]
    obtain ⟨done, cell⟩ := (inv.cell ptr.fd).clear registered rfl rest (by rw [self]; rfl)
    refine ⟨⟨fun g => ?_, ?_⟩, frame⟩
    · by_cases hg : g = ptr.fd
      · exact hg ▸ cell
      · exact (inv.cell g).congr (by simp [hn₁, itemOr, ctl, setItem, hg]) (frame g hg)
    · rw [self] at done
      simp [hn₁, ctl, setItem, done, inv.failed]
  cases notified with
  | stale => exact cleared
  | unwanted => exact cleared
  | raised => exact ⟨inv.congr (fun _ => rfl) rfl rfl, fun _ _ => rfl⟩

theorem Inv.notifyAll (inv : Inv n) {evs : List (Ptr × Events)}
    (nodup : (evs.map fun ev => ev.1.fd).Nodup)
    (registered : ∀ ev ∈ evs, n.kernel.reg ev.1.fd ≠ none) (ok : notifyAll evs n = .ok n') :
    Inv n' := by
  induction evs generalizing n with
  | nil =>
    obtain rfl : n = n' := by simpa [Network.notifyAll] using ok
    exact inv
  | cons ev evs ih =>
    rw [Network.notifyAll] at ok
    split at ok
    · rename_i n₁ first
      obtain ⟨inv₁, frame⟩ := inv.notify (registered ev (by simp)) first
      rw [List.map_cons, List.nodup_cons] at nodup
      refine ih inv₁ nodup.2 (fun ev' hev => ?_) ok
      have hne : ev'.1.fd ≠ ev.1.fd := fun h =>
        nodup.1 (h ▸ List.mem_map_of_mem (f := fun ev => ev.1.fd) hev)
      rw [frame _ hne]
      exact registered ev' (by simp [hev])
    · simp at ok

omit [DecidableEq P] in
/-- The events of a batch are for distinct registered descriptors. -/
theorem Inv.report (inv : Inv n) {fds : List Fd} (nodup : fds.Nodup) :
    ((n.kernel.report fds).map fun ev => ev.1.fd).Nodup ∧
      ∀ ev ∈ n.kernel.report fds, n.kernel.reg ev.1.fd ≠ none := by
  have own : ∀ fd mask ptr, n.kernel.reg fd = some (mask, ptr) → ptr.fd = fd := by
    intro fd mask ptr reg
    rcases inv.cell fd with ⟨-, none⟩ | ⟨-, -, ptr', hptr, some⟩
    · simp [none] at reg
    · rw [some, Option.some.injEq, Prod.mk.injEq] at reg
      rw [← reg.2, hptr]
  refine ⟨(report_sublist Ptr.fd own).nodup nodup, fun ev hev => ?_⟩
  obtain ⟨fd, -, mask, reg, -⟩ := mem_report.mp hev
  rw [own fd mask ev.1 reg, reg]
  simp

theorem Inv.returns (inv : Inv n) {c : PollCtx} {ret : ℤ}
    (ok : coPollReturn n p c = .ok (n', ret)) : Inv n' := by
  obtain ⟨n₁, gs, detached, rfl, -, -⟩ := coPollReturn_ok ok
  refine inv.congr (fun fd => ?_) (by rw [← detached.rest.kernel]) detached.rest.failed
  have item := detached.item fd
  change (itemOr n₁ fd).waitEvents = _
  rw [item]
  split_ifs <;> rfl

/-- A step keeps the mirror right if and only if it meets the condition. -/
theorem Inv.step (inv : Inv n) {ev : Event P} (step : Step n ev n') :
    (Mirrored n' ↔ Meets n ev) ∧ (Meets n ev → Inv n') := by
  -- a step that meets the condition in any case
  have always : ∀ {ev : Event P}, Meets n ev → Inv n' →
      (Mirrored n' ↔ Meets n ev) ∧ (Meets n ev → Inv n') := fun meets inv' =>
    ⟨iff_of_true inv'.mirrored meets, fun _ => inv'⟩
  cases step with
  | poll _ p fds timeout away fresh polls =>
    obtain ⟨n₁, c, all, ctx, rfl⟩ := coPoll_ok polls
    have start : Inv (polling n p fds timeout) := inv.congr (fun _ => rfl) rfl rfl
    obtain ⟨forth, back⟩ := start.initAll all
    have meets : (∀ f ∈ fds.map fun f => { f with revents := 0 }, pollEvent2epoll f.events ≠ 0 ∨
        (itemOr (polling n p fds timeout) f.fd.toNat).waitEvents ≠ 0) ↔
        Meets n (.polled p fds timeout) := by
      rw [List.forall_mem_map]
      rfl
    have same : Mirrored (setCtx n₁ p { c with coroutine := true }) ↔ Mirrored n₁ :=
      ⟨fun h => ⟨h.zero, h.mask, h.failed⟩, fun h => ⟨h.zero, h.mask, h.failed⟩⟩
    rw [same, ← meets]
    exact ⟨⟨back, fun h => (forth h).mirrored⟩,
      fun h => (forth h).congr (fun _ => rfl) rfl rfl⟩
  | batch _ fds out nodup queued notifies =>
    refine always trivial ?_
    unfold procNetevent at notifies
    dsimp only at notifies
    split_ifs at notifies with none
    · obtain rfl := Except.ok.inj notifies
      exact inv.congr (fun _ => rfl) rfl rfl
    · split at notifies
      · rename_i n₁ all
        obtain rfl := Except.ok.inj notifies
        obtain ⟨distinct, registered⟩ := inv.report nodup
        have start : Inv { n with
            kernel := n.kernel.fetch fds, links := Conet.Base.ListHead.initListHead n.links (.head ()) } :=
          inv.congr (fun _ => rfl) rfl rfl
        exact (start.notifyAll distinct registered all).congr (fun _ => rfl) rfl rfl
      · simp at notifies
  | dispatch _ p c next ret loop ctx coroutine returns =>
    have start : Inv { n with
        links := Conet.Base.ListHead.listDelInit n.links (.item p), loop := .body next } :=
      inv.congr (fun _ => rfl) rfl rfl
    exact always trivial (start.returns returns)
  | timeout _ p c ret away armed ctx coroutine returns =>
    have start : Inv { n with armed := Function.update n.armed p false } :=
      inv.congr (fun _ => rfl) rfl rfl
    exact always trivial (start.returns returns)
  | close fd shared away =>
    have closed := close_spec n fd shared
    refine always trivial ⟨fun g => ?_, ?_⟩
    · have item := closed.itemOr (g := g)
      by_cases hg : g = fd
      · rw [if_pos hg] at item
        exact .inl ⟨by rw [item]; rfl, by simp [closed.kernel, Kernel.close, hg]⟩
      · rw [if_neg hg] at item
        exact (inv.cell g).congr (by rw [item]) (by simp [closed.kernel, Kernel.close, hg])
    · rw [closed.failed, if_neg, inv.failed]
      rintro ⟨pos, none⟩
      exact pos ((inv.mirrored.zero fd).mpr none)
  | skip => exact always trivial (inv.congr (fun _ => rfl) rfl rfl)
  | next => exact always trivial (inv.congr (fun _ => rfl) rfl rfl)
  | ended => exact always trivial (inv.congr (fun _ => rfl) rfl rfl)
  | activity => exact always trivial (inv.congr (fun _ => rfl) rfl rfl)
  | consume => exact always trivial (inv.congr (fun _ => rfl) rfl rfl)

end Steps

section Runs

variable [DecidableEq P]

omit [DecidableEq P] in
theorem inv_init : Inv (Net.init : Net P) :=
  ⟨fun _ => .inl ⟨rfl, rfl⟩, rfl⟩

/-- The runs in which the wait items mirror the registrations in every state are those whose steps
all meet the condition. -/
theorem mirroredRun_iff (tr : List (Event P)) (n : Net P) : MirroredRun tr n ↔ MeetsRun tr n := by
  apply Trace.iff_of_invariant Inv
  · exact inv_init
  · intro n ev n' inv
    exact and_congr_right fun step => (inv.step step).1
  · rintro n ev n' inv ⟨step, mirrored⟩
    exact (inv.step step).2 ((inv.step step).1.mp mirrored)

/-- A poll that asks for no event of a new descriptor registers it, with `wait_events` 0; so the
next poll adds it once more, which fails. -/
theorem unmirrored : ¬ ∀ (tr : List (Event ℕ)) (n : Net ℕ), Run tr n → Mirrored n := by
  intro all
  have start : Run [] (Net.init : Net ℕ) := .init
  have polled := start.step
    (.poll _ _ 0 [⟨5, 0, 0⟩] 10 trivial rfl rfl)
  have registered := ((all _ _ polled).zero 5).mp rfl
  cases registered

end Runs

end Conet.Core.NetworkMirror
