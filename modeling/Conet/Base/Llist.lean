/- Module: Conet/Base/Llist
   source: base/llist.h
   digest: The null-terminated llist, one atomic operation at a time. -/

import Conet.Lib.Chain
import Conet.Lib.Loop

set_option autoImplicit false
set_option relaxedAutoImplicit false

namespace Conet.Base.Llist

open Conet.Lib

universe u

variable {α : Type u} [DecidableEq α]

/-- `llist_add`: the new node's `next`, and the new `first` of the head. -/
def llistAdd (next : α → Option α) (first : Option α) (new : α) :
    (α → Option α) × Option α :=
  (Function.update next new first, some new)

/-- The variables of the loop in `llist_reverse_order`. -/
structure Reversal (α : Type u) where
  next : α → Option α
  head : Option α
  newHead : Option α

/-- One turn of the loop in `llist_reverse_order`. -/
def reverseTurn (r : Reversal α) : Turn (Reversal α) ((α → Option α) × Option α) :=
  match r.head with
  | none => .leave (r.next, r.newHead)
  | some tmp => .again ⟨Function.update r.next tmp r.newHead, r.next tmp, some tmp⟩

def llistReverseOrder (next : α → Option α) (head : Option α) : Reversal α := ⟨next, head, none⟩

variable {next : α → Option α} {first : Option α} {new : α} {xs ys : List α}

theorem llistAdd_chain (chain : Chain next first xs) (fresh : new ∉ xs) :
    Chain (llistAdd next first new).1 (llistAdd next first new).2 (new :: xs) := by
  refine ⟨rfl, ?_⟩
  simp only [llistAdd, Function.update_self]
  refine chain.congr fun z hz => Function.update_of_ne ?_ _ _
  rintro rfl
  exact fresh hz

end Conet.Base.Llist
