/- Module: Conet/Lib/Places
   source: none (library)
   digest: Tokens in lists, each token at one place at most, and their moves between the lists. -/

import Mathlib.Data.List.Nodup
import Mathlib.Data.List.Perm.Subperm
import Mathlib.Logic.Function.Basic

set_option autoImplicit false
set_option relaxedAutoImplicit false

namespace Conet.Lib

universe u v

variable {L : Type u} {α : Type v} {held held' : L → List α} {l l' : L} {a : α}

/-- No token is held twice, neither in one list nor in two. -/
structure Exclusive (held : L → List α) : Prop where
  nodup : ∀ l, (held l).Nodup
  only : ∀ l l' a, a ∈ held l → a ∈ held l' → l = l'

namespace Exclusive

theorem empty : Exclusive fun _ : L => ([] : List α) := ⟨by simp, by simp⟩

theorem mono (exclusive : Exclusive held) (less : ∀ l, (held' l).Subperm (held l)) :
    Exclusive held' := by
  constructor
  · intro l
    obtain ⟨kept, perm, sub⟩ := less l
    exact perm.nodup_iff.mp ((exclusive.nodup l).sublist sub)
  · intro l l' a here there
    exact exclusive.only l l' a ((less l).subset here) ((less l').subset there)

variable [DecidableEq L]

theorem add (exclusive : Exclusive held) (new : ∀ l, a ∉ held l) (l : L) :
    Exclusive (Function.update held l (held l ++ [a])) := by
  have cases : ∀ l' b, b ∈ Function.update held l (held l ++ [a]) l' →
      b ∈ held l' ∨ b = a ∧ l' = l := by
    intro l' b mem
    by_cases here : l' = l
    · subst here
      rw [Function.update_self, List.mem_append, List.mem_singleton] at mem
      exact mem.imp_right fun same => ⟨same, rfl⟩
    · rw [Function.update_of_ne here] at mem
      exact .inl mem
  constructor
  · intro l'
    by_cases here : l' = l
    · subst here
      rw [Function.update_self]
      refine (exclusive.nodup l').append (List.nodup_singleton a) ?_
      simpa using new l'
    · rw [Function.update_of_ne here]
      exact exclusive.nodup l'
  · intro l₁ l₂ b mem₁ mem₂
    rcases cases l₁ b mem₁ with kept₁ | ⟨same₁, here₁⟩ <;>
      rcases cases l₂ b mem₂ with kept₂ | ⟨same₂, here₂⟩
    · exact exclusive.only l₁ l₂ b kept₁ kept₂
    · exact absurd (same₂ ▸ kept₁) (new l₁)
    · exact absurd (same₁ ▸ kept₂) (new l₂)
    · rw [here₁, here₂]

theorem move (exclusive : Exclusive held) {src dst : L} (other : src ≠ dst) :
    Exclusive (Function.update (Function.update held src []) dst (held dst ++ held src)) := by
  have cases : ∀ l b, b ∈ Function.update (Function.update held src []) dst (held dst ++ held src) l →
      l ≠ src ∧ (b ∈ held l ∨ b ∈ held src ∧ l = dst) := by
    intro l b mem
    by_cases here : l = dst
    · subst here
      rw [Function.update_self, List.mem_append] at mem
      exact ⟨Ne.symm other, mem.imp_right fun moved => ⟨moved, rfl⟩⟩
    · rw [Function.update_of_ne here] at mem
      by_cases left : l = src
      · subst left
        simp at mem
      · rw [Function.update_of_ne left] at mem
        exact ⟨left, .inl mem⟩
  constructor
  · intro l
    by_cases here : l = dst
    · subst here
      rw [Function.update_self]
      refine (exclusive.nodup l).append (exclusive.nodup src) ?_
      intro b mem moved
      exact other (exclusive.only src l b moved mem)
    · rw [Function.update_of_ne here]
      by_cases left : l = src
      · subst left
        simp
      · rw [Function.update_of_ne left]
        exact exclusive.nodup l
  · intro l₁ l₂ b mem₁ mem₂
    obtain ⟨not₁, kept₁ | ⟨moved₁, here₁⟩⟩ := cases l₁ b mem₁ <;>
      obtain ⟨not₂, kept₂ | ⟨moved₂, here₂⟩⟩ := cases l₂ b mem₂
    · exact exclusive.only l₁ l₂ b kept₁ kept₂
    · exact absurd (exclusive.only l₁ src b kept₁ moved₂) not₁
    · exact absurd (exclusive.only l₂ src b kept₂ moved₁) not₂
    · rw [here₁, here₂]

end Exclusive

end Conet.Lib
