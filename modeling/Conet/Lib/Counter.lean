/- Module: Conet/Lib/Counter
   source: none (library)
   digest: Counters of 32 bits that go up and down with the number of things that there are. -/

import Mathlib.Algebra.Order.Group.Nat
import Mathlib.Tactic.Common

set_option autoImplicit false
set_option relaxedAutoImplicit false

namespace Conet.Lib.Counter

variable {n c : ℕ}

def inc (c : ℕ) : ℕ := (c + 1) % 2 ^ 32

def dec (c : ℕ) : ℕ := (c + (2 ^ 32 - 1)) % 2 ^ 32

theorem inc_mod (n : ℕ) : inc (n % 2 ^ 32) = (n + 1) % 2 ^ 32 := by
  simp only [inc]
  omega

theorem dec_mod (n : ℕ) : dec ((n + 1) % 2 ^ 32) = n % 2 ^ 32 := by
  simp only [dec]
  omega

theorem dec_inc_mod (n : ℕ) : dec (inc (n % 2 ^ 32)) = n % 2 ^ 32 := by rw [inc_mod, dec_mod]

end Conet.Lib.Counter
