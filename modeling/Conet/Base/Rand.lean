/- Module: Conet/Base/Rand
   source: base/random.h
   digest: The generator of the load balancer: no two states come together, and one seed is useless. -/

import Conet.Lib.Mixing
import Mathlib.Data.Finite.Prod
import Mathlib.Dynamics.PeriodicPts.Lemmas

set_option autoImplicit false
set_option relaxedAutoImplicit false

namespace Conet.Base.Rand

open Conet.Lib.Mixing Function

/-- `Rand`. -/
@[ext] structure State where
  x : BitVec 32
  y : BitVec 32
  z : BitVec 32
  w : BitVec 32
  deriving DecidableEq

def mix (s : State) : State :=
  let t := s.x ^^^ s.x <<< 11
  ⟨s.y, s.z, s.w, s.w ^^^ s.w >>> 19 ^^^ t ^^^ t >>> 8⟩

/-- `reseed(uint32_t)`. -/
def reseed32 (seed : BitVec 32) : State := mix^[10] ⟨0x498b3bc5 ^^^ seed, 0, 0, 0⟩

/-- `reseed(uint64_t)`. -/
def reseed64 (seed : BitVec 64) : State :=
  mix^[10] ⟨0x498b3bc5 ^^^ seed.truncate 32, 0x5a05089a ^^^ (seed >>> 32).truncate 32, 0, 0⟩

def randU32 (s : State) : BitVec 32 × State :=
  let s := mix s
  (s.x, s)

/-- The results of `n` calls of `rand_u32`. -/
@[grind =] def draws : ℕ → State → List (BitVec 32)
  | 0, _ => []
  | n + 1, s => (randU32 s).1 :: draws n (randU32 s).2

def zero : State := ⟨0, 0, 0, 0⟩

variable {s : State}

theorem mix_injective : Injective mix := by
  intro s s' same
  have y : s.y = s'.y := congrArg State.x same
  have z : s.z = s'.z := congrArg State.y same
  have w : s.w = s'.w := congrArg State.z same
  have mixed : s.w ^^^ s.w >>> 19 ^^^ (s.x ^^^ s.x <<< 11) ^^^ (s.x ^^^ s.x <<< 11) >>> 8 =
      s'.w ^^^ s'.w >>> 19 ^^^ (s'.x ^^^ s'.x <<< 11) ^^^ (s'.x ^^^ s'.x <<< 11) >>> 8 :=
    congrArg State.w same
  rw [w, BitVec.xor_assoc, BitVec.xor_assoc (s'.w ^^^ s'.w >>> 19)] at mixed
  have t := xor_ushiftRight_injective (by decide) (xor_left_injective _ mixed)
  have x := xor_shiftLeft_injective (by decide) t
  exact State.ext x y z w

theorem mix_zero : mix zero = zero := by decide

theorem mix_iterate_zero (n : ℕ) : mix^[n] zero = zero := iterate_fixed mix_zero n

theorem mix_iterate_eq_zero {n : ℕ} : mix^[n] s = zero ↔ s = zero := by
  constructor
  · intro same
    rw [← mix_iterate_zero n] at same
    exact mix_injective.iterate n same
  · rintro rfl
    exact mix_iterate_zero n

theorem draws_zero (n : ℕ) : draws n zero = List.replicate n 0 := by
  induction n with
  | zero => rfl
  | succ n ih =>
    rw [draws, randU32, mix_zero, ih]
    rfl

theorem draws_four (four : draws 4 s = List.replicate 4 0) : s = zero := by
  simp only [draws, randU32, List.replicate, List.cons.injEq, and_true] at four
  obtain ⟨y, z, w, last⟩ := four
  have mixed : mix s = mix zero := State.ext y z w last
  exact mix_injective mixed

/-- A seed is useless when it takes the first state to zero. -/
theorem draws_iterate_iff (n : ℕ) :
    (∀ k, draws k (mix^[n] s) = List.replicate k 0) ↔ s = zero := by
  constructor
  · exact fun zeros => mix_iterate_eq_zero.mp (draws_four (zeros 4))
  · rintro rfl k
    rw [mix_iterate_zero, draws_zero]

theorem xor_eq_zero_iff {n : ℕ} {x y : BitVec n} : x ^^^ y = 0 ↔ y = x :=
  BitVec.xor_eq_zero_iff.trans eq_comm

theorem halves_iff {seed : BitVec 64} :
    seed.truncate 32 = 0x498b3bc5 ∧ (seed >>> 32).truncate 32 = 0x5a05089a ↔
      seed = 0x5a05089a498b3bc5 := by
  constructor
  · rintro ⟨low, high⟩
    have low := congrArg BitVec.toNat low
    have high := congrArg BitVec.toNat high
    rw [BitVec.truncate_eq_setWidth, BitVec.toNat_setWidth] at low high
    rw [BitVec.toNat_ushiftRight, Nat.shiftRight_eq_div_pow] at high
    apply BitVec.eq_of_toNat_eq
    have bound := seed.isLt
    have low : seed.toNat % 2 ^ 32 = 0x498b3bc5 := low
    have high : seed.toNat / 2 ^ 32 % 2 ^ 32 = 0x5a05089a := high
    change seed.toNat = 0x5a05089a498b3bc5
    omega
  · rintro rfl
    exact ⟨by decide, by decide⟩

/-- The generator gives nothing but zeros for one seed of each kind, and for no other. -/
theorem reseed_stuck_iff :
    (∀ seed, (∀ k, draws k (reseed32 seed) = List.replicate k 0) ↔ seed = 0x498b3bc5) ∧
      ∀ seed, (∀ k, draws k (reseed64 seed) = List.replicate k 0) ↔ seed = 0x5a05089a498b3bc5 := by
  constructor
  · intro seed
    rw [reseed32, draws_iterate_iff, State.ext_iff]
    simp only [zero, xor_eq_zero_iff, and_true]
  · intro seed
    rw [reseed64, draws_iterate_iff, State.ext_iff]
    simp only [zero, xor_eq_zero_iff, and_true]
    exact halves_iff

instance : Finite State :=
  Finite.of_injective (fun s => (s.x.toFin, s.y.toFin, s.z.toFin, s.w.toFin)) fun s s' same => by
    simp only [Prod.mk.injEq, BitVec.toFin_inj] at same
    exact State.ext same.1 same.2.1 same.2.2.1 same.2.2.2

theorem draws_add (m n : ℕ) : draws (m + n) s = draws m s ++ draws n (mix^[m] s) := by
  induction m generalizing s with
  | zero => simp [draws]
  | succ m ih =>
    rw [Nat.add_right_comm, draws, draws, ih, iterate_succ_apply]
    rfl

/-- What the generator gives, it gives again in the same order: there is no way into a smaller cycle. -/
theorem draws_periodic (s : State) : ∃ p > 0, ∀ n, draws (p + n) s = draws p s ++ draws n s := by
  obtain ⟨p, pos, back⟩ := mem_periodicPts.mp (mix_injective.mem_periodicPts s)
  refine ⟨p, pos, fun n => ?_⟩
  rw [draws_add, back.eq]

end Conet.Base.Rand
