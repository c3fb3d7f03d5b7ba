/- Module: Conet/Core/StackPool
   source: core/src/coroutine.cpp, base/src/fixed_mempool.cpp
   digest: Where the stacks of coroutines come from, and where they are released to. -/

import Conet.Lib.Trace
import Mathlib.Data.Int.Notation
import Mathlib.Algebra.Order.Ring.Int
import Mathlib.Data.List.Perm.Basic

set_option autoImplicit false
set_option relaxedAutoImplicit false

namespace Conet.Core.StackPool

open Conet.Lib

section Sizes

/-- Conversion to `int`. -/
def toInt (x : ℤ) : ℤ := (x + 2 ^ 31) % 2 ^ 32 - 2 ^ 31

/-- Conversion to `uint64_t` or `size_t`. -/
def toU64 (x : ℤ) : ℤ := x % 2 ^ 64

/-- `FLAGS_stack_size`, an `int`, and `g_page_size`, a power of two. -/
structure Config where
  flag : ℤ
  page : ℤ
  low : -2 ^ 31 ≤ flag
  high : flag < 2 ^ 31
  pos : 0 < page
  line : 64 ∣ page
  power : page ∣ 2 ^ 30

/-- `fixed_mempool_t`; its blocks are numbered. -/
structure Pool where
  allocSize : ℤ
  totalNum : BitVec 64
  usedNum : BitVec 64
  maxNum : BitVec 64
  isPageAlloc : Bool
  freeList : List ℕ

def Pool.init (cfg : Config) : Pool :=
  let allocSize := toU64 cfg.flag
  if cfg.page ≤ allocSize then
    { allocSize := toU64 (toU64 (allocSize + cfg.page - 1) / cfg.page * cfg.page)
      totalNum := 0
      usedNum := 0
      maxNum := 100000
      isPageAlloc := true
      freeList := [] }
  else
    { allocSize := toU64 (toU64 (allocSize + 64 - 1) / 64 * 64)
      totalNum := 0
      usedNum := 0
      maxNum := 100000
      isPageAlloc := false
      freeList := [] }

/-- `alloc`, where `fresh` is the block that `alloc_mem_help` would get. -/
def Pool.alloc (pool : Pool) (fresh : ℕ) : ℕ × Pool :=
  match pool.freeList with
  | [] => (fresh, { pool with
      totalNum := pool.totalNum + 1
      usedNum := pool.usedNum + 1 })
  | n :: freeList => (n, { pool with
      freeList := freeList
      usedNum := pool.usedNum + 1 })

def Pool.free (pool : Pool) (n : ℕ) : Pool :=
  if pool.maxNum ≤ pool.totalNum then
    { pool with
      totalNum := pool.totalNum - 1
      usedNum := pool.usedNum - 1 }
  else
    { pool with
      freeList := n :: pool.freeList
      usedNum := pool.usedNum - 1 }

end Sizes

section Stacks

inductive Origin
  | pool
  | mmap (length : ℤ)
  | memalign (size : ℤ)
  deriving DecidableEq

inductive Release
  | pool
  | munmap (length : ℤ)
  | free
  deriving DecidableEq

def Origin.release : Origin → Release
  | pool => .pool
  | mmap length => .munmap length
  | memalign _ => .free

/-- The stack of a coroutine: the block, `stack_size` and `is_page_stack`, and where it comes from. -/
structure Stack where
  block : ℕ
  stackSize : ℤ
  isPageStack : Bool
  origin : Origin

def setCallback (cfg : Config) (pool : Pool) (fresh : ℕ) (stackSize : ℤ) : Stack × Pool :=
  if stackSize = cfg.flag then
    let (block, pool) := pool.alloc fresh
    (⟨block, toU64 (toInt pool.allocSize), pool.isPageAlloc, .pool⟩, pool)
  else
    -- `stack_size & -CACHE_LINE_SIZE`
    let stackSize := stackSize / 64 * 64
    if cfg.page ≤ stackSize then
      let stackSize := toInt ((stackSize + cfg.page - 1) / cfg.page * cfg.page)
      (⟨fresh, toU64 stackSize, true, .mmap (toU64 stackSize)⟩, pool)
    else (⟨fresh, toU64 stackSize, false, .memalign (toU64 stackSize)⟩, pool)

/-- The size that `set_callback` is called with: none given means the default. -/
def asked (cfg : Config) (stackSize : BitVec 32) : ℤ :=
  if stackSize = 0 then cfg.flag else stackSize.toInt

/-- What `free_coroutine` does with the stack. -/
def released (cfg : Config) (stack : Stack) : Release :=
  if stack.stackSize = toU64 cfg.flag then .pool
  else if stack.isPageStack then .munmap stack.stackSize
  else .free

end Stacks

section Runs

/-- The pool, the coroutines that are alive with the sizes that they were allocated with, and what has
become of the stacks of the others. -/
structure World where
  pool : Pool
  live : List (BitVec 32 × Stack)
  fresh : ℕ
  gone : List (Origin × Release)

/-- `free i` frees the coroutine that is number `i` in `live`. -/
inductive Event
  | alloc (stackSize : BitVec 32)
  | free (i : ℕ)

namespace World

def start (cfg : Config) : World := ⟨.init cfg, [], 0, []⟩

def allocCoroutine (cfg : Config) (w : World) (stackSize : BitVec 32) : World :=
  let (stack, pool) := setCallback cfg w.pool w.fresh (asked cfg stackSize)
  { w with
    pool := pool
    live := (stackSize, stack) :: w.live
    fresh := w.fresh + 1 }

def freeCoroutine (cfg : Config) (w : World) (i : ℕ) : World :=
  match w.live[i]? with
  | none => w
  | some (_, stack) =>
    { w with
      pool :=
        match released cfg stack with
        | .pool => w.pool.free stack.block
        | _ => w.pool
      live := w.live.eraseIdx i
      gone := (stack.origin, released cfg stack) :: w.gone }

def step (cfg : Config) (w : World) : Event → World
  | .alloc stackSize => w.allocCoroutine cfg stackSize
  | .free i => w.freeCoroutine cfg i

def run (cfg : Config) (events : List Event) : World := events.foldl (step cfg) (start cfg)

/-- The number of stacks from the pool that coroutines have. -/
def pooled (w : World) : ℕ := w.live.countP fun co => co.2.origin = .pool

/-- Every stack has been released to where it came from, and `used_num` counts those of the pool. -/
structure Good (w : World) : Prop where
  released : ∀ r ∈ w.gone, r.2 = r.1.release
  usedNum : w.pool.usedNum = BitVec.ofNat 64 w.pooled

end World

/-- What the size `n` that a coroutine is allocated with must not be. If it is the flag, the flag is a
multiple of the page size, or of 64 if it is less than a page; otherwise rounding does not make it the
flag. -/
def Config.Fits (cfg : Config) (n : ℤ) : Prop :=
  if n = cfg.flag then
    if 0 ≤ cfg.flag ∧ cfg.flag < cfg.page then 64 ∣ cfg.flag else cfg.page ∣ cfg.flag
  else if cfg.flag < cfg.page then
    ¬ (64 ∣ cfg.flag ∧ cfg.flag < n ∧ n < cfg.flag + 64) ∧
      ¬ (cfg.flag = -2 ^ 31 ∧ 2 ^ 31 - cfg.page + 64 ≤ n)
  else
    ¬ (cfg.page ∣ cfg.flag ∧ cfg.page ≤ n ∧ cfg.flag - cfg.page + 64 ≤ n ∧ n < cfg.flag + 64)

/-- The coroutine that is freed has been allocated with a size that fits. -/
def Event.Fair (cfg : Config) (w : World) : Event → Prop
  | alloc _ => True
  | free i => ∀ n stack, w.live[i]? = some (n, stack) → cfg.Fits (asked cfg n)

end Runs

section Rounding

variable {page x y : ℤ}

/-- `x` rounded up to a multiple of `page`. -/
def ceil (page x : ℤ) : ℤ := (x + page - 1) / page * page

theorem dvd_ceil (page x : ℤ) : page ∣ ceil page x := Dvd.intro_left _ rfl

theorem ceil_bounds (pos : 0 < page) : x ≤ ceil page x ∧ ceil page x < x + page := by
  have below := Int.ediv_mul_le (x + page - 1) pos.ne'
  have above := Int.lt_ediv_add_one_mul_self (x + page - 1) pos
  rw [Int.add_mul, Int.one_mul] at above
  unfold ceil
  omega

/-- Two multiples that are nearer than one page are the same. -/
theorem eq_of_near (dx : page ∣ x) (dy : page ∣ y) (above : x < y + page)
    (below : y < x + page) : x = y := by
  have near : |x - y| < page := abs_lt.mpr ⟨by omega, by omega⟩
  have := Int.eq_zero_of_abs_lt_dvd (Int.dvd_sub dx dy) near
  omega

theorem ceil_eq_iff (pos : 0 < page) : ceil page x = y ↔ page ∣ y ∧ x ≤ y ∧ y < x + page := by
  have bounds := ceil_bounds (x := x) pos
  constructor
  · rintro rfl
    exact ⟨dvd_ceil page x, bounds⟩
  · rintro ⟨dvd, low, high⟩
    exact eq_of_near (dvd_ceil page x) dvd (by omega) (by omega)

theorem toU64_inj {x y : ℤ} (lowx : -2 ^ 31 ≤ x) (highx : x < 2 ^ 31) (lowy : -2 ^ 31 ≤ y)
    (highy : y < 2 ^ 31) : toU64 x = toU64 y ↔ x = y := by
  unfold toU64
  omega

theorem toInt_int (x : ℤ) : -2 ^ 31 ≤ toInt x ∧ toInt x < 2 ^ 31 := by
  unfold toInt
  omega

end Rounding

section Decisions

variable (cfg : Config)

theorem Config.page_le : cfg.page ≤ 2 ^ 30 := Int.le_of_dvd (by decide) cfg.power

/-- Rounding up does not notice that a negative flag has been converted to `uint64_t`. -/
theorem toU64_ceil (x : ℤ) (low : -2 ^ 31 ≤ x) (high : x < 2 ^ 31) :
    toU64 (toU64 (toU64 x + cfg.page - 1) / cfg.page * cfg.page) = toU64 (ceil cfg.page x) := by
  have pos := cfg.pos
  have pageLe := cfg.page_le
  by_cases wraps : x + cfg.page - 1 < 0
  · have shifted : toU64 (toU64 x + cfg.page - 1) = x + cfg.page - 1 + 2 ^ 64 := by
      unfold toU64
      omega
    have whole : cfg.page ∣ 2 ^ 64 := cfg.power.trans (by decide)
    have split : (x + cfg.page - 1 + 2 ^ 64) / cfg.page * cfg.page = ceil cfg.page x + 2 ^ 64 := by
      rw [Int.add_ediv_of_dvd_right whole, Int.add_mul, Int.ediv_mul_cancel whole]
      rfl
    rw [shifted, split]
    unfold toU64
    omega
  · have same : toU64 (toU64 x + cfg.page - 1) = x + cfg.page - 1 := by
      unfold toU64
      omega
    rw [same]
    rfl

theorem toInt_toU64 (x : ℤ) : toInt (toU64 x) = toInt x := by
  unfold toInt toU64
  omega

/-- The size of the blocks of the pool, as an `int`, is the flag. -/
theorem allocSize_iff : toInt (Pool.init cfg).allocSize = cfg.flag ↔
    if 0 ≤ cfg.flag ∧ cfg.flag < cfg.page then 64 ∣ cfg.flag else cfg.page ∣ cfg.flag := by
  have low := cfg.low
  have high := cfg.high
  have pos := cfg.pos
  have pageLe := cfg.page_le
  unfold Pool.init
  by_cases small : 0 ≤ cfg.flag ∧ cfg.flag < cfg.page
  · have plain : toU64 cfg.flag = cfg.flag := by
      unfold toU64
      omega
    rw [if_neg (by omega), if_pos small, plain]
    dsimp only
    unfold toU64 toInt
    omega
  · have paged : cfg.page ≤ toU64 cfg.flag := by
      unfold toU64
      omega
    have bounds := ceil_bounds (x := cfg.flag) pos
    have near : toInt (ceil cfg.page cfg.flag) = cfg.flag ↔ ceil cfg.page cfg.flag = cfg.flag := by
      unfold toInt
      omega
    rw [if_pos paged, if_neg small]
    dsimp only
    rw [toU64_ceil cfg cfg.flag low high, toInt_toU64, near, ceil_eq_iff pos]
    constructor
    · exact fun both => both.1
    · exact fun dvd => ⟨dvd, le_rfl, by omega⟩

/-- Rounding another size than the flag does not make it the flag. -/
theorem rounded_ne_iff {n : ℤ} (low : -2 ^ 31 ≤ n) (high : n < 2 ^ 31) (other : n ≠ cfg.flag) :
    (if cfg.page ≤ n / 64 * 64 then toInt (ceil cfg.page (n / 64 * 64)) else n / 64 * 64) ≠ cfg.flag ↔
      cfg.Fits n := by
  have flagLow := cfg.low
  have flagHigh := cfg.high
  have pos := cfg.pos
  have pageLe := cfg.page_le
  have line := cfg.line
  have whole : cfg.page ∣ 2 ^ 31 := cfg.power.trans (by decide)
  rw [Config.Fits, if_neg other]
  by_cases paged : cfg.page ≤ n / 64 * 64
  · have bounds := ceil_bounds (x := n / 64 * 64) pos
    have top : ceil cfg.page (n / 64 * 64) ≤ 2 ^ 31 := by
      by_contra above
      have := eq_of_near (dvd_ceil cfg.page (n / 64 * 64)) whole (by omega) (by omega)
      omega
    have multiple : ceil cfg.page (n / 64 * 64) = 2 ^ 31 ↔ 2 ^ 31 - cfg.page + 64 ≤ n := by
      rw [ceil_eq_iff pos]
      omega
    have hits := ceil_eq_iff (x := n / 64 * 64) (y := cfg.flag) pos
    rw [if_pos paged]
    generalize ceil cfg.page (n / 64 * 64) = c at bounds top multiple hits ⊢
    by_cases small : cfg.flag < cfg.page
    · -- only `2 ^ 31`, which is no `int`, can become the flag
      have lost : toInt c = cfg.flag ↔ c = 2 ^ 31 ∧ cfg.flag = -2 ^ 31 := by
        unfold toInt
        omega
      rw [if_pos small, ne_eq, lost, multiple]
      omega
    · have same : toInt c = cfg.flag ↔ c = cfg.flag := by
        unfold toInt
        omega
      have aligned : cfg.page ∣ cfg.flag → 64 ∣ cfg.flag := line.trans
      rw [if_neg small, ne_eq, same, hits]
      by_cases dvd : cfg.page ∣ cfg.flag
      · have := aligned dvd
        simp only [dvd, true_and]
        omega
      · simp only [dvd, false_and]
  · rw [if_neg paged]
    by_cases small : cfg.flag < cfg.page
    · rw [if_pos small]
      omega
    · rw [if_neg small]
      omega

/-- A stack as `set_callback` makes it for the size `n`. -/
def Made (n : ℤ) (stack : Stack) : Prop :=
  ∃ pool fresh, pool.allocSize = (Pool.init cfg).allocSize ∧
    stack = (setCallback cfg pool fresh n).1

variable {cfg}

theorem Made.origin {n : ℤ} {stack : Stack} (made : Made cfg n stack) :
    stack.origin = .pool ↔ n = cfg.flag := by
  obtain ⟨pool, fresh, -, rfl⟩ := made
  unfold setCallback
  split_ifs with default
  · exact iff_of_true rfl default
  · refine iff_of_false ?_ default
    dsimp only
    split_ifs
    · simp
    · simp

theorem Pool.alloc_size (pool : Pool) (fresh : ℕ) :
    (pool.alloc fresh).2.allocSize = pool.allocSize := by
  unfold Pool.alloc
  cases pool.freeList with
  | nil => rfl
  | cons n rest => rfl

theorem released_pool_iff {stack : Stack} : released cfg stack = .pool ↔
    stack.stackSize = toU64 cfg.flag := by
  unfold released
  split_ifs with same page
  · exact iff_of_true rfl same
  · exact iff_of_false (by simp) same
  · exact iff_of_false (by simp) same

/-- A stack that is mapped, or allocated with `memalign`, is released so unless its size is the flag. -/
theorem released_other_iff {block : ℕ} {size : ℤ} (low : -2 ^ 31 ≤ size) (high : size < 2 ^ 31)
    {page : Bool} {origin : Origin}
    (kind : origin.release = if page then .munmap (toU64 size) else .free) :
    released cfg ⟨block, toU64 size, page, origin⟩ = origin.release ↔ size ≠ cfg.flag := by
  have inj := toU64_inj low high cfg.low cfg.high
  rw [kind, released]
  by_cases same : size = cfg.flag
  · rw [if_pos (inj.mpr same)]
    cases page with
    | true => simp [same]
    | false => simp [same]
  · rw [if_neg fun equal => same (inj.mp equal)]
    exact iff_of_true rfl same

/-- The two decisions agree exactly for the sizes that fit. -/
theorem released_iff {n : ℤ} {stack : Stack} (low : -2 ^ 31 ≤ n) (high : n < 2 ^ 31)
    (made : Made cfg n stack) : released cfg stack = stack.origin.release ↔ cfg.Fits n := by
  have origin := made.origin
  obtain ⟨pool, fresh, size, rfl⟩ := made
  by_cases default : n = cfg.flag
  · have stored : (setCallback cfg pool fresh n).1.stackSize =
        toU64 (toInt (Pool.init cfg).allocSize) := by
      rw [setCallback, if_pos default, ← size, ← pool.alloc_size fresh]
    have int := toInt_int (Pool.init cfg).allocSize
    rw [origin.mpr default, Origin.release, released_pool_iff, stored, Config.Fits, if_pos default,
      ← allocSize_iff, toU64_inj int.1 int.2 cfg.low cfg.high]
  · rw [← rounded_ne_iff cfg low high default, setCallback, if_neg default]
    dsimp only
    split_ifs with paged
    · have int := toInt_int (ceil cfg.page (n / 64 * 64))
      exact released_other_iff int.1 int.2 rfl
    · exact released_other_iff (by omega) (by omega) rfl

end Decisions

section Steps

variable {cfg : Config} {w : World}

theorem asked_int (cfg : Config) (n : BitVec 32) : -2 ^ 31 ≤ asked cfg n ∧ asked cfg n < 2 ^ 31 := by
  have low := cfg.low
  have high := cfg.high
  have := BitVec.le_toInt n
  have := BitVec.toInt_lt (x := n)
  unfold asked
  split_ifs
  · omega
  · omega

/-- The pool keeps its block size, and every coroutine has the stack that it was allocated with. -/
structure World.Inv (cfg : Config) (w : World) : Prop where
  size : w.pool.allocSize = (Pool.init cfg).allocSize
  made : ∀ n stack, (n, stack) ∈ w.live → Made cfg (asked cfg n) stack

theorem setCallback_size (pool : Pool) (fresh : ℕ) (n : ℤ) :
    (setCallback cfg pool fresh n).2.allocSize = pool.allocSize := by
  unfold setCallback
  split_ifs
  · exact pool.alloc_size fresh
  · dsimp only
    split_ifs
    · rfl
    · rfl

theorem Pool.free_size (pool : Pool) (n : ℕ) : (pool.free n).allocSize = pool.allocSize := by
  unfold Pool.free
  split_ifs
  · rfl
  · rfl

theorem World.Inv.step (inv : w.Inv cfg) (event : Event) : (w.step cfg event).Inv cfg := by
  cases event with
  | alloc n =>
    refine ⟨(setCallback_size ..).trans inv.size, fun n' stack mem => ?_⟩
    obtain new | old := List.mem_cons.mp mem
    · obtain ⟨rfl, rfl⟩ := Prod.mk.inj new
      exact ⟨w.pool, w.fresh, inv.size, rfl⟩
    · exact inv.made n' stack old
  | free i =>
    rw [World.step, World.freeCoroutine]
    cases found : w.live[i]? with
    | none => exact inv
    | some co =>
      refine ⟨?_, fun n stack mem => inv.made n stack (List.mem_of_mem_eraseIdx mem)⟩
      dsimp only
      split
      · exact (Pool.free_size ..).trans inv.size
      · exact inv.size

theorem Pool.alloc_used (pool : Pool) (fresh : ℕ) :
    (pool.alloc fresh).2.usedNum = pool.usedNum + 1 := by
  unfold Pool.alloc
  cases pool.freeList with
  | nil => rfl
  | cons n rest => rfl

theorem Pool.free_used (pool : Pool) (n : ℕ) : (pool.free n).usedNum = pool.usedNum - 1 := by
  unfold Pool.free
  split_ifs
  · rfl
  · rfl

theorem setCallback_used (pool : Pool) (fresh : ℕ) (n : ℤ) :
    (setCallback cfg pool fresh n).2.usedNum =
      if (setCallback cfg pool fresh n).1.origin = .pool then pool.usedNum + 1 else pool.usedNum := by
  unfold setCallback
  split_ifs with default pooled pooled
  · exact pool.alloc_used fresh
  · exact absurd rfl pooled
  · revert pooled
    dsimp only
    split_ifs
    · simp
    · simp
  · dsimp only
    split_ifs
    · rfl
    · rfl

theorem alloc_good (good : w.Good) (n : BitVec 32) : (w.step cfg (.alloc n)).Good := by
  refine ⟨good.released, ?_⟩
  have used : (w.step cfg (.alloc n)).pool.usedNum = _ :=
    setCallback_used w.pool w.fresh (asked cfg n)
  have count : (w.step cfg (.alloc n)).pooled = w.pooled +
      if (setCallback cfg w.pool w.fresh (asked cfg n)).1.origin = .pool then 1 else 0 := by
    simp [World.step, World.allocCoroutine, World.pooled, List.countP_cons]
  rw [used, count, good.usedNum]
  split_ifs
  · rw [BitVec.ofNat_add]
    rfl
  · rfl

theorem pooled_eraseIdx {i : ℕ} {co : BitVec 32 × Stack} (found : w.live[i]? = some co) :
    w.pooled = (w.live.eraseIdx i).countP (fun co => co.2.origin = .pool) +
      if co.2.origin = .pool then 1 else 0 := by
  obtain ⟨within, rfl⟩ := List.getElem?_eq_some_iff.mp found
  have perm := (List.getElem_cons_eraseIdx_perm within).countP_eq fun co => co.2.origin = .pool
  rw [List.countP_cons] at perm
  simpa [World.pooled] using perm.symm

theorem free_good_iff (inv : w.Inv cfg) (good : w.Good) (i : ℕ) :
    (w.step cfg (.free i)).Good ↔ (Event.free i).Fair cfg w := by
  rw [World.step, World.freeCoroutine, Event.Fair]
  cases found : w.live[i]? with
  | none => exact iff_of_true good (by simp)
  | some co =>
    obtain ⟨n, stack⟩ := co
    have made := inv.made n stack (List.mem_of_getElem? found)
    have int := asked_int cfg n
    have decisions := released_iff int.1 int.2 made
    have count := pooled_eraseIdx found
    constructor
    · intro after n' stack' same
      obtain ⟨rfl, rfl⟩ := Prod.mk.inj (Option.some.inj same)
      exact decisions.mp (after.released _ List.mem_cons_self)
    · intro fair
      have right := decisions.mpr (fair n stack rfl)
      refine ⟨?_, ?_⟩
      · intro r mem
        obtain rfl | old := List.mem_cons.mp mem
        · exact right
        · exact good.released r old
      · dsimp only [World.pooled]
        rw [right]
        have used := good.usedNum
        rw [count] at used
        cases origin : stack.origin with
        | pool =>
          simp only [origin, if_true, BitVec.ofNat_add] at used
          simp only [Origin.release, Pool.free_used, used]
          exact BitVec.add_sub_cancel ..
        | mmap length => simpa [origin, Origin.release] using used
        | memalign size => simpa [origin, Origin.release] using used

end Steps

section Main

/-- In every state of a run the stacks are back where they came from, and counted, exactly when every
coroutine that is freed was allocated with a size that fits. -/
theorem stacks_good_iff (cfg : Config) (events : List Event) :
    (∀ past, past <+: events → (World.run cfg past).Good) ↔
      ∀ past event, past ++ [event] <+: events → event.Fair cfg (World.run cfg past) := by
  have keeps : ∀ (w : World) (event : Event), w.Inv cfg → (w.step cfg event).Inv cfg :=
    fun _ event inv => inv.step event
  have good_iff : ∀ (w : World) (event : Event), w.Inv cfg → w.Good →
      ((w.step cfg event).Good ↔ event.Fair cfg w) := by
    intro w event inv good
    cases event with
    | alloc n => exact iff_of_true (alloc_good good n) trivial
    | free i => exact free_good_iff inv good i
  have init : (World.start cfg).Inv cfg := ⟨rfl, by simp [World.start]⟩
  have none : (World.start cfg).Good := by
    refine ⟨by simp [World.start], ?_⟩
    rw [World.start, Pool.init]
    split_ifs
    · rfl
    · rfl
  exact foldl_good_iff keeps good_iff init none events

/-- The default flag, and pages of 4096 bytes. -/
def defaults : Config :=
  ⟨16384, 4096, by decide, by decide, by decide, by decide, by decide⟩

/-- A stack of 16000 bytes is mapped with the size of four pages, and goes to the pool. -/
theorem mapped_stack_pooled : ¬ ∀ (cfg : Config) (events : List Event), (World.run cfg events).Good := by
  intro claim
  have good := claim defaults [.alloc 16000, .free 0]
  have wrong := good.released (.mmap 16384, .pool) (by decide)
  exact absurd wrong (by decide)

end Main

end Conet.Core.StackPool
