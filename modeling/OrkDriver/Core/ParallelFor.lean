import Mathlib.Data.List.Range

/-!
The worker pool of `npu/core/sched.c`: how `ork_parallel_for` cuts `n` rows among its workers.
-/

namespace OrkDriver.Core

/-- `nthr`. -/
def poolThreads (pool n : Nat) : Nat :=
  let nthr := if n < pool then n else pool
  if nthr < 1 then 1 else nthr

/-- `lo[t]` and `hi[t]`. -/
def poolRange (n chunk t : Nat) : Nat × Nat :=
  let a := if n < t * chunk then n else t * chunk
  let b := if n < a + chunk then n else a + chunk
  (a, b)

/-- The ranges `ork_parallel_for` calls its function on, with a pool of `pool` workers, the caller among them. -/
def orkParallelFor (pool n : Nat) : List (Nat × Nat) :=
  if n = 0 then []
  else if n = 1 then [(0, 1)]
  else if poolThreads pool n ≤ 1 then [(0, n)]
  else (List.range pool).map (poolRange n ((n + poolThreads pool n - 1) / poolThreads pool n))

/-- The rows of the workers, worker by worker. -/
def workerRows (pool n : Nat) : List Nat := (orkParallelFor pool n).flatMap fun r => List.range' r.1 (r.2 - r.1)

theorem poolRange_eq (n chunk t : Nat) : poolRange n chunk t = (min n (t * chunk), min n ((t + 1) * chunk)) := by
  rw [Nat.succ_mul]
  unfold poolRange
  refine Prod.ext ?_ ?_
  · dsimp only
    split_ifs <;> omega
  · dsimp only
    split_ifs <;> omega

/-- The ranges of the first `p` workers lie end to end. -/
theorem poolRange_flatMap (n chunk p : Nat) : ((List.range p).map (poolRange n chunk)).flatMap
    (fun r => List.range' r.1 (r.2 - r.1)) = List.range' 0 (min n (p * chunk)) := by
  induction p with
  | zero =>
      rw [Nat.zero_mul, Nat.min_zero]
      rfl
  | succ p ih =>
      have hle : min n (p * chunk) ≤ min n ((p + 1) * chunk) := by
        rw [Nat.succ_mul]
        omega
      have happ := @List.range'_append 0 (min n (p * chunk)) (min n ((p + 1) * chunk) - min n (p * chunk)) 1
      rw [Nat.zero_add, Nat.one_mul, Nat.add_sub_cancel' hle] at happ
      rw [List.range_succ, List.map_append, List.flatMap_append, ih, List.map_cons, List.map_nil, List.flatMap_singleton,
        poolRange_eq]
      exact happ

/-- Each row is one worker's, whatever the pool. -/
theorem workerRows_eq (pool n : Nat) : workerRows pool n = List.range n := by
  unfold workerRows orkParallelFor
  by_cases h0 : n = 0
  · rw [if_pos h0, h0]
    rfl
  by_cases h1 : n = 1
  · rw [if_neg h0, if_pos h1, h1]
    rfl
  by_cases hone : poolThreads pool n ≤ 1
  · rw [if_neg h0, if_neg h1, if_pos hone, List.flatMap_singleton, Nat.sub_zero, List.range_eq_range']
  · have hle : poolThreads pool n ≤ pool := by
      unfold poolThreads at hone ⊢
      dsimp only at hone ⊢
      split_ifs at hone ⊢ <;> omega
    have hcover : n ≤ pool * ((n + poolThreads pool n - 1) / poolThreads pool n) := by
      refine Nat.le_trans ?_ (Nat.mul_le_mul_right _ hle)
      have hdiv := Nat.lt_mul_div_succ (n + poolThreads pool n - 1) (show 0 < poolThreads pool n by omega)
      rw [Nat.mul_add] at hdiv
      omega
    rw [if_neg h0, if_neg h1, if_neg hone, poolRange_flatMap, Nat.min_eq_left hcover, List.range_eq_range']

/-- Four rows on three workers. -/
example : orkParallelFor 3 4 = [(0, 2), (2, 4), (4, 4)] := by decide

end OrkDriver.Core
