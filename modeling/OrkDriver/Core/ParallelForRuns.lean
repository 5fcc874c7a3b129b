import OrkDriver.Core.ParallelFor
import OrkDriver.Core.WorkerPool

/-!
What the calls of `ork_parallel_for` do over any run of its pool: when their ranges are a partition of the rows, and that
they return after the last of them.
-/

namespace OrkDriver.Core

/-! ### The ranges of one call -/

/-- The rows of a call of the function. -/
def RangeCall.rows {φ : Type*} (c : RangeCall φ) : List Nat := List.range' c.lo.toNat (c.hi - c.lo).toNat

/-- The sum that cuts the rows into chunks fits an `int`. -/
def FitsInt (N : Nat) (n : Int) : Prop := n + min (N : Int) n - 1 < 2 ^ 31

theorem wrapInt_eq {x : Int} (h : -2 ^ 31 ≤ x) (h' : x < 2 ^ 31) : wrapInt x = x := by
  unfold wrapInt
  omega

/-- The sum of `chunk`, which may pass through an overflow and come back. -/
theorem wrapInt_pred {x : Int} (h : 0 ≤ x) (h' : x - 1 < 2 ^ 31) : wrapInt (wrapInt x - 1) = x - 1 := by
  unfold wrapInt
  omega

theorem orkPoolInit_bounds (cores mult : Nat) (creates : Nat → Bool) :
    1 ≤ orkPoolInit cores mult creates ∧ orkPoolInit cores mult creates ≤ 64 := by
  unfold orkPoolInit
  dsimp only
  have hcores : 1 ≤ if cores < 1 then 1 else cores := by split_ifs <;> omega
  have hmult : 1 ≤ if 8 < if mult < 1 then 1 else mult then 8 else if mult < 1 then 1 else mult := by
    split_ifs <;> omega
  generalize (if cores < 1 then 1 else cores) = a at hcores ⊢
  generalize (if 8 < if mult < 1 then 1 else mult then 8 else if mult < 1 then 1 else mult) = b at hmult ⊢
  have hn : ∃ n, (if orkPoolMax < a * b then orkPoolMax else a * b) = n ∧ 1 ≤ n ∧ n ≤ 64 := by
    refine ⟨_, rfl, ?_⟩
    have hab : 0 < a * b := Nat.mul_pos hcores hmult
    unfold orkPoolMax
    split_ifs <;> omega
  obtain ⟨n, hn, h1, h64⟩ := hn
  rw [hn]
  cases hf : (List.range' 1 (n - 1)).find? fun i => creates i = false with
  | none => exact ⟨h1, h64⟩
  | some i =>
    have hi := List.mem_range'_1.mp (List.mem_of_find?_eq_some hf)
    rw [Option.getD_some]
    omega

theorem nthr_eq {N n : Nat} (hN : 2 ≤ N) (hn : 2 ≤ n) : nthr N n = ((min N n : Nat) : Int) := by
  unfold nthr
  dsimp only
  split_ifs <;> omega

theorem chunkOf_eq {N n : Nat} (hN : 2 ≤ N) (hn : 2 ≤ n) (hfit : n + min N n - 1 < 2 ^ 31) :
    chunkOf N n = (((n + min N n - 1) / min N n : Nat) : Int) := by
  have hk : 2 ≤ min N n := le_min hN hn
  have hcast : ((n : Int) + (min N n : Nat)) - 1 = ((n + min N n - 1 : Nat) : Int) := by omega
  unfold chunkOf
  rw [nthr_eq hN hn, wrapInt_pred (by omega) (by omega), hcast, Int.natCast_ediv,
    Int.tdiv_eq_ediv_of_nonneg (Int.natCast_nonneg _)]

/-- No sum in the loop over the workers overflows then. -/
theorem chunk_end_lt {N n : Nat} (hN64 : N ≤ 64) (hN : 2 ≤ N) (hn : 2 ≤ n) (hfit : n + min N n - 1 < 2 ^ 31) {t : Nat}
    (ht : t < N) : (t + 1) * ((n + min N n - 1) / min N n) < 2 ^ 31 := by
  rcases Nat.le_total N n with hle | hle
  · rw [Nat.min_eq_left hle] at hfit ⊢
    calc (t + 1) * ((n + N - 1) / N)
      _ ≤ N * ((n + N - 1) / N) := Nat.mul_le_mul_right _ ht
      _ ≤ n + N - 1 := Nat.mul_div_le _ _
      _ < 2 ^ 31 := hfit
  · rw [Nat.min_eq_right hle]
    have hone : (n + n - 1) / n = 1 := Nat.div_eq_of_lt_le (by omega) (by omega)
    rw [hone]
    omega

/-- Where the sum fits, the ranges are those of `poolRange`. -/
theorem rangeOf_eq {N n : Nat} (hN64 : N ≤ 64) (hN : 2 ≤ N) (hn : 2 ≤ n) (hfit : n + min N n - 1 < 2 ^ 31) {t : Nat}
    (ht : t < N) :
    rangeOf n (chunkOf N n) t = (((poolRange n ((n + min N n - 1) / min N n) t).1 : Int),
      ((poolRange n ((n + min N n - 1) / min N n) t).2 : Int)) := by
  have hend := chunk_end_lt hN64 hN hn hfit ht
  have hn31 : n < 2 ^ 31 := by omega
  rw [chunkOf_eq hN hn hfit]
  generalize (n + min N n - 1) / min N n = c at hend ⊢
  rw [Nat.succ_mul] at hend
  have hcast : (t : Int) * (c : Int) = ((t * c : Nat) : Int) := (Int.natCast_mul t c).symm
  unfold rangeOf poolRange
  dsimp only
  rw [hcast, wrapInt_eq (by omega) (by omega)]
  generalize t * c = a at hend ⊢
  have ha : (if (n : Int) < (a : Int) then (n : Int) else a) = ((if n < a then n else a : Nat) : Int) := by
    split_ifs <;> omega
  rw [ha]
  have hle : (if n < a then n else a) ≤ a := by split_ifs <;> omega
  generalize (if n < a then n else a) = a' at hle ⊢
  rw [wrapInt_eq (by omega) (by omega)]
  refine Prod.ext rfl ?_
  dsimp only
  split_ifs <;> omega

/-- Where it does not, every range is empty. -/
theorem rangeOf_empty {N n : Nat} (hN64 : N ≤ 64) (hN : 2 ≤ N) (hn31 : n < 2 ^ 31) (hover : 2 ^ 31 ≤ n + N - 1) {t : Nat}
    (ht : t < N) : ¬ (rangeOf n (chunkOf N n) t).1 < (rangeOf n (chunkOf N n) t).2 := by
  have hmin : min N n = N := by omega
  have hsum : wrapInt (wrapInt ((n : Int) + (N : Nat)) - 1) = -((2 ^ 32 - (n + N - 1) : Nat) : Int) := by
    unfold wrapInt
    omega
  have hchunk : chunkOf N n = -(((2 ^ 32 - (n + N - 1)) / N : Nat) : Int) := by
    unfold chunkOf
    rw [nthr_eq hN (by omega), hmin, hsum, Int.neg_tdiv, Int.natCast_ediv,
      Int.tdiv_eq_ediv_of_nonneg (Int.natCast_nonneg _)]
  have hq : 1 ≤ (2 ^ 32 - (n + N - 1)) / N := (Nat.one_le_div_iff (by omega)).mpr (by omega)
  have hend : (t + 1) * ((2 ^ 32 - (n + N - 1)) / N) ≤ 2 ^ 31 := by
    calc (t + 1) * ((2 ^ 32 - (n + N - 1)) / N)
      _ ≤ N * ((2 ^ 32 - (n + N - 1)) / N) := Nat.mul_le_mul_right _ ht
      _ ≤ 2 ^ 32 - (n + N - 1) := Nat.mul_div_le _ _
      _ ≤ 2 ^ 31 := by omega
  rw [hchunk]
  generalize (2 ^ 32 - (n + N - 1)) / N = q at hq hend
  rw [Nat.succ_mul] at hend
  have hcast : (t : Int) * -(q : Int) = -((t * q : Nat) : Int) := by
    rw [Int.mul_neg, Int.natCast_mul]
  unfold rangeOf
  dsimp only
  rw [hcast, wrapInt_eq (by omega) (by omega), if_neg (by omega), wrapInt_eq (by omega) (by omega), if_neg (by omega)]
  omega

theorem callsOf_rows {φ : Type*} (fn : φ) (r : Nat × Nat) :
    (callsOf (some fn) ((r.1 : Int), (r.2 : Int))).flatMap RangeCall.rows = List.range' r.1 (r.2 - r.1) := by
  unfold callsOf
  dsimp only
  split_ifs with h
  · rw [List.flatMap_singleton]
    unfold RangeCall.rows
    dsimp only
    rw [Int.toNat_natCast, Int.toNat_sub]
  · rw [Nat.sub_eq_zero_of_le (by omega)]
    rfl

/-- The ranges of a call are a partition of its rows exactly where the sum fits. -/
theorem allCalls_rows_iff {φ : Type*} {N : Nat} (hN1 : 1 ≤ N) (hN64 : N ≤ 64) (fn : φ) {n : Int} (hn31 : n < 2 ^ 31) :
    (allCalls N fn n).flatMap RangeCall.rows = List.range n.toNat ↔ FitsInt N n := by
  unfold allCalls FitsInt
  split_ifs with h0 h1 hone
  · rw [Int.toNat_of_nonpos h0]
    exact ⟨fun _ => by omega, fun _ => rfl⟩
  · subst h1
    exact ⟨fun _ => by omega, fun _ => rfl⟩
  · have hN : N = 1 := by
      unfold nthr at hone
      dsimp only at hone
      split_ifs at hone <;> omega
    subst hN
    refine ⟨fun _ => by omega, fun _ => ?_⟩
    rw [List.flatMap_singleton, List.range_eq_range']
    unfold RangeCall.rows
    dsimp only
    rw [Int.sub_zero]
    rfl
  · obtain ⟨m, rfl⟩ := Int.eq_ofNat_of_zero_le (Int.le_of_lt (Int.not_le.mp h0))
    have hm : 2 ≤ m := by omega
    have hN : 2 ≤ N := by
      unfold nthr at hone
      dsimp only at hone
      split_ifs at hone <;> omega
    rw [Int.toNat_natCast, List.flatMap_assoc]
    by_cases hfit : m + min N m - 1 < 2 ^ 31
    · refine iff_of_true ?_ (by omega)
      have hrows : ∀ t ∈ List.range N, (jobCalls N fn m t).flatMap RangeCall.rows =
          List.range' (poolRange m ((m + min N m - 1) / min N m) t).1
            ((poolRange m ((m + min N m - 1) / min N m) t).2 - (poolRange m ((m + min N m - 1) / min N m) t).1) := by
        intro t ht
        unfold jobCalls
        rw [rangeOf_eq hN64 hN hm hfit (List.mem_range.mp ht)]
        exact callsOf_rows fn _
      have hthreads : poolThreads N m = min N m := by
        unfold poolThreads
        dsimp only
        split_ifs <;> omega
      have hcover := workerRows_eq N m
      unfold workerRows orkParallelFor at hcover
      rw [if_neg (by omega), if_neg (by omega), hthreads, if_neg (by omega), List.flatMap_map] at hcover
      rw [List.flatMap_congr hrows]
      exact hcover
    · have hNm : N ≤ m := by omega
      have hrows : ∀ t ∈ List.range N, (jobCalls N fn m t).flatMap RangeCall.rows = [] := by
        intro t ht
        unfold jobCalls callsOf
        dsimp only
        rw [if_neg (rangeOf_empty hN64 hN (by omega) (by omega) (List.mem_range.mp ht))]
        rfl
      rw [List.flatMap_congr hrows]
      refine iff_of_false (fun h => ?_) (by omega)
      have hlen := congrArg List.length h
      rw [List.length_range, List.flatMap_eq_nil_iff.mpr fun _ _ => rfl] at hlen
      exact absurd hlen (by rw [List.length_nil]; omega)

theorem mem_allCalls {φ : Type*} {N : Nat} {fn : φ} {n : Int} {c : RangeCall φ} (h : c ∈ allCalls N fn n) :
    c.fn = fn ∧ c.lo < c.hi := by
  unfold allCalls at h
  split_ifs at h with h0 h1 hone
  · exact absurd h List.not_mem_nil
  · rw [List.mem_singleton.mp h]
    exact ⟨rfl, Int.zero_lt_one⟩
  · rw [List.mem_singleton.mp h]
    exact ⟨rfl, Int.not_le.mp h0⟩
  · obtain ⟨t, -, ht⟩ := List.mem_flatMap.mp h
    unfold jobCalls callsOf at ht
    dsimp only at ht
    split_ifs at ht with hlt
    · rw [List.mem_singleton.mp ht]
      exact ⟨rfl, hlt⟩
    · exact absurd ht List.not_mem_nil

/-! ### Runs -/

/-- A pool after some events, if each of them can happen. -/
def Pool.run {φ : Type*} (N : Nat) (s : Pool φ) : List (PoolEvent φ) → Option (Pool φ)
  | [] => some s
  | e :: es => (s.step N e).bind fun t => t.run N es

theorem Pool.reachable_of_run {φ : Type*} {N : Nat} {s t : Pool φ} {es : List (PoolEvent φ)}
    (hs : (poolSystem φ N).Reachable s) (h : s.run N es = some t) : (poolSystem φ N).Reachable t := by
  induction es generalizing s with
  | nil => exact Option.some.inj h ▸ hs
  | cons e es ih =>
    obtain ⟨u, hu, hrest⟩ := Option.bind_eq_some_iff.mp h
    exact ih (.step hs trivial hu) hrest

/-- Nothing of a job is left to do between calls: no helper is in its function, and none has a range to take. -/
def Quiet {φ : Type*} (N : Nat) (s : Pool φ) : Prop :=
  ∀ i, 1 ≤ i → i < N → ((s.helper i).pc = .awake ∨ (s.helper i).pc = .asleep) ∧ (s.helper i).seen = s.gen

/-- In every state of every run of a pool: a call that has returned has called its own function and no other, on no empty
range, and on a partition of its rows exactly where the sum that cuts them fits an `int`; between calls the helpers are
idle; and inside a call some thread can go on, each step of a thread bringing its end nearer. -/
theorem orkParallelFor_runs (φ : Type) (cores mult : Nat) (creates : Nat → Bool) (s : Pool φ)
    (h : (poolSystem φ (orkPoolInit cores mult creates)).Reachable s) :
    (∀ d ∈ s.returned, (∀ c ∈ d.calls, c.fn = d.fn ∧ c.lo < c.hi) ∧
      (d.calls.flatMap RangeCall.rows = List.range d.n.toNat ↔ FitsInt (orkPoolInit cores mult creates) d.n)) ∧
    (s.caller = .ready → Quiet (orkPoolInit cores mult creates) s) ∧
    (s.caller ≠ .ready → ∃ e t, e.isStep ∧ s.step (orkPoolInit cores mult creates) e = some t) ∧
    ∀ e t, e.isStep → s.step (orkPoolInit cores mult creates) e = some t →
      t.left (orkPoolInit cores mult creates) < s.left (orkPoolInit cores mult creates) := by
  obtain ⟨hN1, hN64⟩ := orkPoolInit_bounds cores mult creates
  generalize orkPoolInit cores mult creates = N at h hN1 hN64 ⊢
  have hok := Pool.ok_of_reachable h
  refine ⟨fun d hd => ?_, fun hc => (hok.resting hc).helper, hok.goes_on, fun e t he hs => hok.left_lt he hs⟩
  obtain ⟨hcalls, -, hlt⟩ := hok.returned d hd
  rw [hcalls]
  exact ⟨fun c hc => mem_allCalls hc, allCalls_rows_iff hN1 hN64 d.fn hlt⟩

/-- One row on a pool of four: the call returns at once. -/
theorem orkParallelFor_runs_one : (poolSystem Unit 4).Reachable (Pool.start.post 4 () 1) ∧
    ∀ d ∈ (Pool.start.post 4 () 1).returned, (∀ c ∈ d.calls, c.fn = d.fn ∧ c.lo < c.hi) ∧
      (d.calls.flatMap RangeCall.rows = List.range d.n.toNat ↔ FitsInt 4 d.n) := by
  have hreach : (poolSystem Unit 4).Reachable (Pool.start.post 4 () 1) :=
    .step (.init rfl) (e := .call () 1) trivial rfl
  exact ⟨hreach, (orkParallelFor_runs Unit 4 1 (fun _ => true) (Pool.start.post 4 () 1) hreach).1⟩

/-- The largest `int` on two workers: the call returns, and its function has not been called. -/
theorem parallelFor_skips_rows : ∃ s : Pool Unit, (poolSystem Unit 2).Reachable s ∧
    ∃ d ∈ s.returned, d.n = 2 ^ 31 - 1 ∧ d.calls.flatMap RangeCall.rows ≠ List.range d.n.toNat := by
  have hrun : ((Pool.start : Pool Unit).run 2 [.call () (2 ^ 31 - 1), .caller, .helper 1, .helper 1, .helper 1, .caller]).map
      (fun s => s.returned.map fun d => (d.n, d.calls.length)) = some [(2 ^ 31 - 1, 0)] := by decide
  obtain ⟨s, hs, hret⟩ := Option.map_eq_some_iff.mp hrun
  refine ⟨s, Pool.reachable_of_run (.init rfl) hs, ?_⟩
  have hmem : ((2 ^ 31 - 1 : Int), 0) ∈ s.returned.map fun d => (d.n, d.calls.length) := hret ▸ List.mem_cons_self
  obtain ⟨d, hd, he⟩ := List.mem_map.mp hmem
  obtain ⟨hn, hlen⟩ := Prod.mk.inj he
  refine ⟨d, hd, hn, fun h => ?_⟩
  rw [List.length_eq_zero_iff.mp hlen, hn] at h
  have := congrArg List.length h
  rw [List.length_range] at this
  exact absurd this (by decide)

end OrkDriver.Core
