import OrkDriver.Lib.Loops
import OrkDriver.Lib.Neon

/-!
The offline matrix product (`orki_cpu_gemm_i32` of `npu/core/buf.c`): rows in parallel, four rows of `B` at a time in
blocks of sixteen columns, and the tails of both; and that it is the sum of products in 32 bits.
-/

namespace OrkDriver.Cpu

open OrkDriver.Lib OrkDriver.Lib.Neon Finset

/-! ### Intrinsics -/

/-- `int16x8_t` and `int16x4_t`. -/
abbrev Halves := Nat → BitVec 16

/-- The half of a vector that starts at lane `p`: `vget_low` and `vget_high`. -/
def vget {α : Type*} (x : Nat → α) (p : Nat) : Nat → α := fun i => x (p + i)

def vmovlS8 (x : Bytes) : Halves := fun i => (x i).signExtend 16

/-- `vmlal_n_s16`. -/
def vmlalN (acc : Words) (x : Halves) (a : BitVec 16) : Words := fun i => acc i + (x i).signExtend 32 * a.signExtend 32

def vld1qS32 (m : Words) (p : Nat) : Words := fun i => m (p + i)

def vst1qS32 (m : Words) (p : Nat) (v : Words) : Words := fun q => if p ≤ q ∧ q < p + 4 then v (q - p) else m q

/-! ### The code -/

/-- `ORK_AXPY`, under its `if`: sixteen columns of one row of `B`. -/
def orkAxpy (w : Bytes) (n : Nat) (a : BitVec 16) (c : Words × Words × Words × Words) : Words × Words × Words × Words :=
  if a = 0 then c
  else
    let v := vld1q w n
    let lo := vmovlS8 (vget v 0)
    let hi := vmovlS8 (vget v 8)
    (vmlalN c.1 (vget lo 0) a, vmlalN c.2.1 (vget lo 4) a, vmlalN c.2.2.1 (vget hi 0) a, vmlalN c.2.2.2 (vget hi 4) a)

/-- What a row does to its part of `C`, one trip of a loop at a time: clearing, a block of sixteen columns or a column of
four rows of `B`, and a column of one. -/
inductive GemmStep
  | clear (m : Nat)
  | axpy (m k n : Nat)
  | quad (m k n : Nat)
  | single (m k n : Nat)
  deriving DecidableEq

def GemmStep.row : GemmStep → Nat
  | .clear m | .axpy m _ _ | .quad m _ _ | .single m _ _ => m

section

variable (A B : Bytes) (K N : Nat)

/-- `arow[k]`. -/
def arow (m k : Nat) : BitVec 8 := A (m * K + k)

/-- `crow[n] += ...`. -/
def addTo (C : Words) (p : Nat) (x : BitVec 32) : Words := fun q => if q = p then C p + x else C q

/-- One step. -/
def gemmStep (C : Words) : GemmStep → Words
  | .clear m => fun p => if m * N ≤ p ∧ p < m * N + N then 0 else C p
  | .axpy m k n =>
    let crow := m * N
    let c := (vld1qS32 C (crow + n), vld1qS32 C (crow + n + 4), vld1qS32 C (crow + n + 8), vld1qS32 C (crow + n + 12))
    let c := orkAxpy (fun i => B (k * N + i)) n ((arow A K m k).signExtend 16) c
    let c := orkAxpy (fun i => B ((k + 1) * N + i)) n ((arow A K m (k + 1)).signExtend 16) c
    let c := orkAxpy (fun i => B ((k + 2) * N + i)) n ((arow A K m (k + 2)).signExtend 16) c
    let c := orkAxpy (fun i => B ((k + 3) * N + i)) n ((arow A K m (k + 3)).signExtend 16) c
    vst1qS32 (vst1qS32 (vst1qS32 (vst1qS32 C (crow + n) c.1) (crow + n + 4) c.2.1) (crow + n + 8) c.2.2.1)
      (crow + n + 12) c.2.2.2
  | .quad m k n =>
    addTo C (m * N + n)
      ((arow A K m k).signExtend 32 * (B (k * N + n)).signExtend 32 +
        (arow A K m (k + 1)).signExtend 32 * (B ((k + 1) * N + n)).signExtend 32 +
        (arow A K m (k + 2)).signExtend 32 * (B ((k + 2) * N + n)).signExtend 32 +
        (arow A K m (k + 3)).signExtend 32 * (B ((k + 3) * N + n)).signExtend 32)
  | .single m k n => addTo C (m * N + n) ((arow A K m k).signExtend 32 * (B (k * N + n)).signExtend 32)

/-- The trip of the unrolled loop at `k`, with its `continue`. -/
def quadTrip (m k : Nat) : List GemmStep :=
  if arow A K m k ||| arow A K m (k + 1) ||| arow A K m (k + 2) ||| arow A K m (k + 3) = 0 then []
  else
    (List.range (N / 16)).map (fun j => .axpy m k (16 * j)) ++
      (List.range' (16 * (N / 16)) (N - 16 * (N / 16))).map (.quad m k)

/-- The trip of the tail loop at `k`. -/
def singleTrip (m k : Nat) : List GemmStep := if arow A K m k = 0 then [] else (List.range N).map (.single m k)

/-- The body of the parallel loop, built with or without NEON. -/
def gemmRow (neon : Bool) (m : Nat) : List GemmStep :=
  let done := if neon then K / 4 else 0
  .clear m :: ((List.range done).flatMap (fun b => quadTrip A K N m (4 * b)) ++
    (List.range' (4 * done) (K - 4 * done)).flatMap (singleTrip A K N m))

/-- An order in which the steps of the rows may reach memory, however the rows are dealt out: each row keeps its own. -/
structure RowsInterleave (neon : Bool) (M : Nat) (steps : List GemmStep) : Prop where
  within : ∀ s ∈ steps, s.row < M
  each : ∀ m < M, steps.filter (fun s => s.row = m) = gemmRow A K N neon m

/-- `orki_cpu_gemm_i32` in such an order. -/
def orkiCpuGemmI32 (steps : List GemmStep) (C : Words) : Words := steps.foldl (gemmStep A B K N) C

/-! ### One cell -/

/-- The product at depth `k`. -/
def term (m n k : Nat) : BitVec 32 := (arow A K m k).signExtend 32 * (B (k * N + n)).signExtend 32

/-- The four products from depth `k` on. -/
def fourTerms (m n k : Nat) : BitVec 32 := ∑ j ∈ range 4, term A B K N m n (k + j)

/-- What a step does to column `n` of its row. -/
def cellStep (n : Nat) (c : BitVec 32) : GemmStep → BitVec 32
  | .clear _ => 0
  | .axpy m k p => if p ≤ n ∧ n < p + 16 then c + fourTerms A B K N m n k else c
  | .quad m k p => if n = p then c + fourTerms A B K N m n k else c
  | .single m k p => if n = p then c + term A B K N m n k else c

end

theorem signExtend_signExtend (x : BitVec 8) : (x.signExtend 16).signExtend 32 = x.signExtend 32 := by
  rw [BitVec.signExtend, BitVec.toInt_signExtend_of_le (by decide)]
  rfl

/-- The lanes of `ORK_AXPY`, four vectors of them. -/
theorem orkAxpy_lane (w : Bytes) (n : Nat) (a : BitVec 8) (c : Words × Words × Words × Words) (i : Nat) :
    (orkAxpy w n (a.signExtend 16) c).1 i = c.1 i + a.signExtend 32 * (w (n + i)).signExtend 32 ∧
    (orkAxpy w n (a.signExtend 16) c).2.1 i = c.2.1 i + a.signExtend 32 * (w (n + (4 + i))).signExtend 32 ∧
    (orkAxpy w n (a.signExtend 16) c).2.2.1 i = c.2.2.1 i + a.signExtend 32 * (w (n + (8 + i))).signExtend 32 ∧
    (orkAxpy w n (a.signExtend 16) c).2.2.2 i = c.2.2.2 i + a.signExtend 32 * (w (n + (12 + i))).signExtend 32 := by
  have hmul : ∀ x y : BitVec 8, (x.signExtend 16).signExtend 32 * (y.signExtend 16).signExtend 32 =
      y.signExtend 32 * x.signExtend 32 := by
    intro x y
    rw [signExtend_signExtend, signExtend_signExtend, mul_comm]
  unfold orkAxpy
  split_ifs with h
  · have ha : a.signExtend 32 = 0 := by
      rw [← signExtend_signExtend, h]
      rfl
    simp [ha]
  · dsimp only [vmlalN, vget, vmovlS8, vld1q]
    simp only [hmul, Nat.zero_add]
    refine ⟨trivial, trivial, trivial, ?_⟩
    rw [show 8 + (4 + i) = 12 + i by omega]

section

variable (A B : Bytes) (K N : Nat)

/-- Four stores one behind another. -/
theorem vst1qS32_four (C : Words) (p q : Nat) (c : Words × Words × Words × Words) :
    vst1qS32 (vst1qS32 (vst1qS32 (vst1qS32 C p c.1) (p + 4) c.2.1) (p + 8) c.2.2.1) (p + 12) c.2.2.2 q =
      if p ≤ q ∧ q < p + 16 then
        if q < p + 4 then c.1 (q - p) else if q < p + 8 then c.2.1 (q - (p + 4))
        else if q < p + 12 then c.2.2.1 (q - (p + 8)) else c.2.2.2 (q - (p + 12))
      else C q := by
  unfold vst1qS32
  by_cases hin : p ≤ q ∧ q < p + 16
  · rw [if_pos hin]
    by_cases h3 : q < p + 12
    · rw [if_neg (by omega), if_pos h3]
      by_cases h2 : q < p + 8
      · rw [if_neg (by omega), if_pos h2]
        by_cases h1 : q < p + 4
        · rw [if_neg (by omega), if_pos h1, if_pos ⟨hin.1, h1⟩]
        · rw [if_pos (by omega), if_neg h1]
      · rw [if_pos (by omega), if_neg (by omega), if_neg h2]
    · rw [if_pos (by omega), if_neg (by omega), if_neg (by omega), if_neg h3]
  · rw [if_neg (by omega), if_neg (by omega), if_neg (by omega), if_neg (by omega), if_neg hin]

/-- A block adds to each of its sixteen cells the four products there. -/
theorem gemmStep_axpy (C : Words) (m k n q : Nat) : gemmStep A B K N C (.axpy m k n) q =
    if m * N + n ≤ q ∧ q < m * N + n + 16 then C q + fourTerms A B K N m (q - m * N) k else C q := by
  unfold gemmStep
  dsimp only
  rw [vst1qS32_four]
  by_cases hin : m * N + n ≤ q ∧ q < m * N + n + 16
  · have hfour : ∀ x, x = q - m * N → fourTerms A B K N m (q - m * N) k =
        (arow A K m k).signExtend 32 * (B (k * N + x)).signExtend 32 +
        (arow A K m (k + 1)).signExtend 32 * (B ((k + 1) * N + x)).signExtend 32 +
        (arow A K m (k + 2)).signExtend 32 * (B ((k + 2) * N + x)).signExtend 32 +
        (arow A K m (k + 3)).signExtend 32 * (B ((k + 3) * N + x)).signExtend 32 := by
      rintro x rfl
      simp [fourTerms, sum_range_succ, term]
    rw [if_pos hin, if_pos hin]
    split_ifs with h1 h2 h3
    · rw [(orkAxpy_lane _ _ _ _ _).1, (orkAxpy_lane _ _ _ _ _).1, (orkAxpy_lane _ _ _ _ _).1, (orkAxpy_lane _ _ _ _ _).1,
        hfour (n + (q - (m * N + n))) (by omega)]
      dsimp only [vld1qS32]
      rw [show m * N + n + (q - (m * N + n)) = q by omega]
      ring
    · rw [(orkAxpy_lane _ _ _ _ _).2.1, (orkAxpy_lane _ _ _ _ _).2.1, (orkAxpy_lane _ _ _ _ _).2.1,
        (orkAxpy_lane _ _ _ _ _).2.1, hfour (n + (4 + (q - (m * N + n + 4)))) (by omega)]
      dsimp only [vld1qS32]
      rw [show m * N + n + 4 + (q - (m * N + n + 4)) = q by omega]
      ring
    · rw [(orkAxpy_lane _ _ _ _ _).2.2.1, (orkAxpy_lane _ _ _ _ _).2.2.1, (orkAxpy_lane _ _ _ _ _).2.2.1,
        (orkAxpy_lane _ _ _ _ _).2.2.1, hfour (n + (8 + (q - (m * N + n + 8)))) (by omega)]
      dsimp only [vld1qS32]
      rw [show m * N + n + 8 + (q - (m * N + n + 8)) = q by omega]
      ring
    · rw [(orkAxpy_lane _ _ _ _ _).2.2.2, (orkAxpy_lane _ _ _ _ _).2.2.2, (orkAxpy_lane _ _ _ _ _).2.2.2,
        (orkAxpy_lane _ _ _ _ _).2.2.2, hfour (n + (12 + (q - (m * N + n + 12)))) (by omega)]
      dsimp only [vld1qS32]
      rw [show m * N + n + 12 + (q - (m * N + n + 12)) = q by omega]
      ring
  · rw [if_neg hin, if_neg hin]

/-- A step on its own row. -/
theorem gemmStep_cell (C : Words) (s : GemmStep) {n : Nat} (hn : n < N) :
    gemmStep A B K N C s (s.row * N + n) = cellStep A B K N n (C (s.row * N + n)) s := by
  cases s with
  | clear m => exact if_pos ⟨Nat.le_add_right _ n, Nat.add_lt_add_left hn _⟩
  | axpy m k p =>
    rw [gemmStep_axpy]
    simp only [GemmStep.row, cellStep, Nat.add_le_add_iff_left, Nat.add_assoc, Nat.add_lt_add_iff_left,
      Nat.add_sub_cancel_left]
  | quad m k p =>
    simp only [gemmStep, addTo, GemmStep.row, cellStep, Nat.add_left_cancel_iff]
    split_ifs with h
    · subst h
      simp [fourTerms, sum_range_succ, term]
    · rfl
  | single m k p =>
    simp only [gemmStep, addTo, GemmStep.row, cellStep, Nat.add_left_cancel_iff]
    split_ifs with h
    · subst h
      rfl
    · rfl

/-- The columns a step writes. -/
def GemmStep.fits : GemmStep → Prop
  | .clear _ => True
  | .axpy _ _ n => n + 16 ≤ N
  | .quad _ _ n => n < N
  | .single _ _ n => n < N

/-- A step leaves every cell outside its row alone. -/
theorem gemmStep_frame (C : Words) {s : GemmStep} (hs : s.fits N) {q : Nat}
    (hq : ¬ (s.row * N ≤ q ∧ q < s.row * N + N)) : gemmStep A B K N C s q = C q := by
  cases s with
  | clear m =>
    simp only [GemmStep.row] at hq
    simp only [gemmStep, if_neg hq]
  | axpy m k p =>
    simp only [GemmStep.row, GemmStep.fits] at hq hs
    rw [gemmStep_axpy, if_neg (by omega)]
  | quad m k p =>
    simp only [GemmStep.row, GemmStep.fits] at hq hs
    simp only [gemmStep, addTo]
    rw [if_neg (by omega)]
  | single m k p =>
    simp only [GemmStep.row, GemmStep.fits] at hq hs
    simp only [gemmStep, addTo]
    rw [if_neg (by omega)]

theorem fits_quadTrip {m k : Nat} {s : GemmStep} (h : s ∈ quadTrip A K N m k) : s.fits N := by
  unfold quadTrip at h
  split_ifs at h
  · cases h
  · rcases List.mem_append.mp h with h | h
    · obtain ⟨j, hj, rfl⟩ := List.mem_map.mp h
      have := List.mem_range.mp hj
      simp only [GemmStep.fits]
      omega
    · obtain ⟨j, hj, rfl⟩ := List.mem_map.mp h
      have := List.mem_range'_1.mp hj
      simp only [GemmStep.fits]
      omega

theorem fits_gemmRow {neon : Bool} {m : Nat} {s : GemmStep} (h : s ∈ gemmRow A K N neon m) : s.fits N := by
  unfold gemmRow at h
  rcases List.mem_cons.mp h with rfl | h
  · trivial
  rcases List.mem_append.mp h with h | h
  · obtain ⟨b, -, h⟩ := List.mem_flatMap.mp h
    exact fits_quadTrip A K N h
  · obtain ⟨k, -, h⟩ := List.mem_flatMap.mp h
    unfold singleTrip at h
    split_ifs at h
    · cases h
    · obtain ⟨j, hj, rfl⟩ := List.mem_map.mp h
      exact List.mem_range.mp hj

/-! ### One row -/

theorem or_eq_zero {x y z w : BitVec 8} (h : x ||| y ||| z ||| w = 0) : ((x = 0 ∧ y = 0) ∧ z = 0) ∧ w = 0 := by
  simpa [BitVec.or_eq_zero_iff] using h

/-- A trip of the unrolled loop adds its four products to every column. -/
theorem foldl_quadTrip (m k : Nat) {n : Nat} (hn : n < N) (c : BitVec 32) :
    (quadTrip A K N m k).foldl (cellStep A B K N n) c = c + fourTerms A B K N m n k := by
  unfold quadTrip
  split_ifs with h
  · have hfour : fourTerms A B K N m n k = 0 := by
      refine sum_eq_zero fun j hj => ?_
      have hj := mem_range.mp hj
      have ha : arow A K m (k + j) = 0 := by
        obtain ⟨⟨⟨h0, h1⟩, h2⟩, h3⟩ := or_eq_zero h
        obtain rfl | rfl | rfl | rfl : j = 0 ∨ j = 1 ∨ j = 2 ∨ j = 3 := by omega
        · exact h0
        · exact h1
        · exact h2
        · exact h3
      rw [term, ha]
      simp
    rw [hfour, add_zero]
    rfl
  · rw [List.foldl_append]
    by_cases hblock : n < 16 * (N / 16)
    · have hq : ∀ c, ((List.range' (16 * (N / 16)) (N - 16 * (N / 16))).map (.quad m k)).foldl (cellStep A B K N n) c =
          c := by
        refine foldl_frame id fun s hs c => ?_
        obtain ⟨p, hp, rfl⟩ := List.mem_map.mp hs
        have := List.mem_range'_1.mp hp
        exact if_neg (by omega)
      rw [hq]
      rw [List.foldl_map]
      refine foldl_once (g := fun v => v + fourTerms A B K N m n k) id List.nodup_range (s := n / 16)
        (List.mem_range.mpr (by omega)) (fun c => ?_) (fun j hj hne c => ?_) c
      · exact if_pos (by omega)
      · exact if_neg (by omega)
    · have hb : ∀ c, ((List.range (N / 16)).map fun j => GemmStep.axpy m k (16 * j)).foldl (cellStep A B K N n) c =
          c := by
        refine foldl_frame id fun s hs c => ?_
        obtain ⟨j, hj, rfl⟩ := List.mem_map.mp hs
        have := List.mem_range.mp hj
        exact if_neg (by omega)
      rw [hb, List.foldl_map]
      refine foldl_once (g := fun v => v + fourTerms A B K N m n k) id List.nodup_range' (s := n)
        (List.mem_range'_1.mpr (by omega)) (fun c => ?_) (fun p hp hne c => ?_) c
      · exact if_pos rfl
      · exact if_neg (Ne.symm hne)

/-- A trip of the tail adds its product to every column. -/
theorem foldl_singleTrip (m k : Nat) {n : Nat} (hn : n < N) (c : BitVec 32) :
    (singleTrip A K N m k).foldl (cellStep A B K N n) c = c + term A B K N m n k := by
  unfold singleTrip
  split_ifs with h
  · rw [term, h]
    simp
  · rw [List.foldl_map]
    refine foldl_once (g := fun v => v + term A B K N m n k) id List.nodup_range (s := n) (List.mem_range.mpr hn)
      (fun c => ?_) (fun p hp hne c => ?_) c
    · exact if_pos rfl
    · exact if_neg (Ne.symm hne)

theorem foldl_range'_add {M : Type*} [AddCommMonoid M] (f : Nat → M) (p n : Nat) (v : M) :
    (List.range' p n).foldl (fun v i => v + f i) v = v + ∑ i ∈ range n, f (p + i) := by
  induction n with
  | zero => simp
  | succ n ih => rw [List.range'_1_concat, List.foldl_append, ih, sum_range_succ, List.foldl_cons, List.foldl_nil, add_assoc]

/-- A row leaves the sum of its products, whatever was in the cell. -/
theorem foldl_gemmRow (neon : Bool) (m : Nat) {n : Nat} (hn : n < N) (c : BitVec 32) :
    (gemmRow A K N neon m).foldl (cellStep A B K N n) c = ∑ k ∈ range K, term A B K N m n k := by
  have hdone : 4 * (if neon then K / 4 else 0) ≤ K := by split_ifs <;> omega
  unfold gemmRow
  dsimp only
  generalize (if neon then K / 4 else 0) = done at hdone ⊢
  have hclear : cellStep A B K N n c (.clear m) = 0 := rfl
  rw [List.foldl_cons, List.foldl_append, List.foldl_flatMap, List.foldl_flatMap, hclear]
  simp only [foldl_quadTrip A B K N m _ hn, foldl_singleTrip A B K N m _ hn]
  rw [List.range_eq_range', foldl_range'_add, foldl_range'_add, zero_add]
  simp only [Nat.zero_add, fourTerms]
  rw [sum_blocks (term A B K N m n) done 4, ← sum_range_add, Nat.add_sub_cancel' hdone]

theorem sum_term (m n : Nat) : ∑ k ∈ range K, term A B K N m n k =
    BitVec.ofInt 32 (∑ k ∈ range K, (A (m * K + k)).toInt * (B (k * N + n)).toInt) := by
  have hsum : ∀ j, ∑ k ∈ range j, term A B K N m n k =
      BitVec.ofInt 32 (∑ k ∈ range j, (A (m * K + k)).toInt * (B (k * N + n)).toInt) := by
    intro j
    induction j with
    | zero => rfl
    | succ j ih =>
      rw [sum_range_succ, sum_range_succ, ih, BitVec.ofInt_add, BitVec.ofInt_mul]
      rfl
  exact hsum K

/-! ### The product -/

/-- Built either way, and however the rows are dealt out and interleaved, the product leaves in every cell the sum of
products in 32 bits, and nothing else changes. -/
theorem orkiCpuGemmI32_eq (neon : Bool) (M : Nat) (steps : List GemmStep) (h : RowsInterleave A K N neon M steps)
    (C : Words) :
    (∀ m < M, ∀ n < N, orkiCpuGemmI32 A B K N steps C (m * N + n) =
      BitVec.ofInt 32 (∑ k ∈ range K, (A (m * K + k)).toInt * (B (k * N + n)).toInt)) ∧
    ∀ p, M * N ≤ p → orkiCpuGemmI32 A B K N steps C p = C p := by
  have hfits : ∀ s ∈ steps, s.fits N := by
    intro s hs
    have hrow := h.each s.row (h.within s hs)
    exact fits_gemmRow A K N (hrow ▸ List.mem_filter.mpr ⟨hs, by simp⟩)
  constructor
  · intro m hm n hn
    have hcell := foldl_cell (fun C : Words => C (m * N + n)) (f := gemmStep A B K N)
      (g := fun s v => cellStep A B K N n v s) (t := fun s => decide (s.row = m)) (l := steps)
      (fun s _ ht C => by
        obtain rfl := of_decide_eq_true ht
        exact gemmStep_cell A B K N C s hn)
      (fun s hs ht C => by
        have hne : s.row ≠ m := of_decide_eq_false ht
        refine gemmStep_frame A B K N C (hfits s hs) ?_
        rintro ⟨hlo, hhi⟩
        rcases Nat.lt_or_gt_of_ne hne with hlt | hgt
        · have := Nat.mul_le_mul_right N hlt
          rw [Nat.succ_mul] at this
          omega
        · have := Nat.mul_le_mul_right N hgt
          rw [Nat.succ_mul] at this
          omega) C
    rw [orkiCpuGemmI32, hcell, h.each m hm, foldl_gemmRow A B K N neon m hn, sum_term]
  · intro p hp
    refine foldl_frame (fun C : Words => C p) (fun s hs C => ?_) C
    refine gemmStep_frame A B K N C (hfits s hs) ?_
    rintro ⟨-, hhi⟩
    have := Nat.mul_le_mul_right N (h.within s hs)
    rw [Nat.succ_mul] at this
    omega

end

/-- A matrix product of two rows on two workers that take turns: five deep and seventeen wide, so that both loops have
their tails. -/
def tallOnes : Bytes := fun _ => 1

def twoWorkers : List GemmStep :=
  (List.zipWith (fun x y => [x, y]) (gemmRow tallOnes 5 17 true 0) (gemmRow tallOnes 5 17 true 1)).flatten

theorem orkiCpuGemmI32_twoWorkers :
    (∀ m < 2, ∀ n < 17, orkiCpuGemmI32 tallOnes tallOnes 5 17 twoWorkers (fun _ => 7) (m * 17 + n) = 5) ∧
      orkiCpuGemmI32 tallOnes tallOnes 5 17 twoWorkers (fun _ => 7) 34 = 7 := by
  have h := orkiCpuGemmI32_eq tallOnes tallOnes 5 17 true 2 twoWorkers
    ⟨by decide, by decide⟩ fun _ => 7
  refine ⟨fun m hm n hn => (h.1 m hm n hn).trans ?_, h.2 34 (by decide)⟩
  rfl

end OrkDriver.Cpu
