import Mathlib.Algebra.Order.Star.Real
import Mathlib.Analysis.Matrix.LDL
import Mathlib.LinearAlgebra.Matrix.Block

/-!
Triangular factors of a positive definite matrix, entry by entry.
-/

namespace OrkDriver.Lib

open Finset

section

variable {α : Type*}

/-- The leading `K` x `K` entries as a matrix. -/
def square (K : ℕ) (A : ℕ → ℕ → α) : Matrix (Fin K) (Fin K) α := Matrix.of fun i j => A i j

@[simp] theorem square_apply (K : ℕ) (A : ℕ → ℕ → α) (i j : Fin K) : square K A i j = A i j := rfl

theorem square_congr {K : ℕ} {A B : ℕ → ℕ → α} (h : ∀ i < K, ∀ j < K, A i j = B i j) : square K A = square K B := by
  ext i j
  exact h i i.isLt j j.isLt

theorem square_inj {K : ℕ} {A B : ℕ → ℕ → α} (h : square K A = square K B) {i j : ℕ} (hi : i < K) (hj : j < K) :
    A i j = B i j := congrFun (congrFun h ⟨i, hi⟩) ⟨j, hj⟩

theorem square_mul [NonUnitalNonAssocSemiring α] (K : ℕ) (A B : ℕ → ℕ → α) :
    square K A * square K B = square K fun i j => ∑ k ∈ range K, A i k * B k j := by
  ext i j
  simp only [Matrix.mul_apply, square_apply]
  exact Fin.sum_univ_eq_sum_range (fun k => A i k * B k j) K

theorem square_transpose (K : ℕ) (A : ℕ → ℕ → α) : (square K A).transpose = square K fun i j => A j i := rfl

end

section

variable {α : Type*} [Field α] [LinearOrder α] {K : ℕ} {A L M : ℕ → ℕ → α}

/-- `L` is lower triangular with a positive diagonal, and `L * Lᵀ = A`. -/
structure LowerFactor (K : ℕ) (A L : ℕ → ℕ → α) : Prop where
  upper : ∀ i < K, ∀ j < K, i < j → L i j = 0
  pos : ∀ i < K, 0 < L i i
  mul : ∀ i < K, ∀ j < K, ∑ k ∈ range K, L i k * L j k = A i j

/-- `U` is upper triangular with a positive diagonal, and `Uᵀ * U = A`. -/
structure UpperFactor (K : ℕ) (A U : ℕ → ℕ → α) : Prop where
  lower : ∀ i < K, ∀ j < K, j < i → U i j = 0
  pos : ∀ i < K, 0 < U i i
  mul : ∀ i < K, ∀ j < K, ∑ k ∈ range K, U k i * U k j = A i j

theorem UpperFactor.congr {U V : ℕ → ℕ → α} (h : UpperFactor K A U) (hV : ∀ i < K, ∀ j < K, V i j = U i j) :
    UpperFactor K A V := by
  refine ⟨fun i hi j hj hij => ?_, fun i hi => ?_, fun i hi j hj => ?_⟩
  · rw [hV i hi j hj, h.lower i hi j hj hij]
  · rw [hV i hi i hi]
    exact h.pos i hi
  · rw [← h.mul i hi j hj]
    apply sum_congr rfl
    intro k hk
    rw [hV k (mem_range.mp hk) i hi, hV k (mem_range.mp hk) j hj]

namespace LowerFactor

/-- A row times a row that ends at `j`. -/
theorem sum_eq (h : LowerFactor K A L) {i j : ℕ} (hi : i < K) (hj : j < K) :
    ∑ k ∈ range j, L i k * L j k + L i j * L j j = A i j := by
  rw [← h.mul i hi j hj, ← sum_range_succ]
  refine sum_subset (range_mono hj) fun k hk hkj => ?_
  rw [h.upper j hj k (mem_range.mp hk) (by simpa using hkj), mul_zero]

theorem entry (h : LowerFactor K A L) {i j : ℕ} (hi : i < K) (hj : j < K) :
    (A i j - ∑ k ∈ range j, L i k * L j k) / L j j = L i j := by
  rw [← h.sum_eq hi hj, add_sub_cancel_left, mul_div_cancel_right₀ _ (h.pos j hj).ne']

theorem pivot (h : LowerFactor K A L) {i : ℕ} (hi : i < K) :
    A i i - ∑ k ∈ range i, L i k * L i k = L i i * L i i := by
  rw [← h.sum_eq hi hi, add_sub_cancel_left]

/-- The factor is unique. -/
theorem unique [IsStrictOrderedRing α] (h : LowerFactor K A L) (h' : LowerFactor K A M) : ∀ i < K, ∀ j < K, L i j = M i j := by
  intro i
  induction i using Nat.strong_induction_on with
  | _ i ihi =>
    intro hi j
    induction j using Nat.strong_induction_on with
    | _ j ihj =>
      intro hj
      have hrow : ∀ k < j, L i k = M i k := fun k hk => ihj k hk (hk.trans hj)
      rcases Nat.lt_trichotomy j i with hlt | rfl | hgt
      · have hsum : ∑ k ∈ range j, L i k * L j k = ∑ k ∈ range j, M i k * M j k := by
          refine sum_congr rfl fun k hk => ?_
          rw [hrow k (mem_range.mp hk), ihi j hlt hj k ((mem_range.mp hk).trans hj)]
        rw [← h.entry hi hj, ← h'.entry hi hj, hsum, ihi j hlt hj j hj]
      · have hsq : L j j * L j j = M j j * M j j := by
          rw [← h.pivot hi, ← h'.pivot hi]
          congr 1
          exact sum_congr rfl fun k hk => by rw [hrow k (mem_range.mp hk)]
        exact (mul_self_inj (h.pos j hj).le (h'.pos j hj).le).mp hsq
      · rw [h.upper i hi j hj hgt, h'.upper i hi j hj hgt]

theorem congr (h : LowerFactor K A L) (hM : ∀ i < K, ∀ j < K, M i j = L i j) : LowerFactor K A M := by
  refine ⟨fun i hi j hj hij => ?_, fun i hi => ?_, fun i hi j hj => ?_⟩
  · rw [hM i hi j hj, h.upper i hi j hj hij]
  · rw [hM i hi i hi]
    exact h.pos i hi
  · rw [← h.mul i hi j hj]
    apply sum_congr rfl
    intro k hk
    rw [hM i hi k (mem_range.mp hk), hM j hj k (mem_range.mp hk)]

/-- The transposed factor. -/
theorem transpose (h : LowerFactor K A L) : UpperFactor K A fun i j => L j i :=
  ⟨fun i hi j hj hlt => h.upper j hj i hi hlt, h.pos, h.mul⟩

theorem square_eq (h : LowerFactor K A L) : square K L * (square K L).transpose = square K A := by
  rw [square_transpose, square_mul]
  exact square_congr h.mul

/-- Rows that solve the triangular system of each unit vector make up the transposed inverse. -/
theorem mul_solved (h : LowerFactor K A L) (hzero : ∀ c < K, ∀ k < c, M c k = 0)
    (hsolve : ∀ c < K, ∀ i < K, c ≤ i → ∑ k ∈ Ico c (i + 1), L i k * M c k = if i = c then 1 else 0) :
    square K L * (square K M).transpose = 1 := by
  rw [square_transpose, square_mul]
  ext i c
  rw [square_apply, Matrix.one_apply]
  have hi := i.isLt
  have hsum : ∀ m ≤ K, (∀ k < K, m ≤ k → L i k = 0 ∨ M c k = 0) →
      ∑ k ∈ range K, L i k * M c k = ∑ k ∈ range m, L i k * M c k := by
    intro m hm hz
    refine (sum_subset (range_mono hm) fun k hk hkm => ?_).symm
    rcases hz k (mem_range.mp hk) (by simpa using hkm) with h0 | h0 <;> rw [h0] <;> simp
  rw [hsum (i + 1) hi fun k hk hik => Or.inl (h.upper i hi k hk hik)]
  rcases Nat.lt_or_ge i c with hlt | hge
  · rw [if_neg (Fin.ne_of_lt hlt)]
    refine sum_eq_zero fun k hk => ?_
    rw [hzero c c.isLt k (by rw [mem_range] at hk; omega), mul_zero]
  · have hcut : ∑ k ∈ range (i + 1), L i k * M c k = ∑ k ∈ Ico (c : ℕ) (i + 1), L i k * M c k := by
      rw [range_eq_Ico, ← sum_Ico_consecutive _ (Nat.zero_le (c : ℕ)) (by omega)]
      rw [sum_eq_zero, zero_add]
      intro k hk
      rw [hzero c c.isLt k (mem_Ico.mp hk).2, mul_zero]
    rw [hcut, hsolve c c.isLt i hi hge]
    simp only [Fin.ext_iff]

/-- The product of the transposed inverse with the inverse is the inverse of the whole. -/
theorem inv_eq (h : LowerFactor K A L) (hinv : square K L * (square K M).transpose = 1) :
    square K M * (square K M).transpose = (square K A)⁻¹ := by
  have hleft : (square K M).transpose * square K L = 1 := mul_eq_one_comm.mp hinv
  have hright : square K M * (square K L).transpose = 1 := by
    rw [← Matrix.transpose_transpose (square K M), ← Matrix.transpose_mul, hinv, Matrix.transpose_one]
  symm
  apply Matrix.inv_eq_left_inv
  calc square K M * (square K M).transpose * square K A
      = square K M * ((square K M).transpose * square K L) * (square K L).transpose := by
        rw [← h.square_eq, Matrix.mul_assoc, Matrix.mul_assoc, Matrix.mul_assoc]
    _ = 1 := by rw [hleft, Matrix.mul_one, hright]

end LowerFactor

end

/-! ### Existence -/

section

variable {K : ℕ} {S M : Matrix (Fin K) (Fin K) ℝ}

theorem exists_square (M : Matrix (Fin K) (Fin K) ℝ) : ∃ A, square K A = M := by
  refine ⟨fun i j => if h : i < K ∧ j < K then M ⟨i, h.1⟩ ⟨j, h.2⟩ else 0, ?_⟩
  ext i j
  exact dif_pos ⟨i.isLt, j.isLt⟩

theorem mul_diagonal_square (M : Matrix (Fin K) (Fin K) ℝ) (d : Fin K → ℝ) :
    M * Matrix.diagonal d * (M * Matrix.diagonal d).transpose = M * Matrix.diagonal (fun i => d i * d i) * M.transpose := by
  rw [Matrix.transpose_mul, Matrix.diagonal_transpose, ← Matrix.diagonal_mul_diagonal]
  simp only [Matrix.mul_assoc]

theorem ldl_lower_triangular (hS : S.PosDef) : (LDL.lower hS).IsLowerTriangular :=
  Matrix.blockTriangular_inv_of_blockTriangular fun _ _ hij => LDL.lowerInv_triangular hS hij

theorem ldl_diag_nonneg (hS : S.PosDef) (i : Fin K) : 0 ≤ LDL.diagEntries hS i := by
  have hsemi : (LDL.diag hS).PosSemidef := by
    rw [LDL.diag_eq_lowerInv_conj]
    exact hS.posSemidef.mul_mul_conjTranspose_same _
  have hi := hsemi.diag_nonneg (i := i)
  rwa [LDL.diag, Matrix.diagonal_apply_eq] at hi

/-- A triangular square root, up to the signs of its columns. -/
theorem exists_triangular_root (hS : S.PosDef) :
    ∃ M : Matrix (Fin K) (Fin K) ℝ, M.IsLowerTriangular ∧ M * M.transpose = S := by
  refine ⟨LDL.lower hS * Matrix.diagonal fun i => Real.sqrt (LDL.diagEntries hS i),
    (ldl_lower_triangular hS).mul (Matrix.blockTriangular_diagonal _), ?_⟩
  have hdiag : (fun i => Real.sqrt (LDL.diagEntries hS i) * Real.sqrt (LDL.diagEntries hS i)) = LDL.diagEntries hS := by
    funext i
    exact Real.mul_self_sqrt (ldl_diag_nonneg hS i)
  rw [mul_diagonal_square, hdiag, ← Matrix.conjTranspose_eq_transpose_of_trivial]
  exact LDL.lower_conj_diag hS

theorem diag_ne_zero (hM : M.IsLowerTriangular) (hMS : M * M.transpose = S) (hS : S.PosDef) (i : Fin K) : M i i ≠ 0 := by
  intro h0
  have hzero : M.det = 0 := by
    rw [Matrix.det_of_isLowerTriangular M hM]
    exact Finset.prod_eq_zero (Finset.mem_univ i) h0
  have hdet := hS.det_pos
  rw [← hMS, Matrix.det_mul, hzero, zero_mul] at hdet
  exact lt_irrefl _ hdet

/-- The columns turned so that the diagonal is positive. -/
theorem exists_positive_root (hS : S.PosDef) :
    ∃ M : Matrix (Fin K) (Fin K) ℝ, M.IsLowerTriangular ∧ (∀ i, 0 < M i i) ∧ M * M.transpose = S := by
  obtain ⟨M, hM, hMS⟩ := exists_triangular_root hS
  have hne := diag_ne_zero hM hMS hS
  refine ⟨M * Matrix.diagonal fun k => |M k k| / M k k, hM.mul (Matrix.blockTriangular_diagonal _), fun i => ?_, ?_⟩
  · rw [Matrix.mul_diagonal, mul_div_cancel₀ _ (hne i)]
    exact abs_pos.mpr (hne i)
  · have hsign : (fun k => |M k k| / M k k * (|M k k| / M k k)) = fun _ => 1 := by
      funext k
      rw [div_mul_div_comm, abs_mul_abs_self, div_self (mul_ne_zero (hne k) (hne k))]
    rw [mul_diagonal_square, hsign, Matrix.diagonal_one, Matrix.mul_one, hMS]

end

/-- A positive definite matrix has a lower factor. -/
theorem exists_lowerFactor {K : ℕ} {A : ℕ → ℕ → ℝ} (hA : (square K A).PosDef) : ∃ L, LowerFactor K A L := by
  obtain ⟨M, hM, hpos, hMA⟩ := exists_positive_root hA
  obtain ⟨L, rfl⟩ := exists_square M
  rw [square_transpose, square_mul] at hMA
  exact ⟨L, fun i hi j hj hij => hM (i := ⟨i, hi⟩) (j := ⟨j, hj⟩) hij, fun i hi => hpos ⟨i, hi⟩,
    fun i hi j hj => square_inj hMA hi hj⟩

/-- What has a lower factor is positive definite. -/
theorem LowerFactor.posDef {K : ℕ} {A L : ℕ → ℕ → ℝ} (h : LowerFactor K A L) : (square K A).PosDef := by
  have hdet : (square K L).det ≠ 0 := by
    rw [Matrix.det_of_isLowerTriangular (square K L) fun i j hij => h.upper i i.isLt j j.isLt hij]
    exact Finset.prod_ne_zero_iff.mpr fun i _ => (h.pos i i.isLt).ne'
  have hunit : IsUnit (square K L) := (Matrix.isUnit_iff_isUnit_det _).mpr (isUnit_iff_ne_zero.mpr hdet)
  rw [← h.square_eq, ← Matrix.conjTranspose_eq_transpose_of_trivial]
  exact Matrix.PosDef.mul_conjTranspose_self _ (Matrix.vecMul_injective_of_isUnit hunit)

/-! ### Quadratic forms -/

section

open Matrix

variable {K : ℕ} {B H U : ℕ → ℕ → ℝ}

/-- A vector that is a combination of the rows of a factor of `H⁻¹`, weighted with `H`: the squares of its coefficients. -/
theorem UpperFactor.quadratic (hU : UpperFactor K B U) (hinv : square K B = (square K H)⁻¹) (hH : (square K H).PosDef)
    {d e : ℕ → ℝ} (hd : ∀ c < K, d c = ∑ j ∈ range K, e j * U j c) :
    ∑ i ∈ range K, ∑ j ∈ range K, d i * H i j * d j = ∑ j ∈ range K, e j * e j := by
  have hB : (square K U).transpose * square K U = square K B := by
    rw [square_transpose, square_mul]
    exact square_congr hU.mul
  have hone : (square K U).transpose * (square K U * square K H) = 1 := by
    rw [← Matrix.mul_assoc, hB, hinv]
    exact Matrix.nonsing_inv_mul _ ((Matrix.isUnit_iff_isUnit_det _).mp hH.isUnit)
  have hflip : square K U * square K H * (square K U).transpose = 1 := mul_eq_one_comm.mp hone
  let dv : Fin K → ℝ := fun i => d i
  let ev : Fin K → ℝ := fun i => e i
  have hdv : dv = ev ᵥ* square K U := by
    funext c
    rw [Matrix.vecMul, dotProduct]
    exact (hd c c.isLt).trans (Fin.sum_univ_eq_sum_range (fun j => e j * U j c) K).symm
  have hform : dv ⬝ᵥ (square K H *ᵥ dv) = ev ⬝ᵥ ev := by
    rw [hdv, ← Matrix.mulVec_transpose, Matrix.mulVec_mulVec, Matrix.mulVec_transpose, ← Matrix.dotProduct_mulVec,
      Matrix.mulVec_mulVec, ← Matrix.mul_assoc, hflip, Matrix.one_mulVec]
  have hleft : dv ⬝ᵥ (square K H *ᵥ dv) = ∑ i ∈ range K, ∑ j ∈ range K, d i * H i j * d j := by
    rw [dotProduct, ← Fin.sum_univ_eq_sum_range (fun i => ∑ j ∈ range K, d i * H i j * d j) K]
    refine sum_congr rfl fun i _ => ?_
    rw [Matrix.mulVec, dotProduct, mul_sum, ← Fin.sum_univ_eq_sum_range (fun j => d i * H i j * d j) K]
    refine sum_congr rfl fun j _ => ?_
    rw [square_apply]
    ring
  rw [← hleft, hform]
  exact Fin.sum_univ_eq_sum_range (fun j => e j * e j) K

/-- The factor of a diagonal matrix is diagonal. -/
theorem UpperFactor.diagonal (hU : UpperFactor K B U) (hB : ∀ i < K, ∀ j < K, i ≠ j → B i j = 0) :
    ∀ i < K, ∀ j < K, i ≠ j → U i j = 0 := by
  intro i
  induction i using Nat.strong_induction_on with
  | _ i ih =>
      intro hi j hj hij
      rcases Nat.lt_or_gt_of_ne hij with hlt | hgt
      · have hsum := hU.mul i hi j hj
        rw [hB i hi j hj hij, sum_eq_single_of_mem i (mem_range.mpr hi)] at hsum
        · exact (mul_eq_zero.mp hsum).resolve_left (hU.pos i hi).ne'
        · intro k hk hki
          rcases Nat.lt_or_gt_of_ne hki with hlt' | hgt'
          · rw [ih k hlt' (hlt'.trans hi) j hj (hlt'.trans hlt).ne, mul_zero]
          · rw [hU.lower k (mem_range.mp hk) i hi hgt', zero_mul]
      · exact hU.lower i hi j hj hgt

theorem inverse_diagonal (hinv : square K B = (square K H)⁻¹) (hH : ∀ i < K, ∀ j < K, i ≠ j → H i j = 0) :
    ∀ i < K, ∀ j < K, i ≠ j → B i j = 0 := by
  have hdiag : square K H = Matrix.diagonal fun i : Fin K => H i i := by
    ext i j
    rw [square_apply, Matrix.diagonal_apply]
    split_ifs with h
    · rw [h]
    · exact hH i i.isLt j j.isLt fun heq => h (Fin.ext heq)
  intro i hi j hj hij
  have hentry := congrFun (congrFun hinv ⟨i, hi⟩) ⟨j, hj⟩
  rw [hdiag, Matrix.inv_diagonal, Matrix.diagonal_apply_ne _ fun heq => hij (congrArg Fin.val heq)] at hentry
  exact hentry

end

end OrkDriver.Lib
