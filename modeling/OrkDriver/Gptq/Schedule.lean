import OrkDriver.Gptq.Inverse

/-!
Which orders of the iterations of their parallel loops the factorisation kernels are right for.
-/

namespace OrkDriver.Gptq

open OrkDriver.Lib Finset

/-- The orders in which the iterations of the parallel loops run: of the loop over `j` in row `i` of `chol_lower`, and of
the two loops of `inv_from_chol`. -/
structure Schedule (K : ℕ) where
  row : ℕ → List ℕ
  solve : List ℕ
  mul : List ℕ
  row_perm : ∀ i, (row i).Perm (List.range i)
  solve_perm : solve.Perm (List.range K)
  mul_perm : mul.Perm (List.range K)

/-- One thread. -/
def Schedule.sequential (K : ℕ) : Schedule K :=
  ⟨List.range, List.range K, List.range K, fun _ => .refl _, .refl _, .refl _⟩

/-- Two threads with half of the iterations of a row each, the second ahead of the first. -/
def Schedule.secondHalfFirst (K : ℕ) : Schedule K where
  row i := List.range' (i / 2) (i - i / 2) ++ List.range (i / 2)
  solve := List.range K
  mul := List.range K
  row_perm i := by
    rw [List.range_eq_range', List.range_eq_range']
    refine List.perm_append_comm.trans ?_
    have happ := @List.range'_append_1 0 (i / 2) (i - i / 2)
    rw [Nat.zero_add, Nat.add_sub_cancel' (Nat.div_le_self i 2)] at happ
    rw [happ]
  solve_perm := .refl _
  mul_perm := .refl _

/-- Whatever positive definite matrix they are given, the kernels leave what they are to leave, and what they leave when
they run sequentially. -/
structure FactorsRight {K : ℕ} (s : Schedule K) : Prop where
  lower : ∀ A : Mat ℝ, (square K A).PosDef → ∃ L, cholLower Real.sqrt s.row K A = some L ∧ LowerFactor K A L ∧
    cholLower Real.sqrt (Schedule.sequential K).row K A = some L
  inverse : ∀ A L : Mat ℝ, (square K A).PosDef → LowerFactor K A L → ∀ out,
    square K (invFromChol s.solve s.mul K L out) = (square K A)⁻¹ ∧
    square K (invFromChol s.solve s.mul K L out) =
      square K (invFromChol (Schedule.sequential K).solve (Schedule.sequential K).mul K L out)
  upper : ∀ A : Mat ℝ, (square K A).PosDef → ∃ U, cholUpper Real.sqrt s.row K A = some U ∧ UpperFactor K A U ∧
    cholUpper Real.sqrt (Schedule.sequential K).row K A = some U

/-- The rows that run in parallel run their iterations in ascending order. -/
def Ascending {K : ℕ} (s : Schedule K) : Prop := ∀ i, 256 < i → i < K → s.row i = List.range i

/-! ### Ascending rows -/

theorem rowOrder_perm {K : ℕ} (s : Schedule K) (i : ℕ) : (rowOrder s.row i).Perm (List.range i) := by
  unfold rowOrder
  split_ifs with hi
  · exact s.row_perm i
  · exact .refl _

theorem Ascending.rowOrder_eq {K : ℕ} {s : Schedule K} (h : Ascending s) : ∀ i < K, rowOrder s.row i = List.range i := by
  intro i hi
  unfold rowOrder
  split_ifs with hpar
  · exact h i hpar hi
  · rfl

/-- The kernel looks at the orders of its own rows only. -/
theorem cholLower_congr {α : Type*} [Field α] [LinearOrder α] (sqrt : α → α) {row row' : ℕ → List ℕ} {K : ℕ}
    (h : ∀ i < K, rowOrder row i = rowOrder row' i) (A : Mat α) : cholLower sqrt row K A = cholLower sqrt row' K A := by
  have hsteps : ∀ n ≤ K, (List.range n).foldlM (cholStep sqrt row) A = (List.range n).foldlM (cholStep sqrt row') A := by
    intro n hn
    induction n with
    | zero => rfl
    | succ n ih =>
        have hstep : ∀ B, cholStep sqrt row B n = cholStep sqrt row' B n := by
          intro B
          unfold cholStep
          rw [h n hn]
        rw [List.range_succ, List.foldlM_append, List.foldlM_append, ih (Nat.le_of_succ_le hn)]
        congr 1
        funext B
        simp only [List.foldlM_cons, List.foldlM_nil, hstep]
  unfold cholLower
  rw [hsteps K (Nat.le_refl K)]

theorem sequential_ascending (K : ℕ) : Ascending (Schedule.sequential K) := fun _ _ _ => rfl

theorem Ascending.factorsRight {K : ℕ} {s : Schedule K} (h : Ascending s) : FactorsRight s := by
  have hseq : ∀ A, cholLower Real.sqrt (Schedule.sequential K).row K A = cholLower Real.sqrt s.row K A := by
    intro A
    refine cholLower_congr _ (fun i hi => ?_) A
    rw [h.rowOrder_eq i hi, (sequential_ascending K).rowOrder_eq i hi]
  have hlower : ∀ A : Mat ℝ, (square K A).PosDef → ∃ L, cholLower Real.sqrt s.row K A = some L ∧ LowerFactor K A L := by
    intro A hA
    obtain ⟨L, hL⟩ := exists_lowerFactor hA
    obtain ⟨L', hrun, hentry⟩ := cholLower_factor hL (fun x hx => Real.sqrt_mul_self hx.le) h.rowOrder_eq
    exact ⟨L', hrun, hL.congr hentry⟩
  refine ⟨fun A hA => ?_, fun A L hA hL out => ⟨invFromChol_inv hL s.solve_perm s.mul_perm out, ?_⟩, fun A hA => ?_⟩
  · obtain ⟨L, hrun, hL⟩ := hlower A hA
    exact ⟨L, hrun, hL, (hseq A).trans hrun⟩
  · rw [invFromChol_inv hL s.solve_perm s.mul_perm out]
    exact (invFromChol_inv hL (Schedule.sequential K).solve_perm (Schedule.sequential K).mul_perm out).symm
  · obtain ⟨L, hrun, hL⟩ := hlower A hA
    refine ⟨transposeUpper K L, ?_, transposeUpper_factor hL, ?_⟩
    · unfold cholUpper
      rw [hrun, Option.map_some]
    · unfold cholUpper
      rw [hseq, hrun, Option.map_some]

/-! ### A row out of order -/

/-- A factor with an entry in row `i` and one in row `j` under the diagonal entry of row `k`. -/
def raced (i j k : ℕ) : Mat ℝ := fun r c =>
  if r = c then if r = k then 2 else 1
  else if c = k ∧ (r = i ∨ r = j) then 1
  else 0

/-- What it is the factor of. -/
noncomputable def racedProduct (K i j k : ℕ) : Mat ℝ := fun r c => ∑ m ∈ range K, raced i j k r m * raced i j k c m

theorem raced_factor {K i j k : ℕ} (hkj : k < j) (hji : j < i) : LowerFactor K (racedProduct K i j k) (raced i j k) := by
  refine ⟨fun r _ c _ hrc => ?_, fun r _ => ?_, fun r _ c _ => rfl⟩
  · unfold raced
    rw [if_neg (Nat.ne_of_lt hrc), if_neg (by omega)]
  · unfold raced
    rw [if_pos rfl]
    split_ifs <;> norm_num

/-- An iteration that runs before one it reads from leaves a wrong entry. -/
theorem not_factorsRight_of_inversion {K : ℕ} {s : Schedule K} {i j k : ℕ} (hpar : 256 < i) (hi : i < K) (hji : j < i)
    (hkj : k < j) {pre post : List ℕ} (hl : s.row i = pre ++ j :: post) (hk : k ∉ pre) : ¬ FactorsRight s := by
  intro h
  have hR := @raced_factor K i j k hkj hji
  obtain ⟨L, hrun, hL, -⟩ := h.lower _ hR.posDef
  have hord : rowOrder s.row i = pre ++ j :: post := by
    unfold rowOrder
    rw [if_pos hpar, hl]
  have hentry := cholLower_entry hrun hi hji hord (rowOrder_perm s i)
  have heq := hL.unique hR
  have hj := hji.trans hi
  have hkK := hkj.trans hj
  have hsum : ∑ m ∈ range j, (if m ∈ pre then L i m else racedProduct K i j k i m) * L j m = 2 := by
    rw [sum_eq_single_of_mem k (mem_range.mpr hkj)]
    · rw [if_neg hk, heq j hj k hkK, ← hR.sum_eq hi hkK, sum_eq_zero]
      · simp [raced, (hkj.trans hji).ne', hkj.ne']
      · intro m hm
        have hmk := mem_range.mp hm
        simp [raced, hmk.ne, hmk.ne', (hmk.trans (hkj.trans hji)).ne']
    · intro m hm hmk
      have hmj := mem_range.mp hm
      rw [heq j hj m (hmj.trans hj)]
      simp [raced, hmj.ne', hmk]
  have hprod : racedProduct K i j k i j = 1 := by
    rw [← hR.sum_eq hi hj, sum_eq_single_of_mem k (mem_range.mpr hkj)]
    · simp [raced, hji.ne', hkj.ne', (hkj.trans hji).ne']
    · intro m hm hmk
      have hmj := mem_range.mp hm
      simp [raced, hmj.ne', hmk]
  rw [hsum, hprod, heq i hi j hj, heq j hj j hj] at hentry
  norm_num [raced, hji.ne', hkj.ne'] at hentry

/-- An order in which every iteration comes after the smaller ones is the ascending order. -/
theorem eq_range_of_after {i : ℕ} {l : List ℕ} (hl : l.Perm (List.range i))
    (hafter : ∀ pre j post, l = pre ++ j :: post → ∀ k < j, k ∈ pre) : l = List.range i := by
  have hnd : l.Nodup := hl.nodup_iff.mpr List.nodup_range
  have hsorted : ∀ post pre, l = pre ++ post → post.Pairwise (· < ·) := by
    intro post
    induction post with
    | nil => exact fun _ _ => List.Pairwise.nil
    | cons j post ih =>
        intro pre hpre
        refine List.pairwise_cons.mpr ⟨fun m hm => ?_, ih (pre ++ [j]) (by rw [hpre, List.append_assoc]; rfl)⟩
        rw [hpre] at hnd
        obtain ⟨-, hcons, hdisj⟩ := List.nodup_append.mp hnd
        by_contra hge
        rcases Nat.lt_or_eq_of_le (not_lt.mp hge) with hlt | rfl
        · exact hdisj m (hafter pre j post hpre m hlt) m (List.mem_cons_of_mem j hm) rfl
        · exact (List.nodup_cons.mp hcons).1 hm
  exact hl.eq_of_pairwise (fun _ _ _ _ h h' => absurd h (Nat.lt_asymm h')) (hsorted l [] rfl) List.pairwise_lt_range

/-- The kernels are right under a schedule exactly if it keeps the rows from 257 on in ascending order. -/
theorem factorsRight_iff {K : ℕ} (s : Schedule K) : FactorsRight s ↔ Ascending s := by
  constructor
  · intro h i hpar hi
    refine eq_range_of_after (s.row_perm i) fun pre j post hl k hkj => ?_
    by_contra hk
    have hji : j < i := List.mem_range.mp ((s.row_perm i).mem_iff.mp (by rw [hl]; simp))
    exact not_factorsRight_of_inversion hpar hi hji hkj hl hk h
  · exact Ascending.factorsRight

/-- A row of 257 iterations on two threads. -/
theorem not_factorsRight_secondHalfFirst : ¬ ∀ K (s : Schedule K), FactorsRight s := by
  intro h
  exact @not_factorsRight_of_inversion 258 (.secondHalfFirst 258) 257 128 0 (by decide) (by decide) (by decide) (by decide)
    [] (List.range' 129 128 ++ List.range 128) rfl (by simp) (h 258 _)

end OrkDriver.Gptq
