import OrkDriver.Gptq.Cholesky
import OrkDriver.Lib.Span

/-!
What `inv_from_chol` and `chol_upper` leave.
-/

namespace OrkDriver.Gptq

open OrkDriver.Lib Finset

section

variable {α : Type*} [Field α] {K : ℕ} {L M : Mat α}

/-! ### The forward solves -/

/-- The store of the forward solve. -/
def solveEntry (L : Mat α) (c : ℕ) (M : Mat α) (i : ℕ) : α :=
  subRest (-lanes (fun k => L i k * M c k) c i) (fun k => L i k * M c k) c i / L i i

theorem solveEntry_eq (L M : Mat α) {c i : ℕ} (h : c ≤ i) :
    solveEntry L c M i = -(∑ k ∈ Ico c i, L i k * M c k) / L i i := by
  unfold solveEntry
  rw [← zero_sub, subRest_lanes _ _ h, zero_sub]

theorem solveCol_eq (K : ℕ) (L M : Mat α) (c : ℕ) :
    solveCol K L M c = setRow (solveEntry L c) c (List.range' (c + 1) (K - (c + 1))) (M.set c c (1 / L c c)) := rfl

theorem solveCol_of_row_ne (K : ℕ) (L M : Mat α) {c r : ℕ} (h : r ≠ c) : solveCol K L M c r = M r := by
  rw [solveCol_eq, setRow_of_row_ne _ _ h, Mat.set_of_row_ne _ _ h]

theorem solveCol_of_lt (K : ℕ) (L M : Mat α) {c k : ℕ} (h : k < c) : solveCol K L M c c k = M c k := by
  rw [solveCol_eq, setRow_of_not_mem, Mat.set_of_col_ne _ _ (Nat.ne_of_lt h)]
  intro hmem
  have := List.mem_range'_1.mp hmem
  omega

theorem solveCol_diag (K : ℕ) (L M : Mat α) (c : ℕ) : solveCol K L M c c c = 1 / L c c := by
  rw [solveCol_eq, setRow_of_not_mem, Mat.set_self]
  intro hmem
  have := List.mem_range'_1.mp hmem
  omega

/-- Row `c` solves the system of column `c`. -/
theorem solveCol_solves (hL : ∀ i < K, L i i ≠ 0) (M : Mat α) {c i : ℕ} (hci : c ≤ i) (hi : i < K) :
    ∑ k ∈ Ico c (i + 1), L i k * solveCol K L M c c k = if i = c then 1 else 0 := by
  rw [sum_Ico_succ_top hci]
  rcases Nat.lt_or_eq_of_le hci with hlt | rfl
  · have hl := @range'_split (c + 1) (K - (c + 1)) i hlt (by omega)
    have hentry : solveCol K L M c c i = -(∑ k ∈ Ico c i, L i k * solveCol K L M c c k) / L i i := by
      rw [solveCol_eq, setRow_entry hl List.nodup_range', solveEntry_eq _ _ hci]
      congr 2
      apply sum_congr rfl
      intro k hk
      obtain ⟨hck, hki⟩ := mem_Ico.mp hk
      congr 1
      rw [setRow_seen hl List.nodup_range']
      split_ifs with hmem
      · rfl
      · have hkc : k = c := by
          by_contra hne
          exact hmem (List.mem_range'_1.mpr (by omega))
        rw [hkc, setRow_of_not_mem]
        intro hmem'
        have := List.mem_range'_1.mp hmem'
        omega
    rw [hentry, mul_div_cancel₀ _ (hL i hi), add_neg_cancel, if_neg (Nat.ne_of_gt hlt)]
  · rw [Ico_self, sum_empty, zero_add, solveCol_diag, mul_one_div_cancel (hL c hi), if_pos rfl]

/-- After the loop every row solves its system, in whatever order the iterations ran. -/
theorem solved {solve : List ℕ} (hperm : solve.Perm (List.range K)) (hL : ∀ i < K, L i i ≠ 0) {c i : ℕ} (hci : c ≤ i)
    (hi : i < K) : ∑ k ∈ Ico c (i + 1), L i k * solve.foldl (solveCol K L) (fun _ _ => 0) c k = if i = c then 1 else 0 := by
  refine @foldl_establishes _ _ (fun M : Mat α => ∑ k ∈ Ico c (i + 1), L i k * M c k = if i = c then 1 else 0) _ solve c
    (hperm.mem_iff.mpr (List.mem_range.mpr (by omega))) ?_ ?_ _
  · intro M
    exact solveCol_solves hL M hci hi
  · intro u _ hu M hM
    rw [solveCol_of_row_ne K L M (Ne.symm hu)]
    exact hM

theorem solved_zero (solve : List ℕ) {c k : ℕ} (h : k < c) : solve.foldl (solveCol K L) (fun _ _ => 0) c k = 0 := by
  refine foldl_frame (fun M : Mat α => M c k) (fun u _ M => ?_) (fun _ _ => 0)
  by_cases hu : c = u
  · subst hu
    exact solveCol_of_lt K L M h
  · exact congrFun (solveCol_of_row_ne K L M hu) k

/-! ### The product -/

theorem tiled_eq (K : ℕ) : tiled K = List.range K := by
  have hstep : ∀ b < (K + 7) / 8, min K (8 * b) ≤ min K (8 * (b + 1)) := fun b _ => by omega
  have hspan := flatMap_range' (f := fun b => min K (8 * b)) (Nat.min_zero K) hstep
  rw [Nat.min_eq_left (show K ≤ 8 * ((K + 7) / 8) by omega)] at hspan
  rw [← hspan]
  unfold tiled
  apply List.flatMap_congr
  intro b hb
  rw [List.mem_range] at hb
  rw [Nat.min_eq_right (show 8 * b ≤ K by omega)]
  congr 2
  split_ifs <;> omega

theorem mulRow_entry (K : ℕ) (M out : Mat α) {i j : ℕ} (hi : i < K) (hj : j < K) :
    mulRow K M out i i j = ∑ k ∈ Ico (max i j) K, M i k * M j k := by
  have hl := range_split hj
  rw [← tiled_eq] at hl
  have hnd : (tiled K).Nodup := by
    rw [tiled_eq]
    exact List.nodup_range
  have hk0 : (if j < i then i else j) = max i j := by
    split_ifs <;> omega
  refine (setRow_entry (g := fun _ j => _) hl hnd out).trans ?_
  rw [hk0, addRest_lanes _ (show max i j ≤ K by omega)]

theorem mulRow_of_row_ne (K : ℕ) (M out : Mat α) {i r : ℕ} (h : r ≠ i) : mulRow K M out i r = out r :=
  setRow_of_row_ne (g := fun _ _ => _) (tiled K) out h

/-- The entries of `inv_from_chol`, in whatever order its rows are computed. -/
theorem invFromChol_entry {mul : List ℕ} (hperm : mul.Perm (List.range K)) (solve : List ℕ) (L out : Mat α) {i j : ℕ}
    (hi : i < K) (hj : j < K) : invFromChol solve mul K L out i j =
      ∑ k ∈ range K, solve.foldl (solveCol K L) (fun _ _ => 0) i k * solve.foldl (solveCol K L) (fun _ _ => 0) j k := by
  have hentry : invFromChol solve mul K L out i j = ∑ k ∈ Ico (max i j) K,
      solve.foldl (solveCol K L) (fun _ _ => 0) i k * solve.foldl (solveCol K L) (fun _ _ => 0) j k := by
    refine @foldl_establishes _ _ (fun out : Mat α => out i j = _) _ mul i
      (hperm.mem_iff.mpr (List.mem_range.mpr hi)) (fun out => mulRow_entry K _ out hi hj) ?_ out
    intro u _ hu out hout
    rw [mulRow_of_row_ne K _ out (Ne.symm hu)]
    exact hout
  rw [hentry]
  refine sum_subset (fun k hk => mem_range.mpr (mem_Ico.mp hk).2) fun k hk hout => ?_
  have hlt : k < i ∨ k < j := by
    rw [mem_range] at hk
    by_contra hge
    exact hout (mem_Ico.mpr (by omega))
  rcases hlt with h | h
  · rw [solved_zero solve h, zero_mul]
  · rw [solved_zero solve h, mul_zero]

theorem invFromChol_inv [LinearOrder α] {A : Mat α} (hL : LowerFactor K A L) {solve mul : List ℕ}
    (hsolve : solve.Perm (List.range K)) (hmul : mul.Perm (List.range K)) (out : Mat α) :
    square K (invFromChol solve mul K L out) = (square K A)⁻¹ := by
  have hne : ∀ i < K, L i i ≠ 0 := fun i hi => (hL.pos i hi).ne'
  rw [← hL.inv_eq (hL.mul_solved (fun c _ k hk => solved_zero solve hk) fun c _ i hi hci => solved hsolve hne hci hi),
    square_transpose, square_mul]
  exact square_congr fun i hi j hj => invFromChol_entry hmul solve L out hi hj

/-! ### `chol_upper` -/

theorem transposeUpper_pair (K : ℕ) (A : Mat α) {r c : ℕ} (hrc : r < c) (hc : c < K) :
    (transposeUpper K A r c, transposeUpper K A c r) = (A c r, 0) := by
  refine foldl_once (fun A : Mat α => (A r c, A c r)) (g := fun p => (p.2, 0)) List.nodup_range
    (List.mem_range.mpr (hrc.trans hc)) (fun A => ?_) (fun i _ hi A => ?_) A
  · refine foldl_once (fun A : Mat α => (A r c, A c r)) (g := fun p => (p.2, 0)) List.nodup_range'
      (List.mem_range'_1.mpr (show r + 1 ≤ c ∧ c < _ by omega)) (fun A => ?_) (fun j hj hne A => ?_) A
    · dsimp only
      rw [Mat.set_self, Mat.set_of_row_ne _ _ (Nat.ne_of_lt hrc), Mat.set_self]
    · have hjr := List.mem_range'_1.mp hj
      rw [Mat.set_of_col_ne _ _ (Nat.ne_of_gt hrc), Mat.set_of_col_ne _ _ (Ne.symm hne),
        Mat.set_of_row_ne _ _ (Ne.symm hne), Mat.set_of_row_ne _ _ (Nat.ne_of_gt hrc)]
  · refine foldl_frame (fun A : Mat α => (A r c, A c r)) (fun j hj A => ?_) A
    have hij := List.mem_range'_1.mp hj
    by_cases hcol : c = i
    · have hjc : c ≠ j := by omega
      have hjr : r ≠ j := by omega
      rw [Mat.set_of_row_ne _ _ hjr, Mat.set_of_row_ne _ _ hjc, Mat.set_of_col_ne _ _ hjr, Mat.set_of_row_ne _ _ (Ne.symm hi)]
    · rw [Mat.set_of_col_ne _ _ hcol, Mat.set_of_row_ne _ _ (Ne.symm hi), Mat.set_of_col_ne _ _ (Ne.symm hi),
        Mat.set_of_row_ne _ _ hcol]

theorem transposeUpper_diag (K : ℕ) (A : Mat α) (i : ℕ) : transposeUpper K A i i = A i i := by
  refine foldl_frame (fun A : Mat α => A i i) (fun r _ A => foldl_frame (fun A : Mat α => A i i) (fun c hc A => ?_) A) A
  have hrc := List.mem_range'_1.mp hc
  by_cases hi : i = r
  · have hne : i ≠ c := by omega
    rw [Mat.set_of_row_ne _ _ hne, Mat.set_of_col_ne _ _ hne]
  · rw [Mat.set_of_col_ne _ _ hi, Mat.set_of_row_ne _ _ hi]

/-- The transposition of a lower factor is the upper factor. -/
theorem transposeUpper_factor [LinearOrder α] {A : Mat α} (hL : LowerFactor K A L) :
    UpperFactor K A (transposeUpper K L) := by
  have hentry : ∀ r < K, ∀ c < K, transposeUpper K L r c = L c r := by
    intro r hr c hc
    rcases Nat.lt_trichotomy r c with hlt | rfl | hgt
    · exact congrArg Prod.fst (transposeUpper_pair K L hlt hc)
    · exact transposeUpper_diag K L r
    · rw [hL.upper c hc r hr hgt]
      exact congrArg Prod.snd (transposeUpper_pair K L hgt hr)
  exact hL.transpose.congr hentry

end

end OrkDriver.Gptq
