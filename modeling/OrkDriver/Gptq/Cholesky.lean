import Mathlib.Analysis.Real.Sqrt
import OrkDriver.Gptq.Kernels
import OrkDriver.Lib.Triangular

/-!
What `chol_lower` leaves, the iterations of its row loops in a given order.
-/

namespace OrkDriver.Gptq

open OrkDriver.Lib Finset

/-! ### A loop over one row -/

section

variable {α : Type*} {g : Mat α → ℕ → α} {i : ℕ}

/-- A loop that stores one entry of row `i` in each iteration. -/
def setRow (g : Mat α → ℕ → α) (i : ℕ) (l : List ℕ) (A : Mat α) : Mat α := l.foldl (fun A j => A.set i j (g A j)) A

theorem setRow_of_row_ne (l : List ℕ) (A : Mat α) {r : ℕ} (h : r ≠ i) : setRow g i l A r = A r :=
  foldl_frame (fun A => A r) (fun j _ A => A.set_of_row_ne (g A j) h) A

theorem setRow_of_not_mem {l : List ℕ} (A : Mat α) {r c : ℕ} (h : c ∉ l) : setRow g i l A r c = A r c := by
  refine foldl_frame (fun A => A r c) (fun j hj A => A.set_of_col_ne (g A j) ?_) A
  rintro rfl
  exact h hj

theorem setRow_append (l m : List ℕ) (A : Mat α) : setRow g i (l ++ m) A = setRow g i m (setRow g i l A) :=
  List.foldl_append

/-- An iteration sees the entries of the iterations before it, and of the others what was there before the loop. -/
theorem setRow_seen {l pre post : List ℕ} {j : ℕ} (hl : l = pre ++ j :: post) (hnd : l.Nodup) (A : Mat α) (k : ℕ) :
    setRow g i pre A i k = if k ∈ pre then setRow g i l A i k else A i k := by
  by_cases hk : k ∈ pre
  · rw [hl] at hnd
    rw [if_pos hk, hl, setRow_append]
    exact (setRow_of_not_mem _ fun hmem => (List.nodup_append.mp hnd).2.2 k hk k hmem rfl).symm
  · rw [if_neg hk, setRow_of_not_mem A hk]

/-- What its own iteration stores stays. -/
theorem setRow_entry {l pre post : List ℕ} {j : ℕ} (hl : l = pre ++ j :: post) (hnd : l.Nodup) (A : Mat α) :
    setRow g i l A i j = g (setRow g i pre A) j := by
  rw [hl] at hnd ⊢
  have hpost : j ∉ post := (List.nodup_cons.mp (List.nodup_append.mp hnd).2.1).1
  rw [setRow_append]
  change setRow g i post ((setRow g i pre A).set i j _) i j = _
  rw [setRow_of_not_mem _ hpost, Mat.set_self]

end

/-! ### `chol_lower` -/

section

variable {α : Type*} [Field α]

theorem cholEntry_eq (A : Mat α) (i j : ℕ) : cholEntry A i j = (A i j - ∑ k ∈ range j, A i k * A j k) / A j j := by
  unfold cholEntry
  rw [subRest_lanes _ _ (Nat.zero_le j), range_eq_Ico]

theorem cholPivot_eq (A : Mat α) (i : ℕ) : cholPivot A i = A i i - ∑ k ∈ range i, A i k * A i k := by
  unfold cholPivot
  rw [subRest_lanes _ _ (Nat.zero_le i), range_eq_Ico]

theorem cholRow_eq (order : List ℕ) (i : ℕ) (A : Mat α) : cholRow order i A = setRow (fun A j => cholEntry A i j) i order A :=
  rfl

/-- Entry `j` of a row: the other entries of the row as iteration `j` finds them. -/
theorem cholRow_entry {order pre post : List ℕ} {i j : ℕ} (hl : order = pre ++ j :: post) (hnd : order.Nodup) (hj : j ≠ i)
    (A : Mat α) : cholRow order i A i j =
      (A i j - ∑ k ∈ range j, (if k ∈ pre then cholRow order i A i k else A i k) * A j k) / A j j := by
  have hjpre : j ∉ pre := by
    rw [hl] at hnd
    exact fun hmem => (List.nodup_append.mp hnd).2.2 j hmem j List.mem_cons_self rfl
  rw [cholRow_eq, setRow_entry hl hnd, cholEntry_eq, setRow_of_not_mem A hjpre, setRow_of_row_ne pre A hj]
  congr 2
  apply sum_congr rfl
  intro k _
  rw [setRow_seen hl hnd]

theorem cholRow_of_row_ne (order : List ℕ) {i r : ℕ} (A : Mat α) (h : r ≠ i) : cholRow order i A r = A r :=
  setRow_of_row_ne order A h

theorem cholRow_of_not_mem {order : List ℕ} {i c : ℕ} (A : Mat α) (h : c ∉ order) : cholRow order i A i c = A i c :=
  setRow_of_not_mem A h

theorem zeroUpper_lower (K : ℕ) (A : Mat α) {r c : ℕ} (h : c ≤ r) : zeroUpper K A r c = A r c := by
  refine foldl_frame (fun A => A r c) (fun i _ A => foldl_frame (fun A => A r c) (fun j hj A => ?_) A) A
  by_cases hr : r = i
  · have hne : c ≠ j := by
      have := List.mem_range'_1.mp hj
      omega
    exact A.set_of_col_ne 0 hne
  · exact congrFun (A.set_of_row_ne 0 hr) c

theorem zeroUpper_upper {K : ℕ} (A : Mat α) {r c : ℕ} (hr : r < K) (hrc : r < c) (hc : c < K) : zeroUpper K A r c = 0 := by
  refine foldl_of_mem (T := fun i => i = r) (fun A : Mat α => A r c) ⟨r, List.mem_range.mpr hr, rfl⟩ ?_ ?_ A
  · rintro i - rfl A
    refine foldl_of_mem (T := fun j => j = c) (fun A : Mat α => A i c) ⟨c, List.mem_range'_1.mpr (by omega), rfl⟩ ?_ ?_ A
    · rintro j - rfl A
      exact A.set_self i j 0
    · intro j _ hj A
      exact A.set_of_col_ne 0 (Ne.symm hj)
  · intro i _ hi A
    exact foldl_frame (fun A : Mat α => A r c) (fun j _ A => congrFun (A.set_of_row_ne 0 (Ne.symm hi)) c) A

variable [LinearOrder α] {sqrt : α → α} {row : ℕ → List ℕ} {K : ℕ} {A : Mat α}

theorem cholStep_some {A' : Mat α} {i : ℕ} (h : cholStep sqrt row A i = some A') :
    (∀ r, r ≠ i → A' r = A r) ∧ ∀ c, c ≠ i → A' i c = cholRow (rowOrder row i) i A i c := by
  unfold cholStep at h
  dsimp only at h
  split_ifs at h
  cases h
  constructor
  · intro r hr
    rw [Mat.set_of_row_ne _ _ hr, cholRow_of_row_ne _ _ hr]
  · intro c hc
    rw [Mat.set_of_col_ne _ _ hc]

theorem cholSteps_frame {l : List ℕ} {A' : Mat α} (h : l.foldlM (cholStep sqrt row) A = some A') {r : ℕ} (hr : r ∉ l) :
    A' r = A r := by
  induction l generalizing A with
  | nil =>
      cases h
      rfl
  | cons i l ih =>
      rw [List.foldlM_cons] at h
      obtain ⟨A1, h1, h⟩ := Option.bind_eq_some_iff.mp h
      rw [ih h fun hmem => hr (List.mem_cons_of_mem i hmem)]
      exact (cholStep_some h1).1 r fun heq => hr (heq ▸ List.mem_cons_self)

/-- The equations of row `i`, from the result of the whole: what iteration `j` takes for the entries before it. -/
theorem cholLower_entry {L : Mat α} (h : cholLower sqrt row K A = some L) {i j : ℕ} (hi : i < K) (hji : j < i)
    {pre post : List ℕ} (hl : rowOrder row i = pre ++ j :: post) (hperm : (rowOrder row i).Perm (List.range i)) :
    L i j = (A i j - ∑ k ∈ range j, (if k ∈ pre then L i k else A i k) * L j k) / L j j := by
  obtain ⟨C, hC, rfl⟩ := Option.map_eq_some_iff.mp h
  rw [range_split hi, List.foldlM_append] at hC
  obtain ⟨B, hB, hC⟩ := Option.bind_eq_some_iff.mp hC
  rw [List.foldlM_cons] at hC
  obtain ⟨B', hB', hC⟩ := Option.bind_eq_some_iff.mp hC
  obtain ⟨hother, hrow⟩ := cholStep_some hB'
  have hlast : ∀ r ≤ i, C r = B' r := fun r hr => cholSteps_frame hC fun hmem => by
    have := List.mem_range'_1.mp hmem
    omega
  have hBi : B i = A i := cholSteps_frame hB (by simp)
  have hLi : ∀ k < i, zeroUpper K C i k = cholRow (rowOrder row i) i B i k := by
    intro k hk
    rw [zeroUpper_lower K C hk.le, hlast i (Nat.le_refl i), hrow k (Nat.ne_of_lt hk)]
  have hLj : ∀ k ≤ j, zeroUpper K C j k = B j k := by
    intro k hk
    rw [zeroUpper_lower K C hk, hlast j hji.le, hother j (Nat.ne_of_lt hji)]
  rw [hLi j hji, hLj j (Nat.le_refl j), cholRow_entry hl (hperm.nodup_iff.mpr List.nodup_range) (Nat.ne_of_lt hji), hBi]
  congr 2
  apply sum_congr rfl
  intro k hk
  rw [mem_range] at hk
  rw [hLi k (hk.trans hji), hLj k hk.le]

/-- In ascending order the loop leaves the row of the factor. -/
theorem cholRow_factor {L B : Mat α} (hL : LowerFactor K A L) {i : ℕ} (hi : i < K)
    (hdone : ∀ r < i, ∀ c ≤ r, B r c = L r c) (htodo : B i = A i) :
    ∀ j < i, cholRow (List.range i) i B i j = L i j := by
  intro j
  induction j using Nat.strong_induction_on with
  | _ j ih =>
    intro hj
    rw [cholRow_entry (range_split hj) List.nodup_range (Nat.ne_of_lt hj), htodo, hdone j hj j (Nat.le_refl j),
      ← hL.entry hi (hj.trans hi)]
    congr 2
    apply sum_congr rfl
    intro k hk
    rw [mem_range] at hk
    rw [if_pos (List.mem_range.mpr hk), ih k hk (hk.trans hj), hdone j hj k hk.le]

theorem cholStep_factor {L B : Mat α} (hL : LowerFactor K A L) (hsqrt : ∀ x, 0 < x → sqrt (x * x) = x) {i : ℕ} (hi : i < K)
    (hord : rowOrder row i = List.range i) (hdone : ∀ r < i, ∀ c ≤ r, B r c = L r c) (htodo : ∀ r, i ≤ r → B r = A r)
    [IsStrictOrderedRing α] : ∃ B', cholStep sqrt row B i = some B' ∧ (∀ r < i + 1, ∀ c ≤ r, B' r c = L r c) ∧
      ∀ r, i + 1 ≤ r → B' r = A r := by
  have hrow := cholRow_factor hL hi hdone (htodo i (Nat.le_refl i))
  have hpivot : cholPivot (cholRow (rowOrder row i) i B) i = L i i * L i i := by
    rw [cholPivot_eq, hord, cholRow_of_not_mem B List.not_mem_range_self, htodo i (Nat.le_refl i), ← hL.pivot hi]
    congr 1
    apply sum_congr rfl
    intro k hk
    rw [hrow k (mem_range.mp hk)]
  have hpos : ¬ L i i * L i i ≤ 0 := not_le.mpr (mul_pos (hL.pos i hi) (hL.pos i hi))
  refine ⟨(cholRow (rowOrder row i) i B).set i i (L i i), ?_, ?_, ?_⟩
  · unfold cholStep
    dsimp only
    rw [hpivot, if_neg hpos, hsqrt _ (hL.pos i hi)]
  · intro r hr c hc
    rcases Nat.lt_succ_iff_lt_or_eq.mp hr with hlt | rfl
    · rw [Mat.set_of_row_ne _ _ (Nat.ne_of_lt hlt), cholRow_of_row_ne _ _ (Nat.ne_of_lt hlt), hdone r hlt c hc]
    · rcases Nat.lt_or_eq_of_le hc with hlt | rfl
      · rw [Mat.set_of_col_ne _ _ (Nat.ne_of_lt hlt), hord, hrow c hlt]
      · rw [Mat.set_self]
  · intro r hr
    rw [Mat.set_of_row_ne _ _ (Nat.ne_of_gt hr), cholRow_of_row_ne _ _ (Nat.ne_of_gt hr), htodo r (Nat.le_of_succ_le hr)]

/-- With ascending rows the kernel leaves the lower factor. -/
theorem cholLower_factor {L : Mat α} (hL : LowerFactor K A L) (hsqrt : ∀ x, 0 < x → sqrt (x * x) = x)
    (hord : ∀ i < K, rowOrder row i = List.range i) [IsStrictOrderedRing α] :
    ∃ L', cholLower sqrt row K A = some L' ∧ ∀ r < K, ∀ c < K, L' r c = L r c := by
  have hrun : ∀ i ≤ K, ∃ B, (List.range i).foldlM (cholStep sqrt row) A = some B ∧ (∀ r < i, ∀ c ≤ r, B r c = L r c) ∧
      ∀ r, i ≤ r → B r = A r := by
    intro i hi
    induction i with
    | zero => exact ⟨A, rfl, fun r hr => absurd hr (Nat.not_lt_zero r), fun _ _ => rfl⟩
    | succ i ih =>
        obtain ⟨B, hB, hdone, htodo⟩ := ih (Nat.le_of_succ_le hi)
        obtain ⟨B', hstep, hdone', htodo'⟩ := cholStep_factor hL hsqrt hi (hord i hi) hdone htodo
        refine ⟨B', ?_, hdone', htodo'⟩
        rw [List.range_succ, List.foldlM_append, hB]
        change (cholStep sqrt row B i).bind pure = _
        rw [hstep]
        rfl
  obtain ⟨B, hB, hdone, -⟩ := hrun K (Nat.le_refl K)
  refine ⟨zeroUpper K B, ?_, ?_⟩
  · unfold cholLower
    rw [hB, Option.map_some]
  · intro r hr c hc
    rcases Nat.lt_or_ge r c with hlt | hge
    · rw [zeroUpper_upper B hr hlt hc, hL.upper r hr c hc hlt]
    · rw [zeroUpper_lower K B hge, hdone r hr c hge]

end

end OrkDriver.Gptq
