import OrkDriver.Gptq.Sweep

/-!
The sweep of `ork_i4_gptq` without its arrays of results: the weights and the scales of the current group column by column,
and what is stored to the codes and the scales.
-/

namespace OrkDriver.Gptq

open OrkDriver.Lib Finset

section

variable {α : Type*} [Field α] [LinearOrder α] [FloorSemiring α] (ar : Arith α) (gr : ClipGrid α) (K N G : ℕ) (Hin Wd : Mat α)

/-- `q`. -/
def codeOf (sc w : α) : ℤ := clampCode (ar.lround (w / sc))

/-- `err`. -/
def errOf (Hin : Mat α) (j : ℕ) (sc w : α) : α := (w - codeOf ar sc w * sc) / divisor Hin j

/-- The end of the group that starts at `j`. -/
def groupEnd (K G j : ℕ) : ℕ := if K < j + G then K else j + G

/-- The scales in use at column `j`. -/
def scalesAt (p : Mat α × (ℕ → α)) (j : ℕ) : ℕ → α :=
  if j % G = 0 then fun n => ar.f32 (groupScale ar gr (p.1 n) j (groupEnd K G j)) else p.2

/-- One column: the scales, and the residuals pushed into the columns behind it. -/
def nextColumn (p : Mat α × (ℕ → α)) (j : ℕ) : Mat α × (ℕ → α) :=
  (fun n c => if n < N ∧ j < c ∧ c < K then p.1 n c - errOf ar Hin j (scalesAt ar gr K G p j n) (p.1 n j) * Hin j c
    else p.1 n c, scalesAt ar gr K G p j)

/-- After the columns before `j`. -/
def columns (j : ℕ) : Mat α × (ℕ → α) := (List.range j).foldl (nextColumn ar gr K N G Hin) (Wd, fun _ => 0)

/-- The scale of row `n` at column `j`. -/
def scaleAt (j n : ℕ) : α := (columns ar gr K N G Hin Wd (j + 1)).2 n

/-- The code of row `n` at column `j`. -/
def codeAt (j n : ℕ) : ℤ := codeOf ar (scaleAt ar gr K N G Hin Wd j n) ((columns ar gr K N G Hin Wd j).1 n j)

/-- The stores to the codes of column `j`. -/
def codeStores (rev : Bool) (j : ℕ) : List (ℕ × ℤ) :=
  (List.range N).map fun n => (n * K + callers rev K j, codeAt ar gr K N G Hin Wd j n)

/-- The stores to the scales at column `j`. -/
def scaleStores (rev : Bool) (j : ℕ) : List (ℕ × α) :=
  if j % G = 0 then (List.range N).map fun n =>
    (n * groups K G + callers rev (groups K G) (j / G), scaleAt ar gr K N G Hin Wd j n) else []

variable {ar gr K N G Hin Wd}

theorem columns_succ (j : ℕ) : columns ar gr K N G Hin Wd (j + 1) =
    nextColumn ar gr K N G Hin (columns ar gr K N G Hin Wd j) j := by
  unfold columns
  rw [List.range_succ, List.foldl_append, List.foldl_cons, List.foldl_nil]

theorem scaleAt_eq (j : ℕ) : scaleAt ar gr K N G Hin Wd j = scalesAt ar gr K G (columns ar gr K N G Hin Wd j) j := by
  funext n
  unfold scaleAt
  rw [columns_succ]
  rfl

omit [LinearOrder α] [FloorSemiring α] in
/-- The loop over `c` of one row. -/
theorem pushed (A : Mat α) (n j : ℕ) (err : α) :
    (List.range' (j + 1) (K - (j + 1))).foldl (fun A c => A.set n c (A n c - err * Hin j c)) A =
      fun r c => if r = n ∧ j < c ∧ c < K then A n c - err * Hin j c else A r c := by
  funext r c
  by_cases h : r = n ∧ j < c ∧ c < K
  · obtain ⟨rfl, hjc, hcK⟩ := h
    rw [if_pos ⟨rfl, hjc, hcK⟩]
    refine foldl_once (fun A : Mat α => A r c) (g := fun x => x - err * Hin j c) List.nodup_range'
      (List.mem_range'_1.mpr (show j + 1 ≤ c ∧ c < j + 1 + (K - (j + 1)) by omega)) (fun A => ?_) (fun u _ hu A => ?_) A
    · exact A.set_self r c _
    · exact A.set_of_col_ne _ (Ne.symm hu)
  · rw [if_neg h]
    refine foldl_frame (fun A : Mat α => A r c) (fun u hu A => ?_) A
    have hmem := List.mem_range'_1.mp hu
    by_cases hr : r = n
    · exact A.set_of_col_ne _ (by rintro rfl; exact h ⟨hr, by omega⟩)
    · exact congrFun (A.set_of_row_ne _ hr) c

omit [FloorSemiring α] in
/-- The rows of one column are independent of each other. -/
theorem rows_run {rev : Bool} {scales0 : ℕ → α} {st : Sweep α} {j : ℕ} {sc : ℕ → α}
    (hsc : ∀ n < N, stores scales0 st.scales (n * groups K G + callers rev (groups K G) (j / G)) = sc n) :
    (List.range N).foldl (rowStep ar rev K G Hin scales0 j) st =
      ⟨fun n c => if n < N ∧ j < c ∧ c < K then st.Wd n c - errOf ar Hin j (sc n) (st.Wd n j) * Hin j c else st.Wd n c,
        st.codes ++ (List.range N).map fun n => (n * K + callers rev K j, codeOf ar (sc n) (st.Wd n j)), st.scales⟩ := by
  have hrun : ∀ m ≤ N, (List.range m).foldl (rowStep ar rev K G Hin scales0 j) st =
      ⟨fun n c => if n < m ∧ j < c ∧ c < K then st.Wd n c - errOf ar Hin j (sc n) (st.Wd n j) * Hin j c else st.Wd n c,
        st.codes ++ (List.range m).map fun n => (n * K + callers rev K j, codeOf ar (sc n) (st.Wd n j)), st.scales⟩ := by
    intro m hm
    induction m with
    | zero => simp
    | succ m ih =>
        rw [List.range_succ, List.foldl_append, ih (Nat.le_of_succ_le hm), List.foldl_cons, List.foldl_nil, List.map_append,
          ← List.append_assoc]
        unfold rowStep
        dsimp only
        rw [hsc m hm, pushed, if_neg (show ¬ (m < m ∧ j < j ∧ j < K) by omega)]
        congr 1
        funext n c
        by_cases hn : n = m
        · subst hn
          have hout : ¬ (n < n ∧ j < c ∧ c < K) := fun h => Nat.lt_irrefl n h.1
          by_cases hc : j < c ∧ c < K
          · have hin : n < n + 1 ∧ j < c ∧ c < K := ⟨Nat.lt_succ_self n, hc⟩
            rw [if_pos ⟨rfl, hc⟩, if_neg hout, if_pos hin]
            rfl
          · rw [if_neg fun h => hc h.2, if_neg hout, if_neg fun h => hc h.2]
        · rw [if_neg fun h => hn h.1]
          exact if_congr (by omega) rfl rfl
  exact hrun N (Nat.le_refl N)

theorem groups_pos (hK : 0 < K) (hG : 0 < G) : 0 < groups K G := Nat.div_pos (by omega) hG

/-- The scales of a group are read back as they were stored. -/
theorem scaleStores_read {rev : Bool} {j n : ℕ} (hng : 0 < groups K G) (hj : j % G = 0) (hn : n < N) (m : ℕ → α) :
    stores m (scaleStores ar gr K N G Hin Wd rev j) (n * groups K G + callers rev (groups K G) (j / G)) =
      scaleAt ar gr K N G Hin Wd j n := by
  unfold scaleStores
  rw [if_pos hj]
  apply stores.of_mem
  · exact ⟨_, List.mem_map_of_mem (List.mem_range.mpr hn), rfl⟩
  · intro w hw heq
    obtain ⟨u, -, rfl⟩ := List.mem_map.mp hw
    rw [Nat.eq_of_mul_eq_mul_right hng (Nat.add_right_cancel heq)]

/-- What the sweep has done after `m` columns. -/
theorem sweep_run (rev : Bool) (scales0 : ℕ → α) (hK : 0 < K) (hG : 0 < G) (m : ℕ) :
    let st := (List.range m).foldl (colStep ar gr rev K N G Hin scales0) ⟨Wd, [], []⟩
    st.Wd = (columns ar gr K N G Hin Wd m).1 ∧
      st.codes = (List.range m).flatMap (codeStores ar gr K N G Hin Wd rev) ∧
      st.scales = (List.range m).flatMap (scaleStores ar gr K N G Hin Wd rev) ∧
      ∀ n < N, 0 < m → stores scales0 st.scales (n * groups K G + callers rev (groups K G) ((m - 1) / G)) =
        (columns ar gr K N G Hin Wd m).2 n := by
  have hng := groups_pos hK hG
  induction m with
  | zero => exact ⟨rfl, rfl, rfl, fun n _ h => absurd h (Nat.lt_irrefl 0)⟩
  | succ m ih =>
      obtain ⟨hW, hcodes, hscales, hread⟩ := ih
      rw [List.range_succ, List.foldl_append, List.foldl_cons, List.foldl_nil]
      generalize (List.range m).foldl (colStep ar gr rev K N G Hin scales0) ⟨Wd, [], []⟩ = st at hW hcodes hscales hread
      have hstep : scaleStep ar gr rev K N G st m =
          ⟨st.Wd, st.codes, st.scales ++ scaleStores ar gr K N G Hin Wd rev m⟩ := by
        unfold scaleStep scaleStores
        by_cases hm : m % G = 0
        · rw [if_pos hm, if_pos hm]
          congr 2
          apply List.map_congr_left
          intro n _
          rw [scaleAt_eq, scalesAt, if_pos hm, hW]
          rfl
        · rw [if_neg hm, if_neg hm, List.append_nil]
      have hnew : ∀ n < N, stores scales0 (st.scales ++ scaleStores ar gr K N G Hin Wd rev m)
          (n * groups K G + callers rev (groups K G) (m / G)) = scaleAt ar gr K N G Hin Wd m n := by
        intro n hn
        by_cases hm : m % G = 0
        · rw [stores.append, scaleStores_read hng hm hn]
        · have hpos : 0 < m := Nat.pos_of_ne_zero fun h0 => hm (h0 ▸ Nat.zero_mod G)
          have hgroup : (m - 1) / G = m / G := by
            have hlt := Nat.mod_lt m hG
            have hdm := Nat.div_add_mod m G
            have hsplit : m - 1 = G * (m / G) + (m % G - 1) := by omega
            have hsmall : m % G - 1 < G := by omega
            rw [hsplit, Nat.mul_add_div hG, Nat.div_eq_of_lt hsmall, Nat.add_zero]
          have hold := hread n hn hpos
          rw [hgroup] at hold
          rw [scaleStores, if_neg hm, List.append_nil, hold, scaleAt_eq, scalesAt, if_neg hm]
      unfold colStep
      rw [hstep, rows_run hnew]
      refine ⟨?_, ?_, ?_, fun n hn _ => ?_⟩
      · rw [columns_succ, nextColumn, ← scaleAt_eq, ← hW]
      · rw [List.flatMap_append, List.flatMap_singleton, ← hcodes]
        unfold codeStores codeAt
        rw [hW]
      · rw [List.flatMap_append, List.flatMap_singleton, ← hscales]
      · exact hnew n hn

end

end OrkDriver.Gptq
