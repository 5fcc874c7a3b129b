import OrkDriver.Gptq.Backfront

/-!
What the error feedback of `ork_i4_gptq` is worth: the weighted error of a row is the sum of its squared residuals.
-/

namespace OrkDriver.Gptq

open OrkDriver.Lib Finset

/-! ### The damped problem -/

section

variable {α : Type*} [Field α] [LinearOrder α]

/-- The Hessian that is factored, in the caller's basis. -/
def dampedH (lam : α) (H : Mat α) : Mat α := fun i j =>
  if i = j then if H i i ≤ 0 then 1 else H i i + lam else if H i i ≤ 0 ∨ H j j ≤ 0 then 0 else H i j

/-- The weights that are quantised: those of a dead input channel are gone. -/
def liveW (H W : Mat α) : Mat α := fun n c => if H c c ≤ 0 then 0 else W n c

omit [Field α] [LinearOrder α] in
theorem Mat.set_apply (A : Mat α) (i j : ℕ) (x : α) (r c : ℕ) : A.set i j x r c = if r = i ∧ c = j then x else A r c := by
  simp only [Mat.set, Function.update_apply]
  grind

omit [LinearOrder α] in
theorem clearCross (l : List ℕ) (A : Mat α) (i r c : ℕ) :
    l.foldl (fun A j => (A.set i j 0).set j i 0) A r c = if (r = i ∧ c ∈ l) ∨ (c = i ∧ r ∈ l) then 0 else A r c := by
  induction l generalizing A with
  | nil => simp
  | cons j l ih =>
      rw [List.foldl_cons, ih]
      simp only [Mat.set_apply, List.mem_cons]
      grind

omit [LinearOrder α] in
theorem clearColumn (l : List ℕ) (A : Mat α) (i r c : ℕ) :
    l.foldl (fun A n => A.set n i 0) A r c = if r ∈ l ∧ c = i then 0 else A r c := by
  induction l generalizing A with
  | nil => simp
  | cons n l ih =>
      rw [List.foldl_cons, ih]
      simp only [Mat.set_apply, List.mem_cons]
      grind

/-- What the loop over the diagonal has done after `m` iterations. -/
theorem dampSteps (A W : Mat α) (K N : ℕ) (lam : α) : ∀ m ≤ K,
    let p := (List.range m).foldl (dampStep K N lam) (A, W)
    (∀ i < K, ∀ j < K, p.1 i j = if i = j then if i < m then if A i i ≤ 0 then 1 else A i i + lam else A i i
      else if (i < m ∧ A i i ≤ 0) ∨ (j < m ∧ A j j ≤ 0) then 0 else A i j) ∧
      ∀ n < N, ∀ c < K, p.2 n c = if c < m ∧ A c c ≤ 0 then 0 else W n c := by
  intro m
  induction m with
  | zero =>
      refine fun _ => ⟨fun i _ j _ => ?_, fun n _ c _ => by simp⟩
      by_cases hij : i = j <;> simp [hij]
  | succ m ih =>
      intro hm
      obtain ⟨hH, hW⟩ := ih (Nat.le_of_succ_le hm)
      dsimp only
      rw [List.range_succ, List.foldl_append, List.foldl_cons, List.foldl_nil]
      generalize (List.range m).foldl (dampStep K N lam) (A, W) = p at hH hW
      have hdiag : p.1 m m = A m m := by rw [hH m hm m hm, if_pos rfl, if_neg (Nat.lt_irrefl m)]
      unfold dampStep
      rw [hdiag]
      by_cases hdead : A m m ≤ 0
      · rw [if_pos hdead]
        refine ⟨fun i hi j hj => ?_, fun n hn c hc => ?_⟩
        · dsimp only
          rw [Mat.set_apply, clearCross, hH i hi j hj]
          simp only [List.mem_range]
          clear hH hW ih hdiag
          grind
        · dsimp only
          rw [clearColumn, hW n hn c hc]
          simp only [List.mem_range]
          clear hH hW ih hdiag
          grind
      · rw [if_neg hdead]
        refine ⟨fun i hi j hj => ?_, fun n hn c hc => ?_⟩
        · dsimp only
          rw [Mat.set_apply, hH i hi j hj]
          clear hH hW ih hdiag
          grind
        · rw [hW n hn c hc]
          clear hH hW ih hdiag
          grind

/-- What is factored and quantised, in the basis of the sweep. -/
theorem prepare_eq (rev : Bool) (K N : ℕ) (W H : Mat α) (damp : α) :
    (∀ i < K, ∀ j < K, (prepare rev K N W H damp).1 i j =
      dampedH (damping K H damp) H (callers rev K i) (callers rev K j)) ∧
      ∀ n < N, ∀ c < K, (prepare rev K N W H damp).2 n c = liveW H W n (callers rev K c) := by
  have hcopy : ∀ i j, copyH rev K H i j = H (callers rev K i) (callers rev K j) := by
    intro i j
    cases rev <;> rfl
  have hcopyW : ∀ n c, copyW rev K W n c = W n (callers rev K c) := by
    intro n c
    cases rev <;> rfl
  obtain ⟨hH, hW⟩ := dampSteps (copyH rev K H) (copyW rev K W) K N (damping K H damp) K (Nat.le_refl K)
  refine ⟨fun i hi j hj => ?_, fun n hn c hc => ?_⟩
  · have hij : callers rev K i = callers rev K j ↔ i = j := ⟨callers_inj hi hj, congrArg _⟩
    refine (hH i hi j hj).trans ?_
    simp only [hcopy, dampedH, hi, hj, true_and, hij, if_true]
  · refine (hW n hn c hc).trans ?_
    simp only [hcopy, hcopyW, liveW, hc, true_and]

end

/-! ### The residuals of the sweep -/

section

variable {α : Type*} [Field α] [LinearOrder α] [FloorSemiring α] (ar : Arith α) (gr : ClipGrid α) (rev : Bool) (K N G : ℕ)
  (Hin Wd : Mat α) (scales0 : ℕ → α)

/-- The state before column `j`. -/
def sweepAt (j : ℕ) : Sweep α := (List.range j).foldl (colStep ar gr rev K N G Hin scales0) ⟨Wd, [], []⟩

/-- `err` of row `n` of column `j`. -/
def rowErr (j : ℕ) (st : Sweep α) (n : ℕ) : α :=
  let sc := stores scales0 st.scales (n * groups K G + callers rev (groups K G) (j / G))
  let w := st.Wd n j
  let q := clampCode (ar.lround (w / sc))
  (w - q * sc) / divisor Hin j

/-- `err` of row `n` of column `j`, as the sweep comes by. -/
def sweepErr (j n : ℕ) : α :=
  rowErr ar rev K G Hin scales0 j
    ((List.range n).foldl (rowStep ar rev K G Hin scales0 j)
      (scaleStep ar gr rev K N G (sweepAt ar gr rev K N G Hin Wd scales0 j) j)) n

variable {ar gr rev K N G Hin Wd scales0}

theorem scaleStep_sweepAt (hK : 0 < K) (hG : 0 < G) (j : ℕ) :
    let st := scaleStep ar gr rev K N G (sweepAt ar gr rev K N G Hin Wd scales0 j) j
    st.Wd = (columns ar gr K N G Hin Wd j).1 ∧
      ∀ n < N, stores scales0 st.scales (n * groups K G + callers rev (groups K G) (j / G)) =
        scaleAt ar gr K N G Hin Wd j n := by
  dsimp only
  refine ⟨?_, fun n hn => ?_⟩
  · rw [← (@sweep_run α _ _ _ ar gr K N G Hin Wd rev scales0 hK hG j).1]
    unfold scaleStep
    split_ifs <;> rfl
  · have hread := (@sweep_run α _ _ _ ar gr K N G Hin Wd rev scales0 hK hG (j + 1)).2.2.2 n hn (Nat.succ_pos j)
    rw [Nat.add_sub_cancel] at hread
    refine Eq.trans ?_ hread
    rw [List.range_succ, List.foldl_append, List.foldl_cons, List.foldl_nil]
    have hframe : ∀ (l : List ℕ) (st : Sweep α), (l.foldl (rowStep ar rev K G Hin scales0 j) st).scales = st.scales := by
      intro l st
      refine foldl_frame (fun st : Sweep α => st.scales) (fun n _ st => ?_) st
      rfl
    rw [colStep, hframe]
    rfl

theorem sweepErr_eq (hK : 0 < K) (hG : 0 < G) (j : ℕ) {n : ℕ} (hn : n < N) :
    sweepErr ar gr rev K N G Hin Wd scales0 j n =
      errOf ar Hin j (scaleAt ar gr K N G Hin Wd j n) ((columns ar gr K N G Hin Wd j).1 n j) := by
  obtain ⟨hW, hsc⟩ := @scaleStep_sweepAt α _ _ _ ar gr rev K N G Hin Wd scales0 hK hG j
  unfold sweepErr
  rw [rows_run fun m hm => hsc m (hm.trans hn)]
  unfold rowErr
  dsimp only
  rw [hsc n hn, if_neg (by omega), hW]
  rfl

/-- What the columns before `j` have taken from a column behind them. -/
theorem columns_live {n : ℕ} (hn : n < N) (j : ℕ) : ∀ c, j ≤ c → c < K → (columns ar gr K N G Hin Wd j).1 n c =
    Wd n c - ∑ i ∈ range j,
      errOf ar Hin i (scaleAt ar gr K N G Hin Wd i n) ((columns ar gr K N G Hin Wd i).1 n i) * Hin i c := by
  induction j with
  | zero =>
      intro c _ _
      rw [sum_range_zero, sub_zero]
      rfl
  | succ j ih =>
      intro c hjc hc
      have hin : n < N ∧ j < c ∧ c < K := ⟨hn, hjc, hc⟩
      rw [sum_range_succ, ← sub_sub, ← ih c (Nat.le_of_succ_le hjc) hc, columns_succ, nextColumn]
      dsimp only
      rw [if_pos hin, scaleAt_eq]

/-- The scale of a group stays in use until its end. -/
theorem scaleAt_group (hG : 0 < G) (j n : ℕ) :
    scaleAt ar gr K N G Hin Wd j n = scaleAt ar gr K N G Hin Wd (j / G * G) n := by
  have hrun : ∀ g t, t < G → scaleAt ar gr K N G Hin Wd (g * G + t) n = scaleAt ar gr K N G Hin Wd (g * G) n := by
    intro g t
    induction t with
    | zero => exact fun _ => rfl
    | succ t ih =>
        intro ht
        have hmod : (g * G + (t + 1)) % G ≠ 0 := by
          rw [Nat.mul_comm, Nat.mul_add_mod, Nat.mod_eq_of_lt ht]
          exact Nat.succ_ne_zero t
        rw [scaleAt_eq, scalesAt, if_neg hmod]
        exact ih (Nat.lt_of_succ_lt ht)
  conv_lhs => rw [← Nat.div_add_mod' j G]
  exact hrun _ _ (Nat.mod_lt j hG)

theorem clampCode_range (q : ℤ) : -8 ≤ clampCode q ∧ clampCode q ≤ 7 := by
  unfold clampCode
  dsimp only
  split_ifs <;> omega

/-! ### The scale of a group -/

omit [FloorSemiring α] in
theorem absMax_congr {row row' : ℕ → α} {j j1 : ℕ} (h : ∀ c, j ≤ c → c < j1 → row c = row' c) :
    absMax row j j1 = absMax row' j j1 := by
  apply List.foldl_ext
  intro mx c hc
  have hmem := List.mem_range'_1.mp hc
  rw [h c hmem.1 (by omega)]

omit [LinearOrder α] [FloorSemiring α] in
theorem clipError_congr {row row' : ℕ → α} {j j1 : ℕ} (h : ∀ c, j ≤ c → c < j1 → row c = row' c) (s2 : α) :
    clipError ar row j j1 s2 = clipError ar row' j j1 s2 := by
  apply List.foldl_ext
  intro e c hc
  have hmem := List.mem_range'_1.mp hc
  rw [h c hmem.1 (by omega)]

/-- The search looks at the columns of its group only. -/
theorem groupScale_congr {row row' : ℕ → α} {j j1 : ℕ} (h : ∀ c, j ≤ c → c < j1 → row c = row' c) :
    groupScale ar gr row j j1 = groupScale ar gr row' j j1 := by
  have hloop : ∀ fuel t best be bt,
      clipLoop ar gr row j j1 fuel t best be bt = clipLoop ar gr row' j j1 fuel t best be bt := by
    intro fuel
    induction fuel with
    | zero => exact fun _ _ _ _ => rfl
    | succ fuel ih =>
        intro t best be bt
        simp only [clipLoop, absMax_congr h, clipError_congr h, ih]
  unfold groupScale plainScale
  rw [absMax_congr h, hloop]

section

variable [IsStrictOrderedRing α]

omit [FloorSemiring α] in
theorem clipError_nonneg (row : ℕ → α) (j j1 : ℕ) (s2 : α) : 0 ≤ clipError ar row j j1 s2 := by
  have hfold : ∀ (l : List ℕ) (e : α), 0 ≤ e → 0 ≤ l.foldl (fun e c =>
      let dd := row c - clampCode (ar.lround (row c / s2)) * s2
      e + dd * dd) e := by
    intro l
    induction l with
    | nil => exact fun _ he => he
    | cons c l ih => exact fun e he => ih _ (add_nonneg he (mul_self_nonneg _))
  exact hfold _ 0 le_rfl

omit [FloorSemiring α] in
/-- A search that holds a scale and its error never gives a worse one. -/
theorem clipLoop_le (row : ℕ → α) (j j1 fuel : ℕ) : ∀ t best bt,
    clipError ar row j j1 (clipLoop ar gr row j j1 fuel t best (clipError ar row j j1 best) bt) ≤
      clipError ar row j j1 best := by
  induction fuel with
  | zero => exact fun _ _ _ => le_rfl
  | succ fuel ih =>
      intro t best bt
      unfold clipLoop
      dsimp only
      split_ifs with hmin hdepth hzero hbetter hslack
      · exact le_rfl
      · exact le_rfl
      · exact ih _ _ _
      · have hlt := hbetter.resolve_left (not_lt.mpr (clipError_nonneg row j j1 best))
        exact (ih _ _ _).trans hlt.le
      · exact le_rfl
      · exact ih _ _ _

omit [FloorSemiring α] [IsStrictOrderedRing α] in
/-- Where the group is all zeros the search finds nothing. -/
theorem clipLoop_zero {row : ℕ → α} {j j1 : ℕ} (hrow : ∀ a : α, a * absMax row j j1 / 7 ≤ 0) (fuel : ℕ) :
    ∀ t best be bt, clipLoop ar gr row j j1 fuel t best be bt = best := by
  induction fuel with
  | zero => exact fun _ _ _ _ => rfl
  | succ fuel ih =>
      intro t best be bt
      unfold clipLoop
      dsimp only
      rw [if_pos (hrow _), ih]
      split_ifs <;> rfl

omit [FloorSemiring α] in
theorem absMax_nonneg (row : ℕ → α) (j j1 : ℕ) : 0 ≤ absMax row j j1 := by
  have hfold : ∀ (l : List ℕ) (mx : α), 0 ≤ mx → 0 ≤ l.foldl (fun mx c => if mx < |row c| then |row c| else mx) mx := by
    intro l
    induction l with
    | nil => exact fun _ hmx => hmx
    | cons c l ih =>
        intro mx hmx
        apply ih
        dsimp only
        split_ifs
        · exact abs_nonneg _
        · exact hmx
  exact hfold _ 0 le_rfl

/-- The search never does worse than the scale of the largest weight. -/
theorem groupScale_le (row : ℕ → α) (j j1 : ℕ) :
    clipError ar row j j1 (groupScale ar gr row j j1) ≤ clipError ar row j j1 (plainScale row j j1) := by
  unfold groupScale
  split_ifs with hclip
  · rcases (absMax_nonneg row j j1).eq_or_lt with hzero | hpos
    · rw [clipLoop_zero fun a => by rw [← hzero, mul_zero, zero_div]]
    · have hplain : plainScale row j j1 = absMax row j j1 / 7 := if_neg (not_le.mpr (div_pos hpos (by norm_num)))
      have hfirst : 1 - gr.clipStep * ((0 : ℕ) : α) = 1 := by rw [Nat.cast_zero, mul_zero, sub_zero]
      rw [clipLoop]
      dsimp only
      rw [hfirst, if_neg (not_le.mpr gr.clipMin_ok.2), if_neg (by omega), one_mul, ← hplain, if_neg, if_pos]
      · exact clipLoop_le row j j1 _ _ _ _
      · exact Or.inl (by norm_num)
      · rw [hplain]
        exact not_le.mpr (div_pos hpos (by norm_num))
  · exact le_rfl

end

end

/-! ### The two bases -/

section

/-- A column and its group change to the caller's basis together. -/
theorem callers_group {backfront : Bool} {K G : ℕ} (hG : 0 < G) {j : ℕ} (hj : j < K) :
    callers (reverses backfront K G) (groups K G) (j / G) = callers (reverses backfront K G) K j / G := by
  cases hrev : reverses backfront K G with
  | false => rfl
  | true =>
      have htile : groups K G = 1 ∨ K % G = 0 := by
        unfold reverses at hrev
        simpa using (Bool.and_eq_true_iff.mp hrev).2
      have hgroup := group_lt hG hj
      have hback : K - 1 - j < K := by omega
      have hgroup' := group_lt hG hback
      rw [callers, callers, if_pos rfl, if_pos rfl]
      rcases htile with hone | hmod
      · rw [hone] at hgroup hgroup' ⊢
        rw [Nat.lt_one_iff.mp hgroup, Nat.lt_one_iff.mp hgroup']
      · obtain ⟨m, rfl⟩ := Nat.dvd_of_mod_eq_zero hmod
        have hgroups : groups (G * m) G = m := by
          unfold groups
          rw [Nat.add_sub_assoc hG, Nat.mul_add_div hG, Nat.div_eq_of_lt (Nat.sub_lt hG Nat.one_pos), Nat.add_zero]
        rw [hgroups] at hgroup ⊢
        have hdm := Nat.div_add_mod j G
        have hmodlt := Nat.mod_lt j hG
        obtain ⟨t, ht⟩ : ∃ t, m = j / G + 1 + t := ⟨m - (j / G + 1), by omega⟩
        have hexp : G * m = G * (j / G) + G + G * t := by rw [ht, Nat.mul_add, Nat.mul_add, Nat.mul_one]
        have hsplit : G * m - 1 - j = G * t + (G - 1 - j % G) := by omega
        have hsmall : G - 1 - j % G < G := by omega
        rw [hsplit, Nat.mul_add_div hG, Nat.div_eq_of_lt hsmall]
        omega

theorem sum_callers {α : Type*} [AddCommMonoid α] (rev : Bool) (K : ℕ) (f : ℕ → α) :
    ∑ j ∈ range K, f (callers rev K j) = ∑ j ∈ range K, f j := by
  cases rev with
  | false => rfl
  | true => exact sum_range_reflect f K

theorem posDef_callers {K : ℕ} {A : Mat ℝ} (hA : (square K A).PosDef) (rev : Bool) :
    (square K fun i j => A (callers rev K i) (callers rev K j)).PosDef := by
  have hinj : Function.Injective fun i : Fin K => (⟨callers rev K i, callers_lt i.isLt⟩ : Fin K) := by
    intro i j hij
    exact Fin.ext (callers_inj i.isLt j.isLt (congrArg Fin.val hij))
  exact hA.submatrix hinj

end

/-! ### The identity -/

section

variable {ar : Arith ℝ} {K : ℕ} {s : Schedule K}

/-- The factorisation of a positive definite matrix succeeds, and is the upper factor of its inverse. -/
theorem factor_posDef (hsqrt : ar.sqrt = Real.sqrt) (hs : Ascending s) {Hd : Mat ℝ} (hHd : (square K Hd).PosDef) :
    ∃ Hin B, factor ar false s Hd = some Hin ∧ square K B = (square K Hd)⁻¹ ∧ UpperFactor K B Hin := by
  have hright := hs.factorsRight
  obtain ⟨L, hlower, hL, -⟩ := hright.lower Hd hHd
  have hinv := (hright.inverse Hd L hHd hL fun _ _ => 0).1
  obtain ⟨U, hupper, hU, -⟩ := hright.upper (invFromChol s.solve s.mul K L fun _ _ => 0) (hinv ▸ hHd.inv)
  refine ⟨U, _, ?_, hinv, hU⟩
  unfold factor
  rw [if_neg Bool.false_ne_true, hsqrt, hlower]
  exact hupper

variable {gr : ClipGrid ℝ} {N G : ℕ} {Hin B Wd : Mat ℝ}

/-- What is left of a weight after its code: the residuals so far, through the rows of the factor. -/
theorem left_eq (hU : UpperFactor K B Hin) {n c : ℕ} (hn : n < N) (hc : c < K) :
    Wd n c - codeAt ar gr K N G Hin Wd c n * scaleAt ar gr K N G Hin Wd c n = ∑ i ∈ range K,
      errOf ar Hin i (scaleAt ar gr K N G Hin Wd i n) ((columns ar gr K N G Hin Wd i).1 n i) * Hin i c := by
  have hlive := @columns_live ℝ _ _ _ ar gr K N G Hin Wd n hn c c (Nat.le_refl c) hc
  have hdiv : divisor Hin c = Hin c c := if_neg (hU.pos c hc).ne'
  have hlast : errOf ar Hin c (scaleAt ar gr K N G Hin Wd c n) ((columns ar gr K N G Hin Wd c).1 n c) * Hin c c =
      (columns ar gr K N G Hin Wd c).1 n c - codeAt ar gr K N G Hin Wd c n * scaleAt ar gr K N G Hin Wd c n := by
    rw [errOf, hdiv, div_mul_cancel₀ _ (hU.pos c hc).ne']
    rfl
  have hcut : ∑ i ∈ range K,
      errOf ar Hin i (scaleAt ar gr K N G Hin Wd i n) ((columns ar gr K N G Hin Wd i).1 n i) * Hin i c =
        ∑ i ∈ range (c + 1),
          errOf ar Hin i (scaleAt ar gr K N G Hin Wd i n) ((columns ar gr K N G Hin Wd i).1 n i) * Hin i c := by
    refine (sum_subset (range_mono hc) fun i hi hic => ?_).symm
    rw [hU.lower i (mem_range.mp hi) c hc (by simpa using hic), mul_zero]
  rw [hcut, sum_range_succ, hlast, hlive]
  ring

/-- A diagonal Hessian feeds nothing back. -/
theorem columns_diagonal (hdiag : ∀ i < K, ∀ j < K, i ≠ j → Hin i j = 0) {n : ℕ} (hn : n < N) {j c : ℕ} (hjc : j ≤ c)
    (hc : c < K) : (columns ar gr K N G Hin Wd j).1 n c = Wd n c := by
  rw [columns_live hn j c hjc hc, sum_eq_zero, sub_zero]
  intro i hi
  have hij := mem_range.mp hi
  rw [hdiag i (by omega) c hc (by omega), mul_zero]

end

/-- Arithmetic on the real numbers, and the variables as they are when none is set. -/
noncomputable def exactArith : Arith ℝ := ⟨Real.sqrt, fun x => round x, id, fun _ _ => none⟩

theorem defaultSlack_ok : 0 < 4 ∧ 4 ≤ 32 := by decide

theorem defaultStep_ok : 0 < (1 / 32 : ℝ) ∧ (1 / 32 : ℝ) < 1 / 5 := by norm_num

theorem defaultMin_ok : 0 < (0.1 : ℝ) ∧ (0.1 : ℝ) < 1 := by norm_num

noncomputable def defaultKnobs : Knobs ℝ :=
  ⟨false, false, ⟨true, 0, 4, 1 / 32, 0.1, Or.inl rfl, defaultSlack_ok, defaultStep_ok, defaultMin_ok⟩⟩

theorem damping_pos {α : Type*} [Field α] [LinearOrder α] [IsStrictOrderedRing α] (K : ℕ) (H : Mat α) (damp : α) :
    0 < damping K H damp := by
  unfold damping
  dsimp only
  split_ifs with h
  · positivity
  · exact not_le.mp h

theorem dampedH_identity (K : ℕ) (damp : ℝ) :
    (square K (dampedH (damping K (fun i j => if i = j then 1 else 0) damp) fun i j => if i = j then 1 else 0)).PosDef := by
  have hdiag : square K (dampedH (damping K (fun i j => if i = j then 1 else 0) damp) fun i j => if i = j then 1 else 0) =
      Matrix.diagonal fun _ => 1 + damping K (fun i j => if i = j then (1 : ℝ) else 0) damp := by
    ext i j
    rw [square_apply, Matrix.diagonal_apply, dampedH]
    simp only [← Fin.ext_iff, if_true]
    split_ifs with hij h0 h0
    · norm_num at h0
    · rfl
    · rfl
    · rfl
  rw [hdiag]
  exact Matrix.PosDef.diagonal fun _ => add_pos one_pos (damping_pos K _ damp)

end OrkDriver.Gptq
