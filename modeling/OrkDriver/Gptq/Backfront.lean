import OrkDriver.Gptq.Columns

/-!
Back-to-front mode (`ORK_GPTQ_BACKFRONT`) is forward mode in the reversed basis.
-/

namespace OrkDriver.Gptq

open OrkDriver.Lib Finset

/-! ### The caller's basis -/

theorem callers_lt {rev : Bool} {n j : ℕ} (h : j < n) : callers rev n j < n := by
  unfold callers
  split_ifs <;> omega

theorem callers_inj {rev : Bool} {n i j : ℕ} (hi : i < n) (hj : j < n) (h : callers rev n i = callers rev n j) : i = j := by
  unfold callers at h
  split_ifs at h <;> omega

theorem callers_callers {n j : ℕ} (h : j < n) : callers true n (n - 1 - j) = j := by
  unfold callers
  rw [if_pos rfl]
  omega

theorem callers_perm (rev : Bool) (n : ℕ) : ((List.range n).map (callers rev n)).Perm (List.range n) := by
  cases rev with
  | false =>
      have hid : callers false n = id := rfl
      rw [hid, List.map_id]
  | true =>
      have hrev : (List.range n).map (callers true n) = (List.range n).reverse := by
        rw [List.range_eq_range', List.reverse_range', ← List.range_eq_range', List.map_inj_left]
        intro j _
        rw [Nat.zero_add]
        rfl
      rw [hrev]
      exact List.reverse_perm _

/-- A slot for each row and column, or row and group, in whichever basis. -/
theorem slots_perm (rev : Bool) (N m : ℕ) : ((List.range m).flatMap fun j =>
    (List.range N).map fun n => n * m + callers rev m j).Perm (List.range (N * m)) := by
  have hswap : ((List.range m).flatMap fun j => (List.range N).map fun n => n * m + callers rev m j).Perm
      ((List.range N).flatMap fun n => (List.range m).map fun j => n * m + callers rev m j) := by
    have hperm := flatMap_flatMap_perm (List.range m) (List.range N) fun j n => [n * m + callers rev m j]
    simpa only [← List.map_eq_flatMap] using hperm
  refine hswap.trans ?_
  have hrow : ∀ n ∈ List.range N, ((List.range m).map fun j => n * m + callers rev m j).Perm
      ((List.range m).map fun j => n * m + j) := by
    intro n _
    have hmap := (callers_perm rev m).map fun j => n * m + j
    rwa [List.map_map] at hmap
  refine (List.Perm.flatMap_left _ hrow).trans ?_
  rw [flatMap_range_map]
  simp only [Nat.div_add_mod', List.map_id']
  exact .refl _

section

variable {α : Type*} [Field α] [LinearOrder α] [FloorSemiring α] {ar : Arith α} {gr : ClipGrid α} {kn : Knobs α} {K N G : ℕ}
  {Hin Wd : Mat α}

/-! ### Where the results are -/

theorem group_lt (hG : 0 < G) {j : ℕ} (hj : j < K) : j / G < groups K G := div_lt_pieces hG hj

theorem group_start_lt (hG : 0 < G) {g : ℕ} (hg : g < groups K G) : g * G < K := (lt_pieces_iff hG).mp hg

/-- The code of row `n` and column `j` is in its slot. -/
theorem codes_at (rev : Bool) (m : ℕ → ℤ) {j n : ℕ} (hj : j < K) (hn : n < N) :
    stores m ((List.range K).flatMap (codeStores ar gr K N G Hin Wd rev)) (n * K + callers rev K j) =
      codeAt ar gr K N G Hin Wd j n := by
  apply stores.of_mem
  · exact ⟨_, List.mem_flatMap.mpr ⟨j, List.mem_range.mpr hj, List.mem_map_of_mem (List.mem_range.mpr hn)⟩, rfl⟩
  · intro w hw heq
    obtain ⟨i, hi, hw⟩ := List.mem_flatMap.mp hw
    obtain ⟨u, -, rfl⟩ := List.mem_map.mp hw
    have hi := List.mem_range.mp hi
    obtain ⟨rfl, hcol⟩ := digits_inj (callers_lt hi) (callers_lt hj) heq
    rw [callers_inj hi hj hcol]

/-- The scale of row `n` and group `g` is in its slot. -/
theorem scales_at (rev : Bool) (m : ℕ → α) (hG : 0 < G) {g n : ℕ} (hg : g < groups K G) (hn : n < N) :
    stores m ((List.range K).flatMap (scaleStores ar gr K N G Hin Wd rev)) (n * groups K G + callers rev (groups K G) g) =
      scaleAt ar gr K N G Hin Wd (g * G) n := by
  apply stores.of_mem
  · refine ⟨(_, scaleAt ar gr K N G Hin Wd (g * G) n), List.mem_flatMap.mpr
      ⟨g * G, List.mem_range.mpr (group_start_lt hG hg), ?_⟩, rfl⟩
    unfold scaleStores
    rw [if_pos (Nat.mul_mod_left g G), Nat.mul_div_cancel g hG]
    exact List.mem_map_of_mem (List.mem_range.mpr hn)
  · intro w hw heq
    obtain ⟨i, hi, hw⟩ := List.mem_flatMap.mp hw
    unfold scaleStores at hw
    split_ifs at hw with hstart
    · obtain ⟨u, -, rfl⟩ := List.mem_map.mp hw
      have hi := group_lt hG (List.mem_range.mp hi)
      obtain ⟨rfl, hgroup⟩ := digits_inj (callers_lt hi) (callers_lt hg) heq
      rw [← callers_inj hi hg hgroup, Nat.div_mul_cancel (Nat.dvd_of_mod_eq_zero hstart)]
    · cases hw

theorem groups_succ (hG : 0 < G) (K : ℕ) : groups (K + 1) G = groups K G + if K % G = 0 then 1 else 0 := by
  have hmod := Nat.mod_lt K hG
  have hdm := Nat.div_add_mod K G
  have hnext : groups (K + 1) G = K / G + 1 := by
    unfold groups
    rw [Nat.add_right_comm, Nat.add_sub_cancel, Nat.add_div_right K hG]
  rw [hnext]
  unfold groups
  split_ifs with h0
  · have hK : K + G - 1 = G * (K / G) + (G - 1) := by omega
    rw [hK, Nat.mul_add_div hG, Nat.div_eq_of_lt (Nat.sub_lt hG Nat.one_pos), Nat.add_zero]
  · have hK : K + G - 1 = G * (K / G + 1) + (K % G - 1) := by
      rw [Nat.mul_add]
      omega
    have hsmall : K % G - 1 < G := by omega
    rw [hK, Nat.mul_add_div hG, Nat.div_eq_of_lt hsmall]

/-- The columns that start a group, group by group. -/
theorem flatMap_starts {β : Type*} (hG : 0 < G) (h : ℕ → List β) (K : ℕ) :
    ((List.range K).flatMap fun j => if j % G = 0 then h (j / G) else []) = (List.range (groups K G)).flatMap h := by
  induction K with
  | zero =>
      have h0 : groups 0 G = 0 := by
        unfold groups
        rw [Nat.zero_add, Nat.div_eq_of_lt (Nat.sub_lt hG Nat.one_pos)]
      rw [h0]
      rfl
  | succ K ih =>
      rw [List.range_succ, List.flatMap_append, ih, List.flatMap_singleton, groups_succ hG]
      split_ifs with hK
      · have hgroup : groups K G = K / G := by
          have hnext := groups_succ hG K
          rw [if_pos hK] at hnext
          unfold groups at hnext ⊢
          rw [Nat.add_right_comm, Nat.add_sub_cancel, Nat.add_div_right K hG] at hnext
          omega
        rw [List.range_succ, List.flatMap_append, List.flatMap_singleton, hgroup]
      · rw [List.append_nil, Nat.add_zero]

/-- Every slot of the codes and of the scales is stored to exactly once. -/
theorem slots_once (rev : Bool) (hG : 0 < G) :
    (((List.range K).flatMap (codeStores ar gr K N G Hin Wd rev)).map Prod.fst).Perm (List.range (N * K)) ∧
      (((List.range K).flatMap (scaleStores ar gr K N G Hin Wd rev)).map Prod.fst).Perm
        (List.range (N * groups K G)) := by
  constructor
  · rw [List.map_flatMap]
    unfold codeStores
    simp only [List.map_map, Function.comp_def]
    exact slots_perm rev N K
  · have hstarts : ((List.range K).flatMap (scaleStores ar gr K N G Hin Wd rev)).map Prod.fst =
        (List.range (groups K G)).flatMap fun g => (List.range N).map fun n =>
          n * groups K G + callers rev (groups K G) g := by
      rw [← flatMap_starts hG, List.map_flatMap]
      apply List.flatMap_congr
      intro j _
      unfold scaleStores
      split_ifs
      · rw [List.map_map]
        rfl
      · rfl
    rw [hstarts]
    exact slots_perm rev N (groups K G)

/-! ### The two modes -/

/-- The columns in reverse. -/
def reverseColumns (K : ℕ) (W : Mat α) : Mat α := fun n c => W n (K - 1 - c)

/-- Rows and columns in reverse. -/
def reverseBoth (K : ℕ) (H : Mat α) : Mat α := fun i j => H (K - 1 - i) (K - 1 - j)

/-- Back-to-front mode, the other variables as they are. -/
def Knobs.backToFront (kn : Knobs α) : Knobs α := { kn with backfront := true }

/-- Forward mode, the other variables as they are. -/
def Knobs.forward (kn : Knobs α) : Knobs α := { kn with backfront := false }

omit [FloorSemiring α] in
theorem damping_reverse (K : ℕ) (H : Mat α) (damp : α) : damping K (reverseBoth K H) damp = damping K H damp := by
  have hsum : ∀ f : ℕ → α, (List.range K).foldl (fun s i => s + f i) 0 = ∑ i ∈ range K, f i := by
    intro f
    induction K with
    | zero => rfl
    | succ K ih => rw [List.range_succ, List.foldl_append, ih, List.foldl_cons, List.foldl_nil, sum_range_succ]
  unfold damping
  rw [hsum, hsum]
  unfold reverseBoth
  rw [sum_range_reflect fun i => H i i]

omit [FloorSemiring α] in
theorem prepare_reverse (K N : ℕ) (W H : Mat α) (damp : α) :
    prepare true K N W H damp = prepare false K N (reverseColumns K W) (reverseBoth K H) damp := by
  unfold prepare
  rw [damping_reverse]
  rfl

theorem groupSize_pos {group : ℤ} (hK : 0 < K) : 0 < groupSize K group := by
  unfold groupSize
  split_ifs <;> omega

/-- A call on a weight that is not empty: the stores of the sweep, or nothing. -/
theorem gptqRun_eq (hK : 0 < K) (hN : 0 < N) (s : Schedule K) (W H : Mat α) (group : ℤ) (damp : α) (scales0 : ℕ → α) :
    let rev := reverses kn.backfront K (groupSize K group)
    let p := prepare rev K N W H damp
    (factor ar kn.fp32 s p.1 = none → gptqRun ar kn s N W H group damp scales0 = .error (-3)) ∧
      ∀ Hin, factor ar kn.fp32 s p.1 = some Hin → ∃ Wd, gptqRun ar kn s N W H group damp scales0 =
        .ok ⟨Wd, (List.range K).flatMap (codeStores ar kn.grid K N (groupSize K group) Hin p.2 rev),
          (List.range K).flatMap (scaleStores ar kn.grid K N (groupSize K group) Hin p.2 rev)⟩ := by
  dsimp only
  unfold gptqRun
  rw [if_neg (by omega)]
  dsimp only
  refine ⟨fun hnone => by rw [hnone], fun Hin hsome => ?_⟩
  rw [hsome]
  obtain ⟨-, hcodes, hscales, -⟩ := @sweep_run α _ _ _ ar kn.grid K N (groupSize K group) Hin
    (prepare (reverses kn.backfront K (groupSize K group)) K N W H damp).2
    (reverses kn.backfront K (groupSize K group)) scales0 hK (groupSize_pos hK) K
  exact ⟨_, congrArg Except.ok (by rw [← hcodes, ← hscales])⟩

/-- Every slot of the codes and of the scales is stored to exactly once by a run that returns 0. -/
theorem gptqRun_once {s : Schedule K} {W H : Mat α} {group : ℤ} {damp : α} {scales0 : ℕ → α} {st : Sweep α}
    (h : gptqRun ar kn s N W H group damp scales0 = .ok st) : (st.codes.map Prod.fst).Perm (List.range (N * K)) ∧
      (st.scales.map Prod.fst).Perm (List.range (N * groups K (groupSize K group))) := by
  by_cases hdims : K = 0 ∨ N = 0
  · unfold gptqRun at h
    rw [if_pos hdims] at h
    cases h
  · have hK : 0 < K := by omega
    obtain ⟨hnone, hsome⟩ := @gptqRun_eq α _ _ _ ar kn K N hK (by omega) s W H group damp scales0
    cases hfactor : factor ar kn.fp32 s (prepare (reverses kn.backfront K (groupSize K group)) K N W H damp).1 with
    | none =>
        rw [hnone hfactor] at h
        cases h
    | some Hin =>
        obtain ⟨Wd, hrun⟩ := hsome Hin hfactor
        rw [hrun] at h
        cases h
        exact slots_once _ (groupSize_pos hK)

theorem reverses_of_tiles {G : ℕ} (h : groups K G = 1 ∨ K % G = 0) : reverses true K G = true := by
  unfold reverses
  simpa using h

theorem not_reverses_of_ragged {G : ℕ} (h : ¬ (groups K G = 1 ∨ K % G = 0)) : reverses true K G = false := by
  unfold reverses
  simpa using h

end

end OrkDriver.Gptq
