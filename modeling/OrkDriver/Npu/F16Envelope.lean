import OrkDriver.Npu.F16Tile

/-!
The fp16 envelope in closed form: which heights are legal, and the cap with `ORK_F16_MTILE` unset.
-/

namespace OrkDriver.Npu

/-- What `orki_f16_mc_ok` asks of a split into `b.1` data banks and `b.2` weight banks. -/
theorem mcOk_iff {K N h : Nat} {sched : Bool} {b : Nat × Nat} (hb : f16BankSplit K h sched = b) (hK : 1 ≤ K)
    (hN : 1 ≤ N) (h1 : 1 ≤ h) : orkiF16McOk K N sched h = true ↔
      h * K * 2 ≤ b.1 * 32768 ∧ b.1 + min ((K * N * 2 + 32767) / 32768) b.2 ≤ 12 := by
  unfold orkiF16McOk
  rw [if_neg (by omega), hb, decide_eq_true_iff]
  split_ifs <;> omega

/-- Without the schedule the activations have one bank and the weight the rest. -/
theorem mcOk_general_iff {K N h : Nat} (hK : 1 ≤ K) (hN : 1 ≤ N) (h1 : 1 ≤ h) :
    orkiF16McOk K N false h = true ↔ h * K * 2 ≤ 32768 := by
  rw [mcOk_iff (b := (1, 11)) (by simp [f16BankSplit]) hK hN h1]
  dsimp only
  omega

/-- The split is chosen for whole groups of 64 rows. -/
theorem f16BankSplit_group {K h g : Nat} (hg : (h + 63) / 64 = g + 1) :
    f16BankSplit K h true = f16BankSplit K (64 * (g + 1)) true := by
  have hfull : (64 * (g + 1) + 63) / 64 = g + 1 := by omega
  unfold f16BankSplit
  rw [hg, hfull]

/-- Where the encoding walks the split a bank at a time, every height up to the measured cap is legal. -/
theorem mcOk_of_le_mcap {K N h : Nat} (hK : K = 256 ∨ K = 512 ∨ K = 1024) (hN : 1 ≤ N) (h1 : 1 ≤ h)
    (hle : h ≤ 180224 / K) : orkiF16McOk K N true h = true := by
  have htable : ∀ K ∈ [256, 512, 1024], ∀ g < 11, g * 64 < 180224 / K →
      (f16BankSplit K (64 * (g + 1)) true).1 + (f16BankSplit K (64 * (g + 1)) true).2 = 12 ∧
        min (64 * (g + 1)) (180224 / K) * K * 2 ≤ (f16BankSplit K (64 * (g + 1)) true).1 * 32768 := by decide
  obtain ⟨g, hg⟩ : ∃ g, (h + 63) / 64 = g + 1 := ⟨(h + 63) / 64 - 1, by omega⟩
  have hcap : 180224 / K ≤ 704 := by rcases hK with rfl | rfl | rfl <;> decide
  obtain ⟨hsum, hdata⟩ := htable K (by simpa using hK) g (by omega) (by omega)
  have hrows : h * K * 2 ≤ min (64 * (g + 1)) (180224 / K) * K * 2 := by
    apply Nat.mul_le_mul_right
    apply Nat.mul_le_mul_right
    omega
  rw [mcOk_iff (f16BankSplit_group hg) (by omega) hN h1]
  omega

/-- At `K = 128` the encoding cannot say half a bank, and the weight window can run off the last bank. -/
def Starved (N h : Nat) : Prop :=
  h ≤ 64 ∧ 512 < N ∨ (128 < h ∧ h ≤ 192) ∧ 256 < N ∨ 192 < h ∧ 1152 < N

instance (N h : Nat) : Decidable (Starved N h) := inferInstanceAs (Decidable (_ ∨ _))

theorem mcOk_128_iff {N h : Nat} (hN : 1 ≤ N) (h1 : 1 ≤ h) (hle : h ≤ 256) :
    orkiF16McOk 128 N true h = true ↔ ¬ Starved N h := by
  have htable : ∀ g < 4, f16BankSplit 128 (64 * (g + 1)) true = [(8, 11), (1, 11), (10, 10), (3, 10)].getD g (0, 0) := by
    decide
  obtain ⟨g, hg⟩ : ∃ g, (h + 63) / 64 = g + 1 := ⟨(h + 63) / 64 - 1, by omega⟩
  have hg4 : g < 4 := by omega
  rw [mcOk_iff ((f16BankSplit_group hg).trans (htable g hg4)) (by omega) hN h1]
  unfold Starved
  match g with
  | 0 => simp only [List.getD_cons_zero]; omega
  | 1 => simp only [List.getD_cons_succ, List.getD_cons_zero]; omega
  | 2 => simp only [List.getD_cons_succ, List.getD_cons_zero]; omega
  | 3 => simp only [List.getD_cons_succ, List.getD_cons_zero]; omega

/-! ### The cap -/

theorem narrown_le_mcap (e : F16Knobs) (K : Nat) (sched : Bool) (N : Nat) :
    f16McapNarrown e K sched N ≤ orkiF16Mcap e K sched := by
  unfold f16McapNarrown
  dsimp only
  repeat' split
  all_goals omega

theorem mcapN_pos (e : F16Knobs) (K : Nat) (sched : Bool) (N : Nat) : 1 ≤ orkiF16McapN e K sched N :=
  lowerTo_pos (f16McapNarrown_pos e K sched N)

section

variable {e : F16Knobs} (he : e.mtile ≤ 0)
include he

theorem mcapN_le_sched {K N : Nat} (hK : K = 256 ∨ K = 512 ∨ K = 1024) : orkiF16McapN e K true N ≤ 180224 / K := by
  have hcap : orkiF16Mcap e K true = 180224 / K := by
    unfold orkiF16Mcap
    dsimp only
    rw [if_neg (Int.not_lt.mpr he)]
    rcases hK with rfl | rfl | rfl <;> decide
  exact (lowerTo_le _ _).trans ((narrown_le_mcap e K true N).trans hcap.le)

theorem mcap_general {K : Nat} (hK : 1 ≤ K) : orkiF16Mcap e K false = max 1 (16384 / K) := by
  unfold orkiF16Mcap
  dsimp only
  rw [if_neg (Int.not_lt.mpr he), if_neg (Nat.not_lt.mpr hK), if_pos (Bool.not_false)]
  generalize 16384 / K = q
  split_ifs <;> omega

theorem narrown_128 (N : Nat) : f16McapNarrown e 128 true N = 256 := by
  have hcap : orkiF16Mcap e 128 true = 256 := by
    unfold orkiF16Mcap
    dsimp only
    rw [if_neg (Int.not_lt.mpr he)]
    decide
  have hmg : ((List.range 16).takeWhile fun i =>
      decide ((0x20 : Int) ≤ schedBase 256 128 - schedSlope 256 128 * i)).length = 16 := by decide
  unfold f16McapNarrown
  rw [hcap]
  dsimp only
  rw [hmg]
  repeat' split
  all_goals omega

theorem mcapN_128 {N : Nat} (hN : 1 ≤ N) : orkiF16McapN e 128 true N = if N ≤ 1152 then 256 else 128 := by
  have hlegal : ∀ h, 1 ≤ h → h ≤ 256 → (orkiF16McOk 128 N true h = true ↔ ¬ Starved N h) :=
    fun h h1 hle => mcOk_128_iff hN h1 hle
  have hpos := mcapN_pos e 128 true N
  unfold orkiF16McapN at hpos ⊢
  rw [narrown_128 he] at hpos ⊢
  have hle := lowerTo_le (orkiF16McOk 128 N true) 256
  have h128 : 128 ≤ lowerTo (orkiF16McOk 128 N true) 256 := by
    apply le_lowerTo _ (by decide)
    rw [hlegal 128 (by decide) (by decide)]
    unfold Starved
    omega
  have hstop : ¬ Starved N (lowerTo (orkiF16McOk 128 N true) 256) := by
    rcases lowerTo_ok (orkiF16McOk 128 N true) 256 with hok | hone
    · exact (hlegal _ hpos hle).mp hok
    · omega
  split_ifs with hN
  · have h256 : 256 ≤ lowerTo (orkiF16McOk 128 N true) 256 := by
      apply le_lowerTo _ (Nat.le_refl 256)
      rw [hlegal 256 (by decide) (by decide)]
      unfold Starved
      omega
    omega
  · unfold Starved at hstop
    omega

/-- The cap of a weight that would leave its own bank window too small. -/
def narrowCap (K : Nat) : Nat := if K = 1024 then 128 else if K = 512 then 320 else 640

theorem narrown_sched {K N : Nat} (hK : K = 256 ∨ K = 512 ∨ K = 1024) (hN : 1 ≤ N) :
    f16McapNarrown e K true N = if 131072 < K * N * 2 then 180224 / K else narrowCap K := by
  have hcap : orkiF16Mcap e K true = 180224 / K := by
    unfold orkiF16Mcap
    dsimp only
    rw [if_neg (Int.not_lt.mpr he)]
    rcases hK with rfl | rfl | rfl <;> decide
  have hgroups : ∀ K ∈ [256, 512, 1024], 1 ≤ schedSlope 256 K ∧ ((List.range 16).takeWhile fun i =>
      decide ((0x20 : Int) ≤ schedBase 256 K - schedSlope 256 K * i)).length * 64 = narrowCap K ∧
        narrowCap K < 180224 / K := by decide
  obtain ⟨hslope, hmg, hlt⟩ := hgroups K (by simpa using hK)
  have hpos : 0 < narrowCap K := by
    unfold narrowCap
    split_ifs <;> decide
  unfold f16McapNarrown
  rw [hcap]
  dsimp only
  rw [if_neg (by simp; omega)]
  by_cases hwide : 131072 < K * N * 2
  · rw [if_pos hwide, if_pos hwide]
  · rw [if_neg hwide, if_neg hwide, if_neg (by omega), if_neg (by omega), hmg, if_pos hlt]

end

/-! ### Rows -/

/-- The rows of a slice fit programs as high as they may be: the height of the first is legal, and of the rest. -/
def RowsFit (e : F16Knobs) (K N M : Nat) : Prop :=
  LegalHeight e K N (min M (orkiF16McapN e K (orkiF16Sched K) N)) ∧
    (M % orkiF16McapN e K (orkiF16Sched K) N = 0 ∨ LegalHeight e K N (M % orkiF16McapN e K (orkiF16Sched K) N))

/-- Rows that fit are cut where `orki_f16_mtile_n` cuts them. -/
theorem RowsFit.mtile_eq {e : F16Knobs} {K N M : Nat} (h : RowsFit e K N M) :
    orkiF16MtileN e K M N = min M (orkiF16McapN e K (orkiF16Sched K) N) := by
  have htile : TilesRows e K N M (min M (orkiF16McapN e K (orkiF16Sched K) N)) := by
    refine ⟨h.1, ?_⟩
    rcases Nat.lt_or_ge M (orkiF16McapN e K (orkiF16Sched K) N) with hlt | hge
    · rw [Nat.min_eq_left hlt.le]
      exact .inl (Nat.mod_self M)
    · rw [Nat.min_eq_right hge]
      exact h.2
  rcases orkiF16MtileN_largest e K N M with ⟨-, hnone⟩ | ⟨⟨-, hle⟩, hruns, hmax⟩
  · exact absurd htile (hnone _ (Nat.min_le_left _ _))
  · have hcap := ((legalHeight_iff e K N _).mp hruns.1).2
    exact Nat.le_antisymm (Nat.le_min.mpr ⟨hle, hcap⟩) (hmax _ (Nat.min_le_left _ _) htile)

theorem rowsFit_of_legal {e : F16Knobs} {K N M : Nat} (hM : 0 < M)
    (h : ∀ t, 1 ≤ t → t ≤ orkiF16McapN e K (orkiF16Sched K) N → orkiF16McOk K N (orkiF16Sched K) t = true) :
    RowsFit e K N M := by
  have hcap := mcapN_pos e K (orkiF16Sched K) N
  have hlegal : ∀ t, 1 ≤ t → t ≤ orkiF16McapN e K (orkiF16Sched K) N → LegalHeight e K N t :=
    fun t h1 hle => (legalHeight_iff e K N t).mpr ⟨h t h1 hle, hle⟩
  refine ⟨hlegal _ (Nat.le_min.mpr ⟨hM, hcap⟩) (Nat.min_le_right _ _), ?_⟩
  exact (Nat.eq_zero_or_pos _).imp_right fun hpos => hlegal _ hpos (Nat.mod_lt M hcap).le

end OrkDriver.Npu
