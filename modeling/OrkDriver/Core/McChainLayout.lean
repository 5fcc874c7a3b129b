import OrkDriver.Core.DynLayout
import OrkDriver.Core.McChain

/-!
The chains of `orki_dyn_begin_mc_impl`: every op's programs lie where the sizing loops made room for them, and apart from
all others.
-/

namespace OrkDriver.Core

open OrkDriver.Lib OrkDriver.Npu OrkDriver.Pack OrkDriver.Run

variable {R : Type*} {c : OrkNpu} {w : OrkW R} {M m n ks : Nat} {direct : Bool}

/-! ### One op -/

/-- The programs of an op, in the order they are written. -/
def opEmits (c : OrkNpu) (w : OrkW R) (M : Nat) (direct : Bool) : List Emit :=
  if 4096 < w.K then (List.range w.Sk).map (ksplitEmit c w M)
  else if 64 < M then (mtileOp w M).emits
  else (nsliceOp c w M direct).emits

/-- They are those of the handle, but for where the activations of a K-slice are staged. -/
theorem opEmits_output {t : DynTask R} :
    (opEmits c t.w t.M direct).map Emit.output = (mcOp c t direct).emits.map Emit.output := by
  unfold opEmits mcOp
  split
  · simp only [ksplitOp, List.map_map]
    rfl
  · split <;> rfl

theorem opEmits_length (c : OrkNpu) (w : OrkW R) (M : Nat) (direct : Bool) : (opEmits c w M direct).length = mcCount w M := by
  unfold opEmits mcCount
  split
  · rw [List.length_map, List.length_range]
  · split
    · simp only [mtileOp, List.length_map, List.length_range]
    · simp only [nsliceOp, List.length_map, List.length_range]

/-- Where an op puts K-slice `ks` of element `(m, n)`: partial after partial, N-slice after N-slice for several rows, and
row by row otherwise. -/
def opCell (c : OrkNpu) (w : OrkW R) (M ks m n : Nat) : Nat :=
  if 4096 < w.K then ks * M * w.N + m * w.N + n
  else if scat w M = true ∧ M ≤ 64 then
    M * (n / c.soc.nmax * c.soc.nmax) + m * pieceLen w.N c.soc.nmax (n / c.soc.nmax) + (n - n / c.soc.nmax * c.soc.nmax)
  else m * w.N + n

/-- An N-slice of several rows ends where the next one starts, or before. -/
theorem slice_end_le (hnmax : 0 < c.soc.nmax) {n' : Nat} (hn : n < w.N) (hm : m < M)
    (hlt : n / c.soc.nmax < n' / c.soc.nmax) :
    M * (n / c.soc.nmax * c.soc.nmax) + m * pieceLen w.N c.soc.nmax (n / c.soc.nmax) + (n - n / c.soc.nmax * c.soc.nmax) <
      M * (n' / c.soc.nmax * c.soc.nmax) := by
  have hin := (mem_piece_iff hnmax hn).mpr rfl
  have hle : pieceLen w.N c.soc.nmax (n / c.soc.nmax) ≤ c.soc.nmax := pieceLen_le_size
  have hstart : n / c.soc.nmax * c.soc.nmax + c.soc.nmax ≤ n' / c.soc.nmax * c.soc.nmax := by
    rw [← Nat.succ_mul]
    exact Nat.mul_le_mul_right _ hlt
  have hrow : m * pieceLen w.N c.soc.nmax (n / c.soc.nmax) + (n - n / c.soc.nmax * c.soc.nmax) <
      M * pieceLen w.N c.soc.nmax (n / c.soc.nmax) := digits_lt hm (by omega)
  calc _ = M * (n / c.soc.nmax * c.soc.nmax) +
        (m * pieceLen w.N c.soc.nmax (n / c.soc.nmax) + (n - n / c.soc.nmax * c.soc.nmax)) := Nat.add_assoc _ _ _
    _ < M * (n / c.soc.nmax * c.soc.nmax) + M * pieceLen w.N c.soc.nmax (n / c.soc.nmax) := Nat.add_lt_add_left hrow _
    _ ≤ M * (n / c.soc.nmax * c.soc.nmax + c.soc.nmax) := by
        rw [Nat.mul_add]
        exact Nat.add_le_add_left (Nat.mul_le_mul_left M hle) _
    _ ≤ M * (n' / c.soc.nmax * c.soc.nmax) := Nat.mul_le_mul_left M hstart

/-- The cells of an op are its own, one for each element and partial. -/
theorem opCell_inj (hnmax : 0 < c.soc.nmax) {ks' m' n' : Nat} (hks : ks < mcSlices w) (hks' : ks' < mcSlices w) (hm : m < M)
    (hm' : m' < M) (hn : n < w.N) (hn' : n' < w.N) (h : opCell c w M ks m n = opCell c w M ks' m' n') :
    ks = ks' ∧ m = m' ∧ n = n' := by
  unfold opCell at h
  unfold mcSlices at hks hks'
  by_cases hK : 4096 < w.K
  · rw [if_pos hK, if_pos hK, Nat.mul_assoc, Nat.mul_assoc, Nat.add_assoc, Nat.add_assoc] at h
    obtain ⟨rfl, hrow⟩ := digits_inj (digits_lt hm hn) (digits_lt hm' hn') h
    obtain ⟨rfl, rfl⟩ := digits_inj hn hn' hrow
    exact ⟨rfl, rfl, rfl⟩
  · rw [if_neg hK] at hks hks'
    have hks0 : ks = ks' := by omega
    rw [if_neg hK, if_neg hK] at h
    by_cases hscat : scat w M = true ∧ M ≤ 64
    · rw [if_pos hscat, if_pos hscat] at h
      have hslice : n / c.soc.nmax = n' / c.soc.nmax := by
        rcases Nat.lt_trichotomy (n / c.soc.nmax) (n' / c.soc.nmax) with hlt | heq | hlt
        · have := slice_end_le (m := m) hnmax hn hm hlt
          omega
        · exact heq
        · have := slice_end_le (m := m') hnmax hn' hm' hlt
          omega
      have hin := (mem_piece_iff hnmax hn).mpr rfl
      have hin' := (mem_piece_iff hnmax hn').mpr rfl
      rw [← hslice, Nat.add_assoc, Nat.add_assoc] at h
      rw [← hslice] at hin'
      obtain ⟨rfl, hcol⟩ := digits_inj (by omega) (by omega) (Nat.add_left_cancel h)
      exact ⟨hks0, rfl, by omega⟩
    · rw [if_neg hscat, if_neg hscat] at h
      obtain ⟨rfl, rfl⟩ := digits_inj hn hn' h
      exact ⟨hks0, rfl, rfl⟩

/-- They fill what the sizing counts. -/
theorem opCell_lt (hnmax : 0 < c.soc.nmax) (hks : ks < mcSlices w) (hm : m < M) (hn : n < w.N) :
    opCell c w M ks m n < mcSlices w * M * w.N := by
  unfold opCell
  unfold mcSlices at hks ⊢
  by_cases hK : 4096 < w.K
  · rw [if_pos hK] at hks ⊢
    rw [if_pos hK, ← Nat.add_mul]
    exact digits_lt (digits_lt hks hm) hn
  · rw [if_neg hK] at hks ⊢
    rw [if_neg hK, Nat.one_mul]
    split
    · have hin := (mem_piece_iff hnmax hn).mpr rfl
      have hend : n / c.soc.nmax * c.soc.nmax + pieceLen w.N c.soc.nmax (n / c.soc.nmax) ≤ w.N :=
        piece_le hnmax (div_lt_pieces hnmax hn)
      have hrow : m * pieceLen w.N c.soc.nmax (n / c.soc.nmax) + (n - n / c.soc.nmax * c.soc.nmax) <
          M * pieceLen w.N c.soc.nmax (n / c.soc.nmax) := digits_lt hm (by omega)
      have hmul := Nat.mul_le_mul_left M hend
      rw [Nat.mul_add] at hmul
      omega
    · exact digits_lt hm hn

/-- What a program of an op is for, and where it puts it. -/
theorem opEmits_spec {t0 t : DynTask R} (hw : Resident c t.w) (ht : mcAccepts c t0 t) {e : Emit}
    (he : e ∈ opEmits c t.w t.M direct) :
    (e.ks < mcSlices t.w ∧ e.m0 + e.p.mc ≤ t.M ∧ e.n0 + e.p.Nc ≤ t.w.N) ∧
      ∀ ks m n, e.Covers ks m n → e.cell m n = opCell c t.w t.M ks m n := by
  obtain ⟨⟨-, hM⟩, hwide, hSn, -, hdeep, -, -, -⟩ := ht
  unfold opEmits at he
  unfold opCell mcSlices
  by_cases hK : 4096 < t.w.K
  · simp only [if_pos hK] at he ⊢
    obtain ⟨ks, hks, rfl⟩ := List.mem_map.mp he
    refine ⟨⟨List.mem_range.mp hks, Nat.le_of_eq (Nat.zero_add _), Nat.le_of_eq (Nat.zero_add _)⟩, ?_⟩
    rintro _ m n ⟨rfl, -, -⟩
    simp only [Emit.cell, ksplitEmit, orkiI8Synth, Nat.lt_irrefl, if_false, Nat.sub_zero]
  · simp only [if_neg hK] at he ⊢
    by_cases h64 : 64 < t.M
    · have hno : ¬ (scat t.w t.M = true ∧ t.M ≤ 64) := fun h => by omega
      simp only [if_pos h64] at he
      simp only [if_neg hno]
      obtain ⟨i, hi, rfl⟩ := List.mem_map.mp he
      have hend := piece_le (orkiMtileCap_pos t.w.K) (List.mem_range.mp hi)
      refine ⟨⟨Nat.one_pos, hend, Nat.le_of_eq (Nat.zero_add _)⟩, ?_⟩
      rintro _ m n ⟨rfl, hrow, -⟩
      have := @row_cell 0 _ m t.w.N n hrow.1
      simp only [Emit.cell, orkiI8Synth, Nat.lt_irrefl, if_false, Nat.sub_zero]
      rwa [Nat.zero_add, Nat.zero_add] at this
    · simp only [if_neg h64] at he
      obtain ⟨ns, hns, rfl⟩ := List.mem_map.mp he
      have hns' : ns < pieces t.w.N c.soc.nmax := by
        rw [← hw.Sn_eq]
        exact List.mem_range.mp hns
      have hend := piece_le hw.nmax_pos hns'
      refine ⟨⟨Nat.one_pos, ?_, ?_⟩, ?_⟩
      · dsimp only
        split <;> exact Nat.le_of_eq (Nat.zero_add _)
      · dsimp only
        split <;> exact hend
      · rintro _ m n ⟨rfl, hrow, hcol⟩
        have hNc : n < ns * c.soc.nmax + pieceLen t.w.N c.soc.nmax ns := by
          dsimp only at hcol
          split at hcol <;> exact hcol.2
        have hslice := (mem_piece_iff hw.nmax_pos (by omega)).mp ⟨hcol.1, hNc⟩
        have hm1 : m < t.M := by
          dsimp only at hrow
          split at hrow <;> exact Nat.lt_of_lt_of_eq hrow.2 (Nat.zero_add _)
        by_cases hscat : scat t.w t.M = true
        · have hi8 : t.w.dt ≠ .f16 := by
            intro hdt
            obtain ⟨h1, -⟩ := of_decide_eq_true hscat
            rcases hSn with h | h
            · omega
            · rw [h] at hdt
              cases hdt
          simp only [Emit.cell, orkiI8Synth, if_neg hi8, hscat, if_true, Nat.lt_irrefl, if_false, Nat.sub_zero,
            if_pos (show True ∧ t.M ≤ 64 from ⟨trivial, by omega⟩), ← hslice]
        · have hno : ¬ (scat t.w t.M = true ∧ t.M ≤ 64) := fun h => hscat h.1
          simp only [if_neg hno]
          by_cases hSn1 : 1 < t.w.Sn
          · have hM1 : ¬ 1 < t.M := fun h => hscat (decide_eq_true ⟨hSn1, h⟩)
            have hi8 : t.w.dt ≠ .f16 := by
              intro hdt
              rcases hSn with h | h
              · omega
              · rw [h] at hdt
                cases hdt
            have hm0 : m = 0 := by omega
            simp only [Emit.cell, orkiI8Synth, if_neg hi8, hscat, Bool.false_eq_true, if_false, hm0, Nat.sub_zero, Nat.zero_mul,
              Nat.add_zero, Nat.zero_add]
            exact Nat.add_sub_cancel' hcol.1
          · have hle := hw.N_le (by omega)
            have hns0 : ns = 0 := by
              have := List.mem_range.mp hns
              omega
            have hNc' := pieceLen_of_le hle
            simp only [Emit.cell, orkiI8Synth, orkiF16Synth, hscat, Bool.false_eq_true, if_false, hns0, Nat.zero_mul, hNc',
              if_neg hSn1, Nat.lt_irrefl, Nat.sub_zero]
            split <;> rw [Nat.zero_add]

variable (direct) in
/-- Every partial of every element is computed by one program of the op. -/
theorem opEmits_once {t0 t : DynTask R} (hw : Resident c t.w) (ht : mcAccepts c t0 t) (hks : ks < mcSlices t.w) (hm : m < t.M)
    (hn : n < t.w.N) : ∃ e ∈ opEmits c t.w t.M direct, e.Covers ks m n ∧
      ∀ e' ∈ opEmits c t.w t.M direct, e'.Covers ks m n → e' = e := by
  obtain ⟨-, -, hSn, -⟩ := ht
  have hpos := Nat.zero_add
  unfold mcSlices at hks
  unfold opEmits
  by_cases hK : 4096 < t.w.K
  · rw [if_pos hK] at hks ⊢
    refine ⟨_, List.mem_map_of_mem (List.mem_range.mpr hks), ⟨rfl, ⟨Nat.zero_le m, ?_⟩, Nat.zero_le n, ?_⟩, ?_⟩
    · exact Nat.lt_of_lt_of_eq hm (hpos _).symm
    · exact Nat.lt_of_lt_of_eq hn (hpos _).symm
    · intro e' he' hcov
      obtain ⟨ks', -, rfl⟩ := List.mem_map.mp he'
      obtain ⟨rfl, -⟩ := hcov
      rfl
  · rw [if_neg hK] at hks ⊢
    obtain rfl : ks = 0 := by omega
    by_cases h64 : 64 < t.M
    · rw [if_pos h64]
      have hcap := orkiMtileCap_pos t.w.K
      refine ⟨_, List.mem_map_of_mem (List.mem_range.mpr (div_lt_pieces hcap hm)), ⟨rfl, (mem_piece_iff hcap hm).mpr rfl,
        Nat.zero_le n, Nat.lt_of_lt_of_eq hn (hpos _).symm⟩, ?_⟩
      intro e' he' hcov
      obtain ⟨i, -, rfl⟩ := List.mem_map.mp he'
      obtain ⟨-, hrow, -⟩ := hcov
      obtain rfl := (mem_piece_iff hcap hm).mp hrow
      rfl
    · rw [if_neg h64]
      have hns : n / c.soc.nmax < t.w.Sn := by
        rw [hw.Sn_eq]
        exact div_lt_pieces hw.nmax_pos hn
      have hslice := (mem_piece_iff hw.nmax_pos hn).mpr rfl
      refine ⟨_, List.mem_map_of_mem (List.mem_range.mpr hns), ⟨rfl, ?_, ?_⟩, ?_⟩
      · dsimp only
        split <;> exact ⟨Nat.zero_le m, Nat.lt_of_lt_of_eq hm (hpos _).symm⟩
      · dsimp only
        split <;> exact hslice
      · intro e' he' hcov
        obtain ⟨ns, -, rfl⟩ := List.mem_map.mp he'
        obtain ⟨-, -, hcol⟩ := hcov
        have hNc : n < ns * c.soc.nmax + pieceLen t.w.N c.soc.nmax ns := by
          dsimp only at hcol
          split at hcol <;> exact hcol.2
        obtain rfl := (mem_piece_iff hw.nmax_pos hn).mp ⟨hcol.1, hNc⟩
        rfl

theorem opEmits_laid {t0 t : DynTask R} (hw : Resident c t.w) (ht : mcAccepts c t0 t) :
    Laid (opEmits c t.w t.M direct) (mcSlices t.w) t.M 0 t.w.N := by
  constructor
  · intro e he
    obtain ⟨⟨hks, hrow, hcol⟩, -⟩ := opEmits_spec hw ht he
    exact ⟨hks, hrow, Nat.zero_le _, hcol⟩
  · exact fun ks m n hks hm _ hn => opEmits_once direct hw ht hks hm hn
  · intro e he e' he' ks m n ks' m' n' hcov hcov' hcell
    obtain ⟨⟨hks, hrow, hcol⟩, hat⟩ := opEmits_spec hw ht he
    obtain ⟨⟨hks', hrow', hcol'⟩, hat'⟩ := opEmits_spec hw ht he'
    rw [hat _ _ _ hcov, hat' _ _ _ hcov'] at hcell
    obtain ⟨rfl, hm, hn⟩ := hcov
    obtain ⟨rfl, hm', hn'⟩ := hcov'
    exact opCell_inj hw.nmax_pos hks hks' (by omega) (by omega) (by omega) (by omega) hcell

end OrkDriver.Core
