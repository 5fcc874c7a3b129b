import OrkDriver.Pack.Sound

/-!
Pack acceptance: exactly when a blob that a loader takes is the weight that was dumped.
-/

namespace OrkDriver.Pack

open OrkDriver.Lib OrkDriver.Npu

/-- Every weight of these dimensions that `d` dumps under `c` and `l` takes under `c'` is loaded as itself. -/
def LoadsSoundly (d : Dumper) (l : Loader) (c c' : OrkNpu) (K N : Nat) : Prop :=
  ∀ (B : Mem) (out : Blob) (cap size : Nat) (blob : Blob), d.run c K N B out cap = (size, blob) → size ≠ 0 →
    ∀ (env : LoadEnv) (w : Loaded), l.run c' env K N blob size = some w → Decodes c' K N B w

/-- The dump's slices and those of the loading context place every byte alike, and the loader's walk does no harm. -/
def Compatible (d : Dumper) (l : Loader) (c c' : OrkNpu) (K N : Nat) : Prop :=
  Agree K N c.soc.nmax (d.slice c K) c'.int8Ks ∧ l.Fits c' K N

section

variable {d : Dumper} {l : Loader} {c c' : OrkNpu} {K N : Nat}

theorem Compatible.decodes (hc : c.soc ∈ socTable) (hnm : c.soc.nmax = c'.soc.nmax) (ht : d.Takes K N) (hK : 0 < K)
    (h : Compatible d l c c' K N) {B : Mem} {blob : Blob} (hb : (d.geom c K N).Holds blob.body 0 B) {env : LoadEnv}
    {n : Nat} {w : Loaded} (hw : l.run c' env K N blob n = some w) : Decodes c' K N B w := by
  have hg := Dumper.geom_aligned hc ht hK
  have hR := geom_eq_withKS (d := d) (K := K) (N := N) hnm
  have hr : (geom c' K N).Aligned := by
    have hn := socTable_nmax hc
    exact geom_aligned (by omega) (by omega) ht.dvd.1 ht.dvd.2
  have hpos : ∀ k n, k < K → n < N → (geom c' K N).position k n = (d.geom c K N).position k n := by
    intro k n hk hn
    rw [hR]
    exact Geom.Agree.position_eq h.1 hg (hR ▸ hr) hk hn
  obtain ⟨-, -, ⟨codes, -, -, rfl⟩ | ⟨Bb, honline, rfl, hload⟩⟩ := Loader.run_some hw
  · intro i hi
    have hN : 0 < N := Nat.pos_of_ne_zero fun h0 => by
      rw [h0, Nat.mul_zero] at hi
      exact absurd hi (Nat.not_lt_zero _)
    have hk : i / N < K := Nat.div_lt_of_lt_mul (by rwa [Nat.mul_comm])
    have hn : i % N < N := Nat.mod_lt _ hN
    have hread := hr.gathered blob.body codes hk hn
    have hbyte := hb.position hg hk hn
    rw [Nat.zero_add, ← hpos _ _ hk hn] at hbyte
    have hidx : i / N * N + i % N = i := Nat.div_add_mod' i N
    have hread' : stores codes ((geom c' K N).gathers blob.body) (i / N * N + i % N) =
        blob.body ((geom c' K N).position (i / N) (i % N)) := hread
    rw [hidx] at hread'
    rw [hread', hbyte]
    exact congrArg B hidx
  · have hwalk : l.walk c' K N = loadGeom c' K N := if_neg honline
    -- the loader's tiles are where the reader's are
    have hpages : SamePages (loadGeom c' K N) (geom c' K N) ∧ ∀ ns ks, ns < (geom c' K N).Sn → ks < (geom c' K N).Sk →
        ((geom c' K N).tile ns ks).Kp * ((geom c' K N).tile ns ks).Nc ≤
          l.len ((loadGeom c' K N).tile ns ks) := by
      have hfits := h.2
      unfold Loader.Fits at hfits
      unfold Loader.len
      by_cases hl : l = .loadImport
      · rw [if_pos hl] at hfits ⊢
        have hcut : SameCut (loadGeom c' K N).K (loadGeom c' K N).KS c'.int8Ks := hfits
        have hgeom : geom c' K N = (loadGeom c' K N).withKS c'.int8Ks := rfl
        have hSk := Geom.sameCut_Sk hcut (Nat.zero_lt_succ 1023) c'.int8Ks_spec.1
        rw [hgeom]
        refine ⟨⟨hSk.symm, fun ns ks _ hks => ?_⟩, fun ns ks _ hks => ?_⟩
        · rw [Geom.sameCut_tile hcut (Nat.zero_lt_succ 1023) ns hks]
        · rw [Geom.sameCut_tile hcut (Nat.zero_lt_succ 1023) ns (hSk ▸ hks)]
      · rw [if_neg hl, hwalk] at hfits
        rw [if_neg hl]
        refine ⟨hfits, fun ns ks hns hks => ?_⟩
        rw [hfits.2 ns ks hns (lt_of_lt_of_eq hks hfits.1.symm)]
        exact le_pgup _
    refine ⟨rfl, fun ns hns => ⟨hpages.1.1, fun ks hks v hv => ?_⟩⟩
    have hks' : ks < (geom c' K N).Sk := lt_of_lt_of_eq hks hpages.1.1
    obtain ⟨fresh, -, hBb⟩ := loaded_tile hload hns hks
    refine ⟨_, hBb, ?_⟩
    have hlt := lt_of_lt_of_le (Tile.tileIndex_lt (hr.blocked ns ks) hv) (hpages.2 ns ks hns hks')
    rw [if_pos hlt, hpages.1.tileOffset_eq hns hks.le]
    obtain ⟨k, n, hk, hn, hel, rfl, rfl, rfl⟩ := hr.elem_unique hns hks' hv
    have hbyte := hb.position hg hk hn
    rw [Nat.zero_add, ← hpos k n hk hn] at hbyte
    exact hbyte.trans (congrArg B hel.symm)

/-- Every weight has a blob that the loader takes when it gets zeroed buffers. -/
theorem exists_loaded (hc : c.soc ∈ socTable) (hsoc : c.soc = c'.soc) (ht : d.Takes K N) (hK : 0 < K)
    (hbytes : bytes (d.tiles c K N) = bytes (l.walk c' K N).tiles) (h : LoadsSoundly d l c c' K N) (B : Mem) :
    ∃ blob w n, (d.geom c K N).Holds blob.body 0 B ∧ l.run c' .good K N blob n = some w ∧ Decodes c' K N B w := by
  obtain ⟨blob, hdump, hhdr, hholds⟩ := Dumper.run_holds hc ht B ⟨orkiPackStamp c .i8 K N, fun _ => 0⟩ (Nat.le_refl _)
  have hchk : orkiPackCheck c' blob.hdr (orkPackHdrBytes + bytes (d.tiles c K N)) .i8 K N = none := by
    rw [hhdr, orkiPackCheck_stamp c c' .i8 K N _ (Nat.le_add_right _ _), hsoc]
  obtain ⟨w, hw⟩ := Loader.exists_run (l := l) ht.dvd.1 ht.dvd.2 hchk (by rw [Nat.add_sub_cancel_left, hbytes])
  have hne : orkPackHdrBytes + bytes (d.tiles c K N) ≠ 0 := by
    unfold orkPackHdrBytes
    omega
  exact ⟨blob, w, _, hholds hK, hw, h B _ _ _ blob hdump hne _ w hw⟩

/-- Without a device a sound loader's run reads each element where the dump put it. -/
theorem LoadsSoundly.offline (hc : c.soc ∈ socTable) (hsoc : c.soc = c'.soc) (ht : d.Takes K N) (hK : 0 < K)
    (hbytes : bytes (d.tiles c K N) = bytes (l.walk c' K N).tiles) (h : LoadsSoundly d l c c' K N)
    (hoff : l = .load ∧ c'.fd < 0) {k n : Nat} (hk : k < K) (hn : n < N) :
    (geom c' K N).position k n = (d.geom c K N).position k n := by
  have hnmax : c'.soc.nmax = 8192 := socTable_nmax (hsoc ▸ hc)
  have hr : (geom c' K N).Aligned := geom_aligned (by omega) (by omega) ht.dvd.1 ht.dvd.2
  have hwalk : l.walk c' K N = geom c' K N := if_pos hoff
  obtain ⟨blob, w, m, hb, hw, hdec⟩ := exists_loaded hc hsoc ht hK hbytes h (Geom.single (k * N + n))
  obtain ⟨-, -, ⟨codes, -, -, rfl⟩ | ⟨-, hon, -⟩⟩ := Loader.run_some hw
  · have hone := hdec (k * N + n) (digits_lt hk hn)
    have hread : stores codes ((geom c' K N).gathers blob.body) (k * N + n) =
        blob.body ((geom c' K N).position k n) := hr.gathered blob.body codes hk hn
    refine hb.eq_position (Dumper.geom_aligned hc ht hK) hn ?_ ?_
    · rw [← d.tiles_eq hK, hbytes, hwalk]
      exact hr.position_lt hk hn
    · rw [Nat.zero_add, ← hread]
      exact ne_of_eq_of_ne hone Geom.single_ne
  · exact absurd hoff hon

/-- On a device it reads the tiles the loader's walk made, within what that walk copied. -/
theorem LoadsSoundly.online (hc : c.soc ∈ socTable) (hsoc : c.soc = c'.soc) (ht : d.Takes K N) (hK : 0 < K) (hN : 0 < N)
    (hbytes : bytes (d.tiles c K N) = bytes (l.walk c' K N).tiles) (h : LoadsSoundly d l c c' K N)
    (hoff : ¬ (l = .load ∧ c'.fd < 0)) : (loadGeom c' K N).Sk = (geom c' K N).Sk ∧ ∀ k n, k < K → n < N →
      ((geom c' K N).cellAt k n).tileIndex ((geom c' K N).tile (n / c'.soc.nmax) (k / c'.int8Ks)).KT <
        l.len ((loadGeom c' K N).tile (n / c'.soc.nmax) (k / c'.int8Ks)) ∧
      (loadGeom c' K N).readIndex (geom c' K N) k n = (d.geom c K N).position k n := by
  have hnmax : c'.soc.nmax = 8192 := socTable_nmax (hsoc ▸ hc)
  have hr : (geom c' K N).Aligned := geom_aligned (by omega) (by omega) ht.dvd.1 ht.dvd.2
  have hwalk : l.walk c' K N = loadGeom c' K N := if_neg hoff
  have hNM : 0 < c'.soc.nmax := hr.NMAX_pos
  have hSk : (loadGeom c' K N).Sk = (geom c' K N).Sk := by
    obtain ⟨blob, w, m, -, hw, hdec⟩ := exists_loaded hc hsoc ht hK hbytes h fun _ => 0
    obtain ⟨-, -, ⟨-, h1, h2, -⟩ | ⟨Bb, -, rfl, -⟩⟩ := Loader.run_some hw
    · exact absurd ⟨h1, h2⟩ hoff
    · exact (hdec.2 0 ((lt_pieces_iff hNM).mpr (by rwa [Nat.zero_mul]))).1
  refine ⟨hSk, fun k n hk hn => ?_⟩
  obtain ⟨blob, w, m, hb, hw, hdec⟩ := exists_loaded hc hsoc ht hK hbytes h (Geom.single (k * N + n))
  obtain ⟨-, -, ⟨-, h1, h2, -⟩ | ⟨Bb, -, rfl, hload⟩⟩ := Loader.run_some hw
  · exact absurd ⟨h1, h2⟩ hoff
  · have hns : n / c'.soc.nmax < (loadGeom c' K N).Sn := div_lt_pieces hNM hn
    have hks : k / c'.int8Ks < (geom c' K N).Sk := div_lt_pieces hr.KS_pos hk
    have hks' : k / c'.int8Ks < (loadGeom c' K N).Sk := lt_of_lt_of_eq hks hSk.symm
    obtain ⟨mt, hmt, hone⟩ := (hdec.2 _ hns).2 _ hks' _ (hr.cellAt_mem hk hn)
    obtain ⟨fresh, hfresh, hBb⟩ := loaded_tile hload hns hks'
    cases hfresh
    rw [hBb, Option.some.injEq] at hmt
    subst hmt
    have hel : ((geom c' K N).tile (n / c'.soc.nmax) (k / c'.int8Ks)).elemIndex N ((geom c' K N).cellAt k n) =
        k * N + n := (geom c' K N).elemIndex_cellAt k n
    rw [hel] at hone
    have hne := ne_of_eq_of_ne hone Geom.single_ne
    rw [ne_eq, ite_eq_right_iff, Classical.not_imp] at hne
    obtain ⟨hlt, hne⟩ := hne
    refine ⟨hlt, hb.eq_position (Dumper.geom_aligned hc ht hK) hn ?_ ?_⟩
    · have hbound := bounds_of_mem_offsets (@Geom.mem_offsets (loadGeom c' K N) 0 _ |>.mpr ⟨_, _, hns, hks', rfl⟩)
      rw [Nat.zero_add, Nat.zero_add] at hbound
      rw [← d.tiles_eq hK, hbytes, hwalk]
      exact lt_of_lt_of_le (Nat.add_lt_add_left (lt_of_lt_of_le hlt (l.len_le _)) _) hbound.2
    · rw [Nat.zero_add]
      exact hne

/-- If no K-slice that is read is longer than the one that was copied, the two walks cut alike. -/
theorem sameCut_of_le {K L R : Nat} (hL : 0 < L) (hR : 0 < R) (hSk : pieces K L = pieces K R)
    (hle : ∀ ks, ks < pieces K R → pieceLen K R ks ≤ pieceLen K L ks) : SameCut K L R := by
  cases hS : pieces K R with
  | zero =>
      have hK : K = 0 := by
        by_contra hne
        have hlt := (lt_pieces_iff (n := K) (i := 0) hR).mpr (by omega)
        omega
      exact .inr (by omega)
  | succ m =>
      have hfirst := hle 0 (by omega)
      have hlast := hle m (by omega)
      have hltR := (lt_pieces_iff (n := K) (i := m) hR).mp (by omega)
      have hltL := (lt_pieces_iff (n := K) (i := m) hL).mp (by omega)
      have hgeR : ¬ (m + 1) * R < K := fun hlt => by
        have := (lt_pieces_iff hR).mpr hlt
        omega
      have hgeL : ¬ (m + 1) * L < K := fun hlt => by
        have := (lt_pieces_iff hL).mpr hlt
        omega
      rw [Nat.succ_mul] at hgeR hgeL
      simp only [pieceLen] at hfirst hlast
      cases m with
      | zero => exact .inr (by omega)
      | succ m =>
          have hLR : L ≤ R := by
            have hmul : (m + 1) * L ≤ (m + 1) * R := by
              split at hlast <;> split at hlast <;> omega
            exact Nat.le_of_mul_le_mul_left hmul (Nat.succ_pos m)
          have hRK : R < K := lt_of_le_of_lt (Nat.le_mul_of_pos_left R (Nat.succ_pos m)) hltR
          rw [Nat.zero_mul, Nat.zero_mul, Nat.sub_zero, if_neg (by omega), if_neg (by omega)] at hfirst
          exact .inl (Nat.le_antisymm hLR hfirst)

theorem LoadsSoundly.compatible (hc : c.soc ∈ socTable) (hsoc : c.soc = c'.soc) (ht : d.Takes K N) (hK : 0 < K)
    (hN : 0 < N) (hbytes : bytes (d.tiles c K N) = bytes (l.walk c' K N).tiles) (h : LoadsSoundly d l c c' K N) :
    Compatible d l c c' K N := by
  have hnm : c.soc.nmax = c'.soc.nmax := by rw [hsoc]
  have hg := Dumper.geom_aligned hc ht hK
  have hnmax := socTable_nmax hc
  have hR := geom_eq_withKS (d := d) (K := K) (N := N) hnm
  have hL := loadGeom_eq_withKS (d := d) (K := K) (N := N) hnm
  have hr : (geom c' K N).Aligned := geom_aligned (by omega) (by omega) ht.dvd.1 ht.dvd.2
  have hl : (loadGeom c' K N).Aligned :=
    ⟨Nat.zero_lt_succ 1023, ⟨32, rfl⟩, by simp only [loadGeom]; omega, by simp only [loadGeom]; omega, ht.dvd.1, ht.dvd.2⟩
  by_cases hoff : l = .load ∧ c'.fd < 0
  · refine ⟨hg.agree (hR ▸ hr) hN hK fun k n hk hn => ?_, ?_⟩
    · rw [← hR]
      exact h.offline hc hsoc ht hK hbytes hoff hk hn
    · have hwalk : l.walk c' K N = geom c' K N := if_pos hoff
      unfold Loader.Fits
      rw [if_neg (by rw [hoff.1]; decide), hwalk]
      exact ⟨rfl, fun _ _ _ _ => rfl⟩
  · obtain ⟨hSk, hcells⟩ := h.online hc hsoc ht hK hN hbytes hoff
    have hwalk : l.walk c' K N = loadGeom c' K N := if_neg hoff
    have hKS : 0 < c'.int8Ks := c'.int8Ks_spec.1
    by_cases hcut : SameCut K 1024 c'.int8Ks
    · refine ⟨hg.agree (hR ▸ hr) hN hK fun k n hk hn => ?_, ?_⟩
      · have hpos : (loadGeom c' K N).readIndex (geom c' K N) k n = (geom c' K N).position k n := by
          have hoffset := Geom.sameCut_tileOffset (g := loadGeom c' K N) hcut hl.KS_pos hKS (n / c'.soc.nmax)
            (lt_of_lt_of_eq (div_lt_pieces hr.KS_pos hk) hSk.symm)
          exact congrArg (· + _) hoffset.symm
        rw [← hR, ← hpos]
        exact (hcells k n hk hn).2
      · unfold Loader.Fits
        split
        · exact hcut
        · rw [hwalk]
          refine ⟨hSk, fun ns ks _ hks => ?_⟩
          have htile : (geom c' K N).tile ns ks = (loadGeom c' K N).tile ns ks :=
            Geom.sameCut_tile (g := loadGeom c' K N) hcut hl.KS_pos ns hks
          rw [htile]
    · have hread : ∀ k n, k < K → n < N →
          ((d.geom c K N).withKS 1024).readIndex ((d.geom c K N).withKS c'.int8Ks) k n = (d.geom c K N).position k n := by
        rw [← hL, ← hR]
        exact fun k n hk hn => (hcells k n hk hn).2
      rw [hL, hR] at hSk
      rw [d.tiles_eq hK, hwalk, hL] at hbytes
      have hs : SameCut K (d.slice c K) c'.int8Ks :=
        hg.sameCut_of_readIndex (hL ▸ hl) (hR ▸ hr) hN hK (by decide) hSk hcut hread
      refine ⟨.inl hs, ?_⟩
      unfold Loader.Fits
      split
      · rename_i himp
        refine sameCut_of_le (Nat.zero_lt_succ 1023) hKS hSk fun ks hks => ?_
        have hns : 0 < (geom c' K N).Sn := (lt_pieces_iff hr.NMAX_pos).mpr (by rwa [Nat.zero_mul])
        have hNc : 0 < pieceLen N c'.soc.nmax 0 := pieceLen_pos hr.NMAX_pos hns
        have hKp : 0 < pieceLen K c'.int8Ks ks := pieceLen_pos hKS hks
        have hlast := Nat.mul_pos hKp hNc
        -- the last cell of the tile that is read is inside the copied prefix
        obtain ⟨v, hv, hidx⟩ := Tile.exists_cell (hr.blocked 0 ks) (Nat.sub_one_lt_of_lt hlast)
        obtain ⟨k, n, hk, hn, -, h0, hks', rfl⟩ := hr.elem_unique hns hks hv
        have hlt := (hcells k n hk hn).1
        rw [himp] at hlt
        have h0' : 0 = n / c'.soc.nmax := h0
        have hks'' : ks = k / c'.int8Ks := hks'
        rw [← h0', ← hks'', hidx] at hlt
        have hle : pieceLen K c'.int8Ks ks * pieceLen N c'.soc.nmax 0 ≤
            pieceLen K 1024 ks * pieceLen N c'.soc.nmax 0 := Nat.le_of_pred_lt hlt
        exact Nat.le_of_mul_le_mul_right hle hNc
      · rw [hwalk, hL, hR]
        exact hg.samePages_of_readIndex (hL ▸ hl) (hR ▸ hr) hK hSk hs hbytes.symm hread

theorem Refused.loadsSoundly (hc : c.soc ∈ socTable) (h : Refused d l c c' K N) : LoadsSoundly d l c c' K N := by
  intro B out cap size blob hdump hne env w hw
  obtain ⟨ht, hcap⟩ := @Dumper.run_ne_zero d c K N B out cap (by rw [hdump]; exact hne)
  obtain ⟨blob', hdump', hhdr, -⟩ := Dumper.run_holds hc ht B out hcap
  rw [hdump', Prod.mk.injEq] at hdump
  obtain ⟨rfl, rfl⟩ := hdump
  obtain ⟨hchk, hsize, -⟩ := Loader.run_some hw
  rw [hhdr, orkiPackCheck_stamp c c' .i8 K N _ (Nat.le_add_right _ _)] at hchk
  rw [Nat.add_sub_cancel_left] at hsize
  rcases h with h | h | h
  · exact absurd ht h
  · exact absurd hchk h
  · exact absurd hsize h

/-- An empty weight has nothing to decode. -/
theorem decodes_of_empty (h : K = 0 ∨ N = 0) {B : Mem} {env : LoadEnv} {b : Blob} {n : Nat} {w : Loaded}
    (hw : l.run c env K N b n = some w) : Decodes c K N B w := by
  have hpieces : ∀ {s}, 0 < s → pieces 0 s = 0 := fun hs => Nat.eq_zero_of_not_pos fun hlt => by
    have := (lt_pieces_iff hs).mp hlt
    omega
  obtain ⟨-, -, ⟨codes, -, -, rfl⟩ | ⟨Bb, -, rfl, -⟩⟩ := Loader.run_some hw
  · intro i hi
    rcases h with rfl | rfl
    · rw [Nat.zero_mul] at hi
      exact absurd hi (Nat.not_lt_zero i)
    · exact absurd hi (Nat.not_lt_zero i)
  · refine ⟨rfl, fun ns hns => ?_⟩
    rcases h with rfl | rfl
    · have hSk : (loadGeom c 0 N).Sk = 0 := hpieces (Nat.zero_lt_succ 1023)
      refine ⟨hSk.trans (hpieces c.int8Ks_spec.1).symm, fun ks hks => ?_⟩
      rw [hSk] at hks
      exact absurd hks (Nat.not_lt_zero ks)
    · have hlt := Nat.div_mul_le_self (0 + c.soc.nmax - 1) c.soc.nmax
      rcases Nat.eq_zero_or_pos c.soc.nmax with h0 | hpos
      · have hz : (loadGeom c K 0).Sn = 0 := by
          simp only [Geom.Sn, pieces, loadGeom, h0, Nat.div_zero]
        rw [hz] at hns
        exact absurd hns (Nat.not_lt_zero ns)
      · have hns' := (lt_pieces_iff hpos).mp hns
        exact absurd hns' (Nat.not_lt_zero _)

/-- The loaders are sound exactly on what they refuse, on empty weights and between compatible slices. -/
theorem loadsSoundly_iff (d : Dumper) (l : Loader) (c c' : OrkNpu) (hc : c.soc ∈ socTable) (hc' : c'.soc ∈ socTable)
    (K N : Nat) :
    LoadsSoundly d l c c' K N ↔ Refused d l c c' K N ∨ (K = 0 ∨ N = 0) ∨ Compatible d l c c' K N := by
  by_cases href : Refused d l c c' K N
  · exact iff_of_true (href.loadsSoundly hc) (.inl href)
  · obtain ⟨ht, hcap, hbytes⟩ : d.Takes K N ∧ orkiPackCapid c.soc = orkiPackCapid c'.soc ∧
        bytes (d.tiles c K N) = bytes (l.walk c' K N).tiles := by
      simpa only [Refused, not_or, not_not, ne_eq] using href
    have hsoc := orkiPackCapid_inj hc hc' hcap
    by_cases hempty : K = 0 ∨ N = 0
    · exact iff_of_true (fun _ _ _ _ _ _ _ _ _ hw => decodes_of_empty hempty hw) (.inr (.inl hempty))
    · obtain ⟨hK, hN⟩ := not_or.mp hempty
      have hK0 := Nat.pos_of_ne_zero hK
      constructor
      · intro h
        exact .inr (.inr (h.compatible hc hsoc ht hK0 (Nat.pos_of_ne_zero hN) hbytes))
      · rintro (h | h | h)
        · exact absurd h href
        · exact absurd h hempty
        · intro B out cap size blob hdump hne env w hw
          obtain ⟨-, hcap⟩ := @Dumper.run_ne_zero d c K N B out cap (by rw [hdump]; exact hne)
          obtain ⟨blob', hdump', -, hholds⟩ := Dumper.run_holds hc ht B out hcap
          rw [hdump', Prod.mk.injEq] at hdump
          obtain ⟨-, rfl⟩ := hdump
          exact h.decodes hc (by rw [hsoc]) ht hK0 (hholds hK0) hw

/-- A sliced dump loaded back without a device under the same `ORK_KTILE`. -/
theorem loadsSoundly_512 : LoadsSoundly .bb .load ⟨-1, socRk3588, 512⟩ ⟨-1, socRk3588, 512⟩ 1024 64 :=
  (loadsSoundly_iff .bb .load ⟨-1, socRk3588, 512⟩ ⟨-1, socRk3588, 512⟩ (by decide) (by decide) 1024 64).mpr
    (.inr (.inr ⟨.inl (.inl rfl), rfl, fun _ _ _ _ => rfl⟩))

/-- A full-K dump of a 2048 x 64 weight is taken by the default loader, which cuts it at 1024. -/
theorem loadsSoundly_bf_fails : ¬ LoadsSoundly .bf .load ⟨3, socRk3588, 0⟩ ⟨3, socRk3588, 0⟩ 2048 64 := by
  intro h
  obtain ⟨hcut | ⟨hw, -⟩, -⟩ := h.compatible (by decide) rfl (by decide) (by decide) (by decide) (by decide)
  · exact absurd hcut (by decide)
  · exact absurd hw (by decide)

end

end OrkDriver.Pack
