import OrkDriver.Pack.RoundTrip

/-!
Where the byte of an element lies in a body, and which slice sizes put every byte at the same place.
-/

namespace OrkDriver.Pack

open OrkDriver.Lib

namespace Geom

/-- Body index of element `(k, n)`. -/
def position (g : Geom) (k n : Nat) : Nat :=
  g.tileOffset (n / g.NMAX) (k / g.KS) + (g.cellAt k n).tileIndex (g.tile (n / g.NMAX) (k / g.KS)).KT

variable {g : Geom} {k n : Nat}

theorem Aligned.position_lt (h : g.Aligned) (hk : k < g.K) (hn : n < g.N) : g.position k n < bytes g.tiles := by
  have hmem : (g.tileOffset (n / g.NMAX) (k / g.KS), g.tile (n / g.NMAX) (k / g.KS)) ∈ offsets 0 g.tiles :=
    g.mem_offsets.mpr ⟨_, _, div_lt_pieces h.NMAX_pos hn, div_lt_pieces h.KS_pos hk, by rw [Nat.zero_add]⟩
  have hbound := bounds_of_mem_offsets hmem
  have hcell := Tile.tileIndex_lt_tsz (h.blocked _ _) (h.cellAt_mem hk hn)
  unfold position
  omega

theorem Holds.position {m B : Mem} {off : Nat} (hb : g.Holds m off B) (h : g.Aligned) (hk : k < g.K) (hn : n < g.N) :
    m (off + g.position k n) = B (k * g.N + n) := by
  have hmem := h.cellAt_mem hk hn
  have hcell := hb _ _ (div_lt_pieces h.NMAX_pos hn) (div_lt_pieces h.KS_pos hk) _
    (Tile.tileIndex_lt_tsz (h.blocked _ _) hmem)
  rw [Tile.image_cell hmem, elemIndex_cellAt] at hcell
  rw [Geom.position, ← Nat.add_assoc, hcell]

/-- A non-zero byte of a body is the byte of a non-zero element. -/
theorem Holds.exists_element {m B : Mem} {off : Nat} (hb : g.Holds m off B) (h : g.Aligned) {i : Nat}
    (hi : i < bytes g.tiles) (hne : m (off + i) ≠ 0) :
    ∃ k n, k < g.K ∧ n < g.N ∧ i = g.position k n ∧ B (k * g.N + n) ≠ 0 := by
  obtain ⟨o, t, hmem, hle, hlt⟩ := exists_offset (Nat.zero_le i) (by rwa [Nat.zero_add])
  obtain ⟨ns, ks, hns, hks, heq⟩ := g.mem_offsets.mp hmem
  rw [Nat.zero_add] at heq
  cases heq
  have hat := hb ns ks hns hks (i - g.tileOffset ns ks) (by omega)
  rw [Nat.add_assoc, Nat.add_sub_cancel' hle] at hat
  rw [hat] at hne
  by_cases hcell : i - g.tileOffset ns ks < (g.tile ns ks).Kp * (g.tile ns ks).Nc
  · obtain ⟨v, hv, hidx⟩ := Tile.exists_cell (h.blocked ns ks) hcell
    rw [← hidx, Tile.image_cell hv] at hne
    obtain ⟨k, n, hk, hn, hel, rfl, rfl, rfl⟩ := h.elem_unique hns hks hv
    refine ⟨k, n, hk, hn, ?_, hel ▸ hne⟩
    unfold Geom.position
    omega
  · exact absurd (Tile.image_pad (h.blocked ns ks) (not_lt.mp hcell) _ _) hne

/-- The weight that is 1 at one index. -/
def single (e : Nat) : Mem := fun i => if i = e then 1 else 0

theorem single_ne {e : Nat} : single e e ≠ 0 := by
  rw [single, if_pos rfl]
  decide

/-- A non-zero byte in the body of `single (k * N + n)` is the byte of `(k, n)`. -/
theorem Holds.eq_position {m : Mem} {off : Nat} (hb : g.Holds m off (single (k * g.N + n))) (h : g.Aligned)
    (hn : n < g.N) {i : Nat} (hi : i < bytes g.tiles) (hne : m (off + i) ≠ 0) : i = g.position k n := by
  obtain ⟨k', n', -, hn', hpos, hone⟩ := hb.exists_element h hi hne
  rw [single, ne_eq, ite_eq_right_iff, Classical.not_imp] at hone
  obtain ⟨rfl, rfl⟩ := digits_inj hn' hn hone.1
  exact hpos

/-! ### Offsets along a row of tiles -/

theorem Aligned.prefix_bytes (h : g.Aligned) (ns : Nat) {ks : Nat} (hks : ks < g.Sk) :
    bytes ((List.range ks).map (g.tile ns)) = ks * pgup (g.KS * pieceLen g.N g.NMAX ns) := by
  induction ks with
  | zero => rw [Nat.zero_mul]; rfl
  | succ ks ih =>
      have hlt := (lt_pieces_iff h.KS_pos).mp hks
      have hfull : pieceLen g.K g.KS ks = g.KS := pieceLen_eq_size hlt.le
      rw [List.range_succ, List.map_append, bytes_append, ih (Nat.lt_of_succ_lt hks), Nat.succ_mul]
      simp only [List.map_cons, List.map_nil, bytes_cons, bytes_nil, Nat.add_zero, Tile.tsz, tile, hfull]

theorem tileOffset_zero_left (g : Geom) (ks : Nat) : g.tileOffset 0 ks = bytes ((List.range ks).map (g.tile 0)) :=
  Nat.zero_add _

theorem tileOffset_zero_right (g : Geom) (ns : Nat) :
    g.tileOffset ns 0 = bytes ((List.range ns).flatMap g.tileRow) := Nat.add_zero _

end Geom

/-- All N-slices are one block wide. -/
def Geom.Narrow (g : Geom) : Prop := min g.N g.NMAX = 32

/-- Cutting `K` by `KS` leaves no page padding between 32-column tiles. -/
def Flush (K KS : Nat) : Prop := 128 ∣ KS ∨ K ≤ KS

theorem pgup_add_of_dvd {a : Nat} (h : 4096 ∣ a) (b : Nat) : pgup (a + b) = a + pgup b := by
  unfold pgup
  omega

namespace Geom

variable {g : Geom} {k n : Nat}

theorem Aligned.narrow_len (h : g.Aligned) (hw : g.Narrow) {ns : Nat} (hns : ns < g.Sn) :
    pieceLen g.N g.NMAX ns = 32 := by
  have hpos := pieceLen_pos h.NMAX_pos hns
  have hdvd := dvd_pieceLen (i := ns) h.N h.NMAX
  have hle : pieceLen g.N g.NMAX ns ≤ g.NMAX := pieceLen_le_size
  have hle' := piece_le h.NMAX_pos hns
  unfold Narrow at hw
  omega

/-- Full K-slices of a flush narrow row follow each other without a gap. -/
theorem Aligned.flush_prefix (h : g.Aligned) (hw : g.Narrow) (hf : Flush g.K g.KS) {ns ks : Nat} (hns : ns < g.Sn)
    (hks : ks < g.Sk) : bytes ((List.range ks).map (g.tile ns)) = ks * (g.KS * 32) := by
  rw [h.prefix_bytes ns hks, h.narrow_len hw hns]
  rcases hf with hdvd | hle
  · rw [pgup_of_dvd (by omega)]
  · have hlt := (lt_pieces_iff h.KS_pos).mp hks
    cases ks with
    | zero => rw [Nat.zero_mul, Nat.zero_mul]
    | succ ks =>
        have hmul : g.KS ≤ (ks + 1) * g.KS := Nat.le_mul_of_pos_left _ (Nat.succ_pos ks)
        omega

theorem Aligned.flush_row (h : g.Aligned) (hw : g.Narrow) (hf : Flush g.K g.KS) {ns : Nat} (hns : ns < g.Sn) :
    bytes (g.tileRow ns) = pgup (g.K * 32) := by
  unfold tileRow
  cases hS : g.Sk with
  | zero =>
      have hK : g.K = 0 := by
        by_contra hne
        have := (lt_pieces_iff (i := 0) h.KS_pos).mpr (by rw [Nat.zero_mul]; exact Nat.pos_of_ne_zero hne)
        rw [← Sk, hS] at this
        exact absurd this (Nat.not_lt_zero _)
      rw [hK]
      rfl
  | succ m =>
      have hm : m < g.Sk := by omega
      have hlt := (lt_pieces_iff h.KS_pos).mp hm
      have hge : g.K ≤ (m + 1) * g.KS := by
        by_contra hgt
        have := (lt_pieces_iff (i := m + 1) h.KS_pos).mpr (not_le.mp hgt)
        rw [← Sk, hS] at this
        exact absurd this (lt_irrefl _)
      rw [Nat.succ_mul] at hge
      have hlen : pieceLen g.K g.KS m = g.K - m * g.KS := by
        unfold pieceLen
        split <;> omega
      rw [List.range_succ, List.map_append, bytes_append, h.flush_prefix hw hf hns hm]
      simp only [List.map_cons, List.map_nil, bytes_cons, bytes_nil, Nat.add_zero, Tile.tsz, tile,
        h.narrow_len hw hns, hlen]
      have hsplit : g.K * 32 = m * (g.KS * 32) + (g.K - m * g.KS) * 32 := by
        rw [← Nat.mul_assoc, ← Nat.add_mul]
        congr 1
        omega
      have hpages : 4096 ∣ m * (g.KS * 32) := by
        rcases hf with hdvd | hle
        · exact Nat.dvd_mul_left_of_dvd (by omega) m
        · cases m with
          | zero => rw [Nat.zero_mul]; exact Nat.dvd_zero _
          | succ m =>
              have hmul : g.KS ≤ (m + 1) * g.KS := Nat.le_mul_of_pos_left _ (Nat.succ_pos m)
              omega
      rw [hsplit, pgup_add_of_dvd hpages]

/-- In a flush narrow layout the slice size plays no part. -/
theorem Aligned.position_narrow (h : g.Aligned) (hw : g.Narrow) (hf : Flush g.K g.KS) (hk : k < g.K) (hn : n < g.N) :
    g.position k n = n / g.NMAX * pgup (g.K * 32) + (k / 32 * 1024 + n % g.NMAX * 32 + k % 32) := by
  have hns : n / g.NMAX < g.Sn := div_lt_pieces h.NMAX_pos hn
  have hrows : ∀ m, m ≤ g.Sn → bytes ((List.range m).flatMap g.tileRow) = m * pgup (g.K * 32) := by
    intro m hm
    induction m with
    | zero => rw [Nat.zero_mul]; rfl
    | succ m ih =>
        rw [List.range_succ, List.flatMap_append, bytes_append, ih (Nat.le_of_succ_le hm), List.flatMap_cons,
          List.flatMap_nil, List.append_nil, h.flush_row hw hf hm, Nat.succ_mul]
  have hcol : n % g.NMAX < 32 := by
    have := mod_lt_pieceLen h.NMAX_pos hn
    rwa [h.narrow_len hw hns] at this
  have hrow := Nat.div_add_mod' k g.KS
  have hdvd : 32 ∣ k / g.KS * g.KS := Nat.dvd_mul_left_of_dvd h.KS _
  unfold position tileOffset
  rw [hrows _ hns.le, h.flush_prefix hw hf hns (div_lt_pieces h.KS_pos hk), Nat.add_assoc, ← Nat.mul_assoc]
  simp only [Cell.tileIndex, cellAt, Nat.div_eq_of_lt hcol, Nat.zero_mul]
  omega

/-! ### Walks that differ in the slice size only -/

/-- The walk `g` with K-slices of size `KS`. -/
def withKS (g : Geom) (KS : Nat) : Geom := { g with KS := KS }

variable {KS : Nat}

theorem sameCut_Sk (hs : SameCut g.K g.KS KS) (h0 : 0 < g.KS) (h1 : 0 < KS) : (g.withKS KS).Sk = g.Sk :=
  (hs.pieces_eq h0 h1).symm

theorem sameCut_tile (hs : SameCut g.K g.KS KS) (h0 : 0 < g.KS) (ns : Nat) {ks : Nat} (hks : ks < g.Sk) :
    (g.withKS KS).tile ns ks = g.tile ns ks := by
  obtain ⟨hstart, hlen⟩ := hs.piece_eq h0 hks
  simp only [tile, withKS, ← hstart, ← hlen]

theorem sameCut_tileRow (hs : SameCut g.K g.KS KS) (h0 : 0 < g.KS) (h1 : 0 < KS) (ns : Nat) :
    (g.withKS KS).tileRow ns = g.tileRow ns := by
  simp only [tileRow, sameCut_Sk hs h0 h1]
  exact List.map_congr_left fun ks hks => sameCut_tile hs h0 ns (List.mem_range.mp hks)

theorem sameCut_tiles (hs : SameCut g.K g.KS KS) (h0 : 0 < g.KS) (h1 : 0 < KS) : (g.withKS KS).tiles = g.tiles := by
  have hrow : (g.withKS KS).tileRow = g.tileRow := funext fun ns => sameCut_tileRow hs h0 h1 ns
  simp only [tiles, hrow]
  rfl

theorem sameCut_tileOffset (hs : SameCut g.K g.KS KS) (h0 : 0 < g.KS) (h1 : 0 < KS) (ns : Nat) {ks : Nat}
    (hks : ks < g.Sk) : (g.withKS KS).tileOffset ns ks = g.tileOffset ns ks := by
  have hrow : (g.withKS KS).tileRow = g.tileRow := funext fun ns => sameCut_tileRow hs h0 h1 ns
  have hpre : (List.range ks).map ((g.withKS KS).tile ns) = (List.range ks).map (g.tile ns) :=
    List.map_congr_left fun i hi => sameCut_tile hs h0 ns (lt_trans (List.mem_range.mp hi) hks)
  simp only [tileOffset, hrow, hpre]

theorem sameCut_position (hs : SameCut g.K g.KS KS) (h : g.Aligned) (h1 : 0 < KS) (hk : k < g.K) :
    (g.withKS KS).position k n = g.position k n := by
  have hdiv : k / KS = k / g.KS ∧ k % KS = k % g.KS := by
    rcases hs with rfl | ⟨hle, hle'⟩
    · exact ⟨rfl, rfl⟩
    · rw [Nat.div_eq_of_lt (by omega), Nat.div_eq_of_lt (by omega), Nat.mod_eq_of_lt (by omega),
        Nat.mod_eq_of_lt (by omega)]
      exact ⟨rfl, rfl⟩
  have hks : k / g.KS < g.Sk := div_lt_pieces h.KS_pos hk
  have hcell : (g.withKS KS).cellAt k n = g.cellAt k n := by
    simp only [cellAt, withKS, hdiv.2]
  unfold position
  rw [hcell]
  simp only [withKS, hdiv.1]
  rw [← withKS, sameCut_tileOffset hs h.KS_pos h1 _ hks, sameCut_tile hs h.KS_pos _ hks]

end Geom

/-- The slice sizes `KS` and `KS'` give the same body for every weight. -/
def Agree (K N NMAX KS KS' : Nat) : Prop := SameCut K KS KS' ∨ min N NMAX = 32 ∧ Flush K KS ∧ Flush K KS'

namespace Geom

variable {g : Geom} {k n KS : Nat}

theorem Agree.position_eq (ha : Agree g.K g.N g.NMAX g.KS KS) (h : g.Aligned) (h' : (g.withKS KS).Aligned)
    (hk : k < g.K) (hn : n < g.N) : (g.withKS KS).position k n = g.position k n := by
  rcases ha with hs | ⟨hw, hf, hf'⟩
  · exact sameCut_position hs h h'.KS_pos hk
  · rw [h.position_narrow hw hf hk hn]
    exact h'.position_narrow hw hf' hk hn

/-- Second block of the first row: right behind the first K-slice of the first block. -/
theorem Aligned.position_block (h : g.Aligned) (hw : 32 < min g.N g.NMAX) (hK : 0 < g.K) :
    g.position 0 32 = min g.K g.KS * 32 := by
  have hN : 32 < g.NMAX := by omega
  have hlen : pieceLen g.K g.KS 0 = min g.K g.KS := by
    unfold pieceLen
    split <;> omega
  have hdvd : 32 ∣ min g.K g.KS := by
    have := h.K
    have := h.KS
    omega
  unfold position
  rw [Nat.div_eq_of_lt hN, Nat.zero_div, tileOffset_zero_left]
  simp only [List.range_zero, List.map_nil, bytes_nil, Cell.tileIndex, cellAt, Nat.mod_eq_of_lt hN, Nat.zero_mod,
    Tile.KT, tile, hlen]
  omega

/-- First row of the second K-slice in a narrow layout: on the page behind the first one. -/
theorem Aligned.position_next (h : g.Aligned) (hw : g.Narrow) (hN : 0 < g.N) (hK : g.KS < g.K) :
    g.position g.KS 0 = pgup (g.KS * 32) := by
  have hns : 0 < g.Sn := (lt_pieces_iff h.NMAX_pos).mpr (by rwa [Nat.zero_mul])
  have hks : 1 < g.Sk := (lt_pieces_iff h.KS_pos).mpr (by rwa [Nat.one_mul])
  unfold position
  rw [Nat.zero_div, Nat.div_self h.KS_pos, tileOffset_zero_left, h.prefix_bytes 0 hks, h.narrow_len hw hns]
  simp [Cell.tileIndex, cellAt]

/-- A block row inside the first K-slice. -/
theorem position_first (g : Geom) (hk : k < g.KS) (hdvd : 32 ∣ k) : g.position k 0 = k * 32 := by
  unfold position
  rw [Nat.zero_div, Nat.div_eq_of_lt hk, tileOffset_zero_left]
  simp only [List.range_zero, List.map_nil, bytes_nil, Cell.tileIndex, cellAt, Nat.zero_mod, Nat.mod_eq_of_lt hk,
    Nat.zero_div, Nat.zero_mul]
  omega

theorem sameCut_of_min {K KS KS' : Nat} (h : min K KS = min K KS') : SameCut K KS KS' := by
  unfold SameCut
  omega

/-- A narrow layout with the smaller slices can only agree with another one if neither leaves a gap. -/
theorem Aligned.flush_of_position (h : g.Aligned) (h' : (g.withKS KS).Aligned) (hw : g.Narrow) (hN : 0 < g.N)
    (hlt : g.KS < KS) (hK : g.KS < g.K)
    (heq : ∀ k n, k < g.K → n < g.N → (g.withKS KS).position k n = g.position k n) :
    Flush g.K g.KS ∧ Flush g.K KS := by
  have hfirst := heq g.KS 0 hK hN
  rw [h.position_next hw hN hK, position_first (g.withKS KS) hlt h.KS] at hfirst
  have hdvd : 128 ∣ g.KS := by
    have := dvd_pgup (g.KS * 32)
    rw [← hfirst] at this
    omega
  refine ⟨.inl hdvd, ?_⟩
  by_cases hle : g.K ≤ KS
  · exact .inr hle
  · have hgt : KS < g.K := not_le.mp hle
    have hsecond := heq KS 0 hgt hN
    rw [h.position_narrow hw (.inl hdvd) hgt hN] at hsecond
    have hnext := h'.position_next hw hN hgt
    simp only [withKS] at hnext hsecond
    rw [hnext] at hsecond
    simp only [Nat.zero_div, Nat.zero_mul, Nat.zero_mod, Nat.zero_add] at hsecond
    have := dvd_pgup (KS * 32)
    have hKS := h'.KS
    simp only [withKS] at hKS
    exact .inl (by omega)

/-- Two slice sizes that place every element alike agree. -/
theorem Aligned.agree (h : g.Aligned) (h' : (g.withKS KS).Aligned) (hN : 0 < g.N) (hK : 0 < g.K)
    (heq : ∀ k n, k < g.K → n < g.N → (g.withKS KS).position k n = g.position k n) :
    Agree g.K g.N g.NMAX g.KS KS := by
  by_cases hcut : SameCut g.K g.KS KS
  · exact .inl hcut
  · by_cases hw : g.Narrow
    · refine .inr ⟨hw, ?_⟩
      unfold SameCut at hcut
      rcases Nat.lt_or_gt_of_ne (fun he => hcut (.inl he) : g.KS ≠ KS) with hlt | hlt
      · exact h.flush_of_position h' hw hN hlt (by omega) heq
      · have hback := @flush_of_position (g.withKS KS) g.KS h' h hw hN hlt (by simp only [withKS]; omega)
          fun k n hk hn => (heq k n hk hn).symm
        exact ⟨hback.2, hback.1⟩
    · have hwide : 32 < min g.N g.NMAX := by
        have hNd := h.N
        have hMd := h.NMAX
        have hMp := h.NMAX_pos
        unfold Narrow at hw
        omega
      have hblock := heq 0 32 hK (by omega)
      rw [h.position_block hwide hK, h'.position_block hwide hK] at hblock
      refine absurd (sameCut_of_min (K := g.K) (show min g.K g.KS = min g.K KS from ?_)) hcut
      simp only [withKS] at hblock
      omega

end Geom

end OrkDriver.Pack
