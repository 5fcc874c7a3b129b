import OrkDriver.Pack.Dump

/-!
Dump after un-tile and un-tile after dump are the identity.
-/

namespace OrkDriver.Pack

open OrkDriver.Lib OrkDriver.Npu

namespace Geom

/-- From `off` on, `m` is the body of the weight `B`: each tile's image at its offset. -/
def Holds (g : Geom) (m : Mem) (off : Nat) (B : Mem) : Prop :=
  ∀ ns ks, ns < g.Sn → ks < g.Sk → ∀ j, j < (g.tile ns ks).tsz →
    m (off + g.tileOffset ns ks + j) = (g.tile ns ks).image g.N B j

/-- The page padding of every tile of the body `m` is zero. -/
def ZeroPadded (g : Geom) (m : Mem) : Prop :=
  ∀ ns ks, ns < g.Sn → ks < g.Sk → ∀ j, (g.tile ns ks).Kp * (g.tile ns ks).Nc ≤ j → j < (g.tile ns ks).tsz →
    m (g.tileOffset ns ks + j) = 0

variable {g : Geom}

theorem Holds.of_offsets {m : Mem} {off : Nat} {B : Mem}
    (h : ∀ o t, (o, t) ∈ offsets off g.tiles → ∀ j, j < t.tsz → m (o + j) = t.image g.N B j) : g.Holds m off B :=
  fun ns ks hns hks j hj => h _ _ (g.mem_offsets.mpr ⟨ns, ks, hns, hks, rfl⟩) j hj

/-- The stores of the un-tiler over the whole body. -/
def gathers (g : Geom) (src : Mem) : List (Nat × Int8) := (offsets 0 g.tiles).flatMap fun p => p.2.gathers g.N p.1 src

theorem mem_gathers {src : Mem} {w : Nat × Int8} : w ∈ g.gathers src ↔ ∃ ns ks, ns < g.Sn ∧ ks < g.Sk ∧
    ∃ v ∈ (g.tile ns ks).cells, w = ((g.tile ns ks).elemIndex g.N v,
      src (g.tileOffset ns ks + v.tileIndex (g.tile ns ks).KT)) := by
  simp only [gathers, List.mem_flatMap, mem_offsets, Nat.zero_add, Tile.gathers, List.mem_map]
  constructor
  · rintro ⟨p, ⟨ns, ks, hns, hks, rfl⟩, v, hv, rfl⟩
    exact ⟨ns, ks, hns, hks, v, hv, rfl⟩
  · rintro ⟨ns, ks, hns, hks, v, hv, rfl⟩
    exact ⟨_, ⟨ns, ks, hns, hks, rfl⟩, v, hv, rfl⟩

/-- The un-tiler stores to element `(k, n)` the byte of its cell, and to no other place. -/
theorem Aligned.gathered (h : g.Aligned) (src codes : Mem) {k n : Nat} (hk : k < g.K) (hn : n < g.N) :
    stores codes (g.gathers src) (k * g.N + n) = src (g.tileOffset (n / g.NMAX) (k / g.KS) +
      (g.cellAt k n).tileIndex (g.tile (n / g.NMAX) (k / g.KS)).KT) := by
  refine stores.of_mem ⟨_, mem_gathers.mpr ⟨n / g.NMAX, k / g.KS, div_lt_pieces h.NMAX_pos hn,
    div_lt_pieces h.KS_pos hk, _, h.cellAt_mem hk hn, rfl⟩, g.elemIndex_cellAt k n⟩ fun w hw hidx => ?_
  obtain ⟨ns, ks, hns, hks, v, hv, rfl⟩ := mem_gathers.mp hw
  obtain ⟨k', n', -, hn', hel, rfl, rfl, rfl⟩ := h.elem_unique hns hks hv
  obtain ⟨rfl, rfl⟩ := digits_inj hn' hn (hel.symm.trans hidx)
  rfl

theorem Aligned.elemIndex_lt (h : g.Aligned) {t : Tile} (ht : t ∈ g.tiles) {v : Cell} (hv : v ∈ t.cells) :
    t.elemIndex g.N v < g.K * g.N := by
  obtain ⟨ns, ks, hns, hks, rfl⟩ := mem_tiles.mp ht
  obtain ⟨k, n, hk, hn, hel, -⟩ := h.elem_unique hns hks hv
  rw [hel]
  exact digits_lt hk hn

/-- Un-tiling a body gives back its weight. -/
theorem Holds.gathered {src B : Mem} (hb : g.Holds src 0 B) (h : g.Aligned) (codes : Mem) {i : Nat}
    (hi : i < g.K * g.N) : stores codes (g.gathers src) i = B i := by
  have hN : 0 < g.N := Nat.pos_of_ne_zero fun h0 => by
    rw [h0, Nat.mul_zero] at hi
    exact absurd hi (Nat.not_lt_zero _)
  have hk : i / g.N < g.K := Nat.div_lt_of_lt_mul (by rwa [Nat.mul_comm])
  have hn : i % g.N < g.N := Nat.mod_lt _ hN
  have hmem := h.cellAt_mem hk hn
  have hlt := Tile.tileIndex_lt_tsz (h.blocked _ _) hmem
  have hcell := hb _ _ (div_lt_pieces h.NMAX_pos hn) (div_lt_pieces h.KS_pos hk) _ hlt
  rw [Nat.zero_add] at hcell
  have hgather := h.gathered src codes hk hn
  rw [hcell, Tile.image_cell hmem, elemIndex_cellAt, Nat.div_add_mod'] at hgather
  exact hgather

/-- A zero-padded body is the body of what the un-tiler reads from it. -/
theorem Aligned.holds_gathered (h : g.Aligned) {src : Mem} (hpad : g.ZeroPadded src) (codes : Mem) :
    g.Holds src 0 (stores codes (g.gathers src)) := by
  intro ns ks hns hks j hj
  rw [Nat.zero_add]
  by_cases hcell : j < (g.tile ns ks).Kp * (g.tile ns ks).Nc
  · obtain ⟨v, hv, rfl⟩ := Tile.exists_cell (h.blocked ns ks) hcell
    rw [Tile.image_cell hv]
    obtain ⟨k, n, hk, hn, hel, rfl, rfl, rfl⟩ := h.elem_unique hns hks hv
    rw [hel, h.gathered src codes hk hn]
  · have hle := not_lt.mp hcell
    rw [hpad ns ks hns hks j hle hj, Tile.image_pad (h.blocked ns ks) hle]

/-- Bodies of the same weight are equal. -/
theorem Holds.unique {m m' B : Mem} {off off' : Nat} (h : g.Holds m off B) (h' : g.Holds m' off' B) {i : Nat}
    (hi : i < bytes g.tiles) : m (off + i) = m' (off' + i) := by
  obtain ⟨o, t, hmem, hle, hlt⟩ := exists_offset (Nat.zero_le i) (by rwa [Nat.zero_add])
  obtain ⟨ns, ks, hns, hks, heq⟩ := g.mem_offsets.mp hmem
  rw [Nat.zero_add] at heq
  cases heq
  have hj : i - g.tileOffset ns ks < (g.tile ns ks).tsz := by omega
  have h1 := h ns ks hns hks _ hj
  have h2 := h' ns ks hns hks _ hj
  rw [Nat.add_assoc, Nat.add_sub_cancel' hle] at h1 h2
  rw [h1, h2]

end Geom

theorem geom_aligned {c : OrkNpu} (hpos : 0 < c.soc.nmax) (hnmax : 32 ∣ c.soc.nmax) {K N : Nat} (hK : 32 ∣ K)
    (hN : 32 ∣ N) : (geom c K N).Aligned :=
  ⟨c.int8Ks_spec.1, c.int8Ks_spec.2, hpos, hnmax, hK, hN⟩

theorem i8WDumpCpu_spec {c : OrkNpu} {K N : Nat} (hg : (geom c K N).Aligned) (B : Mem) (out : Blob) {cap : Nat}
    (hcap : orkPackHdrBytes + bytes (geom c K N).tiles ≤ cap) : ∃ blob,
      i8WDumpCpu c K N B out cap = (orkPackHdrBytes + bytes (geom c K N).tiles, blob) ∧
      blob.hdr = orkiPackStamp c .i8 K N ∧ (geom c K N).Holds blob.mem orkPackHdrBytes B := by
  obtain ⟨m, hrun, hin, -⟩ := dumpTiles_spec (N := N) (B := B) (fun t ht => hg.blocked_of_mem ht) out.mem hcap
  have hdims : ¬ (K % 32 ≠ 0 ∨ N % 32 ≠ 0) := by
    have hK := hg.K
    have hN := hg.N
    simp only [geom] at hK hN
    omega
  refine ⟨⟨orkiPackStamp c .i8 K N, m⟩, ?_, rfl, Geom.Holds.of_offsets hin⟩
  rw [i8WDumpCpu, if_neg hdims, if_neg (by omega), hrun]

theorem i8WDumpCpuSize_eq {c : OrkNpu} {K N : Nat} (hK : 32 ∣ K) (hN : 32 ∣ N) :
    i8WDumpCpuSize c K N = orkPackHdrBytes + bytes (geom c K N).tiles := by
  rw [i8WDumpCpuSize, if_neg (by omega)]

theorem orkiI8UntileBlob_spec {c : OrkNpu} {K N : Nat} (hK : 32 ∣ K) (hN : 32 ∣ N) (src : Mem) (n : Nat) (codes : Mem) :
    ((orkiI8UntileBlob c K N src n codes).1 = 0 ↔ bytes (geom c K N).tiles = n) ∧
      (bytes (geom c K N).tiles = n →
        orkiI8UntileBlob c K N src n codes = (0, stores codes ((geom c K N).gathers src))) := by
  rw [orkiI8UntileBlob, if_neg (by omega)]
  have hspec := untileTiles_spec n N src (geom c K N).tiles 0 codes
  rw [Nat.zero_add] at hspec
  exact hspec

/-- The body of a blob. -/
def Blob.body (b : Blob) : Mem := fun i => b.mem (orkPackHdrBytes + i)

theorem dump_untile_inverse (c : OrkNpu) (hpos : 0 < c.soc.nmax) (hnmax : 32 ∣ c.soc.nmax) (K N : Nat) (hK : 32 ∣ K)
    (hN : 32 ∣ N) :
    (∀ B out cap, i8WDumpCpuSize c K N ≤ cap → ∃ blob,
      i8WDumpCpu c K N B out cap = (i8WDumpCpuSize c K N, blob) ∧
      ∀ codes, ∃ codes', orkiI8UntileBlob c K N blob.body (i8WDumpCpuSize c K N - orkPackHdrBytes) codes = (0, codes') ∧
        ∀ i, i < K * N → codes' i = B i) ∧
    (∀ body n codes codes', orkiI8UntileBlob c K N body n codes = (0, codes') → (geom c K N).ZeroPadded body →
      ∀ out cap, orkPackHdrBytes + n ≤ cap → ∃ blob,
        i8WDumpCpu c K N codes' out cap = (orkPackHdrBytes + n, blob) ∧ ∀ i, i < n → blob.body i = body i) ∧
    ∀ t ∈ (geom c K N).tiles, ∀ v ∈ t.cells,
      v.tileIndex t.KT < t.Kp * t.Nc ∧ t.Kp * t.Nc ≤ t.tsz ∧ t.elemIndex N v < K * N := by
  have hg := geom_aligned hpos hnmax hK hN
  refine ⟨fun B out cap hcap => ?_, fun body n codes codes' hrun hpad out cap hcap => ?_, fun t ht v hv => ?_⟩
  · rw [i8WDumpCpuSize_eq hK hN] at hcap ⊢
    obtain ⟨blob, hdump, -, hholds⟩ := i8WDumpCpu_spec hg B out hcap
    refine ⟨blob, hdump, fun codes => ⟨_, (orkiI8UntileBlob_spec hK hN blob.body _ codes).2 (by omega), fun i hi => ?_⟩⟩
    have hbody : (geom c K N).Holds blob.body 0 B := by
      intro ns ks hns hks j hj
      have hcell := hholds ns ks hns hks j hj
      rw [Nat.add_assoc] at hcell
      rw [Nat.zero_add]
      exact hcell
    exact hbody.gathered hg codes hi
  · obtain ⟨hiff, hres⟩ := orkiI8UntileBlob_spec (c := c) hK hN body n codes
    have hn : bytes (geom c K N).tiles = n := hiff.mp (by rw [hrun])
    subst hn
    rw [hres rfl] at hrun
    cases hrun
    obtain ⟨blob, hdump, -, hholds⟩ := i8WDumpCpu_spec hg (stores codes ((geom c K N).gathers body)) out hcap
    refine ⟨blob, hdump, fun i hi => ?_⟩
    have heq := hholds.unique (hg.holds_gathered hpad codes) hi
    rw [Nat.zero_add] at heq
    exact heq
  · exact ⟨Tile.tileIndex_lt (hg.blocked_of_mem ht) hv, le_pgup _, hg.elemIndex_lt ht hv⟩

/-- Two K-slices of a 64 x 64 weight, cut at 32. -/
theorem dump_untile_inverse_64 :
    (∀ B out cap, i8WDumpCpuSize ⟨-1, socRk3588, 32⟩ 64 64 ≤ cap → ∃ blob,
      i8WDumpCpu ⟨-1, socRk3588, 32⟩ 64 64 B out cap = (i8WDumpCpuSize ⟨-1, socRk3588, 32⟩ 64 64, blob) ∧
      ∀ codes, ∃ codes', orkiI8UntileBlob ⟨-1, socRk3588, 32⟩ 64 64 blob.body
        (i8WDumpCpuSize ⟨-1, socRk3588, 32⟩ 64 64 - orkPackHdrBytes) codes = (0, codes') ∧
        ∀ i, i < 64 * 64 → codes' i = B i) ∧
    (∀ body n codes codes', orkiI8UntileBlob ⟨-1, socRk3588, 32⟩ 64 64 body n codes = (0, codes') →
      (geom ⟨-1, socRk3588, 32⟩ 64 64).ZeroPadded body →
      ∀ out cap, orkPackHdrBytes + n ≤ cap → ∃ blob,
        i8WDumpCpu ⟨-1, socRk3588, 32⟩ 64 64 codes' out cap = (orkPackHdrBytes + n, blob) ∧
        ∀ i, i < n → blob.body i = body i) ∧
    ∀ t ∈ (geom ⟨-1, socRk3588, 32⟩ 64 64).tiles, ∀ v ∈ t.cells,
      v.tileIndex t.KT < t.Kp * t.Nc ∧ t.Kp * t.Nc ≤ t.tsz ∧ t.elemIndex 64 v < 64 * 64 :=
  dump_untile_inverse ⟨-1, socRk3588, 32⟩ (by decide) (by decide) 64 64 (by decide) (by decide)

end OrkDriver.Pack
