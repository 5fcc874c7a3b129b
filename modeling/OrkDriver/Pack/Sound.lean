import OrkDriver.Pack.Load
import OrkDriver.Pack.Positions

/-!
Which dumped blobs the int8 loaders take for what they are.
-/

namespace OrkDriver.Pack

open OrkDriver.Lib OrkDriver.Npu

/-- The two pure-CPU dumps: sliced tiles, and full-K tiles. -/
inductive Dumper
  | bb | bf
  deriving DecidableEq

namespace Dumper

def run : Dumper → OrkNpu → Nat → Nat → Mem → Blob → Nat → Nat × Blob
  | .bb => i8WDumpCpu
  | .bf => i8WDumpBfCpu

/-- The dimensions it does not refuse. -/
def Takes : Dumper → Nat → Nat → Prop
  | .bb, K, N => 32 ∣ K ∧ 32 ∣ N
  | .bf, K, N => 512 ∣ K ∧ K ≤ 4096 ∧ 32 ∣ N

instance (d : Dumper) (K N : Nat) : Decidable (d.Takes K N) :=
  match d with
  | .bb => inferInstanceAs (Decidable (32 ∣ K ∧ 32 ∣ N))
  | .bf => inferInstanceAs (Decidable (512 ∣ K ∧ K ≤ 4096 ∧ 32 ∣ N))

def tiles : Dumper → OrkNpu → Nat → Nat → List Tile
  | .bb, c, K, N => (geom c K N).tiles
  | .bf, c, K, N => bfTiles c K N

/-- The size it cuts K by. -/
def slice : Dumper → OrkNpu → Nat → Nat
  | .bb, c, _ => c.int8Ks
  | .bf, _, K => K

end Dumper

inductive Loader
  | load | loadImport | loadFlags | poolAdd
  deriving DecidableEq

namespace Loader

def run : Loader → OrkNpu → LoadEnv → Nat → Nat → Blob → Nat → Option Loaded
  | .load => i8MmLoad
  | .loadImport => i8MmLoadImport
  | .loadFlags => i8MmLoadFlags
  | .poolAdd => i8StreamPoolAdd

/-- The walk it reads the blob along: only `ork_i8_mm_load` has a branch for a context without a device. -/
def walk (l : Loader) (c : OrkNpu) (K N : Nat) : Geom := if l = .load ∧ c.fd < 0 then geom c K N else loadGeom c K N

/-- How many bytes of a tile it copies. -/
def len (l : Loader) : Tile → Nat := if l = .loadImport then fun t => t.Kp * t.Nc else Tile.tsz

theorem len_le (l : Loader) (t : Tile) : l.len t ≤ t.tsz := by
  unfold len
  split
  · exact le_pgup _
  · exact Nat.le_refl _

end Loader

/-- Two walks with the same tiles as far as their padded sizes go. -/
def SamePages (g g' : Geom) : Prop :=
  g.Sk = g'.Sk ∧ ∀ ns ks, ns < g.Sn → ks < g.Sk → (g.tile ns ks).tsz = (g'.tile ns ks).tsz

/-- The loader's own walk leaves the tiles a run reads in their places. -/
def Loader.Fits (l : Loader) (c : OrkNpu) (K N : Nat) : Prop :=
  if l = .loadImport then SameCut K 1024 c.int8Ks else SamePages (l.walk c K N) (geom c K N)

/-- The blob does not exist or is refused: dimensions, chip, or body size. -/
def Refused (d : Dumper) (l : Loader) (c c' : OrkNpu) (K N : Nat) : Prop :=
  ¬ d.Takes K N ∨ orkiPackCapid c.soc ≠ orkiPackCapid c'.soc ∨ bytes (d.tiles c K N) ≠ bytes (l.walk c' K N).tiles

/-! ### The dumps -/

theorem bfTiles_eq {c : OrkNpu} {K N : Nat} (hK : 0 < K) : bfTiles c K N = (Geom.mk K c.soc.nmax K N).tiles := by
  have hSk : pieces K K = 1 := by
    apply eq_of_forall_lt_iff
    intro i
    rw [lt_pieces_iff hK]
    cases i with
    | zero => simpa using hK
    | succ i =>
        have hmul : K ≤ (i + 1) * K := Nat.le_mul_of_pos_left _ (Nat.succ_pos i)
        omega
  have hrow : ∀ ns, (Geom.mk K c.soc.nmax K N).tileRow ns = [bfTile c K N ns] := by
    intro ns
    simp only [Geom.tileRow, Geom.Sk, hSk, List.range_one, List.map_cons, List.map_nil, Geom.tile, bfTile,
      Nat.zero_mul, pieceLen_of_le (Nat.le_refl K)]
  simp only [bfTiles, Geom.tiles, Geom.Sn, funext hrow, ← List.map_eq_flatMap]

/-- The walk of a dump. -/
def Dumper.geom (d : Dumper) (c : OrkNpu) (K N : Nat) : Geom := ⟨d.slice c K, c.soc.nmax, K, N⟩

theorem Dumper.tiles_eq (d : Dumper) {c : OrkNpu} {K N : Nat} (hK : 0 < K) :
    d.tiles c K N = (d.geom c K N).tiles := by
  cases d with
  | bb => rfl
  | bf => exact bfTiles_eq hK

theorem socTable_nmax {s : Soc} (h : s ∈ socTable) : s.nmax = 8192 := by
  simp only [socTable, List.mem_cons, List.not_mem_nil, or_false] at h
  rcases h with rfl | rfl <;> rfl

theorem Dumper.Takes.dvd {d : Dumper} {K N : Nat} (h : d.Takes K N) : 32 ∣ K ∧ 32 ∣ N := by
  cases d with
  | bb => exact h
  | bf =>
      obtain ⟨hK, -, hN⟩ := h
      exact ⟨by omega, hN⟩

theorem Dumper.geom_aligned {d : Dumper} {c : OrkNpu} (hc : c.soc ∈ socTable) {K N : Nat} (h : d.Takes K N)
    (hK : 0 < K) : (d.geom c K N).Aligned := by
  have hn := socTable_nmax hc
  obtain ⟨hK32, hN32⟩ := h.dvd
  cases d with
  | bb => exact ⟨c.int8Ks_spec.1, c.int8Ks_spec.2, by simp [Dumper.geom, hn], by simp [Dumper.geom, hn], hK32, hN32⟩
  | bf => exact ⟨hK, hK32, by simp [Dumper.geom, hn], by simp [Dumper.geom, hn], hK32, hN32⟩

theorem Dumper.run_eq (d : Dumper) (c : OrkNpu) (K N : Nat) (B : Mem) (out : Blob) (cap : Nat) :
    d.run c K N B out cap = if d.Takes K N ∧ orkPackHdrBytes ≤ cap then
      ((dumpTiles cap N B (d.tiles c K N) orkPackHdrBytes out.mem).1,
        ⟨orkiPackStamp c .i8 K N, (dumpTiles cap N B (d.tiles c K N) orkPackHdrBytes out.mem).2⟩) else (0, out) := by
  have hgate : ∀ {p q : Prop} [Decidable p] [Decidable q] {r : Nat × Blob}, (p ↔ ¬ d.Takes K N) →
      (q ↔ ¬ orkPackHdrBytes ≤ cap) → (if p then (0, out) else if q then (0, out) else r) =
        if d.Takes K N ∧ orkPackHdrBytes ≤ cap then r else (0, out) := by
    intro p q _ _ r hp hq
    by_cases ht : d.Takes K N <;> by_cases hcap : orkPackHdrBytes ≤ cap <;> simp [hp, hq, ht, hcap]
  cases d with
  | bb => exact hgate (by simp only [Dumper.Takes]; omega) not_le.symm
  | bf => exact hgate (by simp only [Dumper.Takes]; omega) not_le.symm

/-- A dump that reports a size was given dimensions it takes and a buffer that holds the blob. -/
theorem Dumper.run_ne_zero {d : Dumper} {c : OrkNpu} {K N : Nat} {B : Mem} {out : Blob} {cap : Nat}
    (h : (d.run c K N B out cap).1 ≠ 0) : d.Takes K N ∧ orkPackHdrBytes + bytes (d.tiles c K N) ≤ cap := by
  rw [Dumper.run_eq] at h
  split at h
  · rename_i hgate
    refine ⟨hgate.1, not_lt.mp fun hlt => h ?_⟩
    exact dumpTiles_refuses out.mem hgate.2 hlt
  · exact absurd rfl h

theorem Dumper.run_holds {d : Dumper} {c : OrkNpu} (hc : c.soc ∈ socTable) {K N : Nat} (ht : d.Takes K N)
    (B : Mem) (out : Blob) {cap : Nat} (hcap : orkPackHdrBytes + bytes (d.tiles c K N) ≤ cap) : ∃ blob,
      d.run c K N B out cap = (orkPackHdrBytes + bytes (d.tiles c K N), blob) ∧ blob.hdr = orkiPackStamp c .i8 K N ∧
      (0 < K → (d.geom c K N).Holds blob.body 0 B) := by
  have hblocked : ∀ t ∈ d.tiles c K N, t.Blocked := by
    have hn := socTable_nmax hc
    intro t htm
    cases d with
    | bb => exact (Pack.geom_aligned (by omega) (by omega) ht.dvd.1 ht.dvd.2).blocked_of_mem htm
    | bf =>
        obtain ⟨ns, -, rfl⟩ := List.mem_map.mp htm
        exact ⟨ht.dvd.1, dvd_pieceLen ht.dvd.2 (by omega)⟩
  obtain ⟨m, hm, hin, -⟩ := dumpTiles_spec (N := N) (B := B) hblocked out.mem hcap
  refine ⟨⟨orkiPackStamp c .i8 K N, m⟩, ?_, rfl, fun hK ns ks hns hks j hj => ?_⟩
  · rw [Dumper.run_eq, if_pos ⟨ht, by omega⟩, hm]
  · rw [d.tiles_eq hK] at hin
    have hat := Geom.Holds.of_offsets hin ns ks hns hks j hj
    rw [Nat.add_assoc] at hat
    rw [Nat.zero_add]
    exact hat

/-! ### What a run reads -/

namespace Geom

/-- Body index at which a run of walk `r` reads element `(k, n)` of a weight loaded along `g`. -/
def readIndex (g r : Geom) (k n : Nat) : Nat :=
  g.tileOffset (n / r.NMAX) (k / r.KS) + (r.cellAt k n).tileIndex (r.tile (n / r.NMAX) (k / r.KS)).KT

theorem readIndex_self (g : Geom) (k n : Nat) : g.readIndex g k n = g.position k n := rfl

theorem tileOffset_succ (g : Geom) (ns ks : Nat) : g.tileOffset ns (ks + 1) = g.tileOffset ns ks + (g.tile ns ks).tsz := by
  simp only [tileOffset, List.range_succ, List.map_append, bytes_append, List.map_cons, List.map_nil, bytes_cons,
    bytes_nil, Nat.add_zero, Nat.add_assoc]

theorem tileOffset_row (g : Geom) (ns : Nat) : g.tileOffset ns g.Sk = g.tileOffset (ns + 1) 0 := by
  simp only [tileOffset, tileRow, List.range_succ, List.flatMap_append, bytes_append, List.flatMap_cons,
    List.flatMap_nil, List.append_nil, List.range_zero, List.map_nil, bytes_nil, Nat.add_zero]

theorem tileOffset_end (g : Geom) : g.tileOffset g.Sn 0 = bytes g.tiles := Nat.add_zero _

end Geom

theorem SamePages.symm {g r : Geom} (h : SamePages g r) (hn : g.Sn = r.Sn) : SamePages r g :=
  ⟨h.1.symm, fun ns ks hns hks => (h.2 ns ks (hn ▸ hns) (h.1 ▸ hks)).symm⟩

/-- Equal padded sizes give equal offsets. -/
theorem SamePages.tileOffset_eq {g r : Geom} (h : SamePages g r) {ns ks : Nat} (hns : ns < g.Sn) (hks : ks ≤ g.Sk) :
    g.tileOffset ns ks = r.tileOffset ns ks := by
  have hrow : ∀ ns, ns < g.Sn → ∀ ks, ks ≤ g.Sk →
      bytes ((List.range ks).map (g.tile ns)) = bytes ((List.range ks).map (r.tile ns)) := by
    intro ns hns ks hks
    simp only [bytes, List.map_map]
    exact congrArg List.sum
      (List.map_congr_left fun i hi => h.2 ns i hns (lt_of_lt_of_le (List.mem_range.mp hi) hks))
  have hrows : ∀ m, m ≤ g.Sn → bytes ((List.range m).flatMap g.tileRow) = bytes ((List.range m).flatMap r.tileRow) := by
    intro m hm
    induction m with
    | zero => rfl
    | succ m ih =>
        simp only [List.range_succ, List.flatMap_append, bytes_append, ih (Nat.le_of_succ_le hm), List.flatMap_cons,
          List.flatMap_nil, List.append_nil]
        congr 1
        rw [Geom.tileRow, Geom.tileRow, ← h.1]
        exact hrow m hm g.Sk (Nat.le_refl _)
  rw [Geom.tileOffset, Geom.tileOffset, hrows ns hns.le, hrow ns hns ks hks]

/-- Walks with the same offsets and the same total have the same padded sizes. -/
theorem samePages_of_offsets {g r : Geom} (hSk : g.Sk = r.Sk) (hSn : g.Sn = r.Sn) (h0 : 0 < g.Sk)
    (hbytes : bytes g.tiles = bytes r.tiles)
    (hoff : ∀ ns ks, ns < g.Sn → ks < g.Sk → g.tileOffset ns ks = r.tileOffset ns ks) : SamePages g r := by
  refine ⟨hSk, fun ns ks hns hks => ?_⟩
  have hnext : g.tileOffset ns (ks + 1) = r.tileOffset ns (ks + 1) := by
    rcases Nat.lt_or_ge (ks + 1) g.Sk with hlt | hge
    · exact hoff ns (ks + 1) hns hlt
    · have hlast : ks + 1 = g.Sk := by omega
      rw [hlast, g.tileOffset_row, hSk, r.tileOffset_row]
      rcases Nat.lt_or_ge (ns + 1) g.Sn with hlt | hge
      · exact hoff (ns + 1) 0 hlt h0
      · have hend : ns + 1 = g.Sn := by omega
        rw [hend, g.tileOffset_end, hSn, r.tileOffset_end, hbytes]
  rw [g.tileOffset_succ, r.tileOffset_succ, hoff ns ks hns hks] at hnext
  exact Nat.add_left_cancel hnext

namespace Geom

variable {d : Geom} {L R : Nat}

/-- Reading at the tile starts of one walk and the cells of another fits a third layout only if the reader's slices
are the writer's, or the two walks cut alike. -/
theorem Aligned.sameCut_of_readIndex (hd : d.Aligned) (hl : (d.withKS L).Aligned) (hr : (d.withKS R).Aligned)
    (hN : 0 < d.N) (hK : 0 < d.K) (hL : 128 ∣ L) (hSk : (d.withKS L).Sk = (d.withKS R).Sk) (hcut : ¬ SameCut d.K L R)
    (hread : ∀ k n, k < d.K → n < d.N → (d.withKS L).readIndex (d.withKS R) k n = d.position k n) :
    SameCut d.K d.KS R := by
  have hLpos : 0 < L := hl.KS_pos
  have hRpos : 0 < R := hr.KS_pos
  -- with one slice each they would cut alike
  have hgt : L < d.K ∧ R < d.K := by
    by_contra hne
    refine hcut ?_
    have hone : ∀ {S}, 0 < S → (1 < pieces d.K S ↔ S < d.K) := fun hS => by rw [lt_pieces_iff hS, Nat.one_mul]
    have h1 := hone hLpos
    have h2 := hone hRpos
    simp only [Sk, withKS] at hSk
    rw [hSk] at h1
    exact .inr (by omega)
  have hRead0 : ∀ {k n}, k < R → n < d.NMAX → (d.withKS L).readIndex (d.withKS R) k n = (d.withKS R).position k n := by
    intro k n hk hn
    simp only [readIndex, position, withKS, Nat.div_eq_of_lt hk, Nat.div_eq_of_lt hn]
    rfl
  by_cases hw : d.Narrow
  · by_contra hne
    have hR32 : 32 ∣ R := hr.KS
    have hsecond := hread R 0 hgt.2 hN
    have hslot : (d.withKS L).readIndex (d.withKS R) R 0 = pgup (L * 32) := by
      have hnext : (d.withKS L).position L 0 = pgup (L * 32) := hl.position_next hw hN hgt.1
      rw [← hnext]
      simp only [readIndex, position, withKS, Nat.zero_div, Nat.div_self hRpos, Nat.div_self hLpos, cellAt,
        Nat.mod_self, Nat.zero_mod, Cell.tileIndex, Nat.zero_mul]
    rw [hslot, pgup_of_dvd (by omega)] at hsecond
    have hLR : L ≠ R := fun he => hcut (.inl he)
    rcases Nat.lt_trichotomy d.KS R with hlt | heq | hlt
    · have hfirst := hread d.KS 0 (by omega) hN
      rw [hRead0 hlt hd.NMAX_pos, position_first (d.withKS R) hlt hd.KS, hd.position_next hw hN (by omega)] at hfirst
      have hflush : Flush d.K d.KS := .inl (by
        have := dvd_pgup (d.KS * 32)
        omega)
      rw [hd.position_narrow hw hflush hgt.2 hN] at hsecond
      simp only [Nat.zero_div, Nat.zero_mul, Nat.zero_mod, Nat.zero_add] at hsecond
      omega
    · exact hne (.inl heq)
    · rw [position_first d hlt hR32] at hsecond
      omega
  · have hwide : 32 < min d.N d.NMAX := by
      have hNd := hd.N
      have hMd := hd.NMAX
      have hMp := hd.NMAX_pos
      unfold Narrow at hw
      omega
    have hblock := hread 0 32 hK (by omega)
    rw [hRead0 hRpos (by omega), hd.position_block hwide hK, hr.position_block hwide hK] at hblock
    apply sameCut_of_min
    simp only [withKS] at hblock
    omega

/-- Then the two walks have the same pages. -/
theorem Aligned.samePages_of_readIndex (hd : d.Aligned) (hl : (d.withKS L).Aligned) (hr : (d.withKS R).Aligned)
    (hK : 0 < d.K) (hSk : (d.withKS L).Sk = (d.withKS R).Sk) (hs : SameCut d.K d.KS R)
    (hbytes : bytes (d.withKS L).tiles = bytes d.tiles)
    (hread : ∀ k n, k < d.K → n < d.N → (d.withKS L).readIndex (d.withKS R) k n = d.position k n) :
    SamePages (d.withKS L) (d.withKS R) := by
  have hLS : 0 < (d.withKS L).Sk := (lt_pieces_iff hl.KS_pos).mpr (by simpa [withKS] using hK)
  refine samePages_of_offsets hSk rfl hLS ?_ fun ns ks hns hks => ?_
  · rw [hbytes, sameCut_tiles hs hd.KS_pos hr.KS_pos]
  · have hks' : ks < (d.withKS R).Sk := lt_of_lt_of_eq hks hSk
    have hk : ks * R < d.K := (lt_pieces_iff hr.KS_pos).mp hks'
    have hn : ns * d.NMAX < d.N := (lt_pieces_iff hd.NMAX_pos).mp hns
    have hat := hread (ks * R) (ns * d.NMAX) hk hn
    rw [← sameCut_position hs hd hr.KS_pos hk] at hat
    have hR : ks * R / R = ks := Nat.mul_div_cancel _ hr.KS_pos
    have hM : ns * d.NMAX / d.NMAX = ns := Nat.mul_div_cancel _ hd.NMAX_pos
    simp only [readIndex, position, withKS, hR, hM] at hat
    exact Nat.add_right_cancel hat

end Geom

/-! ### The loaders -/

section

variable {d : Dumper} {l : Loader} {c c' : OrkNpu} {K N : Nat}

/-- The slices a run of context `c` reads, as a variant of the walk that dumped. -/
theorem geom_eq_withKS (hnm : c.soc.nmax = c'.soc.nmax) : geom c' K N = (d.geom c K N).withKS c'.int8Ks := by
  simp only [geom, Dumper.geom, Geom.withKS, hnm]

theorem loadGeom_eq_withKS (hnm : c.soc.nmax = c'.soc.nmax) : loadGeom c' K N = (d.geom c K N).withKS 1024 := by
  simp only [loadGeom, Dumper.geom, Geom.withKS, hnm]

/-- A loader that returns a weight has checked the header and the size of the body. -/
theorem Loader.run_some {env : LoadEnv} {b : Blob} {n : Nat} {w : Loaded} (h : l.run c env K N b n = some w) :
    orkiPackCheck c b.hdr n .i8 K N = none ∧ n - orkPackHdrBytes = bytes (l.walk c K N).tiles ∧
    ((∃ codes, l = .load ∧ c.fd < 0 ∧ w = .codes (stores codes ((geom c K N).gathers b.body))) ∨
      ∃ Bb, ¬ (l = .load ∧ c.fd < 0) ∧ w = .tiles (loadGeom c K N).Sk (loadGeom c K N).Sn Bb ∧
        loadTiles l.len b.body env.buf 0 0 (loadGeom c K N).tiles = some Bb) := by
  have honline : ∀ {len}, loadOnline len c env K N b (n - orkPackHdrBytes) = some w →
      n - orkPackHdrBytes = bytes (loadGeom c K N).tiles ∧ ∃ Bb,
        w = .tiles (loadGeom c K N).Sk (loadGeom c K N).Sn Bb ∧
        loadTiles len b.body env.buf 0 0 (loadGeom c K N).tiles = some Bb := by
    intro len h
    unfold loadOnline at h
    split at h
    · cases h
    · split at h
      · cases h
      · rename_i hn
        obtain ⟨Bb, hBb, rfl⟩ := Option.map_eq_some_iff.mp h
        exact ⟨not_not.mp hn, Bb, rfl, hBb⟩
  cases l with
  | load =>
      simp only [Loader.run, i8MmLoad] at h
      split at h
      · cases h
      · rename_i hchk
        refine ⟨not_not.mp hchk, ?_⟩
        split at h
        · rename_i hfd
          split at h
          · cases h
          · rename_i codes _
            split at h
            · cases h
            · rename_i hr
              have hrc := not_not.mp hr
              have hwalk : Loader.load.walk c K N = geom c K N := if_pos ⟨rfl, hfd⟩
              have hdims : 32 ∣ K ∧ 32 ∣ N := by
                by_contra hne
                rw [orkiI8UntileBlob, if_pos (by omega)] at hrc
                exact absurd (show (-1 : Int) = 0 from hrc) (by decide)
              obtain ⟨hiff, hres⟩ := orkiI8UntileBlob_spec (c := c) hdims.1 hdims.2 b.body (n - orkPackHdrBytes) codes
              have hsize := hiff.mp hrc
              rw [hres hsize] at h
              cases h
              exact ⟨by rw [hwalk, hsize], .inl ⟨codes, rfl, hfd, rfl⟩⟩
        · rename_i hfd
          have hwalk : Loader.load.walk c K N = loadGeom c K N := if_neg fun h => hfd h.2
          obtain ⟨hn, Bb, hw, hBb⟩ := honline h
          exact ⟨by rw [hwalk, hn], .inr ⟨Bb, fun h => hfd h.2, hw, hBb⟩⟩
  | loadImport =>
      simp only [Loader.run, i8MmLoadImport] at h
      split at h
      · cases h
      · rename_i hchk
        split at h
        · cases h
        · obtain ⟨hn, Bb, hw, hBb⟩ := honline h
          exact ⟨not_not.mp hchk, hn, .inr ⟨Bb, by simp, hw, hBb⟩⟩
  | loadFlags =>
      simp only [Loader.run, i8MmLoadFlags] at h
      split at h
      · cases h
      · rename_i hchk
        obtain ⟨hn, Bb, hw, hBb⟩ := honline h
        exact ⟨not_not.mp hchk, hn, .inr ⟨Bb, by simp, hw, hBb⟩⟩
  | poolAdd =>
      simp only [Loader.run, i8StreamPoolAdd] at h
      split at h
      · cases h
      · rename_i hchk
        split at h
        · cases h
        · obtain ⟨hn, Bb, hw, hBb⟩ := honline h
          exact ⟨not_not.mp hchk, hn, .inr ⟨Bb, by simp, hw, hBb⟩⟩

/-- Everything can be allocated, and is zero. -/
def LoadEnv.good : LoadEnv := ⟨some fun _ => 0, true, true, fun _ => some fun _ => 0⟩

/-- With all allocations a stamped body of the right size is loaded. -/
theorem Loader.exists_run (hK : 32 ∣ K) (hN : 32 ∣ N) {b : Blob} {n : Nat}
    (hchk : orkiPackCheck c b.hdr n .i8 K N = none) (hn : n - orkPackHdrBytes = bytes (l.walk c K N).tiles) :
    ∃ w, l.run c .good K N b n = some w := by
  have honline : ∀ len, n - orkPackHdrBytes = bytes (loadGeom c K N).tiles →
      ∃ w, loadOnline len c .good K N b (n - orkPackHdrBytes) = some w := by
    intro len hn
    obtain ⟨Bb, hBb⟩ := exists_loadTiles len b.body (show ∀ i, (LoadEnv.good.buf i).isSome from fun _ => rfl) (loadGeom c K N).tiles 0 0
    exact ⟨_, by rw [loadOnline, if_neg (by omega), if_neg (not_not.mpr hn), hBb]; rfl⟩
  cases l with
  | load =>
      simp only [Loader.run, i8MmLoad, hchk, ne_eq, not_true_eq_false, if_false]
      by_cases hfd : c.fd < 0
      · have hwalk : Loader.load.walk c K N = geom c K N := if_pos ⟨rfl, hfd⟩
        rw [hwalk] at hn
        obtain ⟨-, hres⟩ := orkiI8UntileBlob_spec (c := c) hK hN b.body (n - orkPackHdrBytes) fun _ => 0
        refine ⟨_, by rw [if_pos hfd]; simp only [LoadEnv.good, hres hn.symm]; rfl⟩
      · have hwalk : Loader.load.walk c K N = loadGeom c K N := if_neg fun h => hfd h.2
        rw [hwalk] at hn
        rw [if_neg hfd]
        exact honline _ hn
  | loadImport =>
      simp only [Loader.run, i8MmLoadImport, hchk, ne_eq, not_true_eq_false, if_false, LoadEnv.good]
      exact honline _ hn
  | loadFlags =>
      simp only [Loader.run, i8MmLoadFlags, hchk, ne_eq, not_true_eq_false, if_false]
      exact honline _ hn
  | poolAdd =>
      simp only [Loader.run, i8StreamPoolAdd, hchk, ne_eq, not_true_eq_false, if_false, LoadEnv.good]
      exact honline _ hn

end

end OrkDriver.Pack
