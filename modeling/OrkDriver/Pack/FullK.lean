import OrkDriver.Lib.Loops
import OrkDriver.Pack.DumpPool

/-!
The full-K copy of an int8 weight (`npu/i8/pack.c`), which is made in five places: byte by byte from the sliced tiles when a
blob is loaded or added to a streaming pool, run by run when it is imported, from the raw weight when a stage is filled, and
from the raw weight on disk.
-/

namespace OrkDriver.Pack

open OrkDriver.Lib OrkDriver.Npu OrkDriver.Core

/-! ### The rebuild -/

namespace Geom

variable (g : Geom)

/-- The full-K tile of N-slice `ns`. -/
def fullTile (ns : Nat) : Tile := ⟨ns * g.NMAX, pieceLen g.N g.NMAX ns, 0, g.K⟩

/-- The contents of `Bb[ns*Sk+ks]`. -/
def slice (Bb : List Mem) (ns ks : Nat) : Mem := Bb.getD (ns * g.Sk + ks) fun _ => 0

/-- The cell of the full-K tile that cell `v` of K-slice `ks` goes to: `ktf = k0/32 + kt`. -/
def fullCell (ks : Nat) (v : Cell) : Cell := ⟨v.nt, ks * g.KS / 32 + v.kt, v.nl, v.kk⟩

/-- The stores of the byte-wise rebuild of `Bf[ns]`. -/
def rebuildBytes (Bb : List Mem) (ns : Nat) : List (Nat × Int8) :=
  (List.range g.Sk).flatMap fun ks =>
    (g.tile ns ks).cells.map fun v =>
      ((g.fullCell ks v).tileIndex (g.K / 32), g.slice Bb ns ks (v.tileIndex (g.tile ns ks).KT))

/-- The stores of the rebuild by runs: one `memcpy` of the `KT` blocks of a K-slice for each block of columns. -/
def rebuildRuns (Bb : List Mem) (ns : Nat) : List (Nat × Int8) :=
  (List.range g.Sk).flatMap fun ks =>
    (List.range (g.tile ns ks).NN).flatMap fun nt =>
      (List.range ((g.tile ns ks).KT * 32 * 32)).map fun j =>
        ((nt * (g.K / 32) + ks * g.KS / 32) * 32 * 32 + j, g.slice Bb ns ks (nt * (g.tile ns ks).KT * 32 * 32 + j))

/-- From its element `(k, n)` on the body `m` is `B`, slice by slice. -/
def Spells (m B : Mem) : Prop :=
  ∀ k n, k < g.K → n < g.N → m (g.position k n) = B (k * g.N + n)

end Geom

/-- `Bf[0 .. Sn)`: buffers with the stores of each. If one cannot be had there is no full-K copy. -/
def fullK (buf : Nat → Option Mem) (fill : Nat → List (Nat × Int8)) (Sn : Nat) : Option (List Mem) :=
  (List.range Sn).mapM fun ns => (buf ns).map fun fresh => stores fresh (fill ns)

/-- The shapes that have a full-K copy. -/
def BfEnvelope (K : Nat) : Prop := K % 512 = 0 ∧ K ≤ 4096

instance (K : Nat) : Decidable (BfEnvelope K) := inferInstanceAs (Decidable (_ ∧ _))

/-- What a rebuild gets from outside: `ORK_NO_BF`, and the buffers. -/
structure BfEnv where
  noBf : Bool
  buf : Nat → Option Mem

/-- The `Bf` a loader leaves beside the tiles it loaded. -/
def rebuilt (rebuild : Geom → List Mem → Nat → List (Nat × Int8)) (c : OrkNpu) (e : BfEnv) (K N : Nat) :
    Option Loaded → Option (List Mem)
  | some (.tiles _ _ Bb) =>
    if BfEnvelope K ∧ e.noBf = false then fullK e.buf (rebuild (loadGeom c K N) Bb) (loadGeom c K N).Sn else none
  | _ => none

/-- The `Bf` of `ork_i8_mm_load`. -/
def i8MmLoadBf (c : OrkNpu) (env : LoadEnv) (e : BfEnv) (K N : Nat) (b : Blob) (n : Nat) : Option (List Mem) :=
  rebuilt Geom.rebuildBytes c e K N (i8MmLoad c env K N b n)

/-- The `Bf` of `ork_i8_mm_load_import`. -/
def i8MmLoadImportBf (c : OrkNpu) (env : LoadEnv) (e : BfEnv) (K N : Nat) (b : Blob) (n : Nat) : Option (List Mem) :=
  rebuilt Geom.rebuildRuns c e K N (i8MmLoadImport c env K N b n)

/-- The `Bf` of `ork_i8_stream_pool_add`, whose buffers come with the stage: `ORK_NO_BF` is not asked. -/
def i8StreamPoolAddBf (c : OrkNpu) (env : LoadEnv) (buf : Nat → Option Mem) (K N : Nat) (b : Blob) (n : Nat) :
    Option (List Mem) :=
  rebuilt Geom.rebuildBytes c ⟨false, buf⟩ K N (i8StreamPoolAdd c env K N b n)

/-- The `Bf` of `ork_i8_stage_fill`: the workers of the pool tile `B` over its full K. -/
def i8StageFillBf (c : OrkNpu) (pool : Nat) (order : Nat → List (Nat × Int8) → List (Nat × Int8))
    (buf : Nat → Option Mem) (K N : Nat) (B : Mem) : Option (List Mem) :=
  if K % 32 ≠ 0 ∨ N % 32 ≠ 0 then none
  else if BfEnvelope K then
    fullK buf (fun ns => order ns ((orkParallelFor pool (bfTile c K N ns).NN).flatMap fun r =>
      (bfTile c K N ns).rangeStores N 0 B r.1 r.2)) (pieces N c.soc.nmax)
  else none

/-! ### Bytes and runs -/

/-- A run of blocks, byte by byte. -/
theorem run_eq_bytes {α : Type*} (f : Nat → α) (KT : Nat) :
    ((List.range KT).flatMap fun kt => (List.range 32).flatMap fun nl => (List.range 32).map fun kk =>
      f (kt * 1024 + nl * 32 + kk)) = (List.range (KT * 32 * 32)).map f := by
  have hblock : ∀ kt, ((List.range 32).flatMap fun nl => (List.range 32).map fun kk => f (kt * 1024 + nl * 32 + kk)) =
      (List.range 1024).map fun x => f (kt * 1024 + x) := by
    intro kt
    rw [flatMap_range_map]
    apply List.map_congr_left
    intro x _
    rw [Nat.add_assoc, Nat.div_add_mod']
  simp only [hblock]
  rw [flatMap_range_map, Nat.mul_assoc]
  apply List.map_congr_left
  intro x _
  rw [Nat.div_add_mod']

namespace Geom

variable {g : Geom}

/-- The two rebuilds make the same stores, in the same order. -/
theorem rebuildRuns_eq (g : Geom) (Bb : List Mem) (ns : Nat) : g.rebuildRuns Bb ns = g.rebuildBytes Bb ns := by
  unfold rebuildRuns rebuildBytes
  apply List.flatMap_congr
  intro ks _
  unfold Tile.cells
  rw [List.map_flatMap]
  apply List.flatMap_congr
  intro nt _
  rw [← run_eq_bytes]
  simp only [List.map_flatMap, List.map_map]
  apply List.flatMap_congr
  intro kt _
  apply List.flatMap_congr
  intro nl _
  apply List.map_congr_left
  intro kk _
  simp only [Function.comp_apply, fullCell, Cell.tileIndex, Prod.mk.injEq]
  constructor
  · ring
  · congr 1
    ring

/-! ### The cells of the full-K tile -/

theorem Aligned.fullTile_blocked (h : g.Aligned) (ns : Nat) : (g.fullTile ns).Blocked := ⟨h.K, dvd_pieceLen h.N h.NMAX⟩

theorem Aligned.fullCell_elem (h : g.Aligned) (ns ks : Nat) (v : Cell) :
    (g.fullTile ns).elemIndex g.N (g.fullCell ks v) = (g.tile ns ks).elemIndex g.N v := by
  have hk0 : ks * g.KS / 32 * 32 = ks * g.KS := Nat.div_mul_cancel (Nat.dvd_mul_left_of_dvd h.KS ks)
  unfold Tile.elemIndex
  simp only [fullTile, fullCell, tile, Nat.zero_add, Nat.add_mul, hk0]

theorem Aligned.fullCell_mem (h : g.Aligned) {ns ks : Nat} (hks : ks < g.Sk) {v : Cell} (hv : v ∈ (g.tile ns ks).cells) :
    g.fullCell ks v ∈ (g.fullTile ns).cells := by
  obtain ⟨hnt, hkt, hnl, hkk⟩ := Tile.mem_cells.mp hv
  have hend := piece_le h.KS_pos hks
  have hK := h.K
  have hk0 : 32 ∣ ks * g.KS := Nat.dvd_mul_left_of_dvd h.KS ks
  refine Tile.mem_cells.mpr ⟨hnt, ?_, hnl, hkk⟩
  simp only [Tile.KT, tile, fullTile, fullCell] at hkt ⊢
  omega

theorem Aligned.exists_fullCell (h : g.Aligned) {ns : Nat} {u : Cell} (hu : u ∈ (g.fullTile ns).cells) :
    ∃ ks < g.Sk, ∃ v ∈ (g.tile ns ks).cells, g.fullCell ks v = u := by
  obtain ⟨hnt, hkt, hnl, hkk⟩ := Tile.mem_cells.mp hu
  have hk : u.kt * 32 < g.K := by
    have hK := h.K
    simp only [Tile.KT, fullTile] at hkt
    omega
  have hmod := mod_lt_pieceLen h.KS_pos hk
  have hdiv := Nat.div_add_mod' (u.kt * 32) g.KS
  have hk0 : 32 ∣ u.kt * 32 / g.KS * g.KS := Nat.dvd_mul_left_of_dvd h.KS _
  have hlen : 32 ∣ pieceLen g.K g.KS (u.kt * 32 / g.KS) := dvd_pieceLen h.K h.KS
  refine ⟨u.kt * 32 / g.KS, div_lt_pieces h.KS_pos hk, ⟨u.nt, u.kt * 32 % g.KS / 32, u.nl, u.kk⟩,
    Tile.mem_cells.mpr ⟨hnt, ?_, hnl, hkk⟩, ?_⟩
  · simp only [Tile.KT, tile]
    omega
  · cases u
    simp only [fullCell, Cell.mk.injEq, true_and, and_true]
    dsimp only at hdiv hk0
    omega

end Geom

/-! ### What the stores leave -/

/-- Stores that write the elements of a tile into its cells, and reach every cell, leave its image. -/
theorem Tile.stores_eq_image {t : Tile} (ht : t.Blocked) {N : Nat} {B m : Mem} {l : List (Nat × Int8)}
    (hall : ∀ w ∈ l, ∃ u ∈ t.cells, w = (u.tileIndex t.KT, B (t.elemIndex N u)))
    (hcover : ∀ u ∈ t.cells, ∃ w ∈ l, w.1 = u.tileIndex t.KT) {j : Nat} (hj : j < t.Kp * t.Nc) :
    stores m l j = t.image N B j := by
  obtain ⟨v, hv, rfl⟩ := Tile.exists_cell ht hj
  rw [Tile.image_cell hv]
  apply stores.of_mem (hcover v hv)
  intro w hw heq
  obtain ⟨u, hu, rfl⟩ := hall w hw
  rw [Tile.tileIndex_inj hu hv heq]

section

variable {c : OrkNpu} {K N ns j : Nat} {B : Mem}

theorem loadGeom_aligned (hc : c.soc ∈ socTable) (hK : 32 ∣ K) (hN : 32 ∣ N) : (loadGeom c K N).Aligned := by
  have hn := socTable_nmax hc
  exact ⟨by simp [loadGeom], by simp [loadGeom], by simp [loadGeom, hn], by simp [loadGeom, hn], hK, hN⟩

/-- A loaded slice holds the elements of the weight the body spells. -/
theorem slice_cell {g : Geom} (h : g.Aligned) {len : Tile → Nat} (hlen : ∀ t, t.Kp * t.Nc ≤ len t) {src : Mem}
    (hsrc : g.Spells src B) {buf : Nat → Option Mem} {Bb : List Mem} (hBb : loadTiles len src buf 0 0 g.tiles = some Bb)
    {ks : Nat} (hns : ns < g.Sn) (hks : ks < g.Sk) {v : Cell} (hv : v ∈ (g.tile ns ks).cells) :
    g.slice Bb ns ks (v.tileIndex (g.tile ns ks).KT) = B ((g.tile ns ks).elemIndex g.N v) := by
  obtain ⟨fresh, -, hat⟩ := loaded_tile hBb hns hks
  have hin := lt_of_lt_of_le (Tile.tileIndex_lt (h.blocked ns ks) hv) (hlen _)
  unfold Geom.slice
  rw [List.getD_eq_getElem?_getD, hat, Option.getD_some, if_pos hin]
  obtain ⟨k, n, hk, hn, hel, rfl, rfl, rfl⟩ := h.elem_unique hns hks hv
  rw [hel]
  exact hsrc k n hk hn

/-- The rebuild from loaded slices is the tiling of the whole. -/
theorem rebuildBytes_image {g : Geom} (h : g.Aligned) {len : Tile → Nat} (hlen : ∀ t, t.Kp * t.Nc ≤ len t) {src : Mem}
    (hsrc : g.Spells src B) {buf : Nat → Option Mem} {Bb : List Mem} (hBb : loadTiles len src buf 0 0 g.tiles = some Bb)
    (hns : ns < g.Sn) (hj : j < g.K * pieceLen g.N g.NMAX ns) (fresh : Mem) :
    stores fresh (g.rebuildBytes Bb ns) j = (g.fullTile ns).image g.N B j := by
  refine Tile.stores_eq_image (h.fullTile_blocked ns) ?_ ?_ hj
  · intro w hw
    obtain ⟨ks, hks, hw⟩ := List.mem_flatMap.mp hw
    obtain ⟨v, hv, rfl⟩ := List.mem_map.mp hw
    rw [List.mem_range] at hks
    refine ⟨g.fullCell ks v, h.fullCell_mem hks hv, ?_⟩
    rw [slice_cell h hlen hsrc hBb hns hks hv, h.fullCell_elem]
    rfl
  · intro u hu
    obtain ⟨ks, hks, v, hv, rfl⟩ := h.exists_fullCell hu
    exact ⟨_, List.mem_flatMap.mpr ⟨ks, List.mem_range.mpr hks, List.mem_map_of_mem hv⟩, rfl⟩

theorem getElem?_mapM {α β : Type*} {f : α → Option β} {l : List α} {r : List β} (h : l.mapM f = some r) {i : Nat} {a : α}
    (ha : l[i]? = some a) : ∃ b, f a = some b ∧ r[i]? = some b := by
  induction l generalizing r i with
  | nil => cases ha
  | cons x l ih =>
      rw [List.mapM_cons] at h
      obtain ⟨y, hy, h⟩ := Option.bind_eq_some_iff.mp h
      obtain ⟨k, hk, h⟩ := Option.bind_eq_some_iff.mp h
      cases h
      cases i with
      | zero =>
          cases ha
          exact ⟨y, hy, rfl⟩
      | succ i =>
          rw [List.getElem?_cons_succ] at ha
          exact ih hk ha

theorem fullK_some {buf : Nat → Option Mem} {fill : Nat → List (Nat × Int8)} {Sn : Nat} {Bf : List Mem}
    (h : fullK buf fill Sn = some Bf) (hns : ns < Sn) : ∃ fresh, Bf[ns]? = some (stores fresh (fill ns)) := by
  obtain ⟨m, hm, hat⟩ := getElem?_mapM h (List.getElem?_range hns)
  obtain ⟨fresh, -, rfl⟩ := Option.map_eq_some_iff.mp hm
  exact ⟨fresh, hat⟩

/-- The `Bf` of a loader, when it has one. -/
theorem rebuilt_some {rebuild : Geom → List Mem → Nat → List (Nat × Int8)} {l : Loader} {env : LoadEnv} {e : BfEnv}
    {b : Blob} {n : Nat} {Bf : List Mem} (h : rebuilt rebuild c e K N (l.run c env K N b n) = some Bf) :
    ∃ Bb, loadTiles l.len b.body env.buf 0 0 (loadGeom c K N).tiles = some Bb ∧
      fullK e.buf (rebuild (loadGeom c K N) Bb) (loadGeom c K N).Sn = some Bf := by
  cases hw : l.run c env K N b n with
  | none =>
      rw [hw] at h
      cases h
  | some w =>
      obtain ⟨-, -, ⟨codes, -, -, rfl⟩ | ⟨Bb, -, rfl, hBb⟩⟩ := Loader.run_some hw
      · rw [hw] at h
        cases h
      · rw [hw] at h
        unfold rebuilt at h
        dsimp only at h
        split_ifs at h
        exact ⟨Bb, hBb, h⟩

theorem Loader.le_len (l : Loader) (t : Tile) : t.Kp * t.Nc ≤ l.len t := by
  unfold Loader.len
  split_ifs
  · exact Nat.le_refl _
  · exact le_pgup _

/-- What the rebuild of a loader leaves, byte by byte or by runs. -/
theorem rebuilt_image (hc : c.soc ∈ socTable) (hK : 32 ∣ K) (hN : 32 ∣ N) {l : Loader} {env : LoadEnv} {e : BfEnv}
    {b : Blob} {n : Nat} {Bf : List Mem} (hb : (loadGeom c K N).Spells b.body B)
    (h : rebuilt Geom.rebuildBytes c e K N (l.run c env K N b n) = some Bf) (hns : ns < pieces N c.soc.nmax)
    (hj : j < K * pieceLen N c.soc.nmax ns) :
    ∃ m, Bf[ns]? = some m ∧ m j = (bfTile c K N ns).image N B j := by
  obtain ⟨Bb, hBb, hBf⟩ := rebuilt_some h
  obtain ⟨fresh, hat⟩ := fullK_some hBf hns
  exact ⟨_, hat, rebuildBytes_image (loadGeom_aligned hc hK hN) l.le_len hb hBb hns hj fresh⟩

theorem bfTile_blocked (hc : c.soc ∈ socTable) (hK : 32 ∣ K) (hN : 32 ∣ N) (ns : Nat) : (bfTile c K N ns).Blocked :=
  (loadGeom_aligned hc hK hN).fullTile_blocked ns

/-- What the workers leave, in whatever order their stores reach memory. -/
theorem stageFill_image (hc : c.soc ∈ socTable) (hN : 32 ∣ N) {pool : Nat}
    {order : Nat → List (Nat × Int8) → List (Nat × Int8)} (horder : ∀ i l, (order i l).Perm l) {buf : Nat → Option Mem}
    {Bf : List Mem} (h : i8StageFillBf c pool order buf K N B = some Bf) (hns : ns < pieces N c.soc.nmax)
    (hj : j < K * pieceLen N c.soc.nmax ns) : ∃ m, Bf[ns]? = some m ∧ m j = (bfTile c K N ns).image N B j := by
  unfold i8StageFillBf at h
  split_ifs at h with hdims henv
  obtain ⟨fresh, hat⟩ := fullK_some h hns
  refine ⟨_, hat, ?_⟩
  rw [Tile.workers_cells]
  refine Tile.stores_eq_image (bfTile_blocked hc (by omega) hN ns) ?_ ?_ hj
  · intro w hw
    obtain ⟨u, hu, rfl⟩ := List.mem_map.mp ((horder ns _).mem_iff.mp hw)
    exact ⟨u, hu, by rw [Nat.zero_add]⟩
  · intro u hu
    exact ⟨_, (horder ns _).mem_iff.mpr (List.mem_map_of_mem hu), Nat.zero_add _⟩

/-- The tiles of the companion, each behind the ones before it. -/
theorem dumpBf_image (hc : c.soc ∈ socTable) {out : Blob} {cap : Nat} (h : (i8WDumpBfCpu c K N B out cap).1 ≠ 0)
    (hns : ns < pieces N c.soc.nmax) (hj : j < K * pieceLen N c.soc.nmax ns) :
    (i8WDumpBfCpu c K N B out cap).2.body (bytes ((List.range ns).map (bfTile c K N)) + j) =
      (bfTile c K N ns).image N B j := by
  obtain ⟨ht, hcap⟩ := @Dumper.run_ne_zero .bf c K N B out cap h
  have hrun := @Dumper.run_eq .bf c K N B out cap
  rw [if_pos ⟨ht, by omega⟩] at hrun
  have hblocked : ∀ t ∈ bfTiles c K N, t.Blocked := by
    intro t htm
    obtain ⟨i, -, rfl⟩ := List.mem_map.mp htm
    exact bfTile_blocked hc ht.dvd.1 ht.dvd.2 i
  obtain ⟨m, hm, hin, -⟩ := dumpTiles_spec (N := N) (B := B) hblocked out.mem hcap
  change dumpTiles cap N B (Dumper.bf.tiles c K N) orkPackHdrBytes out.mem = _ at hm
  have hmem : (orkPackHdrBytes + bytes ((List.range ns).map (bfTile c K N)), bfTile c K N ns) ∈
      offsets orkPackHdrBytes (bfTiles c K N) := by
    unfold bfTiles
    rw [offsets_map]
    exact List.mem_map.mpr ⟨ns, List.mem_range.mpr hns, rfl⟩
  have hat := hin _ _ hmem j (lt_of_lt_of_le hj (le_pgup _))
  change (Dumper.bf.run c K N B out cap).2.body _ = _
  rw [hrun, hm]
  unfold Blob.body
  rw [← Nat.add_assoc]
  exact hat

/-- A blob dumped by a context that cuts K as the loaders do spells the weight it was dumped from. -/
theorem spells_of_dump (hc : c.soc ∈ socTable) (hcut : c.int8Ks = 1024) (hK : 0 < K) {out b : Blob} {cap size : Nat}
    (h : i8WDumpCpu c K N B out cap = (size, b)) (hne : size ≠ 0) : (loadGeom c K N).Spells b.body B := by
  have hrun : Dumper.bb.run c K N B out cap = (size, b) := h
  obtain ⟨ht, hcap⟩ := @Dumper.run_ne_zero .bb c K N B out cap (by rwa [hrun])
  obtain ⟨blob, hdump, -, hholds⟩ := Dumper.run_holds hc ht B out hcap
  rw [hrun, Prod.mk.injEq] at hdump
  obtain ⟨-, rfl⟩ := hdump
  have hgeom : Dumper.bb.geom c K N = loadGeom c K N := by
    simp only [Dumper.geom, Dumper.slice, loadGeom, hcut]
  intro k n hk hn
  have hat := (hgeom ▸ hholds hK).position (loadGeom_aligned hc ht.dvd.1 ht.dvd.2) hk hn
  rwa [Nat.zero_add] at hat

/-- Every body spells the weight read off it. -/
theorem Geom.spells_self (g : Geom) (m : Mem) : g.Spells m fun i => m (g.position (i / g.N) (i % g.N)) := by
  intro k n _ hn
  obtain ⟨hdiv, hmod⟩ := digits_div_mod hn k
  dsimp only
  rw [hdiv, hmod]

theorem exists_fullK {buf : Nat → Option Mem} (hbuf : ∀ i, (buf i).isSome = true) (fill : Nat → List (Nat × Int8))
    (Sn : Nat) : ∃ Bf, fullK buf fill Sn = some Bf := by
  unfold fullK
  induction List.range Sn with
  | nil => exact ⟨[], rfl⟩
  | cons i l ih =>
      obtain ⟨fresh, hfresh⟩ := Option.isSome_iff_exists.mp (hbuf i)
      obtain ⟨Bf, hBf⟩ := ih
      refine ⟨stores fresh (fill i) :: Bf, ?_⟩
      rw [List.mapM_cons, hfresh, hBf]
      rfl

/-- A loader with a device rebuilds the copy wherever a full-K submit is valid, it is not told otherwise and gets the
buffers. -/
theorem exists_rebuilt {rebuild : Geom → List Mem → Nat → List (Nat × Int8)} {l : Loader} {env : LoadEnv} {e : BfEnv}
    {b : Blob} {n : Nat} {w : Loaded} (hw : l.run c env K N b n = some w) (hfd : ¬ (l = .load ∧ c.fd < 0))
    (henv : BfEnvelope K) (he : e.noBf = false) (hbuf : ∀ i, (e.buf i).isSome = true) :
    ∃ Bf, rebuilt rebuild c e K N (l.run c env K N b n) = some Bf := by
  obtain ⟨-, -, ⟨codes, hl, hoff, -⟩ | ⟨Bb, -, rfl, -⟩⟩ := Loader.run_some hw
  · exact absurd ⟨hl, hoff⟩ hfd
  · obtain ⟨Bf, hBf⟩ := exists_fullK hbuf (rebuild (loadGeom c K N) Bb) (loadGeom c K N).Sn
    refine ⟨Bf, ?_⟩
    rw [hw]
    exact (if_pos ⟨henv, he⟩).trans hBf

end

/-- The rebuilds of the loader, of the import and of the streaming pool of `c`, the companion on disk and the tiling of the
raw weight by `d`: all hold the same bytes. -/
def FullKAgree (c d : OrkNpu) (K N : Nat) (B : Mem) (b : Blob) (n : Nat) : Prop :=
  ∃ full : Nat → Nat → Int8, ∀ ns < pieces N c.soc.nmax, ∀ j < K * pieceLen N c.soc.nmax ns,
    (∀ env e Bf, i8MmLoadBf c env e K N b n = some Bf → ∃ m, Bf[ns]? = some m ∧ m j = full ns j) ∧
    (∀ env e Bf, i8MmLoadImportBf c env e K N b n = some Bf → ∃ m, Bf[ns]? = some m ∧ m j = full ns j) ∧
    (∀ env buf Bf, i8StreamPoolAddBf c env buf K N b n = some Bf → ∃ m, Bf[ns]? = some m ∧ m j = full ns j) ∧
    (∀ out cap, (i8WDumpBfCpu d K N B out cap).1 ≠ 0 →
      (i8WDumpBfCpu d K N B out cap).2.body (bytes ((List.range ns).map (bfTile d K N)) + j) = full ns j) ∧
    ∀ pool order buf Bf, (∀ i l, (order i l).Perm l) → i8StageFillBf d pool order buf K N B = some Bf →
      ∃ m, Bf[ns]? = some m ∧ m j = full ns j

theorem fullK_copies_agree {c d : OrkNpu} (hc : c.soc ∈ socTable) (hd : d.soc ∈ socTable) {K N : Nat}
    (henv : BfEnvelope K) (hN : 32 ∣ N) {B : Mem} {b : Blob} (hb : (loadGeom c K N).Spells b.body B) (n : Nat) :
    FullKAgree c d K N B b n := by
  have hK : 32 ∣ K := by
    obtain ⟨h512, -⟩ := henv
    omega
  have hnm : d.soc.nmax = c.soc.nmax := (socTable_nmax hd).trans (socTable_nmax hc).symm
  have htile : bfTile d K N = bfTile c K N := by
    unfold bfTile
    rw [hnm]
  refine ⟨fun ns => (bfTile c K N ns).image N B, fun ns hns j hj => ⟨?_, ?_, ?_, ?_, ?_⟩⟩
  · intro env e Bf h
    exact @rebuilt_image c K N ns j B hc hK hN .load env e b n Bf hb h hns hj
  · intro env e Bf h
    have hruns : Geom.rebuildRuns = Geom.rebuildBytes := by
      funext g Bb ns
      exact g.rebuildRuns_eq Bb ns
    unfold i8MmLoadImportBf at h
    rw [hruns] at h
    exact @rebuilt_image c K N ns j B hc hK hN .loadImport env e b n Bf hb h hns hj
  · intro env buf Bf h
    exact @rebuilt_image c K N ns j B hc hK hN .poolAdd env _ b n Bf hb h hns hj
  · intro out cap h
    have hat := @dumpBf_image d K N ns j B hd out cap h (hnm ▸ hns) (hnm ▸ hj)
    rw [htile] at hat ⊢
    exact hat
  · intro pool order buf Bf horder h
    have hat := @stageFill_image d K N ns j B hd hN pool order horder buf Bf h (hnm ▸ hns) (hnm ▸ hj)
    rw [htile] at hat
    exact hat

/-- Two K-slices and two N-slices, the last of each ragged. -/
theorem fullK_copies_agree_ragged : ∃ b n, (∃ Bf, i8MmLoadBf ⟨3, socRk3588, 0⟩ .good ⟨false, fun _ => some fun _ => 0⟩ 1536
    8224 b n = some Bf) ∧ FullKAgree ⟨3, socRk3588, 0⟩ ⟨-1, socRk3588, 0⟩ 1536 8224 (fun i => .ofNat i) b n := by
  have hsoc : socRk3588 ∈ socTable := by decide
  have ht : Dumper.bb.Takes 1536 8224 := by decide
  obtain ⟨blob, hdump, hhdr, -⟩ := @Dumper.run_holds .bb ⟨3, socRk3588, 0⟩ hsoc 1536 8224 ht (fun i => .ofNat i)
    ⟨orkiPackStamp ⟨3, socRk3588, 0⟩ .i8 1536 8224, fun _ => 0⟩ _ (Nat.le_refl _)
  have hsize : orkPackHdrBytes + bytes (Dumper.bb.tiles ⟨3, socRk3588, 0⟩ 1536 8224) ≠ 0 := by
    unfold orkPackHdrBytes
    omega
  have hchk : orkiPackCheck ⟨3, socRk3588, 0⟩ blob.hdr (orkPackHdrBytes + bytes (Dumper.bb.tiles ⟨3, socRk3588, 0⟩ 1536
      8224)) .i8 1536 8224 = none := by
    rw [hhdr]
    exact (orkiPackCheck_stamp _ _ _ _ _ _ (Nat.le_add_right _ _)).mpr rfl
  obtain ⟨w, hw⟩ := @Loader.exists_run .load ⟨3, socRk3588, 0⟩ 1536 8224 (by decide) (by decide) blob _ hchk
    (Nat.add_sub_cancel_left _ _)
  have hbf : ∃ Bf, rebuilt Geom.rebuildBytes ⟨3, socRk3588, 0⟩ ⟨false, fun _ => some fun _ => 0⟩ 1536 8224
      (Loader.load.run ⟨3, socRk3588, 0⟩ .good 1536 8224 blob _) = some Bf :=
    exists_rebuilt hw (by decide) (by decide) rfl fun _ => rfl
  have hspells := spells_of_dump hsoc rfl (by decide) hdump hsize
  exact ⟨blob, _, hbf, fullK_copies_agree hsoc hsoc (by decide) (by decide) hspells _⟩

end OrkDriver.Pack
