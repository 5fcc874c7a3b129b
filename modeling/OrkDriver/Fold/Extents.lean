import OrkDriver.Fold.Container

/-!
The programs of the row-folded int8 runs (`npu/i8/fold.c`): templates captured at one shape, patched for the batch, and
the bytes their registers make the device touch beside the buffers of the slice.
-/

namespace OrkDriver.Fold

open OrkDriver.Lib OrkDriver.Pack

/-! ### Programs -/

/-- `SZ` -/
def sizes : List Nat := [36, 32, 28, 24, 20, 16, 14, 12, 10, 8, 6, 4, 2, 1]

/-- The row offsets and heights of the tiles of a batch, the largest that fits first; at most `n` of them. -/
def tiling : Nat → Nat → Nat → List (Nat × Nat)
  | 0, _, _ => []
  | n + 1, rem, off =>
    if rem = 0 then []
    else
      match sizes.find? (· ≤ rem) with
      | none => []
      | some m => (off, m) :: tiling n (rem - m) (off + m)

/-- The registers of `FOLD_REF_<m>` that say how much the device reads and writes, under the names of `ork_regs.h`. -/
structure Ref where
  dataSize0 : Nat
  dataSize1 : Nat
  weightSize0 : Nat
  dataCubeWidth : Nat
  dataCubeHeight : Nat
  dstNDims : Nat

/-- `fold_ref_for`. The template of one row was captured at 1184 columns, the others at 1216. -/
def foldRefFor (m : Nat) : Option Ref :=
  if m ∈ sizes then
    some
      { dataSize0 := m * 2 ^ 16 + 1
        dataSize1 := 0x0dff0e00
        weightSize0 := if m = 1 then 0x40c000 else 0x428000
        dataCubeWidth := m - 1
        dataCubeHeight := 0
        dstNDims := if m = 1 then 0x049f049f else 0x04bf04bf }
  else none

/-- A template with the registers `fold_build_tile` sets for a batch of `Mtot` rows. -/
structure Tmpl extends Ref where
  convCon1 : Nat
  dstSurfStride : Nat
  dmaCon1 : Nat
  dmaCon2 : Nat
  surfaceAdd : Nat

def foldBuildTile (m Mtot : Nat) : Option Tmpl :=
  (foldRefFor m).map fun r =>
    { r with
      convCon1 := 0x20000000
      dstSurfStride := 16 * Mtot
      dmaCon1 := if Mtot < 128 then Mtot else 128
      dmaCon2 := Mtot - m
      surfaceAdd := 128 * Mtot }

/-- A buffer of `size` bytes below the end of the 32-bit window. -/
structure Buf32 (size : Nat) where
  dma : Nat
  fits : dma + size ≤ 2 ^ 32

/-- The bus addresses of a buffer. -/
def Buf32.extent {size : Nat} (b : Buf32 size) : Set Nat := {a | b.dma ≤ a ∧ a < b.dma + size}

/-- The buffers a slice is run with, by their sizes. -/
structure SliceBufs (asz wsz csz : Nat) where
  A : Buf32 asz
  W : Buf32 wsz
  Cc : Buf32 csz

/-- A template with its addresses patched in. -/
structure Program extends Tmpl where
  featureDataAddr : Nat
  weightDataAddr : Nat
  dstBaseAddr : Nat

/-- The patch for the tile at row `roff`. -/
def patch {asz wsz csz : Nat} (t : Tmpl) (roff : Nat) (b : SliceBufs asz wsz csz) : Program :=
  { t with
    featureDataAddr := (b.A.dma + roff * 16) % 2 ^ 32
    weightDataAddr := b.W.dma % 2 ^ 32
    dstBaseAddr := (b.Cc.dma + roff * 16) % 2 ^ 32 }

/-! ### What the device touches -/

namespace Program

variable (p : Program)

/-- The weight bytes: `WEIGHT_SIZE0` of them in a row. -/
def weightReads : Set Nat := {a | p.weightDataAddr ≤ a ∧ a < p.weightDataAddr + p.weightSize0}

/-- `DATAIN_WIDTH` times `DATAIN_HEIGHT`: the atoms of a feature surface. -/
def atoms : Nat := p.dataSize0 / 2 ^ 16 % 2 ^ 11 * (p.dataSize0 % 2 ^ 11)

/-- The atoms of 16 channels, surface by surface; between two surfaces the stride of `DMA_CON2` is skipped. -/
def featureReads : Set Nat :=
  {a | ∃ g < p.dataSize1 % 2 ^ 16 / 16, ∃ j < p.atoms, ∃ b < 16,
    a = p.featureDataAddr + (g * (p.atoms + p.dmaCon2) + j) * 16 + b}

/-- The output atoms of four int32 columns, a surface each `DST_SURF_STRIDE`. -/
def dstWrites : Set Nat :=
  {a | ∃ g < (p.dstNDims % 2 ^ 13 + 1) / 4, ∃ j < (p.dataCubeWidth % 2 ^ 13 + 1) * (p.dataCubeHeight % 2 ^ 13 + 1),
    ∃ b < 16, a = p.dstBaseAddr + g * (p.dstSurfStride / 16 * 16) + j * 16 + b}

/-- Everything it touches lies in the buffers. -/
def Inside {asz wsz csz : Nat} (b : SliceBufs asz wsz csz) : Prop :=
  p.weightReads ⊆ b.W.extent ∧ p.featureReads ⊆ b.A.extent ∧ p.dstWrites ⊆ b.Cc.extent

end Program

/-- `asz`, in whole pages. -/
def inputSize (M : Nat) : Nat := pgup (M * foldRefK * 8 + 1048576)

/-- `csz`, in whole pages. -/
def outputSize (M : Nat) : Nat := pgup (M * foldRefN * 4 * 8 + 65536)

/-- Every program of a run on `M` rows over the slices of `N` columns stays inside the buffers of its slice. -/
def RunInside {M : Nat} (N : Nat) {wsz : Nat → Nat} (bufs : ∀ s, SliceBufs (inputSize M) (wsz s) (outputSize M)) : Prop :=
  ∀ s < nslice N, ∀ x ∈ tiling 64 M 0, ∃ t, foldBuildTile x.2 M = some t ∧ (patch t x.1 (bufs s)).Inside (bufs s)

/-- The weight buffers of `ork_i8_w_attach_fold` and `ork_i8_mm_load_fold`, which `ork_npu_fold_run_w` and
`ork_npu_fold_batch_w` run with. -/
def residentSize (K N s : Nat) : Nat := (slice K N s).tsz

/-- The weight buffers `ork_i8_npu_fold_op` makes for itself, and `ork_npu_fold_batch` for `ork_i8_npu_fold_run`. -/
def opSize (K : Nat) : Nat := pgup (K * foldRefN * 8 + 1048576)

/-! ### One program -/

section

variable {M N wsz : Nat}

theorem mem_tiling {n rem off : Nat} {x : Nat × Nat} (h : x ∈ tiling n rem off) :
    x.2 ∈ sizes ∧ x.1 + x.2 ≤ off + rem := by
  induction n generalizing rem off with
  | zero => cases h
  | succ n ih =>
    rw [tiling] at h
    split at h
    · cases h
    · cases hf : sizes.find? (· ≤ rem) with
      | none =>
        rw [hf] at h
        cases h
      | some m =>
        rw [hf] at h
        have hle : m ≤ rem := by simpa using List.find?_some hf
        rcases List.mem_cons.mp h with rfl | h
        · exact ⟨List.mem_of_find?_eq_some hf, Nat.add_le_add_left hle off⟩
        · obtain ⟨hm, hx⟩ := ih h
          exact ⟨hm, by omega⟩

theorem sizes_bounds {m : Nat} (h : m ∈ sizes) : 1 ≤ m ∧ m ≤ 36 := by
  revert m
  decide

/-- The columns the template of `m` rows was captured at. -/
def refCols (m : Nat) : Nat := if m = 1 then 1184 else 1216

theorem refCols_le (m : Nat) : refCols m ≤ foldRefN := by
  unfold refCols foldRefN
  split_ifs <;> decide

/-- What `fold_build_tile` makes of a template, its fields as the device takes them apart. -/
theorem foldBuildTile_fields {m : Nat} (hm : m ∈ sizes) (Mtot : Nat) :
    ∃ t, foldBuildTile m Mtot = some t ∧ t.dataSize0 / 2 ^ 16 % 2 ^ 11 * (t.dataSize0 % 2 ^ 11) = m ∧
      t.dataSize1 % 2 ^ 16 / 16 = foldRefK / 16 ∧ t.weightSize0 = foldRefK * refCols m ∧
      (t.dataCubeWidth % 2 ^ 13 + 1) * (t.dataCubeHeight % 2 ^ 13 + 1) = m ∧
      (t.dstNDims % 2 ^ 13 + 1) / 4 = refCols m / 4 ∧ t.dstSurfStride / 16 * 16 = Mtot * 16 ∧ t.dmaCon2 = Mtot - m := by
  obtain ⟨hm1, hm36⟩ := sizes_bounds hm
  refine ⟨_, by rw [foldBuildTile, foldRefFor, if_pos hm]; rfl, ?_⟩
  dsimp only
  refine ⟨?_, by decide, ?_, ?_, ?_, ?_, rfl⟩
  · rw [show (m * 2 ^ 16 + 1) % 2 ^ 11 = 1 by omega, Nat.mul_one]
    omega
  · unfold refCols
    by_cases h1 : m = 1
    · rw [if_pos h1, if_pos h1]
      rfl
    · rw [if_neg h1, if_neg h1]
      rfl
  · rw [Nat.zero_mod, Nat.mul_one]
    omega
  · unfold refCols
    split_ifs <;> rfl
  · omega

theorem interval_subset_iff {d w n : Nat} (hw : 0 < w) :
    {a : Nat | d ≤ a ∧ a < d + w} ⊆ {a : Nat | d ≤ a ∧ a < d + n} ↔ w ≤ n := by
  constructor
  · intro h
    have hlast : d + w - 1 < d + n := (h (show d + w - 1 ∈ {a : Nat | d ≤ a ∧ a < d + w} from ⟨by omega, by omega⟩)).2
    omega
  · intro h a ha
    exact ⟨ha.1, by have := ha.2; omega⟩

/-- A program of the batch stays inside just if the weight it was captured with fits: its rows do. -/
theorem patch_inside_iff {roff m : Nat} {t : Tmpl} (hm : m ∈ sizes) (hroff : roff + m ≤ M)
    (ht : foldBuildTile m M = some t) (b : SliceBufs (inputSize M) wsz (outputSize M)) : (patch t roff b).Inside b ↔ foldRefK * refCols m ≤ wsz := by
  obtain ⟨hm1, hm36⟩ := sizes_bounds hm
  obtain ⟨t', ht', hatoms, hsurf, hweight, hwidth, hout, hstride, hskip⟩ := foldBuildTile_fields hm M
  cases ht.symm.trans ht'
  have hA := b.A.fits
  have hW := b.W.fits
  have hC := b.Cc.fits
  have hAsz : M * foldRefK * 8 + 1048576 ≤ inputSize M := le_pgup _
  have hCsz : M * foldRefN * 4 * 8 + 65536 ≤ outputSize M := le_pgup _
  have hcols := refCols_le m
  have hw : 0 < foldRefK * refCols m := by
    unfold refCols foldRefK
    split_ifs <;> decide
  have hfeat : (patch t roff b).featureReads ⊆ b.A.extent := by
    rintro a ⟨g, hg, j, hj, k, hk, rfl⟩
    rw [show (patch t roff b).dataSize1 % 2 ^ 16 / 16 = 224 from hsurf] at hg
    rw [show (patch t roff b).atoms = m from hatoms] at hj
    have hpitch : (patch t roff b).atoms + (patch t roff b).dmaCon2 = M := by
      rw [show (patch t roff b).atoms = m from hatoms, show (patch t roff b).dmaCon2 = M - m from hskip]
      omega
    have hgM : g * M ≤ 223 * M := Nat.mul_le_mul_right M (by omega)
    have hbase : (patch t roff b).featureDataAddr = b.A.dma + roff * 16 := by
      refine Nat.mod_eq_of_lt ?_
      unfold foldRefK at hAsz
      omega
    rw [hpitch, hbase]
    unfold foldRefK at hAsz
    exact ⟨by omega, by omega⟩
  have hdst : (patch t roff b).dstWrites ⊆ b.Cc.extent := by
    rintro a ⟨g, hg, j, hj, k, hk, rfl⟩
    rw [show ((patch t roff b).dstNDims % 2 ^ 13 + 1) / 4 = refCols m / 4 from hout] at hg
    rw [show ((patch t roff b).dataCubeWidth % 2 ^ 13 + 1) * ((patch t roff b).dataCubeHeight % 2 ^ 13 + 1) = m
      from hwidth] at hj
    have hg' : g ≤ 303 := by
      unfold foldRefN at hcols
      omega
    have hgM : g * M ≤ 303 * M := Nat.mul_le_mul_right M hg'
    have hbase : (patch t roff b).dstBaseAddr = b.Cc.dma + roff * 16 := by
      refine Nat.mod_eq_of_lt ?_
      unfold foldRefN at hCsz
      omega
    rw [show (patch t roff b).dstSurfStride / 16 * 16 = M * 16 from hstride, hbase, ← Nat.mul_assoc]
    unfold foldRefN at hCsz
    exact ⟨by omega, by omega⟩
  unfold Program.Inside
  rw [and_iff_left ⟨hfeat, hdst⟩, ← hweight]
  by_cases hlt : b.W.dma < 2 ^ 32
  · have hbase : (patch t roff b).weightDataAddr = b.W.dma := Nat.mod_eq_of_lt hlt
    unfold Program.weightReads Buf32.extent
    rw [hbase]
    exact interval_subset_iff (hweight ▸ hw)
  · -- an empty buffer at the very end of the window
    constructor
    · intro h
      have hfirst : (patch t roff b).weightDataAddr ∈ (patch t roff b).weightReads :=
        ⟨Nat.le_refl _, Nat.lt_add_of_pos_right (hweight ▸ hw)⟩
      have hmod : (patch t roff b).weightDataAddr < 2 ^ 32 := Nat.mod_lt _ (by decide)
      have hge := (h hfirst).1
      omega
    · intro h
      omega

/-! ### Runs -/

/-- A run stays inside just if every template it uses fits the weight of every slice. -/
theorem runInside_iff {size : Nat → Nat} (bufs : ∀ s, SliceBufs (inputSize M) (size s) (outputSize M)) :
    RunInside N bufs ↔ ∀ s < nslice N, ∀ x ∈ tiling 64 M 0, foldRefK * refCols x.2 ≤ size s := by
  refine forall₂_congr fun s _ => forall₂_congr fun x hx => ?_
  obtain ⟨hm, hroff⟩ := mem_tiling hx
  obtain ⟨t, ht, -⟩ := foldBuildTile_fields hm M
  rw [Nat.zero_add] at hroff
  constructor
  · rintro ⟨t', ht', hin⟩
    exact (patch_inside_iff hm hroff ht' (bufs s)).mp hin
  · intro h
    exact ⟨t, ht, (patch_inside_iff hm hroff ht (bufs s)).mpr h⟩

/-- A batch of two rows or more has a tile captured at full width, a single row only the narrower one. -/
theorem tiling_refCols (hM : 1 ≤ M) (hM' : M ≤ 128) :
    (M = 1 ∧ tiling 64 M 0 = [(0, 1)]) ∨ (2 ≤ M ∧ ∃ x ∈ tiling 64 M 0, refCols x.2 = 1216) := by
  rcases Nat.eq_or_lt_of_le hM with rfl | h2
  · exact Or.inl ⟨rfl, rfl⟩
  · refine Or.inr ⟨h2, ?_⟩
    have hfirst : ∀ n < 129, 2 ≤ n → (sizes.find? (· ≤ n)).isSome ∧ sizes.find? (· ≤ n) ≠ some 1 := by decide
    obtain ⟨hsome, hne⟩ := hfirst M (by omega) h2
    obtain ⟨m, hm⟩ := Option.isSome_iff_exists.mp hsome
    refine ⟨(0, m), ?_, if_neg fun (h1 : m = 1) => hne (by rw [hm, h1])⟩
    rw [tiling, if_neg (by omega), hm]
    exact List.mem_cons_self

theorem slice_cols_eq_min (N s : Nat) : pieceLen N foldRefN s = min (N - s * 1216) 1216 := by
  unfold pieceLen foldRefN
  split_ifs <;> omega

/-- The columns of the slices in the envelope. -/
theorem fits_resident_iff {K : Nat} (h : Envelope K N) (s c : Nat) (hc : 32 ∣ c) :
    foldRefK * c ≤ residentSize K N s ↔ c ≤ pieceLen N foldRefN s := by
  obtain ⟨k, hk⟩ := h.slice_cols s
  obtain ⟨j, rfl⟩ := hc
  unfold residentSize slice Tile.tsz
  dsimp only
  rw [h.rows, hk]
  unfold foldRefK pgup
  omega

/-- Every program of every run of a shape in the envelope stays inside the buffers of its slice just if the last slice is
as wide as the templates of the run: a whole one, or for a single row 1184 columns. A run that makes its own weight buffers
always does. -/
theorem fold_extents_iff {K : Nat} (h : Envelope K N) (hM : 1 ≤ M) (hM' : M ≤ 128)
    (resident : ∀ s, SliceBufs (inputSize M) (residentSize K N s) (outputSize M))
    (op : Nat → SliceBufs (inputSize M) (opSize K) (outputSize M)) :
    RunInside N resident ∧ RunInside N op ↔ foldRefN ∣ N ∨ (M = 1 ∧ N % foldRefN = 1184) := by
  have hop : RunInside N op := by
    refine (runInside_iff op).mpr fun s _ x _ => ?_
    have hcols := Nat.mul_le_mul_left foldRefK (refCols_le x.2)
    have hsize : K * foldRefN * 8 + 1048576 ≤ opSize K := le_pgup _
    rw [h.rows] at hsize ⊢
    omega
  rw [and_iff_left hop, runInside_iff]
  have hpos := h.pos
  have hlast : nslice N - 1 < nslice N := by
    unfold nslice pieces foldRefN
    omega
  rcases tiling_refCols hM hM' with ⟨rfl, htiles⟩ | ⟨h2, x, hx, hcols⟩
  · rw [htiles]
    have hfit : (∀ s < nslice N, ∀ x ∈ [((0 : Nat), (1 : Nat))], foldRefK * refCols x.2 ≤ residentSize K N s) ↔
        ∀ s < nslice N, 1184 ≤ pieceLen N foldRefN s := by
      refine forall₂_congr fun s _ => ?_
      rw [List.forall_mem_singleton, refCols, if_pos rfl, fits_resident_iff h s 1184 (by decide)]
    rw [hfit]
    simp only [slice_cols_eq_min]
    obtain ⟨k, hk⟩ := h.cols
    unfold nslice pieces foldRefN at *
    constructor
    · intro hall
      have hfull := hall _ hlast
      have hwhich : 1216 ∣ N ∨ (N + 1216 - 1) / 1216 - 1 = N / 1216 := by omega
      rcases hwhich with hwhole | heq
      · exact Or.inl hwhole
      · rw [heq] at hfull
        exact Or.inr ⟨trivial, by omega⟩
    · intro hN s hs
      omega
  · constructor
    · intro hall
      have hfull := hall _ hlast x hx
      rw [hcols, fits_resident_iff h _ 1216 (by decide), slice_cols_eq_min] at hfull
      unfold nslice pieces foldRefN at *
      omega
    · intro hN s hs y _
      have h32 : 32 ∣ refCols y.2 := by
        unfold refCols
        split_ifs <;> decide
      rw [fits_resident_iff h s _ h32, slice_cols_eq_min]
      refine le_trans (refCols_le y.2) ?_
      unfold nslice pieces foldRefN at *
      omega

end

theorem residentSize_le (N s : Nat) : residentSize foldRefK N s ≤ 2 ^ 32 := by
  have hcols : pieceLen N foldRefN s ≤ 1216 := pieceLen_le_size
  unfold residentSize slice Tile.tsz foldRefK pgup
  dsimp only
  omega

/-- Buffers for eight rows, all of them at the start of their window. -/
def buffersAt (w : Nat) (hw : w ≤ 2 ^ 32) : SliceBufs (inputSize 8) w (outputSize 8) :=
  ⟨⟨0, by decide⟩, ⟨0, by rwa [Nat.zero_add]⟩, ⟨0, by decide⟩⟩

theorem fold_extents_iff_whole :
    RunInside 2432 (fun s => buffersAt (residentSize foldRefK 2432 s) (residentSize_le 2432 s)) ∧
      RunInside 2432 (fun _ => buffersAt (opSize foldRefK) (by decide)) :=
  (fold_extents_iff ⟨rfl, by decide, by decide, by decide⟩ (by decide) (by decide) _ _).mpr (Or.inl (by decide))

/-- The 512 columns of a key or value projection: the weight read goes past the end of its buffer. -/
theorem not_inside_narrow :
    Envelope foldRefK 512 ∧
      ¬ RunInside 512 (fun s => buffersAt (residentSize foldRefK 512 s) (residentSize_le 512 s)) := by
  refine ⟨⟨rfl, by decide, by decide, by decide⟩, ?_⟩
  rw [runInside_iff]
  intro h
  exact absurd (h 0 (by decide) (0, 8) (by decide)) (by decide)

end OrkDriver.Fold
