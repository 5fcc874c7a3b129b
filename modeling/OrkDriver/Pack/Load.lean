import OrkDriver.Pack.RoundTrip

/-!
The int8 loaders of `npu/i8/pack.c` on a stamped blob.
-/

namespace OrkDriver.Pack

open OrkDriver.Lib OrkDriver.Npu

/-- What a loader gets from outside: the memory `malloc` returns, the DMA heap, the pool entry, and the contents of the
`i`-th buffer it allocates (`none`: the allocation fails). -/
structure LoadEnv where
  codes : Option Mem
  dmaheap : Bool
  entry : Bool
  buf : Nat → Option Mem

/-- The weight a loader returns: raw codes without a device, else the tiles `Bb[0 .. Sk*Sn)`. -/
inductive Loaded
  | codes (m : Mem)
  | tiles (Sk Sn : Nat) (Bb : List Mem)

/-- The walk of the device loaders, whose slice size is the constant 1024. -/
def loadGeom (c : OrkNpu) (K N : Nat) : Geom := ⟨1024, c.soc.nmax, K, N⟩

/-- Allocate and fill the tiles from the `i`-th on: `len` bytes of each are copied, the offset moves by its size. -/
def loadTiles (len : Tile → Nat) (src : Mem) (buf : Nat → Option Mem) : Nat → Nat → List Tile → Option (List Mem)
  | _, _, [] => some []
  | i, off, t :: ts =>
    match buf i with
    | none => none
    | some fresh =>
      (loadTiles len src buf (i + 1) (off + t.tsz) ts).map fun l =>
        (fun j => if j < len t then src (off + j) else fresh j) :: l

/-- The common part of the device loaders, behind their `orki_pack_check`. -/
def loadOnline (len : Tile → Nat) (c : OrkNpu) (env : LoadEnv) (K N : Nat) (b : Blob) (n : Nat) : Option Loaded :=
  if K % 32 ≠ 0 ∨ N % 32 ≠ 0 then none
  else if n ≠ bytes (loadGeom c K N).tiles then none
  else (loadTiles len b.body env.buf 0 0 (loadGeom c K N).tiles).map fun l =>
    .tiles (loadGeom c K N).Sk (loadGeom c K N).Sn l

/-- `ork_i8_mm_load`. -/
def i8MmLoad (c : OrkNpu) (env : LoadEnv) (K N : Nat) (b : Blob) (n : Nat) : Option Loaded :=
  if orkiPackCheck c b.hdr n .i8 K N ≠ none then none
  else if c.fd < 0 then
    match env.codes with
    | none => none
    | some codes =>
      let r := orkiI8UntileBlob c K N b.body (n - orkPackHdrBytes) codes
      if r.1 ≠ 0 then none else some (.codes r.2)
  else loadOnline Tile.tsz c env K N b (n - orkPackHdrBytes)

/-- `ork_i8_mm_load_import`, which copies a tile without its padding. -/
def i8MmLoadImport (c : OrkNpu) (env : LoadEnv) (K N : Nat) (b : Blob) (n : Nat) : Option Loaded :=
  if orkiPackCheck c b.hdr n .i8 K N ≠ none then none
  else if ¬ env.dmaheap then none
  else loadOnline (fun t => t.Kp * t.Nc) c env K N b (n - orkPackHdrBytes)

/-- `ork_i8_mm_load_flags`. -/
def i8MmLoadFlags (c : OrkNpu) (env : LoadEnv) (K N : Nat) (b : Blob) (n : Nat) : Option Loaded :=
  if orkiPackCheck c b.hdr n .i8 K N ≠ none then none
  else loadOnline Tile.tsz c env K N b (n - orkPackHdrBytes)

/-- `ork_i8_stream_pool_add`; the weight is the entry's stage. -/
def i8StreamPoolAdd (c : OrkNpu) (env : LoadEnv) (K N : Nat) (b : Blob) (n : Nat) : Option Loaded :=
  if orkiPackCheck c b.hdr n .i8 K N ≠ none then none
  else if ¬ env.entry then none
  else loadOnline Tile.tsz c env K N b (n - orkPackHdrBytes)

/-- The loaded weight is `B` in the layout a run of context `c` reads: `Bb[ns*Sk+ks]` is the tiling of K-slice `ks` of
N-slice `ns`, cut at the context's own slice size. -/
def Decodes (c : OrkNpu) (K N : Nat) (B : Mem) : Loaded → Prop
  | .codes m => ∀ i, i < K * N → m i = B i
  | .tiles Sk Sn Bb => Sn = (geom c K N).Sn ∧ ∀ ns, ns < Sn → Sk = (geom c K N).Sk ∧ ∀ ks, ks < Sk →
      ∀ v ∈ ((geom c K N).tile ns ks).cells, ∃ m, Bb[ns * Sk + ks]? = some m ∧
        m (v.tileIndex ((geom c K N).tile ns ks).KT) = B (((geom c K N).tile ns ks).elemIndex N v)

/-! ### What the copies leave -/

/-- Entry `i * L + j` of rows of length `L`. -/
theorem getElem?_rows {α : Type*} (f : Nat → Nat → α) (L : Nat) {m i j : Nat} (hi : i < m) (hj : j < L) :
    ((List.range m).flatMap fun i => (List.range L).map (f i))[i * L + j]? = some (f i j) := by
  induction m with
  | zero => exact absurd hi (Nat.not_lt_zero _)
  | succ m ih =>
      have hlen : ((List.range m).flatMap fun i => (List.range L).map (f i)).length = m * L := by
        simp [List.length_flatMap]
      rw [List.range_succ, List.flatMap_append]
      rcases Nat.lt_succ_iff_lt_or_eq.mp hi with hi | rfl
      · rw [List.getElem?_append_left (by rw [hlen]; exact digits_lt hi hj), ih hi]
      · rw [List.getElem?_append_right (by rw [hlen]; exact Nat.le_add_right _ _), hlen, Nat.add_sub_cancel_left,
          List.flatMap_cons, List.flatMap_nil, List.append_nil, List.getElem?_map, List.getElem?_range hj,
          Option.map_some]

theorem loadTiles_spec {len : Tile → Nat} {src : Mem} {buf : Nat → Option Mem} {ts : List Tile} {i off : Nat}
    {l : List Mem} (h : loadTiles len src buf i off ts = some l) {x o : Nat} {t : Tile}
    (hx : (offsets off ts)[x]? = some (o, t)) :
    ∃ fresh, buf (i + x) = some fresh ∧ l[x]? = some fun j => if j < len t then src (o + j) else fresh j := by
  induction ts generalizing i off l x with
  | nil => simp [offsets] at hx
  | cons u ts ih =>
      rw [loadTiles] at h
      cases hb : buf i with
      | none =>
          rw [hb] at h
          cases h
      | some fresh =>
          rw [hb, Option.map_eq_some_iff] at h
          obtain ⟨k, hk, rfl⟩ := h
          cases x with
          | zero =>
              simp only [offsets, List.getElem?_cons_zero, Option.some.injEq, Prod.mk.injEq] at hx
              obtain ⟨rfl, rfl⟩ := hx
              exact ⟨fresh, hb, rfl⟩
          | succ x =>
              simp only [offsets, List.getElem?_cons_succ] at hx
              obtain ⟨fresh', hf, hl⟩ := ih hk hx
              refine ⟨fresh', ?_, hl⟩
              rw [← hf]
              congr 1
              omega

theorem exists_loadTiles (len : Tile → Nat) (src : Mem) {buf : Nat → Option Mem} (hbuf : ∀ i, (buf i).isSome)
    (ts : List Tile) (i off : Nat) : ∃ l, loadTiles len src buf i off ts = some l := by
  induction ts generalizing i off with
  | nil => exact ⟨[], rfl⟩
  | cons t ts ih =>
      obtain ⟨fresh, hf⟩ := Option.isSome_iff_exists.mp (hbuf i)
      obtain ⟨l, hl⟩ := ih (i + 1) (off + t.tsz)
      refine ⟨(fun j => if j < len t then src (off + j) else fresh j) :: l, ?_⟩
      simp only [loadTiles, hf, hl, Option.map_some]

/-- Tile `(ns, ks)` of a weight loaded along the walk `g`. -/
theorem loaded_tile {g : Geom} {len : Tile → Nat} {src : Mem} {buf : Nat → Option Mem} {l : List Mem}
    (h : loadTiles len src buf 0 0 g.tiles = some l) {ns ks : Nat} (hns : ns < g.Sn) (hks : ks < g.Sk) :
    ∃ fresh, buf (ns * g.Sk + ks) = some fresh ∧ l[ns * g.Sk + ks]? = some fun j =>
      if j < len (g.tile ns ks) then src (g.tileOffset ns ks + j) else fresh j := by
  have hx : (offsets 0 g.tiles)[ns * g.Sk + ks]? = some (g.tileOffset ns ks, g.tile ns ks) := by
    rw [Geom.offsets_tiles, getElem?_rows _ g.Sk hns hks, Nat.zero_add]
  obtain ⟨fresh, hf, hl⟩ := loadTiles_spec h hx
  rw [Nat.zero_add] at hf
  exact ⟨fresh, hf, hl⟩

end OrkDriver.Pack
