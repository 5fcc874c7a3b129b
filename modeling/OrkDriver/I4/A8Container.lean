import OrkDriver.I4.ContainerLoads
import OrkDriver.I4.Expand

/-!
Int4 weights for int8 runs (`ork_i4a8_*` of `npu/i4/pack.c`): the compact container of scales and nibbles, its loaders,
and the loader of the native int4 container. All of them leave int8 codes.
-/

namespace OrkDriver.I4

open OrkDriver.Lib OrkDriver.Npu OrkDriver.Pack OrkDriver.Run
open Container (Bytes Blob4 orkiI4UntileBlob orkI4WDumpCpu Coded)

/-- `struct ork_i4a8_hdr`. -/
structure I4a8Hdr where
  magic : UInt32
  version : UInt32
  K : Nat
  N : Nat
  quantKind : UInt32
  deriving DecidableEq

def orkI4a8Magic : UInt32 := 0x4F344E31

/-- `ork_pack_format_version()`. -/
def orkI4a8Ver : UInt32 := 1

def hdrSize : Nat := 20

/-- A compact blob: the header and the bytes behind it. -/
structure BlobA8 where
  hdr : I4a8Hdr
  rest : List (BitVec 8)

/-- The fields of `ork_w` that the loaders fill. -/
structure WA8 extends OrkW Int8 where
  gsize : Nat
  quantKind : UInt8
  cpuCodes : Option (Nat → Int8)
  Bi4 : Option (List (BitVec 8))
  bscale : Option (List (BitVec 8))

/-- What a loader finds: the buffers of a pack, `ORK_DIRECT_I4`, a dma heap, and host memory. -/
structure A8Env extends PackEnv Int8 where
  direct : Bool
  heap : Bool
  host : Bool

/-- The tile cut of the loaders; the slice size is the constant they share. -/
def a8Geom (c : OrkNpu) (K N : Nat) : Geom := ⟨1024, c.soc.nmax, K, N⟩

/-! ### Dump -/

/-- `ork_i4a8_w_dump` to a buffer of `cap` bytes; `none` is 0. -/
def orkI4a8WDump (w : WA8) (cap : Nat) : Option BlobA8 := do
  let Bi4 ← w.Bi4
  let bscale ← w.bscale
  if cap < hdrSize + w.N * 4 + w.K * w.N / 2 then none
  else some ⟨⟨orkI4a8Magic, orkI4a8Ver, w.K, w.N, w.quantKind.toUInt32⟩,
    bscale.take (w.N * 4) ++ Bi4.take (w.K * w.N / 2)⟩

/-! ### Tiles -/

/-- The buffers of a new weight, with what is in them. -/
def newTiles (e : A8Env) (g : Geom) (wantBf : Bool) : Option (OrkW Int8) :=
  if (List.range (g.Sn * g.Sk)).all e.bb then
    some ⟨.i8, g.K, g.N, g.Sk, g.Sn, e.freshBb, if wantBf && (List.range g.Sn).all e.bf then some e.freshBf else none⟩
  else none

/-- The tilers from codes `src[n*K + k]`. -/
def tileChannels (c : OrkNpu) (K N : Nat) (src : Nat → Int8) (w : OrkW Int8) : OrkW Int8 :=
  let g := a8Geom c K N
  let tiler := fun t : Tile => chanTileRange t.NN t.KT t.k0 t.n0 K src
  { w with
    Bb := fun i => stores (w.Bb i) (tiler (g.tile (i / w.Sk) (i % w.Sk)))
    Bf := if K ≤ 10752 then w.Bf.map fun f ns => stores (f ns) (tiler (fullTile g ns)) else w.Bf }

/-- `orki_i8_tile_f32`, the scales all 1 and the values whole numbers. -/
def orkiI8TileF32 (c : OrkNpu) (K N : Nat) (qf32 : Nat → Int) (w : OrkW Int8) : OrkW Int8 :=
  tileChannels c K N (fun i => quantF32I8 (qf32 i)) w

/-- `orki_i8_tile_to_tiles`. -/
def orkiI8TileToTiles (c : OrkNpu) (K N : Nat) (i8 : Nat → Int8) (w : OrkW Int8) : OrkW Int8 := tileChannels c K N i8 w

/-- `orki_i8_tile_to_import_tiles`. -/
def orkiI8TileToImportTiles (c : OrkNpu) (K N : Nat) (i8 : Nat → Int8) (w : OrkW Int8) : OrkW Int8 :=
  tileChannels c K N i8 w

/-- The scratch `[N][K]` of a loop over the channels, channel `n` from `Bi4 + n*(K/2)`. -/
def channels {α : Type*} (K : Nat) (chan : Bytes → Nat → α) (Bi4 : Bytes) (i : Nat) : α :=
  chan (fun j => Bi4 (i / K * (K / 2) + j)) (i % K)

/-- The int8 scratch of `orki_i4_tile_direct_to_i8` and of the import. -/
def i8Scratch (kind : UInt32) (K : Nat) (Bi4 : Bytes) : Nat → Int8 :=
  if kind = orkQkCodebookNf4 then channels K (orkiNf4InflateChanToI8 nf4Lut) Bi4 else channels K orkiI4ExpandChanToI8 Bi4

/-- The float scratch of `ork_i4a8_mm_load`. -/
def f32Scratch (kind : UInt32) (K : Nat) (Bi4 : Bytes) : Nat → Int :=
  if kind = orkQkCodebookNf4 then channels K (fun nib k => (nf4Lut.getD (chanNibble nib k).toNat 0).toInt) Bi4
  else channels K orkiI4ExpandChanF32 Bi4

/-! ### Loaders of the compact container -/

/-- The checks of both loaders, and then kind, scales and nibbles. -/
def parse (K N : Nat) (blob : BlobA8) : Option (UInt32 × List (BitVec 8) × List (BitVec 8)) :=
  if K % 32 ≠ 0 ∨ N % 32 ≠ 0 then none
  else if hdrSize + blob.rest.length ≠ hdrSize + N * 4 + K * N / 2 then none
  else if blob.hdr.magic ≠ orkI4a8Magic ∨ blob.hdr.version ≠ orkI4a8Ver ∨ blob.hdr.K ≠ K ∨ blob.hdr.N ≠ N then none
  else if blob.hdr.quantKind ≠ orkQkUniform ∧ blob.hdr.quantKind ≠ orkQkCodebookNf4 then none
  else some (blob.hdr.quantKind, blob.rest.take (N * 4), blob.rest.drop (N * 4))

/-- A list of bytes as memory. -/
def mem (l : List (BitVec 8)) : Bytes := fun i => l.getD i 0

/-- `codes[k*N + nn]` without a device. -/
def offlineCodes (kind : UInt32) (K N : Nat) (nibs : Bytes) (x : Nat) : Int8 :=
  let ix := chanNibble (fun j => nibs (x % N * (K / 2) + j)) (x / N)
  if kind = orkQkCodebookNf4 then nf4Lut.getD ix.toNat 0 else wrapExtend ix

/-- A weight of codes only. -/
def codesOnly (K N : Nat) (codes : Nat → Int8) : WA8 where
  dt := .i8
  K := K
  N := N
  Sk := 1
  Sn := 1
  Bb := fun _ _ => 0
  Bf := none
  gsize := 0
  quantKind := 0
  cpuCodes := some codes
  Bi4 := none
  bscale := none

/-- `ork_i4a8_mm_load`. -/
def orkI4a8MmLoad (c : OrkNpu) (e : A8Env) (K N : Nat) (blob : BlobA8) : Option WA8 := do
  let (kind, bsc, nib) ← parse K N blob
  if e.host = false then none
  else if c.fd < 0 then
    some { codesOnly K N (offlineCodes kind K N (mem nib)) with
      quantKind := kind.toUInt8
      bscale := some bsc }
  else do
    let w ← newTiles e (a8Geom c K N) (K ≤ 10752 ∧ e.noBf = false)
    let w := if e.direct then orkiI8TileToTiles c K N (i8Scratch kind K (mem nib)) w
      else orkiI8TileF32 c K N (f32Scratch kind K (mem nib)) w
    some ⟨w, 0, kind.toUInt8, none, some nib, some bsc⟩

/-- `ork_i4a8_mm_load_import`. -/
def orkI4a8MmLoadImport (c : OrkNpu) (e : A8Env) (K N : Nat) (blob : BlobA8) : Option WA8 := do
  if e.heap = false then none
  else do
    let (kind, bsc, nib) ← parse K N blob
    if e.host = false then none
    else do
      let w ← newTiles e (a8Geom c K N) (K % 512 = 0 ∧ K ≤ 4096 ∧ e.noBf = false)
      some ⟨orkiI8TileToImportTiles c K N (i8Scratch kind K (mem nib)) w, 0, kind.toUInt8, none, some nib, some bsc⟩

/-! ### The loader of the native container -/

/-- `orki_i8_tile_range` over the tiles of a cut. -/
def tileRows (g : Geom) (codes : Nat → Int8) (w : OrkW Int8) : OrkW Int8 :=
  { w with
    Bb := fun i =>
      let t := g.tile (i / w.Sk) (i % w.Sk)
      stores (w.Bb i) (i8TileRange t.NN t.KT t.k0 t.n0 g.N codes) }

/-- `ork_i4a8_mm_load_tiled`; `fresh` is what the scratch for the codes holds before. -/
def orkI4a8MmLoadTiled (c : OrkNpu) (e : A8Env) (fresh : Nat → Int8) (K N : Nat) (blob : Blob4) (n : Nat) (G : Int) :
    Option WA8 :=
  if orkiPackCheck c blob.hdr n .i4 K N ≠ none then none
  else if K % 32 ≠ 0 ∨ N % 64 ≠ 0 then none
  else if e.host = false then none
  else do
    let codes ← orkiI4UntileBlob c K N (fun j => blob.mem (orkPackHdrBytes + j)) (n - orkPackHdrBytes) fresh
    if c.fd < 0 then some (codesOnly K N codes)
    else if 0 < G ∧ (K : Int) % G = 0 then do
      -- one tile for each N-slice and group
      let g : Geom := ⟨G.toNat, c.soc.nmax, K, N⟩
      let w ← newTiles e g false
      some ⟨tileRows g codes w, G.toNat, 0, none, none, none⟩
    else do
      let w ← newTiles e (a8Geom c K N) (K ≤ 10752 ∧ e.noBf = false)
      some ⟨tileRows (a8Geom c K N) codes w, 0, 0, none, none, none⟩

/-! ### The scratch buffers -/

/-- The codes of a compact blob, row by row. -/
def codesOf (kind : UInt32) (K N : Nat) (nib : Bytes) : Nat → Int8 :=
  transpose K N fun i => expand kind (nibbleAt nib i)

section

variable {K : Nat}

/-- A nibble of a channel is a nibble of the store. -/
theorem nibbleAt_channel (hK : 32 ∣ K) (nib : Bytes) (n k : Nat) :
    nibbleAt (fun j => nib (n * (K / 2) + j)) k = nibbleAt nib (n * K + k) := by
  have hhalf : 2 * (n * (K / 2)) = n * K := by
    rw [Nat.mul_left_comm, Nat.mul_div_cancel' (dvd_trans (by decide) hK)]
  rw [← nibbleAt_add, hhalf]

theorem i8Scratch_eq (hK : 32 ∣ K) (kind : UInt32) (nib : Bytes) :
    i8Scratch kind K nib = fun i => expand kind (nibbleAt nib i) := by
  funext i
  have hnib := nibbleAt_channel hK nib (i / K) (i % K)
  rw [Nat.div_add_mod'] at hnib
  unfold i8Scratch expand
  split
  · exact (orkiNf4InflateChanToI8_eq _ _).trans (by rw [hnib])
  · exact (orkiI4ExpandChanToI8_eq _ _).trans (by rw [hnib])

/-- Nothing is lost on the way through floats. -/
theorem quantF32I8_f32Scratch (kind : UInt32) (nib : Bytes) :
    (fun i => quantF32I8 (f32Scratch kind K nib i)) = i8Scratch kind K nib := by
  funext i
  unfold f32Scratch i8Scratch
  split
  · exact quantF32I8_inflateChan _ _
  · exact quantF32I8_expandChan _ _

theorem offlineCodes_eq (hK : 32 ∣ K) (kind : UInt32) (N : Nat) (nib : Bytes) :
    offlineCodes kind K N nib = codesOf kind K N nib := by
  funext x
  have hnib := nibbleAt_channel hK nib (x % N) (x / N)
  unfold offlineCodes codesOf transpose expand
  dsimp only
  rw [chanNibble_eq, (extends_nibble _).2.2, (extends_nibble _).2.1, hnib]

end

/-! ### What the tiles hold -/

section

variable {c : OrkNpu} {e : A8Env} {K N : Nat} {w : OrkW Int8}

theorem a8Geom_blocks (hc : c.soc ∈ socTable) (K N : Nat) : Blocks (a8Geom c K N) 32 := by
  obtain ⟨h0, h64⟩ := Container.soc_nmax hc
  exact ⟨Nat.succ_pos 1023, Dvd.intro 32 rfl, h0, dvd_trans (by decide) h64⟩

/-- The slices of the weight hold their parts of `B`. -/
structure SlicesHold (g : Geom) (B : Nat → Int8) (w : OrkW Int8) : Prop where
  K : w.K = g.K
  N : w.N = g.N
  Sk : w.Sk = g.Sk
  Sn : w.Sn = g.Sn
  Bb : ∀ ns ks, ns < g.Sn → ks < g.Sk → Run.Tiled 32 B g.N (g.tile ns ks) (w.Bb (ns * g.Sk + ks))

theorem newTiles_eq_some {g : Geom} {wantBf : Bool} (h : newTiles e g wantBf = some w) :
    w.dt = .i8 ∧ w.K = g.K ∧ w.N = g.N ∧ w.Sk = g.Sk ∧ w.Sn = g.Sn ∧ (w.Bf.isSome → wantBf = true) := by
  unfold newTiles at h
  split at h
  · obtain rfl := Option.some.inj h
    refine ⟨rfl, rfl, rfl, rfl, rfl, fun hbf => ?_⟩
    dsimp only at hbf
    split at hbf
    · next hboth => exact (Bool.and_eq_true_iff.mp hboth).1
    · cases hbf
  · cases h

theorem tiled_chanTileRange {t : Tile} (hK : 32 ∣ t.Kp) (hN : 32 ∣ t.Nc) (hn : t.n0 + t.Nc ≤ N) (src m : Nat → Int8) :
    Run.Tiled 32 (transpose K N src) N t (stores m (chanTileRange t.NN t.KT t.k0 t.n0 K src)) := by
  have hKT : t.KT * 32 = t.Kp := Nat.div_mul_cancel hK
  have hNN : t.NN * 32 = t.Nc := Nat.div_mul_cancel hN
  intro k n hk hn'
  have hcols : t.n0 + t.NN * 32 ≤ N := by rwa [hNN]
  have h := (chanTileRange_stores hcols t.KT t.k0 K src).holds (by decide) m (k := k) (n := n) (by rwa [hKT]) (by rwa [hNN])
  rwa [hKT] at h

theorem tileChannels_holds (hc : c.soc ∈ socTable) (hK : 32 ∣ K) (hN : 32 ∣ N) {wantBf : Bool}
    (hbf : wantBf = true → K ≤ 10752) (h : newTiles e (a8Geom c K N) wantBf = some w) (src : Nat → Int8) :
    Holds (a8Geom c K N) (transpose K N src) (tileChannels c K N src w) := by
  have hg := a8Geom_blocks hc K N
  obtain ⟨hdt, hwK, hwN, hSk, hSn, hwant⟩ := newTiles_eq_some h
  have hnt : ntSz (tileChannels c K N src w).dt = 32 := by
    change ntSz w.dt = 32
    rw [hdt]
    rfl
  refine ⟨hwK, hwN, hSk, hSn, hK, by rw [hnt]; exact hN, fun ns ks hns hks => ?_, fun f hf ns hns => ?_⟩
  · obtain ⟨hdiv, hmod⟩ := digits_div_mod hks ns
    rw [hnt]
    dsimp only [tileChannels]
    rw [hSk, hdiv, hmod]
    exact tiled_chanTileRange (dvd_pieceLen hK hg.KS) (dvd_pieceLen hN hg.NMAX) (piece_le hg.NMAX_pos hns) src _
  · rw [hnt]
    dsimp only [tileChannels] at hf
    split at hf
    · obtain ⟨f', -, rfl⟩ := Option.map_eq_some_iff.mp hf
      exact tiled_chanTileRange hK (dvd_pieceLen hN hg.NMAX) (piece_le hg.NMAX_pos hns) src _
    · next hbig => exact absurd (hbf (hwant (by rw [hf]; rfl))) hbig

theorem tileRows_hold {g : Geom} (hg : Blocks g 32) (hK : 32 ∣ g.K) (hN : 32 ∣ g.N) {wantBf : Bool}
    (h : newTiles e g wantBf = some w) (codes : Nat → Int8) : SlicesHold g codes (tileRows g codes w) := by
  obtain ⟨-, hwK, hwN, hSk, hSn, -⟩ := newTiles_eq_some h
  refine ⟨hwK, hwN, hSk, hSn, fun ns ks hns hks => ?_⟩
  obtain ⟨hdiv, hmod⟩ := digits_div_mod hks ns
  dsimp only [tileRows]
  rw [hSk, hdiv, hmod]
  have htiled : Run.Tiled (ntSz .i8) codes g.N (g.tile ns ks) (stores (w.Bb (ns * g.Sk + ks))
      (tileStores .i8 (g.tile ns ks) g.N codes)) :=
    tiled_tileStores (dvd_pieceLen hK hg.KS) (dvd_pieceLen hN hg.NMAX) _ _ _
  exact htiled

/-- Only the codes of the matrix matter. -/
theorem SlicesHold.congr {g : Geom} (hg : Blocks g 32) {B B' : Nat → Int8} (h : SlicesHold g B w)
    (heq : ∀ x < g.K * g.N, B x = B' x) : SlicesHold g B' w := by
  refine ⟨h.K, h.N, h.Sk, h.Sn, fun ns ks hns hks k n hk hn => ?_⟩
  refine (h.Bb ns ks hns hks k n hk hn).trans (heq _ ?_)
  have hKle : ks * g.KS + pieceLen g.K g.KS ks ≤ g.K := piece_le hg.KS_pos hks
  have hNle : ns * g.NMAX + pieceLen g.N g.NMAX ns ≤ g.N := piece_le hg.NMAX_pos hns
  exact digits_lt (lt_of_lt_of_le (Nat.add_lt_add_left hk _) hKle) (lt_of_lt_of_le (Nat.add_lt_add_left hn _) hNle)

end

/-! ### The compact loaders -/

section

variable {c : OrkNpu} {e : A8Env} {K N : Nat} {blob : BlobA8} {kind : UInt32} {bsc nib : List (BitVec 8)} {w : WA8}

def BlobA8.size (blob : BlobA8) : Nat := hdrSize + blob.rest.length

/-- An accepted blob is its header, the scales and the nibbles. -/
structure Parsed (K N : Nat) (blob : BlobA8) (kind : UInt32) (bsc nib : List (BitVec 8)) : Prop where
  K32 : 32 ∣ K
  N32 : 32 ∣ N
  hdr : blob.hdr = ⟨orkI4a8Magic, orkI4a8Ver, K, N, kind⟩
  kind : kind = orkQkUniform ∨ kind = orkQkCodebookNf4
  rest : bsc ++ nib = blob.rest
  bsc : bsc.length = N * 4
  nib : nib.length = K * N / 2

theorem parse_eq_some (h : parse K N blob = some (kind, bsc, nib)) : Parsed K N blob kind bsc nib := by
  unfold parse at h
  split at h
  · cases h
  · next hdims =>
      split at h
      · cases h
      · next hsize =>
          split at h
          · cases h
          · next hhdr =>
              split at h
              · cases h
              · next hkind =>
                  obtain ⟨rfl, hparts⟩ := Prod.mk.inj (Option.some.inj h)
                  obtain ⟨rfl, rfl⟩ := Prod.mk.inj hparts
                  refine ⟨by omega, by omega, ?_, ?_, List.take_append_drop _ _, ?_, ?_⟩
                  · rcases blob with ⟨⟨magic, version, K', N', kind⟩, rest⟩
                    simp only [not_or, not_not] at hhdr
                    obtain ⟨rfl, rfl, rfl, rfl⟩ := hhdr
                    rfl
                  · exact or_iff_not_and_not.mpr hkind
                  · rw [List.length_take]
                    omega
                  · rw [List.length_drop]
                    omega

/-- A weight with the store of an accepted blob dumps to that blob. -/
theorem Parsed.dump (h : Parsed K N blob kind bsc nib) (hK : w.K = K) (hN : w.N = N) (hBi4 : w.Bi4 = some nib)
    (hbscale : w.bscale = some bsc) (hkind : w.quantKind = kind.toUInt8) {cap : Nat} (hcap : blob.size ≤ cap) :
    orkI4a8WDump w cap = some blob := by
  have hsize : blob.size = hdrSize + N * 4 + K * N / 2 := by
    unfold BlobA8.size
    rw [← h.rest, List.length_append, h.bsc, h.nib, Nat.add_assoc]
  have hback : kind.toUInt8.toUInt32 = kind := by
    rcases h.kind with rfl | rfl <;> decide
  unfold orkI4a8WDump
  rw [hBi4, hbscale, hK, hN, hkind]
  simp only [Option.bind_eq_bind, Option.bind_some]
  rw [if_neg (by omega), hback, ← h.hdr, List.take_of_length_le (by rw [h.bsc]), List.take_of_length_le (by rw [h.nib]),
    h.rest]

/-- Everything is granted. -/
structure A8Env.Granted (e : A8Env) : Prop where
  bb : ∀ i, e.bb i = true
  heap : e.heap = true
  host : e.host = true

theorem A8Env.Granted.newTiles (he : e.Granted) (g : Geom) (wantBf : Bool) : ∃ w, newTiles e g wantBf = some w := by
  unfold I4.newTiles
  rw [if_pos (List.all_eq_true.mpr fun i _ => he.bb i)]
  exact ⟨_, rfl⟩

/-- `ork_i4a8_mm_load` of an accepted blob: codes without a device, else tiles; with tiles it keeps the store. -/
theorem orkI4a8MmLoad_spec (hc : c.soc ∈ socTable) (hp : Parsed K N blob kind bsc nib)
    (hparse : parse K N blob = some (kind, bsc, nib)) (h : orkI4a8MmLoad c e K N blob = some w) :
    (c.fd < 0 → w.cpuCodes = some (codesOf kind K N (mem nib))) ∧
    (¬ c.fd < 0 → Holds (a8Geom c K N) (codesOf kind K N (mem nib)) w.toOrkW ∧
      ∀ cap, blob.size ≤ cap → orkI4a8WDump w cap = some blob) := by
  unfold orkI4a8MmLoad at h
  rw [hparse] at h
  simp only [Option.bind_eq_bind, Option.bind_some] at h
  split at h
  · cases h
  · split at h
    · next hfd =>
        obtain rfl := Option.some.inj h
        refine ⟨fun _ => ?_, fun hdev => absurd hfd hdev⟩
        exact congrArg some (offlineCodes_eq hp.K32 kind N (mem nib))
    · next hfd =>
        refine ⟨fun hoff => absurd hoff hfd, fun _ => ?_⟩
        obtain ⟨t, ht, h⟩ := Option.bind_eq_some_iff.mp h
        obtain rfl := Option.some.inj h
        have hfill : (if e.direct = true then orkiI8TileToTiles c K N (i8Scratch kind K (mem nib)) t
            else orkiI8TileF32 c K N (f32Scratch kind K (mem nib)) t) = tileChannels c K N (i8Scratch kind K (mem nib)) t := by
          split
          · rfl
          · unfold orkiI8TileF32
            rw [quantF32I8_f32Scratch]
        have hholds := tileChannels_holds hc hp.K32 hp.N32 (fun hw => (of_decide_eq_true hw).1) ht
          (i8Scratch kind K (mem nib))
        rw [← hfill] at hholds
        have hcodes : transpose K N (i8Scratch kind K (mem nib)) = codesOf kind K N (mem nib) := by
          rw [i8Scratch_eq hp.K32]
          rfl
        rw [hcodes] at hholds
        exact ⟨hholds, fun cap hcap => hp.dump hholds.K hholds.N rfl rfl rfl hcap⟩

theorem orkI4a8MmLoad_isSome (he : e.Granted) (hparse : parse K N blob = some (kind, bsc, nib)) :
    (orkI4a8MmLoad c e K N blob).isSome := by
  unfold orkI4a8MmLoad
  rw [hparse, Option.bind_eq_bind, Option.bind_some]
  dsimp only
  rw [if_neg (by rw [he.host]; decide)]
  split
  · rfl
  · obtain ⟨t, ht⟩ := he.newTiles (a8Geom c K N) (K ≤ 10752 ∧ e.noBf = false)
    rw [ht]
    rfl

/-- `ork_i4a8_mm_load_import`: as with a device. -/
theorem orkI4a8MmLoadImport_spec (hc : c.soc ∈ socTable) (hp : Parsed K N blob kind bsc nib)
    (hparse : parse K N blob = some (kind, bsc, nib)) (h : orkI4a8MmLoadImport c e K N blob = some w) :
    Holds (a8Geom c K N) (codesOf kind K N (mem nib)) w.toOrkW ∧
      ∀ cap, blob.size ≤ cap → orkI4a8WDump w cap = some blob := by
  unfold orkI4a8MmLoadImport at h
  rw [hparse] at h
  simp only [Option.bind_eq_bind, Option.bind_some] at h
  split at h
  · cases h
  · split at h
    · cases h
    · obtain ⟨t, ht, h⟩ := Option.bind_eq_some_iff.mp h
      obtain rfl := Option.some.inj h
      have hsmall : decide (K % 512 = 0 ∧ K ≤ 4096 ∧ e.noBf = false) = true → K ≤ 10752 := fun hw => by
        have := (of_decide_eq_true hw).2.1
        omega
      have hholds := tileChannels_holds hc hp.K32 hp.N32 hsmall ht (i8Scratch kind K (mem nib))
      have hcodes : transpose K N (i8Scratch kind K (mem nib)) = codesOf kind K N (mem nib) := by
        rw [i8Scratch_eq hp.K32]
        rfl
      rw [hcodes] at hholds
      exact ⟨hholds, fun cap hcap => hp.dump hholds.K hholds.N rfl rfl rfl hcap⟩

theorem orkI4a8MmLoadImport_isSome (he : e.Granted) (hparse : parse K N blob = some (kind, bsc, nib)) :
    (orkI4a8MmLoadImport c e K N blob).isSome := by
  obtain ⟨t, ht⟩ := he.newTiles (a8Geom c K N) (K % 512 = 0 ∧ K ≤ 4096 ∧ e.noBf = false)
  unfold orkI4a8MmLoadImport
  rw [if_neg (by rw [he.heap]; decide), hparse]
  simp only [Option.bind_eq_bind, Option.bind_some]
  rw [if_neg (by rw [he.host]; decide), ht]
  rfl

/-! ### The loader of the native container -/

variable {B : Nat → Int8} {out : Bytes} {blob4 : Blob4} {cap n : Nat} {fresh : Nat → Int8} {G : Int}

/-- The scratch of the loader holds the codes that were dumped. -/
theorem untiled_dump (hc : c.soc ∈ socTable) (hB : Coded K N B) (h : orkI4WDumpCpu c K N B out cap = some (n, blob4))
    (fresh : Nat → Int8) : orkiPackCheck c blob4.hdr n .i4 K N = none ∧ ¬ (K % 32 ≠ 0 ∨ N % 64 ≠ 0) ∧
      ∃ codes, orkiI4UntileBlob c K N (fun j => blob4.mem (orkPackHdrBytes + j)) (n - orkPackHdrBytes) fresh = some codes ∧
        ∀ x < K * N, codes x = B x := by
  obtain ⟨hs, rfl, -, hhdr, hholds⟩ := Container.orkI4WDumpCpu_eq_some hc h
  refine ⟨?_, Container.shape_iff.mp hs, ?_⟩
  · rw [hhdr, orkiPackCheck_stamp c c .i4 K N _ (Nat.le_add_right _ _)]
  · rw [Nat.add_sub_cancel_left]
    exact Container.orkiI4UntileBlob_spec hc hs hB hholds.body fresh

/-- `ork_i4a8_mm_load_tiled` of a dump: the codes without a device, else tiles of a group or a slice of rows each. No
store is kept. -/
theorem orkI4a8MmLoadTiled_spec (hc : c.soc ∈ socTable) (hB : Coded K N B)
    (hdump : orkI4WDumpCpu c K N B out cap = some (n, blob4)) (h : orkI4a8MmLoadTiled c e fresh K N blob4 n G = some w) :
    (c.fd < 0 → ∃ codes, w.cpuCodes = some codes ∧ ∀ x < K * N, codes x = B x) ∧
    (¬ c.fd < 0 → 0 < G ∧ (K : Int) % G = 0 → G % 32 = 0 → SlicesHold ⟨G.toNat, c.soc.nmax, K, N⟩ B w.toOrkW) ∧
    (¬ c.fd < 0 → ¬ (0 < G ∧ (K : Int) % G = 0) → SlicesHold (a8Geom c K N) B w.toOrkW) ∧
    ∀ cap, orkI4a8WDump w cap = none := by
  obtain ⟨hst, hdims, codes, hcodes, hcodesB⟩ := untiled_dump hc hB hdump fresh
  have hK : 32 ∣ K := by omega
  have hN : 32 ∣ N := by omega
  unfold orkI4a8MmLoadTiled at h
  rw [if_neg (not_not_intro hst), if_neg hdims] at h
  split at h
  · cases h
  · rw [hcodes, Option.bind_eq_bind, Option.bind_some] at h
    split at h
    · next hfd =>
        obtain rfl := Option.some.inj h
        exact ⟨fun _ => ⟨codes, rfl, hcodesB⟩, fun hdev => absurd hfd hdev, fun hdev => absurd hfd hdev, fun _ => rfl⟩
    · next hfd =>
        split at h
        · next hG =>
            obtain ⟨t, ht, h⟩ := Option.bind_eq_some_iff.mp h
            obtain rfl := Option.some.inj h
            refine ⟨fun hoff => absurd hoff hfd, fun _ _ hG32 => ?_, fun _ hno => absurd hG hno, fun _ => rfl⟩
            have hblocks := a8Geom_blocks hc K N
            have hg : Blocks ⟨G.toNat, c.soc.nmax, K, N⟩ 32 := by
              refine ⟨?_, ?_, hblocks.NMAX_pos, hblocks.NMAX⟩
              · dsimp only
                omega
              · dsimp only
                omega
            exact (tileRows_hold hg hK hN ht codes).congr hg hcodesB
        · next hG =>
            obtain ⟨t, ht, h⟩ := Option.bind_eq_some_iff.mp h
            obtain rfl := Option.some.inj h
            refine ⟨fun hoff => absurd hoff hfd, fun _ hyes => absurd hyes hG, fun _ _ => ?_, fun _ => rfl⟩
            have hg := a8Geom_blocks hc K N
            exact (tileRows_hold hg hK hN ht codes).congr hg hcodesB

theorem orkI4a8MmLoadTiled_isSome (hc : c.soc ∈ socTable) (he : e.Granted) (hB : Coded K N B)
    (hdump : orkI4WDumpCpu c K N B out cap = some (n, blob4)) (fresh : Nat → Int8) (G : Int) :
    (orkI4a8MmLoadTiled c e fresh K N blob4 n G).isSome := by
  obtain ⟨hst, hdims, codes, hcodes, -⟩ := untiled_dump hc hB hdump fresh
  unfold orkI4a8MmLoadTiled
  rw [if_neg (not_not_intro hst), if_neg hdims, if_neg (by rw [he.host]; decide), hcodes, Option.bind_eq_bind,
    Option.bind_some]
  split
  · rfl
  · split
    · obtain ⟨t, ht⟩ := he.newTiles ⟨G.toNat, c.soc.nmax, K, N⟩ false
      dsimp only
      rw [ht]
      rfl
    · obtain ⟨t, ht⟩ := he.newTiles (a8Geom c K N) (K ≤ 10752 ∧ e.noBf = false)
      rw [ht]
      rfl

/-! ### All the routes -/

/-- Every blob of codes comes back as these codes, as int8 tiles where there is a device, and from there to the blob. -/
def CompactRoutes (c : OrkNpu) (e : A8Env) (K N : Nat) : Prop :=
  ∀ blob kind bsc nib, parse K N blob = some (kind, bsc, nib) →
    (e.Granted → (orkI4a8MmLoad c e K N blob).isSome ∧ (orkI4a8MmLoadImport c e K N blob).isSome) ∧
    (∀ w, orkI4a8MmLoad c e K N blob = some w →
      (c.fd < 0 → w.cpuCodes = some (codesOf kind K N (mem nib))) ∧
      (¬ c.fd < 0 → Holds (a8Geom c K N) (codesOf kind K N (mem nib)) w.toOrkW ∧
        ∀ cap, blob.size ≤ cap → orkI4a8WDump w cap = some blob)) ∧
    ∀ w, orkI4a8MmLoadImport c e K N blob = some w →
      Holds (a8Geom c K N) (codesOf kind K N (mem nib)) w.toOrkW ∧
        ∀ cap, blob.size ≤ cap → orkI4a8WDump w cap = some blob

/-- Every dump of a matrix comes back as its codes, in slices or groups of rows; nothing is kept to dump again. -/
def TiledRoutes (c : OrkNpu) (e : A8Env) (K N : Nat) : Prop :=
  ∀ B out cap n blob fresh G, Coded K N B → orkI4WDumpCpu c K N B out cap = some (n, blob) →
    (e.Granted → (orkI4a8MmLoadTiled c e fresh K N blob n G).isSome) ∧
    ∀ w, orkI4a8MmLoadTiled c e fresh K N blob n G = some w →
      (c.fd < 0 → ∃ codes, w.cpuCodes = some codes ∧ ∀ x < K * N, codes x = B x) ∧
      (¬ c.fd < 0 → 0 < G ∧ (K : Int) % G = 0 → G % 32 = 0 → SlicesHold ⟨G.toNat, c.soc.nmax, K, N⟩ B w.toOrkW) ∧
      (¬ c.fd < 0 → ¬ (0 < G ∧ (K : Int) % G = 0) → SlicesHold (a8Geom c K N) B w.toOrkW) ∧
      ∀ cap, orkI4a8WDump w cap = none

theorem i4a8_codes (hc : c.soc ∈ socTable) (e : A8Env) (K N : Nat) : CompactRoutes c e K N ∧ TiledRoutes c e K N := by
  constructor
  · intro blob kind bsc nib hparse
    have hp := parse_eq_some hparse
    exact ⟨fun he => ⟨orkI4a8MmLoad_isSome he hparse, orkI4a8MmLoadImport_isSome he hparse⟩,
      fun w hw => orkI4a8MmLoad_spec hc hp hparse hw, fun w hw => orkI4a8MmLoadImport_spec hc hp hparse hw⟩
  · intro B out cap n blob fresh G hB hdump
    exact ⟨fun he => orkI4a8MmLoadTiled_isSome hc he hB hdump fresh G,
      fun w hw => orkI4a8MmLoadTiled_spec hc hB hdump hw⟩

end

/-- Everything granted, old buffers full of `x`. -/
def a8Env (x : Int8) : A8Env := ⟨Run.granted x, false, true, true⟩

theorem i4a8_codes_rk3588 : CompactRoutes ⟨3, socRk3588, 0⟩ (a8Env 1) 512 64 ∧ TiledRoutes ⟨3, socRk3588, 0⟩ (a8Env 1) 512 64 :=
  @i4a8_codes ⟨3, socRk3588, 0⟩ (by decide) (a8Env 1) 512 64

/-- A dump loaded in slices: nothing to dump again, and the full-K copy a run of one row reads is not written. -/
theorem i4a8_tiled_codes_lost : ∃ (c : OrkNpu) (e : A8Env) (K N : Nat) (B : Nat → Int8) (n : Nat) (blob : Blob4) (w : WA8),
    c.soc ∈ socTable ∧ Coded K N B ∧ orkI4WDumpCpu c K N B (fun _ => 0) 8192 = some (n, blob) ∧
      orkI4a8MmLoadTiled c e (fun _ => 0) K N blob n 0 = some w ∧ (∀ cap, orkI4a8WDump w cap = none) ∧
      ∃ f, w.Bf = some f ∧ ¬ Run.Tiled 32 B N (fullTile (a8Geom c K N) 0) (f 0) := by
  let c : OrkNpu := ⟨3, socRk3588, 0⟩
  have hc : c.soc ∈ socTable := by decide
  have hzero : -8 ≤ (0 : Int8).toInt ∧ (0 : Int8).toInt ≤ 7 := by decide
  have hB : Coded 32 64 fun _ => 0 := fun _ _ => hzero
  have hsome : (orkI4WDumpCpu c 32 64 (fun _ => 0) (fun _ => 0) 8192).isSome :=
    (Container.orkI4WDumpCpu_isSome hc 32 64 _ _ _).mpr
      ⟨⟨by decide, by decide⟩, by decide, by decide, by decide⟩
  obtain ⟨⟨n, blob⟩, hdump⟩ := Option.isSome_iff_exists.mp hsome
  obtain ⟨hst, hdims, codes, hcodes, -⟩ := untiled_dump hc hB hdump fun _ => 0
  have hwant : decide ((32 : Nat) ≤ 10752 ∧ (a8Env 1).noBf = false) = true := by decide
  have ht : newTiles (a8Env 1) (a8Geom c 32 64) true = some ⟨.i8, 32, 64, 1, 1, fun _ _ => 1, some fun _ _ => 1⟩ := by
    have hSk : (a8Geom c 32 64).Sk = 1 := by decide
    have hSn : (a8Geom c 32 64).Sn = 1 := by decide
    unfold newTiles
    rw [hSk, hSn]
    rfl
  refine ⟨c, a8Env 1, 32, 64, fun _ => 0, n, blob, ⟨tileRows (a8Geom c 32 64) codes
    ⟨.i8, 32, 64, 1, 1, fun _ _ => 1, some fun _ _ => 1⟩, 0, 0, none, none, none⟩, hc, hB, hdump, ?_, fun _ => rfl, _, rfl, ?_⟩
  · unfold orkI4a8MmLoadTiled
    rw [if_neg (not_not_intro hst), if_neg hdims, if_neg (by decide), hcodes, Option.bind_eq_bind, Option.bind_some,
      if_neg (by decide), if_neg (by decide), hwant, ht]
    rfl
  · intro h
    exact absurd (h 0 0 (by decide) (by decide)) (by decide)

end OrkDriver.I4
