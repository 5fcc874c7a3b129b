import OrkDriver.Core.DynBegin
import OrkDriver.Mem.Sessions
import OrkDriver.Run.Weight

/-!
The weight constructors of `npu.c`, `i8/pack.c`, `i8/fold.c`, `i4/pack.c`, `f16/pack.c` and `f16/run.c` and the
destructors `ork_mm_free` and `ork_w_free`, as far as device buffers go: which buffers a weight is given, which fields say
whose they are, and what is undone when a step fails.
-/

namespace OrkDriver.Weights

open OrkDriver.Lib (Prog Triple pieces pieceLen)
open OrkDriver.Mem (BufEnv Buf Source Answers Session orkDom orkiPgup)
open OrkDriver.Npu (F16Knobs)
open OrkDriver.Pack (Dt Geom)

/-! ### Weights and what they are made with -/

/-- A buffer of `Bf`; `native` says `heap_fd >= 0`: it is not a part of another buffer. -/
structure BfBuf extends Buf where
  native : Bool

/-- The fields of `ork_w` that `ork_mm_free` reads, the rescue tiles apart. A null array is empty, but for `Bf`. -/
structure Tiles where
  orkd : Option Nat
  cpuCodes : Bool
  owns : Bool
  domain : Int
  Bb : List Buf
  Bf : Option (List BfBuf)
  Bfold : List Buf
  Bfull : Option Buf
  ownBuf : Option Buf
  ownBufs : List Buf

/-- As `calloc` leaves it, `owns` and `domain` apart. -/
def Tiles.blank (owns : Bool) (domain : Int) : Tiles := ⟨none, false, owns, domain, [], none, [], none, none, []⟩

/-- `ork_w`. Its rescue tiles are weights packed under `orki_in_slice_pack`, which have none of their own. -/
structure OrkW extends Tiles where
  sliced : Option (List Tiles)

/-- The environment variables the constructors read, the bytes of `ORK_IMPORT_CHUNK_MB`, and whether the dma-heap
opens. -/
structure Knobs where
  noBf : Bool
  ktileSet : Bool
  consolidateI8 : Bool
  weightSram : Bool
  f16ImportW : Bool
  noSliceRescue : Bool
  sliceAll : Bool
  noConsolidateImport : Bool
  importChunk : Nat
  adoptZc : Bool
  directI4 : Bool
  nf4 : Bool
  dmaHeap : Bool
  bimportDom : Bool

/-- A context that packs weights: `packDomain` is what `ork_npu_set_pack_domain` set, `daemon` says that it is a client
of the daemon. -/
structure Packer where
  v : BufEnv
  a : Answers
  npu : Npu.OrkNpu
  f16 : F16Knobs
  packDomain : Int
  daemon : Bool
  k : Knobs

/-- `ork_npu_set_pack_domain`. -/
def Packer.setPackDomain (p : Packer) (domain : Int) : Packer :=
  { p with packDomain := if domain < 0 then -1 else domain }

/-- What the constructors stamp on a weight. -/
def Packer.dom (p : Packer) : Int := orkDom p.v p.packDomain

variable (p : Packer)

/-! ### The destructors -/

/-- `ork_w_free` frees host memory only. -/
def orkWFree (_ : Tiles) : Prog Session Unit := pure ()

/-- The buffers `ork_mm_free` gives back, field by field. -/
def freeBuffers (t : Tiles) : Prog Session Unit := do
  if t.owns then Mem.destroyAll p.v p.a t.Bb else pure ()
  Mem.destroyAll p.v p.a (((t.Bf.getD []).filter BfBuf.native).map BfBuf.toBuf)
  Mem.destroyAll p.v p.a t.Bfold
  Mem.destroyAll p.v p.a t.Bfull.toList
  Mem.destroyAll p.v p.a t.ownBuf.toList
  Mem.destroyAll p.v p.a t.ownBufs

/-- `ork_mm_free` for a weight without rescue tiles. -/
def orkMmFreeTiles (t : Tiles) : Prog Session Unit :=
  match t.orkd with
  | some id => Mem.orkdFreeWeight id
  | none => if t.cpuCodes then pure () else freeBuffers p t

/-- `ork_mm_free_sliced`. -/
def orkMmFreeSliced : List Tiles → Prog Session Unit
  | [] => pure ()
  | t :: ts => do
    orkMmFreeTiles p t
    orkMmFreeSliced ts

/-- `ork_mm_free`. -/
def orkMmFree (w : OrkW) : Prog Session Unit :=
  match w.orkd with
  | some id => Mem.orkdFreeWeight id
  | none =>
    if w.cpuCodes then pure ()
    else do
      freeBuffers p w.toTiles
      orkMmFreeSliced p (w.sliced.getD [])

/-! ### Steps the constructors share -/

/-- Bytes of the tiles of a walk, `num` for `den` elements. -/
def tileBytes (g : Geom) (num den : Nat) : List Nat := g.tiles.map fun t => t.Kp * t.Nc * num / den

/-- Bytes of the full-K copies, one for each N-slice. -/
def bfBytes (g : Geom) : List Nat := (List.range g.Sn).map fun ns => g.K * pieceLen g.N g.NMAX ns

def i8Geom (K N : Nat) : Geom := ⟨1024, p.npu.soc.nmax, K, N⟩

def i4Geom (K N : Nat) : Geom := ⟨Core.orkI4Ks, p.npu.soc.nmax, K, N⟩

/-- Host allocations checked one group after another. -/
def hostGroups : List Nat → Prog Session Bool
  | [] => pure true
  | n :: ns => do
    let ok ← Mem.hostAllocs p.a n
    if ok then hostGroups ns else pure false

/-- `orki_i8_mm_pack` and its kin without a device: the codes stay in host memory. -/
def offline (groups : List Nat) : Prog Session (Option Tiles) := do
  let ok ← hostGroups p groups
  if ok then pure (some { Tiles.blank true 0 with cpuCodes := true }) else pure none

/-- A weight the daemon packs, and its handle here. -/
def client (domain : Int) : Prog Session (Option Tiles) := do
  let id ← Mem.orkdPack p.a
  match id with
  | none => pure none
  | some id => do
    let ok ← Mem.hostAlloc p.a
    if ok then pure (some { Tiles.blank false domain with orkd := some id }) else pure none

/-- A buffer for every tile. -/
def placeTiles (src : Source) (owns : Bool) (dom : Int) (sizes : List Nat) : Prog Session (Option Tiles) := do
  let Bb ← Mem.createOrNone p.v p.a src dom sizes
  match Bb with
  | none => pure none
  | some Bb => pure (some { Tiles.blank owns dom with Bb := Bb })

/-- A part of a buffer. -/
def view (b : Buf) (size : Nat) : Buf := ⟨b.handle, true, size, 0⟩

/-- One buffer of which the tiles are parts, or a buffer for each where that fails; `shown` is the size of a part. -/
def placeOwn (sizes : List Nat) (shown : Nat → Nat) (perTile : Prog Session (Option Tiles)) :
    Prog Session (Option Tiles) := do
  let own ← Mem.create p.v p.a (.created false) p.dom ((sizes.map orkiPgup).sum)
  if own.cpu then
    pure (some { Tiles.blank false p.dom with Bb := sizes.map fun n => view own (shown n), ownBuf := some own })
  else perTile

/-- The chunk loop of the consolidated imports: `cur` is the current chunk, how much of it is used and its size, `rem`
what is left of the weight, and `csz` the size of a new chunk for what is left and the tile. -/
def importChunks (csz : Nat → Nat → Nat) : Nat → Option (Buf × Nat × Nat) → List Nat →
    Prog Session (List Buf × List Buf × Bool)
  | _, _, [] => pure ([], [], true)
  | rem, cur, ts :: rest =>
    match cur.filter fun c => c.2.1 + ts ≤ c.2.2 with
    | some (b, coff, sz) => do
      let r ← importChunks csz (rem - ts) (some (b, coff + ts, sz)) rest
      pure (view b ts :: r.1, r.2)
    | none => do
      let b ← Mem.create p.v p.a .imported p.dom (csz rem ts)
      if b.cpu then do
        let r ← importChunks csz (rem - ts) (some (b, ts, csz rem ts)) rest
        pure (view b ts :: r.1, b :: r.2.1, r.2.2)
      else pure ([], [], false)

/-- The tiles of an imported weight: parts of chunks, or a buffer for each where a chunk is refused. -/
def placeImported (csz : Nat → Nat → Nat) (sizes : List Nat) : Prog Session (Option Tiles) :=
  let perTile := placeTiles p .imported true p.dom sizes
  if p.k.noConsolidateImport then perTile
  else do
    let r ← importChunks p csz (sizes.map orkiPgup).sum none (sizes.map orkiPgup)
    if r.2.2 then pure (some { Tiles.blank false p.dom with Bb := r.1, ownBufs := r.2.1 })
    else do
      Mem.destroyAll p.v p.a r.2.1
      perTile

/-- The full-K copies, left out where one of them is refused. -/
def attachBf (src : Source) (dom : Int) (want : Bool) (g : Geom) (t : Tiles) : Prog Session Tiles :=
  if want then do
    let Bf ← Mem.createOrNone p.v p.a src dom (bfBytes g)
    pure { t with Bf := Bf.map fun bs => bs.map fun b => ⟨b, true⟩ }
  else pure t

/-- The host memory a weight needs once it has its buffers, and what is done where there is none. -/
def finish (groups : List Nat) (cleanup : Tiles → Prog Session Unit) (t : Tiles) : Prog Session (Option Tiles) := do
  let ok ← hostGroups p groups
  if ok then pure (some t)
  else do
    cleanup t
    pure none

/-- Runs the rest of a constructor on the weight that has its tiles. -/
def andThen (m : Prog Session (Option Tiles)) (f : Tiles → Prog Session (Option Tiles)) : Prog Session (Option Tiles) := do
  let t ← m
  match t with
  | none => pure none
  | some t => f t

/-- The full-K copy of a loaded weight: only where a full-K submit can use it. -/
def loadBf (src : Source) (K N : Nat) (t : Tiles) : Prog Session (Option Tiles) := do
  let t ← attachBf p src p.dom (K % 512 = 0 ∧ K ≤ 4096 ∧ p.k.noBf = false) (i8Geom p K N) t
  pure (some t)

/-! ### `orki_pack` and its rescue tiles -/

/-- Whether `orki_pack` builds the full-K copy. -/
def wantsBf (dt : Dt) (K : Nat) : Bool :=
  dt = .i8 ∧ K ≤ 10752 ∧ p.k.noBf = false ∧ ¬ (p.npu.int8Ks < K ∧ p.k.ktileSet = true)

/-- `orki_pack` under `orki_in_slice_pack`, that is up to the rescue tiles. -/
def orkiPackTiles (dt : Dt) (K N : Nat) : Prog Session (Option Tiles) :=
  if K % 32 ≠ 0 ∨ N % Run.ntSz dt ≠ 0 then pure none
  else
    let g := Run.weightGeom p.npu p.f16 dt K N
    let sizes := tileBytes g (Run.esz dt) 1
    let src : Source := if dt = .f16 ∧ p.k.f16ImportW = true then .imported else .created p.k.weightSram
    let perTile := placeTiles p src true p.dom sizes
    andThen (if dt = .i8 ∧ p.k.consolidateI8 = true then placeOwn p sizes orkiPgup perTile else perTile) fun t => do
      let t ← attachBf p (.created false) p.dom (wantsBf p dt K) g t
      pure (some t)

/-- `ork_i4_mm_pack` on the device under `orki_in_slice_pack`. -/
def orkI4MmPackTiles (K N : Nat) : Prog Session (Option Tiles) :=
  if K % 32 ≠ 0 ∨ N % 64 ≠ 0 then pure none
  else placeTiles p (.created false) true p.dom (tileBytes (i4Geom p K N) 1 2)

/-- The pack loop of the rescue tiles, K-slice by K-slice: those packed, and whether all were. -/
def packSubs (pack : Nat → Nat → Prog Session (Option Tiles)) : List (Nat × Nat) → Prog Session (List Tiles × Bool)
  | [] => pure ([], true)
  | (Ks, Nw) :: rest => do
    let sw ← pack Ks Nw
    match sw with
    | none => pure ([], false)
    | some sw => do
      let r ← packSubs pack rest
      pure (sw :: r.1, r.2)

/-- `orki_i8_slice_pack` and `orki_i4_slice_pack` once they have their slices. -/
def slicePack (pack : Nat → Nat → Prog Session (Option Tiles)) (slices : List (Nat × Nat)) :
    Prog Session (Option (List Tiles)) := do
  let ok ← hostGroups p [1, 2]
  if ok then do
    let r ← packSubs pack slices
    if r.2 then pure (some r.1)
    else do
      orkMmFreeSliced p r.1
      pure none
  else pure none

/-- Rows and columns of the rescue tiles of a weight of `Kpad` rows. -/
def slices (Kpad N ks ns : Nat) : List (Nat × Nat) :=
  (List.range (pieces Kpad ks)).flatMap fun ki => (List.range (pieces N ns)).map fun ni => (pieceLen Kpad ks ki, pieceLen N ns ni)

/-- Columns of an int8 rescue tile: `N` cut evenly over at least as many tiles as there are cores. -/
def i8SliceNs (N : Nat) : Nat :=
  let nnt := max (pieces N 8192) p.npu.soc.cores
  max (min ((pieces N nnt + 31) / 32 * 32) 8192) 32

def orkiI8SlicePack (K N : Nat) : Prog Session (Option (List Tiles)) :=
  if N % 16 ≠ 0 then pure none
  else slicePack p (orkiPackTiles p .i8) (slices ((K + 511) / 512 * 512) N 4096 (i8SliceNs p N))

def orkiI4SlicePack (K N : Nat) : Prog Session (Option (List Tiles)) :=
  if N % 64 ≠ 0 then pure none
  else slicePack p (orkI4MmPackTiles p) (slices ((K + 31) / 32 * 32) N 8192 8192)

/-- A weight with its rescue tiles, where `want` asks for them (`ork_mm_pack_sliced`). -/
def rescue (m : Prog Session (Option Tiles)) (want : Tiles → Bool) (K N : Nat)
    (pack : Prog Session (Option (List Tiles))) : Prog Session (Option OrkW) := do
  let t ← m
  match t with
  | none => pure none
  | some t =>
    if want t ∧ 0 < K ∧ 0 < N then do
      let sl ← pack
      pure (some ⟨t, sl⟩)
    else pure (some ⟨t, none⟩)

/-- `orki_pack`. -/
def orkiPack (dt : Dt) (K N : Nat) : Prog Session (Option OrkW) :=
  let Sn := (Run.weightGeom p.npu p.f16 dt K N).Sn
  rescue (orkiPackTiles p dt K N)
    (fun t => dt = .i8 ∧ p.k.noSliceRescue = false ∧ (1 < Sn ∧ (4096 < K ∨ t.Bf.isNone) ∨ p.k.sliceAll = true))
    K N (orkiI8SlicePack p K N)

/-- A weight without rescue tiles. -/
def whole (m : Prog Session (Option Tiles)) : Prog Session (Option OrkW) := do
  let t ← m
  pure (t.map fun t => ⟨t, none⟩)

/-! ### int8 -/

/-- `ork_i8_mm_pack`. -/
def orkI8MmPack (K N : Nat) : Prog Session (Option OrkW) :=
  if p.npu.fd < 0 then whole (offline p [1, 1])
  else if p.daemon then whole (client p p.dom)
  else orkiPack p .i8 K N

/-- `ork_i8_mm_load`; `blob` says that the blob passes `orki_pack_check` and has the bytes of the walk. -/
def orkI8MmLoad (K N : Nat) (blob : Bool) : Prog Session (Option Tiles) :=
  if !blob then pure none
  else if p.npu.fd < 0 then offline p [1, 1]
  else if K % 32 ≠ 0 ∨ N % 32 ≠ 0 then pure none
  else andThen (placeTiles p (.created false) true p.dom (tileBytes (i8Geom p K N) 1 1)) (loadBf p (.created false) K N)

/-- The size of a chunk of an int8 import. -/
def i8Chunk (_ ts : Nat) : Nat := max ts p.k.importChunk

/-- `ork_i8_mm_pack_import`. -/
def orkI8MmPackImport (K N : Nat) : Prog Session (Option Tiles) :=
  if K % 32 ≠ 0 ∨ N % 32 ≠ 0 ∨ p.k.dmaHeap = false then pure none
  else do
    Mem.orkDomPrime p.v p.a p.k.bimportDom p.dom
    andThen (placeImported p (i8Chunk p) (tileBytes (i8Geom p K N) 1 1)) (loadBf p .imported K N)

/-- `ork_i8_mm_load_import`. -/
def orkI8MmLoadImport (K N : Nat) (blob : Bool) : Prog Session (Option Tiles) :=
  if !blob then pure none else orkI8MmPackImport p K N

/-- `ork_i8_mm_load_flags`; `sram` is the TRY_ALLOC_SRAM bit of the flags. -/
def orkI8MmLoadFlags (K N : Nat) (blob sram : Bool) : Prog Session (Option Tiles) :=
  if blob = false ∨ K % 32 ≠ 0 ∨ N % 32 ≠ 0 then pure none
  else placeTiles p (.created sram) true p.dom (tileBytes (i8Geom p K N) 1 1)

/-- The client's part of `ork_i8_mm_adopt_imported` is a pair of dma-bufs: their descriptors and sizes. -/
structure Handed where
  bbFd : Int
  bfFd : Int
  bbBytes : Nat
  bfBytes : Nat

/-- The full-K copy of an adopted weight: parts of its own import, which `own_bufs` holds. -/
def adoptBf (K N : Nat) (h : Handed) (t : Tiles) : Prog Session (Option Tiles) :=
  let g := i8Geom p K N
  if h.bfFd < 0 ∨ h.bfBytes = 0 ∨ h.bfBytes < ((bfBytes g).map orkiPgup).sum then pure (some t)
  else do
    let imp ← Mem.create p.v p.a (.adopted h.bfFd) p.dom h.bfBytes
    if imp.cpu then do
      let t : Tiles := { t with ownBufs := t.ownBufs ++ [imp] }
      let ok ← Mem.hostAlloc p.a
      if ok then pure (some { t with Bf := some ((bfBytes g).map fun n => ⟨view imp (orkiPgup n), false⟩) })
      else pure (some t)
    else pure (some t)

/-- `ork_i8_mm_adopt_imported`; `mapped` says that the blob could be mapped and `blob` that it loads. -/
def orkI8MmAdoptImported (K N : Nat) (h : Handed) (mapped blob : Bool) : Prog Session (Option Tiles) :=
  let sizes := tileBytes (i8Geom p K N) 1 1
  if K % 32 ≠ 0 ∨ N % 32 ≠ 0 ∨ h.bbFd < 0 then pure none
  else if p.k.adoptZc = false then (if mapped then orkI8MmLoad p K N blob else pure none)
  else if h.bbBytes < (sizes.map orkiPgup).sum then pure none
  else do
    Mem.orkDomPrime p.v p.a p.k.bimportDom p.dom
    let imp ← Mem.create p.v p.a (.adopted h.bbFd) p.dom h.bbBytes
    if imp.cpu then do
      -- neither the weight nor its `own_bufs` is there yet: the import itself is given back
      let ok ← hostGroups p [1, 1]
      if ok then do
        let t : Tiles := { Tiles.blank false p.dom with ownBufs := [imp] }
        andThen (finish p [1] (orkMmFreeTiles p) t) fun t =>
          adoptBf p K N h { t with Bb := sizes.map fun n => view imp (orkiPgup n) }
      else do
        Mem.destroy p.v p.a imp
        pure none
    else pure none

/-- `ork_i8_mm_import`; `bufs` says that the dma-bufs for the daemon could be had. -/
def orkI8MmImport (K N : Nat) (blob bufs : Bool) : Prog Session (Option Tiles) :=
  if p.daemon = false ∨ K = 0 ∨ N = 0 ∨ blob = false ∨ bufs = false then pure none else client p p.dom

/-- Tiles with a buffer each, and their full-K copy where `bf` asks for it. -/
def i8Tiles (src : Source) (owns : Bool) (dom : Int) (bf : Bool) (g : Geom) : Prog Session (Option Tiles) :=
  andThen (placeTiles p src owns dom (tileBytes g 1 1)) fun t => do
    let t ← attachBf p src dom bf g t
    pure (some t)

/-- The constructors that quantise: the buffers first, then `n` host allocations, and `ork_w_free` where one fails. -/
def packQuantised (owns : Bool) (dom : Int) (K N n : Nat) : Prog Session (Option Tiles) :=
  if K % 32 ≠ 0 ∨ N % 32 ≠ 0 then pure none
  else do
    let ok ← hostGroups p [1, 1]
    if ok then
      andThen (i8Tiles p (.created false) owns dom (K ≤ 10752 ∧ p.k.noBf = false) (i8Geom p K N)) (finish p [n] orkWFree)
    else pure none

/-- `ork_i8_mm_pack_f32`; `owns` and `domain` stay as `calloc` left them. -/
def orkI8MmPackF32 (K N : Nat) : Prog Session (Option Tiles) := packQuantised p false 0 K N 1

/-- `ork_i8_mm_pack_dequant`; the same. -/
def orkI8MmPackDequant (K N : Nat) : Prog Session (Option Tiles) := packQuantised p false 0 K N 1

/-- `FOLD_REF_K`, `FOLD_REF_N`. -/
def foldRefK : Nat := 3584

def foldRefN : Nat := 1216

/-- `ork_i8_mm_load_fold`. -/
def orkI8MmLoadFold (K N : Nat) (blob : Bool) : Prog Session (Option Tiles) :=
  if blob = false ∨ K ≠ foldRefK ∨ N < 1 ∨ N % 32 ≠ 0 ∨ 64 < pieces N foldRefN then pure none
  else do
    let ok ← Mem.hostAlloc p.a
    if ok then do
      let Bfold ← Mem.createOrNone p.v p.a (.created false) p.dom
        ((List.range (pieces N foldRefN)).map fun s => orkiPgup (K * pieceLen N foldRefN s))
      match Bfold with
      | none => pure none
      | some bs => pure (some { Tiles.blank true p.dom with Bfold := bs })
    else pure none

/-! ### int4 -/

/-- `ork_i4a8_mm_pack_im`; `imatrix` says that there is one. -/
def orkI4a8MmPackIm (K N : Nat) (imatrix : Bool) : Prog Session (Option Tiles) :=
  packQuantised p true p.dom K N (4 + p.k.nf4.toNat + imatrix.toNat)

/-- `ork_i4a8_mm_pack`. -/
def orkI4a8MmPack (K N : Nat) : Prog Session (Option Tiles) := orkI4a8MmPackIm p K N false

/-- `ork_i4a8_mm_load`. -/
def orkI4a8MmLoad (K N : Nat) (blob : Bool) : Prog Session (Option Tiles) :=
  if K % 32 ≠ 0 ∨ N % 32 ≠ 0 ∨ blob = false then pure none
  else if p.npu.fd < 0 then offline p [1, 1, 1]
  else do
    let ok ← hostGroups p [1, 1]
    if ok then
      andThen (i8Tiles p (.created false) true p.dom (K ≤ 10752 ∧ p.k.noBf = false) (i8Geom p K N))
        (finish p [2, if p.k.directI4 then 1 else 2] (orkMmFreeTiles p))
    else pure none

/-- `ork_i4a8_mm_load_tiled`; with `G` the tiles are the K-groups. -/
def orkI4a8MmLoadTiled (K N G : Nat) (blob : Bool) : Prog Session (Option Tiles) :=
  if blob = false ∨ K % 32 ≠ 0 ∨ N % 64 ≠ 0 then pure none
  else if p.npu.fd < 0 then offline p [1, 1]
  else do
    let ok ← hostGroups p [1, 1, 1]
    if ok then
      if 0 < G ∧ K % G = 0 then i8Tiles p (.created false) true p.dom false ⟨G, p.npu.soc.nmax, K, N⟩
      else i8Tiles p (.created false) true p.dom (K ≤ 10752 ∧ p.k.noBf = false) (i8Geom p K N)
    else pure none

/-- `ork_i4a8_mm_load_import`. -/
def orkI4a8MmLoadImport (K N : Nat) (blob : Bool) : Prog Session (Option Tiles) :=
  if K % 32 ≠ 0 ∨ N % 32 ≠ 0 ∨ p.k.dmaHeap = false ∨ blob = false then pure none
  else do
    let w ← Mem.hostAlloc p.a
    if w then do
      Mem.orkDomPrime p.v p.a p.k.bimportDom p.dom
      let Bb ← Mem.hostAlloc p.a
      if Bb then
        andThen (i8Tiles p .imported true p.dom (K % 512 = 0 ∧ K ≤ 4096 ∧ p.k.noBf = false) (i8Geom p K N))
          (finish p [2, 1] (orkMmFreeTiles p))
      else pure none
    else pure none

/-- `ork_i4_mm_pack`; the handle of a client's weight keeps domain 0. -/
def orkI4MmPack (K N : Nat) : Prog Session (Option OrkW) :=
  if K % 32 ≠ 0 ∨ N % 64 ≠ 0 then pure none
  else if p.npu.fd < 0 then whole (offline p [1, 1])
  else if p.daemon then whole (client p 0)
  else
    rescue (orkI4MmPackTiles p K N)
      (fun _ => p.k.noSliceRescue = false ∧ (1 < (i4Geom p K N).Sn ∨ 8192 < K ∨ p.k.sliceAll = true))
      K N (orkiI4SlicePack p K N)

/-- `ork_i4_mm_pack_to_i8`. -/
def orkI4MmPackToI8 (K N : Nat) : Prog Session (Option OrkW) := orkI8MmPack p K N

/-- `ork_i4_mm_load`. -/
def orkI4MmLoad (K N : Nat) (blob : Bool) : Prog Session (Option Tiles) :=
  if blob = false ∨ K % 32 ≠ 0 ∨ N % 64 ≠ 0 then pure none
  else if p.npu.fd < 0 then offline p [1, 1]
  else placeTiles p (.created false) true p.dom (tileBytes (i4Geom p K N) 1 2)

/-- The size of a chunk of an int4 import: no more than what is left of the weight. -/
def i4Chunk (rem ts : Nat) : Nat := max (min rem p.k.importChunk) ts

/-- `ork_i4_mm_load_import`. -/
def orkI4MmLoadImport (K N : Nat) (blob : Bool) : Prog Session (Option Tiles) :=
  if blob = false ∨ K % 32 ≠ 0 ∨ N % 64 ≠ 0 ∨ p.k.dmaHeap = false then pure none
  else do
    Mem.orkDomPrime p.v p.a p.k.bimportDom p.dom
    placeImported p (i4Chunk p) (tileBytes (i4Geom p K N) 1 2)

/-- A new chunk goes to the context's array, which is grown where it is full. -/
def arenaKeep (nb : Buf) (full : Bool) : Prog Session (Option (Buf × Nat)) := do
  let ok ← if full then Mem.hostAlloc p.a else pure true
  if ok then do
    Mem.hold nb
    Prog.modify fun s =>
      { s with
        arenaN := s.arenaN + 1
        arenaCap := if s.arenaCap ≤ s.arenaN then (if s.arenaCap = 0 then 64 else s.arenaCap * 2) else s.arenaCap }
    pure (some (nb, 0))
  else do
    Mem.destroy p.v p.a nb
    pure none

/-- The chunk of the arena a weight of `need` bytes goes to and where in it: the current one of the domain, or a new one,
which the context keeps. -/
def arenaChunk (need : Nat) : Prog Session (Option (Buf × Nat)) := fun s =>
  match (s.arena p.dom).filter fun c => c.2 + need ≤ c.1.size with
  | some c => (some c, s)
  | none =>
    (do
      let nb ← Mem.create p.v p.a .imported p.dom (max need p.k.importChunk)
      if nb.cpu then arenaKeep p nb (s.arenaCap ≤ s.arenaN) else pure none : Prog Session (Option (Buf × Nat))) s

/-- `ork_i4_mm_load_arena`: the tiles are parts of a chunk of the arena, and the weight owns nothing. -/
def orkI4MmLoadArena (K N : Nat) (blob : Bool) : Prog Session (Option Tiles) :=
  let sizes := (tileBytes (i4Geom p K N) 1 2).map orkiPgup
  if blob = false ∨ K % 32 ≠ 0 ∨ N % 64 ≠ 0 ∨ p.k.dmaHeap = false ∨ p.dom < 0 ∨ 64 ≤ p.dom then pure none
  else do
    let ok ← hostGroups p [1, 1]
    if ok then do
      Mem.orkDomPrime p.v p.a p.k.bimportDom p.dom
      let c ← arenaChunk p sizes.sum
      match c with
      | none => pure none
      | some (cur, off) => do
        Prog.modify fun s => { s with arena := Function.update s.arena p.dom (some (cur, off + sizes.sum)) }
        pure (some { Tiles.blank false p.dom with Bb := sizes.map (view cur) })
    else pure none

/-- `ork_i4_mm_pack_grouped`. -/
def orkI4MmPackGrouped (K N G : Nat) : Prog Session (Option Tiles) :=
  if p.npu.fd < 0 then offline p [1, 1]
  else if K % 32 ≠ 0 ∨ N % 64 ≠ 0 ∨ G % 32 ≠ 0 ∨ K % G ≠ 0 ∨ Core.orkI4Ks < G then pure none
  else
    let sizes := tileBytes ⟨G, p.npu.soc.nmax, K, N⟩ 1 2
    placeOwn p sizes id (placeTiles p (.created false) true p.dom sizes)

/-! ### fp16 -/

/-- `ork_f16_mm_pack`. -/
def orkF16MmPack (K N : Nat) : Prog Session (Option OrkW) :=
  if p.daemon then whole (client p p.dom) else orkiPack p .f16 K N

/-- `f16_load_common`. -/
def f16LoadCommon (K N : Nat) (blob useImport : Bool) : Prog Session (Option Tiles) :=
  if p.npu.fd < 0 ∨ K = 0 ∨ N = 0 ∨ K % 32 ≠ 0 ∨ N % 16 ≠ 0 ∨ blob = false then pure none
  else if useImport = true ∧ p.k.dmaHeap = false then pure none
  else do
    let ok ← hostGroups p [1, 1]
    if ok then do
      if useImport then Mem.orkDomPrime p.v p.a p.k.bimportDom p.dom else pure ()
      placeTiles p (if useImport then .imported else .created false) true p.dom
        (tileBytes (Run.weightGeom p.npu p.f16 .f16 K N) 2 1)
    else pure none

/-- `ork_f16_mm_load`. -/
def orkF16MmLoad (K N : Nat) (blob : Bool) : Prog Session (Option Tiles) := f16LoadCommon p K N blob false

/-- `ork_f16_mm_load_import`. -/
def orkF16MmLoadImport (K N : Nat) (blob : Bool) : Prog Session (Option Tiles) := f16LoadCommon p K N blob true

/-- `ork_f16_mm_scratch`. -/
def orkF16MmScratch (K N : Nat) : Prog Session (Option Tiles) :=
  if K % 32 ≠ 0 ∨ N % 16 ≠ 0 then pure none
  else do
    let ok ← hostGroups p [1, 1]
    if ok then placeTiles p (.created false) true p.dom (tileBytes (Run.weightGeom p.npu p.f16 .f16 K N) 2 1)
    else pure none

/-- `orki_f16_bfull` on the calibration weight, whose one N-slice it re-lays where there are several K-slices. -/
def orkiF16Bfull (K N : Nat) (w : OrkW) : Prog Session (Bool × OrkW) :=
  if (Run.weightGeom p.npu p.f16 .f16 K N).Sk = 1 then pure (true, w)
  else do
    let b ← Mem.create p.v p.a (.created false) p.dom (K * N * 2)
    if b.cpu then pure (true, { w with Bfull := some b }) else pure (false, w)

/-- `ork_f16_mm_build_lut`: a weight is packed, run and freed; `runs` says that the runs went well. -/
def orkF16MmBuildLut (runs : Bool) : Prog Session Bool := do
  let ok ← Mem.hostAllocs p.a 3
  if ok then do
    let w ← orkF16MmPack p 512 64
    match w with
    | none => pure false
    | some w =>
      if w.orkd.isSome then do
        -- a client's weight has no tiles here: the run refuses it
        orkMmFree p w
        pure false
      else do
        let r ← orkiF16Bfull p 512 64 w
        orkMmFree p r.2
        pure (r.1 && runs)
  else pure false

/-- `ork_f16_mm_pack_fused_act`; `fits` says that fused activations are on and the function and its range are of use. -/
def orkF16MmPackFusedAct (K N : Nat) (fits runs : Bool) : Prog Session (Option OrkW) :=
  if fits = false ∨ K % 32 ≠ 0 ∨ N % 16 ≠ 0 then pure none
  else do
    let lut ← Mem.hostAlloc p.a
    if lut then do
      let built ← orkF16MmBuildLut p runs
      if built then do
        let Bs ← Mem.hostAlloc p.a
        if Bs then orkF16MmPack p K N else pure none
      else pure none
    else pure none

end OrkDriver.Weights
