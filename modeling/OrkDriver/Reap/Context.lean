import OrkDriver.Lib.Programs
import OrkDriver.Lib.SwapRemove
import OrkDriver.Mem.Buffers

/-!
The buffers a context keeps between calls (`struct ork_npu` of `npu/internal.h`), the functions that fill and use them,
and `ork_ctx_fd_reap` of `npu/core/device.c`, which closes the device and opens it again.
-/

namespace OrkDriver.Reap

open OrkDriver.Lib (Prog)
open OrkDriver.Mem (orkiPgup)

/-! ### Buffers -/

/-- `struct buf` while it is mapped; `heap` says that it is a dma-heap import. `fd` is the opening of the device its
handle, object and addresses were obtained from. -/
structure DevBuf where
  handle : Nat
  obj : Nat
  dma : Nat
  size : Nat
  domain : Nat
  heap : Bool
  fd : Nat

/-- What MEM_CREATE hands out. -/
structure Mapping where
  handle : Nat
  obj : Nat
  dma : Nat

/-- The kernel's answers to the creations and imports in the order they are asked for. -/
abbrev Kernel := Nat → Option Mapping

/-- The single buffers of a context, by their field. -/
inductive Slot
  | regcmd
  | task
  | Af
  | Cc
  | mtkAll
  | ppuA
  | ppuB
  | ppuO
  | mrc (i : Fin 4)
  | mtk (i : Fin 4)
  | maf (i : Fin 4)
  | mcc (i : Fin 4)
  | chainRc (i : Fin 4)
  | chainTk (i : Fin 4)
  | chainLrc (i : Fin 4)
  | chainLsc (i : Fin 4)
  deriving DecidableEq

/-- The slots of `struct ork_dom_scratch`. -/
def Slot.parked : Slot → Bool
  | regcmd | task | Af | Cc | mtkAll | mrc _ | mtk _ | maf _ | mcc _ => true
  | _ => false

/-- The slots `ork_ctx_fd_reap` clears (`ZB`). -/
def zeroed : List Slot :=
  [.regcmd, .task, .Af, .Cc, .mtkAll, .ppuA, .ppuB, .ppuO] ++
    (List.finRange 4).flatMap fun i =>
      [.mrc i, .mtk i, .maf i, .mcc i, .chainRc i, .chainTk i, .chainLrc i, .chainLsc i]

/-- A tile of a weight; `registered` says that the import registry points at it. -/
structure Tile where
  buf : DevBuf
  registered : Bool

/-- The device side of an `ork_w`. A weight that does not own its tiles leaves them alone when it is freed. -/
structure Weight where
  domain : Nat
  owns : Bool
  tiles : List Tile

/-- `struct fold_scratch`: its key, and the buffers of `Cc`, `RC` and `TK`. -/
structure FoldScratch where
  M : Nat
  N : Nat
  domain : Nat
  bufs : List DevBuf

/-- The shared input of the folds (`fold_A`, `fold_A_M`, `fold_A_dom`). -/
structure FoldA where
  M : Nat
  domain : Nat
  buf : DevBuf

/-- The scratch weights of `ork_ssm_scan_f32` and the shape they were made for. -/
structure SsmPool where
  shape : List Nat
  weights : List Weight

/-- The context and the weights made with it. `saved d` is the working set parked for domain `d`, `calls` counts the
kernel's answers, and `log` lists the buffers whose handle or addresses were used. -/
structure Context where
  fd : Nat
  slot : Slot → Option DevBuf
  domActive : Nat
  saved : Nat → Option (Slot → Option DevBuf)
  anchor : Nat → Option DevBuf
  dmaTab : List DevBuf
  wchunk : List DevBuf
  wchunkOff : Nat
  i4arena : List DevBuf
  i4arenaCur : Nat → Option DevBuf
  i4arenaOff : Nat → Nat
  foldA : Option FoldA
  foldScr : List FoldScratch
  seqWitness : Option Weight
  ssm : SsmPool
  weights : List Weight
  calls : Nat
  closed : Bool
  log : List DevBuf

/-! ### Creating, using and destroying -/

section Memory

variable (k : Kernel)

/-- The handle, the object or an address of the buffer reaches the kernel or a register command. -/
def use (b : DevBuf) : Prog Context Unit := Prog.modify fun c => { c with log := b :: c.log }

/-- `orki_bdestroy` of a field, empty or not. -/
def orkiBdestroy (o : Option DevBuf) : Prog Context Unit :=
  match o with
  | none => pure ()
  | some b => use b

/-- `orki_bcreate`, or `orki_bimport` where `heap` is set. -/
def create (size dom : Nat) (heap : Bool) : Prog Context (Option DevBuf) := fun c =>
  ((k c.calls).map fun m => ⟨m.handle, m.obj, m.dma, orkiPgup size, dom, heap, c.fd⟩, { c with calls := c.calls + 1 })

def setSlot (s : Slot) (o : Option DevBuf) : Prog Context Unit :=
  Prog.modify fun c => { c with slot := Function.update c.slot s o }

def useSlot (s : Slot) : Prog Context Unit := do
  let o ← Prog.read fun c => c.slot s
  orkiBdestroy o

/-- `orki_bdestroy(fd,&c->f); c->f=orki_bcreate(fd,size,..,c->dom_active);` -/
def remake (s : Slot) (size : Nat) : Prog Context Unit := do
  useSlot s
  let dom ← Prog.read fun c => c.domActive
  let o ← create k size dom false
  setSlot s o

/-- The field holds a buffer of at least `size` bytes in the active domain. -/
def Context.fits (c : Context) (s : Slot) (size : Nat) : Bool :=
  match c.slot s with
  | none => false
  | some b => decide (size ≤ b.size ∧ b.domain = c.domActive)

/-- A field that is made again when it is too small or in another domain. -/
def grow (s : Slot) (size : Nat) : Prog Context Unit := do
  let ok ← Prog.read fun c => c.fits s size
  Prog.when (ok = false) (remake k s size)

/-- A field that is made when it is empty. -/
def ensure (s : Slot) (size : Nat) : Prog Context Unit := do
  let o ← Prog.read fun c => c.slot s
  Prog.when (o.isNone = true) (remake k s size)

/-! ### Domains -/

/-- `ork_dom_prime`. -/
def orkDomPrime (d : Nat) : Prog Context Unit := do
  let o ← Prog.read fun c => c.anchor d
  Prog.when (d ≠ 0 ∧ o.isNone = true) do
    let b ← create k 65536 d false
    Prog.modify fun c => { c with anchor := Function.update c.anchor d b }

/-- The park and restore of `orki_dom_activate`: what is parked for a domain that was never used is empty. -/
def Context.swap (c : Context) (dom : Nat) : Context :=
  { c with
    saved := Function.update c.saved c.domActive (some fun s => if s.parked = true then c.slot s else none)
    slot := fun s => if s.parked = true then (c.saved dom).bind fun parked => parked s else c.slot s
    domActive := dom }

/-- `orki_dom_activate`. -/
def orkiDomActivate (dom : Nat) : Prog Context Unit := do
  let cur ← Prog.read fun c => c.domActive
  Prog.when (dom ≠ cur) do
    let used ← Prog.read fun c => (c.saved dom).isSome
    Prog.modify fun c => c.swap dom
    let o ← Prog.read fun c => c.slot .regcmd
    Prog.when (used = false ∧ o.isNone = true) do
      remake k .regcmd 2097152
      remake k .task 524288
      remake k .Af 262144
      useSlot .task

/-! ### Weights -/

/-- The tiles of a pack or a load. One that cannot be made takes those before it along. -/
def makeTiles (imp : Bool) (dom : Nat) : List Tile → List Nat → Prog Context (Option (List Tile))
  | made, [] => pure (some made)
  | made, size :: sizes => do
      let o ← create k size dom imp
      match o with
      | none => do
          Prog.each (fun t => use t.buf) made
          pure none
      | some b => do
          use b
          makeTiles imp dom (made ++ [⟨b, imp⟩]) sizes

/-- A pack; `imp` says that the tiles are fp16 imports (`ORK_F16_IMPORT_W`), which alone are registered. -/
def pack (imp : Bool) (dom : Nat) (sizes : List Nat) : Prog Context (Option Weight) := do
  let ts ← makeTiles k imp dom [] sizes
  pure (ts.map fun ts => ⟨dom, true, ts⟩)

def useTiles (w : Weight) : Prog Context Unit := Prog.each (fun t => use t.buf) w.tiles

/-- `ork_mm_free` of the tiles. -/
def freeTiles (w : Weight) : Prog Context Unit := Prog.when (w.owns = true) (useTiles w)

/-! ### Runs -/

/-- A buffer of `dma_tab` that a pointer of the caller falls into. -/
def useDma (i : Nat) : Prog Context Unit := do
  let o ← Prog.read fun c => c.dmaTab[i]?
  orkiBdestroy o

/-- What a run is given: the weight, the sizes it needs, the cores, and the entries of `dma_tab` its operands lie in. -/
structure RunArgs where
  af : Nat
  out : Nat
  cores : List (Fin 4)
  operands : List Nat

/-- The single-core run (`orki_run`, `ork_i8_mm_run_silu`, ...). -/
def runSingle (w : Weight) (a : RunArgs) : Prog Context Unit := do
  orkiDomActivate k w.domain
  grow k .Af a.af
  grow k .Cc a.out
  Prog.each useSlot [.regcmd, .task, .Af, .Cc]
  useTiles w
  Prog.each useDma a.operands

/-- `orki_mc_ensure`. -/
def orkiMcEnsure (cores : List (Fin 4)) : Prog Context Unit := do
  ensure k .mtkAll 4096
  Prog.each (fun i => do
    let o ← Prog.read fun c => c.slot (.mrc i)
    Prog.when (o.isNone = true) do
      remake k (.mrc i) 65536
      remake k (.mtk i) 65536
      remake k (.maf i) 262144) cores

/-- The multi-core run (`run_multicore`, the streamed runs and the doorbell runs). -/
def runMulticore (w : Weight) (a : RunArgs) : Prog Context Unit := do
  orkiDomActivate k w.domain
  orkiMcEnsure k a.cores
  Prog.each (fun i => do
    grow k (.maf i) a.af
    grow k (.mcc i) a.out) a.cores
  Prog.each (fun i => Prog.each useSlot [.mrc i, .mtk i, .maf i, .mcc i]) a.cores
  useSlot .mtkAll
  useTiles w
  Prog.each useDma a.operands

/-- A fused chain on one core (`i8/chain.c`); its temporaries live and die inside the call. -/
def runChain (ws : List Weight) (dom : Nat) (cc : Fin 4) (lut : Bool) (operands : List Nat) : Prog Context Unit := do
  orkiDomActivate k dom
  let o ← Prog.read fun c => c.slot (.chainRc cc)
  Prog.when (o.isNone = true) do
    remake k (.chainRc cc) 1048576
    remake k (.chainTk cc) 262144
  let l ← Prog.read fun c => c.slot (.chainLrc cc)
  Prog.when (lut = true ∧ l.isNone = true) do
    remake k (.chainLrc cc) 8776
    remake k (.chainLsc cc) 4096
  Prog.each useSlot [.chainRc cc, .chainTk cc, .chainLrc cc, .chainLsc cc]
  Prog.each useTiles ws
  Prog.each useDma operands

/-- `orki_ppu_scratch3` and the SDP operation that uses it. -/
def runPpu (size : Nat) : Prog Context Unit := do
  let ok ← Prog.read fun c => c.fits .ppuA size && c.fits .ppuB size && c.fits .ppuO size
  Prog.when (ok = false) (Prog.each (fun s => remake k s size) [.ppuA, .ppuB, .ppuO])
  Prog.each useSlot [.ppuA, .ppuB, .ppuO, .regcmd, .task]

/-! ### Folds -/

/-- `fold_A_ensure`. -/
def foldAEnsure (M dom : Nat) : Prog Context Unit := do
  let o ← Prog.read fun c => c.foldA
  Prog.when ((o.any fun a => a.M == M && a.domain == dom) = false) do
    orkiBdestroy (o.map FoldA.buf)
    let b ← create k (M * 3584 * 8 + 1048576) dom false
    Prog.modify fun c => { c with foldA := b.map (FoldA.mk M dom) }

/-- The buffers of a new `struct fold_scratch`: three for each slice. -/
def foldBufs : List DevBuf → List Nat → Nat → Prog Context (Option (List DevBuf))
  | made, [], _ => pure (some made)
  | made, size :: sizes, dom => do
      let o ← create k size dom false
      match o with
      | none => do
          Prog.each use made
          pure none
      | some b => foldBufs (made ++ [b]) sizes dom

/-- `fold_scr_get`: the cached entry for the shape, or a new one; the oldest of eight leaves. -/
def foldScrGet (M N dom : Nat) (sizes : List Nat) : Prog Context Unit := do
  let hit ← Prog.read fun c => c.foldScr.any fun e => e.M == M && e.N == N && e.domain == dom
  Prog.when (hit = false) do
    let o ← foldBufs k [] sizes dom
    match o with
    | none => pure ()
    | some bufs => do
        let full ← Prog.read fun c => decide (8 ≤ c.foldScr.length)
        Prog.when (full = true) do
          let old ← Prog.read fun c => c.foldScr.take 1
          Prog.each use (old.flatMap FoldScratch.bufs)
          Prog.modify fun c => { c with foldScr := c.foldScr.drop 1 }
        Prog.modify fun c => { c with foldScr := c.foldScr ++ [⟨M, N, dom, bufs⟩] }

/-- `ork_npu_fold_run_w`. -/
def runFold (w : Weight) (M N : Nat) (sizes : List Nat) : Prog Context Unit := do
  foldAEnsure k M w.domain
  foldScrGet k M N w.domain sizes
  let a ← Prog.read fun c => c.foldA
  orkiBdestroy (a.map FoldA.buf)
  let fs ← Prog.read fun c => c.foldScr.filter fun e => e.M == M && e.N == N && e.domain == w.domain
  Prog.each use ((fs.take 1).flatMap FoldScratch.bufs)
  useTiles w

/-! ### Zero-copy buffers and arenas -/

/-- `ork_dma_alloc`, `ork_dma_alloc_flags` and, with `imp`, `ork_dma_import` and `ork_dma_import_fd`. -/
def orkDmaAlloc (size dom : Nat) (imp : Bool) : Prog Context Unit := do
  let room ← Prog.read fun c => decide (c.dmaTab.length < 64)
  Prog.when (room = true) do
    Prog.when (imp = true) (orkDomPrime k dom)
    let b ← create k size dom imp
    Prog.modify fun c => { c with dmaTab := c.dmaTab ++ b.toList }

/-- `ork_dma_free` of the entry at index `i`: the last one takes its place. -/
def orkDmaFree (i : Nat) : Prog Context Unit := do
  useDma i
  Prog.modify fun c => { c with dmaTab := match c.dmaTab.getLast? with
    | none => []
    | some last => if i < c.dmaTab.length then (c.dmaTab.set i last).dropLast else c.dmaTab }

/-- `orki_warena_reserve`, with `mb` MiB to a chunk: the chunk goes to the caller. -/
def orkiWarenaReserve (need mb : Nat) : Prog Context Unit := do
  let a := (need + 4095) / 4096 * 4096
  let room ← Prog.read fun c => c.wchunk.getLast?.any fun b => decide (c.wchunkOff + a ≤ b.size)
  let n ← Prog.read fun c => c.wchunk.length
  Prog.when (room = false ∧ n < 64 ∧ mb ≠ 0) do
    let b ← create k (max (mb * 1048576) a) 0 false
    Prog.modify fun c => { c with wchunk := c.wchunk ++ b.toList, wchunkOff := if b.isSome then 0 else c.wchunkOff }
  let o ← Prog.read fun c =>
    c.wchunk.getLast?.filter fun b => decide (c.wchunkOff + a ≤ b.size)
  Prog.when (o.isSome = true) do
    orkiBdestroy o
    Prog.modify fun c => { c with wchunkOff := c.wchunkOff + a }

/-- A place `off` bytes into a buffer. -/
def DevBuf.view (b : DevBuf) (off size : Nat) : DevBuf := { b with dma := b.dma + off, size := size, heap := false }

/-- The tiles of a weight in the arena, one behind another from `off` on. -/
def views (b : DevBuf) : Nat → List Nat → List Tile
  | _, [] => []
  | off, size :: sizes => ⟨b.view off size, false⟩ :: views b (off + size) sizes

/-- `ork_i4_mm_load_arena`, with chunks of `cap` bytes at least. -/
def orkI4LoadArena (dom cap : Nat) (sizes : List Nat) : Prog Context Unit := do
  orkDomPrime k dom
  let need := sizes.sum
  let room ← Prog.read fun c => (c.i4arenaCur dom).any fun b => decide (c.i4arenaOff dom + need ≤ b.size)
  Prog.when (room = false) do
    let o ← create k (max need cap) dom true
    Prog.when (o.isSome = true) do
      Prog.modify fun c => { c with
        i4arena := c.i4arena ++ o.toList
        i4arenaCur := Function.update c.i4arenaCur dom o
        i4arenaOff := Function.update c.i4arenaOff dom 0 }
  let o ← Prog.read fun c =>
    (c.i4arenaCur dom).filter fun b => decide (c.i4arenaOff dom + need ≤ b.size)
  match o with
  | none => pure ()
  | some b => do
      use b
      Prog.modify fun c => { c with
        weights := c.weights ++ [⟨dom, false, views b (c.i4arenaOff dom) sizes⟩]
        i4arenaOff := Function.update c.i4arenaOff dom (c.i4arenaOff dom + need) }

/-! ### The operations of a context -/

/-- `seq_ensure_witness`: an int8 weight, so never an import. -/
def seqEnsureWitness (dom : Nat) (sizes : List Nat) : Prog Context Unit := do
  let o ← Prog.read fun c => c.seqWitness
  Prog.when (o.isNone = true) do
    let w ← pack k false dom sizes
    Prog.modify fun c => { c with seqWitness := w }

/-- `orki_ssm_pool_free`; scratch weights own their tiles. -/
def orkiSsmPoolFree : Prog Context Unit := do
  let ws ← Prog.read fun c => c.ssm.weights
  Prog.each useTiles ws
  Prog.modify fun c => { c with ssm := ⟨[], []⟩ }

/-- `ssm_pool_ensure`: `sizes` lists, weight by weight, the tiles to make and whether they are registered imports. -/
def ssmPoolEnsure (shape : List Nat) (dom : Nat) (sizes : List (Bool × List Nat)) : Prog Context Unit := do
  let same ← Prog.read fun c => decide (c.ssm.shape = shape)
  Prog.when (same = false) do
    orkiSsmPoolFree
    Prog.each (fun z => do
      let w ← pack k z.1 dom z.2
      Prog.modify fun c => { c with ssm := { c.ssm with weights := c.ssm.weights ++ w.toList } }) sizes
    Prog.modify fun c => { c with ssm := { c.ssm with shape := shape } }

/-- `ork_npu_free`, device side: every table and every slot of the context is destroyed. -/
def orkNpuFree : Prog Context Unit := do
  let w ← Prog.read fun c => c.seqWitness
  Prog.each useTiles w.toList
  orkiSsmPoolFree
  let fs ← Prog.read fun c => c.foldScr
  Prog.each use (fs.flatMap FoldScratch.bufs)
  let a ← Prog.read fun c => c.foldA
  orkiBdestroy (a.map FoldA.buf)
  Prog.each useSlot zeroed
  let d ← Prog.read fun c => c.dmaTab
  Prog.each use d
  let ar ← Prog.read fun c => c.i4arena
  Prog.each use ar
  let wc ← Prog.read fun c => c.wchunk
  Prog.each use wc
  Prog.modify fun c => { c with closed := true }

end Memory

/-! ### Calls, and the reap -/

/-- A call on the context. A weight is named by its place among those the callers hold; `seq` is a sequence whose last
group ends in an SDP operation; `attach` adds to a weight what is derived from it on the way (`Bfold`, `Bbc`, `Bfull`). -/
inductive Op
  | run (i : Nat) (a : RunArgs)
  | multicore (i : Nat) (a : RunArgs)
  | chain (is : List Nat) (dom : Nat) (cc : Fin 4) (lut : Bool) (operands : List Nat)
  | ppu (size : Nat)
  | fold (i M N : Nat) (sizes : List Nat)
  | dmaAlloc (size dom : Nat) (imp : Bool)
  | dmaFree (i : Nat)
  | dmaSync (i : Nat)
  | warena (need mb : Nat)
  | i4arena (dom cap : Nat) (sizes : List Nat)
  | pack (imp : Bool) (dom : Nat) (sizes : List Nat)
  | repack (i : Nat)
  | attach (i dom : Nat) (sizes : List Nat)
  | free (i : Nat)
  | seq (a : RunArgs) (dom : Nat) (sizes : List Nat)
  | ssm (shape : List Nat) (dom : Nat) (sizes : List (Bool × List Nat)) (a : RunArgs)
  | npuFree

def withWeight (i : Nat) (f : Weight → Prog Context Unit) : Prog Context Unit := do
  let o ← Prog.read fun c => c.weights[i]?
  Prog.each f o.toList

def Op.prog (k : Kernel) : Op → Prog Context Unit
  | .run i a => withWeight i fun w => runSingle k w a
  | .multicore i a => withWeight i fun w => runMulticore k w a
  | .chain is dom cc lut operands => do
      let ws ← Prog.read fun c => is.filterMap fun i => c.weights[i]?
      runChain k ws dom cc lut operands
  | .ppu size => runPpu k size
  | .fold i M N sizes => withWeight i fun w => runFold k w M N sizes
  | .dmaAlloc size dom imp => orkDmaAlloc k size dom imp
  | .dmaFree i => orkDmaFree i
  | .dmaSync i => useDma i
  | .warena need mb => orkiWarenaReserve k need mb
  | .i4arena dom cap sizes => orkI4LoadArena k dom cap sizes
  | .pack imp dom sizes => do
      let w ← Reap.pack k imp dom sizes
      Prog.modify fun c => { c with weights := c.weights ++ w.toList }
  | .repack i => withWeight i useTiles
  | .attach i dom sizes => do
      let ts ← makeTiles k false dom [] sizes
      Prog.modify fun c => { c with weights := c.weights.modify i fun w => { w with tiles := w.tiles ++ ts.getD [] } }
  | .free i => do
      withWeight i freeTiles
      Prog.modify fun c => { c with weights := c.weights.eraseIdx i }
  | .seq a dom sizes => do
      seqEnsureWitness k dom sizes
      let w ← Prog.read fun c => c.seqWitness
      Prog.each (fun w => runMulticore k w a) w.toList
  | .ssm shape dom sizes a => do
      ssmPoolEnsure k shape dom sizes
      let ws ← Prog.read fun c => c.ssm.weights
      Prog.each (fun w => runMulticore k w a) ws
  | .npuFree => orkNpuFree

/-- The context after a call; nothing is called once it is freed. -/
def next (k : Kernel) (c : Context) (op : Op) : Context := if c.closed = true then c else (op.prog k c).2

/-- As `calloc` leaves it. -/
def blank : Context where
  fd := 0
  slot _ := none
  domActive := 0
  saved _ := none
  anchor _ := none
  dmaTab := []
  wchunk := []
  wchunkOff := 0
  i4arena := []
  i4arenaCur _ := none
  i4arenaOff _ := 0
  foldA := none
  foldScr := []
  seqWitness := none
  ssm := ⟨[], []⟩
  weights := []
  calls := 0
  closed := false
  log := []

/-- `ork_npu_init`. -/
def orkNpuInit (k : Kernel) (cores : List (Fin 4)) : Context :=
  (Prog.each (fun m => m) [remake k .regcmd 2097152, remake k .task 524288, remake k .Af 262144, useSlot .task,
    orkiMcEnsure k cores, Prog.each (fun i => grow k (.mcc i) 2097152) cores] blank).2

/-- `orki_reimport_inplace` of a tile, if the registry points at it. The state counts the kernel's answers and the
failures. -/
def reimportTile (k : Kernel) (fd : Nat) (t : Tile) : Prog (Nat × Nat) Tile := fun s =>
  if t.registered = false then (t, s)
  else if t.buf.heap = false then (t, (s.1, s.2 + 1))
  else
    match k s.1 with
    | none => (t, (s.1 + 1, s.2 + 1))
    | some m => ({ t with buf := { t.buf with handle := m.handle, obj := m.obj, dma := m.dma, fd := fd } }, (s.1 + 1, s.2))

def reimport (k : Kernel) (fd : Nat) (ws : List Weight) : Prog (Nat × Nat) (List Weight) :=
  Prog.mapped (fun w => do
    let ts ← Prog.mapped (reimportTile k fd) w.tiles
    pure { w with tiles := ts }) ws

/-- `ork_ctx_fd_reap` once the device is open again: what it returns, and the context it leaves. -/
def orkCtxFdReap (k : Kernel) (c : Context) : Int × Context :=
  let ws := reimport k (c.fd + 1) c.weights (c.calls, 0)
  let witness := reimport k (c.fd + 1) c.seqWitness.toList ws.2
  let ssm := reimport k (c.fd + 1) c.ssm.weights witness.2
  (if ssm.2.2 = 0 then 0 else -1,
    { c with
      fd := c.fd + 1
      slot := fun s => if s ∈ zeroed then none else c.slot s
      domActive := 0
      saved := fun _ => none
      anchor := fun _ => none
      weights := ws.1
      seqWitness := witness.1.head?
      ssm := { c.ssm with weights := ssm.1 }
      calls := ssm.2.1
      log := [] })

end OrkDriver.Reap
