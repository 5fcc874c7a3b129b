import OrkDriver.Lib.Loops
import OrkDriver.Run.Weight

/-!
`orki_run` on one core (`npu.c`): the pass that sizes the staging buffers, and the loops that emit one program for each
N-slice, K-slice and row block and accumulate what it wrote. An int8 weight with a full-K copy skips the K-slices.
-/

namespace OrkDriver.Run

open OrkDriver.Lib OrkDriver.Npu OrkDriver.Pack

variable {R : Type*}

/-- One turn of the loops: a tile of the weight and a row block. -/
structure Turn where
  ns : Nat
  ks : Nat
  t : Tile
  m0 : Nat
  mc : Nat
  deriving DecidableEq

/-- What the run finds: whether A lies in a DMA buffer, whether C does and `ORK_ZC_OUT` is set, the staging buffers with
their sizes, whether new ones are granted, and which programs are validated and complete. -/
structure RunEnv (R : Type*) where
  zcA : Bool
  zcC : Bool
  afSize : Nat
  ccSize : Nat
  ccsz : Nat
  newAf : Bool
  newCc : Bool
  accepts : Turn → Bool
  af : Nat → R
  cc : Nat → R

structure RunSt (R : Type*) where
  af : Nat → R
  cc : Nat → R
  cres : Nat → R
  C : Nat → R
  emitted : List (Turn × Program)

/-- What the run leaves. -/
structure Ran (R : Type*) where
  rc : Int
  afSize : Nat
  ccSize : Nat
  C : Nat → R
  emitted : List (Turn × Program)

/-- `RB`, from the chip's buffer; fp16 keeps 32768. -/
def runRB (c : OrkNpu) (dt : Dt) : Nat :=
  if dt = .f16 then if 32768 < c.soc.cbufElems then 32768 else c.soc.cbufElems else 2 * c.soc.cbufElems

/-- The loops over N-slices, K-slices and row blocks. -/
def turns (Sn Sk : Nat) (tile : Nat → Nat → Tile) (chunk : Tile → Nat) (M : Nat) : List Turn :=
  (List.range Sn).flatMap fun ns => (List.range Sk).flatMap fun ks =>
    (List.range (pieces M (chunk (tile ns ks)))).map fun i =>
      ⟨ns, ks, tile ns ks, i * chunk (tile ns ks), pieceLen M (chunk (tile ns ks)) i⟩

/-! ### Sizing -/

def maxOf (f : Tile → Nat) (ts : List Tile) : Nat := ts.foldl (fun m t => if m < f t then f t else m) 0

/-- Rows of the staging buffers that a tile asks for. -/
def sizeRows (e : F16Knobs) (dt : Dt) (RB M : Nat) (t : Tile) : Nat :=
  let chunk := orkiRunLoopChunk e dt t.Kp t.Nc RB
  let rows := if chunk < M then chunk else M
  if dt = .f16 then
    let rem := if M % chunk ≠ 0 then M % chunk else chunk
    let rem := if M < rem then M else rem
    let p := orkiF16Mcpad t.Kp t.Nc (orkiF16Sched t.Kp) rem chunk
    if rows < p then p else rows
  else rows

/-- The tiles, in the order the sizing pass visits them. -/
def sizingTiles (g : Geom) : List Tile :=
  (List.range g.Sk).flatMap fun ks => (List.range g.Sn).map fun ns => g.tile ns ks

/-- Whether the run reads the full-K copy. -/
def fullK (w : OrkW R) (M : Nat) : Bool := w.dt = .i8 ∧ 1 < M ∧ w.Bf.isSome ∧ w.K % 512 = 0 ∧ w.K ≤ 4096

/-- The row block of the full-K loop. -/
def fullChunk (K M : Nat) : Nat :=
  let chunk := if mgMaxRows K < 1 then 1 else mgMaxRows K
  if M < chunk then M else chunk

def fullRows (K M : Nat) : Nat := if fullChunk K M < M then fullChunk K M else M

/-- `maxaf` and `maxout`, in bytes. -/
def sizing (e : F16Knobs) (w : OrkW R) (g : Geom) (RB M : Nat) : Nat × Nat :=
  let maxaf := maxOf (fun t => sizeRows e w.dt RB M t * t.Kp * esz w.dt) (sizingTiles g)
  let maxout := maxOf (fun t => sizeRows e w.dt RB M t * t.Nc * 4) (sizingTiles g)
  if fullK w M then
    let sz := fullRows w.K M * w.K
    let out := maxOf (fun t => fullRows w.K M * t.Nc * 4) ((List.range g.Sn).map (fullTile g))
    (if maxaf < sz then sz else maxaf, if maxout < out then out else maxout)
  else (maxaf, maxout)

/-! ### Emission -/

/-- Rows `[m0, m0 + mc)` and columns `[k0, k0 + Kp)` of A, packed into the activation buffer. -/
def gather (A : Nat → R) (K m0 mc k0 Kp : Nat) (af : Nat → R) : Nat → R :=
  stores af (block 0 Kp mc Kp fun r j => A ((m0 + r) * K + (k0 + j)))

/-- `mch`: an fp16 program is computed taller where its own height is not legal. -/
def height (e : F16Knobs) (dt : Dt) (RB : Nat) (s : Turn) : Nat :=
  if dt = .f16 then
    orkiF16Mcpad s.t.Kp s.t.Nc (runSched dt s.t.Kp) s.mc (orkiRunLoopChunk e dt s.t.Kp s.t.Nc RB)
  else s.mc

/-- The turns of the K-sliced loop. -/
def loopTurns (e : F16Knobs) (w : OrkW R) (g : Geom) (RB M : Nat) : List Turn :=
  turns w.Sn w.Sk g.tile (fun t => orkiRunLoopChunk e w.dt t.Kp t.Nc RB) M

/-- The turns of the full-K loop. -/
def fullTurns (w : OrkW R) (g : Geom) (M : Nat) : List Turn :=
  turns w.Sn 1 (fun ns _ => fullTile g ns) (fun _ => fullChunk w.K M) M

variable [NonUnitalNonAssocSemiring R]

/-- The program of a turn of the K-sliced loop. -/
def loopProgram (e : F16Knobs) (dt : Dt) (RB : Nat) (s : Turn) : Program :=
  if dt = .f16 then orkiF16Synth (height e dt RB s) s.t.Kp s.t.Nc 0 0 0
  else orkiI8Synth s.mc s.t.Kp s.t.Nc 0 0 0 s.t.Nc

/-- Gather, run, and store or accumulate. -/
def loopEffect (w : OrkW R) (A : Nat → R) (s : Turn) (p : Program) (st : RunSt R) : RunSt R :=
  let af := gather A w.K s.m0 s.mc s.t.k0 s.t.Kp st.af
  let cc := p.run (ntSz w.dt) af (w.Bb (s.ns * w.Sk + s.ks)) st.cc
  { st with
    af, cc
    cres := stores st.cres (block (s.m0 * w.N + s.t.n0) w.N s.mc s.t.Nc fun r n =>
      if s.ks = 0 then cc (r * s.t.Nc + n) else st.cres ((s.m0 + r) * w.N + (s.t.n0 + n)) + cc (r * s.t.Nc + n))
    emitted := st.emitted ++ [(s, p)] }

/-- One turn of the K-sliced loop; an error is a return of -1. -/
def loopTurn (e : F16Knobs) (w : OrkW R) (RB afSize ccSize : Nat) (accepts : Turn → Bool) (A : Nat → R)
    (st : RunSt R) (s : Turn) : Except (RunSt R) (RunSt R) :=
  let mch := height e w.dt RB s
  if mch < 1 then .error st
  else if afSize < mch * s.t.Kp * esz w.dt then .error st
  else if ccSize < mch * s.t.Nc * 4 then .error st
  else if accepts s then .ok (loopEffect w A s (loopProgram e w.dt RB s) st)
  else .error { st with emitted := st.emitted ++ [(s, loopProgram e w.dt RB s)] }

/-- The program of a turn of the full-K loop: A and C are staged unless they lie in DMA buffers. -/
def fullProgram (w : OrkW R) (zcA zcC : Bool) (s : Turn) : Program :=
  orkiI8Synth s.mc w.K s.t.Nc (if zcA then s.m0 * w.K else 0) 0 (if zcC then s.m0 * w.N else 0)
    (if zcC then w.N else s.t.Nc)

def fullEffect (w : OrkW R) (Bf : Nat → Nat → R) (zcA zcC : Bool) (A : Nat → R) (s : Turn) (p : Program)
    (st : RunSt R) : RunSt R :=
  let af := gather A w.K s.m0 s.mc 0 w.K st.af
  let run := p.run (ntSz w.dt) (if zcA then A else af) (Bf s.ns)
  let st := { st with af := if zcA then st.af else af, emitted := st.emitted ++ [(s, p)] }
  if zcC then { st with C := run st.C }
  else
    let cc := run st.cc
    { st with
      cc
      cres := stores st.cres (block (s.m0 * w.N + s.t.n0) w.N s.mc s.t.Nc fun r n => cc (r * s.t.Nc + n)) }

/-- One turn of the full-K loop. -/
def fullTurn (w : OrkW R) (Bf : Nat → Nat → R) (zcA zcC : Bool) (afSize ccSize : Nat) (accepts : Turn → Bool)
    (A : Nat → R) (st : RunSt R) (s : Turn) : Except (RunSt R) (RunSt R) :=
  if zcA = false ∧ afSize < s.mc * w.K then .error st
  else if zcC = false ∧ ccSize < s.mc * s.t.Nc * 4 then .error st
  else if accepts s then .ok (fullEffect w Bf zcA zcC A s (fullProgram w zcA zcC s) st)
  else .error { st with emitted := st.emitted ++ [(s, fullProgram w zcA zcC s)] }

/-- The `memmove` loop after a zero-copy output of more than one N-slice. -/
def restride (g : Geom) (Sn M : Nat) (C : Nat → R) : Nat → R :=
  ((List.range (M - 1)).reverse.flatMap fun r => (List.range Sn).reverse.map fun ns => (r + 1, g.tile ns 0)).foldl
    (fun C s => stores C (block (s.1 * g.N + s.2.n0) g.N 1 s.2.Nc fun _ j =>
      C (s.2.n0 + s.2.Nc + (s.1 - 1) * g.N + j))) C

/-- `memcpy(C, cres, M*N*4)`. -/
def copyOut (n : Nat) (cres C : Nat → R) : Nat → R := fun x => if x < n then cres x else C x

omit [NonUnitalNonAssocSemiring R] in
theorem copyOut_cell {M N : Nat} (cres C : Nat → R) {m n : Nat} (hm : m < M) (hn : n < N) :
    copyOut (M * N) cres C (m * N + n) = cres (m * N + n) :=
  if_pos (digits_lt hm hn)

/-- The loops of the run, with the staging buffers at their final sizes. -/
def runLoops (c : OrkNpu) (e : F16Knobs) (v : RunEnv R) (w : OrkW R) (M afSize ccSize : Nat) (A C : Nat → R) : Ran R :=
  let g := weightGeom c e w.dt w.K w.N
  let st : RunSt R := ⟨v.af, v.cc, fun _ => 0, C, []⟩
  if fullK w M then
    let out := (fullTurns w g M).foldlM
      (fullTurn w (w.Bf.getD fun _ _ => 0) v.zcA v.zcC afSize ccSize v.accepts A) st
    match out with
    | .error st => ⟨-1, afSize, ccSize, st.C, st.emitted⟩
    | .ok st =>
        let C := if v.zcC then if 1 < w.Sn then restride g w.Sn M st.C else st.C
          else copyOut (M * w.N) st.cres st.C
        ⟨0, afSize, ccSize, C, st.emitted⟩
  else
    let RB := runRB c w.dt
    let out := (loopTurns e w g RB M).foldlM (loopTurn e w RB afSize ccSize v.accepts A) st
    match out with
    | .error st => ⟨-1, afSize, ccSize, st.C, st.emitted⟩
    | .ok st => ⟨0, afSize, ccSize, copyOut (M * w.N) st.cres st.C, st.emitted⟩

/-- `orki_run`, once it has settled for one core. -/
def orkiRun (c : OrkNpu) (e : F16Knobs) (v : RunEnv R) (w : OrkW R) (M : Nat) (A C : Nat → R) : Ran R :=
  let need := sizing e w (weightGeom c e w.dt w.K w.N) (runRB c w.dt) M
  if v.ccsz < need.2 ∧ v.newCc = false then ⟨-1, v.afSize, 0, C, []⟩
  else
    let ccSize := if v.ccsz < need.2 then pgup need.2 else v.ccSize
    if v.afSize < need.1 ∧ v.newAf = false then ⟨-1, 0, ccSize, C, []⟩
    else runLoops c e v w M (if v.afSize < need.1 then pgup need.1 else v.afSize) ccSize A C

end OrkDriver.Run
