import OrkDriver.Core.Writeback
import OrkDriver.Run.SingleCore

/-!
The column-split dispatch of one int8 matmul (`npu/core/colsplit.c`): every core owns a range of columns, cut into
segments at the N-slices, or takes the K-slices of a weight that has no full-K copy or is too deep for it.
-/

namespace OrkDriver.Core

open OrkDriver.Lib OrkDriver.Npu OrkDriver.Pack OrkDriver.Run

variable {R : Type*}

/-- The knobs, as `atoi` reads them (0 if unset), and what the dispatch finds: whether buffers are granted, how many
programs the chain of a core may have, which programs are valid, and what the scratch buffers hold. -/
structure ColsplitEnv (R : Type*) where
  wrNc : Int
  wrMouter : Int
  wrNtile : Bool
  wrSegw : Int
  serial : Bool
  granted : Bool
  fits : Nat → Nat
  accepts : Nat → Program → Bool
  maf : Nat → Nat → R
  mcc : Nat → Nat → R

/-- No knob set, nothing refused, chains of up to `n` programs, and `x` in every scratch buffer. -/
def ColsplitEnv.quiet (n : Nat) (x : R) : ColsplitEnv R :=
  ⟨0, 0, false, 0, false, true, fun _ => n, fun _ _ => true, fun _ _ => x, fun _ _ => x⟩

/-- `segcap`. -/
def ColsplitEnv.segcap (v : ColsplitEnv R) (K : Nat) : Nat :=
  let dbank := orkiMtileCap K * K / 32768
  let cols := (12 - dbank) * 32768 / K / 32 * 32
  let cap := if v.wrNtile ∧ dbank < 12 ∧ 32 ≤ cols then cols else 0
  if 32 ≤ v.wrSegw then (v.wrSegw / 32).toNat * 32 else cap

/-- `nc`. -/
def ColsplitEnv.cores (v : ColsplitEnv R) (c : OrkNpu) (NN : Nat) (ncreq : Int) : Nat :=
  let n := (if 0 < v.wrNc then v.wrNc else ncreq).toNat
  let n := if NN < n then NN else n
  let n := if c.soc.cores < n then c.soc.cores else n
  if n < 1 then 1 else n

/-- Whether the K-slices are dispatched, not the full-K copy. -/
def wideK (w : OrkW R) : Bool := 4096 < w.K ∨ w.Bf.isNone

/-- First column of core `i`. -/
def coreCol (NN nc i : Nat) : Nat := i * NN / nc * 32

/-! ### Emission -/

/-- One program: the K-slice, rows and columns it is for, and the weight buffer its weight address lies in. -/
structure Emit where
  ks : Nat
  m0 : Nat
  n0 : Nat
  wb : Nat
  p : Program
  deriving DecidableEq

/-- An entry of the segment table. -/
structure Seg where
  segw : Nat
  is0 : Nat
  ns : Nat
  segbase : Nat

def segTable (nmax N segcap M c1e : Nat) : Nat → Nat → Nat → List Seg
  | 0, _, _ => []
  | fuel + 1, cur, sgbase =>
    if cur < c1e then
      let segend := cutEnd nmax N segcap c1e cur
      let ns := cur / nmax
      ⟨segend - cur, cur - ns * nmax, ns, sgbase⟩ ::
        segTable nmax N segcap M c1e fuel segend (sgbase + M * (segend - cur))
    else []

/-- The program of a segment and a row block. -/
def segEmit (nmax K M : Nat) (s : Seg) (ti : Nat) : Emit :=
  let m0 := ti * orkiMtileCap K
  ⟨0, m0, s.ns * nmax + s.is0, s.ns,
    orkiI8Synth (pieceLen M (orkiMtileCap K) ti) K s.segw (m0 * K) (s.is0 / 32 * K * 32) (s.segbase + m0 * s.segw) 0⟩

/-- The programs of a core that reads the full-K copy; `mouter` walks the row blocks outside. -/
def segEmits (nmax K M : Nat) (mouter : Bool) (sg : List Seg) : List Emit :=
  let ntile := pieces M (orkiMtileCap K)
  (List.range (sg.length * ntile)).map fun idx =>
    let s := if mouter then idx % sg.length else idx / ntile
    let ti := if mouter then idx / sg.length else idx % ntile
    segEmit nmax K M (sg.getD s ⟨0, 0, 0, 0⟩) ti

/-- The programs of a core that reads the K-slices. -/
def wideEmits (KS K Sk M c0 Ncore : Nat) : List Emit :=
  (List.range Sk).flatMap fun ks =>
    let Kp := pieceLen K KS ks
    let kcap := orkiMtileCap Kp
    (List.range (pieces M kcap)).map fun i =>
      let m0 := i * kcap
      ⟨ks, m0, c0, ks,
        orkiI8Synth (pieceLen M kcap i) Kp Ncore (M * (ks * KS) + m0 * Kp) (c0 / 32 * Kp * 32) ((ks * M + m0) * Ncore) 0⟩

/-- What one core is given. -/
structure CoreWork where
  emits : List Emit
  op : DynOp

/-- The build of core `i`. -/
def coreWork (c : OrkNpu) (v : ColsplitEnv R) (w : OrkW R) (M cstride nc i : Nat) : CoreWork :=
  let NN := w.N / 32
  let c0 := coreCol NN nc i
  let Ncore := coreCol NN nc (i + 1) - c0
  if Ncore = 0 then ⟨[], 0, 0, 0, 0, 0, false, none⟩
  else if wideK w then
    ⟨wideEmits c.int8Ks w.K w.Sk M c0 Ncore,
      w.Sk * M * Ncore, M, w.Sk, if cstride = 0 then w.N else cstride, 0, false, some c0⟩
  else
    let sg := segTable c.soc.nmax w.N (v.segcap w.K) M (c0 + Ncore) (Ncore / 32 + 2) c0 0
    ⟨segEmits c.soc.nmax w.K M (v.wrMouter ≠ 0) sg, M * Ncore, M, 0, w.N, c0, 1 < sg.length, some c0⟩

/-- The handle. -/
structure Colsplit where
  nc : Nat
  geom : DynGeom
  core : Nat → CoreWork

/-- `ork_dyn_begin_colsplit` for int8. -/
def orkDynBeginColsplit (c : OrkNpu) (v : ColsplitEnv R) (ncreq : Int) (w : OrkW R) (M cstride : Nat) : Option Colsplit :=
  let nc := v.cores c (w.N / 32) ncreq
  let core := coreWork c v w M cstride nc
  if v.granted ∧ ∀ i < nc, (core i).emits.length ≤ v.fits i ∧ ∀ e ∈ (core i).emits, v.accepts i e.p = true then
    some ⟨nc, ⟨c.soc.nmax, w.N, v.segcap w.K, false⟩, core⟩
  else none

/-! ### What the cores compute and what is copied back -/

/-- The activations of core `i`: its own copy, or the K-slices gathered once for all. -/
def stagedA (c : OrkNpu) (v : ColsplitEnv R) (w : OrkW R) (M : Nat) (A : Nat → R) (i : Nat) : Nat → R :=
  if wideK w then
    stores (v.maf 0) ((List.range w.Sk).flatMap fun ks =>
      block (M * (ks * c.int8Ks)) (pieceLen w.K c.int8Ks ks) M (pieceLen w.K c.int8Ks ks) fun m j =>
        A (m * w.K + (ks * c.int8Ks + j)))
  else copyOut (M * w.K) A (v.maf i)

variable [NonUnitalNonAssocSemiring R]

/-- The scratch of core `i` after its programs ran. -/
def coreScratch (c : OrkNpu) (v : ColsplitEnv R) (w : OrkW R) (M : Nat) (A : Nat → R) (h : Colsplit) (i : Nat) : Nat → R :=
  (h.core i).emits.foldl (fun C e => e.p.run 32 (stagedA c v w M A i)
    (if wideK w then w.Bb e.wb else (w.Bf.getD fun _ _ => 0) e.wb) C) (v.mcc i)

/-- `ork_dyn_end` on the handle: with several cores the workers have summed their K-slices, unless
`ORK_COLSPLIT_SERIAL` is set, and what they took over is not copied back again. -/
def colsplitEnd (v : ColsplitEnv R) (h : Colsplit) (src : Nat → Nat → R) (C : Nat → R) : Nat → R :=
  let parallel := decide (1 < h.nc ∧ v.serial = false)
  let worker := fun i => parallel && decide (1 < (h.core i).op.oSk)
  let C := (List.range h.nc).foldl (fun C i => if worker i then workerAccumulate (h.core i).op (src i) C else C) C
  (List.range h.nc).foldl
    (fun C i => if worker i then C else stores C (moved (src i) (orkDynWriteback h.geom (h.core i).op))) C

end OrkDriver.Core
