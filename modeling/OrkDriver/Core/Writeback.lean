import OrkDriver.Lib.Block
import OrkDriver.Lib.Walk
import OrkDriver.Lib.Loops
import OrkDriver.Lib.Cut

/-!
What `ork_dyn_end` copies back (`npu/core/dyn_ctl.c`): which cells of an op's output are summed into which cell of C.
-/

namespace OrkDriver.Core

open OrkDriver.Lib

/-- The per-op fields of `ork_dyn_chain` that the copy-back reads; `dst` is a place in the caller's C, none if NULL. -/
structure DynOp where
  nout : Nat
  oM : Nat
  oSk : Nat
  ostride : Nat
  ocol0 : Nat
  oscat : Bool
  dst : Option Nat
  deriving DecidableEq

/-- The fields of the handle that it reads: `soc->nmax`, `h->N`, `osegcap` and whether the outputs are int16. -/
structure DynGeom where
  nmax : Nat
  N : Nat
  segcap : Nat
  half : Bool
  deriving DecidableEq

/-- A cell of C with the output cells that are summed into it. -/
abbrev Move := Nat × List Nat

/-- Where the segment that starts at column `cur` ends: at the N-slice, at the range, or at the cap. -/
def cutEnd (nmax N segcap hi cur : Nat) : Nat :=
  let sl1 := if N < (cur / nmax + 1) * nmax then N else (cur / nmax + 1) * nmax
  let segend := if hi < sl1 then hi else sl1
  if 0 < segcap ∧ segcap < segend - cur then cur + segcap else segend

/-- K-split: `oSk` partial blocks are summed. -/
def ksplitMoves (Sk M N stride : Nat) : List Move :=
  block 0 stride M N fun m n => (List.range Sk).map fun ks => ks * M * N + m * N + n

/-- Boundary scatter: segment-major blocks, cut as the emission cut them. -/
def scatterMoves (g : DynGeom) (M stride c0 Ne : Nat) : Nat → Nat → Nat → Nat → List Move
  | 0, _, _, _ => []
  | fuel + 1, cur, coff, blk =>
    if coff < Ne then
      let segend := cutEnd g.nmax g.N g.segcap (c0 + Ne) cur
      let segw := segend - cur
      block coff stride M segw (fun m j => [blk + m * segw + j]) ++
        scatterMoves g M stride c0 Ne fuel segend (coff + segw) (blk + M * segw)
    else []

/-- Scatter of whole N-slices. -/
def sliceMoves (nmax M Ne : Nat) : List Move :=
  (List.range (pieces Ne nmax)).flatMap fun ns =>
    block (ns * nmax) Ne M (pieceLen Ne nmax ns) fun m j => [M * (ns * nmax) + m * pieceLen Ne nmax ns + j]

/-- The copy-back of one op. -/
def orkDynWriteback (g : DynGeom) (op : DynOp) : List Move :=
  match op.dst with
  | none => []
  | some d =>
    let no := if op.nout = 0 then g.N else op.nout
    let Me := if op.oM = 0 then 1 else op.oM
    let Ne := no / Me
    let moves :=
      if 1 < op.oSk then
        let Nn := no / (op.oSk * Me)
        ksplitMoves op.oSk Me Nn (if 0 < op.ostride then op.ostride else Nn)
      else if op.oscat then scatterMoves g Me op.ostride op.ocol0 Ne (Ne + 1) op.ocol0 0 0
      else if g.half = false ∧ 1 < Me ∧ g.nmax < Ne then sliceMoves g.nmax Me Ne
      else if g.half = true then block 0 no 1 no fun _ e => [e]
      else if 0 < op.ostride then block 0 op.ostride Me Ne fun m n => [m * Ne + n]
      else block 0 no 1 no fun _ e => [e]
    moves.map fun p => (d + p.1, p.2)

variable {R : Type*} [AddCommMonoid R]

/-- The stores of a copy-back from an output that holds `src`. -/
def moved (src : Nat → R) (l : List Move) : List (Nat × R) := l.map fun p => (p.1, (p.2.map src).sum)

/-- The copy-back of a K-split op by the worker of its core: the first partial is stored, the others are added. -/
def workerAccumulate (op : DynOp) (src C : Nat → R) : Nat → R :=
  match op.dst with
  | none => C
  | some d =>
    let Me := if op.oM = 0 then 1 else op.oM
    let Nn := op.nout / (op.oSk * Me)
    let ds := if 0 < op.ostride then op.ostride else Nn
    (List.range op.oSk).foldl (fun C ks => stores C (block d ds Me Nn fun m n =>
      if ks = 0 then src (m * Nn + n) else C (d + m * ds + n) + src (ks * Me * Nn + m * Nn + n))) C

end OrkDriver.Core
