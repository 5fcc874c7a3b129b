import Mathlib.Data.Rat.Defs
import OrkDriver.Lib.Stores
import OrkDriver.Npu.Program
import OrkDriver.Npu.Soc
import OrkDriver.Pack.Header

/-!
The heterogeneous chains (`npu/i8/dyn_seq.c`, `orki_seq_op_ok` and `orki_seq_build_op` of `npu.c`): which core runs which
op, where each op's output lies in the shared scratch, and how `ork_dyn_seq_end` copies it out.
-/

namespace OrkDriver.Core

open OrkDriver.Lib OrkDriver.Npu OrkDriver.Pack

/-! ### Ops -/

/-- `ork_seq_kind`, the kinds that are not chained here as one. -/
inductive SeqKind
  | mmI8
  | ewmulI8
  | siluI16
  | siluI8
  | other
  deriving DecidableEq

/-- What a chain reads of a weight. -/
structure SeqWeight where
  dt : Dt
  K : Nat
  N : Nat
  Sk : Nat
  Sn : Nat
  domain : Nat

/-- `ork_seq_op`; `C` is a host address, 0 for none. -/
structure SeqOp where
  kind : SeqKind
  w : Option SeqWeight
  M : Int
  N : Int
  mult : Int
  shift : Int
  inScale : ℚ
  outScale : ℚ
  C : Nat

/-- `orki_seq_op_ok`, on the domain recorded so far. -/
def orkiSeqOpOk (o : SeqOp) (dom : Option Nat) : Option (Option Nat) :=
  match o.kind with
  | .mmI8 =>
    match o.w with
    | none => none
    | some w =>
      if w.dt ≠ .i8 ∨ w.Sn ≠ 1 ∨ w.Sk ≠ 1 ∨ w.K % 512 ≠ 0 ∨ 4096 < w.K then none
      else if o.M < 1 ∨ 64 < o.M then none
      else
        match dom with
        | none => some (some w.domain)
        | some d => if w.domain = d then some (some d) else none
  | .ewmulI8 =>
    if o.M < 1 ∨ 64 < o.M ∨ o.N < 16 ∨ o.N % 16 ≠ 0 then none
    else if o.mult < 0 ∨ 0x7fff < o.mult ∨ o.shift < 0 ∨ 31 < o.shift then none
    else some dom
  | .siluI16 => if o.M < 1 ∨ 64 < o.M ∨ o.N < 8 ∨ o.N % 8 ≠ 0 then none else some dom
  | .siluI8 => if o.M < 1 ∨ 64 < o.M ∨ o.N < 16 ∨ o.N % 16 ≠ 0 then none else some dom
  | .other => none

namespace SeqOp

/-- The rows and columns of the output. -/
def rows (o : SeqOp) : Nat := o.M.toNat

def cols (o : SeqOp) : Nat :=
  match o.kind with
  | .mmI8 => (o.w.map SeqWeight.N).getD 0
  | _ => o.N.toNat

def depth (o : SeqOp) : Nat := (o.w.map SeqWeight.K).getD 0

def isSilu (o : SeqOp) : Bool := o.kind = .siluI16 ∨ o.kind = .siluI8

/-- What an op adds to the load of its core. -/
def cost (o : SeqOp) : Nat :=
  match o.kind with
  | .mmI8 => o.depth * o.cols
  | _ => o.rows * o.cols

/-- What the sizing pass counts for an op: bytes staged, bytes of output. -/
def need (o : SeqOp) : Nat × Nat :=
  match o.kind with
  | .mmI8 => (o.rows * o.depth, o.rows * o.cols * 4)
  | .siluI16 => (o.rows * o.cols * 2, o.rows * o.cols * 2)
  | .siluI8 => (o.rows * o.cols, o.rows * o.cols)
  | _ => (2 * o.rows * o.cols, o.rows * o.cols)

end SeqOp

/-! ### Programs -/

/-- How a program lays out its output: row by row, or in surfaces of 16 bytes for each row. -/
inductive Place
  | rows (stride : Nat)
  | surfaces (stride : Nat)

/-- The byte where element `(m, n)` of `esz` bytes starts. -/
def Place.at (esz m n : Nat) : Place → Nat
  | .rows stride => (m * stride + n) * esz
  | .surfaces stride => n / (16 / esz) * stride + m * 16 + n % (16 / esz) * esz

/-- `orki_set_mul_geom`: the stride of the output surfaces. -/
def orkiSetMulGeom (M : Nat) : Place := .surfaces (M * 16)

/-- What the handle records of the output of an op; `dst` is a host address, 0 for none. -/
structure SeqSlot where
  oM : Nat
  nout : Nat
  oesz8 : Nat
  ooff : Nat
  dst : Nat

/-- A program: its op, its core and number there, where its input is staged, its output, and the number and kind of the
program it links to. -/
structure SeqProg where
  gi : Nat
  core : Nat
  pp : Nat
  aoff : Nat
  slot : SeqSlot
  place : Place
  next : Option (Nat × SeqKind)

/-- `orki_seq_build_op`, with the staging and output offsets after it. -/
def orkiSeqBuildOp (o : SeqOp) (gi core astage coff pp : Nat) (next : Option (Nat × SeqKind)) : SeqProg × Nat × Nat :=
  let M := o.rows
  let N := o.cols
  match o.kind with
  | .mmI8 =>
    (⟨gi, core, pp, astage, ⟨M, M * N, 4, coff, o.C⟩, .rows (orkiI8Synth M o.depth N 0 0 0 0).stride, next⟩,
      astage + M * o.depth, coff + M * N * 4)
  | .siluI16 =>
    (⟨gi, core, pp, astage, ⟨M, M * N, 2, coff, o.C⟩, orkiSetMulGeom M, next⟩, astage + M * N * 2, coff + M * N * 2)
  | .siluI8 =>
    (⟨gi, core, pp, astage, ⟨M, M * N, 1, coff, o.C⟩, orkiSetMulGeom M, next⟩, astage + M * N, coff + M * N)
  | _ =>
    (⟨gi, core, pp, astage, ⟨M, M * N, 1, coff, o.C⟩, orkiSetMulGeom M, next⟩, astage + 2 * M * N, coff + M * N)

/-! ### Cores -/

section

variable (ops : Nat → SeqOp) (ngroups : Nat) (gstart : Nat → Nat)

/-- The core with the least load so far, the first of them. -/
def leastLoaded (nc : Nat) (load : Nat → Nat) : Nat :=
  (List.range nc).foldl (fun best i => if load i < load best then i else best) 0

/-- The ops of group `g`. -/
def groupOps (g : Nat) : List Nat := List.range' (gstart g) (gstart (g + 1) - gstart g)

/-- The cores of the groups, and the loads of the cores. -/
def assignGroups (nc : Nat) : (Nat → Nat) × (Nat → Nat) :=
  (List.range ngroups).foldl (fun (s : (Nat → Nat) × (Nat → Nat)) g =>
    let best := leastLoaded nc s.2
    (Function.update s.1 g best,
      Function.update s.2 best (s.2 best + ((groupOps gstart g).map fun p => (ops p).cost).sum))) (fun _ => 0, fun _ => 0)

variable (coreOf : Nat → Nat)

/-- The groups of a core, in list order. -/
def coreGroups (i : Nat) : List Nat := (List.range ngroups).filter fun g => coreOf g = i

/-- The ops of a core with their groups, in the order they are built. -/
def coreOps (i : Nat) : List (Nat × Nat) :=
  (coreGroups ngroups coreOf i).flatMap fun g => (groupOps gstart g).map fun p => (g, p)

/-- The sizing pass: programs and staged bytes of core `i`. -/
def coreNeed (i : Nat) : Nat × Nat :=
  ((coreOps ngroups gstart coreOf i).length, ((coreOps ngroups gstart coreOf i).map fun x => (ops x.2).need.1).sum)

/-- The sizing pass: bytes of output of all ops. -/
def outNeed : Nat :=
  ((List.range ngroups).map fun g => ((groupOps gstart g).map fun p => (ops p).need.2).sum).sum

/-- The kind of the op after `p` on the same core: of the next op of its group, or the first of the core's next group. -/
def nextKind (i g p : Nat) : SeqKind :=
  if p + 1 < gstart (g + 1) then (ops (p + 1)).kind
  else ((((List.range ngroups).filter fun g' => g < g').find? fun g' => coreOf g' = i).map
    fun g' => (ops (gstart g')).kind).getD .mmI8

/-- The programs of a core, from the output offset it starts at, and where it ends. -/
def buildCore (i : Nat) : List (Nat × Nat) → Nat → Nat → Nat → List SeqProg × Nat
  | [], _, _, coff => ([], coff)
  | (g, p) :: rest, pp, astage, coff =>
    let next := if pp + 1 < (coreNeed ops ngroups gstart coreOf i).1 then
      some (pp + 1, nextKind ops ngroups gstart coreOf i g p) else none
    let x := orkiSeqBuildOp (ops p) p i astage coff pp next
    let r := buildCore i rest (pp + 1) x.2.1 x.2.2
    (x.1 :: r.1, r.2)

/-- The programs of all cores. -/
def buildCores : List Nat → Nat → List SeqProg × Nat
  | [], coff => ([], coff)
  | i :: is, coff =>
    let r := buildCore ops ngroups gstart coreOf i (coreOps ngroups gstart coreOf i) 0 0 coff
    let t := buildCores is r.2
    (r.1 ++ t.1, t.2)

end

/-! ### Begin -/

/-- The handle, as `ork_dyn_seq_end` reads it, with the programs it was built for. -/
structure SeqChain where
  S : Nat
  nc : Nat
  progs : List SeqProg
  slot : Nat → SeqSlot
  outNeed : Nat
  /-- The size asked of `orki_bcreate`. -/
  outSize : Nat

/-- The chain of core `i`. -/
def SeqChain.chain (h : SeqChain) (i : Nat) : List SeqProg := h.progs.filter fun x => x.core = i

/-- What a chain finds: whether fused stages are on, whether the per-core buffers are there and how many programs each
holds, whether allocations are granted, and whether the activation table could be loaded. -/
structure SeqEnv where
  fuse : Bool
  ensured : Bool
  fits : Nat → Nat
  granted : Bool
  lut : Bool

/-- The curve of the first activation op, if all have it. -/
def siluStep (s : Option (SeqKind × ℚ × ℚ)) (o : SeqOp) : Option (Option (SeqKind × ℚ × ℚ)) :=
  if o.isSilu then
    match s with
    | none => some (some (o.kind, o.inScale, o.outScale))
    | some x => if x = (o.kind, o.inScale, o.outScale) then some s else none
  else some s

/-- The groups cut the ops up, and each ends with a matmul. -/
def groupsOk (n : Nat) (ops : Nat → SeqOp) (ngroups : Nat) (gstart : Nat → Nat) : Prop :=
  (gstart 0 = 0 ∧ gstart ngroups = n) ∧
    ∀ g < ngroups, gstart g < gstart (g + 1) ∧ (ops (gstart (g + 1) - 1)).kind = .mmI8

instance (n : Nat) (ops : Nat → SeqOp) (ngroups : Nat) (gstart : Nat → Nat) : Decidable (groupsOk n ops ngroups gstart) :=
  inferInstanceAs (Decidable (_ ∧ ∀ g < ngroups, _))

/-- The cores a chain is spread over. -/
def seqCores (cores ngroups : Nat) (nc : Int) (silu : Bool) : Nat :=
  let nc := if nc < 1 ∨ cores < nc then cores else nc.toNat
  let nc := if ngroups < nc then ngroups else nc
  if silu then 1 else nc

/-- `ork_i8_dyn_begin_seq_mc`; what the submits return does not matter to it. -/
def orkI8DynBeginSeqMc (c : OrkNpu) (v : SeqEnv) (n : Nat) (ops : Nat → SeqOp) (ngroups : Nat) (gstart : Nat → Nat)
    (nc : Int) : Option SeqChain :=
  if n < 1 ∨ 256 < n ∨ ngroups < 1 ∨ n < ngroups then none
  else if v.fuse = false then none
  else if ¬ groupsOk n ops ngroups gstart then none
  else
    match (List.range n).foldlM (fun d p => orkiSeqOpOk (ops p) d) none,
        (List.range n).foldlM (fun s p => siluStep s (ops p)) none with
    | some _, some silu =>
      let nc := seqCores c.soc.cores ngroups nc silu.isSome
      let coreOf := (assignGroups ops ngroups gstart nc).1
      let need := outNeed ops ngroups gstart
      if v.ensured ∧ v.granted ∧ (silu.isSome = true → v.lut = true) ∧
          ∀ i < nc, (coreNeed ops ngroups gstart coreOf i).1 ≤ v.fits i then
        let progs := (buildCores ops ngroups gstart coreOf (List.range nc) 0).1
        some ⟨n, nc, progs, progs.foldl (fun f x => Function.update f x.gi x.slot) fun _ => ⟨0, 0, 0, 0, 0⟩, need,
          if need < 4096 then 4096 else need⟩
      else none
    | _, _ => none

/-! ### End -/

/-- `ORK_SEQCUBE` -/
def orkSeqcube (m n MM : Nat) : Nat := n / 16 * (MM * 16) + m * 16 + n % 16

/-- `EWCUBEH` of an int16 element. -/
def ewcubeh (m n M : Nat) : Nat := n / 8 * (M * 16) + m * 16 + n % 8 * 2

variable {β : Type*}

/-- The copy of one op's output to its C: byte address and byte. -/
def seqCopy (s : SeqSlot) (out : Nat → β) : List (Nat × β) :=
  let M := s.oM
  let N := s.nout / if M ≠ 0 then M else 1
  if s.oesz8 = 4 then (List.range (M * N * 4)).map fun j => (s.dst + j, out (s.ooff + j))
  else if s.oesz8 = 2 then
    (List.range M).flatMap fun m => (List.range N).flatMap fun n => (List.range 2).map fun b =>
      (s.dst + ((m * N + n) * 2 + b), out (s.ooff + (ewcubeh m n M + b)))
  else
    (List.range M).flatMap fun m => (List.range N).map fun n => (s.dst + (m * N + n), out (s.ooff + orkSeqcube m n M))

/-- Host memory after the copies of the first `k` ops. -/
def seqCopied (h : SeqChain) (out mem : Nat → β) (k : Nat) : Nat → β :=
  (List.range k).foldl (fun mem i => if (h.slot i).dst = 0 then mem else stores mem (seqCopy (h.slot i) out)) mem

/-- `ork_dyn_seq_end`: `landed` is the verdict of its poll, `out` the scratch after it. -/
def orkDynSeqEnd (h : SeqChain) (landed : Bool) (out mem : Nat → β) : Int × (Nat → β) :=
  (if landed then 0 else -1, seqCopied h out mem h.S)

/-- The bytes a program writes, element `(m, n)` being `val m n`. -/
def SeqProg.outputs (x : SeqProg) (val : Nat → Nat → Nat → β) : List (Nat × β) :=
  (List.range x.slot.oM).flatMap fun m => (List.range (x.slot.nout / x.slot.oM)).flatMap fun n =>
    (List.range x.slot.oesz8).map fun b => (x.slot.ooff + (x.place.at x.slot.oesz8 m n + b), val m n b)

end OrkDriver.Core
