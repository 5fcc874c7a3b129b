import OrkDriver.Core.Layout
import OrkDriver.I4.ChainGeometry

/-!
The doorbell handles (`npu/core/dyn.c`, `npu/i4/chain.c`): what the programs of each op write, and what the handle tells
`ork_dyn_end` about it.
-/

namespace OrkDriver.Core

open OrkDriver.Lib OrkDriver.Npu OrkDriver.Pack OrkDriver.Run OrkDriver.I4

variable {R : Type*}

/-- What one program writes: K-slice `ks` of a block of the product, element `(m, n)` into `cell m n`. -/
structure Output where
  ks : Nat
  m0 : Nat
  rows : Nat
  n0 : Nat
  cols : Nat
  cell : Nat → Nat → Nat

/-- The program computes K-slice `ks` of element `(m, n)`. -/
def Output.Covers (ks m n : Nat) (o : Output) : Prop :=
  o.ks = ks ∧ (o.m0 ≤ m ∧ m < o.m0 + o.rows) ∧ o.n0 ≤ n ∧ n < o.n0 + o.cols

def Emit.output (e : Emit) : Output := ⟨e.ks, e.m0, e.p.mc, e.n0, e.p.Nc, fun m n => e.cell m n⟩

/-- An op of the handle: the C it is for, what its programs write, and how it is copied back; `tiles` is the de-tile of a
batched int4 op. -/
structure DynEntry where
  arr : Nat
  outs : List Output
  op : DynOp
  tiles : List Move

/-- The C of a task: rows, columns, row stride, and how many partials are summed. -/
structure Target where
  M : Nat
  N : Nat
  stride : Nat
  slices : Nat
  deriving DecidableEq

/-- `ork_dyn_chain`, as `ork_dyn_end` reads it, with the C of each task. `direct` if the outputs are the C themselves. -/
structure DynChain where
  S : Nat
  entry : Nat → DynEntry
  geom : DynGeom
  mcNc : Nat
  mcDt : Dt
  probe : Bool
  direct : Bool
  i4batch : Bool
  prepolled : Bool
  targets : Nat
  target : Nat → Target

/-- `ork_mm_task_i8`, with the domains of its weight and of the DMA buffer its C lies in, none for host memory. The C of
a task is an array of its own; `cstride` 0 is its width. -/
structure DynTask (R : Type*) where
  w : OrkW R
  domain : Nat
  M : Nat
  A : Nat → R
  cdom : Option Nat
  cstride : Nat

/-! ### One core -/

/-- The op of a task of `ork_dyn_begin`: one program, into C itself. -/
def dynEntry (t : DynTask R) (i : Nat) : DynEntry :=
  ⟨i, [Emit.output ⟨0, 0, 0, 0, orkiI8Synth 1 t.w.K t.w.N 0 0 0 0⟩], ⟨0, 0, 0, 0, 0, false, none⟩, []⟩

/-- What `ork_dyn_begin` asks of a task. -/
def dynAccepts (t : DynTask R) : Prop :=
  (t.w.dt = .i8 ∧ t.M = 1 ∧ t.w.Sn = 1) ∧ (t.w.K % 512 = 0 ∧ t.w.K ≤ 4096) ∧ (t.w.Sk = 1 ∨ t.w.Bf.isSome) ∧
    t.cdom.isSome

instance (t : DynTask R) : Decidable (dynAccepts t) := inferInstanceAs (Decidable (_ ∧ _ ∧ _ ∧ _))

/-- `ork_dyn_begin`, if no buffer and no program is refused and the submit is accepted; the fields it does not set are
those of `calloc`. -/
def orkDynBegin (c : OrkNpu) (S : Nat) (tasks : Nat → DynTask R) : Option DynChain :=
  if S < 1 ∨ 1024 < S ∨ ∃ i < S, ¬ dynAccepts (tasks i) then none
  else
    some ⟨S, fun i => dynEntry (tasks i) i, ⟨c.soc.nmax, (tasks 0).w.N, 0, false⟩, 0, .f16, false, true, false, false, S,
      fun i => ⟨1, (tasks i).w.N, (tasks i).w.N, 1⟩⟩

/-! ### Several cores -/

/-- The K-split of an op: each K-slice one program, its partial in a block of its own. -/
def ksplitOp (c : OrkNpu) (w : OrkW R) (M : Nat) : CoreWork :=
  ⟨(List.range w.Sk).map fun ks =>
      ⟨ks, 0, 0, ks, orkiI8Synth M (pieceLen w.K c.int8Ks ks) w.N (M * (ks * c.int8Ks)) 0 (ks * M * w.N) 0⟩,
    w.Sk * M * w.N, M, w.Sk, 0, 0, false, some 0⟩

/-- A wide op: blocks of `orki_mtile_cap` rows. -/
def mtileOp (w : OrkW R) (M : Nat) : CoreWork :=
  let mcap := orkiMtileCap w.K
  ⟨(List.range (pieces M mcap)).map fun i =>
      ⟨0, i * mcap, 0, 0, orkiI8Synth (pieceLen M mcap i) w.K w.N (i * mcap * w.K) 0 (i * mcap * w.N) 0⟩,
    M * w.N, M, 0, 0, 0, false, some 0⟩

/-- `scat`: the N-slices of several rows lie block by block. -/
def scat (w : OrkW R) (M : Nat) : Bool := 1 < w.Sn ∧ 1 < M

/-- One program for each N-slice. -/
def nsliceOp (c : OrkNpu) (w : OrkW R) (M : Nat) (direct : Bool) : CoreWork :=
  ⟨(List.range w.Sn).map fun ns =>
      let n0 := ns * c.soc.nmax
      let Nc := pieceLen w.N c.soc.nmax ns
      ⟨0, 0, n0, ns,
        if w.dt = .f16 then orkiF16Synth M w.K Nc 0 0 n0
        else orkiI8Synth M w.K Nc 0 0 (if scat w M then M * n0 else n0) (if scat w M then 0 else if 1 < w.Sn then w.N else 0)⟩,
    M * w.N, M, 0, 0, 0, false, if direct then none else some 0⟩

/-- The build of a task of `ork_dyn_begin_mc`. -/
def mcOp (c : OrkNpu) (t : DynTask R) (direct : Bool) : CoreWork :=
  if 4096 < t.w.K then ksplitOp c t.w t.M
  else if 64 < t.M then mtileOp t.w t.M
  else nsliceOp c t.w t.M direct

/-- The schedule of an fp16 program. -/
def schedf (K : Nat) : Bool := K &&& (K - 1) = 0 ∧ 128 ≤ K

/-- What `ork_dyn_begin_mc` asks of a task, next to the first. -/
def mcAccepts (c : OrkNpu) (t0 t : DynTask R) : Prop :=
  (t.w.dt = t0.w.dt ∧ 1 ≤ t.M) ∧
  (64 < t.M → t.w.dt = .i8 ∧ t.w.Sn = 1 ∧ t.w.K ≤ 4096 ∧ t.w.Bf.isSome) ∧
  (t.w.Sn = 1 ∨ t.w.dt = .i8) ∧
  (if t.w.dt = .i8 then t.w.K % 512 = 0 else t.w.K % 32 = 0) ∧
  (4096 < t.w.K → t.w.dt = .i8 ∧ t.w.Sn = 1 ∧ ∀ ks < t.w.Sk, t.M ≤ orkiMtileCap (pieceLen t.w.K c.int8Ks ks)) ∧
  (t.w.dt = .f16 → orkiF16McOk t.w.K t.w.N (schedf t.w.K) t.M = true) ∧
  (t.w.Sk = 1 ∨ t.w.Bf.isSome ∨ 4096 < t.w.K) ∧ t.domain = t0.domain

instance (c : OrkNpu) (t0 t : DynTask R) : Decidable (mcAccepts c t0 t) :=
  inferInstanceAs (Decidable (_ ∧ _ ∧ _ ∧ _ ∧ _ ∧ _ ∧ _ ∧ _))

/-- First task of core `i`. -/
def coreTask (S nc i : Nat) : Nat := i * S / nc

/-- `nc`, as it arrives. -/
def mcCores (c : OrkNpu) (nc : Int) : Nat := if nc < 1 ∨ c.soc.cores < nc then c.soc.cores else nc.toNat

/-- Whether a single task is split by columns. -/
def routesToColsplit (w : OrkW R) : Bool := w.dt = .i8 ∧ 2 ≤ w.N / 32 ∧ (w.Sn = 1 ∨ w.K ≤ 4096 ∧ w.Bf.isSome)

/-- The handle of a column split: one op for each core, all for one C. -/
def Colsplit.chain (h : Colsplit) (w : OrkW R) (M cstride : Nat) (serial : Bool) : DynChain :=
  ⟨h.nc, fun i => ⟨0, (h.core i).emits.map Emit.output, (h.core i).op, []⟩, h.geom, h.nc, .i8, false, false, false,
    decide (1 < h.nc) && !serial, 1, fun _ => ⟨M, w.N, if wideK w ∧ cstride ≠ 0 then cstride else w.N,
      if wideK w then w.Sk else 1⟩⟩

/-- Whether every C is a buffer in the domain of the submit, for single rows without a K-split. -/
def directC (S : Nat) (tasks : Nat → DynTask R) : Bool :=
  decide (∀ i < S, (tasks i).cdom = some (tasks 0).domain ∧ (tasks i).M ≤ 1 ∧ (tasks i).w.K ≤ 4096)

/-- `ork_dyn_begin_mc` for int8 and fp16. -/
def orkiDynBeginMcImpl (c : OrkNpu) (v : ColsplitEnv R) (S : Nat) (tasks : Nat → DynTask R) (nc : Int) : Option DynChain :=
  if S < 1 ∨ 1024 < S ∨ (tasks 0).w.dt = .i4 then none
  else
    let t0 := tasks 0
    if S = 1 ∧ 1 < mcCores c nc ∧ routesToColsplit t0.w = true then
      (orkDynBeginColsplit c v (mcCores c nc) t0.w t0.M t0.cstride).map fun h => h.chain t0.w t0.M t0.cstride v.serial
    else
      let n := if S < mcCores c nc then S else mcCores c nc
      let op := fun p => mcOp c (tasks p) (directC S tasks)
      if (∀ i < S, mcAccepts c t0 (tasks i)) ∧ v.granted ∧ ∀ i < n,
          ((List.range (coreTask S n (i + 1))).map fun p =>
            if coreTask S n i ≤ p then (op p).emits.length else 0).sum ≤ v.fits i ∧
          ∀ p < coreTask S n (i + 1), coreTask S n i ≤ p → ∀ e ∈ (op p).emits, v.accepts i e.p = true then
        some ⟨S, fun p => ⟨p, (op p).emits.map Emit.output, (op p).op, []⟩, ⟨c.soc.nmax, t0.w.N, 0, false⟩, n, t0.w.dt,
          false, directC S tasks, false, false, S,
          fun p => ⟨(tasks p).M, (tasks p).w.N, (tasks p).w.N, if 4096 < (tasks p).w.K then (tasks p).w.Sk else 1⟩⟩
      else none

/-- `ORK_I4_KS`. -/
def orkI4Ks : Nat := 10752

/-- The op of an int4 row: one program for each N-slice and K-slice, the partials of a K-slice in a block of their own. -/
def mcEntry4 (c : OrkNpu) (t : Task4) (p : Nat) : DynEntry :=
  ⟨p, (List.range t.w.Sn).flatMap fun ns => (List.range t.w.Sk).map fun ks =>
      ⟨ks, 0, 1, ns * c.soc.nmax, pieceLen t.w.N c.soc.nmax ns, fun _ n => ks * t.w.N + n⟩,
    ⟨t.w.Sk * t.w.N, 1, t.w.Sk, 0, 0, false, some 0⟩, []⟩

/-- `ork_i4_dyn_begin_mc`; `fits` tells whether the chains of the cores fit their buffers. -/
def orkI4DynBeginMc (c : OrkNpu) (granted fits : Bool) (S : Nat) (tasks : Nat → Task4) (nc : Int) : Option DynChain :=
  if S < 1 ∨ 1024 < S then none
  else
    let n := if S < mcCores c nc then S else mcCores c nc
    if (∀ i < S, ((tasks i).w.dt = .i4 ∧ (tasks i).M = 1 ∧ (tasks i).w.Sk ≤ 16) ∧
        (tasks i).w.domain = (tasks 0).w.domain) ∧ granted ∧ fits then
      some ⟨S, fun p => mcEntry4 c (tasks p) p, ⟨c.soc.nmax, (tasks 0).w.N, 0, true⟩, n, .i4, false, false, false, false, S,
        fun p => ⟨1, (tasks p).w.N, (tasks p).w.N, (tasks p).w.Sk⟩⟩
    else none

/-- What a program of the batched chain writes. -/
def batchOutput (x : Emit4) : Output := ⟨0, x.m0, x.p.rows, x.n0, x.p.N, fun m n => x.cell m n⟩

/-- The handle of a batched int4 chain over one weight. -/
def batchChain (c : OrkNpu) (P : Plan) (M : Nat) (probe : Bool) : DynChain :=
  ⟨P.nc, fun i => ⟨0, (P.emits i).map batchOutput, ⟨P.outWords i, 1, 0, 0, 0, false, none⟩, P.detile i 0⟩,
    ⟨c.soc.nmax, P.G.N, 0, true⟩, P.nc, .i4, probe, false, true, false, 1, fun _ => ⟨M, P.G.N, P.G.N, 1⟩⟩

end OrkDriver.Core
