import OrkDriver.Core.DynBegin

/-!
The chains `orki_dyn_begin_mc_impl` (`npu/core/dyn.c`) builds on its cores: the sizing loops, and the loops that stage the
activations and write the programs.
-/

namespace OrkDriver.Core

open OrkDriver.Lib OrkDriver.Npu OrkDriver.Pack OrkDriver.Run

variable {R : Type*}

/-! ### Buffers -/

/-- Bytes of a program in the chain. -/
def regcmdBytes : Nat := 224 * 4

/-- `sizeof(struct rknpu_task)` -/
def rknpuTaskBytes : Nat := 40

/-- The buffers of a core, in bytes: chain, task array, staged activations, scratch. After a creation that failed there is
no scratch; `mccsz` is what the context has on record, which is never more than there is. -/
structure CoreBufs where
  mrc : Nat
  mtk : Nat
  maf : Nat
  mcc : Option Nat
  mccsz : Nat
  le : ∀ b ∈ mcc, mccsz ≤ b

/-- What the build finds: whether the per-core buffers are there and the handle is granted, which buffers are granted when
they have to grow, and the verdicts on the programs by core and number. -/
structure McEnv where
  ensured : Bool
  calloc : Bool
  bufs : Nat → CoreBufs
  mcc : Nat → Bool
  maf : Nat → Bool
  valid : Nat → Nat → Bool

/-- The size `orki_bcreate` gives a buffer. -/
def pageUp (n : Nat) : Nat := (n + 4095) / 4096 * 4096

/-- A buffer of at least `need` bytes: the one that is there, or a new one. -/
def grown (held need : Nat) (ok : Bool) : Option Nat :=
  if held < need then (if ok then some (pageUp need) else none) else some held

/-! ### Sizing -/

/-- Programs of an op. -/
def mcCount (w : OrkW R) (M : Nat) : Nat := if 4096 < w.K then w.Sk else if 64 < M then pieces M (orkiMtileCap w.K) else w.Sn

/-- K-slices whose partials an op keeps apart. -/
def mcSlices (w : OrkW R) : Nat := if 4096 < w.K then w.Sk else 1

/-- Bytes of output of an op. -/
def mcOutBytes (w : OrkW R) (M : Nat) : Nat := mcSlices w * M * w.N * 4

/-- Bytes of activations of an op. -/
def mcActBytes (w : OrkW R) (M : Nat) : Nat := M * w.K * if 4096 < w.K then 1 else esz w.dt

/-- Tasks `lo` to `hi`. -/
def tasksOf (lo hi : Nat) : List Nat := List.range' lo (hi - lo)

/-- A total over tasks `lo` to `hi`. -/
def mcTotal (tasks : Nat → DynTask R) (f : OrkW R → Nat → Nat) (lo hi : Nat) : Nat :=
  ((tasksOf lo hi).map fun p => f (tasks p).w (tasks p).M).sum

/-! ### Emission -/

/-- A program in the chain of a core: its task, what it computes, its number, the program it links to, where its
activations are staged, and where the output of its op starts. -/
structure McProg where
  gi : Nat
  e : Emit
  pp : Nat
  next : Option Nat
  aoff : Nat
  ooff : Nat

/-- What the loop over the tasks of a core carries. -/
structure McState where
  astage : Nat
  coff : Nat
  pp : Nat
  progs : List McProg

/-- A core: its number, how many programs it is to have, the bytes of its activation buffer and its scratch, and whether
the outputs are the C themselves. -/
structure McCtx where
  core : Nat
  Pcore : Nat
  AF : Nat
  CC : Option Nat
  direct : Bool

/-- `orki_validate_regcmd`: it refuses address 0, which is where a scratch that is not there starts. -/
def McCtx.refuses (x : McCtx) (v : McEnv) (pp ooff : Nat) (e : Emit) : Bool :=
  (!x.direct && x.CC.isNone && ooff + e.p.c * 4 == 0) || !v.valid x.core pp

/-- A program is checked, linked to the next of its core, and written. -/
def mcEmit (v : McEnv) (x : McCtx) (gi aoff ooff : Nat) (b : McState) (e : Emit) : Option McState :=
  if x.refuses v b.pp ooff e then none
  else
    some { b with
      pp := b.pp + 1
      progs := b.progs ++ [⟨gi, e, b.pp, if b.pp + 1 < x.Pcore then some (b.pp + 1) else none, aoff, ooff⟩] }

/-- The program of K-slice `ks`. -/
def ksplitEmit (c : OrkNpu) (w : OrkW R) (M ks : Nat) : Emit :=
  ⟨ks, 0, 0, ks, orkiI8Synth M (pieceLen w.K c.int8Ks ks) w.N 0 0 (ks * M * w.N) 0⟩

/-- One turn of the K-split: the rows of the slice are gathered behind what is staged. -/
def mcSlice (c : OrkNpu) (v : McEnv) (x : McCtx) (gi coff : Nat) (t : DynTask R) (b : McState) (ks : Nat) :
    Option McState :=
  let Kp := pieceLen t.w.K c.int8Ks ks
  if orkiMtileCap Kp < t.M then none
  else if x.AF < b.astage + t.M * Kp then none
  else mcEmit v x gi b.astage coff { b with astage := b.astage + t.M * Kp } (ksplitEmit c t.w t.M ks)

/-- The programs of an op that reads its activations as they are. -/
def mcPlain (v : McEnv) (x : McCtx) (gi : Nat) (t : DynTask R) (emits : List Emit) (b : McState) : Option McState :=
  let asz := t.M * t.w.K * esz t.w.dt
  if x.AF < b.astage + asz then none
  else emits.foldlM (mcEmit v x gi b.astage b.coff) { b with astage := b.astage + asz }

/-- One task. -/
def mcBuildOp (c : OrkNpu) (v : McEnv) (x : McCtx) (tasks : Nat → DynTask R) (b : McState) (gi : Nat) : Option McState :=
  let t := tasks gi
  (if 4096 < t.w.K then (List.range t.w.Sk).foldlM (mcSlice c v x gi b.coff t) b
  else if 64 < t.M then mcPlain v x gi t (mtileOp t.w t.M).emits b
  else mcPlain v x gi t (nsliceOp c t.w t.M x.direct).emits b).map
    fun b' => { b' with coff := b.coff + mcOutBytes t.w t.M }

/-- The chain of a core, with the bytes of the buffers behind it. -/
structure McCore where
  progs : List McProg
  AF : Nat
  CC : Option Nat

/-- The loop body over the cores. -/
def mcCore (c : OrkNpu) (v : McEnv) (tasks : Nat → DynTask R) (direct : Bool) (CC : Option Nat) (i lo hi : Nat) :
    Option McCore :=
  let P := mcTotal tasks mcCount lo hi
  if (v.bufs i).mrc < P * regcmdBytes ∨ (v.bufs i).mtk < P * rknpuTaskBytes then none
  else
    (grown (v.bufs i).maf (mcTotal tasks mcActBytes lo hi) (v.maf i)).bind fun AF =>
      ((tasksOf lo hi).foldlM (mcBuildOp c v ⟨i, P, AF, CC, direct⟩ tasks) ⟨0, 0, 0, []⟩).map fun b => ⟨b.progs, AF, CC⟩

/-- The scratch of a core after the output sizing, none if it could not grow. -/
def mcScratch (v : McEnv) (tasks : Nat → DynTask R) (direct : Bool) (i lo hi : Nat) : Option (Option Nat) :=
  if direct then some (v.bufs i).mcc
  else if (v.bufs i).mccsz < mcTotal tasks mcOutBytes lo hi then
    if v.mcc i then some (some (pageUp (mcTotal tasks mcOutBytes lo hi))) else none
  else some (v.bufs i).mcc

/-- The chains of a dispatch. -/
structure McChains where
  n : Nat
  direct : Bool
  core : Nat → McCore

/-- `orki_dyn_begin_mc_impl`, where it does not route to the column split. -/
def orkiDynBeginMcChains (c : OrkNpu) (v : McEnv) (S : Nat) (tasks : Nat → DynTask R) (nc : Int) : Option McChains :=
  if S < 1 ∨ 1024 < S ∨ (tasks 0).w.dt = .i4 then none
  else if S = 1 ∧ 1 < mcCores c nc ∧ routesToColsplit (tasks 0).w = true then none
  else
    let n := if S < mcCores c nc then S else mcCores c nc
    let direct := directC S tasks
    if ¬ ((∀ i < S, mcAccepts c (tasks 0) (tasks i)) ∧ v.ensured ∧ v.calloc) then none
    else
      let core := fun i => (mcScratch v tasks direct i (coreTask S n i) (coreTask S n (i + 1))).bind fun CC =>
        mcCore c v tasks direct CC i (coreTask S n i) (coreTask S n (i + 1))
      if ∀ i < n, (core i).isSome then some ⟨n, direct, fun i => (core i).getD ⟨[], 0, none⟩⟩ else none

end OrkDriver.Core
