import OrkDriver.Core.McChain
import OrkDriver.F16Stream.Check

/-!
`ork_f16_mm_run_stream_chain` (`npu/f16/stream.c`): every core owns each `nc`-th task, stages them in slots of its two
buffers, chains their programs and issues one submit.
-/

namespace OrkDriver.F16Stream

open OrkDriver.Lib OrkDriver.Npu OrkDriver.Pack OrkDriver.Run OrkDriver.Core

variable {R : Type*}

/-- `ORK_MAXCORE` -/
def orkMaxcore : Nat := 4

/-- `nc`, from what `orki_budget` returns. -/
def streamCores (budget : Int) (S : Nat) : Nat :=
  let nc := if (orkMaxcore : Int) < budget then (orkMaxcore : Int) else budget
  let nc := if (S : Int) < nc then (S : Int) else nc
  if nc < 1 then 1 else nc.toNat

/-- What places the programs of a call: the cores it may use, and their buffers before it. -/
structure ChainLayout where
  budget : Int
  bufs : Nat → CoreBufs

/-- What a call finds: besides its layout the allocations that are granted, what the buffers hold, which cores are warm,
which of their submits the kernel accepts, and what is left by programs that run where they do not belong. -/
structure ChainCall (R : Type*) where
  layout : ChainLayout
  bfull : BfullEnv R
  ensured : Bool
  mrc : Nat → Bool
  mtk : Nat → Bool
  maf : Nat → Bool
  mcc : Nat → Bool
  mafCells : Nat → Nat → R
  mccCells : Nat → Nat → R
  warm : Nat → Bool
  submit : Nat → Nat → Bool
  stray : Nat → Nat → R

/-- The sizes and the domain of a task. -/
structure Shape where
  M : Nat
  K : Nat
  N : Nat
  domain : Nat
  deriving DecidableEq

def MmTaskF16.shape (t : MmTaskF16 R) : Shape := ⟨t.M, t.w.K, t.w.N, t.domain⟩

/-- A program of a chain: its core, its slot, the slot it links to, its task, and the domain it runs in. -/
structure ChainProg where
  core : Nat
  slot : Nat
  next : Option Nat
  task : Nat
  p : Program
  domain : Nat
  deriving DecidableEq

/-- `cnt`: the tasks of core `i`. -/
def owned (S nc i : Nat) : Nat := pieces (S - i) nc

/-- Program `p` of core `i`. -/
def chainProg (nc S : Nat) (t : Nat → Shape) (i p : Nat) : ChainProg :=
  let k := i + p * nc
  { core := i
    slot := p
    next := if p + 1 < owned S nc i then some (p + 1) else none
    task := k
    p := orkiF16Synth (t k).M (t k).K (t k).N (p * (t k).M * (t k).K) 0 (p * (t k).M * (t k).N)
    domain := (t i).domain }

/-- The programs of core `i`. -/
def coreProgs (nc S : Nat) (t : Nat → Shape) (i : Nat) : List ChainProg :=
  (List.range (owned S nc i)).map (chainProg nc S t i)

/-! ### Sizing -/

/-- `per` -/
def perCore (nc S : Nat) : Nat := pieces S nc

/-- `maxMK`, in bytes, from the first task. -/
def actNeed (nc S : Nat) (t : Nat → Shape) : Nat := perCore nc S * (t 0).M * (t 0).K * 2

/-- `maxMN4` -/
def outNeed (nc S : Nat) (t : Nat → Shape) : Nat := perCore nc S * (t 0).M * (t 0).N * 4

/-- The bytes of a core's activation buffer after the sizing, if what it asks for is granted. -/
def actBytes (b : CoreBufs) (need : Nat) : Nat := if b.maf < need then pageUp need else b.maf

/-- The bytes of its scratch. -/
def outBytes (b : CoreBufs) (need : Nat) : Option Nat := if b.mccsz < need then some (pageUp need) else b.mcc

/-- Every allocation the sizing of core `i` asks for is granted. -/
def ChainCall.sized (x : ChainCall R) (nc S : Nat) (t : Nat → Shape) (i : Nat) : Bool :=
  let b := x.layout.bufs i
  (decide (perCore nc S * regcmdBytes ≤ b.mrc) || x.mrc i) && (decide (perCore nc S * rknpuTaskBytes ≤ b.mtk) || x.mtk i) &&
    (decide (actNeed nc S t ≤ b.maf) || x.maf i) && (decide (outNeed nc S t ≤ b.mccsz) || x.mcc i)

/-! ### The worker -/

/-- `orki_f16_wdma`: the weight a program reads. -/
def orkiF16Wdma (w : F16W R) : Nat → R := w.Bfull.getD (w.Bb 0)

/-- The activation buffer of core `i` once its tasks are staged. -/
def staged (x : ChainCall R) (tasks : Nat → MmTaskF16 R) (i : Nat) (progs : List ChainProg) : Nat → R :=
  stores (x.mafCells i) (progs.flatMap fun q =>
    (List.range (q.p.mc * q.p.Kp)).map fun y => (q.p.a + y, (tasks q.task).A y))

/-- All operands of a program lie in the domain it runs in; `active` is that of the buffers. -/
def Mapped (active : Nat) (t : Nat → Shape) (q : ChainProg) : Prop := q.domain = active ∧ (t q.task).domain = active

instance (active : Nat) (t : Nat → Shape) (q : ChainProg) : Decidable (Mapped active t q) :=
  inferInstanceAs (Decidable (_ ∧ _))

/-- How often a core's chain is submitted. -/
def reps (warm : Bool) : Nat := if warm then 1 else 2

variable [NonUnitalNonAssocSemiring R]

/-- The scratch of core `i` after one run of its chain. -/
def runChain (x : ChainCall R) (active : Nat) (tasks : Nat → MmTaskF16 R) (i : Nat) (progs : List ChainProg) (m : Nat → R) :
    Nat → R :=
  if ∀ q ∈ progs, Mapped active (fun k => (tasks k).shape) q then
    progs.foldl (fun m q => q.p.run 16 (staged x tasks i progs) (orkiF16Wdma (tasks q.task).w) m) m
  else x.stray i

/-- The scratch of core `i` when its worker copies out of it. -/
def scratch (x : ChainCall R) (active : Nat) (tasks : Nat → MmTaskF16 R) (i : Nat) (progs : List ChainProg) : Nat → R :=
  (List.range (reps (x.warm i))).foldl (fun m rep => if x.submit i rep then runChain x active tasks i progs m else m)
    (x.mccCells i)

/-- The verdict of `stream_worker_f16ch`: that of the last submit. -/
def ChainCall.failed (x : ChainCall R) (i : Nat) : Bool := !x.submit i (reps (x.warm i) - 1)

/-- What a call issues: its programs, the tasks they are for, and where they go. -/
structure ChainBatch where
  S : Nat
  t : Nat → Shape
  progs : List ChainProg
  AF : Nat → Nat
  CC : Nat → Option Nat
  active : Nat

/-- The chains of a batch of `S` tasks. -/
def chainBatch (L : ChainLayout) (S : Nat) (t : Nat → Shape) : ChainBatch :=
  let nc := streamCores L.budget S
  { S, t
    progs := (List.range nc).flatMap (coreProgs nc S t)
    AF := fun i => actBytes (L.bufs i) (actNeed nc S t)
    CC := fun i => outBytes (L.bufs i) (outNeed nc S t)
    active := (t 0).domain }

/-- `ork_f16_mm_run_stream_chain` behind its entry: task `k` is number `k / nc` of core `k % nc`. -/
def streamChain (x : ChainCall R) (S : Nat) (tasks : Nat → MmTaskF16 R) (C : Nat → Nat → R) : Ran ChainBatch R :=
  let t := fun k => (tasks k).shape
  let nc := streamCores x.layout.budget S
  if x.ensured = false ∨ ∃ i < nc, x.sized nc S t i = false then ⟨-1, C, []⟩
  else
    { ret := if ∃ i < nc, x.failed i = true then -1 else 0
      C := fun k => if k < S then
          stores (C k) ((List.range ((t k).M * (t k).N)).map fun y =>
            (y, scratch x (t 0).domain tasks (k % nc) (coreProgs nc S t (k % nc)) (k / nc * (t k).M * (t k).N + y)))
        else C k
      issued := [chainBatch x.layout S t] }

/-- `ork_f16_mm_run_stream_chain` -/
def orkF16MmRunStreamChain : Runner (ChainCall R) ChainBatch R := ⟨0, ChainCall.bfull, streamChain⟩

end OrkDriver.F16Stream
