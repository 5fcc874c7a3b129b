import OrkDriver.Orkd.State

/-!
What the handlers ask of the driver: the calls with the buffers they pass, and what it takes for such a
call to stay inside those buffers.
-/

namespace OrkDriver.Orkd

/-- Everything a request meets outside the daemon's own tables: which of its allocations succeed, what the
driver answers, what it leaves in the output buffers, which descriptors came along. -/
structure Env where
  malloc : Nat → Bool
  npuOk : Bool
  rc : Int
  out : Stream
  fd0 : Bool
  fd1 : Bool
  dma0 : Bool
  dma1 : Bool
  werr : Bool
  ringOk : Bool
  warmHit : Bool
  checksum : UInt64

/-- The `k`-th allocation of a request, of `n` bytes; no allocation reaches 2^63 bytes. -/
def Env.alloc (env : Env) (k n : Nat) : Bool := env.malloc k && n < 2 ^ 63

/-- One matmul: the weight behind its pointer, the rows, the element sizes, and the bytes there are from
its A and its C pointer on (`none` where the pointer refers to no buffer). -/
structure MmTask where
  w : Option Weight
  M : Int
  esz : Nat
  csz : Nat
  A : Option Int
  C : Option Int

/-- `ork_chain_op`. -/
structure ChainOp where
  kind : Nat
  in0 : Int
  in1 : Int
  mult : UInt32
  shift : UInt32

/-- `ork_seq_op` as the daemon rebuilds it. -/
structure SeqOp where
  kind : UInt32
  w : Option Weight
  M : Int
  N : Int
  A : Option Int
  B : Option Int
  C : Int
  mult : UInt32
  shift : UInt32
  group : UInt32
  inScale : UInt64
  outScale : UInt64
  bScale : UInt64

inductive NpuCall
  | mmRun (t : MmTask)
  | runChain (ts : List MmTask)
  | runChainFfn (ts : List MmTask) (ops : List ChainOp) (inScale outScale : UInt64)
  | runChainFfnExpBiased (ts : List MmTask) (ops : List ChainOp) (inScale outScale maxBias : UInt64)
  | runChainsRrBiased (chains : List (List MmTask)) (ops : List ChainOp) (inScale outScale maxBias : UInt64)
  | mmLayer (ts : List MmTask)
  | submitSeq (ops : List SeqOp)
  | mmPack (dtype : OrkdDtype) (K N : Int) (bytes : Nat)
  | kvAppend (kv : Option KvResident) (wkt wv : Option Weight) (key : Int) (kcol vrow : Int)

/-- The matmul kinds of `SEQ_CLASS` with the element sizes of A and of C. -/
def seqMatmul (kind : UInt32) : Option (Nat × Nat) :=
  if kind = 0 then some (1, 4)          -- ORK_OP_MM_I8
  else if kind = 1 then some (2, 4)     -- ORK_OP_MM_F16
  else if kind = 2 then some (1, 4)     -- ORK_OP_MM_I4
  else if kind = 28 then some (1, 1)    -- ORK_OP_MATMUL_REQUANT_I8
  else if kind = 33 then some (2, 2)    -- ORK_OP_MM_F16_F16OUT
  else if kind = 34 then some (1, 2)    -- ORK_OP_MATMUL_I16OUT_I8
  else none

def SeqOp.task (o : SeqOp) (esz csz : Nat) : MmTask := ⟨o.w, o.M, esz, csz, o.A, some o.C⟩

/-- The shapes `ork_i8_mm_pack`, `ork_f16_mm_pack` and `ork_i4_mm_pack` take. -/
def packAccepts (dtype : OrkdDtype) (K N : Int) : Bool :=
  K % 32 = 0 && N % (match dtype with | .i8 => 32 | .f16 => 16 | .i4 => 64) = 0

/-- The weight exists, both buffers exist, and the rows fit: M*K elements are read, M*N are written. -/
def MmTask.InBounds (t : MmTask) : Prop :=
  ∃ w a c, t.w = some w ∧ t.A = some a ∧ t.C = some c ∧ 0 ≤ t.M ∧ t.M * w.K * t.esz ≤ a ∧ t.M * w.N * t.csz ≤ c

/-- Operands exist; a matmul kind also fits. -/
def SeqOp.InBounds (o : SeqOp) : Prop :=
  o.A.isSome ∧ o.B.isSome ∧ ∀ esz csz, seqMatmul o.kind = some (esz, csz) → (o.task esz csz).InBounds

def NpuCall.InBounds : NpuCall → Prop
  | mmRun t => t.InBounds
  | runChain ts => ∀ t ∈ ts, t.InBounds
  | runChainFfn ts _ _ _ => ∀ t ∈ ts, t.InBounds
  | runChainFfnExpBiased ts _ _ _ _ => ∀ t ∈ ts, t.InBounds
  | runChainsRrBiased chains _ _ _ _ => ∀ ts ∈ chains, ∀ t ∈ ts, t.InBounds
  | mmLayer ts => ∀ t ∈ ts, t.InBounds
  | submitSeq ops => ∀ o ∈ ops, o.InBounds
  | mmPack dtype K N bytes => packAccepts dtype K N → K * N * dtype.esz ≤ bytes
  | kvAppend kv wkt wv key kcol vrow =>
    ∃ o, kv = some o ∧ (0 ≤ key → key < o.Lmax → wkt.isSome ∧ wv.isSome ∧ o.HD ≤ kcol ∧ o.HD ≤ vrow)

end OrkDriver.Orkd
