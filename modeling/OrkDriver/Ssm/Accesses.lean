import OrkDriver.Lib.Cut
import OrkDriver.Lib.Transition

/-!
The scratch of the state-space scan (`npu/ssm.c`): what the pool allocates and what the loop nests of the three schedules
touch in it. What is computed is left out; the caller's arrays are not part of the pool.
-/

namespace OrkDriver.Ssm

/-- The scratch weights of a pool. -/
inductive ScratchW
  | pS | pD | pC | pO | pSi8
  deriving DecidableEq, Repr

/-- The allocations of a pool; `w p` is the array of pointers to the weights of `p`. -/
inductive Buf
  | w (p : ScratchW)
  | aS | bS | G | aD | bD | Yd | aC | bC | cs | aO | bO | tmp
  | Acs | xbar | state | stp | Acl | Aclp | tk
  | ai8 | ci32 | ascale | bscale | f32t | tki8
  deriving DecidableEq, Repr

/-- The size of an element. -/
def Buf.elem : Buf → Nat
  | .w _ => 8
  | .aS | .bS | .aD | .bD | .aC | .bC | .aO | .bO => 2
  | .G | .Yd | .cs | .tmp | .state | .stp => 4
  | .Acs | .xbar | .Acl | .Aclp => 8
  | .tk => 32
  | .tki8 => 40
  | .ai8 => 1
  | .ci32 | .ascale | .bscale | .f32t => 4

/-- The key of a pool: `ssm_nc`, `ssm_nr`, `ssm_nh`, `ssm_csz`, `ssm_nb`. -/
structure Shape where
  nc : Nat
  nr : Nat
  nh : Nat
  csz : Nat
  nb : Nat
  deriving DecidableEq, Repr

/-- `NS` of `ssm_pool_ensure`. -/
def Shape.slots (z : Shape) : Nat := z.nh * z.nb

/-- `K` and `N` of the scratch weights. -/
def Shape.dims (z : Shape) : ScratchW → Nat × Nat
  | .pS => (z.nc, z.csz)
  | .pD => (z.csz, z.nr)
  | .pC => (z.csz, z.nc)
  | .pO => (z.nc, z.nr)
  | .pSi8 => (z.nc, z.csz)

/-- The sizes `ssm_pool_ensure` asks for; `i8` says that a stage is int8-selected. -/
def Shape.bytes (z : Shape) (i8 : Bool) : Buf → Nat
  | .w .pSi8 => if i8 then z.nh * 8 else 0
  | .w _ => z.slots * 8
  | .aS => z.slots * z.csz * z.nc * 2
  | .bS => z.slots * z.nc * z.csz * 2
  | .G => z.slots * z.csz * z.csz * 4
  | .aD => z.slots * z.csz * z.csz * 2
  | .bD => z.slots * z.csz * z.nr * 2
  | .Yd => z.slots * z.csz * z.nr * 4
  | .aC => z.slots * z.nr * z.csz * 2
  | .bC => z.slots * z.csz * z.nc * 2
  | .cs => z.slots * z.nr * z.nc * 4
  | .aO => z.slots * z.csz * z.nc * 2
  | .bO => z.slots * z.nc * z.nr * 2
  | .tmp => z.slots * z.csz * z.nr * 4
  | .Acs => z.slots * z.csz * 8
  | .xbar => z.slots * z.csz * z.nr * 8
  | .state => z.nh * z.nr * z.nc * 4
  | .stp => z.slots * z.nr * z.nc * 4
  | .Acl => z.slots * 8
  | .Aclp => z.nh * 8
  | .tk => z.slots * 32
  | .ai8 => if i8 then z.nh * z.csz * z.nc else 0
  | .ci32 => if i8 then z.nh * z.csz * z.nc * 4 else 0
  | .ascale => if i8 then z.nh * z.csz * 4 else 0
  | .bscale => if i8 then z.nh * z.nc * 4 else 0
  | .f32t => if i8 then z.nc * z.csz * 4 else 0
  | .tki8 => if i8 then z.nh * 40 else 0

/-- The pool of a context: its key, the mask it was made for (`ssm_i8`), and what its allocations hold. -/
structure Pool where
  key : Shape
  i8 : Int
  bytes : Buf → Nat
  dims : ScratchW → Nat × Nat

/-- Bit 0 of a mask. -/
def gramI8 (mask : Int) : Bool := mask % 2 = 1

/-- A pool that `ssm_pool_ensure` has just made. -/
def Pool.fresh (z : Shape) (mask : Int) : Pool := ⟨z, mask, z.bytes (gramI8 mask), z.dims⟩

/-! ### Accesses -/

/-- What a scan does to the pool. -/
inductive Act
  /-- an element is read or written -/
  | touch (b : Buf) (i : Nat)
  /-- the weight `p[h]` is repacked from a matrix of `K` rows and `N` columns; it may refuse -/
  | repack (p : ScratchW) (h K N : Nat)
  /-- an allocation or a run, which may fail -/
  | attempt
  deriving Repr

def Act.fallible : Act → Bool
  | .touch _ _ => false
  | .repack _ _ _ _ => true
  | .attempt => true

/-- The access stays inside what the pool has. -/
def Pool.InBounds (p : Pool) : Act → Prop
  | .touch b i => (i + 1) * b.elem ≤ p.bytes b
  | .repack w h K N => (h + 1) * (Buf.w w).elem ≤ p.bytes (.w w) ∧ p.dims w = (K, N)
  | .attempt => True

/-- The accesses made where operation `t` fails if `fails t`: those up to the first failure, and whether there was one. -/
def perform (fails : Nat → Bool) : Nat → List Act → List Act × Bool
  | _, [] => ([], false)
  | t, a :: as =>
    if a.fallible then
      if fails t then ([a], true)
      else (a :: (perform fails (t + 1) as).1, (perform fails (t + 1) as).2)
    else (a :: (perform fails t as).1, (perform fails t as).2)

/-- `for (i = 0; i < n; i++)`. -/
def loop (n : Nat) (body : Nat → List Act) : List Act := (List.range n).flatMap body

/-! ### The loop nests, for one slot `S` -/

/-- The decays, their sums and the scaled inputs. -/
def prep (z : Shape) (S : Nat) : List Act :=
  (loop z.csz fun l =>
    .touch .Acs (S * z.csz + l) :: loop z.nr fun i1 => [.touch .xbar ((S * z.csz + l) * z.nr + i1)])
  ++ [.touch .Acs (S * z.csz + z.csz - 1), .touch .Acl S]

/-- `aS`, `aO` and `bS`. -/
def gramOperands (z : Shape) (S : Nat) : List Act :=
  (loop z.csz fun l => loop z.nc fun n =>
    [.touch .aS ((S * z.csz + l) * z.nc + n), .touch .aO ((S * z.csz + l) * z.nc + n)])
  ++ loop z.nc fun n => loop z.csz fun sp => [.touch .bS ((S * z.nc + n) * z.csz + sp)]

/-- `aC` and `bD`, both from `xbar`. -/
def inputOperands (z : Shape) (S : Nat) : List Act :=
  (loop z.nr fun i1 => loop z.csz fun sp =>
    [.touch .xbar ((S * z.csz + sp) * z.nr + i1), .touch .aC ((S * z.nr + i1) * z.csz + sp)])
  ++ loop z.csz fun l => loop z.nr fun i1 =>
    [.touch .xbar ((S * z.csz + l) * z.nr + i1), .touch .bD ((S * z.csz + l) * z.nr + i1)]

/-- `bO`, the transposed state, from `state` or `stp`. -/
def stateOperand (z : Shape) (src : Buf) (S : Nat) : List Act :=
  loop z.nc fun n => loop z.nr fun i1 =>
    [.touch src ((S * z.nr + i1) * z.nc + n), .touch .bO ((S * z.nc + n) * z.nr + i1)]

/-- `aD`, the masked gram matrix. -/
def maskOperand (z : Shape) (S : Nat) : List Act :=
  loop z.csz fun l => loop z.csz fun sp =>
    (if sp ≤ l then
      [.touch .G ((S * z.csz + l) * z.csz + sp), .touch .Acs (S * z.csz + l), .touch .Acs (S * z.csz + sp)]
    else [])
    ++ [.touch .aD ((S * z.csz + l) * z.csz + sp)]

/-- `bC`, the decayed `B`. -/
def decayOperand (z : Shape) (S : Nat) : List Act :=
  loop z.csz fun sp =>
    [.touch .Acs (S * z.csz + z.csz - 1), .touch .Acs (S * z.csz + sp)]
    ++ loop z.nc fun n => [.touch .bC ((S * z.csz + sp) * z.nc + n)]

/-- The rows of `y` that exist. -/
def post (z : Shape) (nt base S : Nat) : List Act :=
  loop z.csz fun l =>
    if nt ≤ base + l then []
    else .touch .Acs (S * z.csz + l) :: loop z.nr fun i1 =>
      [.touch .Yd ((S * z.csz + l) * z.nr + i1), .touch .tmp ((S * z.csz + l) * z.nr + i1)]

/-- `STG` and, over all the slots, `STGB`. A run that fails may have made all its accesses. -/
def stg (slots : Nat) (p : ScratchW) (M K N : Nat) (A B C : Buf) : List Act :=
  (loop slots fun h =>
    .repack p h K N :: (loop (K * N) fun i => [.touch B (h * K * N + i)]) ++ [.touch .tk h])
  ++ (loop slots fun h =>
    .touch .tk h :: (loop (M * K) fun i => [.touch A (h * M * K + i)])
    ++ loop (M * N) fun i => [.touch C (h * M * N + i)])
  ++ [.attempt]

/-- The stages of `pD` and `pC`. -/
def stgs (z : Shape) (slots : Nat) : List Act :=
  stg slots .pD z.csz z.csz z.nr .aD .bD .Yd ++ stg slots .pC z.nr z.csz z.nc .aC .bC .cs

/-- The runs of an int8 stage: one a head (`ORK_SSM_I8_PERHEAD`), or one for all. -/
def i8Runs (perhead : Bool) (nh M K N : Nat) : List Act :=
  let run := fun h => (loop (M * K) fun i => [.touch .ai8 (h * M * K + i)])
    ++ loop (M * N) fun i => [.touch .ci32 (h * M * N + i)]
  if perhead then loop nh fun h => run h ++ [.attempt]
  else (loop nh fun h => .touch .tki8 h :: run h) ++ [.attempt]

/-- `ssm_stg_i8`. -/
def ssmStgI8 (perhead : Bool) (p : ScratchW) (M K N : Nat) (Aop Bop Cop : Buf) (nh : Nat) : List Act :=
  .attempt :: (loop nh fun h =>
    (loop N fun n => (loop K fun k => [.touch Bop (h * K * N + (k * N + n))]) ++ [.touch .bscale (h * N + n)])
    ++ (loop K fun k => loop N fun n => [.touch Bop (h * K * N + (k * N + n)), .touch .bscale (h * N + n)])
    ++ .repack p h K N :: (loop M fun m =>
      (loop K fun k => [.touch Aop (h * M * K + (m * K + k))]) ++ .touch .ascale (h * M + m)
      :: loop K fun k => [.touch Aop (h * M * K + (m * K + k)), .touch .ai8 (h * M * K + (m * K + k))])
    ++ [.touch .tki8 h])
  ++ i8Runs perhead nh M K N
  ++ loop nh fun h => loop M fun m => loop N fun n =>
    [.touch .ci32 (h * M * N + (m * N + n)), .touch .ascale (h * M + m), .touch .bscale (h * N + n),
      .touch Cop (h * M * N + (m * N + n))]

/-! ### The schedules -/

/-- `nb > 1`: the stages over all `NC` chunks at once. Slot `cc * nh + h`. -/
def batched (z : Shape) (NC nt : Nat) : List Act :=
  (loop NC fun cc =>
    (loop z.nh fun h => prep z (cc * z.nh + h))
    ++ loop z.nh fun h => gramOperands z (cc * z.nh + h) ++ inputOperands z (cc * z.nh + h))
  ++ stg (z.nh * NC) .pS z.csz z.nc z.csz .aS .bS .G
  ++ (loop NC fun cc => loop z.nh fun h => maskOperand z (cc * z.nh + h) ++ decayOperand z (cc * z.nh + h))
  ++ stgs z (z.nh * NC)
  ++ (loop z.nh fun h => loop (z.nr * z.nc) fun i => [.touch .stp (h * z.nr * z.nc + i)])
  ++ (loop (NC - 1) fun c => loop z.nh fun h =>
    -- the chunks from 1 on, each from the one before it
    .touch .Acl (c * z.nh + h) :: loop (z.nr * z.nc) fun i =>
      [.touch .stp ((c * z.nh + h) * z.nr * z.nc + i), .touch .cs ((c * z.nh + h) * z.nr * z.nc + i),
        .touch .stp (((c + 1) * z.nh + h) * z.nr * z.nc + i)])
  ++ (loop NC fun cc => loop z.nh fun h => stateOperand z .stp (cc * z.nh + h))
  ++ stg (z.nh * NC) .pO z.csz z.nc z.nr .aO .bO .tmp
  ++ (loop NC fun cc => loop z.nh fun h => post z nt (cc * z.csz) (cc * z.nh + h))
  ++ loop z.nh fun h =>
    .touch .Acl ((NC - 1) * z.nh + h) :: loop (z.nr * z.nc) fun i =>
      [.touch .stp (((NC - 1) * z.nh + h) * z.nr * z.nc + i), .touch .cs (((NC - 1) * z.nh + h) * z.nr * z.nc + i)]

/-- The start of a sequence where the chunks go one by one. -/
def startSeq (z : Shape) : List Act :=
  (loop (z.nh * z.nr * z.nc) fun i => [.touch .state i])
  ++ (loop (z.nh * z.nr * z.nc) fun i => [.touch .stp i])
  ++ loop z.nh fun h => [.touch .Aclp h]

/-- `state` and `stp` with the decay of the chunk before: the carry, and `s_new`. -/
def carry (z : Shape) : List Act :=
  loop z.nh fun h => .touch .Aclp h :: loop (z.nr * z.nc) fun i =>
    [.touch .state (h * z.nr * z.nc + i), .touch .stp (h * z.nr * z.nc + i)]

/-- The prologue of a chunk. -/
def startChunk (z : Shape) (cc : Nat) : List Act :=
  (loop z.nh fun h => prep z h) ++ if 0 < cc then carry z else []

/-- The end of a chunk: the last three stages, the rows of `y`, and the copies for the next chunk. -/
def endChunk (z : Shape) (nt cc : Nat) : List Act :=
  stgs z z.nh ++ stg z.nh .pO z.csz z.nc z.nr .aO .bO .tmp
  ++ (loop z.nh fun h => post z nt (cc * z.csz) h)
  ++ (loop (z.nh * z.nr * z.nc) fun i => [.touch .stp i, .touch .cs i])
  ++ loop z.nh fun h => [.touch .Aclp h, .touch .Acl h]

/-- `ssm_marshal_gi`. -/
def ssmMarshalGi (z : Shape) : List Act :=
  loop z.nh fun h => inputOperands z h ++ stateOperand z .state h ++ decayOperand z h

/-- `ork_ssm_pipeline()`: the helper's operands are built while the first stage runs. -/
def pipelined (z : Shape) (NC nt : Nat) : List Act :=
  startSeq z
  ++ (loop NC fun cc =>
    startChunk z cc
    ++ (loop z.nh fun h => gramOperands z h)
    ++ ssmMarshalGi z
    ++ stg z.nh .pS z.csz z.nc z.csz .aS .bS .G
    ++ (loop z.nh fun h => maskOperand z h)
    ++ endChunk z nt cc)
  ++ carry z

/-- The serial schedule; `i8` says that the first stage is int8. -/
def serial (z : Shape) (i8 perhead : Bool) (NC nt : Nat) : List Act :=
  startSeq z
  ++ (loop NC fun cc =>
    startChunk z cc
    ++ (loop z.nh fun h => gramOperands z h ++ inputOperands z h ++ stateOperand z .state h)
    ++ (if i8 then ssmStgI8 perhead .pSi8 z.csz z.nc z.csz .aS .bS .G z.nh
      else stg z.nh .pS z.csz z.nc z.csz .aS .bS .G)
    ++ (loop z.nh fun h => maskOperand z h ++ decayOperand z h)
    ++ endChunk z nt cc)
  ++ carry z

/-! ### The scan and the pool it keeps -/

/-- The environment, as `atoi` reads it. -/
structure Knobs where
  i8Mask : Option Int
  cs : Option Int
  batch : Option Int
  pipeline : Option Int
  perhead : Bool

def orkSsmI8Mask (k : Knobs) : Int := k.i8Mask.getD 0

def orkSsmBatch (k : Knobs) : Int := k.batch.getD 0

def orkSsmPipeline (k : Knobs) : Int := k.pipeline.getD 0

def orkSsmCs (k : Knobs) : Nat :=
  let v := k.cs.getD 128
  if v < 16 ∨ 256 < v ∨ v % 16 ≠ 0 then 128 else v.toNat

/-- The numbers a scan is called with. -/
structure ScanArgs where
  nc : Int
  nr : Int
  nh : Int
  ng : Int
  nt : Int
  ns : Int

/-- The call gets past the checks of its arguments. -/
def ScanArgs.Accepted (a : ScanArgs) : Prop :=
  (1 ≤ a.nc ∧ 1 ≤ a.nr ∧ 1 ≤ a.nh ∧ 1 ≤ a.ng ∧ 1 ≤ a.nt ∧ 1 ≤ a.ns) ∧
    32 ∣ a.nc ∧ 16 ∣ a.nr ∧ a.ng ∣ a.nh

instance (a : ScanArgs) : Decidable a.Accepted := inferInstanceAs (Decidable (_ ∧ _))

/-- `NC`. -/
def chunks (k : Knobs) (a : ScanArgs) : Nat := (a.nt.toNat + orkSsmCs k - 1) / orkSsmCs k

/-- The key a scan asks for. -/
def scanShape (k : Knobs) (a : ScanArgs) : Shape where
  nc := a.nc.toNat
  nr := a.nr.toNat
  nh := a.nh.toNat
  csz := orkSsmCs k
  nb := if orkSsmBatch k ≠ 0 ∧ 1 < chunks k a ∧ gramI8 (orkSsmI8Mask k) = false then chunks k a else 1

/-- `ssm_pool_ensure`; `alloc` says whether the checked allocations succeed. -/
def ssmPoolEnsure (k : Knobs) (z : Shape) (alloc : Bool) (c : Option Pool) : Option Pool :=
  match c with
  | some p => if p.key = z then some p else if alloc then some (.fresh z (orkSsmI8Mask k)) else none
  | none => if alloc then some (.fresh z (orkSsmI8Mask k)) else none

/-- What an accepted scan does to its pool. -/
def scanActs (k : Knobs) (p : Pool) (a : ScanArgs) : List Act :=
  let z := scanShape k a
  let NC := chunks k a
  let nt := a.nt.toNat
  loop a.ns.toNat fun _ =>
    if 1 < z.nb then batched z NC nt
    else if orkSsmPipeline k ≠ 0 then pipelined z NC nt
    else serial z (gramI8 p.i8) k.perhead NC nt

/-- `ork_ssm_scan_f32`: what it returns and the pool it leaves. -/
def orkSsmScanF32 (k : Knobs) (a : ScanArgs) (alloc : Bool) (fails : Nat → Bool) (c : Option Pool) :
    Int × Option Pool :=
  if ¬ a.Accepted then (-2, c)
  else match ssmPoolEnsure k (scanShape k a) alloc c with
    | none => (-1, none)
    | some p => if (perform fails 0 (scanActs k p a)).2 then (-1, none) else (0, some p)

/-- What happens to the pool of a context. -/
inductive Event
  | scan (a : ScanArgs) (alloc : Bool) (fails : Nat → Bool)
  /-- `orki_ssm_pool_free`, at teardown -/
  | free

def next (k : Knobs) (c : Option Pool) : Event → Option Pool
  | .scan a alloc fails => (orkSsmScanF32 k a alloc fails c).2
  | .free => none

/-- A context, from its creation on. -/
def system (k : Knobs) : Transition.System (Option Pool) Event :=
  .ofNext (fun c => c = none) (fun _ _ => True) (next k)

/-- However its operations go, the scan stays inside the pool it gets. -/
def StaysInside (k : Knobs) (a : ScanArgs) (c : Option Pool) : Prop :=
  ∀ alloc p, ssmPoolEnsure k (scanShape k a) alloc c = some p →
    ∀ fails, ∀ x ∈ (perform fails 0 (scanActs k p a)).1, p.InBounds x

end OrkDriver.Ssm
