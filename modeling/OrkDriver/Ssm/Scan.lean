import Mathlib.Algebra.Group.AddChar
import OrkDriver.Lib.Assign
import OrkDriver.Lib.Dot
import OrkDriver.Ssm.Accesses

/-!
What the state-space scan computes (`ork_ssm_scan_f32`): the loop nests of the three schedules with the values they assign.
Numbers are elements of a ring, so that a cast to fp16 or to float is exact, and a stage multiplies exactly; `exp` is any
map that turns sums into products. What the int8 stage (bit 0 of `ORK_SSM_I8_MASK`) assigns is left open: it quantises.
-/

namespace OrkDriver.Ssm

open Lib Lib.Assign

/-- The arrays of a scan: the buffers of the pool, what its scratch weights have packed, and the two results. -/
inductive Arr
  | buf (b : Buf)
  | weight (p : ScratchW)
  | y
  | sNew
  deriving DecidableEq, Repr

/-- What all the arrays hold. -/
abbrev Mem (R : Type*) := Arr → Nat → R

abbrev Stmt (R : Type*) := Assign Arr R

/-- The arrays a scan is called with, and its mathematics; `stgI8` is what `ssm_stg_i8` does. -/
structure Inputs (R : Type*) [CommRing R] where
  stgI8 : List (Stmt R)
  exp : AddChar R R
  softplus : R → R
  s0 : Nat → R
  x : Nat → R
  dt : Nat → R
  A : Nat → R
  B : Nat → R
  C : Nat → R

/-- An accepted scan. -/
structure Scan (R : Type*) [CommRing R] extends Inputs R where
  z : Shape
  ng : Nat
  nt : Nat
  ns : Nat

namespace Scan

variable {R : Type*} [CommRing R] (q : Scan R)

/-! ### Reads of the caller's arrays; tokens from `nt` on are padding -/

def hpg : Nat := q.z.nh / q.ng

def dtv (seq h t : Nat) : R := if t < q.nt then q.softplus (q.dt ((seq * q.nt + t) * q.z.nh + h)) else 0

def xAt (seq h t i1 : Nat) : R :=
  if t < q.nt then q.dtv seq h t * q.x (((seq * q.nt + t) * q.z.nh + h) * q.z.nr + i1) else 0

def bAt (seq h t n : Nat) : R :=
  if t < q.nt then q.B (((seq * q.nt + t) * q.ng + h / q.hpg) * q.z.nc + n) else 0

def cAt (seq h t n : Nat) : R :=
  if t < q.nt then q.C (((seq * q.nt + t) * q.ng + h / q.hpg) * q.z.nc + n) else 0

/-- `run` after `l` steps of chunk `cc`. -/
def runSum (seq cc h : Nat) : Nat → R
  | 0 => 0
  | l + 1 => runSum seq cc h l + q.dtv seq h (cc * q.z.csz + l) * q.A h

/-! ### The loop nests, for head `h` of chunk `cc` in slot `S` -/

def prep (seq cc h S : Nat) : List (Stmt R) :=
  (times q.z.csz fun l =>
    .set (.buf .Acs) (S * q.z.csz + l) (fun _ => q.runSum seq cc h (l + 1))
    :: times q.z.nr fun i1 =>
      [.set (.buf .xbar) ((S * q.z.csz + l) * q.z.nr + i1) fun _ => q.xAt seq h (cc * q.z.csz + l) i1])
  ++ [.set (.buf .Acl) S fun m => m (.buf .Acs) (S * q.z.csz + q.z.csz - 1)]

def gramOperands (seq cc h S : Nat) : List (Stmt R) :=
  fill S q.z.csz q.z.nc
    [(.buf .aS, fun l n _ => q.cAt seq h (cc * q.z.csz + l) n), (.buf .aO, fun l n _ => q.cAt seq h (cc * q.z.csz + l) n)]
  ++ fill S q.z.nc q.z.csz [(.buf .bS, fun n sp _ => q.bAt seq h (cc * q.z.csz + sp) n)]

def inputOperands (S : Nat) : List (Stmt R) :=
  fill S q.z.nr q.z.csz [(.buf .aC, fun i1 sp m => m (.buf .xbar) ((S * q.z.csz + sp) * q.z.nr + i1))]
  ++ fill S q.z.csz q.z.nr [(.buf .bD, fun l i1 m => m (.buf .xbar) ((S * q.z.csz + l) * q.z.nr + i1))]

def stateOperand (src : Buf) (S : Nat) : List (Stmt R) :=
  fill S q.z.nc q.z.nr [(.buf .bO, fun n i1 m => m (.buf src) ((S * q.z.nr + i1) * q.z.nc + n))]

def maskOperand (S : Nat) : List (Stmt R) :=
  fill S q.z.csz q.z.csz [(.buf .aD, fun l sp m =>
    if sp ≤ l then
      m (.buf .G) ((S * q.z.csz + l) * q.z.csz + sp)
        * q.exp (m (.buf .Acs) (S * q.z.csz + l) - m (.buf .Acs) (S * q.z.csz + sp))
    else 0)]

def decayOperand (seq cc h S : Nat) : List (Stmt R) :=
  fill S q.z.csz q.z.nc [(.buf .bC, fun sp n m =>
    let ds := q.exp (m (.buf .Acs) (S * q.z.csz + q.z.csz - 1) - m (.buf .Acs) (S * q.z.csz + sp))
    if cc * q.z.csz + sp < q.nt then
      ds * q.B (((seq * q.nt + (cc * q.z.csz + sp)) * q.ng + h / q.hpg) * q.z.nc + n)
    else 0)]

def post (seq cc h S : Nat) : List (Stmt R) :=
  times q.z.csz fun l =>
    if q.nt ≤ cc * q.z.csz + l then []
    else times q.z.nr fun i1 =>
      [.set .y (((seq * q.nt + (cc * q.z.csz + l)) * q.z.nh + h) * q.z.nr + i1) fun m =>
        m (.buf .Yd) ((S * q.z.csz + l) * q.z.nr + i1)
          + m (.buf .tmp) ((S * q.z.csz + l) * q.z.nr + i1) * q.exp (m (.buf .Acs) (S * q.z.csz + l))]

/-- `STG` and, over all the slots, `STGB`: the weights are packed, then the products run. -/
def stg (slots : Nat) (p : ScratchW) (M K N : Nat) (Aop Bop Cop : Buf) : List (Stmt R) :=
  (times slots fun h =>
    .attempt :: times (K * N) fun i => [.set (.weight p) (h * K * N + i) fun m => m (.buf Bop) (h * K * N + i)])
  ++ .attempt :: times slots fun h => times M fun r => times N fun n =>
    [.set (.buf Cop) (h * M * N + (r * N + n)) fun m =>
      matmul (fun i => m (.buf Aop) (h * M * K + i)) (fun i => m (.weight p) (h * K * N + i)) K N r n]

/-! ### The schedules, for sequence `seq` -/

/-- `NC`. -/
def chunks : Nat := (q.nt + q.z.csz - 1) / q.z.csz

def stgs (slots : Nat) : List (Stmt R) :=
  stg slots .pD q.z.csz q.z.csz q.z.nr .aD .bD .Yd ++ stg slots .pC q.z.nr q.z.csz q.z.nc .aC .bC .cs

def batched (seq : Nat) : List (Stmt R) :=
  (times q.chunks fun cc =>
    (times q.z.nh fun h => q.prep seq cc h (cc * q.z.nh + h))
    ++ times q.z.nh fun h => q.gramOperands seq cc h (cc * q.z.nh + h) ++ q.inputOperands (cc * q.z.nh + h))
  ++ stg (q.z.nh * q.chunks) .pS q.z.csz q.z.nc q.z.csz .aS .bS .G
  ++ (times q.chunks fun cc => times q.z.nh fun h =>
    q.maskOperand (cc * q.z.nh + h) ++ q.decayOperand seq cc h (cc * q.z.nh + h))
  ++ q.stgs (q.z.nh * q.chunks)
  ++ (times q.z.nh fun h => times (q.z.nr * q.z.nc) fun i =>
    [.set (.buf .stp) (h * q.z.nr * q.z.nc + i) fun _ =>
      q.s0 (seq * q.z.nh * q.z.nr * q.z.nc + h * q.z.nr * q.z.nc + i)])
  ++ (times (q.chunks - 1) fun c => times q.z.nh fun h =>
    -- chunk `c + 1` from chunk `c`
    times (q.z.nr * q.z.nc) fun i =>
      [.set (.buf .stp) (((c + 1) * q.z.nh + h) * q.z.nr * q.z.nc + i) fun m =>
        q.exp (m (.buf .Acl) (c * q.z.nh + h)) * m (.buf .stp) ((c * q.z.nh + h) * q.z.nr * q.z.nc + i)
          + m (.buf .cs) ((c * q.z.nh + h) * q.z.nr * q.z.nc + i)])
  ++ (times q.chunks fun cc => times q.z.nh fun h => q.stateOperand .stp (cc * q.z.nh + h))
  ++ stg (q.z.nh * q.chunks) .pO q.z.csz q.z.nc q.z.nr .aO .bO .tmp
  ++ (times q.chunks fun cc => times q.z.nh fun h => q.post seq cc h (cc * q.z.nh + h))
  ++ times q.z.nh fun h => times (q.z.nr * q.z.nc) fun i =>
    [.set .sNew (seq * q.z.nh * q.z.nr * q.z.nc + h * q.z.nr * q.z.nc + i) fun m =>
      q.exp (m (.buf .Acl) ((q.chunks - 1) * q.z.nh + h))
        * m (.buf .stp) (((q.chunks - 1) * q.z.nh + h) * q.z.nr * q.z.nc + i)
        + m (.buf .cs) (((q.chunks - 1) * q.z.nh + h) * q.z.nr * q.z.nc + i)]

def startSeq (seq : Nat) : List (Stmt R) :=
  (times (q.z.nh * q.z.nr * q.z.nc) fun i =>
    [.set (.buf .state) i fun _ => q.s0 (seq * q.z.nh * q.z.nr * q.z.nc + i)])
  ++ (times (q.z.nh * q.z.nr * q.z.nc) fun i => [.set (.buf .stp) i fun _ => 0])
  ++ times q.z.nh fun h => [.set (.buf .Aclp) h fun _ => 0]

/-- `state` with the decay and the contribution of the chunk before. -/
def carry : List (Stmt R) :=
  times q.z.nh fun h => times (q.z.nr * q.z.nc) fun i =>
    [.set (.buf .state) (h * q.z.nr * q.z.nc + i) fun m =>
      q.exp (m (.buf .Aclp) h) * m (.buf .state) (h * q.z.nr * q.z.nc + i) + m (.buf .stp) (h * q.z.nr * q.z.nc + i)]

def startChunk (seq cc : Nat) : List (Stmt R) :=
  (times q.z.nh fun h => q.prep seq cc h h) ++ if 0 < cc then q.carry else []

def endChunk (seq cc : Nat) : List (Stmt R) :=
  q.stgs q.z.nh ++ stg q.z.nh .pO q.z.csz q.z.nc q.z.nr .aO .bO .tmp
  ++ (times q.z.nh fun h => q.post seq cc h h)
  ++ (times (q.z.nh * q.z.nr * q.z.nc) fun i => [.set (.buf .stp) i fun m => m (.buf .cs) i])
  ++ times q.z.nh fun h => [.set (.buf .Aclp) h fun m => m (.buf .Acl) h]

/-- `s_new`, from `state` and the last chunk. -/
def endSeq (seq : Nat) : List (Stmt R) :=
  times q.z.nh fun h => times (q.z.nr * q.z.nc) fun i =>
    [.set .sNew (seq * q.z.nh * q.z.nr * q.z.nc + (h * q.z.nr * q.z.nc + i)) fun m =>
      q.exp (m (.buf .Aclp) h) * m (.buf .state) (h * q.z.nr * q.z.nc + i) + m (.buf .stp) (h * q.z.nr * q.z.nc + i)]

/-- `ssm_marshal_gi`. -/
def ssmMarshalGi (seq cc : Nat) : List (Stmt R) :=
  times q.z.nh fun h => q.inputOperands h ++ q.stateOperand .state h ++ q.decayOperand seq cc h h

/-- `ork_ssm_pipeline()`: the helper thread runs `ssm_marshal_gi` while the first stage does; `order cc` is how the two
interleave in chunk `cc`. A context that has no helper marshals first. -/
def pipelined (order : Nat → List Bool) (seq : Nat) : List (Stmt R) :=
  q.startSeq seq
  ++ (times q.chunks fun cc =>
    q.startChunk seq cc
    ++ (times q.z.nh fun h => q.gramOperands seq cc h h)
    ++ mix (order cc) (q.ssmMarshalGi seq cc) (stg q.z.nh .pS q.z.csz q.z.nc q.z.csz .aS .bS .G)
    ++ (times q.z.nh fun h => q.maskOperand h)
    ++ q.endChunk seq cc)
  ++ q.endSeq seq

/-- The serial schedule; `i8` says that the first stage is int8. -/
def serial (i8 : Bool) (seq : Nat) : List (Stmt R) :=
  q.startSeq seq
  ++ (times q.chunks fun cc =>
    q.startChunk seq cc
    ++ (times q.z.nh fun h => q.gramOperands seq cc h h ++ q.inputOperands h ++ q.stateOperand .state h)
    ++ (if i8 then q.stgI8 else stg q.z.nh .pS q.z.csz q.z.nc q.z.csz .aS .bS .G)
    ++ (times q.z.nh fun h => q.maskOperand h ++ q.decayOperand seq cc h h)
    ++ q.endChunk seq cc)
  ++ q.endSeq seq

/-- The three ways through a scan. -/
inductive Schedule
  | batched
  | pipelined (order : Nat → Nat → List Bool)
  | serial (i8 : Bool)

def body (seq : Nat) : Schedule → List (Stmt R)
  | .batched => q.batched seq
  | .pipelined order => q.pipelined (order seq) seq
  | .serial i8 => q.serial i8 seq

def program (s : Schedule) : List (Stmt R) := times q.ns fun seq => q.body seq s

end Scan

/-- The scan of a call. -/
def ScanArgs.scan {R : Type*} [CommRing R] (a : ScanArgs) (k : Knobs) (v : Inputs R) : Scan R :=
  { v with z := scanShape k a, ng := a.ng.toNat, nt := a.nt.toNat, ns := a.ns.toNat }

/-- The schedule a call takes; `order` is how the helper's turns fall. -/
def scheduleOf (k : Knobs) (p : Pool) (a : ScanArgs) (order : Nat → Nat → List Bool) : Scan.Schedule :=
  if 1 < (scanShape k a).nb then .batched
  else if orkSsmPipeline k ≠ 0 then .pipelined order
  else .serial (gramI8 p.i8)

/-- `ork_ssm_scan_f32`: what it returns, and the memory it leaves if that is 0. -/
def orkSsmScan {R : Type*} [CommRing R] (k : Knobs) (a : ScanArgs) (alloc : Bool) (fails : Nat → Bool)
    (order : Nat → Nat → List Bool) (c : Option Pool) (v : Inputs R) (m : Mem R) : Int × Option (Mem R) :=
  if ¬ a.Accepted then (-2, none)
  else match ssmPoolEnsure k (scanShape k a) alloc c with
    | none => (-1, none)
    | some p =>
      match Assign.perform fails 0 ((a.scan k v).program (scheduleOf k p a order)) m with
      | none => (-1, none)
      | some m' => (0, some m')

end OrkDriver.Ssm
