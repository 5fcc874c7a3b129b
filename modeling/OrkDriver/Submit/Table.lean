import Mathlib.Data.List.SplitBy
import OrkDriver.Pack.Header

/-!
The vocabulary of the sequence scheduler (`ork/seq.h`, `ork_ops.c`, and `SEQ_CLASS` of `npu.c`): the operations, the rule
for each pair of neighbours, and how the scheduler runs each kind.
-/

namespace OrkDriver.Submit

open OrkDriver.Pack

/-! ### Operations -/

/-- `ork_op`. -/
inductive OrkOp
  | mmI8 | mmF16 | mmI4
  | siluF16 | ewmulF16 | siluI8 | geluI8 | ewmulI8 | addI8 | addF16 | siluI16
  | mmI4Grouped | geluI16 | rsqrtI8 | expI8 | expI16 | mulI16 | addI16
  | mulPerchannelI8 | mulPerchannelF16 | mulPerchannelI16 | matmulPerchannelF16 | requantizePerchannelI32
  | softmaxF16 | reducemaxI8 | reshapeF16 | ropeNeoxF16
  | matmulSiluI8 | matmulRequantI8 | matmulSiluI32 | rmsnormF16 | l2normF16 | rsqrtI16 | mmF16F16out | matmulI16outI8
  deriving DecidableEq

/-- What a tensor holds; a weight holds one of the first three. -/
inductive Elem
  | i8 | f16 | i4 | i16 | i32
  deriving DecidableEq

def elemOf : Dt → Elem
  | .i8 => .i8
  | .f16 => .f16
  | .i4 => .i4

/-- The suffix of an operation's name: what it takes in. -/
def OrkOp.elem : OrkOp → Elem
  | .mmI8 | .siluI8 | .geluI8 | .ewmulI8 | .addI8 | .rsqrtI8 | .expI8 | .mulPerchannelI8 | .reducemaxI8
  | .matmulSiluI8 | .matmulRequantI8 | .matmulSiluI32 | .matmulI16outI8 => .i8
  | .mmF16 | .siluF16 | .ewmulF16 | .addF16 | .mulPerchannelF16 | .matmulPerchannelF16 | .softmaxF16 | .reshapeF16
  | .ropeNeoxF16 | .rmsnormF16 | .l2normF16 | .mmF16F16out => .f16
  | .mmI4 | .mmI4Grouped => .i4
  | .siluI16 | .geluI16 | .expI16 | .mulI16 | .addI16 | .mulPerchannelI16 | .rsqrtI16 => .i16
  | .requantizePerchannelI32 => .i32

/-! ### Which operation may follow which -/

/-- `ork_chain_rule`. -/
inductive ChainRule
  | disallow | sw | hw
  deriving DecidableEq

/-- One row of `ORK_CHAIN_LIST`: the successors `ts` of `f` under one rule. -/
def chainRow (f : OrkOp) (rule : ChainRule) (ts : List OrkOp) : List ((OrkOp × OrkOp) × ChainRule) :=
  ts.map fun t => ((f, t), rule)

/-- `ORK_CHAIN_LIST`. -/
def orkChainList : List ((OrkOp × OrkOp) × ChainRule) :=
  chainRow .mmI8 .hw [.mmI8, .siluI8] ++ chainRow .siluI8 .hw [.mmI8] ++ chainRow .mmI8 .hw [.ewmulI8] ++
  chainRow .ewmulI8 .hw [.mmI8] ++ chainRow .mmF16 .hw [.mulPerchannelF16] ++
  chainRow .mmF16 .sw [.mmF16, .mmI8, .expI16, .siluI16, .mulI16, .ewmulF16, .addF16] ++
  chainRow .mmI8 .sw [.mmF16, .expI16, .siluI16, .mulI16, .ewmulF16, .addF16] ++
  chainRow .expI16 .sw [.mmF16, .mmI8, .expI16, .siluI16, .mulI16, .ewmulF16, .addF16] ++
  chainRow .siluI16 .sw [.mmF16, .mmI8, .expI16, .siluI16, .mulI16, .ewmulF16, .addF16] ++
  chainRow .mulI16 .sw [.mmF16, .mmI8, .expI16, .siluI16, .mulI16, .ewmulF16, .addF16] ++
  chainRow .ewmulF16 .sw [.mmF16, .mmI8, .expI16, .siluI16, .mulI16, .ewmulF16, .addF16] ++
  chainRow .addF16 .sw [.mmF16, .mmI8, .expI16, .siluI16, .mulI16, .ewmulF16, .addF16] ++
  chainRow .mmF16 .sw [.geluI16, .addI16] ++ chainRow .mmF16 .disallow [.siluI8, .geluI8]

/-- `ork_chain_lookup`; `none` is a value outside the enumeration. -/
def orkChainLookup (k k' : Option OrkOp) : ChainRule :=
  match k, k' with
  | some f, some t => (orkChainList.lookup (f, t)).getD .disallow
  | _, _ => .disallow

/-! ### Sequence operations -/

/-- What the scheduler reads of a weight; `Bf` is whether it has a full-K copy. -/
structure SeqWeight where
  dtype : Dt
  K : Nat
  Sk : Nat
  Sn : Nat
  Bf : Bool
  domain : Int
  deriving DecidableEq

/-- `ork_seq_op`; the operands and scales, which the scheduler hands on unread, are left out. -/
structure SeqOp where
  kind : Option OrkOp
  w : Option SeqWeight
  M : Int
  group : Int
  deriving DecidableEq

/-- `seq_hw_ok`. -/
def seqHwOk (o : SeqOp) : Bool :=
  match o.kind, o.w with
  | some .mmI4, some w => w.Sn = 1 ∧ w.dtype = .i4 ∧ o.M = 1 ∧ w.Sk ≤ 16
  | some .mmI8, some w =>
    w.Sn = 1 ∧ 1 ≤ o.M ∧ o.M ≤ 64 ∧ w.K % 512 = 0 ∧ w.K ≤ 4096 ∧ (w.Sk = 1 ∨ w.Bf) ∧ w.dtype = .i8
  | some .mmF16, some w =>
    w.Sn = 1 ∧ 1 ≤ o.M ∧ o.M ≤ 64 ∧ w.K % 512 = 0 ∧ w.K ≤ 4096 ∧ (w.Sk = 1 ∨ w.Bf) ∧ w.dtype = .f16 ∧
      o.M * w.K ≤ 32768
  | _, _ => false

/-! ### How each kind runs -/

/-- The routines of the driver that a `ork_seq_disp` shim or a fall-back calls. -/
inductive Routine
  | i8MmRun | f16MmRunStream | i4MmRun | i4MmRunStream
  | f16NpuEwmul | i8NpuSilu | i16NpuSilu | i8NpuGelu | i8NpuEwmul | i8NpuAdd | f16NpuAdd
  | i16NpuGelu | i8NpuRsqrt | i8NpuExpBiased | i16NpuExp
  | i8NpuRowMax | f16NpuMulPerchan | i8NpuMulPerchan | i16NpuRsqrt | f16NpuRopeNeox | f16NpuRmsnorm
  | f16MmRunF16out | i8MmRunOut8 | i8MmRunOut16
  deriving DecidableEq

/-- What a routine reads its input as. -/
def Routine.elem : Routine → Elem
  | .i8MmRun | .i8NpuSilu | .i8NpuGelu | .i8NpuEwmul | .i8NpuAdd | .i8NpuRsqrt | .i8NpuExpBiased | .i8NpuRowMax
  | .i8NpuMulPerchan | .i8MmRunOut8 | .i8MmRunOut16 => .i8
  | .f16MmRunStream | .f16NpuEwmul | .f16NpuAdd | .f16NpuMulPerchan | .f16NpuRopeNeox | .f16NpuRmsnorm
  | .f16MmRunF16out => .f16
  | .i4MmRun | .i4MmRunStream => .i4
  | .i16NpuSilu | .i16NpuGelu | .i16NpuExp | .i16NpuRsqrt => .i16

/-- The `XP_*` profiles the scheduler enters with. -/
inductive Profile
  | mcMm | streamF16 | i4Stream | sdp
  deriving DecidableEq

/-- `ork_chain_kind`. -/
inductive ChainKind
  | sw | hw
  deriving DecidableEq

/-- `ork_seq_class`; no marker is `SEQ_KEEPDT`, no `fn` is `NULL`. -/
structure SeqClass where
  hw : Bool
  marker : Option Int
  profile : Profile
  chain : ChainKind
  fn : Option Routine

/-- A row that keeps the mode of the device. -/
def sdpClass (fn : Routine) : SeqClass := ⟨false, none, .sdp, .sw, some fn⟩

/-- A row the table does not list: all zero, which reads as marker `DT_F16` and profile `XP_MC_MM`. -/
def zeroClass : SeqClass := ⟨false, some 0, .mcMm, .sw, none⟩

/-- `SEQ_CLASS`. -/
def seqClass : OrkOp → SeqClass
  | .mmI8 => ⟨true, some 1, .mcMm, .sw, some .i8MmRun⟩
  | .mmF16 => ⟨true, some 0, .streamF16, .hw, some .f16MmRunStream⟩
  | .mmI4 => ⟨true, some 5, .i4Stream, .sw, some .i4MmRun⟩
  | .siluF16 => ⟨false, none, .sdp, .sw, none⟩
  | .ewmulF16 => sdpClass .f16NpuEwmul
  | .siluI8 => sdpClass .i8NpuSilu
  | .geluI8 => sdpClass .i8NpuGelu
  | .ewmulI8 => sdpClass .i8NpuEwmul
  | .addI8 => sdpClass .i8NpuAdd
  | .addF16 => sdpClass .f16NpuAdd
  | .siluI16 => sdpClass .i16NpuSilu
  | .geluI16 => sdpClass .i16NpuGelu
  | .rsqrtI8 => sdpClass .i8NpuRsqrt
  | .expI8 => sdpClass .i8NpuExpBiased
  | .expI16 => sdpClass .i16NpuExp
  | .reducemaxI8 => sdpClass .i8NpuRowMax
  | .mulPerchannelF16 => sdpClass .f16NpuMulPerchan
  | .mulPerchannelI8 => sdpClass .i8NpuMulPerchan
  | .rsqrtI16 => sdpClass .i16NpuRsqrt
  | .ropeNeoxF16 => sdpClass .f16NpuRopeNeox
  | .rmsnormF16 => sdpClass .f16NpuRmsnorm
  | .mmF16F16out => ⟨false, none, .streamF16, .sw, some .f16MmRunF16out⟩
  | .matmulRequantI8 => ⟨false, none, .mcMm, .sw, some .i8MmRunOut8⟩
  | .matmulI16outI8 => ⟨false, none, .mcMm, .sw, some .i8MmRunOut16⟩
  | .mmI4Grouped | .mulI16 | .addI16 | .mulPerchannelI16 | .matmulPerchannelF16 | .requantizePerchannelI32 | .softmaxF16
  | .reshapeF16 | .matmulSiluI8 | .matmulSiluI32 | .l2normF16 => zeroClass

/-- Every row dispatches its own kind of tensor. -/
theorem seqClass_elem {k : OrkOp} {r : Routine} (h : (seqClass k).fn = some r) : r.elem = k.elem := by
  cases k <;> simp [seqClass, sdpClass, zeroClass] at h <;> subst h <;> rfl

theorem seqClass_fn_of_hw {k : OrkOp} (h : (seqClass k).hw = true) : (seqClass k).fn.isSome = true := by
  cases k <;> first | rfl | cases h

theorem eq_mmI8_of_hw {k : OrkOp} (h : (seqClass k).hw = true) (he : k.elem = .i8) : k = .mmI8 := by
  cases k <;> first | rfl | exact absurd h (by decide) | exact absurd he (by decide)

/-- The rows that may ride the doorbell are those `seq_hw_ok` knows. -/
theorem seqClass_hw_of_seqHwOk {o : SeqOp} (h : seqHwOk o = true) : ∃ k w, o.kind = some k ∧ o.w = some w ∧
    (seqClass k).hw = true ∧ elemOf w.dtype = k.elem := by
  unfold seqHwOk at h
  split at h
  · rename_i w hk hw
    simp only [decide_eq_true_eq] at h
    exact ⟨_, w, hk, hw, rfl, by rw [h.2.1]; rfl⟩
  · rename_i w hk hw
    simp only [decide_eq_true_eq] at h
    exact ⟨_, w, hk, hw, rfl, by rw [h.2.2.2.2.2.2]; rfl⟩
  · rename_i w hk hw
    simp only [decide_eq_true_eq] at h
    exact ⟨_, w, hk, hw, rfl, by rw [h.2.2.2.2.2.2.1]; rfl⟩
  · cases h

end OrkDriver.Submit
