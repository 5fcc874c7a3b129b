import OrkDriver.Core.DynEnd
import OrkDriver.Core.McChain
import OrkDriver.F16Stream.Chain

/-!
`ork_f16_mm_run_stream` (`npu/f16/stream.c`): the tasks as the doorbell takes them, `ork_dyn_begin_mc` and `ork_dyn_end`.
-/

namespace OrkDriver.F16Stream

open OrkDriver.Lib OrkDriver.Npu OrkDriver.Pack OrkDriver.Run OrkDriver.Core

variable {R : Type*}

/-- What a call finds: the cores it may use, what `ork_dyn_begin_mc` finds for its chains and for its handle, the domains of
the arrays that are DMA buffers, what the activation buffers hold, and how the outputs land. -/
structure DoorCall (R : Type*) where
  bfull : BfullEnv R
  budget : Int
  chains : McEnv
  handle : ColsplitEnv R
  cdom : Nat → Option Nat
  maf : Nat → Nat → R
  run : DynRun R

/-- `ti`: A stays in host memory. -/
def dynTasks (x : DoorCall R) (tasks : Nat → MmTaskF16 R) (i : Nat) : DynTask R :=
  ⟨(tasks i).w.toOrkW, (tasks i).domain, (tasks i).M, (tasks i).A, x.cdom i, 0⟩

/-- The activation buffer of core `i` once its chain is built. -/
def doorStaged (x : DoorCall R) (tasks : Nat → MmTaskF16 R) (i : Nat) (progs : List McProg) : Nat → R :=
  stores (x.maf i) (progs.flatMap fun q =>
    (List.range (q.e.p.mc * q.e.p.Kp)).map fun y => (q.aoff / 2 + y, (tasks q.gi).A y))

/-- All programs of a dispatch, with their cores. -/
def doorProgs (H : McChains) : List (Nat × McProg) := (List.range H.n).flatMap fun i => (H.core i).progs.map fun q => (i, q)

variable [NonUnitalNonAssocSemiring R]

/-- What the program of task `gi` writes into cell `y` of its output, row after row. -/
def doorValue (x : DoorCall R) (tasks : Nat → MmTaskF16 R) (H : McChains) (gi y : Nat) : R :=
  match (doorProgs H).find? fun q => q.2.gi = gi with
  | none => 0
  | some q => q.2.e.p.value 16 (fun z => doorStaged x tasks q.1 (H.core q.1).progs (q.2.aoff / 2 + z))
      ((tasks gi).w.Bb 0) (y / (tasks gi).w.N) (y % (tasks gi).w.N)

/-- The chains of a batch. -/
structure DoorBatch (R : Type*) where
  S : Nat
  chains : McEnv
  ti : Nat → DynTask R
  H : McChains

/-- `ork_f16_mm_run_stream` behind its entry. -/
def doorStream (c : OrkNpu) (x : DoorCall R) (S : Nat) (tasks : Nat → MmTaskF16 R) (C : Nat → Nat → R) :
    Ran (DoorBatch R) R :=
  if 1024 < S then ⟨-2, C, []⟩
  else
    let ti := dynTasks x tasks
    let nc := (streamCores x.budget S : Int)
    match orkiDynBeginMcChains c x.chains S ti nc, orkiDynBeginMcImpl c x.handle S ti nc with
    | some H, some h =>
      let d := h.orkDynEnd { x.run with value := doorValue x tasks H } C
      ⟨if d.ret = (S : Int) - 1 then 0 else -1, d.C, [⟨S, x.chains, ti, H⟩]⟩
    | _, _ => ⟨-1, C, []⟩

/-- `ork_f16_mm_run_stream`; 64 is the limit of a doorbell program. -/
def orkF16MmRunStream (c : OrkNpu) : Runner (DoorCall R) (DoorBatch R) R := ⟨64, DoorCall.bfull, doorStream c⟩

end OrkDriver.F16Stream
