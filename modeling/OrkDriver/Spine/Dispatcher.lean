import Mathlib.Data.List.Basic
import Mathlib.Logic.Function.Basic
import OrkDriver.Lib.Transition

/-!
`ork_spine.h`: execution units with a worker thread each, and the poll loop that drives a task graph across them.
The loop and the workers interleave at the granularity of the unit's mutex: what one of them does between two
acquisitions of the lock is one step.
-/

namespace OrkDriver.Spine

open Transition

variable {W : Type*}

/-- Where an op may run. -/
inductive Placement
  | npu
  | cpu
  | either
  deriving DecidableEq

inductive UnitKind
  | cpu
  | npu
  deriving DecidableEq

inductive OpState
  | pend
  | inflight
  | done
  deriving DecidableEq

/-- Where the worker thread of a unit is: on the condition variable (or about to test it), or inside the call it
took off the unit at generation `g`. -/
inductive Worker (W : Type*)
  | waiting
  | running (work : W) (g : Nat)
  deriving DecidableEq

def Worker.isRunning : Worker W → Bool
  | .waiting => false
  | .running _ _ => true

/-- `work` is the function and the argument of the unit's next call. -/
structure OrkSpineUnit (W : Type*) where
  gen : Nat
  doneGen : Nat
  work : W
  ret : Int
  kind : UnitKind
  busy : Bool
  op : Nat
  worker : Worker W
  deriving DecidableEq

structure OrkSpineOp (W : Type*) where
  deps : BitVec 32
  placement : Placement
  work : W
  state : OpState
  unit : Option Nat
  gen : Nat
  ret : Int
  deriving DecidableEq

/-! ### Units -/

namespace OrkSpineUnit

/-- The unit `ork_spine_unit_start` leaves: the memset and its kind. `idle` stands for the null function. -/
def orkSpineUnitStart (idle : W) (kind : UnitKind) : OrkSpineUnit W := ⟨0, 0, idle, 0, kind, false, 0, .waiting⟩

/-- The generation handed back is the one left in the unit. -/
def orkSpineUnitDispatch (u : OrkSpineUnit W) (work : W) : OrkSpineUnit W := { u with work := work, gen := u.gen + 1 }

def orkSpineUnitPoll (u : OrkSpineUnit W) (gen : Nat) : Bool := decide (gen ≤ u.doneGen)

/-- The half of `ork__spine_unit_loop` before the call: the worker has found `gen` different from `done_gen`. -/
def take (u : OrkSpineUnit W) : OrkSpineUnit W := { u with worker := .running u.work u.gen }

/-- The half after the call, which returned `r`. -/
def finish (u : OrkSpineUnit W) (r : Int) : OrkSpineUnit W :=
  match u.worker with
  | .waiting => u
  | .running _ g => { u with ret := r, doneGen := g, worker := .waiting }

/-- The units a caller can hand over: started, then driven by any dispatches and worker steps, with any
bookkeeping an earlier run left. -/
inductive Started (idle : W) : OrkSpineUnit W → Prop
  | start (kind : UnitKind) : Started idle (orkSpineUnitStart idle kind)
  | dispatch {u : OrkSpineUnit W} (work : W) : Started idle u → Started idle (u.orkSpineUnitDispatch work)
  | take {u : OrkSpineUnit W} : Started idle u → u.worker = .waiting → u.gen ≠ u.doneGen → Started idle u.take
  | finish {u : OrkSpineUnit W} (r : Int) : Started idle u → Started idle (u.finish r)
  | book {u : OrkSpineUnit W} (busy : Bool) (op : Nat) : Started idle u → Started idle { u with busy := busy, op := op }

end OrkSpineUnit

/-! ### The poll loop -/

/-- Program point of `ork_spine_run`: the loop's test, the two scans, the read of a finished unit's return value
(the mutex of the poll is released by then), the end. -/
inductive Pc
  | test
  | dispatch (i : Nat)
  | poll (u : Nat)
  | collect (u : Nat)
  | returned
  deriving DecidableEq

/-- A dispatch: of which op, on which unit, under which generation. -/
structure Sent where
  op : Nat
  unit : Nat
  gen : Nat
  deriving DecidableEq

/-- A call that returned: on which unit, for which generation, of what, with which value. -/
structure Call (W : Type*) where
  unit : Nat
  gen : Nat
  work : W
  ret : Int
  deriving DecidableEq

/-- The run: the two arrays, the locals of `ork_spine_run`, and what has been dispatched and called so far. -/
structure State (W : Type*) where
  nu : Nat
  nops : Nat
  units : Nat → OrkSpineUnit W
  ops : Nat → OrkSpineOp W
  doneMask : BitVec 32
  ndone : Nat
  pc : Pc
  sent : List Sent
  calls : List (Call W)

/-- The first free unit of a kind. -/
def freeUnit (U : Nat → OrkSpineUnit W) (nu : Nat) (kind : UnitKind) : Option Nat :=
  (List.range nu).find? fun i => !(U i).busy && (U i).kind == kind

def orkSpinePick (U : Nat → OrkSpineUnit W) (nu : Nat) : Placement → Option Nat
  | .npu => freeUnit U nu .npu
  | .cpu => freeUnit U nu .cpu
  | .either => (freeUnit U nu .cpu).or (freeUnit U nu .npu)

/-- `1 << i`; the shift of the target takes its count modulo the width. -/
def opBit (i : Nat) : BitVec 32 := 1#32 <<< (i % 32)

def nnpu (U : Nat → OrkSpineUnit W) (nu : Nat) : Nat := (List.range nu).countP fun i => (U i).kind == .npu

/-- The configurations `ork_spine_run` does not answer with -1. -/
def Accepts (U : Nat → OrkSpineUnit W) (nu : Nat) (ops : Nat → OrkSpineOp W) (nops : Nat) : Prop :=
  nnpu U nu ≤ 1 ∧ ∀ i < nops, (ops i).placement = .npu → nnpu U nu ≠ 0

instance Accepts.decidable (U : Nat → OrkSpineUnit W) (nu : Nat) (ops : Nat → OrkSpineOp W) (nops : Nat) :
    Decidable (Accepts U nu ops nops) :=
  inferInstanceAs (Decidable (_ ∧ _))

/-- `ork_spine_run` up to its loop. -/
def orkSpineRun (U : Nat → OrkSpineUnit W) (nu : Nat) (ops : Nat → OrkSpineOp W) (nops : Nat) : Option (State W) :=
  if Accepts U nu ops nops then
    some ⟨nu, nops, fun u => { U u with busy := false }, fun i => { ops i with state := .pend, unit := none },
      0, 0, .test, [], []⟩
  else none

namespace State

/-- The unit the dispatch scan gives to op `i`, if it dispatches it. -/
def choose (s : State W) (i : Nat) : Option Nat :=
  if (s.ops i).state = .pend ∧ (s.ops i).deps &&& s.doneMask = (s.ops i).deps then
    orkSpinePick s.units s.nu (s.ops i).placement
  else none

/-- Op `i` goes to unit `u`. -/
def send (s : State W) (i u : Nat) : State W :=
  { s with
    units := Function.update s.units u
      { (s.units u).orkSpineUnitDispatch (s.ops i).work with busy := true, op := i }
    ops := Function.update s.ops i
      { s.ops i with gen := (s.units u).gen + 1, state := .inflight, unit := some u }
    sent := ⟨i, u, (s.units u).gen + 1⟩ :: s.sent }

/-- The dispatch scan at op `i`. -/
def tryDispatch (s : State W) (i : Nat) : State W :=
  match s.choose i with
  | none => s
  | some u => s.send i u

/-- The op of the finished unit `u` is done. -/
def collect (s : State W) (u : Nat) : State W :=
  { s with
    ops := Function.update s.ops (s.units u).op
      { s.ops (s.units u).op with ret := (s.units u).ret, state := .done }
    doneMask := s.doneMask ||| opBit (s.units u).op
    ndone := s.ndone + 1
    units := Function.update s.units u { s.units u with busy := false } }

/-- One step of the thread that called `ork_spine_run`. -/
def sched (s : State W) : State W :=
  match s.pc with
  | .test => { s with pc := if s.ndone < s.nops then .dispatch 0 else .returned }
  | .dispatch i => if i < s.nops then { s.tryDispatch i with pc := .dispatch (i + 1) } else { s with pc := .poll 0 }
  | .poll u =>
    if u < s.nu then
      if (s.units u).busy && (s.units u).orkSpineUnitPoll (s.ops (s.units u).op).gen then { s with pc := .collect u }
      else { s with pc := .poll (u + 1) }
    else { s with pc := .test }
  | .collect u => { s.collect u with pc := .poll (u + 1) }
  | .returned => s

/-- The worker of unit `u` takes its call. -/
def take (s : State W) (u : Nat) : State W := { s with units := Function.update s.units u (s.units u).take }

/-- The call of unit `u` returns `r`. -/
def finish (s : State W) (u : Nat) (r : Int) : State W :=
  { s with
    units := Function.update s.units u ((s.units u).finish r)
    calls := match (s.units u).worker with
      | .waiting => s.calls
      | .running work g => ⟨u, g, work, r⟩ :: s.calls }

/-- The next pass of the dispatch scan over all ops. -/
def pass (s : State W) : State W := (List.range s.nops).foldl tryDispatch s

end State

/-- Whose step it is: the scheduler's, or that of a unit's worker. -/
inductive Act
  | sched
  | take (u : Nat)
  | finish (u : Nat) (r : Int)

def Enabled (s : State W) : Act → Prop
  | .sched => s.pc ≠ .returned
  | .take u => u < s.nu ∧ (s.units u).worker.isRunning = false ∧ (s.units u).gen ≠ (s.units u).doneGen
  | .finish u _ => u < s.nu ∧ (s.units u).worker.isRunning = true

instance Enabled.decidable (s : State W) : ∀ a : Act, Decidable (Enabled s a)
  | .sched => inferInstanceAs (Decidable (s.pc ≠ .returned))
  | .take _ => inferInstanceAs (Decidable (_ ∧ _))
  | .finish _ _ => inferInstanceAs (Decidable (_ ∧ _))

def next (s : State W) : Act → State W
  | .sched => s.sched
  | .take u => s.take u
  | .finish u r => s.finish u r

/-- A call of `ork_spine_run` and its workers, in any interleaving. -/
def spine (U : Nat → OrkSpineUnit W) (nu : Nat) (ops : Nat → OrkSpineOp W) (nops : Nat) : System (State W) Act :=
  .ofNext (fun s => orkSpineRun U nu ops nops = some s) Enabled next

/-- Unit kinds a placement allows. -/
def Placement.Allows : Placement → UnitKind → Prop
  | .npu, k => k = .npu
  | .cpu, k => k = .cpu
  | .either, _ => True

/-! ### The functions, one fact each -/

variable {U : Nat → OrkSpineUnit W} {nu : Nat} {ops : Nat → OrkSpineOp W} {nops : Nat} {s : State W}

theorem freeUnit_eq_some {kind : UnitKind} {u : Nat} (h : freeUnit U nu kind = some u) :
    u < nu ∧ (U u).busy = false ∧ (U u).kind = kind := by
  have hmem := List.mem_of_find?_eq_some h
  have hp := List.find?_some h
  rw [Bool.and_eq_true, Bool.not_eq_true', beq_iff_eq] at hp
  exact ⟨List.mem_range.mp hmem, hp⟩

theorem freeUnit_isSome {kind : UnitKind} {u : Nat} (hu : u < nu) (hb : (U u).busy = false) (hk : (U u).kind = kind) :
    (freeUnit U nu kind).isSome = true := by
  unfold freeUnit
  rw [List.find?_isSome]
  refine ⟨u, List.mem_range.mpr hu, ?_⟩
  rw [hb, hk]
  cases kind <;> rfl

/-- What is picked is free and of a kind the placement allows. -/
theorem orkSpinePick_eq_some {p : Placement} {u : Nat} (h : orkSpinePick U nu p = some u) :
    u < nu ∧ (U u).busy = false ∧ p.Allows (U u).kind := by
  cases p with
  | npu => exact freeUnit_eq_some h
  | cpu => exact freeUnit_eq_some h
  | either =>
      rcases Option.or_eq_some_iff.mp h with h | ⟨-, h⟩
      · exact ⟨(freeUnit_eq_some h).1, (freeUnit_eq_some h).2.1, trivial⟩
      · exact ⟨(freeUnit_eq_some h).1, (freeUnit_eq_some h).2.1, trivial⟩

/-- A free unit of an allowed kind is enough for a pick. -/
theorem orkSpinePick_isSome {p : Placement} {u : Nat} (hu : u < nu) (hb : (U u).busy = false)
    (hk : p.Allows (U u).kind) : (orkSpinePick U nu p).isSome = true := by
  cases p with
  | npu => exact freeUnit_isSome hu hb hk
  | cpu => exact freeUnit_isSome hu hb hk
  | either =>
      unfold orkSpinePick
      rw [Option.isSome_or, Bool.or_eq_true]
      cases hkind : (U u).kind with
      | cpu => exact Or.inl (freeUnit_isSome hu hb hkind)
      | npu => exact Or.inr (freeUnit_isSome hu hb hkind)

/-- A mask holds a set of dependencies when it holds each of them. -/
theorem and_eq_left_iff {d m : BitVec 32} : d &&& m = d ↔ ∀ b, d.getLsbD b = true → m.getLsbD b = true := by
  constructor
  · intro h b hb
    rw [← h, BitVec.getLsbD_and, Bool.and_eq_true] at hb
    exact hb.2
  · intro h
    apply BitVec.eq_of_getLsbD_eq
    intro b _
    rw [BitVec.getLsbD_and]
    cases hd : d.getLsbD b with
    | false => rfl
    | true => rw [h b hd]; rfl

theorem getLsbD_opBit {i b : Nat} : (opBit i).getLsbD b = true ↔ b = i % 32 := by
  unfold opBit
  rw [BitVec.getLsbD_shiftLeft, BitVec.getLsbD_one]
  constructor
  · intro h
    simp only [Bool.and_eq_true, decide_eq_true_eq, Bool.not_eq_true', decide_eq_false_iff_not] at h
    omega
  · intro h
    have := Nat.mod_lt i (show 0 < 32 by decide)
    simp only [Bool.and_eq_true, decide_eq_true_eq, Bool.not_eq_true', decide_eq_false_iff_not]
    omega

theorem choose_eq_some {i u : Nat} (h : s.choose i = some u) :
    (s.ops i).state = .pend ∧ (∀ b, (s.ops i).deps.getLsbD b = true → s.doneMask.getLsbD b = true) ∧
      u < s.nu ∧ (s.units u).busy = false ∧ (s.ops i).placement.Allows (s.units u).kind := by
  unfold State.choose at h
  split at h
  · next hc => exact ⟨hc.1, and_eq_left_iff.mp hc.2, orkSpinePick_eq_some h⟩
  · cases h

theorem choose_isSome {i u : Nat} (hp : (s.ops i).state = .pend)
    (hd : ∀ b, (s.ops i).deps.getLsbD b = true → s.doneMask.getLsbD b = true) (hu : u < s.nu)
    (hb : (s.units u).busy = false) (hk : (s.ops i).placement.Allows (s.units u).kind) :
    (s.choose i).isSome = true := by
  unfold State.choose
  rw [if_pos ⟨hp, and_eq_left_iff.mpr hd⟩]
  exact orkSpinePick_isSome hu hb hk

end OrkDriver.Spine
