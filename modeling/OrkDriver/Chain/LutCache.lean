import Mathlib.Data.Rat.Defs
import Mathlib.Logic.Function.Basic
import OrkDriver.Lib.Transition

/-!
The activation tables of the fused int8 chains (`npu/i8/chain.c`): the host arrays the entry points build, the copy each
core's table loader is patched with, and the table in the core's SDP SRAM, with the resets of `npu/core/mode.c` and
`npu/core/submit.c`.
-/

namespace OrkDriver.Chain

open Transition

/-- An int16 table of 1030 entries, as the loader reads it. -/
abbrev Lut := Fin 1030 → Int

/-- `orki_silu_f`, `orki_exp_f` -/
inductive ActFn
  | silu
  | exp
  deriving DecidableEq

/-- The arguments a curve depends on. -/
structure Scales where
  inScale : ℚ
  outScale : ℚ
  maxBias : ℚ
  deriving DecidableEq

/-- `orki_silu_build_curve_biased` -/
abbrev BuildCurve := ActFn → Scales → Lut

/-- The arrays a chain's table can live in: the static one of each entry point, or the caller's. -/
inductive LutArray
  | sdpsilu
  | ffn
  | ffnExp
  | rr
  | rrBiased
  | caller (addr : Nat)
  deriving DecidableEq

/-- The entry points: the caller's table comes with what is in it. -/
inductive ChainCall
  | gsilu (addr : Nat) (lut : Lut)
  | sdpsilu (inScale outScale : ℚ)
  | ffn (inScale outScale : ℚ)
  | ffnExpBiased (inScale outScale maxBias : ℚ)
  | rr (inScale outScale : ℚ)
  | rrBiased (inScale outScale maxBias : ℚ)

namespace ChainCall

/-- `ork_i8_mm_run_chain_ffn_exp` -/
def ffnExp (inScale outScale : ℚ) : ChainCall := .ffnExpBiased inScale outScale 0

/-- `ss.lut` -/
def array : ChainCall → LutArray
  | .gsilu a _ => .caller a
  | .sdpsilu .. => .sdpsilu
  | .ffn .. => .ffn
  | .ffnExpBiased .. => .ffnExp
  | .rr .. => .rr
  | .rrBiased .. => .rrBiased

/-- The table the call asks for. -/
def table (build : BuildCurve) : ChainCall → Lut
  | .gsilu _ lut => lut
  | .sdpsilu i o => build .silu ⟨i, o, 0⟩
  | .ffn i o => build .silu ⟨i, o, 0⟩
  | .ffnExpBiased i o b => build .exp ⟨i, o, b⟩
  | .rr i o => build .exp ⟨i, o, 0⟩
  | .rrBiased i o b => build .exp ⟨i, o, b⟩

end ChainCall

/-- A core is idle, or its table has been seen to and `reps` submits of its chain are still to come. -/
inductive Phase
  | idle
  | loaded (want : Lut) (reps : Nat)

/-- A chain that was executed, its core's table at that time. -/
structure Executed where
  core : Fin 4
  want : Lut
  resident : Option Lut

/-- The arrays and their memos, the part of `struct ork_npu` that tracks the tables, the tables themselves. -/
structure LutState where
  arr : LutArray → Lut
  /-- `c_is`, `c_os`, `c_bias` -/
  memo : LutArray → Scales
  chainLutP : Fin 4 → Option LutArray
  chainLrc : Fin 4 → Lut
  chainLutDevloaded : Fin 4 → Bool
  sram : Fin 4 → Option Lut
  /-- The table of the entry point that is running its chains. -/
  ss : Option (LutArray × Lut)
  phase : Fin 4 → Phase
  ran : List Executed

namespace LutState

/-- What `c_is`, `c_os` and `c_bias` start with; the unbiased entry point has no bias to compare. -/
def memoStart : LutArray → Scales
  | .rr => ⟨-1, -1, 0⟩
  | _ => ⟨-1, -1, -10 ^ 300⟩

def start : LutState :=
  ⟨fun _ _ => 0, memoStart, fun _ => none, fun _ _ => 0, fun _ => false, fun _ => none, none, fun _ => .idle, []⟩

variable (s : LutState)

/-- The table of an array written in place. -/
def write (a : LutArray) (t : Lut) : LutState := { s with arr := Function.update s.arr a t }

/-- An array that is rewritten only if the scales are not those of the last time. -/
def writeOnce (a : LutArray) (x : Scales) (t : Lut) (forget : Bool) : LutState :=
  if x = s.memo a then s
  else
    { s.write a t with
      memo := Function.update s.memo a x
      chainLutP := if forget then fun _ => none else s.chainLutP }

/-- The entry point up to `orki_i8_run_chain_impl`. -/
def buildCurve (build : BuildCurve) : ChainCall → LutState
  | .gsilu a lut => s.write (.caller a) lut
  | .sdpsilu i o => s.write .sdpsilu (build .silu ⟨i, o, 0⟩)
  | .ffn i o => s.write .ffn (build .silu ⟨i, o, 0⟩)
  | .ffnExpBiased i o b => s.writeOnce .ffnExp ⟨i, o, b⟩ (build .exp ⟨i, o, b⟩) true
  | .rr i o => s.writeOnce .rr ⟨i, o, 0⟩ (build .exp ⟨i, o, 0⟩) false
  | .rrBiased i o b => s.writeOnce .rrBiased ⟨i, o, b⟩ (build .exp ⟨i, o, b⟩) true

/-- `RKNPU_ACT_RESET` on its own. -/
def actReset : LutState := { s with sram := fun _ => none }

/-- `ork_npu_enter`, the decision of its policy table given. -/
def orkNpuEnter (rst : Bool) : LutState :=
  if rst then { s.actReset with chainLutDevloaded := fun _ => false } else s

end LutState

/-- How `orki_rknpu_submit_ioctl` returns: a rejection comes with the self-healing reset or without. -/
inductive SubmitFate
  | accepted
  | rejected (reset : Bool)
  deriving DecidableEq

namespace LutState

variable (s : LutState)

/-- The device after a rejected submit. -/
def selfHeal (reset : Bool) : LutState := if reset then s.actReset else s

/-- The loader's copy patched again where it is not marked as made from this array. -/
def patch (a : LutArray) (cc : Fin 4) : LutState :=
  if s.chainLutP cc = some a then s
  else
    { s with
      chainLrc := Function.update s.chainLrc cc (s.arr a)
      chainLutP := Function.update s.chainLutP cc (some a)
      chainLutDevloaded := Function.update s.chainLutDevloaded cc false }

/-- The table part of `orki_i8_run_chain_impl`. `warmed` is `c->warmed`. -/
def loadLut (sticky : Bool) (cc : Fin 4) (warmed : Bool) (o : SubmitFate) : LutState :=
  match s.ss with
  | none => s
  | some (a, want) =>
    let s := s.patch a cc
    let ready : Phase := .loaded want (if warmed then 1 else 2)
    if sticky && s.chainLutDevloaded cc then { s with phase := Function.update s.phase cc ready }
    else
      match o with
      | .accepted =>
        { s with
          sram := Function.update s.sram cc (some (s.chainLrc cc))
          chainLutDevloaded := Function.update s.chainLutDevloaded cc true
          phase := Function.update s.phase cc ready }
      | .rejected reset => s.selfHeal reset

/-- One round of the submit loop. -/
def submitChain (cc : Fin 4) (o : SubmitFate) : LutState :=
  match s.phase cc with
  | .idle => s
  | .loaded want reps =>
    let left : Phase := if reps ≤ 1 then .idle else .loaded want (reps - 1)
    match o with
    | .accepted =>
      { s with phase := Function.update s.phase cc left, ran := ⟨cc, want, s.sram cc⟩ :: s.ran }
    | .rejected reset => { s.selfHeal reset with phase := Function.update s.phase cc left }

end LutState

/-- What happens to the tables. The chains of one call run on their cores side by side; the calls follow each other. -/
inductive LutEvent
  | call (q : ChainCall) (rst : Bool)
  | load (cc : Fin 4) (warmed : Bool) (o : SubmitFate)
  | submit (cc : Fin 4) (o : SubmitFate)
  | enter (rst : Bool)
  | standalone (cc : Fin 4) (t : Lut)
  | bareReset

/-- Where the calling thread can take a step. -/
def LutEvent.enabled (s : LutState) : LutEvent → Prop
  | .load cc _ _ => s.phase cc = .idle ∧ s.ss ≠ none
  | .submit cc _ => s.phase cc ≠ .idle
  | _ => ∀ cc, s.phase cc = .idle

instance Phase.decidableEqIdle : ∀ p : Phase, Decidable (p = .idle)
  | .idle => isTrue rfl
  | .loaded _ _ => isFalse nofun

instance LutEvent.decidableEnabled (s : LutState) : ∀ e : LutEvent, Decidable (e.enabled s)
  | .load cc _ _ => inferInstanceAs (Decidable (s.phase cc = .idle ∧ s.ss ≠ none))
  | .submit cc _ => inferInstanceAs (Decidable (s.phase cc ≠ .idle))
  | .call _ _ => inferInstanceAs (Decidable (∀ cc, s.phase cc = .idle))
  | .enter _ => inferInstanceAs (Decidable (∀ cc, s.phase cc = .idle))
  | .standalone _ _ => inferInstanceAs (Decidable (∀ cc, s.phase cc = .idle))
  | .bareReset => inferInstanceAs (Decidable (∀ cc, s.phase cc = .idle))

/-- `sticky` is `ORK_CHAIN_LUT_STICKY`. -/
def LutEvent.next (build : BuildCurve) (sticky : Bool) (s : LutState) : LutEvent → LutState
  | .call q rst => { (s.buildCurve build q).orkNpuEnter rst with ss := some (q.array, q.table build) }
  | .load cc warmed o => s.loadLut sticky cc warmed o
  | .submit cc o => s.submitChain cc o
  | .enter rst => { s.orkNpuEnter rst with ss := none }
  | .standalone cc t => { s with sram := Function.update s.sram cc (some t), ss := none }
  | .bareReset => { s.actReset with ss := none }

/-- Every chain that is past its table load has the table it asked for in the SRAM of its core. -/
def Resident (s : LutState) : Prop := ∀ cc want reps, s.phase cc = .loaded want reps → s.sram cc = some want

/-- The last submit of a chain. -/
def Phase.last : Phase → Bool
  | .idle => true
  | .loaded _ reps => decide (reps ≤ 1)

/-- The copy the loader of a core would send, and whether it is sent. -/
def LutState.copy (s : LutState) (a : LutArray) (cc : Fin 4) : Lut :=
  if s.chainLutP cc = some a then s.chainLrc cc else s.arr a

def LutState.skips (s : LutState) (sticky : Bool) (a : LutArray) (cc : Fin 4) : Bool :=
  sticky && s.chainLutDevloaded cc && decide (s.chainLutP cc = some a)

/-- The event leaves every started chain its table: a table load finds the copy of its core current, or what it leaves in
place; a self-healing reset finds no chain between its table load and its last submit. -/
def Fit (sticky : Bool) (s : LutState) : LutEvent → Prop
  | .load cc _ o => ∀ a want, s.ss = some (a, want) →
      if s.skips sticky a cc then s.sram cc = some want
      else match o with
        | .accepted => s.copy a cc = want
        | .rejected reset => reset = true → ∀ c, s.phase c = .idle
  | .submit cc o => o = .rejected true → (s.phase cc).last = true ∧ ∀ c, c ≠ cc → s.phase c = .idle
  | _ => True

/-- The call rewrites its array without dropping the marks that name it. -/
def ChainCall.inPlace : ChainCall → Bool
  | .ffnExpBiased .. => false
  | .rrBiased .. => false
  | _ => true

/-- The scales a memo is compared with. -/
def ChainCall.scales : ChainCall → Option Scales
  | .ffnExpBiased i o b => some ⟨i, o, b⟩
  | .rr i o => some ⟨i, o, 0⟩
  | .rrBiased i o b => some ⟨i, o, b⟩
  | _ => none

/-- The event disturbs nothing that is marked: no array that a core's copy is marked as made from gets another curve
in place, no table goes that the sticky caching counts on, and no reset comes between a table load and the last submit of
its chain. -/
def Calm (build : BuildCurve) (sticky : Bool) (s : LutState) : LutEvent → Prop
  | .call q _ => q.scales ≠ some (LutState.memoStart q.array) ∧
      (q.inPlace = true → ∀ cc, s.chainLutP cc = some q.array → s.arr q.array = q.table build)
  | .load cc _ o => o = .rejected true →
      (∀ c, s.phase c = .idle) ∧ (sticky = true → ∀ c, c ≠ cc → s.chainLutDevloaded c = false)
  | .submit cc o => o = .rejected true →
      ((s.phase cc).last = true ∧ ∀ c, c ≠ cc → s.phase c = .idle) ∧
        (sticky = true → ∀ c, s.chainLutDevloaded c = false)
  | .standalone cc _ => sticky = true → s.chainLutDevloaded cc = false
  | .bareReset => sticky = true → ∀ cc, s.chainLutDevloaded cc = false
  | .enter _ => True

end OrkDriver.Chain
