import OrkDriver.Npu.F16Tile
import OrkDriver.Run.F16Coherence

/-!
The entry of the fp16 streams (`npu/f16/stream.c`): `f16_stream_check`, which picks one program height for a whole batch,
and `f16_stream_mtile`, which runs a batch of more rows block by block.
-/

namespace OrkDriver.F16Stream

open OrkDriver.Lib OrkDriver.Npu OrkDriver.Pack OrkDriver.Run

variable {R : Type*}

/-- `ork_mm_task_f16`, with the domain of its weight. The C of a task is an array of its own. -/
structure MmTaskF16 (R : Type*) where
  w : F16W R
  domain : Nat
  M : Nat
  A : Nat → R

/-- Whether the full-K cube of a task's weight is granted, and what it held before. -/
structure BfullEnv (R : Type*) where
  granted : Nat → Bool
  fresh : Nat → Nat → R

/-- What the check has done to task `i`: a K-sliced weight has its full-K cube. -/
def built (c : OrkNpu) (e : F16Knobs) (b : BfullEnv R) (S : Nat) (tasks : Nat → MmTaskF16 R) (i : Nat) : MmTaskF16 R :=
  if i < S ∧ (tasks i).w.Sk ≠ 1 then { tasks i with w := orkiF16Bfull c e (b.granted i) (b.fresh i) (tasks i).w }
  else tasks i

/-- What `f16_stream_check` asks of a task. -/
def Accepts (t : MmTaskF16 R) : Prop :=
  (t.w.dt = .f16 ∧ 0 < t.M ∧ t.w.Sn = 1) ∧ (t.w.Sk = 1 ∨ t.w.Bfull.isSome) ∧ t.w.K % 32 = 0 ∧ t.w.N % 16 = 0

instance (t : MmTaskF16 R) : Decidable (Accepts t) := inferInstanceAs (Decidable (_ ∧ _ ∧ _ ∧ _))

/-- `cp`. -/
def taskCap (e : F16Knobs) (hard : Nat) (t : MmTaskF16 R) : Nat :=
  let cp := orkiF16McapN e t.w.K (orkiF16Sched t.w.K) t.w.N
  if 0 < hard ∧ hard < cp then hard else cp

/-- `c0` -/
def minCap (e : F16Knobs) (hard S : Nat) (tasks : Nat → MmTaskF16 R) : Nat :=
  (List.range S).foldl (fun c0 i => if taskCap e hard (tasks i) < c0 then taskCap e hard (tasks i) else c0) (2 ^ 30)

/-- `mx` -/
def maxRows (S : Nat) (tasks : Nat → MmTaskF16 R) : Nat :=
  (List.range S).foldl (fun mx i => if mx < (tasks i).M then (tasks i).M else mx) 0

/-- Programs of `t` rows are legal for a task, and so is the one of the rest. -/
def HeightOk (t : MmTaskF16 R) (h : Nat) : Prop :=
  orkiF16McOk t.w.K t.w.N (orkiF16Sched t.w.K) h = true ∧
    (t.M % h = 0 ∨ orkiF16McOk t.w.K t.w.N (orkiF16Sched t.w.K) (t.M % h) = true)

instance (t : MmTaskF16 R) (h : Nat) : Decidable (HeightOk t h) := inferInstanceAs (Decidable (_ ∧ _))

/-- What the check tells the runner. -/
structure Checked where
  cap : Nat
  maxM : Nat
  uniform : Bool
  deriving DecidableEq

/-- `f16_stream_check`, over the tasks with their cubes built; the tile search goes down from the larger of the bounds. -/
def f16StreamCheck (e : F16Knobs) (hard S : Nat) (tasks : Nat → MmTaskF16 R) : Option Checked :=
  if ∃ i < S, ¬ Accepts (tasks i) then none
  else
    let mx := maxRows S tasks
    let c0 := minCap e hard S tasks
    let tile := Nat.findGreatest (fun h => ∀ i < S, HeightOk (tasks i) h) (if mx < c0 then mx else c0)
    if tile < 1 then none else some ⟨tile, mx, decide (∀ i < S, (tasks i).M = (tasks 0).M)⟩

/-- Rows `m0` to `m0 + mc` of a task. -/
def MmTaskF16.rows (t : MmTaskF16 R) (m0 mc : Nat) : MmTaskF16 R :=
  { t with M := mc, A := fun x => t.A (m0 * t.w.K + x) }

/-- The sub-batch of row block `j`. -/
def block (k : Checked) (tasks : Nat → MmTaskF16 R) (j i : Nat) : MmTaskF16 R :=
  (tasks i).rows (j * k.cap) (pieceLen k.maxM k.cap j)

/-- What a runner leaves: its result, the arrays of the tasks, and what it issued. -/
structure Ran (P R : Type*) where
  ret : Int
  C : Nat → Nat → R
  issued : List P

variable {E P : Type*}

/-- A row block has been run: its arrays start in the middle of those of the batch. -/
def Ran.join (k : Checked) (tasks : Nat → MmTaskF16 R) (j : Nat) (r s : Ran P R) : Ran P R where
  ret := s.ret
  C i y := if j * k.cap * (tasks i).w.N ≤ y then s.C i (y - j * k.cap * (tasks i).w.N) else r.C i y
  issued := r.issued ++ s.issued

/-- The loop body of `f16_stream_mtile`. -/
def mtileStep (k : Checked) (tasks : Nat → MmTaskF16 R)
    (fn : Nat → (Nat → MmTaskF16 R) → (Nat → Nat → R) → Option (Ran P R)) (r : Ran P R) (j : Nat) : Option (Ran P R) :=
  if r.ret ≠ 0 then some r
  else (fn j (block k tasks j) fun i x => r.C i (j * k.cap * (tasks i).w.N + x)).map (r.join k tasks j)

/-- `f16_stream_mtile` -/
def f16StreamMtile (k : Checked) (tasks : Nat → MmTaskF16 R)
    (fn : Nat → (Nat → MmTaskF16 R) → (Nat → Nat → R) → Option (Ran P R)) (C : Nat → Nat → R) : Option (Ran P R) :=
  if k.uniform = false then some ⟨-2, C, []⟩
  else (List.range (pieces k.maxM k.cap)).foldlM (mtileStep k tasks fn) ⟨0, C, []⟩

/-- What sets the two streams apart: the limit they add, and what they do with a batch that needs no row blocks. `E` is
what a call finds. -/
structure Runner (E P R : Type*) where
  hard : Nat
  bfull : E → BfullEnv R
  body : E → Nat → (Nat → MmTaskF16 R) → (Nat → Nat → R) → Ran P R

/-- A stream, as it calls itself on row blocks, at most `fuel` calls deep. `env` tells what each call finds, by the numbers
of the row blocks it is for. -/
def Runner.run (x : Runner E P R) (c : OrkNpu) (e : F16Knobs) (S : Nat) :
    Nat → (List Nat → E) → (Nat → MmTaskF16 R) → (Nat → Nat → R) → Option (Ran P R)
  | 0, _, _, _ => none
  | fuel + 1, env, tasks, C =>
    if S < 1 then some ⟨-2, C, []⟩
    else
      let tasks := built c e (x.bfull (env [])) S tasks
      match f16StreamCheck e x.hard S tasks with
      | none => some ⟨-2, C, []⟩
      | some k =>
        if k.cap < k.maxM then f16StreamMtile k tasks (fun j => x.run c e S fuel fun p => env (j :: p)) C
        else some (x.body (env []) S tasks C)

end OrkDriver.F16Stream
