import OrkDriver.Submit.Groups

/-!
`ork_submit_seq` of `npu.c`, run on the device itself: neighbours that may ride the doorbell are gathered into one
submit, labelled runs go out as chains, and everything else runs alone.
-/

namespace OrkDriver.Submit

open OrkDriver.Pack

/-! ### What it calls -/

/-- The driver under the scheduler, on the state `σ` of everything behind the context. Of a handle of `ork_dyn_begin_mc`
its number of entries is kept. -/
structure Driver (σ : Type*) where
  lastDt : σ → Int
  enter : σ → Int → Profile → ChainKind → σ
  beginMc : σ → List SeqOp → σ × Option Nat
  dynEnd : σ → σ × Int
  ensureWitness : σ → σ × Option SeqWeight
  beginSeqMc : σ → List SeqOp → List Nat → σ × Bool
  seqEnd : σ → σ × Int
  run : σ → Routine → SeqOp → σ × Int

/-- What was run: a doorbell submit with the entries of its handle, a chain, or a routine on one operation; each with what
it returned. -/
inductive Event
  | doorbell (ops : List SeqOp) (entries : Nat) (rc : Int)
  | chain (ops : List SeqOp) (rc : Int)
  | ran (r : Routine) (o : SeqOp) (rc : Int)

/-- The variables of the loop, with the device and what was run. -/
structure SeqLoop (σ : Type*) where
  dev : σ
  batch : List SeqOp
  bdom : Int
  bdt : Dt
  ret : Int
  log : List Event

variable {σ : Type*} (d : Driver σ)

/-! ### One operation -/

/-- Entering a mode and running one routine there. -/
def runOne (s : SeqLoop σ) (marker : Int) (profile : Profile) (r : Routine) (o : SeqOp) : SeqLoop σ :=
  let x := d.run (d.enter s.dev marker profile .sw) r o
  { s with dev := x.1, ret := if x.2 ≠ 0 then -1 else s.ret, log := s.log ++ [.ran r o x.2] }

/-- The dispatch by `SEQ_CLASS`. -/
def dispatch (s : SeqLoop σ) (k : OrkOp) (o : SeqOp) : SeqLoop σ :=
  let cl := seqClass k
  let dev := d.enter s.dev (cl.marker.getD (d.lastDt s.dev)) cl.profile cl.chain
  match cl.fn with
  | none => { s with dev, ret := -3 }
  | some r =>
    let x := d.run dev r o
    { s with dev := x.1, ret := if x.2 ≠ 0 then -1 else s.ret, log := s.log ++ [.ran r o x.2] }

/-! ### The doorbell batch -/

/-- The fall-back for one operation of a batch. -/
def runBatched (s : SeqLoop σ) (o : SeqOp) : SeqLoop σ :=
  if s.ret ≠ 0 then s
  else
    match s.bdt with
    | .f16 => runOne d s 0 .streamF16 .f16MmRunStream o
    | .i4 => runOne d s 5 .i4Stream .i4MmRunStream o
    | .i8 => runOne d s 1 .mcMm .i8MmRun o

/-- `SEQ_FLUSH_HW`; what `ork_dyn_end` returns is not looked at. -/
def seqFlushHw (s : SeqLoop σ) : SeqLoop σ :=
  if s.batch = [] then s
  else
    let x := d.beginMc s.dev s.batch
    match x.2 with
    | some entries =>
      let y := d.dynEnd x.1
      { s with dev := y.1, batch := [], log := s.log ++ [.doorbell s.batch entries y.2] }
    | none => { s.batch.foldl (runBatched d) { s with dev := x.1 } with batch := [] }

/-- The domain and the kind of an operation's weight, 0 and int8 without one. -/
def opDomain (o : SeqOp) : Int := (o.w.map SeqWeight.domain).getD 0

def opDtype (o : SeqOp) : Dt := (o.w.map SeqWeight.dtype).getD .i8

/-- The batch takes the operation, and its domain and kind if it is the first. -/
def joinBatch (s : SeqLoop σ) (o : SeqOp) : SeqLoop σ :=
  let s := if s.batch = [] then { s with bdom := opDomain o, bdt := opDtype o } else s
  { s with batch := s.batch ++ [o] }

/-- An operation that may ride the doorbell joins the batch, which goes out first if it is another's or full. -/
def enqueue (s : SeqLoop σ) (o : SeqOp) : SeqLoop σ :=
  joinBatch (if s.batch ≠ [] ∧ (opDomain o ≠ s.bdom ∨ opDtype o ≠ s.bdt ∨ hwBatch ≤ s.batch.length) then
    seqFlushHw d s else s) o

/-- Any other operation: the batch goes out, then the operation by itself. -/
def breakHw (s : SeqLoop σ) (k : OrkOp) (o : SeqOp) : SeqLoop σ :=
  let s := seqFlushHw d s
  if s.ret ≠ 0 then s else dispatch d s k o

/-! ### A grouped run -/

/-- `ork_i8_dyn_begin_seq_mc` on a run, with its witnesses if it needs them; the outer option is none when a table is
written past its end. -/
def beginRun (dev : σ) (run : List SeqOp) : Option (σ × Bool) :=
  (groupStarts run).bind fun gs =>
    if ((List.range (gs.length - 1)).map (groupOps run gs)).any needsWitness then
      match d.ensureWitness dev with
      | (dev, none) => some (dev, false)
      | (dev, some ww) =>
        (augment ww run gs).map fun a => if a.full then (dev, false) else d.beginSeqMc dev a.ao a.ags
    else some (if run.length ≤ hwBatch then d.beginSeqMc dev run gs else (dev, false))

/-- The fall-back for one operation of a run, none where `SEQ_CLASS` is read outside its rows: every operation that may
ride the doorbell and is refused there goes to the int8 routine. -/
def runGrouped (s : SeqLoop σ) (o : SeqOp) : Option (SeqLoop σ) :=
  if s.ret ≠ 0 then some s
  else
    match o.kind with
    | none => none
    | some k =>
      if (seqClass k).hw && seqHwOk o then
        let x := d.beginMc s.dev [o]
        match x.2 with
        | some entries =>
          let y := d.dynEnd x.1
          some { s with dev := y.1, log := s.log ++ [.doorbell [o] entries y.2] }
        | none => some (runOne d { s with dev := x.1 } 1 .mcMm .i8MmRun o)
      else some (dispatch d s k o)

/-- A grouped run: as chains, or else one by one. -/
def groupedRun (s : SeqLoop σ) (run : List SeqOp) : Option (SeqLoop σ) :=
  (beginRun d s.dev run).bind fun x =>
    if x.2 then
      let y := d.seqEnd x.1
      some { s with dev := y.1, ret := if y.2 ≠ 0 then -1 else s.ret, log := s.log ++ [.chain run y.2] }
    else run.foldlM (runGrouped d) { s with dev := x.1 }

/-! ### The loop -/

/-- `group > 0`. -/
def grouped (o : SeqOp) : Bool := 0 < o.group

/-- The loop of `ork_submit_seq` over the operations left. -/
def seqLoop : List SeqOp → SeqLoop σ → Option (SeqLoop σ)
  | [], s => some s
  | o :: rest, s =>
    if s.ret ≠ 0 then some s
    else
      match o.kind with
      | none => some { s with ret := -2 }
      | some k =>
        if grouped o then
          let s := seqFlushHw d s
          if s.ret ≠ 0 then some s
          else (groupedRun d s (o :: rest.takeWhile grouped)).bind (seqLoop (rest.dropWhile grouped))
        else if (seqClass k).hw && seqHwOk o then seqLoop rest (enqueue d s o)
        else seqLoop rest (breakHw d s k o)
termination_by ops => ops.length
decreasing_by
  · exact Nat.lt_succ_of_le (List.dropWhile_sublist _).length_le
  · exact Nat.lt_succ_self _
  · exact Nat.lt_succ_self _

/-- The loop's variables at the start. -/
def seqStart (dev : σ) : SeqLoop σ := ⟨dev, [], 0, .f16, 0, []⟩

/-- `ork_submit_seq`, with `n` operations; none where it leaves its tables. -/
def orkSubmitSeq (dev : σ) (ops : List SeqOp) : Option (SeqLoop σ) := (seqLoop d ops (seqStart dev)).map (seqFlushHw d)

/-! ### The loop by segments -/

/-- The list cut into its maximal grouped runs and the single operations between them. -/
def segments : List SeqOp → List (List SeqOp)
  | [] => []
  | o :: rest =>
    if grouped o then (o :: rest.takeWhile grouped) :: segments (rest.dropWhile grouped) else [o] :: segments rest
termination_by ops => ops.length
decreasing_by
  · exact Nat.lt_succ_of_le (List.dropWhile_sublist _).length_le
  · exact Nat.lt_succ_self _

/-- What the loop does with one segment. -/
def seqStep (s : SeqLoop σ) : List SeqOp → Option (SeqLoop σ)
  | [] => some s
  | o :: rest =>
    if s.ret ≠ 0 then some s
    else
      match o.kind with
      | none => some { s with ret := -2 }
      | some k =>
        if grouped o then
          let s := seqFlushHw d s
          if s.ret ≠ 0 then some s else groupedRun d s (o :: rest)
        else if (seqClass k).hw && seqHwOk o then some (enqueue d s o)
        else some (breakHw d s k o)

theorem seqStep_of_ret {s : SeqLoop σ} (h : s.ret ≠ 0) (seg : List SeqOp) : seqStep d s seg = some s := by
  cases seg with
  | nil => rfl
  | cons o rest => rw [seqStep, if_pos h]

theorem foldlM_seqStep_of_ret {s : SeqLoop σ} (h : s.ret ≠ 0) (segs : List (List SeqOp)) :
    segs.foldlM (seqStep d) s = some s := by
  induction segs with
  | nil => rfl
  | cons seg segs ih =>
    rw [List.foldlM_cons, seqStep_of_ret d h]
    exact ih

/-- The loop takes its segments one after another. -/
theorem seqLoop_eq (ops : List SeqOp) (s : SeqLoop σ) : seqLoop d ops s = (segments ops).foldlM (seqStep d) s := by
  induction ops using segments.induct generalizing s with
  | case1 => simp [seqLoop, segments]
  | case2 o rest hg ih =>
    rw [seqLoop, segments, if_pos hg, List.foldlM_cons, seqStep]
    by_cases hret : s.ret = 0
    · rw [if_neg (not_not.mpr hret), if_neg (not_not.mpr hret)]
      cases o.kind with
      | none => exact (foldlM_seqStep_of_ret d (by simp) _).symm
      | some k =>
        dsimp only
        rw [if_pos hg, if_pos hg]
        split_ifs with hflush
        · exact (foldlM_seqStep_of_ret d hflush _).symm
        · cases groupedRun d (seqFlushHw d s) (o :: rest.takeWhile grouped) with
          | none => rfl
          | some s' => exact ih s'
    · rw [if_pos hret, if_pos hret]
      exact (foldlM_seqStep_of_ret d hret _).symm
  | case3 o rest hg ih =>
    rw [seqLoop, segments, if_neg hg, List.foldlM_cons, seqStep]
    by_cases hret : s.ret = 0
    · rw [if_neg (not_not.mpr hret), if_neg (not_not.mpr hret)]
      cases o.kind with
      | none => exact (foldlM_seqStep_of_ret d (by simp) _).symm
      | some k =>
        dsimp only
        rw [if_neg hg, if_neg hg]
        split_ifs with hhw
        · exact ih _
        · exact ih _
    · rw [if_pos hret, if_pos hret]
      exact (foldlM_seqStep_of_ret d hret _).symm

theorem flatten_segments (ops : List SeqOp) : (segments ops).flatten = ops := by
  induction ops using segments.induct with
  | case1 => rw [segments]; rfl
  | case2 o rest hg ih =>
    rw [segments, if_pos hg, List.flatten_cons, ih, List.cons_append, List.takeWhile_append_dropWhile]
  | case3 o rest hg ih =>
    rw [segments, if_neg hg, List.flatten_cons, ih]
    rfl

end OrkDriver.Submit
