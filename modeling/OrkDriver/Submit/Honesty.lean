import OrkDriver.Submit.Sequence

/-!
What `ork_submit_seq` promises with a zero: every operation ran, in order, and nothing that ran failed. Which operation
lists keep the promise is a matter of their segments alone; here the ones that do.
-/

namespace OrkDriver.Submit

open OrkDriver.Pack

/-! ### The promise -/

namespace Event

/-- The operations an event serves. -/
def ops : Event → List SeqOp
  | .doorbell ops _ _ => ops
  | .chain ops _ => ops
  | .ran _ o _ => [o]

/-- It completed: `ork_dyn_end` returns the number of the last entry of its handle, everything else 0. -/
def Good : Event → Prop
  | .doorbell _ entries rc => rc + 1 = entries
  | .chain _ rc => rc = 0
  | .ran _ _ rc => rc = 0

/-- A routine gets operations of its own kind of tensor. -/
def Fits : Event → Prop
  | .ran r o _ => o.kind.map OrkOp.elem = some r.elem
  | _ => True

end Event

/-- A call stays in its tables, answers 0 only when every operation was served and completed, and gives no routine an
operation of another kind. -/
def Honest {σ : Type*} (d : Driver σ) (dev : σ) (ops : List SeqOp) : Prop :=
  ∃ s, orkSubmitSeq d dev ops = some s ∧
    (s.ret = 0 → s.log.flatMap Event.ops = ops ∧ ∀ e ∈ s.log, e.Good) ∧ ∀ e ∈ s.log, e.Fits

/-! ### What a list lets happen -/

/-- `SEQ_CLASS` has a routine for it. -/
def dispatchable (o : SeqOp) : Bool := (o.kind.bind fun k => (seqClass k).fn).isSome

/-- A segment that some device serves. -/
def Passable : List SeqOp → Prop
  | [] => True
  | o :: rest =>
    if grouped o then o.kind.isSome ∧ (groupsOf (o :: rest)).length ≤ hwBatch ∧
      (sealedLength (groupsOf (o :: rest)) ≤ hwBatch ∨ ∀ p ∈ o :: rest, dispatchable p)
    else dispatchable o

/-- A grouped run that stays in its tables on every device, and gives the int8 routine int8 matmuls only: `ops` are those
the fall-back can reach, up to the first without a routine. -/
structure SaneRun (run : List SeqOp) : Prop where
  groups : (groupsOf run).length ≤ hwBatch
  int8 : ∀ o ∈ run.takeWhile dispatchable, seqHwOk o = true → o.kind = some .mmI8
  known : ∀ o ∈ (run.dropWhile dispatchable).head?, o.kind.isSome

def Sane : List SeqOp → Prop
  | [] => True
  | o :: rest => o.kind.isSome → grouped o → SaneRun (o :: rest)

/-- A segment in which nothing rings the doorbell, unless it fails anyway. -/
def Quiet : List SeqOp → Prop
  | [] => True
  | o :: rest =>
    if grouped o then (∀ p ∈ o :: rest, dispatchable p) → ∀ p ∈ o :: rest, seqHwOk p = false
    else seqHwOk o = false

/-- Every segment reached is sane; and where every segment can be served, none rings the doorbell. -/
def Silent (ops : List SeqOp) : Prop :=
  (∀ pre seg post, segments ops = pre ++ seg :: post → (∀ s ∈ pre, Passable s) → Sane seg) ∧
    ((∀ s ∈ segments ops, Passable s) → ∀ s ∈ segments ops, Quiet s)

theorem dispatchable_of_seqHwOk {o : SeqOp} (h : seqHwOk o = true) : dispatchable o = true := by
  obtain ⟨k, w, hk, -, hhw, -⟩ := seqClass_hw_of_seqHwOk h
  rw [dispatchable, hk]
  exact seqClass_fn_of_hw hhw

theorem hw_of_seqHwOk {o : SeqOp} {k : OrkOp} (hk : o.kind = some k) :
    ((seqClass k).hw && seqHwOk o) = seqHwOk o := by
  cases h : seqHwOk o with
  | false => exact Bool.and_false _
  | true =>
    obtain ⟨k', w, hk', -, hhw, -⟩ := seqClass_hw_of_seqHwOk h
    obtain rfl : k = k' := Option.some.inj (hk.symm.trans hk')
    rw [hhw]
    rfl

/-! ### Fitting routines -/

variable {σ : Type*} {d : Driver σ} {s s' : SeqLoop σ}

/-- Every routine so far fits, and the batch holds operations of one kind. -/
structure Fit (s : SeqLoop σ) : Prop where
  log : ∀ e ∈ s.log, e.Fits
  batch : ∀ o ∈ s.batch, seqHwOk o = true ∧ o.w.map SeqWeight.dtype = some s.bdt

theorem forall_mem_concat {α : Type*} {P : α → Prop} {l : List α} {a : α} (h : ∀ e ∈ l, P e) (ha : P a) :
    ∀ e ∈ l ++ [a], P e := by
  intro e he
  rcases List.mem_append.mp he with he | he
  · exact h e he
  · rwa [List.mem_singleton.mp he]

theorem kind_elem_of_seqHwOk {o : SeqOp} {dt : Dt} (h : seqHwOk o = true) (hdt : o.w.map SeqWeight.dtype = some dt) :
    o.kind.map OrkOp.elem = some (elemOf dt) := by
  obtain ⟨k, w, hk, hw, -, helem⟩ := seqClass_hw_of_seqHwOk h
  rw [hw] at hdt
  obtain rfl := Option.some.inj hdt
  rw [hk, Option.map_some, ← helem]

/-- The fall-back of a batch chooses its routine by the batch's kind. -/
theorem runBatched_fits (hlog : ∀ e ∈ s.log, e.Fits) {o : SeqOp} (ho : seqHwOk o = true)
    (hdt : o.w.map SeqWeight.dtype = some s.bdt) :
    (∀ e ∈ (runBatched d s o).log, e.Fits) ∧ (runBatched d s o).bdt = s.bdt := by
  have helem := kind_elem_of_seqHwOk ho hdt
  unfold runBatched
  split_ifs
  · exact ⟨hlog, rfl⟩
  · cases hb : s.bdt <;> rw [hb] at helem <;> exact ⟨forall_mem_concat hlog helem, hb⟩

theorem foldl_runBatched_fits (ops : List SeqOp) (hlog : ∀ e ∈ s.log, e.Fits)
    (hops : ∀ o ∈ ops, seqHwOk o = true ∧ o.w.map SeqWeight.dtype = some s.bdt) :
    ∀ e ∈ (ops.foldl (runBatched d) s).log, e.Fits := by
  induction ops generalizing s with
  | nil => exact hlog
  | cons o ops ih =>
    obtain ⟨ho, hdt⟩ := hops o List.mem_cons_self
    obtain ⟨hlog', hbdt⟩ := runBatched_fits (d := d) hlog ho hdt
    exact ih hlog' fun p hp => by rw [hbdt]; exact hops p (List.mem_cons_of_mem o hp)

theorem batch_seqFlushHw (s : SeqLoop σ) : (seqFlushHw d s).batch = [] := by
  unfold seqFlushHw
  split_ifs with h
  · exact h
  · dsimp only
    split <;> rfl

theorem seqFlushHw_of_nil (h : s.batch = []) : seqFlushHw d s = s := by rw [seqFlushHw, if_pos h]

theorem Fit.flush (h : Fit s) : Fit (seqFlushHw d s) := by
  refine ⟨?_, fun o ho => ?_⟩
  swap
  · rw [batch_seqFlushHw] at ho
    exact absurd ho List.not_mem_nil
  unfold seqFlushHw
  split_ifs
  · exact h.log
  · dsimp only
    split
    · exact forall_mem_concat h.log trivial
    · exact foldl_runBatched_fits _ h.log h.batch

theorem Fit.dispatch (h : Fit s) {k : OrkOp} {o : SeqOp} (hk : o.kind = some k) : Fit (dispatch d s k o) := by
  unfold Submit.dispatch
  dsimp only
  split
  · exact ⟨h.log, h.batch⟩
  · rename_i r hr
    exact ⟨forall_mem_concat h.log (by rw [Event.Fits, hk, Option.map_some, seqClass_elem hr]), h.batch⟩

theorem Fit.breakHw (h : Fit s) {k : OrkOp} {o : SeqOp} (hk : o.kind = some k) : Fit (breakHw d s k o) := by
  unfold Submit.breakHw
  dsimp only
  split_ifs
  · exact h.flush
  · exact h.flush.dispatch hk

theorem Fit.joinBatch (h : Fit s) {o : SeqOp} (ho : seqHwOk o = true) (hdt : s.batch ≠ [] → opDtype o = s.bdt) :
    Fit (joinBatch s o) := by
  obtain ⟨k, w, -, hw, -, -⟩ := seqClass_hw_of_seqHwOk ho
  have hown : o.w.map SeqWeight.dtype = some (opDtype o) := by rw [opDtype, hw]; rfl
  unfold Submit.joinBatch
  dsimp only
  split_ifs with hb
  · refine ⟨h.log, forall_mem_concat ?_ ⟨ho, hown⟩⟩
    dsimp only
    rw [hb]
    exact fun _ h => absurd h List.not_mem_nil
  · exact ⟨h.log, forall_mem_concat h.batch ⟨ho, hdt hb ▸ hown⟩⟩

/-- The batch takes an operation of its own kind, or starts anew. -/
theorem Fit.enqueue (h : Fit s) {o : SeqOp} (ho : seqHwOk o = true) : Fit (enqueue d s o) := by
  unfold Submit.enqueue
  split_ifs with hflush
  · exact h.flush.joinBatch ho fun hb => absurd (batch_seqFlushHw s) hb
  · refine h.joinBatch ho fun hb => ?_
    by_contra hne
    exact hflush ⟨hb, .inr (.inl hne)⟩

/-! ### A grouped run -/

theorem sealedLength_of_any (groups : List (List SeqOp)) (h : groups.any needsWitness = false) :
    sealedLength groups = groups.flatten.length := by
  induction groups with
  | nil => rfl
  | cons ops groups ih =>
    rw [List.any_cons, Bool.or_eq_false_iff] at h
    have hrest := ih h.2
    simp only [sealedLength] at hrest
    simp [sealedLength, h.1, hrest]

/-- Starting a run whose groups fit the table: it is refused if it does not fit a batch with its witnesses. -/
theorem beginRun_total (dev : σ) {run : List SeqOp} (hne : run ≠ []) (hg : (groupsOf run).length ≤ hwBatch) :
    ∃ x, beginRun d dev run = some x ∧ (hwBatch < sealedLength (groupsOf run) → x.2 = false) := by
  unfold beginRun
  rw [groupStarts_eq hne, if_pos hg, Option.bind_some, map_groupOps]
  split_ifs with hneed
  · cases hw : d.ensureWitness dev with
    | mk dev' w =>
      cases w with
      | none => exact ⟨_, rfl, fun _ => rfl⟩
      | some ww =>
        obtain ⟨a, ha, hfill⟩ := augment_cuts ww run hg
        dsimp only
        rw [ha, Option.map_some]
        refine ⟨_, rfl, fun hlong => ?_⟩
        rw [if_pos (hfill.overflow.mpr hlong)]
  · have hflat : (groupsOf run).flatten = run := List.flatten_splitBy _ _
    refine ⟨_, rfl, fun hlong => absurd hlong ?_⟩
    rw [sealedLength_of_any _ (by simpa using hneed), hflat]
    omega
  · exact ⟨_, rfl, fun _ => rfl⟩

/-! ### The fall-back of a run -/

theorem foldlM_runGrouped_of_ret (h : s.ret ≠ 0) (ops : List SeqOp) : ops.foldlM (runGrouped d) s = some s := by
  induction ops with
  | nil => rfl
  | cons o ops ih =>
    rw [List.foldlM_cons, runGrouped, if_pos h]
    exact ih

/-- What was run answers for the operations `done` as long as nothing failed. -/
structure Clean (done : List SeqOp) (s : SeqLoop σ) : Prop where
  served : s.ret = 0 → s.log.flatMap Event.ops = done
  good : s.ret = 0 → ∀ e ∈ s.log, e.Good

theorem Clean.event {done : List SeqOp} (h : Clean done s) {e : Event} (hlog : s'.log = s.log ++ [e])
    (hret : s'.ret = 0 → s.ret = 0 ∧ e.Good) : Clean (done ++ e.ops) s' := by
  constructor
  · intro h0
    rw [hlog, List.flatMap_append, h.served (hret h0).1, List.flatMap_singleton]
  · intro h0
    rw [hlog]
    exact forall_mem_concat (h.good (hret h0).1) (hret h0).2

/-- After a failure nothing has to be answered for. -/
theorem clean_of_ret (h : s.ret ≠ 0) (done : List SeqOp) : Clean done s :=
  ⟨fun h0 => absurd h0 h, fun h0 => absurd h0 h⟩

theorem ret_of_run {rc ret : Int} (h : (if rc ≠ 0 then -1 else ret) = 0) : ret = 0 ∧ rc = 0 := by
  by_cases hrc : rc = 0
  · rw [if_neg (not_not.mpr hrc)] at h
    exact ⟨h, hrc⟩
  · rw [if_pos hrc] at h
    cases h

theorem batch_dispatch (s : SeqLoop σ) (k : OrkOp) (o : SeqOp) : (dispatch d s k o).batch = s.batch := by
  unfold dispatch
  dsimp only
  split <;> rfl

theorem ret_dispatch {k : OrkOp} {o : SeqOp} (hk : o.kind = some k) (h : (dispatch d s k o).ret = 0) :
    dispatchable o = true := by
  unfold dispatch at h
  dsimp only at h
  split at h
  · cases h
  · rename_i r hr
    rw [dispatchable, hk, Option.bind_some, hr]
    rfl

theorem Clean.dispatch {done : List SeqOp} (h : Clean done s) {k : OrkOp} {o : SeqOp} :
    Clean (done ++ [o]) (dispatch d s k o) := by
  unfold Submit.dispatch
  dsimp only
  split
  · exact clean_of_ret (by simp) _
  · rename_i r hr
    exact h.event (e := .ran r o _) rfl ret_of_run

/-- One operation of a run by the fall-back. -/
theorem runGrouped_spec (hret : s.ret = 0) {o : SeqOp} {k : OrkOp} (hk : o.kind = some k)
    (hint8 : seqHwOk o = true → o.kind = some .mmI8) (hfit : Fit s) :
    ∃ s', runGrouped d s o = some s' ∧ Fit s' ∧ s'.batch = s.batch ∧ (s'.ret = 0 → dispatchable o = true) ∧
      ∀ done, seqHwOk o = false → Clean done s → Clean (done ++ [o]) s' := by
  unfold runGrouped
  rw [if_neg (not_not.mpr hret), hk]
  dsimp only
  rw [hw_of_seqHwOk hk]
  split_ifs with hok
  · cases hb : (d.beginMc s.dev [o]).2 with
    | some entries =>
      exact ⟨_, rfl, ⟨forall_mem_concat hfit.log trivial, hfit.batch⟩, rfl, fun _ => dispatchable_of_seqHwOk hok,
        fun _ hno => absurd (hok.symm.trans hno) (by simp)⟩
    | none =>
      have hfits : Event.Fits (.ran .i8MmRun o (d.run (d.enter (d.beginMc s.dev [o]).1 1 .mcMm .sw) .i8MmRun o).2) := by
        rw [Event.Fits, hint8 hok]
        rfl
      exact ⟨_, rfl, ⟨forall_mem_concat hfit.log hfits, hfit.batch⟩, rfl, fun _ => dispatchable_of_seqHwOk hok,
        fun _ hno => absurd (hok.symm.trans hno) (by simp)⟩
  · exact ⟨_, rfl, hfit.dispatch hk, batch_dispatch s k o, ret_dispatch hk, fun _ _ hc => hc.dispatch⟩

/-- The fall-back over a run whose reachable operations are int8 matmuls or dispatched: it ends well only with a routine
for each, and then, if none rang the doorbell, each was served. -/
theorem fallback (ops : List SeqOp) (hint8 : ∀ o ∈ ops.takeWhile dispatchable, seqHwOk o = true → o.kind = some .mmI8)
    (hknown : ∀ o ∈ (ops.dropWhile dispatchable).head?, o.kind.isSome) (hfit : Fit s) :
    ∃ s', ops.foldlM (runGrouped d) s = some s' ∧ Fit s' ∧ s'.batch = s.batch ∧
      (s'.ret = 0 → ∀ o ∈ ops, dispatchable o = true) ∧
      ∀ done, (∀ o ∈ ops, seqHwOk o = false) → Clean done s → Clean (done ++ ops) s' := by
  induction ops generalizing s with
  | nil =>
    exact ⟨s, rfl, hfit, rfl, fun _ _ h => absurd h List.not_mem_nil, fun done _ hc => by rwa [List.append_nil]⟩
  | cons o ops ih =>
    by_cases hret : s.ret = 0
    · have hkind : o.kind.isSome := by
        cases hd : dispatchable o with
        | false => exact hknown o (by simp [hd])
        | true =>
          rw [dispatchable] at hd
          cases hk : o.kind with
          | none => rw [hk] at hd; cases hd
          | some k => rfl
      obtain ⟨k, hk⟩ := Option.isSome_iff_exists.mp hkind
      have hthis : seqHwOk o = true → o.kind = some .mmI8 := fun hok =>
        hint8 o (by simp [dispatchable_of_seqHwOk hok]) hok
      obtain ⟨t, ht, htfit, htb, htret, htc⟩ := runGrouped_spec (d := d) hret hk hthis hfit
      rw [List.foldlM_cons, ht]
      by_cases ht0 : t.ret = 0
      · have hd := htret ht0
        rw [List.takeWhile_cons, if_pos hd] at hint8
        rw [List.dropWhile_cons, if_pos hd] at hknown
        obtain ⟨s', hs', hfit', hb', hret', hc'⟩ := ih (fun p hp => hint8 p (List.mem_cons_of_mem o hp)) hknown htfit
        refine ⟨s', hs', hfit', hb'.trans htb, fun h0 => ?_, fun done hno hc => ?_⟩
        · exact List.forall_mem_cons.mpr ⟨hd, hret' h0⟩
        · have := hc' (done ++ [o]) (fun p hp => hno p (List.mem_cons_of_mem o hp))
            (htc done (hno o List.mem_cons_self) hc)
          rwa [List.append_assoc] at this
      · refine ⟨t, foldlM_runGrouped_of_ret ht0 ops, htfit, htb, fun h0 => absurd h0 ht0, fun done _ _ => ?_⟩
        exact clean_of_ret ht0 _
    · exact ⟨s, foldlM_runGrouped_of_ret hret _, hfit, rfl, fun h0 => absurd h0 hret, fun done _ _ => clean_of_ret hret _⟩

/-- A sane run: it ends well only if it fits a batch or every operation has a routine. -/
theorem groupedRun_spec {run : List SeqOp} (hne : run ≠ []) (hsane : SaneRun run) (hfit : Fit s) :
    ∃ s', groupedRun d s run = some s' ∧ Fit s' ∧ s'.batch = s.batch ∧
      (s'.ret = 0 → sealedLength (groupsOf run) ≤ hwBatch ∨ ∀ o ∈ run, dispatchable o = true) ∧
      ∀ done, ((∀ o ∈ run, dispatchable o = true) → ∀ o ∈ run, seqHwOk o = false) → Clean done s →
        Clean (done ++ run) s' := by
  obtain ⟨x, hx, hlong⟩ := beginRun_total (d := d) s.dev hne hsane.groups
  unfold groupedRun
  rw [hx, Option.bind_some]
  split_ifs with hbegun
  · refine ⟨_, rfl, ⟨forall_mem_concat hfit.log trivial, hfit.batch⟩, rfl, fun _ => .inl ?_, fun done _ hc => ?_⟩
    · by_contra h
      rw [hlong (not_le.mp h)] at hbegun
      cases hbegun
    · exact hc.event (e := .chain run _) rfl ret_of_run
  · have hfit' : Fit { s with dev := x.1 } := ⟨hfit.log, hfit.batch⟩
    obtain ⟨s', hs', hf', hb', hret', hc'⟩ := fallback (d := d) run hsane.int8 hsane.known hfit'
    refine ⟨s', hs', hf', hb', fun h0 => .inr (hret' h0), fun done hquiet hc => ?_⟩
    by_cases h0 : s'.ret = 0
    · exact hc' done (hquiet (hret' h0)) ⟨hc.served, hc.good⟩
    · exact clean_of_ret h0 _

/-! ### The whole list -/

/-- A single operation is a segment of its own. -/
theorem mem_segments {ops seg : List SeqOp} (h : seg ∈ segments ops) :
    ∃ o rest, seg = o :: rest ∧ (grouped o = false → rest = []) := by
  induction ops using segments.induct with
  | case1 => rw [segments] at h; cases h
  | case2 o rest hg ih =>
    rw [segments, if_pos hg] at h
    rcases List.mem_cons.mp h with rfl | h
    · exact ⟨o, _, rfl, fun hno => absurd (hg.symm.trans hno) (by simp)⟩
    · exact ih h
  | case3 o rest hg ih =>
    rw [segments, if_neg hg] at h
    rcases List.mem_cons.mp h with rfl | h
    · exact ⟨o, [], rfl, fun _ => rfl⟩
    · exact ih h

theorem Clean.flush {done : List SeqOp} (h : Clean done s) (hb : s.batch = []) : Clean done (seqFlushHw d s) := by
  rwa [seqFlushHw_of_nil hb]

theorem Clean.breakHw {done : List SeqOp} (h : Clean done s) (hb : s.batch = []) {k : OrkOp} {o : SeqOp} :
    Clean (done ++ [o]) (breakHw d s k o) := by
  unfold Submit.breakHw
  rw [seqFlushHw_of_nil hb]
  dsimp only
  split_ifs with hret
  · exact clean_of_ret hret _
  · exact h.dispatch

theorem batch_breakHw (s : SeqLoop σ) (k : OrkOp) (o : SeqOp) : (breakHw d s k o).batch = [] := by
  unfold breakHw
  dsimp only
  split_ifs
  · exact batch_seqFlushHw s
  · rw [batch_dispatch]
    exact batch_seqFlushHw s

/-- One segment: a sane one keeps to the tables and to fitting routines, ends well only if it can be served, and if it
rings no doorbell was served when it ends well. -/
theorem seqStep_spec (hret : s.ret = 0) {o : SeqOp} {rest : List SeqOp} (halone : grouped o = false → rest = [])
    (hsane : Sane (o :: rest)) (hfit : Fit s) :
    ∃ s', seqStep d s (o :: rest) = some s' ∧ Fit s' ∧ (s'.ret = 0 → Passable (o :: rest)) ∧
      ∀ done, Quiet (o :: rest) → s.batch = [] → Clean done s →
        (s'.ret = 0 → s'.batch = []) ∧ Clean (done ++ (o :: rest)) s' := by
  rw [seqStep, if_neg (not_not.mpr hret)]
  cases hk : o.kind with
  | none =>
    have hbad : (-2 : Int) ≠ 0 := by decide
    exact ⟨_, rfl, ⟨hfit.log, hfit.batch⟩, fun h0 => absurd h0 hbad,
      fun done _ _ _ => ⟨fun h0 => absurd h0 hbad, clean_of_ret hbad _⟩⟩
  | some k =>
    dsimp only
    cases hg : grouped o with
    | true =>
      rw [if_pos rfl]
      by_cases hflush : (seqFlushHw d s).ret = 0
      · rw [if_neg (not_not.mpr hflush)]
        have hrun : SaneRun (o :: rest) := hsane (by rw [hk]; rfl) hg
        obtain ⟨s', hs', hf', hb', hret', hc'⟩ := groupedRun_spec (d := d) (List.cons_ne_nil o rest) hrun hfit.flush
        refine ⟨s', hs', hf', fun h0 => ?_, fun done hquiet hb hc => ⟨fun _ => ?_, ?_⟩⟩
        · rw [Passable, if_pos hg, hk]
          exact ⟨rfl, hrun.groups, hret' h0⟩
        · rw [hb']
          exact batch_seqFlushHw s
        · rw [Quiet, if_pos hg] at hquiet
          exact hc' done hquiet (hc.flush hb)
      · rw [if_pos hflush]
        exact ⟨_, rfl, hfit.flush, fun h0 => absurd h0 hflush, fun done _ _ _ =>
          ⟨fun h0 => absurd h0 hflush, clean_of_ret hflush _⟩⟩
    | false =>
      obtain rfl := halone hg
      have hpass : Passable [o] = (dispatchable o = true) := by rw [Passable, if_neg (by simp [hg])]
      have hquiet : Quiet [o] = (seqHwOk o = false) := by rw [Quiet, if_neg (by simp [hg])]
      rw [if_neg (by simp), hw_of_seqHwOk hk, hpass, hquiet]
      split_ifs with hok
      · exact ⟨_, rfl, hfit.enqueue hok, fun _ => dispatchable_of_seqHwOk hok,
          fun done hquiet => absurd (hok.symm.trans hquiet) (by simp)⟩
      · refine ⟨_, rfl, hfit.breakHw hk, fun h0 => ?_, fun done _ hb hc => ⟨fun _ => batch_breakHw s k o, hc.breakHw hb⟩⟩
        unfold breakHw at h0
        dsimp only at h0
        split_ifs at h0 with hflush
        · exact absurd h0 hflush
        · exact ret_dispatch hk h0

theorem foldlM_seqStep_spec (segs : List (List SeqOp))
    (hsegs : ∀ seg ∈ segs, ∃ o rest, seg = o :: rest ∧ (grouped o = false → rest = []))
    (hsane : ∀ pre seg post, segs = pre ++ seg :: post → (∀ t ∈ pre, Passable t) → Sane seg) (hfit : Fit s) :
    ∃ s', segs.foldlM (seqStep d) s = some s' ∧ Fit s' ∧ (s'.ret = 0 → ∀ seg ∈ segs, Passable seg) ∧
      ∀ done, (∀ seg ∈ segs, Quiet seg) → (s.ret = 0 → s.batch = []) → Clean done s →
        (s'.ret = 0 → s'.batch = []) ∧ Clean (done ++ segs.flatten) s' := by
  induction segs generalizing s with
  | nil => exact ⟨s, rfl, hfit, fun _ => nofun, fun done _ hb hc => ⟨hb, by rwa [List.flatten_nil, List.append_nil]⟩⟩
  | cons seg segs ih =>
    by_cases hret : s.ret = 0
    · obtain ⟨o, rest, rfl, halone⟩ := hsegs seg List.mem_cons_self
      obtain ⟨t, ht, htfit, htpass, htc⟩ := seqStep_spec (d := d) hret halone (hsane [] _ segs rfl nofun) hfit
      rw [List.foldlM_cons, ht]
      by_cases ht0 : t.ret = 0
      · obtain ⟨s', hs', hf', hpass', hc'⟩ := ih (fun seg h => hsegs seg (List.mem_cons_of_mem _ h))
          (fun pre seg post h hpre => hsane ((o :: rest) :: pre) seg post (by rw [h]; rfl)
            (List.forall_mem_cons.mpr ⟨htpass ht0, hpre⟩)) htfit
        refine ⟨s', hs', hf', fun h0 => List.forall_mem_cons.mpr ⟨htpass ht0, hpass' h0⟩, fun done hquiet hb hc => ?_⟩
        obtain ⟨hb', hc''⟩ := htc done (hquiet _ List.mem_cons_self) (hb hret) hc
        have := hc' _ (fun seg h => hquiet seg (List.mem_cons_of_mem _ h)) hb' hc''
        rwa [List.append_assoc] at this
      · exact ⟨t, foldlM_seqStep_of_ret d ht0 segs, htfit, fun h0 => absurd h0 ht0,
          fun done _ _ _ => ⟨fun h0 => absurd h0 ht0, clean_of_ret ht0 _⟩⟩
    · exact ⟨s, foldlM_seqStep_of_ret d hret _, hfit, fun h0 => absurd h0 hret,
        fun done _ _ _ => ⟨fun h0 => absurd h0 hret, clean_of_ret hret _⟩⟩

theorem ret_foldl_runBatched (h : s.ret ≠ 0) (ops : List SeqOp) : ops.foldl (runBatched d) s = s := by
  induction ops with
  | nil => rfl
  | cons o ops ih =>
    rw [List.foldl_cons, runBatched, if_pos h]
    exact ih

theorem ret_seqFlushHw (h : s.ret ≠ 0) : (seqFlushHw d s).ret ≠ 0 := by
  unfold seqFlushHw
  split_ifs
  · exact h
  · dsimp only
    split
    · exact h
    · have hskip := ret_foldl_runBatched (d := d) (s := { s with dev := (d.beginMc s.dev s.batch).1 }) h s.batch
      dsimp only
      rw [hskip]
      exact h

theorem fit_seqStart (dev : σ) : Fit (seqStart dev) :=
  ⟨fun _ h => absurd h List.not_mem_nil, fun _ h => absurd h List.not_mem_nil⟩

theorem clean_seqStart (dev : σ) : Clean [] (seqStart dev) :=
  ⟨fun _ => rfl, fun _ _ h => absurd h List.not_mem_nil⟩

/-- A silent list is served honestly by every device. -/
theorem honest_of_silent {ops : List SeqOp} (h : Silent ops) (d : Driver σ) (dev : σ) : Honest d dev ops := by
  obtain ⟨hsane, hquiet⟩ := h
  obtain ⟨s, hs, hfit, hpass, hclean⟩ := foldlM_seqStep_spec (d := d) (segments ops) (fun _ => mem_segments) hsane
    (fit_seqStart dev)
  refine ⟨seqFlushHw d s, ?_, fun h0 => ?_, hfit.flush.log⟩
  · rw [orkSubmitSeq, seqLoop_eq, hs]
    rfl
  · have hret : s.ret = 0 := by
      by_contra hne
      exact ret_seqFlushHw hne h0
    obtain ⟨hb, hc⟩ := hclean [] (hquiet (hpass hret)) (fun _ => rfl) (clean_seqStart dev)
    rw [seqFlushHw_of_nil (hb hret)]
    rw [List.nil_append, flatten_segments] at hc
    exact ⟨hc.served hret, hc.good hret⟩

end OrkDriver.Submit
