import OrkDriver.Submit.Honesty

/-!
A device that breaks the promise of `ork_submit_seq` on every list that is not silent: it takes batches and never completes
them, or it refuses them, and it answers for the chains from a tape.
-/

namespace OrkDriver.Submit

open OrkDriver.Pack

variable {σ : Type*} {d : Driver σ}

/-! ### The log only grows -/

/-- Everything that was run stays on record. -/
def Grows (s s' : SeqLoop σ) : Prop := ∀ e ∈ s.log, e ∈ s'.log

theorem Grows.refl (s : SeqLoop σ) : Grows s s := fun _ h => h

theorem Grows.trans {s t u : SeqLoop σ} (h : Grows s t) (h' : Grows t u) : Grows s u := fun e he => h' e (h e he)

theorem grows_of_log {s s' : SeqLoop σ} {e : Event} (h : s'.log = s.log ++ [e]) : Grows s s' := fun x hx => by
  rw [h]
  exact List.mem_append_left _ hx

theorem grows_runBatched (s : SeqLoop σ) (o : SeqOp) : Grows s (runBatched d s o) := by
  unfold runBatched
  split_ifs
  · exact .refl s
  · cases s.bdt <;> exact grows_of_log rfl

theorem grows_foldl_runBatched (s : SeqLoop σ) (ops : List SeqOp) : Grows s (ops.foldl (runBatched d) s) := by
  induction ops generalizing s with
  | nil => exact .refl s
  | cons o ops ih => exact (grows_runBatched s o).trans (ih _)

theorem grows_seqFlushHw (s : SeqLoop σ) : Grows s (seqFlushHw d s) := by
  unfold seqFlushHw
  split_ifs
  · exact .refl s
  · dsimp only
    split
    · exact grows_of_log rfl
    · exact fun e he => grows_foldl_runBatched { s with dev := (d.beginMc s.dev s.batch).1 } s.batch e he

theorem grows_dispatch (s : SeqLoop σ) (k : OrkOp) (o : SeqOp) : Grows s (dispatch d s k o) := by
  unfold dispatch
  dsimp only
  split
  · exact fun _ h => h
  · exact grows_of_log rfl

theorem grows_enqueue (s : SeqLoop σ) (o : SeqOp) : Grows s (enqueue d s o) := by
  have hjoin : ∀ t : SeqLoop σ, Grows t (joinBatch t o) := by
    intro t
    unfold joinBatch
    dsimp only
    split_ifs <;> exact fun _ h => h
  unfold enqueue
  split_ifs
  · exact (grows_seqFlushHw s).trans (hjoin _)
  · exact hjoin s

theorem grows_breakHw (s : SeqLoop σ) (k : OrkOp) (o : SeqOp) : Grows s (breakHw d s k o) := by
  unfold breakHw
  dsimp only
  split_ifs
  · exact grows_seqFlushHw s
  · exact (grows_seqFlushHw s).trans (grows_dispatch _ k o)

theorem grows_runGrouped {s s' : SeqLoop σ} {o : SeqOp} (h : runGrouped d s o = some s') : Grows s s' := by
  unfold runGrouped at h
  split_ifs at h
  · cases h
    exact .refl s
  · split at h
    · cases h
    · dsimp only at h
      split_ifs at h
      · split at h
        · cases h
          exact grows_of_log rfl
        · cases h
          exact grows_of_log rfl
      · cases h
        exact grows_dispatch s _ o

theorem grows_foldlM {α : Type*} {f : SeqLoop σ → α → Option (SeqLoop σ)}
    (hf : ∀ s a s', f s a = some s' → Grows s s') {l : List α} {s s' : SeqLoop σ} (h : l.foldlM f s = some s') :
    Grows s s' := by
  induction l generalizing s with
  | nil =>
    cases h
    exact .refl _
  | cons a l ih =>
    rw [List.foldlM_cons] at h
    obtain ⟨t, ht, h⟩ := Option.bind_eq_some_iff.mp h
    exact (hf s a t ht).trans (ih h)

theorem grows_groupedRun {s s' : SeqLoop σ} {run : List SeqOp} (h : groupedRun d s run = some s') : Grows s s' := by
  unfold groupedRun at h
  obtain ⟨x, -, h⟩ := Option.bind_eq_some_iff.mp h
  split_ifs at h
  · cases h
    exact grows_of_log rfl
  · exact fun e he => grows_foldlM (s := { s with dev := x.1 }) (fun _ _ _ hstep => grows_runGrouped hstep) h e he

theorem grows_seqStep {s s' : SeqLoop σ} {seg : List SeqOp} (h : seqStep d s seg = some s') : Grows s s' := by
  cases seg with
  | nil =>
    cases h
    exact .refl s
  | cons o rest =>
    rw [seqStep] at h
    by_cases hret : s.ret = 0
    · rw [if_neg (not_not.mpr hret)] at h
      cases hk : o.kind with
      | none =>
        rw [hk] at h
        cases h
        exact fun _ h => h
      | some k =>
        rw [hk] at h
        dsimp only at h
        by_cases hg : grouped o
        · rw [if_pos hg] at h
          split_ifs at h
          · cases h
            exact grows_seqFlushHw s
          · exact (grows_seqFlushHw s).trans (grows_groupedRun h)
        · rw [if_neg hg] at h
          split_ifs at h
          · cases h
            exact grows_enqueue s o
          · cases h
            exact grows_breakHw s k o
    · rw [if_pos hret] at h
      cases h
      exact .refl s

/-! ### The device -/

/-- Routines succeed and chains are answered from the tape, which refuses at its end. With `rings` the doorbell takes
every batch and completes none; without, it refuses. -/
def taped (rings : Bool) : Driver (List Bool) where
  lastDt _ := 0
  enter dev _ _ _ := dev
  beginMc dev _ := (dev, if rings then some 1 else none)
  dynEnd dev := (dev, -1)
  ensureWitness dev := (dev, some ⟨.i8, 512, 1, 1, false, 0⟩)
  beginSeqMc dev _ _ := (dev.tail, dev.headD false)
  seqEnd dev := (dev, 0)
  run dev _ _ := (dev, 0)

/-- What the tape holds for a segment: a run is taken when the fall-back could not serve it. -/
def answer (seg : List SeqOp) : List Bool :=
  if (seg.head?.any grouped) ∧ sealedLength (groupsOf seg) ≤ hwBatch then [!seg.all dispatchable] else []

variable {b : Bool} {s : SeqLoop (List Bool)}

/-- A failure is on record, or on its way there. -/
def Bad (s : SeqLoop (List Bool)) : Prop := s.batch ≠ [] ∨ ∃ e ∈ s.log, ¬ e.Good

theorem taped_runBatched (o : SeqOp) : (runBatched (taped b) s o).ret = s.ret ∧
    (runBatched (taped b) s o).dev = s.dev := by
  unfold runBatched
  split_ifs
  · exact ⟨rfl, rfl⟩
  · cases s.bdt <;> exact ⟨rfl, rfl⟩

theorem taped_foldl_runBatched (ops : List SeqOp) : (ops.foldl (runBatched (taped b)) s).ret = s.ret ∧
    (ops.foldl (runBatched (taped b)) s).dev = s.dev := by
  induction ops generalizing s with
  | nil => exact ⟨rfl, rfl⟩
  | cons o ops ih =>
    obtain ⟨hret, hdev⟩ := taped_runBatched (b := b) (s := s) o
    rw [List.foldl_cons, ← hret, ← hdev]
    exact ih

theorem taped_flush : (seqFlushHw (taped b) s).ret = s.ret ∧ (seqFlushHw (taped b) s).dev = s.dev := by
  unfold seqFlushHw
  split_ifs
  · exact ⟨rfl, rfl⟩
  · dsimp only
    split
    · exact ⟨rfl, rfl⟩
    · exact taped_foldl_runBatched (s := { s with dev := _ }) s.batch

/-- What the doorbell takes is on record as failed. -/
theorem taped_flush_bad (h : Bad s) : ∃ e ∈ (seqFlushHw (taped true) s).log, ¬ e.Good := by
  by_cases hb : s.batch = []
  · obtain ⟨e, he, hbad⟩ := h.resolve_left (not_not.mpr hb)
    exact ⟨e, grows_seqFlushHw s e he, hbad⟩
  · refine ⟨.doorbell s.batch 1 (-1), ?_, by simp [Event.Good]⟩
    unfold seqFlushHw
    rw [if_neg hb]
    exact List.mem_append_right _ (List.mem_singleton_self _)

theorem bad_of_grows {s' : SeqLoop (List Bool)} (h : ∃ e ∈ s.log, ¬ e.Good) (hg : Grows s s') : Bad s' := by
  obtain ⟨e, he, hbad⟩ := h
  exact .inr ⟨e, hg e he, hbad⟩

theorem taped_dispatch {k : OrkOp} {o : SeqOp} (hk : o.kind = some k) (h : dispatchable o = true) :
    (dispatch (taped b) s k o).ret = s.ret ∧ (dispatch (taped b) s k o).dev = s.dev := by
  rw [dispatchable, hk] at h
  obtain ⟨r, hr⟩ := Option.isSome_iff_exists.mp h
  have hfn : (seqClass k).fn = some r := hr
  unfold dispatch
  dsimp only
  rw [hfn]
  exact ⟨rfl, rfl⟩

theorem kind_of_dispatchable {o : SeqOp} (h : dispatchable o = true) : ∃ k, o.kind = some k := by
  cases hk : o.kind with
  | none =>
    rw [dispatchable, hk] at h
    cases h
  | some k => exact ⟨k, rfl⟩

/-- The fall-back on one operation that has a routine. -/
theorem taped_runGrouped (hret : s.ret = 0) {o : SeqOp} (h : dispatchable o = true) :
    ∃ s', runGrouped (taped b) s o = some s' ∧ s'.ret = 0 ∧ s'.dev = s.dev ∧ s'.batch = s.batch ∧
      (b = true → seqHwOk o = true → ∃ e ∈ s'.log, ¬ e.Good) ∧
      (b = false → seqHwOk o = true → o.kind ≠ some .mmI8 → ∃ e ∈ s'.log, ¬ e.Fits) := by
  obtain ⟨k, hk⟩ := kind_of_dispatchable h
  unfold runGrouped
  rw [if_neg (not_not.mpr hret), hk]
  dsimp only
  rw [hw_of_seqHwOk hk]
  split_ifs with hok
  · cases b with
    | true =>
      refine ⟨_, rfl, hret, rfl, rfl, fun _ _ => ⟨.doorbell [o] 1 (-1), ?_, by simp [Event.Good]⟩, nofun⟩
      exact List.mem_append_right _ (List.mem_singleton_self _)
    | false =>
      refine ⟨_, rfl, hret, rfl, rfl, nofun, fun _ _ hne => ⟨.ran .i8MmRun o 0, ?_, ?_⟩⟩
      · exact List.mem_append_right _ (List.mem_singleton_self _)
      · intro hfits
        obtain ⟨k', w, hk', -, hhw, -⟩ := seqClass_hw_of_seqHwOk hok
        obtain rfl : k = k' := Option.some.inj (hk.symm.trans hk')
        rw [Event.Fits, hk', Option.map_some] at hfits
        exact hne (congrArg some (eq_mmI8_of_hw hhw (Option.some.inj hfits)))
  · obtain ⟨hr, hd⟩ := taped_dispatch (b := b) (s := s) hk h
    exact ⟨_, rfl, hr.trans hret, hd, batch_dispatch s k o, fun _ hyes => absurd hyes hok, fun _ hyes => absurd hyes hok⟩

/-- The fall-back on a run whose operations all have routines. -/
theorem taped_fallback (ops : List SeqOp) (hret : s.ret = 0) (h : ∀ o ∈ ops, dispatchable o = true) :
    ∃ s', ops.foldlM (runGrouped (taped b)) s = some s' ∧ s'.ret = 0 ∧ s'.dev = s.dev ∧
      (b = true → (∃ o ∈ ops, seqHwOk o = true) → ∃ e ∈ s'.log, ¬ e.Good) := by
  induction ops generalizing s with
  | nil => exact ⟨s, rfl, hret, rfl, fun _ ⟨_, ho, _⟩ => absurd ho List.not_mem_nil⟩
  | cons o ops ih =>
    obtain ⟨t, ht, htret, htdev, -, hbad, -⟩ := taped_runGrouped (b := b) hret (h o List.mem_cons_self)
    obtain ⟨s', hs', hret', hdev', hbad'⟩ := ih htret fun p hp => h p (List.mem_cons_of_mem o hp)
    refine ⟨s', by rw [List.foldlM_cons, ht]; exact hs', hret', hdev'.trans htdev, fun hr => ?_⟩
    rintro ⟨p, hp, hok⟩
    rcases List.mem_cons.mp hp with rfl | hp
    · obtain ⟨e, he, hg⟩ := hbad hr hok
      exact ⟨e, grows_foldlM (fun _ _ _ hstep => grows_runGrouped hstep) hs' e he, hg⟩
    · exact hbad' hr ⟨p, hp, hok⟩

/-- Starting a run: the tape answers if it fits a batch. -/
theorem taped_beginRun (dev : List Bool) {run : List SeqOp} (hne : run ≠ []) (hg : (groupsOf run).length ≤ hwBatch) :
    beginRun (taped b) dev run =
      some (if sealedLength (groupsOf run) ≤ hwBatch then (dev.tail, dev.headD false) else (dev, false)) := by
  unfold beginRun
  rw [groupStarts_eq hne, if_pos hg, Option.bind_some, map_groupOps]
  by_cases hneed : (groupsOf run).any needsWitness = true
  · obtain ⟨a, ha, hfill⟩ := augment_cuts ⟨.i8, 512, 1, 1, false, 0⟩ run hg
    rw [if_pos hneed]
    simp only [taped]
    rw [ha, Option.map_some]
    by_cases hfull : a.full = true
    · rw [if_pos hfull, if_neg (Nat.not_le.mpr (hfill.overflow.mp hfull))]
    · rw [if_neg hfull, if_pos (not_lt.mp (mt hfill.overflow.mpr hfull))]
  · have hflat : (groupsOf run).flatten = run := List.flatten_splitBy _ _
    rw [if_neg hneed, sealedLength_of_any _ (by simpa using hneed), hflat]
    rfl

/-! ### The list on the device -/

theorem answer_run {o : SeqOp} {rest : List SeqOp} (hg : grouped o = true) : answer (o :: rest) =
    if sealedLength (groupsOf (o :: rest)) ≤ hwBatch then [!(o :: rest).all dispatchable] else [] := by
  rw [answer, List.head?_cons, Option.any_some, hg]
  simp only [true_and]

theorem answer_single {o : SeqOp} {rest : List SeqOp} (hg : grouped o = false) : answer (o :: rest) = [] := by
  rw [answer, List.head?_cons, Option.any_some, hg]
  simp

/-- A run that can be served is, and if only the fall-back serves it, every matmul of it rings the doorbell. -/
theorem taped_groupedRun {run : List SeqOp} (hne : run ≠ []) (hret : s.ret = 0) (hg : (groupsOf run).length ≤ hwBatch)
    (hserve : sealedLength (groupsOf run) ≤ hwBatch ∨ ∀ p ∈ run, dispatchable p = true) {t : List Bool}
    (hdev : s.dev = (if sealedLength (groupsOf run) ≤ hwBatch then [!run.all dispatchable] else []) ++ t) :
    ∃ s', groupedRun (taped b) s run = some s' ∧ s'.ret = 0 ∧ s'.dev = t ∧
      (b = true → (∀ p ∈ run, dispatchable p = true) → (∃ p ∈ run, seqHwOk p = true) → ∃ e ∈ s'.log, ¬ e.Good) := by
  unfold groupedRun
  rw [taped_beginRun s.dev hne hg, Option.bind_some, hdev]
  by_cases hall : ∀ p ∈ run, dispatchable p = true
  · have htaken : (if sealedLength (groupsOf run) ≤ hwBatch then
        (((if sealedLength (groupsOf run) ≤ hwBatch then [!run.all dispatchable] else []) ++ t).tail,
          ((if sealedLength (groupsOf run) ≤ hwBatch then [!run.all dispatchable] else []) ++ t).headD false)
        else ((if sealedLength (groupsOf run) ≤ hwBatch then [!run.all dispatchable] else []) ++ t, false)) =
        (t, false) := by
      split_ifs
      · simp [List.all_eq_true.mpr hall]
      · rfl
    rw [htaken]
    obtain ⟨s', hs', hret', hdev', hbad⟩ := taped_fallback (b := b) (s := { s with dev := t }) run hret hall
    exact ⟨s', hs', hret', hdev', fun hr _ hex => hbad hr hex⟩
  · have hfit := hserve.resolve_right hall
    have hno : run.all dispatchable = false := by
      rw [← Bool.not_eq_true, List.all_eq_true]
      exact hall
    simp only [if_pos hfit, hno, Bool.not_false, List.singleton_append, List.tail_cons, List.headD_cons]
    exact ⟨_, rfl, hret, rfl, fun _ h => absurd h hall⟩

/-- A segment that can be served is. -/
theorem taped_step {o : SeqOp} {rest : List SeqOp} (hret : s.ret = 0) (halone : grouped o = false → rest = [])
    (hpass : Passable (o :: rest)) {t : List Bool} (hdev : s.dev = answer (o :: rest) ++ t) :
    ∃ s', seqStep (taped b) s (o :: rest) = some s' ∧ s'.ret = 0 ∧ s'.dev = t ∧
      (b = true → Bad s ∨ ¬ Quiet (o :: rest) → Bad s') := by
  obtain ⟨hfret, hfdev⟩ := taped_flush (b := b) (s := s)
  rw [seqStep, if_neg (not_not.mpr hret)]
  cases hg : grouped o with
  | true =>
    rw [Passable, if_pos hg] at hpass
    obtain ⟨hkind, hgroups, hserve⟩ := hpass
    obtain ⟨k, hk⟩ := Option.isSome_iff_exists.mp hkind
    obtain ⟨s', hs', hret', hdev', hbad⟩ := taped_groupedRun (b := b) (s := seqFlushHw (taped b) s)
      (List.cons_ne_nil o rest) (hfret.trans hret) hgroups hserve (hfdev.trans (hdev.trans (by rw [answer_run hg])))
    refine ⟨s', ?_, hret', hdev', fun hr h => ?_⟩
    · rw [hk]
      dsimp only
      rw [if_pos rfl, if_neg (not_not.mpr (hfret.trans hret))]
      exact hs'
    · subst hr
      rcases h with h | h
      · exact bad_of_grows (taped_flush_bad h) (grows_groupedRun hs')
      · rw [Quiet, if_pos hg] at h
        simp only [Classical.not_imp, not_forall, Bool.not_eq_false] at h
        obtain ⟨hall, p, hp, hok⟩ := h
        exact .inr (hbad rfl hall ⟨p, hp, hok⟩)
  | false =>
    obtain rfl := halone hg
    rw [Passable, if_neg (by simp [hg])] at hpass
    obtain ⟨k, hk⟩ := kind_of_dispatchable hpass
    rw [answer_single hg, List.nil_append] at hdev
    have hquiet : Quiet [o] = (seqHwOk o = false) := by rw [Quiet, if_neg (by simp [hg])]
    rw [hk, hquiet]
    dsimp only
    rw [if_neg (by simp), hw_of_seqHwOk hk]
    split_ifs with hok
    · have hjoin : ∀ u : SeqLoop (List Bool), (joinBatch u o).ret = u.ret ∧ (joinBatch u o).dev = u.dev ∧
          (joinBatch u o).batch ≠ [] := by
        intro u
        unfold joinBatch
        dsimp only
        split_ifs <;> exact ⟨rfl, rfl, List.append_ne_nil_of_right_ne_nil _ (List.cons_ne_nil o [])⟩
      have henq : (enqueue (taped b) s o).ret = s.ret ∧ (enqueue (taped b) s o).dev = s.dev ∧
          (enqueue (taped b) s o).batch ≠ [] := by
        unfold enqueue
        split_ifs
        · obtain ⟨h1, h2, h3⟩ := hjoin (seqFlushHw (taped b) s)
          exact ⟨h1.trans hfret, h2.trans hfdev, h3⟩
        · exact hjoin s
      exact ⟨_, rfl, henq.1.trans hret, henq.2.1.trans hdev, fun _ _ => .inl henq.2.2⟩
    · obtain ⟨hdret, hddev⟩ := taped_dispatch (b := b) (s := seqFlushHw (taped b) s) hk hpass
      have hbreak : breakHw (taped b) s k o = dispatch (taped b) (seqFlushHw (taped b) s) k o := by
        unfold breakHw
        rw [if_neg (not_not.mpr (hfret.trans hret))]
      refine ⟨_, rfl, ?_, ?_, fun hr h => ?_⟩
      · rw [hbreak, hdret, hfret, hret]
      · rw [hbreak, hddev, hfdev, hdev]
      · subst hr
        rcases h with h | h
        · rw [hbreak]
          exact bad_of_grows (taped_flush_bad h) (grows_dispatch _ k o)
        · exact absurd (by simpa using hok) h

/-- A list whose segments can all be served is. -/
theorem taped_run (segs : List (List SeqOp))
    (hsegs : ∀ seg ∈ segs, ∃ o rest, seg = o :: rest ∧ (grouped o = false → rest = []))
    (hpass : ∀ seg ∈ segs, Passable seg) (hret : s.ret = 0) {t : List Bool} (hdev : s.dev = segs.flatMap answer ++ t) :
    ∃ s', segs.foldlM (seqStep (taped b)) s = some s' ∧ s'.ret = 0 ∧ s'.dev = t ∧
      (b = true → (Bad s ∨ ∃ seg ∈ segs, ¬ Quiet seg) → Bad s') := by
  induction segs generalizing s with
  | nil =>
    refine ⟨s, rfl, hret, hdev, fun _ h => h.resolve_right ?_⟩
    rintro ⟨_, hseg, _⟩
    exact absurd hseg List.not_mem_nil
  | cons seg segs ih =>
    obtain ⟨o, rest, rfl, halone⟩ := hsegs seg List.mem_cons_self
    rw [List.flatMap_cons, List.append_assoc] at hdev
    obtain ⟨u, hu, huret, hudev, hubad⟩ := taped_step (b := b) hret halone (hpass _ List.mem_cons_self) hdev
    obtain ⟨s', hs', hret', hdev', hbad⟩ := ih (fun seg h => hsegs seg (List.mem_cons_of_mem _ h))
      (fun seg h => hpass seg (List.mem_cons_of_mem _ h)) huret hudev
    refine ⟨s', by rw [List.foldlM_cons, hu]; exact hs', hret', hdev', fun hr h => hbad hr ?_⟩
    rcases h with h | ⟨seg, hseg, hq⟩
    · exact .inl (hubad hr (.inl h))
    · rcases List.mem_cons.mp hseg with rfl | hseg
      · exact .inl (hubad hr (.inr hq))
      · exact .inr ⟨seg, hseg, hq⟩

/-- A list that could be served rings the doorbell: the device takes the batch, never completes it, and the call still
answers 0. -/
theorem not_honest_of_loud {ops : List SeqOp} (hpass : ∀ seg ∈ segments ops, Passable seg)
    (hloud : ∃ seg ∈ segments ops, ¬ Quiet seg) : ¬ Honest (taped true) ((segments ops).flatMap answer) ops := by
  rintro ⟨s, hs, hdone, -⟩
  obtain ⟨s', hs', hret, -, hbad⟩ := taped_run (b := true) (s := seqStart ((segments ops).flatMap answer))
    (t := []) (segments ops) (fun _ => mem_segments) hpass rfl (List.append_nil _).symm
  rw [orkSubmitSeq, seqLoop_eq, hs'] at hs
  obtain rfl := Option.some.inj hs
  obtain ⟨e, he, hg⟩ := taped_flush_bad (hbad rfl (.inr hloud))
  exact hg ((hdone (taped_flush.1.trans hret)).2 e he)

/-- Where the fall-back of an insane run goes wrong. -/
theorem insane_fallback (ops : List SeqOp) (hret : s.ret = 0)
    (h : (∃ o ∈ ops.takeWhile dispatchable, seqHwOk o = true ∧ o.kind ≠ some .mmI8) ∨
      ∃ o ∈ (ops.dropWhile dispatchable).head?, o.kind = none) {s' : SeqLoop (List Bool)}
    (hs' : ops.foldlM (runGrouped (taped false)) s = some s') : ∃ e ∈ s'.log, ¬ e.Fits := by
  induction ops generalizing s with
  | nil => simp at h
  | cons o ops ih =>
    rw [List.foldlM_cons] at hs'
    obtain ⟨t, ht, hrest⟩ := Option.bind_eq_some_iff.mp hs'
    cases hd : dispatchable o with
    | false =>
      rw [List.takeWhile_cons, List.dropWhile_cons, hd, if_neg (by simp), if_neg (by simp)] at h
      have hk : o.kind = none := by simpa using h
      rw [runGrouped, if_neg (not_not.mpr hret), hk] at ht
      cases ht
    | true =>
      rw [List.takeWhile_cons, List.dropWhile_cons, hd, if_pos rfl, if_pos rfl] at h
      obtain ⟨u, hu, huret, -, -, -, hunfit⟩ := taped_runGrouped (b := false) hret hd
      obtain rfl : u = t := Option.some.inj (hu.symm.trans ht)
      rcases h with ⟨p, hp, hok, hne⟩ | h
      · rcases List.mem_cons.mp hp with rfl | hp
        · obtain ⟨e, he, hfit⟩ := hunfit rfl hok hne
          exact ⟨e, grows_foldlM (fun _ _ _ hstep => grows_runGrouped hstep) hrest e he, hfit⟩
        · exact ih huret (.inl ⟨p, hp, hok, hne⟩) hrest
      · exact ih huret (.inr h) hrest

theorem insane_groupedRun {run : List SeqOp} (hne : run ≠ []) (hret : s.ret = 0) (hdev : s.dev = [])
    (h : ¬ SaneRun run) {s' : SeqLoop (List Bool)} (hs' : groupedRun (taped false) s run = some s') :
    ∃ e ∈ s'.log, ¬ e.Fits := by
  by_cases hg : (groupsOf run).length ≤ hwBatch
  · have hrefused : beginRun (taped false) s.dev run = some ([], false) := by
      rw [taped_beginRun s.dev hne hg, hdev]
      split_ifs <;> rfl
    rw [groupedRun, hrefused] at hs'
    refine insane_fallback (s := { s with dev := [] }) run hret ?_ hs'
    by_contra hno
    rw [not_or] at hno
    refine h ⟨hg, fun o ho hok => ?_, fun o ho => ?_⟩
    · by_contra hk
      exact hno.1 ⟨o, ho, hok, hk⟩
    · by_contra hk
      exact hno.2 ⟨o, ho, by simpa using hk⟩
  · rw [groupedRun, beginRun, groupStarts_eq hne, if_neg hg] at hs'
    cases hs'

/-- A list that reaches an insane run: the doorbell and the chain are refused, and the fall-back goes wrong. -/
theorem not_honest_of_insane {ops : List SeqOp} {pre : List (List SeqOp)} {seg : List SeqOp} {post : List (List SeqOp)}
    (hops : segments ops = pre ++ seg :: post) (hpass : ∀ t ∈ pre, Passable t) (h : ¬ Sane seg) :
    ¬ Honest (taped false) (pre.flatMap answer) ops := by
  rintro ⟨s, hs, -, hfits⟩
  have hmem : ∀ t ∈ pre ++ seg :: post, ∃ o rest, t = o :: rest ∧ (grouped o = false → rest = []) :=
    fun t ht => mem_segments (hops ▸ ht)
  obtain ⟨u, hu, huret, hudev, -⟩ := taped_run (b := false) (s := seqStart (pre.flatMap answer)) (t := []) pre
    (fun t ht => hmem t (List.mem_append_left _ ht)) hpass rfl (List.append_nil _).symm
  rw [orkSubmitSeq, seqLoop_eq, hops, List.foldlM_append, hu] at hs
  obtain ⟨v, hv, rfl⟩ := Option.map_eq_some_iff.mp hs
  change (seg :: post).foldlM (seqStep (taped false)) u = some v at hv
  rw [List.foldlM_cons] at hv
  obtain ⟨w, hw, hpost⟩ := Option.bind_eq_some_iff.mp hv
  obtain ⟨o, rest, rfl, -⟩ := hmem seg (List.mem_append_right _ List.mem_cons_self)
  simp only [Sane, Classical.not_imp] at h
  obtain ⟨hkind, hg, hrun⟩ := h
  obtain ⟨k, hk⟩ := Option.isSome_iff_exists.mp hkind
  obtain ⟨hfret, hfdev⟩ := taped_flush (b := false) (s := u)
  rw [seqStep, if_neg (not_not.mpr huret), hk] at hw
  dsimp only at hw
  rw [if_pos hg, if_neg (not_not.mpr (hfret.trans huret))] at hw
  obtain ⟨e, he, hfit⟩ := insane_groupedRun (List.cons_ne_nil o rest) (hfret.trans huret) (hfdev.trans hudev) hrun hw
  refine hfit (hfits e (grows_seqFlushHw v e ?_))
  exact grows_foldlM (fun _ _ _ hstep => grows_seqStep hstep) hpost e he

/-- `ork_submit_seq` keeps its promise on every device exactly for the silent lists. -/
theorem honest_iff_silent (ops : List SeqOp) :
    (∀ (σ : Type) (d : Driver σ) (dev : σ), Honest d dev ops) ↔ Silent ops := by
  constructor
  · intro h
    constructor
    · intro pre seg post hops hpass
      by_contra hsane
      exact not_honest_of_insane hops hpass hsane (h _ _ _)
    · intro hpass seg hseg
      by_contra hquiet
      exact not_honest_of_loud hpass ⟨seg, hseg, hquiet⟩ (h _ _ _)
  · intro h σ d dev
    exact honest_of_silent h d dev

/-- One int8 matmul that conforms. -/
def lonelyMatmul : SeqOp := ⟨some .mmI8, some ⟨.i8, 512, 1, 1, false, 0⟩, 1, 0⟩

/-- The doorbell takes it and never completes it; the answer is 0. -/
theorem not_honest_lonelyMatmul : ¬ Honest (taped true) [] [lonelyMatmul] := by
  have hrun : orkSubmitSeq (taped true) [] [lonelyMatmul] =
      some ⟨[], [], 0, .i8, 0, [.doorbell [lonelyMatmul] 1 (-1)]⟩ := by
    rw [orkSubmitSeq, seqLoop, seqLoop]
    rfl
  rintro ⟨s, hs, hdone, -⟩
  rw [hrun] at hs
  obtain rfl := Option.some.inj hs
  have hgood := (hdone rfl).2 _ List.mem_cons_self
  simp [Event.Good] at hgood

end OrkDriver.Submit
