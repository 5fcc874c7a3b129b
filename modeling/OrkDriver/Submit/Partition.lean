import OrkDriver.Submit.Table

/-!
`ork_submit_chain` of `npu.c`: a list of operations is cut where the table disallows a transition, and the runs go to
`ork_submit_seq` one after another.
-/

namespace OrkDriver.Submit

variable {σ : Type*}

/-! ### The code -/

/-- Whether two neighbours stay in one run. -/
def mayFollow (a b : SeqOp) : Bool := orkChainLookup a.kind b.kind ≠ .disallow

/-- The variables of the loop, with the device as the runs so far left it. -/
structure ChainLoop (σ : Type*) where
  start : Nat
  ret : Int
  dev : σ

/-- One turn of the loop; `submit` is `ork_submit_seq`. -/
def chainTurn (submit : σ → List SeqOp → σ × Int) (ops : Nat → SeqOp) (n : Nat) (s : ChainLoop σ) (i : Nat) :
    ChainLoop σ :=
  if s.ret ≠ 0 then s
  else if i + 1 = n ∨ orkChainLookup (ops i).kind (ops (i + 1)).kind = .disallow then
    let r := submit s.dev ((List.range' s.start (i - s.start + 1)).map ops)
    ⟨i + 1, r.2, r.1⟩
  else s

/-- `ork_submit_chain`; the array is `ops`, none for a null pointer. -/
def orkSubmitChain (submit : σ → List SeqOp → σ × Int) (dev : σ) (ops : Option (Nat → SeqOp)) (n : Int) : σ × Int :=
  match ops with
  | none => (dev, -2)
  | some ops =>
    if n < 0 then (dev, -2)
    else
      let s := (List.range n.toNat).foldl (chainTurn submit ops n.toNat) ⟨0, 0, dev⟩
      (s.dev, s.ret)

/-! ### What it is for -/

/-- `tasks` cut into the longest runs whose neighbours may follow one another. -/
structure Partition (tasks : List SeqOp) (runs : List (List SeqOp)) : Prop where
  inOrder : runs.flatten = tasks
  nonempty : [] ∉ runs
  allowed : ∀ run ∈ runs, run.IsChain fun a b => mayFollow a b = true
  maximal : runs.IsChain fun run run' => ∃ h h', mayFollow (run.getLast h) (run'.head h') = false

/-- Handing the runs over in order up to the first that fails. -/
inductive Submits (submit : σ → List SeqOp → σ × Int) : σ → List (List SeqOp) → σ → Int → Prop
  | done (dev : σ) : Submits submit dev [] dev 0
  | next {dev dev' dev'' : σ} {run : List SeqOp} {runs : List (List SeqOp)} {ret : Int} :
      submit dev run = (dev', 0) → Submits submit dev' runs dev'' ret → Submits submit dev (run :: runs) dev'' ret
  | fail {dev dev' : σ} {run : List SeqOp} {runs : List (List SeqOp)} {ret : Int} :
      submit dev run = (dev', ret) → ret ≠ 0 → Submits submit dev (run :: runs) dev' ret

/-- A task list has one such partition. -/
theorem Partition.eq_splitBy {tasks : List SeqOp} {runs : List (List SeqOp)} (h : Partition tasks runs) :
    tasks.splitBy mayFollow = runs :=
  List.splitBy_eq_iff.mpr ⟨h.inOrder.symm, h.nonempty, h.allowed, h.maximal⟩

theorem partition_splitBy (tasks : List SeqOp) : Partition tasks (tasks.splitBy mayFollow) where
  inOrder := List.flatten_splitBy _ _
  nonempty := List.nil_notMem_splitBy _ _
  allowed := fun _ h => List.isChain_of_mem_splitBy h
  maximal := List.isChain_getLast_head_splitBy _ _

/-! ### The loop -/

section Loop

variable (submit : σ → List SeqOp → σ × Int) (ops : Nat → SeqOp) (n : Nat)

/-- After a failed run the loop does nothing more. -/
theorem foldl_chainTurn_of_ret {s : ChainLoop σ} (h : s.ret ≠ 0) (l : List Nat) :
    l.foldl (chainTurn submit ops n) s = s := by
  induction l with
  | nil => rfl
  | cons i l ih =>
    rw [List.foldl_cons, chainTurn, if_pos h]
    exact ih

theorem splitByLoop_eq_append {α : Type*} {r : α → α → Bool} {l : List α} {a : α} {g : List α} (gs : List (List α)) :
    List.splitBy.loop r l a g gs = gs.reverse ++ List.splitBy.loop r l a g [] := by
  induction l generalizing a g gs with
  | nil => simp [List.splitBy.loop]
  | cons b l ih =>
    rw [List.splitBy.loop, List.splitBy.loop]
    split
    · exact ih gs
    · rw [ih, ih [_]]
      simp

/-- The run open at task `i`, closed behind it. -/
def openRun (start i : Nat) : List SeqOp := (List.range' start (i - start + 1)).map ops

theorem reverse_openRun {start i : Nat} (hi : start ≤ i) :
    (ops i :: ((List.range' start (i - start)).map ops).reverse) = (openRun ops start i).reverse := by
  rw [openRun, List.range'_1_concat, List.map_append, List.reverse_append]
  simp [Nat.add_sub_cancel' hi]

/-- A turn at the end of a run. -/
theorem chainTurn_cut {start i : Nat} (dev : σ) (h : i + 1 = n ∨ mayFollow (ops i) (ops (i + 1)) = false) :
    chainTurn submit ops n ⟨start, 0, dev⟩ i =
      ⟨i + 1, (submit dev (openRun ops start i)).2, (submit dev (openRun ops start i)).1⟩ := by
  have h' : i + 1 = n ∨ orkChainLookup (ops i).kind (ops (i + 1)).kind = .disallow := by
    simpa only [mayFollow, ne_eq, decide_not, Bool.not_eq_false', decide_eq_true_eq] using h
  unfold chainTurn
  rw [if_neg (by simp), if_pos h']
  rfl

/-- A turn inside a run. -/
theorem chainTurn_keep {start i : Nat} (dev : σ) (hn : i + 1 ≠ n) (h : mayFollow (ops i) (ops (i + 1)) = true) :
    chainTurn submit ops n ⟨start, 0, dev⟩ i = ⟨start, 0, dev⟩ := by
  have h' : orkChainLookup (ops i).kind (ops (i + 1)).kind ≠ .disallow := by
    simpa only [mayFollow, ne_eq, decide_not, Bool.not_eq_true', decide_eq_false_iff_not] using h
  unfold chainTurn
  rw [if_neg (by simp), if_neg (by simp [hn, h'])]

/-- A run handed over, and the rest of the loop after it. -/
theorem submits_after {dev : σ} {run : List SeqOp} {runs : List (List SeqOp)} {j : Nat} (l : List Nat)
    (h : ∀ dev', Submits submit dev' runs (l.foldl (chainTurn submit ops n) ⟨j, 0, dev'⟩).dev
      (l.foldl (chainTurn submit ops n) ⟨j, 0, dev'⟩).ret) :
    let s := l.foldl (chainTurn submit ops n) ⟨j, (submit dev run).2, (submit dev run).1⟩
    Submits submit dev (run :: runs) s.dev s.ret := by
  cases hr : submit dev run with
  | mk dev' ret =>
    by_cases h0 : ret = 0
    · subst h0
      exact .next hr (h dev')
    · dsimp only
      rw [foldl_chainTurn_of_ret submit ops n h0]
      exact .fail hr h0

/-- From task `i` on, with the run open since `start`: the loop hands over the runs that a split would still make. -/
theorem foldl_chainTurn (m : Nat) {i start : Nat} (dev : σ) (hi : start ≤ i) (hn : i + (m + 1) = n) :
    let s := (List.range' i (m + 1)).foldl (chainTurn submit ops n) ⟨start, 0, dev⟩
    Submits submit dev (List.splitBy.loop mayFollow ((List.range' (i + 1) m).map ops) (ops i)
      ((List.range' start (i - start)).map ops).reverse []) s.dev s.ret := by
  induction m generalizing i start dev with
  | zero =>
    have hruns : List.splitBy.loop mayFollow [] (ops i) ((List.range' start (i - start)).map ops).reverse [] =
        [openRun ops start i] := by
      rw [List.splitBy.loop, reverse_openRun ops hi, List.reverse_reverse]
      rfl
    rw [List.range'_zero, List.map_nil, hruns, List.range'_succ, List.foldl_cons, chainTurn_cut _ _ _ _ (.inl hn)]
    exact submits_after submit ops n [] fun dev' => .done dev'
  | succ m ih =>
    rw [List.range'_succ, List.range'_succ, List.foldl_cons, List.map_cons, List.splitBy.loop]
    cases hf : mayFollow (ops i) (ops (i + 1)) with
    | true =>
      have hrest := ih dev (Nat.le_succ_of_le hi) (by omega)
      rw [show i + 1 - start = i - start + 1 by omega, ← openRun, ← reverse_openRun ops hi] at hrest
      rw [chainTurn_keep _ _ _ _ (by omega) hf]
      exact hrest
    | false =>
      have hrest := fun dev' => @ih (i + 1) (i + 1) dev' le_rfl (by omega)
      rw [Nat.sub_self, List.range'_zero, List.map_nil, List.reverse_nil] at hrest
      rw [reverse_openRun ops hi, List.reverse_reverse, chainTurn_cut _ _ _ _ (.inr hf)]
      dsimp only
      rw [splitByLoop_eq_append, List.reverse_singleton, List.singleton_append]
      exact submits_after submit ops n _ hrest

end Loop

/-! ### The chain as a whole -/

/-- The `n` tasks of the array. -/
def tasksOf (ops : Nat → SeqOp) (n : Int) : List SeqOp := (List.range n.toNat).map ops

/-- A chain is cut at every disallowed transition and nowhere else, and its runs are handed over in order, each task in
one of them, up to the first that fails; its error is the answer. -/
theorem orkSubmitChain_spec (submit : σ → List SeqOp → σ × Int) (dev : σ) (ops : Option (Nat → SeqOp)) (n : Int) :
    (ops = none ∨ n < 0 → orkSubmitChain submit dev ops n = (dev, -2)) ∧
    ∀ tasks, ops = some tasks → 0 ≤ n → ∃! runs, Partition (tasksOf tasks n) runs ∧
      Submits submit dev runs (orkSubmitChain submit dev ops n).1 (orkSubmitChain submit dev ops n).2 := by
  constructor
  · intro h
    cases ops with
    | none => rfl
    | some tasks =>
      have hn : n < 0 := h.resolve_left (by simp)
      simp only [orkSubmitChain, if_pos hn]
  · rintro tasks rfl hn
    refine ⟨(tasksOf tasks n).splitBy mayFollow, ⟨partition_splitBy _, ?_⟩, fun runs h => h.1.eq_splitBy.symm⟩
    have hn' : ¬ n < 0 := by omega
    simp only [orkSubmitChain, hn', if_false, tasksOf]
    cases hm : n.toNat with
    | zero => exact .done dev
    | succ m =>
      have hrun := foldl_chainTurn submit tasks (m + 1) m (i := 0) dev le_rfl (by omega)
      rw [List.range_eq_range', List.range'_succ, List.map_cons]
      exact hrun

/-- int8: a matmul and its SiLU, twice over, the second time the other way round. -/
def twoPairs (i : Nat) : SeqOp :=
  ⟨some (if i = 0 ∨ i = 3 then .mmI8 else .siluI8), some ⟨.i8, 512, 1, 1, false, 0⟩, 1, 0⟩

/-- A device that takes every run and remembers it. -/
def record (dev : List (List SeqOp)) (run : List SeqOp) : List (List SeqOp) × Int := (dev ++ [run], 0)

theorem orkSubmitChain_twoPairs : orkSubmitChain record [] none 4 = ([], -2) ∧
    (∃! runs, Partition (tasksOf twoPairs 4) runs ∧
      Submits record [] runs (orkSubmitChain record [] (some twoPairs) 4).1
        (orkSubmitChain record [] (some twoPairs) 4).2) ∧
    (orkSubmitChain record [] (some twoPairs) 4).1.map List.length = [2, 2] :=
  ⟨(orkSubmitChain_spec record [] none 4).1 (.inl rfl),
    (orkSubmitChain_spec record [] (some twoPairs) 4).2 twoPairs rfl (by decide), by decide⟩

/-! ### Not a policy for each task -/

/-- Batching by a policy for each task: the longest runs of allowed tasks, and every other task alone. -/
def policyRuns (allowed : Nat → Bool) (n : Nat) : List (List Nat) :=
  (List.range n).splitBy fun i j => allowed i && allowed j

/-- The four tasks go out as two pairs, which no policy for each task would batch: it would allow all four. -/
theorem no_task_policy : ¬ ∃ allowed : Nat → Bool,
    (policyRuns allowed 4).map (List.map twoPairs) = (tasksOf twoPairs 4).splitBy mayFollow := by
  rintro ⟨allowed, h⟩
  have hruns : ((tasksOf twoPairs 4).splitBy mayFollow).map List.length = [2, 2] := by decide
  have hlen := congrArg (List.map List.length) h
  rw [hruns, List.map_map] at hlen
  have hrange : List.range 4 = [0, 1, 2, 3] := rfl
  simp only [policyRuns, hrange, List.splitBy, List.splitBy.loop] at hlen
  cases h0 : allowed 0 <;> cases h1 : allowed 1 <;> cases h2 : allowed 2 <;> cases h3 : allowed 3 <;>
    simp [h0, h1, h2, h3] at hlen

end OrkDriver.Submit
