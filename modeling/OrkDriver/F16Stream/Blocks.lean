import OrkDriver.F16Stream.Check

/-!
Row blocks: a batch that is accepted is run as it is or in row blocks that are accepted as they are, so that no call goes
deeper than the second; and row blocks that are right make a batch that is.
-/

namespace OrkDriver.F16Stream

open OrkDriver.Lib OrkDriver.Npu OrkDriver.Pack OrkDriver.Run

variable {R E P : Type*} {c : OrkNpu} {e : F16Knobs} {hard S : Nat} {tasks : Nat → MmTaskF16 R} {k : Checked} {i j : Nat}

/-! ### The check -/

theorem minCap_le (hi : i < S) : minCap e hard S tasks ≤ taskCap e hard (tasks i) := by
  unfold minCap
  induction S with
  | zero => exact absurd hi (Nat.not_lt_zero i)
  | succ S ih =>
      rw [List.range_succ, List.foldl_append, List.foldl_cons, List.foldl_nil]
      rcases Nat.lt_succ_iff_lt_or_eq.mp hi with hi | rfl
      · have := ih hi
        split <;> omega
      · split <;> omega

theorem le_maxRows (hi : i < S) : (tasks i).M ≤ maxRows S tasks := by
  unfold maxRows
  induction S with
  | zero => exact absurd hi (Nat.not_lt_zero i)
  | succ S ih =>
      rw [List.range_succ, List.foldl_append, List.foldl_cons, List.foldl_nil]
      rcases Nat.lt_succ_iff_lt_or_eq.mp hi with hi | rfl
      · have := ih hi
        split <;> omega
      · split <;> omega

theorem maxRows_le {M : Nat} (h : ∀ i < S, (tasks i).M ≤ M) : maxRows S tasks ≤ M := by
  unfold maxRows
  induction S with
  | zero => exact Nat.zero_le M
  | succ S ih =>
      rw [List.range_succ, List.foldl_append, List.foldl_cons, List.foldl_nil]
      have hM := h S (Nat.lt_succ_self S)
      have := ih fun i hi => h i (Nat.lt_succ_of_lt hi)
      split <;> omega

theorem maxRows_eq {M : Nat} (h0 : 0 < S) (h : ∀ i < S, (tasks i).M = M) : maxRows S tasks = M := by
  apply Nat.le_antisymm
  · exact maxRows_le fun i hi => (h i hi).le
  · exact h 0 h0 ▸ le_maxRows h0

theorem minCap_congr {tasks' : Nat → MmTaskF16 R} (h : ∀ i, (tasks' i).w = (tasks i).w) :
    minCap e hard S tasks' = minCap e hard S tasks := by
  have htask : ∀ i, taskCap e hard (tasks' i) = taskCap e hard (tasks i) := fun i => by
    unfold taskCap
    rw [h]
  simp only [minCap, htask]

/-- What holds of a batch the check accepts. -/
structure Fit (e : F16Knobs) (hard S : Nat) (tasks : Nat → MmTaskF16 R) (k : Checked) : Prop where
  accepts : ∀ i < S, Accepts (tasks i)
  cap_pos : 0 < k.cap
  cap_le : k.cap ≤ k.maxM ∧ k.cap ≤ minCap e hard S tasks
  maxM : k.maxM = maxRows S tasks
  uniform : k.uniform = true ↔ ∀ i < S, (tasks i).M = (tasks 0).M
  height : ∀ i < S, HeightOk (tasks i) k.cap

theorem check_fit (h : f16StreamCheck e hard S tasks = some k) : Fit e hard S tasks k := by
  unfold f16StreamCheck at h
  split at h
  · cases h
  next hacc =>
  dsimp only at h
  have hbound : (if maxRows S tasks < minCap e hard S tasks then maxRows S tasks else minCap e hard S tasks) ≤
      min (maxRows S tasks) (minCap e hard S tasks) := by
    split <;> omega
  generalize (if maxRows S tasks < minCap e hard S tasks then maxRows S tasks else minCap e hard S tasks) = b at h hbound
  have hle := Nat.findGreatest_le (P := fun h => ∀ i < S, HeightOk (tasks i) h) b
  split at h
  · cases h
  next htile =>
  obtain rfl := Option.some.inj h
  simp only [not_exists, not_and, not_not] at hacc
  have hok := Nat.findGreatest_of_ne_zero (P := fun h => ∀ i < S, HeightOk (tasks i) h) rfl (Nat.ne_of_gt (Nat.not_lt.mp htile))
  constructor
  case accepts => exact hacc
  case cap_pos => exact Nat.not_lt.mp htile
  case cap_le =>
    dsimp only
    constructor <;> omega
  case maxM => rfl
  case uniform => exact decide_eq_true_iff
  case height => exact hok

variable (hk : Fit e hard S tasks k)
include hk

theorem Fit.rows_le (hi : i < S) : (tasks i).M ≤ k.maxM := hk.maxM ▸ le_maxRows hi

theorem Fit.rows_eq (hu : k.uniform = true) (hi : i < S) : (tasks i).M = k.maxM := by
  have hall := hk.uniform.mp hu
  rw [hk.maxM, hall i hi]
  exact (maxRows_eq (Nat.zero_lt_of_lt hi) hall).symm

/-- The tile is one the rows of every task can be cut into. -/
theorem Fit.tilesRows (hi : i < S) : TilesRows e (tasks i).w.K (tasks i).w.N (tasks i).M k.cap := by
  obtain ⟨hok, hrem⟩ := hk.height i hi
  refine (tilesRows_iff e _ _ _ _).mpr ⟨?_, hok, hrem⟩
  have hcap := Nat.le_trans hk.cap_le.2 (minCap_le hi)
  unfold taskCap at hcap
  dsimp only at hcap
  split at hcap <;> omega

/-- A batch that needs no row blocks has legal heights as it is. -/
theorem Fit.legal (hmax : k.maxM ≤ k.cap) (hi : i < S) :
    LegalHeight e (tasks i).w.K (tasks i).w.N (tasks i).M := by
  obtain ⟨hcap, hrem⟩ := hk.tilesRows hi
  have hpos := (hk.accepts i hi).1.2.1
  rcases Nat.lt_or_ge (tasks i).M k.cap with hlt | hge
  · rw [Nat.mod_eq_of_lt hlt] at hrem
    exact hrem.resolve_left hpos.ne'
  · have hM : (tasks i).M = k.cap := by
      have := hk.rows_le hi
      omega
    rwa [hM]

theorem Fit.le_hard (hpos : 0 < hard) (h0 : 0 < S) : k.cap ≤ hard := by
  have hcap := Nat.le_trans hk.cap_le.2 (minCap_le h0)
  unfold taskCap at hcap
  dsimp only at hcap
  split at hcap <;> omega

/-! ### Row blocks -/

omit hk in
/-- A row block is a whole tile, or what is left. -/
theorem pieceLen_eq_or {n size : Nat} (h : j < pieces n size) (hs : 0 < size) :
    pieceLen n size j = size ∨ pieceLen n size j = n % size ∧ n % size ≠ 0 := by
  rw [lt_pieces_iff hs] at h
  unfold pieceLen
  split
  · next hlt =>
      have hn : n = j * size + (n - j * size) := by omega
      have hmod := (digits_div_mod hlt j).2
      rw [← hn] at hmod
      exact .inr ⟨hmod.symm, by omega⟩
  · exact .inl rfl

/-- A row block is accepted, and is its own only row block. -/
theorem Fit.check_block (hu : k.uniform = true) (hj : j < pieces k.maxM k.cap) (h0 : 0 < S) :
    f16StreamCheck e hard S (block k tasks j) =
      some ⟨pieceLen k.maxM k.cap j, pieceLen k.maxM k.cap j, true⟩ := by
  have hmc : 0 < pieceLen k.maxM k.cap j := pieceLen_pos hk.cap_pos hj
  have hle : pieceLen k.maxM k.cap j ≤ minCap e hard S tasks := Nat.le_trans pieceLen_le_size hk.cap_le.2
  have hacc : ¬ ∃ i < S, ¬ Accepts (block k tasks j i) := by
    rintro ⟨i, hi, hno⟩
    obtain ⟨⟨hdt, -, hSn⟩, hrest⟩ := hk.accepts i hi
    exact hno ⟨⟨hdt, hmc, hSn⟩, hrest⟩
  have hmax : maxRows S (block k tasks j) = pieceLen k.maxM k.cap j := maxRows_eq h0 fun _ _ => rfl
  have hmin : minCap e hard S (block k tasks j) = minCap e hard S tasks := minCap_congr fun _ => rfl
  have hheight : ∀ i < S, HeightOk (block k tasks j i) (pieceLen k.maxM k.cap j) := by
    intro i hi
    refine ⟨?_, .inl (Nat.mod_self _)⟩
    obtain ⟨hok, hrem⟩ := hk.height i hi
    rw [hk.rows_eq hu hi] at hrem
    rcases pieceLen_eq_or hj hk.cap_pos with heq | ⟨heq, hne⟩
    · rw [heq]
      exact hok
    · rw [heq]
      exact hrem.resolve_left hne
  have hbound : (if pieceLen k.maxM k.cap j < minCap e hard S tasks then pieceLen k.maxM k.cap j
      else minCap e hard S tasks) = pieceLen k.maxM k.cap j := by
    split <;> omega
  have hfind : Nat.findGreatest (fun h => ∀ i < S, HeightOk (block k tasks j i) h) (pieceLen k.maxM k.cap j) =
      pieceLen k.maxM k.cap j := Nat.findGreatest_eq hheight
  unfold f16StreamCheck
  rw [if_neg hacc]
  dsimp only
  rw [hmax, hmin, hbound, hfind, if_neg (Nat.not_lt.mpr hmc)]
  exact congrArg some (congrArg _ (decide_eq_true fun _ _ => rfl))

/-- The cubes are there already. -/
theorem Fit.built_block (b : BfullEnv R) (j : Nat) : built c e b S (block k tasks j) = block k tasks j := by
  funext i
  unfold built
  split
  · next hi =>
      have hcube : (tasks i).w.Bfull.isSome := (hk.accepts i hi.1).2.1.resolve_left hi.2
      have hkeep : orkiF16Bfull c e (b.granted i) (b.fresh i) (tasks i).w = (tasks i).w := by
        unfold orkiF16Bfull
        rw [if_neg]
        rintro ⟨hnone, -⟩
        rw [Option.isNone_iff_eq_none.mp hnone] at hcube
        cases hcube
      show { block k tasks j i with w := orkiF16Bfull c e (b.granted i) (b.fresh i) (tasks i).w } = _
      rw [hkeep]
      rfl
  · rfl

omit hk

/-! ### Calls -/

/-- The row blocks of a batch one after another, each run as it is. -/
def Runner.sweep (x : Runner E P R) (S : Nat) (env : List Nat → E) (k : Checked) (tasks : Nat → MmTaskF16 R)
    (C : Nat → Nat → R) (n : Nat) : Ran P R :=
  (List.range n).foldl (fun r j => if r.ret ≠ 0 then r
    else r.join k tasks j (x.body (env [j]) S (block k tasks j) fun i y => r.C i (j * k.cap * (tasks i).w.N + y))) ⟨0, C, []⟩

/-- What a stream comes to. -/
def Runner.outcome (x : Runner E P R) (c : OrkNpu) (e : F16Knobs) (S : Nat) (env : List Nat → E)
    (tasks : Nat → MmTaskF16 R) (C : Nat → Nat → R) : Ran P R :=
  if S < 1 then ⟨-2, C, []⟩
  else
    match f16StreamCheck e x.hard S (built c e (x.bfull (env [])) S tasks) with
    | none => ⟨-2, C, []⟩
    | some k =>
      if k.cap < k.maxM then
        if k.uniform = false then ⟨-2, C, []⟩
        else x.sweep S env k (built c e (x.bfull (env [])) S tasks) C (pieces k.maxM k.cap)
      else x.body (env []) S (built c e (x.bfull (env [])) S tasks) C

variable (x : Runner E P R) (env : List Nat → E) (C : Nat → Nat → R)

theorem Runner.run_block (hk : Fit e x.hard S tasks k) (hu : k.uniform = true) (hj : j < pieces k.maxM k.cap) (h0 : 0 < S)
    (fuel : Nat) : x.run c e S (fuel + 1) env (block k tasks j) C = some (x.body (env []) S (block k tasks j) C) := by
  unfold run
  rw [if_neg (Nat.not_lt.mpr h0)]
  dsimp only
  rw [hk.built_block, hk.check_block hu hj h0]
  dsimp only
  rw [if_neg (Nat.lt_irrefl _)]

/-- A stream ends, two calls deep at most. -/
theorem Runner.run_eq (fuel : Nat) : x.run c e S (fuel + 2) env tasks C = some (x.outcome c e S env tasks C) := by
  unfold run outcome
  dsimp only
  split
  · rfl
  next h0 =>
  generalize built c e (x.bfull (env [])) S tasks = T
  cases hcheck : f16StreamCheck e x.hard S T with
  | none => rfl
  | some k =>
      have hk := check_fit hcheck
      dsimp only
      split
      · unfold f16StreamMtile
        split
        · rfl
        next hu =>
        have hu := Bool.eq_true_of_not_eq_false hu
        unfold sweep
        -- every row block of the loop is accepted as it is
        have hloop : ∀ n ≤ pieces k.maxM k.cap, ∀ r : Ran P R,
            (List.range n).foldlM (mtileStep k T fun j => x.run c e S (fuel + 1) fun p => env (j :: p)) r =
              some ((List.range n).foldl (fun r j => if r.ret ≠ 0 then r else r.join k T j
                (x.body (env [j]) S (block k T j) fun i y => r.C i (j * k.cap * (T i).w.N + y))) r) := by
          intro n hn r
          induction n with
          | zero => rfl
          | succ n ih =>
              rw [List.range_succ, List.foldlM_append, ih (Nat.le_of_succ_le hn), List.foldl_append]
              generalize (List.range n).foldl _ r = r'
              simp only [Option.bind_eq_bind, Option.bind_some, List.foldlM_cons, List.foldlM_nil, List.foldl_cons,
                List.foldl_nil, mtileStep]
              split
              · rfl
              · rw [x.run_block _ _ hk hu hn (Nat.not_lt.mp h0) fuel]
                rfl
        exact hloop _ (Nat.le_refl _) _
      · rfl

/-! ### What a batch comes to -/

/-- The batch is not refused for rows that would have to be cut and are not the same for all tasks. -/
def Checked.Runs (k : Checked) : Prop := k.cap < k.maxM → k.uniform = true

/-- The batches that are run, with the numbers of their row blocks. -/
def leaves (k : Checked) (tasks : Nat → MmTaskF16 R) : List (List Nat × (Nat → MmTaskF16 R)) :=
  if k.cap < k.maxM then
    if k.uniform = true then (List.range (pieces k.maxM k.cap)).map fun j => ([j], block k tasks j) else []
  else [([], tasks)]

theorem runs_of_leaf {l : List Nat × (Nat → MmTaskF16 R)} (hl : l ∈ leaves k tasks) : k.Runs := by
  intro hmax
  unfold leaves at hl
  rw [if_pos hmax] at hl
  by_contra hu
  rw [if_neg hu] at hl
  exact absurd hl List.not_mem_nil

theorem leaves_w {l : List Nat × (Nat → MmTaskF16 R)} (hl : l ∈ leaves k tasks) (i : Nat) : (l.2 i).w = (tasks i).w := by
  unfold leaves at hl
  split_ifs at hl
  · obtain ⟨j, -, rfl⟩ := List.mem_map.mp hl
    rfl
  · exact absurd hl List.not_mem_nil
  · obtain rfl := List.mem_singleton.mp hl
    rfl

/-- All of them are accepted, and need no row blocks. -/
theorem leaves_fit (hk : Fit e hard S tasks k) (h0 : 0 < S) {l : List Nat × (Nat → MmTaskF16 R)} (hl : l ∈ leaves k tasks) :
    ∃ k', Fit e hard S l.2 k' ∧ k'.maxM ≤ k'.cap := by
  unfold leaves at hl
  split_ifs at hl with hmax hu
  · obtain ⟨j, hj, rfl⟩ := List.mem_map.mp hl
    exact ⟨_, check_fit (hk.check_block hu (List.mem_range.mp hj) h0), Nat.le_refl _⟩
  · exact absurd hl List.not_mem_nil
  · obtain rfl := List.mem_singleton.mp hl
    exact ⟨k, hk, Nat.not_lt.mp hmax⟩

/-- The C of every task is its product with the matrix `B i`. -/
def Multiplied [NonUnitalNonAssocSemiring R] (S : Nat) (tasks : Nat → MmTaskF16 R) (B C : Nat → Nat → R) : Prop :=
  ∀ i < S, ∀ m < (tasks i).M, ∀ n < (tasks i).w.N,
    C i (m * (tasks i).w.N + n) = matmul (tasks i).A (B i) (tasks i).w.K (tasks i).w.N m n

section

variable {x : Runner E P R} {env : List Nat → E} {C : Nat → Nat → R}

theorem Runner.sweep_succ (n : Nat) : x.sweep S env k tasks C (n + 1) =
    if (x.sweep S env k tasks C n).ret ≠ 0 then x.sweep S env k tasks C n
    else (x.sweep S env k tasks C n).join k tasks n (x.body (env [n]) S (block k tasks n)
      fun i y => (x.sweep S env k tasks C n).C i (n * k.cap * (tasks i).w.N + y)) := by
  unfold sweep
  rw [List.range_succ, List.foldl_append, List.foldl_cons, List.foldl_nil]

/-- The rows of the blocks so far are right, and the next block starts behind them. -/
theorem Runner.sweep_multiplied [NonUnitalNonAssocSemiring R] {B : Nat → Nat → R} (hk : Fit e hard S tasks k)
    (hu : k.uniform = true) {n : Nat} (hn : n ≤ pieces k.maxM k.cap)
    (hbody : ∀ j < n, ∀ C, (x.body (env [j]) S (block k tasks j) C).ret = 0 →
      Multiplied S (block k tasks j) B (x.body (env [j]) S (block k tasks j) C).C)
    (hret : (x.sweep S env k tasks C n).ret = 0) :
    ∀ i < S, ∀ m < (tasks i).M, m < n * k.cap → ∀ l < (tasks i).w.N,
      (x.sweep S env k tasks C n).C i (m * (tasks i).w.N + l) =
        matmul (tasks i).A (B i) (tasks i).w.K (tasks i).w.N m l := by
  induction n with
  | zero =>
      intro i _ m _ hm
      rw [Nat.zero_mul] at hm
      exact absurd hm (Nat.not_lt_zero m)
  | succ n ih =>
      rw [Runner.sweep_succ] at hret ⊢
      split at hret
      · next hne => exact absurd hret hne
      next hzero =>
      rw [if_neg hzero]
      have hdone := ih (Nat.le_of_succ_le hn) (fun j hj => hbody j (Nat.lt_succ_of_lt hj)) (not_not.mp hzero)
      have hnew := hbody n (Nat.lt_succ_self n) _ hret
      intro i hi m hm hmn l hl
      unfold Ran.join
      dsimp only
      by_cases hrow : n * k.cap ≤ m
      · -- a row of the new block
        obtain ⟨r, rfl⟩ := Nat.exists_eq_add_of_le hrow
        have hr : r < pieceLen k.maxM k.cap n := by
          rw [hk.rows_eq hu hi] at hm
          rw [Nat.succ_mul] at hmn
          unfold pieceLen
          split <;> omega
        have hcell : (n * k.cap + r) * (tasks i).w.N + l = n * k.cap * (tasks i).w.N + (r * (tasks i).w.N + l) := by
          rw [Nat.add_mul, Nat.add_assoc]
        rw [hcell, if_pos (Nat.le_add_right _ _), Nat.add_sub_cancel_left]
        refine (hnew i hi r hr l hl).trans (dot_congr (fun kk _ => ?_) fun _ _ => rfl)
        show (tasks i).A (n * k.cap * (tasks i).w.K + (r * (tasks i).w.K + kk)) = _
        rw [Nat.add_mul, Nat.add_assoc]
      · have hlt : m * (tasks i).w.N + l < n * k.cap * (tasks i).w.N := digits_lt (Nat.not_le.mp hrow) hl
        rw [if_neg (Nat.not_le.mpr hlt)]
        exact hdone i hi m hm (Nat.not_le.mp hrow) l hl

theorem Runner.sweep_issued {n : Nat} {p : P} (hp : p ∈ (x.sweep S env k tasks C n).issued) :
    ∃ j < n, ∃ C', p ∈ (x.body (env [j]) S (block k tasks j) C').issued := by
  induction n with
  | zero => exact absurd hp List.not_mem_nil
  | succ n ih =>
      rw [Runner.sweep_succ] at hp
      split at hp
      · obtain ⟨j, hj, hex⟩ := ih hp
        exact ⟨j, Nat.lt_succ_of_lt hj, hex⟩
      · rcases List.mem_append.mp hp with hp | hp
        · obtain ⟨j, hj, hex⟩ := ih hp
          exact ⟨j, Nat.lt_succ_of_lt hj, hex⟩
        · exact ⟨n, Nat.lt_succ_self n, _, hp⟩

/-- If no row block fails, all of them are run. -/
theorem Runner.sweep_all {n : Nat} (h : ∀ j < n, ∀ C, (x.body (env [j]) S (block k tasks j) C).ret = 0) :
    (x.sweep S env k tasks C n).ret = 0 ∧ ∀ j < n, ∃ C',
      ∀ p ∈ (x.body (env [j]) S (block k tasks j) C').issued, p ∈ (x.sweep S env k tasks C n).issued := by
  induction n with
  | zero => exact ⟨rfl, fun j hj => absurd hj (Nat.not_lt_zero j)⟩
  | succ n ih =>
      obtain ⟨hret, hall⟩ := ih fun j hj => h j (Nat.lt_succ_of_lt hj)
      rw [Runner.sweep_succ, if_neg (not_not.mpr hret)]
      refine ⟨h n (Nat.lt_succ_self n) _, fun j hj => ?_⟩
      rcases Nat.lt_succ_iff_lt_or_eq.mp hj with hj | rfl
      · obtain ⟨C', hC'⟩ := hall j hj
        exact ⟨C', fun p hp => List.mem_append_left _ (hC' p hp)⟩
      · exact ⟨_, fun p hp => List.mem_append_right _ hp⟩

theorem Runner.outcome_refused (h : f16StreamCheck e x.hard S (built c e (x.bfull (env [])) S tasks) = none) :
    x.outcome c e S env tasks C = ⟨-2, C, []⟩ := by
  unfold outcome
  rw [h]
  split <;> rfl

variable (hcheck : f16StreamCheck e x.hard S (built c e (x.bfull (env [])) S tasks) = some k) (h0 : 0 < S)
include hcheck h0

theorem Runner.outcome_eq : x.outcome c e S env tasks C =
    if k.cap < k.maxM then
      if k.uniform = false then ⟨-2, C, []⟩
      else x.sweep S env k (built c e (x.bfull (env [])) S tasks) C (pieces k.maxM k.cap)
    else x.body (env []) S (built c e (x.bfull (env [])) S tasks) C := by
  unfold outcome
  rw [if_neg (Nat.not_lt.mpr h0), hcheck]

/-- If all that is run is right, so is the batch. -/
theorem Runner.outcome_multiplied [NonUnitalNonAssocSemiring R] {B : Nat → Nat → R}
    (hbody : ∀ l ∈ leaves k (built c e (x.bfull (env [])) S tasks), ∀ C, (x.body (env l.1) S l.2 C).ret = 0 →
      Multiplied S l.2 B (x.body (env l.1) S l.2 C).C)
    (hret : (x.outcome c e S env tasks C).ret = 0) :
    Multiplied S (built c e (x.bfull (env [])) S tasks) B (x.outcome c e S env tasks C).C := by
  have hk := check_fit hcheck
  rw [Runner.outcome_eq hcheck h0] at hret ⊢
  generalize built c e (x.bfull (env [])) S tasks = T at hk hbody hret ⊢
  unfold leaves at hbody
  by_cases hmax : k.cap < k.maxM
  · rw [if_pos hmax] at hret hbody ⊢
    by_cases hno : k.uniform = false
    · rw [if_pos hno] at hret
      change (-2 : Int) = 0 at hret
      exact absurd hret (by decide)
    · have hu := Bool.eq_true_of_not_eq_false hno
      rw [if_neg hno] at hret ⊢
      rw [if_pos hu] at hbody
      have hrows := Runner.sweep_multiplied hk hu (Nat.le_refl _)
        (fun j hj => hbody ([j], block k T j) (List.mem_map_of_mem (List.mem_range.mpr hj))) hret
      have hall : k.maxM ≤ pieces k.maxM k.cap * k.cap :=
        Nat.not_lt.mp fun hlt => Nat.lt_irrefl _ ((lt_pieces_iff hk.cap_pos).mpr hlt)
      intro i hi m hm l hl
      have hle := hk.rows_le hi
      exact hrows i hi m hm (by omega) l hl
  · rw [if_neg hmax] at hret hbody ⊢
    exact hbody ([], T) List.mem_cons_self C hret

theorem Runner.outcome_issued {p : P} (hp : p ∈ (x.outcome c e S env tasks C).issued) :
    ∃ l ∈ leaves k (built c e (x.bfull (env [])) S tasks), ∃ C', p ∈ (x.body (env l.1) S l.2 C').issued := by
  rw [Runner.outcome_eq hcheck h0] at hp
  unfold leaves
  split at hp
  · next hmax =>
      rw [if_pos hmax]
      split at hp
      · exact absurd hp List.not_mem_nil
      · next hu =>
          rw [if_pos (Bool.eq_true_of_not_eq_false hu)]
          obtain ⟨j, hj, hex⟩ := Runner.sweep_issued hp
          exact ⟨_, List.mem_map_of_mem (List.mem_range.mpr hj), hex⟩
  · next hmax =>
      rw [if_neg hmax]
      exact ⟨_, List.mem_cons_self, C, hp⟩

/-- If nothing that is run fails, all of it is. -/
theorem Runner.outcome_all (hruns : k.Runs)
    (h : ∀ l ∈ leaves k (built c e (x.bfull (env [])) S tasks), ∀ C, (x.body (env l.1) S l.2 C).ret = 0) :
    (x.outcome c e S env tasks C).ret = 0 ∧ ∀ l ∈ leaves k (built c e (x.bfull (env [])) S tasks), ∃ C',
      ∀ p ∈ (x.body (env l.1) S l.2 C').issued, p ∈ (x.outcome c e S env tasks C).issued := by
  rw [Runner.outcome_eq hcheck h0]
  generalize built c e (x.bfull (env [])) S tasks = T at h ⊢
  unfold leaves at h ⊢
  by_cases hmax : k.cap < k.maxM
  · have hu := hruns hmax
    rw [if_pos hmax, if_pos hu] at h ⊢
    rw [if_pos hmax, if_neg (by rw [hu]; decide)]
    have hall := Runner.sweep_all (C := C) fun j hj => h _ (List.mem_map_of_mem (List.mem_range.mpr hj))
    refine ⟨hall.1, fun l hl => ?_⟩
    obtain ⟨j, hj, rfl⟩ := List.mem_map.mp hl
    exact hall.2 j (List.mem_range.mp hj)
  · rw [if_neg hmax] at h ⊢
    rw [if_neg hmax]
    refine ⟨h _ List.mem_cons_self C, fun l hl => ?_⟩
    obtain rfl := List.mem_singleton.mp hl
    exact ⟨C, fun p hp => hp⟩

/-- With 0 something has been run. -/
theorem Runner.runs_of_ret (hret : (x.outcome c e S env tasks C).ret = 0) : k.Runs := by
  intro hmax
  rw [Runner.outcome_eq hcheck h0, if_pos hmax] at hret
  by_contra hu
  rw [if_pos (Bool.eq_false_of_not_eq_true hu)] at hret
  exact absurd (show (-2 : Int) = 0 from hret) (by decide)

end

end OrkDriver.F16Stream
