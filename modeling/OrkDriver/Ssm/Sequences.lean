import OrkDriver.Ssm.Chunks

/-!
Whole sequences where the chunks go one by one: the carry between chunks, the rows of `y` and the state at the end.
-/

namespace OrkDriver.Ssm.Scan

open Lib Lib.Assign

variable {R : Type*} [CommRing R] {q : Scan R} {m : Mem R} {seq cc n : Nat} {slot cs hs : Nat → Nat}

/-! ### The rows of `y` -/

/-- Rows of `y` that stand for the recurrence. -/
def Row (q : Scan R) (m : Mem R) (seq t : Nat) : Prop :=
  Holds m .y (seq * q.nt + t) q.z.nh q.z.nr fun h i => q.output seq h t i

theorem mem_post {s : Stmt R} {h S : Nat} : s ∈ q.post seq cc h S ↔ ∃ l < q.z.csz, cc * q.z.csz + l < q.nt ∧
    ∃ i < q.z.nr, s = .set .y (((seq * q.nt + (cc * q.z.csz + l)) * q.z.nh + h) * q.z.nr + i) fun m =>
      m (.buf .Yd) ((S * q.z.csz + l) * q.z.nr + i)
        + m (.buf .tmp) ((S * q.z.csz + l) * q.z.nr + i) * q.exp (m (.buf .Acs) (S * q.z.csz + l)) := by
  constructor
  · intro hs
    obtain ⟨l, hl, hs⟩ := mem_times.mp hs
    split at hs
    · cases hs
    · obtain ⟨i, hi, hs⟩ := mem_times.mp hs
      exact ⟨l, hl, Nat.lt_of_not_le ‹_›, i, hi, List.mem_singleton.mp hs⟩
  · rintro ⟨l, hl, ht, i, hi, rfl⟩
    refine mem_times.mpr ⟨l, hl, ?_⟩
    rw [if_neg (Nat.not_le.mpr ht)]
    exact mem_times.mpr ⟨i, hi, List.mem_singleton.mpr rfl⟩

/-- The cells of `y` for the tokens of chunk `cc`. -/
def InChunk (q : Scan R) (seq cc : Nat) (a : Arr) (x : Nat) : Prop :=
  a = .y ∧ ∃ l < q.z.csz, cc * q.z.csz + l < q.nt ∧ InSlot (seq * q.nt + (cc * q.z.csz + l)) q.z.nh q.z.nr x

theorem post_writes {h S : Nat} (hh : h < q.z.nh) : ∀ s ∈ q.post seq cc h S, WritesIn (q.InChunk seq cc) s := by
  intro s hs
  obtain ⟨l, hl, ht, i, hi, rfl⟩ := mem_post.mp hs
  exact ⟨rfl, l, hl, ht, h, hh, i, hi, rfl⟩

/-- What is known of a slot when the products are there. -/
def multiplied (q : Scan R) (seq cc h : Nat) : Facts R :=
  q.prepared seq cc h ++ q.intra seq cc h ++ q.contributed seq cc h ++ q.inter seq cc h

theorem post_all (hd : ∀ i < n, hs i < q.z.nh) (hm : ∀ i < n, Holding q.dims m (slot i) (q.multiplied seq (cs i) (hs i))) :
    ∀ i < n, ∀ l < q.z.csz, cs i * q.z.csz + l < q.nt → ∀ j < q.z.nr,
      run m (times n fun i => q.post seq (cs i) (hs i) (slot i)) .y
        (((seq * q.nt + (cs i * q.z.csz + l)) * q.z.nh + hs i) * q.z.nr + j) =
          q.output seq (hs i) (cs i * q.z.csz + l) j := by
  intro i hi l hl ht j hj
  refine run_of_mem (W := (· = .y)) ?_ ?_ ?_ ?_
  · exact forall_mem_times fun i hi s hs => (post_writes (hd i hi) s hs).mono fun _ _ h => h.1
  · refine forall_mem_times fun i _ s hs => ?_
    obtain ⟨l, -, -, i, -, rfl⟩ := mem_post.mp hs
    intro m m' hm
    dsimp only
    rw [hm (.buf .Yd) (by simp), hm (.buf .tmp) (by simp), hm (.buf .Acs) (by simp)]
  · exact ⟨_, mem_times.mpr ⟨i, hi, mem_post.mpr ⟨l, hl, ht, j, hj, rfl⟩⟩⟩
  · intro v hv
    obtain ⟨i', hi', hv⟩ := mem_times.mp hv
    obtain ⟨l', hl', ht', j', hj', heq⟩ := mem_post.mp hv
    injection heq with _ hidx hval
    obtain ⟨hrow, rfl⟩ := digits_inj hj hj' hidx
    obtain ⟨htok, hhead⟩ := digits_inj (hd i hi) (hd i' hi') hrow
    have htok := Nat.add_left_cancel htok
    have hslot := hm i' hi'
    have hY : m (.buf .Yd) ((slot i' * q.z.csz + l') * q.z.nr + j) = q.intraVal seq (cs i') (hs i') l' j :=
      hslot (.buf .Yd, q.intraVal seq (cs i') (hs i')) (by simp [multiplied, intra]) l' hl' j hj'
    have hT : m (.buf .tmp) ((slot i' * q.z.csz + l') * q.z.nr + j) = q.interVal seq (cs i') (hs i') l' j :=
      hslot (.buf .tmp, q.interVal seq (cs i') (hs i')) (by simp [multiplied, inter]) l' hl' j hj'
    have hA : (Arr.buf .Acs, fun _ l => q.runSum seq (cs i') (hs i') (l + 1)) ∈ q.multiplied seq (cs i') (hs i') := by
      simp [multiplied, prepared]
    rw [hval]
    dsimp only
    rw [hY, hT, holding_Acs hslot hA hl', q.output_eq hl' ht', htok, hhead]

/-! ### The chunks, one by one -/

section

variable {ε : Nat → R} {σ π : Nat → Nat → Nat → R}

/-- `Aclp`, `state` and `stp`. -/
def carrying (ε : Nat → R) (σ π : Nat → Nat → Nat → R) (h : Nat) : Facts R :=
  [(.buf .Aclp, fun _ _ => ε h), (.buf .state, σ h), (.buf .stp, π h)]

theorem startSeq_all : FillsAll q.dims q.z.nh id (q.startSeq seq) [.buf .state, .buf .stp, .buf .Aclp] (fun _ => [])
    (carrying (fun _ => 0) (fun h i n => q.stateAt seq h i n 0) fun _ _ _ => 0) := by
  have hstate : FillsAll q.dims q.z.nh id
      (times (q.z.nh * q.z.nr * q.z.nc) fun i =>
        [.set (.buf .state) i fun _ => q.s0 (seq * q.z.nh * q.z.nr * q.z.nc + i)])
      [.buf .state] (fun _ => []) fun h => [(.buf .state, fun i n => q.stateAt seq h i n 0)] := by
    refine .sweep rfl (fun _ _ _ _ => rfl) fun m _ h _ i _ n _ => ?_
    rw [stateAt]
    congr 1
    ring
  have hstp : FillsAll q.dims q.z.nh id (times (q.z.nh * q.z.nr * q.z.nc) fun i => [.set (.buf .stp) i fun _ => (0 : R)])
      [.buf .stp] (fun _ => []) fun _ => [(.buf .stp, fun _ _ => 0)] :=
    .sweep (f := fun _ _ _ => 0) rfl (fun _ _ _ _ => rfl) fun _ _ _ _ _ _ _ _ => rfl
  have hacl : FillsAll q.dims q.z.nh id (times q.z.nh fun h => [.set (.buf .Aclp) h fun _ => (0 : R)])
      [.buf .Aclp] (fun _ => []) fun _ => [(.buf .Aclp, fun _ _ => 0)] :=
    .times ne_id fun _ _ => fills_single rfl fun _ _ => rfl
  have hboth := hstate.append hstp (L := fun _ => []) (by simp) (by simp) (by simp)
  exact (hboth.append hacl (fun _ _ _ hp => hp) (by simp) (by simp)).mono (by simp) (by simp) (by simp [carrying])

theorem carry_all : FillsAll q.dims q.z.nh id q.carry [.buf .state] (carrying ε σ π)
    fun h => [(.buf .state, fun i n => q.exp (ε h) * σ h i n + π h i n)] := by
  refine .times ne_id fun h _ => Fills.sweep rfl ?_
  intro m hm i hi n hn m' hm'
  have hcells : ∀ b, b ≠ .buf .state → m' b = m b := fun b hb => funext fun x => hm' b x fun hbad => hb hbad.1
  have hstate : m (.buf .state) (h * q.z.nr * q.z.nc + (i * q.z.nc + n)) = σ h i n := by
    rw [← slot_index]
    exact hm.cell (f := σ h) (by simp [carrying]) hi hn
  have hstp : m (.buf .stp) (h * q.z.nr * q.z.nc + (i * q.z.nc + n)) = π h i n := by
    rw [← slot_index]
    exact hm.cell (f := π h) (by simp [carrying]) hi hn
  have hown : m' (.buf .state) (h * q.z.nr * q.z.nc + (i * q.z.nc + n)) =
      m (.buf .state) (h * q.z.nr * q.z.nc + (i * q.z.nc + n)) := hm' _ _ fun hbad => hbad.2.2 rfl
  have hacl : m (.buf .Aclp) h = ε h := holding_single rfl hm List.mem_cons_self
  rw [hown, hcells (.buf .stp) (by simp), hcells (.buf .Aclp) (by simp), hstate, hstp, hacl]

/-- What a chunk is entered with. -/
def Entry (q : Scan R) (seq cc : Nat) (m : Mem R) : Prop :=
  ∃ ε σ π, (∀ h < q.z.nh, Holding q.dims m h (carrying ε σ π h)) ∧
    (∀ h i n, q.exp (ε h) * σ h i n + π h i n = q.held seq h i n (cc * q.z.csz)) ∧
    (cc = 0 → ∀ h i n, σ h i n = q.held seq h i n (cc * q.z.csz))

theorem entry_zero : q.Entry seq 0 (run m (q.startSeq seq)) := by
  refine ⟨_, _, _, startSeq_all.holds m (fun _ _ => by simp [Holding]), fun h i n => ?_, fun _ h i n => ?_⟩
  · rw [AddChar.map_zero_eq_one, one_mul, add_zero, Nat.zero_mul, held, Nat.zero_min]
  · rw [Nat.zero_mul, held, Nat.zero_min]

theorem startChunk_holding (hcsz : 0 < q.z.csz) (hm : q.Entry seq cc m) :
    ∀ h < q.z.nh, Holding q.dims (run m (q.startChunk seq cc)) h (q.prepared seq cc h ++ q.entered seq cc h) := by
  obtain ⟨ε, σ, π, hold, hsum, hfirst⟩ := hm
  have hprep : FillsAll q.dims q.z.nh id (times q.z.nh fun h => q.prep seq cc h h) _ (fun _ => []) (q.prepared seq cc) :=
    prep_all ne_id hcsz
  intro h hh
  have hp := hprep.holds m (fun _ _ => by simp [Holding])
  have hkept : ∀ h < q.z.nh, Holding q.dims (run m (times q.z.nh fun h => q.prep seq cc h h)) h (carrying ε σ π h) :=
    fun h hh => (hold h hh).run hprep.writes (.inr (by simp [carrying]))
  have hcarry := carry_all (q := q) (ε := ε) (σ := σ) (π := π)
  rw [startChunk, run_append]
  by_cases hcc : 0 < cc
  · rw [if_pos hcc]
    refine ((hp h hh).run hcarry.writes (.inr (by simp [prepared]))).append ?_
    have hstate := hcarry.holds _ hkept h hh
    simpa only [entered, hsum] using hstate
  · rw [if_neg hcc]
    obtain rfl := Nat.eq_zero_of_not_pos hcc
    refine (hp h hh).append ?_
    have hstate : Holding q.dims (run m (times q.z.nh fun h => q.prep seq 0 h h)) h [(.buf .state, σ h)] :=
      (hkept h hh).mono (by simp [carrying])
    have hval : σ h = fun i n => q.held seq h i n (0 * q.z.csz) := funext fun i => funext fun n => hfirst rfl h i n
    rwa [hval] at hstate

theorem products_all : FillsAll q.dims n id
    (q.stgs n ++ stg n .pO q.z.csz q.z.nc q.z.nr .aO .bO .tmp)
    [.weight .pD, .buf .Yd, .weight .pC, .buf .cs, .weight .pO, .buf .tmp] (fun i => q.ready seq (cs i) (hs i))
    fun i => q.intra seq (cs i) (hs i) ++ q.contributed seq (cs i) (hs i) ++ q.inter seq (cs i) (hs i) :=
  stgs_all.append inter_stage (by simp +contextual [ready, or_imp]) (by simp [ready, operands, carried])
    (by simp [intra, contributed])

/-- What the copies at the end of a chunk leave for the next one. -/
theorem copies_all : FillsAll q.dims q.z.nh id
    ((times (q.z.nh * q.z.nr * q.z.nc) fun i => [.set (.buf .stp) i fun m => m (.buf .cs) i])
      ++ times q.z.nh fun h => [.set (.buf .Aclp) h fun m => m (.buf .Acl) h])
    [.buf .stp, .buf .Aclp] (fun h => q.multiplied seq cc h ++ q.entered seq cc h)
    (carrying (fun h => q.runSum seq cc h q.z.csz) (fun h i n => q.held seq h i n (cc * q.z.csz)) (q.chunkVal seq cc)) := by
  have hstp : FillsAll q.dims q.z.nh id
      (times (q.z.nh * q.z.nr * q.z.nc) fun i => [.set (.buf .stp) i fun m => m (.buf .cs) i])
      [.buf .stp] (q.contributed seq cc) fun h => [(.buf .stp, q.chunkVal seq cc h)] := by
    refine .sweep rfl (fun x m m' hm => by rw [hm _ (by simp)]) fun m hm h hh i hi n hn => ?_
    exact (hm h hh).cell List.mem_cons_self hi hn
  have hacl : FillsAll q.dims q.z.nh id (times q.z.nh fun h => [.set (.buf .Aclp) h fun m => m (.buf .Acl) h])
      [.buf .Aclp] (q.prepared seq cc) fun h => [(.buf .Aclp, fun _ _ => q.runSum seq cc h q.z.csz)] :=
    .times ne_id fun h _ => fills_single rfl fun m hm => holding_single rfl hm (by simp [prepared])
  have hboth := hstp.append hacl (L := fun h => q.multiplied seq cc h ++ q.entered seq cc h)
    (by simp [multiplied, contributed]) (by simp [multiplied, prepared]) (by simp)
  have hall := hboth.frame (K := fun h => q.entered seq cc h) (by simp [entered])
  exact hall.mono (fun _ h => h) (fun _ _ _ hp => hp) (by simp [carrying, entered])

theorem endChunk_holds (hm : ∀ h < q.z.nh, Holding q.dims m h (q.prepared seq cc h ++ q.entered seq cc h ++ q.ready seq cc h)) :
    q.Entry seq (cc + 1) (run m (q.endChunk seq cc)) ∧
      (∀ l < q.z.csz, cc * q.z.csz + l < q.nt → q.Row (run m (q.endChunk seq cc)) seq (cc * q.z.csz + l)) ∧
      ∀ x, ¬ q.InChunk seq cc .y x → run m (q.endChunk seq cc) .y x = m .y x := by
  have hproducts : FillsAll q.dims q.z.nh id _ _ (q.ready seq cc)
      fun h => q.intra seq cc h ++ q.contributed seq cc h ++ q.inter seq cc h := products_all
  have hdone : ∀ h < q.z.nh, Holding q.dims
      (run m (q.stgs q.z.nh ++ stg q.z.nh .pO q.z.csz q.z.nc q.z.nr .aO .bO .tmp)) h
      (q.multiplied seq cc h ++ q.entered seq cc h) := by
    intro h hh
    have hnew := hproducts.holds m (fun i hi => (hm i hi).mono (by simp +contextual)) h hh
    have hbefore : Holding q.dims m h (q.prepared seq cc h ++ q.entered seq cc h) :=
      (hm h hh).mono fun p hp => List.mem_append_left _ hp
    have hkept := hbefore.run hproducts.writes (.inr (by simp [prepared, entered]))
    exact (hkept.append hnew).mono (by simp +contextual [multiplied, or_imp])
  have hy : run m (q.stgs q.z.nh ++ stg q.z.nh .pO q.z.csz q.z.nc q.z.nr .aO .bO .tmp) .y = m .y :=
    run_off hproducts.writes (by simp)
  have hcopies := @copies_all R _ q seq cc
  have hpost : ∀ s ∈ (times q.z.nh fun h => q.post seq cc h h), WritesIn (q.InChunk seq cc) s :=
    forall_mem_times fun h hh => post_writes hh
  have hsplit : run m (q.endChunk seq cc) =
      run (run (run m (q.stgs q.z.nh ++ stg q.z.nh .pO q.z.csz q.z.nc q.z.nr .aO .bO .tmp))
          (times q.z.nh fun h => q.post seq cc h h))
        ((times (q.z.nh * q.z.nr * q.z.nc) fun i => [.set (.buf .stp) i fun m => m (.buf .cs) i])
          ++ times q.z.nh fun h => [.set (.buf .Aclp) h fun m => m (.buf .Acl) h]) := by
    simp only [endChunk, run_append]
  rw [hsplit]
  generalize run m (q.stgs q.z.nh ++ stg q.z.nh .pO q.z.csz q.z.nc q.z.nr .aO .bO .tmp) = m₁ at hdone hy
  have hrows : ∀ h < q.z.nh, ∀ l < q.z.csz, cc * q.z.csz + l < q.nt → ∀ j < q.z.nr,
      run m₁ (times q.z.nh fun h => q.post seq cc h h) .y
        (((seq * q.nt + (cc * q.z.csz + l)) * q.z.nh + h) * q.z.nr + j) = q.output seq h (cc * q.z.csz + l) j :=
    post_all (fun _ h => h) fun h hh => (hdone h hh).mono fun p hp => List.mem_append_left _ hp
  have hkept : ∀ h < q.z.nh, Holding q.dims (run m₁ (times q.z.nh fun h => q.post seq cc h h)) h
      (q.multiplied seq cc h ++ q.entered seq cc h) := fun h hh => (hdone h hh).of_eq fun p hp =>
    run_array (W := (· = .y)) (fun s hs => (hpost s hs).mono fun _ _ h => h.1) (by
      revert p
      simp [multiplied, prepared, intra, contributed, inter, entered])
  have hlast : run (run m₁ (times q.z.nh fun h => q.post seq cc h h)) _ .y = _ := run_off hcopies.writes (by simp)
  refine ⟨⟨_, _, _, hcopies.holds _ hkept, fun h i n => q.held_next seq cc h i n, fun h0 => absurd h0 (Nat.succ_ne_zero cc)⟩,
    ?_, ?_⟩
  · intro l hl ht h hh j hj
    rw [hlast]
    exact hrows h hh l hl ht j hj
  · intro x hx
    rw [hlast, run_of_notMem hpost hx, hy]

/-- A chunk whose operands are made by `front`. -/
def chunkWith (q : Scan R) (front : Nat → List (Stmt R)) (seq cc : Nat) : List (Stmt R) :=
  q.startChunk seq cc ++ front cc ++ q.endChunk seq cc

variable {front : Nat → List (Stmt R)}
  (hfront : ∀ cc, FillsAll q.dims q.z.nh id (front cc) readied (fun h => q.prepared seq cc h ++ q.entered seq cc h)
    (q.ready seq cc))

theorem startChunk_writes (hcsz : 0 < q.z.csz) : ∀ s ∈ q.startChunk seq cc,
    WritesIn (Cells q.dims [.buf .Acs, .buf .xbar, .buf .Acl, .buf .state] fun S => ∃ h < q.z.nh, S = h) s := by
  intro s hs
  have hprep : FillsAll q.dims q.z.nh id (times q.z.nh fun h => q.prep seq cc h h) _ (fun _ => []) (q.prepared seq cc) :=
    prep_all ne_id hcsz
  have hcarry := carry_all (q := q) (ε := fun _ => 0) (σ := fun _ _ _ => 0) (π := fun _ _ _ => 0)
  rcases List.mem_append.mp hs with hs | hs
  · exact (hprep.writes s hs).mono fun a x h => ⟨List.mem_append_left [Arr.buf .state] h.1, h.2⟩
  · split at hs
    · exact (hcarry.writes s hs).mono fun a x h => ⟨List.mem_append_right [Arr.buf .Acs, .buf .xbar, .buf .Acl] h.1, h.2⟩
    · cases hs

include hfront in
/-- After `n` chunks, the rows of their tokens are done. -/
theorem chunks_hold (hcsz : 0 < q.z.csz) (hm : q.Entry seq 0 m) (n : Nat) :
    q.Entry seq n (run m (times n (q.chunkWith front seq))) ∧
      ∀ t < q.nt, t < n * q.z.csz → q.Row (run m (times n (q.chunkWith front seq))) seq t := by
  refine run_times (fun cc m => q.Entry seq cc m ∧ ∀ t < q.nt, t < cc * q.z.csz → q.Row m seq t) ?_ ?_
  · exact ⟨hm, fun t _ ht => absurd ht (by simp)⟩
  · rintro cc - m ⟨hentry, hrows⟩
    rw [chunkWith, run_append, run_append]
    have hstart := startChunk_holding hcsz hentry
    have hready := fun h hh => ((hstart h hh).run (hfront cc).writes (.inr (by simp [prepared, entered, readied]))).append
      ((hfront cc).holds _ hstart h hh)
    obtain ⟨hnext, hnew, hold⟩ := endChunk_holds hready
    refine ⟨hnext, fun t ht hlt => ?_⟩
    by_cases hbefore : t < cc * q.z.csz
    · intro h hh i hi
      rw [hold, run_off (hfront cc).writes (by simp [readied]), run_off (startChunk_writes hcsz) (by simp)]
      · exact hrows t ht hbefore h hh i hi
      · rintro ⟨-, l, -, hl, hin⟩
        refine not_inSlot ?_ hh hi hin
        omega
    · obtain ⟨l, rfl⟩ := Nat.exists_eq_add_of_le (Nat.le_of_not_lt hbefore)
      rw [Nat.succ_mul] at hlt
      exact hnew l (Nat.lt_of_add_lt_add_left hlt) ht

end

/-! ### The state at the end -/

/-- A state of `sNew` that stands for the recurrence. -/
def Final (q : Scan R) (m : Mem R) (seq h : Nat) : Prop :=
  Holds m .sNew (seq * q.z.nh + h) q.z.nr q.z.nc fun i n => q.stateAt seq h i n q.nt

/-- The cells of the two results for sequence `seq`; the rest belongs to the pool. -/
def Own (q : Scan R) (seq : Nat) : Arr → Nat → Prop
  | .y, x => ∃ t < q.nt, InSlot (seq * q.nt + t) q.z.nh q.z.nr x
  | .sNew, x => ∃ h < q.z.nh, InSlot (seq * q.z.nh + h) q.z.nr q.z.nc x
  | _, _ => True

theorem own_of_cells {W : List Arr} {T : Nat → Prop} {l : List (Stmt R)} (hl : ∀ s ∈ l, WritesIn (Cells q.dims W T) s)
    (hy : .y ∉ W) (hs : .sNew ∉ W) : ∀ s ∈ l, WritesIn (q.Own seq) s := by
  refine fun s hmem => (hl s hmem).mono ?_
  rintro a x ⟨ha, -⟩
  cases a with
  | buf b => trivial
  | weight p => trivial
  | y => exact absurd ha hy
  | sNew => exact absurd ha hs

theorem own_of_post {l : List (Stmt R)} (hl : ∀ s ∈ l, WritesIn (q.InChunk seq cc) s) : ∀ s ∈ l, WritesIn (q.Own seq) s := by
  refine fun s hmem => (hl s hmem).mono ?_
  rintro a x ⟨rfl, l, -, ht, hin⟩
  exact ⟨cc * q.z.csz + l, ht, hin⟩

section

variable {v : Nat → Nat → Mem R → R}

theorem mem_final {s : Stmt R} : (s ∈ times q.z.nh fun h => times (q.z.nr * q.z.nc) fun x =>
      [.set .sNew (seq * q.z.nh * q.z.nr * q.z.nc + (h * q.z.nr * q.z.nc + x)) (v h x)]) ↔
    ∃ h < q.z.nh, ∃ i < q.z.nr, ∃ n < q.z.nc,
      s = .set .sNew (((seq * q.z.nh + h) * q.z.nr + i) * q.z.nc + n) (v h (i * q.z.nc + n)) := by
  have hidx : ∀ h i n, seq * q.z.nh * q.z.nr * q.z.nc + (h * q.z.nr * q.z.nc + (i * q.z.nc + n)) =
      ((seq * q.z.nh + h) * q.z.nr + i) * q.z.nc + n := fun h i n => by ring
  constructor
  · intro hs
    obtain ⟨h, hh, hs⟩ := mem_times.mp hs
    obtain ⟨x, hx, hs⟩ := mem_times.mp hs
    have hc : 0 < q.z.nc := Nat.pos_of_ne_zero fun h => by simp [h] at hx
    refine ⟨h, hh, x / q.z.nc, (Nat.div_lt_iff_lt_mul hc).mpr hx, x % q.z.nc, Nat.mod_lt x hc, ?_⟩
    rw [List.mem_singleton.mp hs, ← hidx, Nat.div_add_mod']
  · rintro ⟨h, hh, i, hi, n, hn, rfl⟩
    refine mem_times.mpr ⟨h, hh, mem_times.mpr ⟨i * q.z.nc + n, digits_lt hi hn, ?_⟩⟩
    rw [List.mem_singleton, hidx]

theorem final_writes : ∀ s ∈ (times q.z.nh fun h => times (q.z.nr * q.z.nc) fun x =>
    [.set .sNew (seq * q.z.nh * q.z.nr * q.z.nc + (h * q.z.nr * q.z.nc + x)) (v h x)]), WritesIn (q.Own seq) s := by
  intro s hs
  obtain ⟨h, hh, i, hi, n, hn, rfl⟩ := mem_final.mp hs
  exact ⟨h, hh, i, hi, n, hn, rfl⟩

theorem final_y : run m (times q.z.nh fun h => times (q.z.nr * q.z.nc) fun x =>
    [.set .sNew (seq * q.z.nh * q.z.nr * q.z.nc + (h * q.z.nr * q.z.nc + x)) (v h x)]) .y = m .y := by
  refine run_array (W := (· = .sNew)) (fun s hs => ?_) (by simp)
  obtain ⟨h, hh, i, hi, n, hn, rfl⟩ := mem_final.mp hs
  rfl

/-- The nest that writes `s_new`, from values that stand for the last state. -/
theorem final_of_values (hr : ∀ h x m m', (∀ b, b ≠ .sNew → m b = m' b) → v h x m = v h x m')
    (hv : ∀ h < q.z.nh, ∀ i < q.z.nr, ∀ n < q.z.nc, v h (i * q.z.nc + n) m = q.stateAt seq h i n q.nt) :
    ∀ h < q.z.nh, q.Final (run m (times q.z.nh fun h => times (q.z.nr * q.z.nc) fun x =>
      [.set .sNew (seq * q.z.nh * q.z.nr * q.z.nc + (h * q.z.nr * q.z.nc + x)) (v h x)])) seq h := by
  intro h hh i hi n hn
  refine run_of_mem (W := (· = .sNew)) ?_ ?_ ?_ ?_
  · intro s hs
    obtain ⟨h, -, i, -, n, -, rfl⟩ := mem_final.mp hs
    rfl
  · intro s hs
    obtain ⟨h, -, i, -, n, -, rfl⟩ := mem_final.mp hs
    exact hr h (i * q.z.nc + n)
  · exact ⟨_, mem_final.mpr ⟨h, hh, i, hi, n, hn, rfl⟩⟩
  · intro w hw
    obtain ⟨h', hh', i', hi', n', hn', heq⟩ := mem_final.mp hw
    injection heq with _ hidx hval
    obtain ⟨hrow, rfl⟩ := digits_inj hn hn' hidx
    obtain ⟨hslot, rfl⟩ := digits_inj hi hi' hrow
    obtain rfl := Nat.add_left_cancel hslot
    rw [hval]
    exact hv h hh i hi n hn

end

/-! ### A whole sequence -/

/-- Sequence `seq` is done. -/
def Done (q : Scan R) (m : Mem R) (seq : Nat) : Prop :=
  (∀ t < q.nt, q.Row m seq t) ∧ ∀ h < q.z.nh, q.Final m seq h

theorem le_chunks (hcsz : 0 < q.z.csz) : q.nt ≤ q.chunks * q.z.csz :=
  not_lt.mp fun hlt => lt_irrefl _ ((lt_pieces_iff hcsz).mpr hlt)

theorem held_chunks (hcsz : 0 < q.z.csz) (h i n : Nat) : q.held seq h i n (q.chunks * q.z.csz) = q.stateAt seq h i n q.nt := by
  rw [held, Nat.min_eq_right (le_chunks hcsz)]

section

variable {front : Nat → List (Stmt R)}
  (hfront : ∀ cc, FillsAll q.dims q.z.nh id (front cc) readied (fun h => q.prepared seq cc h ++ q.entered seq cc h)
    (q.ready seq cc))

include hfront

theorem done_of_chunks (hcsz : 0 < q.z.csz) :
    q.Done (run m (q.startSeq seq ++ times q.chunks (q.chunkWith front seq) ++ q.endSeq seq)) seq := by
  obtain ⟨⟨ε, σ, π, hold, hsum, -⟩, hrows⟩ := chunks_hold hfront hcsz (entry_zero (m := m)) q.chunks
  rw [run_append, run_append]
  generalize run (run m (q.startSeq seq)) (times q.chunks (q.chunkWith front seq)) = m' at hold hrows
  constructor
  · intro t ht
    refine Holds.of_eq (hrows t ht (lt_of_lt_of_le ht (le_chunks hcsz))) ?_
    exact final_y
  · refine final_of_values ?_ ?_
    · intro h x m m' hm
      rw [hm (.buf .Aclp) (by simp), hm (.buf .state) (by simp), hm (.buf .stp) (by simp)]
    · intro h hh i hi n hn
      have hacl : m' (.buf .Aclp) h = ε h := holding_single rfl (hold h hh) List.mem_cons_self
      have hstate : m' (.buf .state) (h * q.z.nr * q.z.nc + (i * q.z.nc + n)) = σ h i n := by
        rw [← slot_index]
        exact (hold h hh).cell (f := σ h) (by simp [carrying]) hi hn
      have hstp : m' (.buf .stp) (h * q.z.nr * q.z.nc + (i * q.z.nc + n)) = π h i n := by
        rw [← slot_index]
        exact (hold h hh).cell (f := π h) (by simp [carrying]) hi hn
      rw [hacl, hstate, hstp, hsum, held_chunks hcsz]

theorem chunks_own (hcsz : 0 < q.z.csz) :
    ∀ s ∈ q.startSeq seq ++ times q.chunks (q.chunkWith front seq) ++ q.endSeq seq, WritesIn (q.Own seq) s := by
  intro s hs
  rcases List.mem_append.mp hs with hs | hs
  · rcases List.mem_append.mp hs with hs | hs
    · exact own_of_cells startSeq_all.writes (by simp) (by simp) s hs
    · obtain ⟨cc, -, hs⟩ := mem_times.mp hs
      rcases List.mem_append.mp hs with hs | hs
      · rcases List.mem_append.mp hs with hs | hs
        · exact own_of_cells (startChunk_writes hcsz) (by simp) (by simp) s hs
        · exact own_of_cells (hfront cc).writes (by simp [readied]) (by simp [readied]) s hs
      · rw [endChunk, List.append_assoc] at hs
        rcases List.mem_append.mp hs with hs | hs
        · rcases List.mem_append.mp hs with hs | hs
          · have hproducts : FillsAll q.dims q.z.nh id _ _ (q.ready seq cc)
                fun h => q.intra seq cc h ++ q.contributed seq cc h ++ q.inter seq cc h := products_all
            exact own_of_cells hproducts.writes (by simp) (by simp) s hs
          · exact own_of_post (forall_mem_times fun h hh => post_writes hh) s hs
        · have hcopies := @copies_all R _ q seq cc
          exact own_of_cells hcopies.writes (by simp) (by simp) s hs
  · exact final_writes s hs

end

end OrkDriver.Ssm.Scan
