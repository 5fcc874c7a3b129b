import OrkDriver.Run.Staged

/-!
What the two loops of `orki_run` emit, and what they leave when they run to their end.
-/

namespace OrkDriver.Run

open OrkDriver.Lib OrkDriver.Npu OrkDriver.Pack

variable {R : Type*} [NonUnitalNonAssocSemiring R]

/-- The program computes the block and slice of its turn, and stays inside the buffers. -/
def Emits (aCells cCells : Nat) (em : Turn × Program) : Prop :=
  0 < em.2.mc ∧ em.1.mc ≤ em.2.mc ∧ em.2.Kp = em.1.t.Kp ∧ em.2.Nc = em.1.t.Nc ∧
    em.2.Inside aCells (em.1.t.Kp * em.1.t.Nc) cCells

/-- The turns of a run that returned 0 take every triple once. -/
def CoversOnce (M N K : Nat) (l : List (Turn × Program)) : Prop :=
  (∀ em ∈ l, em.1.m0 + em.1.mc ≤ M ∧ em.1.t.n0 + em.1.t.Nc ≤ N ∧ em.1.t.k0 + em.1.t.Kp ≤ K) ∧
  ∀ m n k, m < M → n < N → k < K → ∃ em, l.filter (fun em => decide (em.1.Covers m n k)) = [em]

/-! ### The K-sliced loop -/

theorem height_spec (e : F16Knobs) (dt : Dt) (RB : Nat) {s : Turn} (hmc : 0 < s.mc) :
    s.mc ≤ height e dt RB s ∨ height e dt RB s = 0 := by
  unfold height
  split
  · by_cases h0 : orkiF16Mcpad s.t.Kp s.t.Nc (runSched dt s.t.Kp) s.mc (orkiRunLoopChunk e dt s.t.Kp s.t.Nc RB) = 0
    · exact .inr h0
    · exact .inl ((orkiF16Mcpad_spec hmc).2 h0).1
  · exact .inl (Nat.le_refl _)

section

variable {e : F16Knobs} {w : OrkW R} {RB afSize ccSize M : Nat} {accepts : Turn → Bool} {A B : Nat → R} {g : Geom}

/-- Whether a turn runs to its end. -/
def loopOk (e : F16Knobs) (w : OrkW R) (RB afSize ccSize : Nat) (accepts : Turn → Bool) (s : Turn) : Bool :=
  ¬ height e w.dt RB s < 1 ∧ ¬ afSize < height e w.dt RB s * s.t.Kp * esz w.dt ∧
    ¬ ccSize < height e w.dt RB s * s.t.Nc * 4 ∧ accepts s

theorem loopTurn_of_ok {s : Turn} (h : loopOk e w RB afSize ccSize accepts s = true) (st : RunSt R) :
    loopTurn e w RB afSize ccSize accepts A st s = .ok (loopEffect w A s (loopProgram e w.dt RB s) st) := by
  obtain ⟨h1, h2, h3, h4⟩ := of_decide_eq_true h
  simp only [loopTurn, if_neg h1, if_neg h2, if_neg h3, if_pos h4]

theorem loopTurn_of_not_ok {s : Turn} (h : loopOk e w RB afSize ccSize accepts s = false) (st : RunSt R) :
    ∃ st', loopTurn e w RB afSize ccSize accepts A st s = .error st' := by
  have hno := of_decide_eq_false h
  unfold loopTurn
  dsimp only
  split
  · exact ⟨_, rfl⟩
  · split
    · exact ⟨_, rfl⟩
    · split
      · exact ⟨_, rfl⟩
      · split
        · next h1 h2 h3 h4 => exact absurd ⟨h1, h2, h3, h4⟩ hno
        · exact ⟨_, rfl⟩

theorem loop_foldlM {l : List Turn} {st st' : RunSt R} :
    l.foldlM (loopTurn e w RB afSize ccSize accepts A) st = .ok st' ↔
      (∀ s ∈ l, loopOk e w RB afSize ccSize accepts s = true) ∧
        l.foldl (fun st s => loopEffect w A s (loopProgram e w.dt RB s) st) st = st' :=
  foldlM_eq_ok (fun _ _ hs st => loopTurn_of_ok hs st) fun _ _ hs st => loopTurn_of_not_ok hs st

variable (e w RB afSize ccSize M accepts A g) in
/-- Wherever the loop ends, its programs were legal and inside the staging buffers. -/
theorem loop_emits (st : RunSt R) (hst : st.emitted = []) :
    ∀ em ∈ (outcome ((loopTurns e w g RB M).foldlM (loopTurn e w RB afSize ccSize accepts A) st)).emitted,
      Emits (afSize / esz w.dt) (ccSize / 4) em := by
  refine foldlM_outcome (P := fun st : RunSt R => ∀ em ∈ st.emitted, Emits (afSize / esz w.dt) (ccSize / 4) em)
    (fun s hs st hP => ?_) (by rw [hst]; exact fun em hem => absurd hem List.not_mem_nil)
  have hadd : ¬ height e w.dt RB s < 1 → ¬ afSize < height e w.dt RB s * s.t.Kp * esz w.dt →
      ¬ ccSize < height e w.dt RB s * s.t.Nc * 4 →
      ∀ em ∈ st.emitted ++ [(s, loopProgram e w.dt RB s)], Emits (afSize / esz w.dt) (ccSize / 4) em := by
    intro h1 h2 h3 em hem
    rcases List.mem_append.mp hem with hem | hem
    · exact hP em hem
    · obtain rfl := List.mem_singleton.mp hem
      have hpos : 0 < height e w.dt RB s := Nat.not_lt.mp h1
      have hrows := turns_rows (fun t => orkiRunLoopChunk_pos e w.dt t.Kp t.Nc RB) hs
      have hmc := (height_spec e w.dt RB hrows.1).resolve_right (Nat.ne_of_gt hpos)
      rw [Emits, loopProgram_eq]
      refine ⟨hpos, hmc, rfl, rfl, ?_, Nat.le_of_eq (Nat.zero_add _), ?_⟩
      · rw [Nat.le_div_iff_mul_le (esz_pos _), Nat.zero_add]
        exact Nat.not_lt.mp h2
      · rw [Nat.le_div_iff_mul_le (by decide), Nat.zero_add, ← Nat.succ_mul, Nat.succ_eq_add_one,
          Nat.sub_add_cancel hpos]
        exact Nat.not_lt.mp h3
  unfold loopTurn
  dsimp only
  split
  · exact hP
  · split
    · exact hP
    · split
      · exact hP
      · split
        · next h1 h2 h3 _ => exact hadd h1 h2 h3
        · next h1 h2 h3 _ => exact hadd h1 h2 h3

theorem loop_emitted (l : List Turn) (st : RunSt R) :
    (l.foldl (fun st s => loopEffect w A s (loopProgram e w.dt RB s) st) st).emitted =
      st.emitted ++ l.map fun s => (s, loopProgram e w.dt RB s) := by
  induction l generalizing st with
  | nil => rw [List.foldl_nil, List.map_nil, List.append_nil]
  | cons s l ih =>
      rw [List.foldl_cons, ih, List.map_cons]
      simp only [loopEffect, List.append_assoc, List.singleton_append]

end

/-- The columns of the N-slices. -/
theorem column_iff {g : Geom} (h : 0 < g.NMAX) {n : Nat} (hn : n < g.N) (ns : Nat) :
    ns * g.NMAX ≤ n ∧ n < ns * g.NMAX + pieceLen g.N g.NMAX ns ↔ ns = n / g.NMAX :=
  mem_piece_iff h hn

theorem coversOnce_map {Sn Sk M N K : Nat} {tile : Nat → Nat → Tile} {chunk : Tile → Nat} {f : Turn → Program}
    (hchunk : ∀ t, 0 < chunk t)
    (hbox : ∀ ns ks, ns < Sn → ks < Sk →
      (tile ns ks).n0 + (tile ns ks).Nc ≤ N ∧ (tile ns ks).k0 + (tile ns ks).Kp ≤ K)
    (hcol : ∀ n, n < N → ∃ a, a < Sn ∧ ∀ ns ks, (tile ns ks).n0 ≤ n ∧ n < (tile ns ks).n0 + (tile ns ks).Nc ↔ ns = a)
    (hslice : ∀ k, k < K → ∃ b, b < Sk ∧ ∀ ns ks, ks < Sk →
      ((tile ns ks).k0 ≤ k ∧ k < (tile ns ks).k0 + (tile ns ks).Kp ↔ ks = b)) :
    CoversOnce M N K ((turns Sn Sk tile chunk M).map fun s => (s, f s)) := by
  constructor
  · intro em hem
    obtain ⟨s, hs, rfl⟩ := List.mem_map.mp hem
    have hrows := (turns_rows hchunk hs).2
    obtain ⟨ns, ks, i, hns, hks, -, rfl⟩ := mem_turns.mp hs
    exact ⟨hrows, hbox ns ks hns hks⟩
  · intro m n k hm hn hk
    obtain ⟨a, ha, hcol⟩ := hcol n hn
    obtain ⟨b, hb, hslice⟩ := hslice k hk
    refine ⟨(turnAt M tile chunk m a b, f (turnAt M tile chunk m a b)), ?_⟩
    rw [List.filter_map]
    have hfilter := filter_covers (n := n) hchunk hm ha hb hcol (hslice a)
    exact congrArg (List.map fun s => (s, f s)) hfilter

section

variable {e : F16Knobs} {w : OrkW R} {RB afSize ccSize M : Nat} {accepts : Turn → Bool} {A B : Nat → R} {g : Geom}

/-- Tiles of a walk: their columns and rows. -/
theorem walk_spec {nb : Nat} (hg : Blocks g nb) :
    (∀ ns ks, ns < g.Sn → ks < g.Sk →
      (g.tile ns ks).n0 + (g.tile ns ks).Nc ≤ g.N ∧ (g.tile ns ks).k0 + (g.tile ns ks).Kp ≤ g.K) ∧
    (∀ n, n < g.N → ∃ a, a < g.Sn ∧
      ∀ ns ks, (g.tile ns ks).n0 ≤ n ∧ n < (g.tile ns ks).n0 + (g.tile ns ks).Nc ↔ ns = a) ∧
    ∀ k, k < g.K → ∃ b, b < g.Sk ∧ ∀ ns ks, ks < g.Sk →
      ((g.tile ns ks).k0 ≤ k ∧ k < (g.tile ns ks).k0 + (g.tile ns ks).Kp ↔ ks = b) :=
  ⟨fun _ _ hns hks => ⟨piece_le hg.NMAX_pos hns, piece_le hg.KS_pos hks⟩,
    fun n hn => ⟨n / g.NMAX, div_lt_pieces hg.NMAX_pos hn, fun _ _ => mem_piece_iff hg.NMAX_pos hn⟩,
    fun k hk => ⟨k / g.KS, div_lt_pieces hg.KS_pos hk, fun _ _ _ => mem_piece_iff hg.KS_pos hk⟩⟩

/-- The K-slices of a cell add up to the cell of the product. -/
theorem sum_partialAt (hKS : 0 < g.KS) (A B : Nat → R) (ns m n : Nat) :
    ∑ ks ∈ Finset.range g.Sk, partialAt A B g.K g.N (g.tile ns ks) m n = matmul A B g.K g.N m n :=
  dot_pieces g.K hKS (fun k => A (m * g.K + k)) fun k => B (k * g.N + n)

/-- A K-sliced loop that runs to its end. -/
theorem loop_ok (hg : Blocks g (ntSz w.dt)) (hw : Holds g B w) {st st' : RunSt R} (hcres : st.cres = fun _ => 0)
    (hemitted : st.emitted = [])
    (h : (loopTurns e w g RB M).foldlM (loopTurn e w RB afSize ccSize accepts A) st = .ok st') :
    CoversOnce M w.N w.K st'.emitted ∧
      ∀ m n, m < M → n < w.N → st'.cres (m * w.N + n) = matmul A B w.K w.N m n := by
  have hchunk := fun t : Tile => orkiRunLoopChunk_pos e w.dt t.Kp t.Nc RB
  obtain ⟨hok, rfl⟩ := loop_foldlM.mp h
  obtain ⟨hbox, hcol, hslice⟩ := walk_spec hg
  unfold loopTurns at hok ⊢
  rw [hw.K, hw.N]
  rw [hw.Sn, hw.Sk] at hok ⊢
  constructor
  · rw [loop_emitted, hemitted, List.nil_append]
    exact coversOnce_map hchunk hbox hcol hslice
  · intro m n hm hn
    obtain ⟨a, ha, hcol⟩ := hcol n hn
    have hcell : ∀ s ∈ turns g.Sn g.Sk g.tile (fun t => orkiRunLoopChunk e w.dt t.Kp t.Nc RB) M, ∀ st : RunSt R,
        (loopEffect w A s (loopProgram e w.dt RB s) st).cres (m * g.N + n) =
          if s.Touches m n then
            if s.ks = 0 then partialAt A B g.K g.N s.t m n
            else st.cres (m * g.N + n) + partialAt A B g.K g.N s.t m n
          else st.cres (m * g.N + n) := by
      intro s hs st
      have hmc : s.mc ≤ (loopProgram e w.dt RB s).mc := by
        rw [loopProgram_eq]
        refine (height_spec e w.dt RB (turns_rows hchunk hs).1).resolve_right fun h0 => ?_
        exact (of_decide_eq_true (hok s hs)).1 (by omega)
      obtain ⟨ns, ks, i, hns, hks, hi, rfl⟩ := mem_turns.mp hs
      have hW := hw.Bb ns ks hns hks
      rw [← hw.Sk, ← hw.N] at hW
      have := loopEffect_cell (A := A) (B := B) (m := m) hW (by rw [hw.N]; exact (hbox ns ks hns hks).1)
        (by rw [loopProgram_eq]) hmc st (by rw [hw.N]; exact hn)
      rwa [hw.K, hw.N] at this
    have hsum := foldl_turns (fun st : RunSt R => st.cres (m * g.N + n))
      (fun s => partialAt A B g.K g.N s.t m n) hchunk hm ha hcol
      (fun s hs ht st => by rw [hcell s hs st, if_pos ht]) (fun s hs ht st => by rw [hcell s hs st, if_neg ht]) st
    refine hsum.trans ?_
    have hfull := sum_partialAt hg.KS_pos A B a m n
    split
    · next h0 => rw [← hfull, h0, hcres, Finset.sum_range_zero]
    · exact hfull

end

/-! ### The full-K loop -/

theorem fullChunk_pos (K : Nat) {M : Nat} (hM : 0 < M) : 0 < fullChunk K M := by
  unfold fullChunk
  dsimp only
  split_ifs <;> omega

section

variable {w : OrkW R} {zcA zcC : Bool} {afSize ccSize M : Nat} {accepts : Turn → Bool} {A B : Nat → R} {g : Geom}
  {Bf : Nat → Nat → R}

/-- Whether a turn of the full-K loop runs to its end. -/
def fullOk (w : OrkW R) (zcA zcC : Bool) (afSize ccSize : Nat) (accepts : Turn → Bool) (s : Turn) : Bool :=
  ¬ (zcA = false ∧ afSize < s.mc * w.K) ∧ ¬ (zcC = false ∧ ccSize < s.mc * s.t.Nc * 4) ∧ accepts s

theorem fullTurn_of_ok {s : Turn} (h : fullOk w zcA zcC afSize ccSize accepts s = true) (st : RunSt R) :
    fullTurn w Bf zcA zcC afSize ccSize accepts A st s =
      .ok (fullEffect w Bf zcA zcC A s (fullProgram w zcA zcC s) st) := by
  obtain ⟨h1, h2, h3⟩ := of_decide_eq_true h
  simp only [fullTurn, if_neg h1, if_neg h2, if_pos h3]

theorem fullTurn_of_not_ok {s : Turn} (h : fullOk w zcA zcC afSize ccSize accepts s = false) (st : RunSt R) :
    ∃ st', fullTurn w Bf zcA zcC afSize ccSize accepts A st s = .error st' := by
  have hno := of_decide_eq_false h
  unfold fullTurn
  split
  · exact ⟨_, rfl⟩
  · split
    · exact ⟨_, rfl⟩
    · split
      · next h1 h2 h3 => exact absurd ⟨h1, h2, h3⟩ hno
      · exact ⟨_, rfl⟩

theorem full_foldlM {l : List Turn} {st st' : RunSt R} :
    l.foldlM (fullTurn w Bf zcA zcC afSize ccSize accepts A) st = .ok st' ↔
      (∀ s ∈ l, fullOk w zcA zcC afSize ccSize accepts s = true) ∧
        l.foldl (fun st s => fullEffect w Bf zcA zcC A s (fullProgram w zcA zcC s) st) st = st' :=
  foldlM_eq_ok (fun _ _ hs st => fullTurn_of_ok hs st) fun _ _ hs st => fullTurn_of_not_ok hs st

variable (zcA zcC afSize ccSize accepts A Bf) in
theorem full_emits (hM : 0 < M) (hg : 0 < g.NMAX) (hK : w.K = g.K) (hN : w.N = g.N) (hSn : w.Sn = g.Sn) (st : RunSt R)
    (hst : st.emitted = []) :
    ∀ em ∈ (outcome ((fullTurns w g M).foldlM (fullTurn w Bf zcA zcC afSize ccSize accepts A) st)).emitted,
      Emits (if zcA then M * w.K else afSize) (if zcC then M * w.N else ccSize / 4) em := by
  refine foldlM_outcome (P := fun st : RunSt R => ∀ em ∈ st.emitted,
      Emits (if zcA then M * w.K else afSize) (if zcC then M * w.N else ccSize / 4) em)
    (fun s hs st hP => ?_) (by rw [hst]; exact fun em hem => absurd hem List.not_mem_nil)
  have hadd : ¬ (zcA = false ∧ afSize < s.mc * w.K) → ¬ (zcC = false ∧ ccSize < s.mc * s.t.Nc * 4) →
      ∀ em ∈ st.emitted ++ [(s, fullProgram w zcA zcC s)],
        Emits (if zcA then M * w.K else afSize) (if zcC then M * w.N else ccSize / 4) em := by
    intro h1 h2 em hem
    rcases List.mem_append.mp hem with hem | hem
    · exact hP em hem
    · obtain rfl := List.mem_singleton.mp hem
      obtain ⟨hmc, hend⟩ := turns_rows (fun _ => fullChunk_pos w.K hM) hs
      obtain ⟨ns, ks, i, hns, -, -, rfl⟩ := mem_turns.mp hs
      have hNc : pieceLen g.N g.NMAX ns ≤ w.N := by
        rw [hN]
        exact le_trans (Nat.le_add_left _ _) (piece_le hg (by rwa [hSn] at hns))
      have hrow : ∀ x, (pieceLen M (fullChunk w.K M) i - 1) * x + x = pieceLen M (fullChunk w.K M) i * x := fun x => by
        rw [← Nat.succ_mul, Nat.succ_eq_add_one, Nat.sub_add_cancel hmc]
      refine ⟨hmc, Nat.le_refl _, hK, rfl, ?_, ?_, ?_⟩
      · cases zcA with
        | true =>
            simp only [fullProgram, orkiI8Synth, if_true]
            rw [← Nat.add_mul]
            exact Nat.mul_le_mul_right _ hend
        | false =>
            simp only [fullProgram, orkiI8Synth, Bool.false_eq_true, if_false, Nat.zero_add]
            exact Nat.not_lt.mp fun hlt => h1 ⟨rfl, hlt⟩
      · simp only [fullProgram, orkiI8Synth, Nat.zero_add]
        rw [hK]
        exact Nat.le_refl _
      · cases zcC with
        | true =>
            have hstride : (fullProgram w zcA true
                ⟨ns, ks, fullTile g ns, i * fullChunk w.K M, pieceLen M (fullChunk w.K M) i⟩).stride ≤ w.N := by
              simp only [fullProgram, orkiI8Synth, if_true]
              split
              · exact Nat.le_refl _
              · exact hNc
            calc i * fullChunk w.K M * w.N + (pieceLen M (fullChunk w.K M) i - 1) * _ + pieceLen g.N g.NMAX ns
                ≤ i * fullChunk w.K M * w.N + (pieceLen M (fullChunk w.K M) i - 1) * w.N + w.N :=
                  Nat.add_le_add (Nat.add_le_add_left (Nat.mul_le_mul_left _ hstride) _) hNc
              _ = (i * fullChunk w.K M + pieceLen M (fullChunk w.K M) i) * w.N := by
                  rw [Nat.add_assoc, hrow, Nat.add_mul]
              _ ≤ M * w.N := Nat.mul_le_mul_right _ hend
        | false =>
            simp only [fullProgram, orkiI8Synth, Bool.false_eq_true, if_false, Nat.zero_add, ite_self]
            rw [Nat.le_div_iff_mul_le (by decide), hrow]
            exact Nat.not_lt.mp fun hlt => h2 ⟨rfl, hlt⟩
  unfold fullTurn
  split
  · exact hP
  · split
    · exact hP
    · split
      · next h1 h2 _ =>
          have := hadd h1 h2
          cases zcC <;> exact this
      · next h1 h2 _ => exact hadd h1 h2

theorem full_emitted (l : List Turn) (st : RunSt R) :
    (l.foldl (fun st s => fullEffect w Bf zcA zcC A s (fullProgram w zcA zcC s) st) st).emitted =
      st.emitted ++ l.map fun s => (s, fullProgram w zcA zcC s) := by
  induction l generalizing st with
  | nil => rw [List.foldl_nil, List.map_nil, List.append_nil]
  | cons s l ih =>
      have hs : (fullEffect w Bf zcA zcC A s (fullProgram w zcA zcC s) st).emitted =
          st.emitted ++ [(s, fullProgram w zcA zcC s)] := by cases zcC <;> rfl
      rw [List.foldl_cons, ih, hs, List.map_cons, List.append_assoc, List.singleton_append]

/-- A full-K loop that runs to its end. -/
theorem full_ok (hM : 0 < M) (hg : Blocks g (ntSz w.dt)) (hw : Holds g B w)
    (hBf : ∀ ns, ns < g.Sn → Tiled (ntSz w.dt) B g.N (fullTile g ns) (Bf ns)) {st st' : RunSt R}
    (hemitted : st.emitted = [])
    (h : (fullTurns w g M).foldlM (fullTurn w Bf zcA zcC afSize ccSize accepts A) st = .ok st') :
    CoversOnce M w.N w.K st'.emitted ∧ ((zcC = true → w.Sn ≤ 1) →
      ∀ m n, m < M → n < w.N → (if zcC then st'.C else st'.cres) (m * w.N + n) = matmul A B w.K w.N m n) := by
  obtain ⟨-, rfl⟩ := full_foldlM.mp h
  have hbox : ∀ ns, ns < g.Sn → (fullTile g ns).n0 + (fullTile g ns).Nc ≤ g.N := fun ns hns => piece_le hg.NMAX_pos hns
  have hcol : ∀ n, n < g.N → ∃ a, a < g.Sn ∧ ∀ ns (_ : Nat),
      (fullTile g ns).n0 ≤ n ∧ n < (fullTile g ns).n0 + (fullTile g ns).Nc ↔ ns = a := fun n hn =>
    ⟨n / g.NMAX, div_lt_pieces hg.NMAX_pos hn, fun _ _ => mem_piece_iff hg.NMAX_pos hn⟩
  unfold fullTurns
  rw [hw.N, hw.Sn, hw.K]
  constructor
  · rw [full_emitted, hemitted, List.nil_append]
    refine coversOnce_map (fun _ => fullChunk_pos g.K hM)
      (fun ns _ hns _ => ⟨hbox ns hns, Nat.le_of_eq (Nat.zero_add _)⟩) hcol fun k hk => ⟨0, Nat.one_pos, fun _ ks hks => ?_⟩
    exact iff_of_true ⟨Nat.zero_le k, by rw [fullTile, Nat.zero_add]; exact hk⟩ (Nat.lt_one_iff.mp hks)
  · intro hzc m n hm hn
    obtain ⟨a, ha, hcol⟩ := hcol n hn
    have hcell : ∀ s ∈ turns g.Sn 1 (fun ns _ => fullTile g ns) (fun _ => fullChunk g.K M) M, ∀ st : RunSt R,
        (if zcC then (fullEffect w Bf zcA zcC A s (fullProgram w zcA zcC s) st).C
          else (fullEffect w Bf zcA zcC A s (fullProgram w zcA zcC s) st).cres) (m * g.N + n) =
          if s.Touches m n then partialAt A B g.K g.N s.t m n else (if zcC then st.C else st.cres) (m * g.N + n) := by
      intro s hs st
      obtain ⟨ns, ks, i, hns, -, -, rfl⟩ := mem_turns.mp hs
      have hW := hBf ns hns
      rw [← hw.N] at hW
      have hn0 : zcC = true → (fullTile g ns).n0 = 0 := fun hz => by
        have : ns = 0 := by have := hzc hz; omega
        rw [this]
        exact Nat.zero_mul _
      have := fullEffect_cell (A := A) (B := B) (m := m)
        (s := ⟨ns, ks, fullTile g ns, i * fullChunk g.K M, pieceLen M (fullChunk g.K M) i⟩) hW rfl hw.K.symm
        (by rw [hw.N]; exact hbox ns hns) zcA hn0 st (by rw [hw.N]; exact hn)
      rwa [hw.K, hw.N] at this
    have hks : ∀ s ∈ turns g.Sn 1 (fun ns _ => fullTile g ns) (fun _ => fullChunk g.K M) M, s.ks = 0 := by
      intro s hs
      obtain ⟨ns, ks, i, -, hks, -, rfl⟩ := mem_turns.mp hs
      exact Nat.lt_one_iff.mp hks
    have hsum := foldl_turns (fun st : RunSt R => (if zcC then st.C else st.cres) (m * g.N + n))
      (fun s => partialAt A B g.K g.N s.t m n) (fun _ => fullChunk_pos g.K hM) hm ha hcol
      (fun s hs ht st => by rw [hcell s hs st, if_pos ht, if_pos (hks s hs)])
      (fun s hs ht st => by rw [hcell s hs st, if_neg ht]) st
    refine hsum.trans ?_
    rw [if_neg Nat.one_ne_zero, Finset.sum_range_one]
    simp only [partialAt, turnAt, fullTile, Nat.zero_add]
    rfl

end

end OrkDriver.Run
