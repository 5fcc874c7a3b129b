import OrkDriver.Run.Turns

/-!
What one turn of `orki_run` does to a cell of the result, and how tall its staging buffers have to be.
-/

namespace OrkDriver.Run

open OrkDriver.Lib OrkDriver.Npu OrkDriver.Pack

/-! ### Sizing -/

theorem raise_spec (a p : Nat) : a ≤ (if a < p then p else a) ∧ p ≤ if a < p then p else a := by
  split <;> omega

theorem le_maxOf (f : Tile → Nat) {ts : List Tile} {t : Tile} (ht : t ∈ ts) : f t ≤ maxOf f ts := by
  have hfold : ∀ (ts : List Tile) (m : Nat), m ≤ ts.foldl (fun m t => if m < f t then f t else m) m ∧
      ∀ t ∈ ts, f t ≤ ts.foldl (fun m t => if m < f t then f t else m) m := by
    intro ts
    induction ts with
    | nil => exact fun m => ⟨Nat.le_refl m, fun t ht => absurd ht List.not_mem_nil⟩
    | cons u ts ih =>
        intro m
        obtain ⟨hm, hts⟩ := ih (if m < f u then f u else m)
        rw [List.foldl_cons, List.forall_mem_cons]
        exact ⟨le_trans (raise_spec m (f u)).1 hm, le_trans (raise_spec m (f u)).2 hm, hts⟩
  exact (hfold ts 0).2 t ht

theorem mem_sizingTiles {g : Geom} {ns ks : Nat} (hns : ns < g.Sn) (hks : ks < g.Sk) :
    g.tile ns ks ∈ sizingTiles g :=
  List.mem_flatMap.mpr ⟨ks, List.mem_range.mpr hks, List.mem_map.mpr ⟨ns, List.mem_range.mpr hns, rfl⟩⟩

section

variable {e : F16Knobs} {dt : Dt} {RB M i ns ks : Nat} {t : Tile}

theorem rows_le_sizeRows (e : F16Knobs) (dt : Dt) (RB M : Nat) (t : Tile) :
    min (orkiRunLoopChunk e dt t.Kp t.Nc RB) M ≤ sizeRows e dt RB M t := by
  have hmin : min (orkiRunLoopChunk e dt t.Kp t.Nc RB) M ≤
      if orkiRunLoopChunk e dt t.Kp t.Nc RB < M then orkiRunLoopChunk e dt t.Kp t.Nc RB else M := by
    split <;> omega
  refine le_trans hmin ?_
  unfold sizeRows
  by_cases hdt : dt = .f16
  · simp only [if_pos hdt]
    exact (raise_spec _ _).1
  · simp only [if_neg hdt]
    exact Nat.le_refl _

/-- The ragged last block is the remainder that the sizing pass pads. -/
theorem pad_le_sizeRows {mc : Nat} (hmc : 0 < mc) (hM : mc ≤ M)
    (hrem : M % orkiRunLoopChunk e .f16 t.Kp t.Nc RB = mc) :
    orkiF16Mcpad t.Kp t.Nc (orkiF16Sched t.Kp) mc (orkiRunLoopChunk e .f16 t.Kp t.Nc RB) ≤ sizeRows e .f16 RB M t := by
  simp only [sizeRows, if_true, hrem]
  rw [if_pos (Nat.ne_of_gt hmc), if_neg (Nat.not_lt.mpr hM)]
  exact (raise_spec _ _).2

variable (ns ks) in
/-- The sizing pass allows for every row block that the loop emits. -/
theorem height_le_sizeRows (hi : i < pieces M (orkiRunLoopChunk e dt t.Kp t.Nc RB)) :
    height e dt RB ⟨ns, ks, t, i * orkiRunLoopChunk e dt t.Kp t.Nc RB,
      pieceLen M (orkiRunLoopChunk e dt t.Kp t.Nc RB) i⟩ ≤ sizeRows e dt RB M t := by
  have hrows := rows_le_sizeRows e dt RB M t
  have hchunk := orkiRunLoopChunk_pos e dt t.Kp t.Nc RB
  have hmc := pieceLen_pos hchunk hi
  have hend := piece_le hchunk hi
  have hsize : pieceLen M (orkiRunLoopChunk e dt t.Kp t.Nc RB) i ≤ orkiRunLoopChunk e dt t.Kp t.Nc RB := pieceLen_le_size
  by_cases hdt : dt = .f16
  · subst hdt
    simp only [height, runSched, if_true]
    rcases Nat.lt_or_ge (pieceLen M (orkiRunLoopChunk e .f16 t.Kp t.Nc RB) i)
      (orkiRunLoopChunk e .f16 t.Kp t.Nc RB) with hlt | hge
    · refine pad_le_sizeRows hmc (by omega) ?_
      have hM : M = i * orkiRunLoopChunk e .f16 t.Kp t.Nc RB +
          pieceLen M (orkiRunLoopChunk e .f16 t.Kp t.Nc RB) i := by
        unfold pieceLen at hlt hend ⊢
        split <;> split at hlt <;> omega
      have := (digits_div_mod hlt i).2
      rwa [← hM] at this
    · have hle : orkiF16Mcpad t.Kp t.Nc (orkiF16Sched t.Kp) (pieceLen M (orkiRunLoopChunk e .f16 t.Kp t.Nc RB) i)
          (orkiRunLoopChunk e .f16 t.Kp t.Nc RB) ≤ orkiRunLoopChunk e .f16 t.Kp t.Nc RB := by
        by_cases h0 : orkiF16Mcpad t.Kp t.Nc (orkiF16Sched t.Kp)
            (pieceLen M (orkiRunLoopChunk e .f16 t.Kp t.Nc RB) i) (orkiRunLoopChunk e .f16 t.Kp t.Nc RB) = 0
        · omega
        · exact ((orkiF16Mcpad_spec hmc).2 h0).2
      omega
  · simp only [height, if_neg hdt]
    omega

end

/-! ### One turn -/

variable {R : Type*}

theorem gather_cell (A : Nat → R) (K m0 mc k0 Kp : Nat) (af : Nat → R) {r k : Nat} (hr : r < mc) (hk : k < Kp) :
    gather A K m0 mc k0 Kp af (r * Kp + k) = A ((m0 + r) * K + (k0 + k)) := by
  have := @stores_block R 0 Kp mc Kp (fun r j => A ((m0 + r) * K + (k0 + j))) (Nat.le_refl Kp) af r k hr hk
  rwa [Nat.zero_add] at this

variable [NonUnitalNonAssocSemiring R] {A B : Nat → R}

/-- The part of cell `(m, n)` that a tile contributes. -/
def partialAt (A B : Nat → R) (K N : Nat) (t : Tile) (m n : Nat) : R :=
  dot t.Kp (fun k => A (m * K + (t.k0 + k))) fun k => B ((t.k0 + k) * N + n)

theorem if_congr_right {α : Type*} {p q : Prop} [Decidable p] [Decidable q] {x x' y : α} (h : p ↔ q) (hx : q → x = x') :
    (if p then x else y) = if q then x' else y := by
  by_cases hq : q
  · rw [if_pos (h.mpr hq), if_pos hq, hx hq]
  · rw [if_neg fun hp => hq (h.mp hp), if_neg hq]

/-- A program that reads gathered rows and a packed tile computes the tile's part of each cell. -/
theorem staged_value {nb N K mc : Nat} (m0 : Nat) {t : Tile} {W : Nat → R} (hW : Tiled nb B N t W) {p : Program}
    (ha : p.a = 0) (hw : p.w = 0) (hK : p.Kp = t.Kp) (af : Nat → R) {r n : Nat} (hr : r < mc) (hn : n < t.Nc) :
    p.value nb (gather A K m0 mc t.k0 t.Kp af) W r n = partialAt A B K N t (m0 + r) (t.n0 + n) := by
  rw [Program.value, ha, hw, hK]
  refine dot_congr (fun k hk => ?_) fun k hk => ?_
  · rw [Nat.zero_add]
    exact gather_cell A K m0 mc t.k0 t.Kp af hr hk
  · rw [Nat.zero_add]
    exact hW k n hk hn

theorem loopProgram_eq (e : F16Knobs) (dt : Dt) (RB : Nat) (s : Turn) :
    loopProgram e dt RB s = ⟨height e dt RB s, s.t.Kp, s.t.Nc, 0, 0, 0, s.t.Nc⟩ := by
  unfold loopProgram height
  split
  · rfl
  · simp [orkiI8Synth]

/-- A turn of the K-sliced loop stores its part of the cells it touches, or adds it. -/
theorem loopEffect_cell {w : OrkW R} {s : Turn} (hW : Tiled (ntSz w.dt) B w.N s.t (w.Bb (s.ns * w.Sk + s.ks)))
    (hcols : s.t.n0 + s.t.Nc ≤ w.N) {p : Program} (hp : p = ⟨p.mc, s.t.Kp, s.t.Nc, 0, 0, 0, s.t.Nc⟩) (hmc : s.mc ≤ p.mc)
    (st : RunSt R) {m n : Nat} (hn : n < w.N) :
    (loopEffect w A s p st).cres (m * w.N + n) =
      if s.Touches m n then
        if s.ks = 0 then partialAt A B w.K w.N s.t m n
        else st.cres (m * w.N + n) + partialAt A B w.K w.N s.t m n
      else st.cres (m * w.N + n) := by
  have hcc : ∀ (af cc : Nat → R) (r j : Nat), r < s.mc → j < s.t.Nc →
      p.run (ntSz w.dt) (gather A w.K s.m0 s.mc s.t.k0 s.t.Kp af) (w.Bb (s.ns * w.Sk + s.ks)) cc (r * s.t.Nc + j) =
        partialAt A B w.K w.N s.t (s.m0 + r) (s.t.n0 + j) := by
    intro af cc r j hr hj
    rw [hp]
    have hrun := Program.run_cell (ntSz w.dt) (p := ⟨p.mc, s.t.Kp, s.t.Nc, 0, 0, 0, s.t.Nc⟩)
      (A := gather A w.K s.m0 s.mc s.t.k0 s.t.Kp af) (W := w.Bb (s.ns * w.Sk + s.ks)) (Nat.le_refl s.t.Nc) cc
      (lt_of_lt_of_le hr hmc) hj
    rw [← staged_value s.m0 hW (p := ⟨p.mc, s.t.Kp, s.t.Nc, 0, 0, 0, s.t.Nc⟩) rfl rfl rfl af hr hj, ← hrun]
    simp only [Nat.zero_add]
  simp only [loopEffect]
  rw [stores_block_cell hcols _ hn]
  refine if_congr_right (by rw [Turn.Touches, and_assoc]) fun ⟨⟨hm0, hm⟩, hn0, hn'⟩ => ?_
  rw [hcc _ _ _ _ (by omega) (by omega), Nat.add_sub_cancel' hm0, Nat.add_sub_cancel' hn0]

/-- So does a turn of the full-K loop, wherever C lies. -/
theorem fullEffect_cell {w : OrkW R} {s : Turn} {Bf : Nat → Nat → R} (hW : Tiled (ntSz w.dt) B w.N s.t (Bf s.ns))
    (hk0 : s.t.k0 = 0) (hKp : s.t.Kp = w.K) (hcols : s.t.n0 + s.t.Nc ≤ w.N) (zcA : Bool) {zcC : Bool}
    (hzc : zcC = true → s.t.n0 = 0) (st : RunSt R) {m n : Nat} (hn : n < w.N) :
    (if zcC then (fullEffect w Bf zcA zcC A s (fullProgram w zcA zcC s) st).C
      else (fullEffect w Bf zcA zcC A s (fullProgram w zcA zcC s) st).cres) (m * w.N + n) =
      if s.Touches m n then partialAt A B w.K w.N s.t m n else (if zcC then st.C else st.cres) (m * w.N + n) := by
  have hval : ∀ (af : Nat → R) (r j : Nat), r < s.mc → j < s.t.Nc →
      (fullProgram w zcA zcC s).value (ntSz w.dt) (if zcA then A else gather A w.K s.m0 s.mc 0 w.K af) (Bf s.ns) r j =
        partialAt A B w.K w.N s.t (s.m0 + r) (s.t.n0 + j) := by
    intro af r j hr hj
    cases zcA with
    | true =>
        rw [partialAt, hk0, hKp]
        refine dot_congr (fun k _ => ?_) fun k hk => ?_
        · simp only [fullProgram, orkiI8Synth, if_true]
          rw [Nat.zero_add, Nat.add_mul, Nat.add_assoc]
        · have := hW k j (by rw [hKp]; exact hk) hj
          rw [hk0, hKp] at this
          simp only [fullProgram, orkiI8Synth]
          rwa [Nat.zero_add]
    | false =>
        have := staged_value s.m0 (A := A) (K := w.K) hW (p := fullProgram w false zcC s) rfl rfl hKp.symm af hr hj
        rwa [hk0, hKp] at this
  have hin : ∀ f : Nat → Nat → R, (∀ r j, r < s.mc → j < s.t.Nc → f r j = partialAt A B w.K w.N s.t (s.m0 + r) (s.t.n0 + j)) →
      ∀ C : Nat → R, stores C (block (s.m0 * w.N + s.t.n0) w.N s.mc s.t.Nc f) (m * w.N + n) =
        if s.Touches m n then partialAt A B w.K w.N s.t m n else C (m * w.N + n) := by
    intro f hf C
    rw [stores_block_cell hcols _ hn]
    refine if_congr_right (by rw [Turn.Touches, and_assoc]) fun ⟨⟨hm0, hm⟩, hn0, hn'⟩ => ?_
    rw [hf _ _ (by omega) (by omega), Nat.add_sub_cancel' hm0, Nat.add_sub_cancel' hn0]
  cases zcC with
  | true =>
      have hstride : (fullProgram w zcA true s).stride = w.N := by
        simp only [fullProgram, orkiI8Synth, if_true]
        rw [if_pos (Nat.zero_lt_of_lt hn)]
      have hrun : ∀ W C, (fullProgram w zcA true s).run (ntSz w.dt) W (Bf s.ns) C =
          stores C (block (s.m0 * w.N + s.t.n0) w.N s.mc s.t.Nc
            ((fullProgram w zcA true s).value (ntSz w.dt) W (Bf s.ns))) := by
        intro W C
        rw [Program.run, Program.outputs, hstride, hzc rfl]
        rfl
      simp only [fullEffect, if_true]
      rw [hrun]
      exact hin _ (hval st.af) st.C
  | false =>
      simp only [fullEffect, Bool.false_eq_true, if_false]
      refine hin _ (fun r j hr hj => ?_) st.cres
      have hstride : (fullProgram w zcA false s).stride = s.t.Nc := by simp [fullProgram, orkiI8Synth]
      have hcell := Program.run_cell (ntSz w.dt) (p := fullProgram w zcA false s)
        (A := if zcA then A else gather A w.K s.m0 s.mc 0 w.K st.af) (W := Bf s.ns) (le_of_eq hstride.symm) st.cc hr hj
      rw [hstride] at hcell
      rw [← hval st.af r j hr hj, ← hcell]
      exact congrArg _ (congrArg (· + j) (Nat.zero_add _).symm)

end OrkDriver.Run
