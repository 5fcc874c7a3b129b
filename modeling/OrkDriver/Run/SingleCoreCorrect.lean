import Mathlib.Data.BitVec
import OrkDriver.Run.SingleCoreLoops

/-!
`orki_run` computes the product: exactly where every fp16 slice has a legal program height, and C is not written in
place by a weight of several N-slices.
-/

namespace OrkDriver.Run

open OrkDriver.Lib OrkDriver.Npu OrkDriver.Pack

variable {R : Type*} [NonUnitalNonAssocSemiring R]

/-- Every buffer is granted, every program is validated and completes, and `ccsz` is not more than there is. -/
structure RunEnv.Good (v : RunEnv R) : Prop where
  newAf : v.newAf = true
  newCc : v.newCc = true
  ccsz : v.ccsz ≤ v.ccSize
  accepts : ∀ s, v.accepts s = true

/-- Elements of the buffer that the activations of a run are read from. -/
def aCells (v : RunEnv R) (w : OrkW R) (M : Nat) (r : Ran R) : Nat :=
  if fullK w M && v.zcA then M * w.K else r.afSize / esz w.dt

/-- Elements of the buffer that its results are written to. -/
def cCells (v : RunEnv R) (w : OrkW R) (M : Nat) (r : Ran R) : Nat :=
  if fullK w M && v.zcC then M * w.N else r.ccSize / 4

/-- Its programs are legal and inside their buffers; if it returned 0, they took every triple once and C is the
product. -/
structure RanRight (v : RunEnv R) (w : OrkW R) (M : Nat) (A B : Nat → R) (r : Ran R) : Prop where
  emits : ∀ em ∈ r.emitted, Emits (aCells v w M r) (cCells v w M r) em
  covers : r.rc = 0 → CoversOnce M w.N w.K r.emitted
  product : r.rc = 0 → ∀ m n, m < M → n < w.N → r.C (m * w.N + n) = matmul A B w.K w.N m n

/-- What `orki_run` is for. -/
structure RunsRight (c : OrkNpu) (e : F16Knobs) (v : RunEnv R) (w : OrkW R) (M : Nat) (A B C : Nat → R) : Prop where
  right : RanRight v w M A B (orkiRun c e v w M A C)
  returns : v.Good → (orkiRun c e v w M A C).rc = 0

omit [NonUnitalNonAssocSemiring R] in
theorem fullK_spec {w : OrkW R} {M : Nat} (h : fullK w M = true) : esz w.dt = 1 ∧ ∃ Bf, w.Bf = some Bf := by
  obtain ⟨hdt, -, hBf, -⟩ := of_decide_eq_true h
  exact ⟨by rw [hdt]; rfl, Option.isSome_iff_exists.mp hBf⟩

section

variable {c : OrkNpu} {e : F16Knobs} {v : RunEnv R} {w : OrkW R} {M afSize ccSize : Nat} {A B C : Nat → R}

theorem RanRight.of_failed {r : Ran R} (hrc : r.rc = -1)
    (hemits : ∀ em ∈ r.emitted, Emits (aCells v w M r) (cCells v w M r) em) : RanRight v w M A B r := by
  have hne : r.rc ≠ 0 := by rw [hrc]; decide
  exact ⟨hemits, fun h => absurd h hne, fun h => absurd h hne⟩

theorem runLoops_right (hM : 0 < M) (hg : Blocks (weightGeom c e w.dt w.K w.N) (ntSz w.dt))
    (hw : Holds (weightGeom c e w.dt w.K w.N) B w) (hzc : fullK w M = true → v.zcC = true → w.Sn ≤ 1) :
    RanRight v w M A B (runLoops c e v w M afSize ccSize A C) := by
  cases hf : fullK w M with
  | true =>
      obtain ⟨hesz, Bf, hBf⟩ := fullK_spec hf
      have hemits := full_emits v.zcA v.zcC afSize ccSize v.accepts A (w.Bf.getD fun _ _ => 0) hM hg.NMAX_pos hw.K hw.N
        hw.Sn ⟨v.af, v.cc, fun _ => 0, C, []⟩ rfl
      have hend := fun st' => @full_ok R _ w v.zcA v.zcC afSize ccSize M v.accepts A B _ (w.Bf.getD fun _ _ => 0) hM hg hw
        (by rw [hBf]; exact hw.Bf Bf hBf) ⟨v.af, v.cc, fun _ => 0, C, []⟩ st' rfl
      simp only [runLoops, hf, if_true]
      split
      · next st h =>
          rw [h, outcome_error] at hemits
          refine .of_failed rfl ?_
          simpa only [aCells, cCells, hf, hesz, Nat.div_one, Bool.true_and] using hemits
      · next st h =>
          obtain ⟨hcovers, hproduct⟩ := hend st h
          rw [h, outcome_ok] at hemits
          refine ⟨?_, fun _ => hcovers, fun _ m n hm hn => ?_⟩
          · simpa only [aCells, cCells, hf, hesz, Nat.div_one, Bool.true_and] using hemits
          · have hcell := hproduct (hzc hf) m n hm hn
            cases hz : v.zcC with
            | true =>
                rw [hz] at hcell
                simpa only [if_true, if_neg (Nat.not_lt.mpr (hzc hf hz))] using hcell
            | false =>
                rw [hz] at hcell
                simpa only [Bool.false_eq_true, if_false, copyOut_cell _ _ hm hn] using hcell
  | false =>
      have hemits := loop_emits e w (runRB c w.dt) afSize ccSize M v.accepts A (weightGeom c e w.dt w.K w.N)
        ⟨v.af, v.cc, fun _ => 0, C, []⟩ rfl
      simp only [runLoops, hf, Bool.false_eq_true, if_false]
      split
      · next st h =>
          rw [h, outcome_error] at hemits
          refine .of_failed rfl ?_
          simpa only [aCells, cCells, hf, Bool.false_and, Bool.false_eq_true, if_false] using hemits
      · next st h =>
          obtain ⟨hcovers, hproduct⟩ := loop_ok (A := A) hg hw rfl rfl h
          rw [h, outcome_ok] at hemits
          refine ⟨?_, fun _ => hcovers, fun _ m n hm hn => ?_⟩
          · simpa only [aCells, cCells, hf, Bool.false_and, Bool.false_eq_true, if_false] using hemits
          · exact (copyOut_cell _ _ hm hn).trans (hproduct m n hm hn)

omit [NonUnitalNonAssocSemiring R] in
/-- The staging buffers are tall enough for every turn of the K-sliced loop. -/
theorem sizing_loop {g : Geom} {RB : Nat} (hSn : w.Sn = g.Sn) (hSk : w.Sk = g.Sk) {s : Turn}
    (hs : s ∈ loopTurns e w g RB M) : height e w.dt RB s * s.t.Kp * esz w.dt ≤ (sizing e w g RB M).1 ∧
      height e w.dt RB s * s.t.Nc * 4 ≤ (sizing e w g RB M).2 := by
  obtain ⟨ns, ks, i, hns, hks, hi, rfl⟩ := mem_turns.mp hs
  rw [hSn] at hns
  rw [hSk] at hks
  have hrows := height_le_sizeRows ns ks hi
  have hmem := mem_sizingTiles hns hks
  have haf := le_maxOf (fun t => sizeRows e w.dt RB M t * t.Kp * esz w.dt) hmem
  have hout := le_maxOf (fun t => sizeRows e w.dt RB M t * t.Nc * 4) hmem
  have haf' := le_trans (Nat.mul_le_mul_right (esz w.dt) (Nat.mul_le_mul_right (g.tile ns ks).Kp hrows)) haf
  have hout' := le_trans (Nat.mul_le_mul_right 4 (Nat.mul_le_mul_right (g.tile ns ks).Nc hrows)) hout
  unfold sizing
  dsimp only
  split
  · exact ⟨le_trans haf' (raise_spec _ _).1, le_trans hout' (raise_spec _ _).1⟩
  · exact ⟨haf', hout'⟩

omit [NonUnitalNonAssocSemiring R] in
variable (e) in
theorem sizing_full {g : Geom} (RB : Nat) (hM : 0 < M) (hSn : w.Sn = g.Sn) (hf : fullK w M = true) {s : Turn}
    (hs : s ∈ fullTurns w g M) : s.mc * w.K ≤ (sizing e w g RB M).1 ∧ s.mc * s.t.Nc * 4 ≤ (sizing e w g RB M).2 := by
  obtain ⟨hmc, hend⟩ := turns_rows (fun _ => fullChunk_pos w.K hM) hs
  obtain ⟨ns, ks, i, hns, -, -, rfl⟩ := mem_turns.mp hs
  dsimp only at hmc hend ⊢
  have hsize : pieceLen M (fullChunk w.K M) i ≤ fullChunk w.K M := pieceLen_le_size
  have hrows : pieceLen M (fullChunk w.K M) i ≤ fullRows w.K M := by
    unfold fullRows
    split <;> omega
  have hout := le_maxOf (fun t => fullRows w.K M * t.Nc * 4)
    (List.mem_map_of_mem (f := fullTile g) (List.mem_range.mpr (hSn ▸ hns)))
  have hout' := le_trans (Nat.mul_le_mul_right 4 (Nat.mul_le_mul_right (fullTile g ns).Nc hrows)) hout
  unfold sizing
  rw [if_pos hf]
  exact ⟨le_trans (Nat.mul_le_mul_right _ hrows) (raise_spec _ _).2, le_trans hout' (raise_spec _ _).2⟩

/-- Some program height up to the cap of every fp16 slice is legal. -/
def HasHeights (e : F16Knobs) (g : Geom) (dt : Dt) : Prop :=
  dt = .f16 → ∀ ns ks, ns < g.Sn → ks < g.Sk →
    ∃ t, 0 < t ∧ t ≤ f16McapNarrown e (g.tile ns ks).Kp (orkiF16Sched (g.tile ns ks).Kp) (g.tile ns ks).Nc ∧
      orkiF16McOk (g.tile ns ks).Kp (g.tile ns ks).Nc (orkiF16Sched (g.tile ns ks).Kp) t = true

omit [NonUnitalNonAssocSemiring R] in
theorem hasHeights_of_unset {g : Geom} {nb : Nat} (hg : Blocks g nb) (he : e.mtile ≤ 0) (hKS : g.KS ≤ 16384) (dt : Dt) :
    HasHeights e g dt := fun _ _ _ hns hks =>
  exists_height he (pieceLen_pos hg.KS_pos hks) (le_trans pieceLen_le_size hKS) (pieceLen_pos hg.NMAX_pos hns)

/-- Exactly then no turn is left without a height. -/
theorem hasHeights_iff {g : Geom} {nb : Nat} (RB : Nat) {dt : Dt} (hg : Blocks g nb) (hM : 0 < M) :
    HasHeights e g dt ↔ ∀ s ∈ turns g.Sn g.Sk g.tile (fun t => orkiRunLoopChunk e dt t.Kp t.Nc RB) M,
      0 < height e dt RB s := by
  have hpos := fun t : Tile => orkiRunLoopChunk_pos e dt t.Kp t.Nc RB
  by_cases hdt : dt = .f16
  · subst hdt
    constructor
    · intro h s hs
      have hmc := (turns_rows hpos hs).1
      obtain ⟨ns, ks, i, hns, hks, -, rfl⟩ := mem_turns.mp hs
      have hKp : 0 < (g.tile ns ks).Kp := pieceLen_pos hg.KS_pos hks
      have hok := (ok_lowerTo_iff (f16McapNarrown_pos e _ _ _)).mpr (h rfl ns ks hns hks)
      refine Nat.pos_of_ne_zero fun h0 => ?_
      have hnone := (orkiF16Mcpad_spec hmc).1.mp h0 _ (pieceLen_le_size) (Nat.le_refl _)
      dsimp only at hnone
      rw [orkiRunLoopChunk_f16 e _ RB hKp] at hnone
      simp only [runSched, if_true] at hnone
      unfold orkiF16McapN at hnone
      rw [hok] at hnone
      cases hnone
    · intro h _ ns ks hns hks
      have hKp : 0 < (g.tile ns ks).Kp := pieceLen_pos hg.KS_pos hks
      have hi : 0 < pieces M (orkiRunLoopChunk e .f16 (g.tile ns ks).Kp (g.tile ns ks).Nc RB) :=
        (lt_pieces_iff (hpos _)).mpr (by rwa [Nat.zero_mul])
      have hs := h _ (mem_turns.mpr ⟨ns, ks, 0, hns, hks, hi, rfl⟩)
      have hmc := pieceLen_pos (hpos (g.tile ns ks)) hi
      by_contra hnone
      refine absurd ((orkiF16Mcpad_spec hmc).1.mpr fun t hle hcap => ?_) (Nat.ne_of_gt hs)
      by_contra hok
      refine hnone ⟨t, by omega, ?_, ?_⟩
      · rw [orkiRunLoopChunk_f16 e _ RB hKp] at hcap
        exact le_trans hcap (lowerTo_le _ _)
      · simpa [runSched] using hok
  · refine iff_of_true (fun h => absurd h hdt) fun s hs => ?_
    rw [height, if_neg hdt]
    exact (turns_rows hpos hs).1

/-- With enough room and no refusals the run returns 0, unless a turn has no height. -/
theorem runLoops_rc (hM : 0 < M) (hg : Blocks (weightGeom c e w.dt w.K w.N) (ntSz w.dt))
    (hw : Holds (weightGeom c e w.dt w.K w.N) B w) (hv : v.Good)
    (haf : (sizing e w (weightGeom c e w.dt w.K w.N) (runRB c w.dt) M).1 ≤ afSize)
    (hcc : (sizing e w (weightGeom c e w.dt w.K w.N) (runRB c w.dt) M).2 ≤ ccSize) :
    (runLoops c e v w M afSize ccSize A C).rc = 0 ↔ HasHeights e (weightGeom c e w.dt w.K w.N) w.dt := by
  cases hf : fullK w M with
  | true =>
      have hdt : w.dt ≠ .f16 := by
        rw [(of_decide_eq_true hf).1]
        decide
      refine iff_of_true ?_ fun h => absurd h hdt
      have hall : ∀ s ∈ fullTurns w (weightGeom c e w.dt w.K w.N) M,
          fullOk w v.zcA v.zcC afSize ccSize v.accepts s = true := by
        intro s hs
        obtain ⟨h1, h2⟩ := sizing_full e (runRB c w.dt) hM hw.Sn hf hs
        exact decide_eq_true ⟨fun h => absurd h.2 (by omega), fun h => absurd h.2 (by omega), hv.accepts s⟩
      simp only [runLoops, hf, if_true]
      rw [full_foldlM.mpr ⟨hall, rfl⟩]
  | false =>
      rw [hasHeights_iff (runRB c w.dt) hg hM]
      have hturns : turns (weightGeom c e w.dt w.K w.N).Sn (weightGeom c e w.dt w.K w.N).Sk
          (weightGeom c e w.dt w.K w.N).tile (fun t => orkiRunLoopChunk e w.dt t.Kp t.Nc (runRB c w.dt)) M =
          loopTurns e w (weightGeom c e w.dt w.K w.N) (runRB c w.dt) M := by
        rw [loopTurns, hw.Sn, hw.Sk]
      rw [hturns]
      simp only [runLoops, hf, Bool.false_eq_true, if_false]
      constructor
      · intro hrc s hs
        split at hrc
        · exact absurd (show (-1 : Int) = 0 from hrc) (by decide)
        · next st h =>
            exact Nat.not_lt.mp (of_decide_eq_true ((loop_foldlM.mp h).1 s hs)).1
      · intro hpos
        have hall : ∀ s ∈ loopTurns e w (weightGeom c e w.dt w.K w.N) (runRB c w.dt) M,
            loopOk e w (runRB c w.dt) afSize ccSize v.accepts s = true := by
          intro s hs
          obtain ⟨h1, h2⟩ := sizing_loop hw.Sn hw.Sk hs
          exact decide_eq_true ⟨Nat.not_lt.mpr (hpos s hs), by omega, by omega, hv.accepts s⟩
        rw [loop_foldlM.mpr ⟨hall, rfl⟩]

/-- In place, every N-slice is written from column 0 on. -/
theorem full_frame {g : Geom} {Bf : Nat → Nat → R} {zcA : Bool} (hN : w.N = g.N) (hlt : g.NMAX < g.N) {s : Turn}
    (hs : s ∈ fullTurns w g M) (st : RunSt R) :
    (fullEffect w Bf zcA true A s (fullProgram w zcA true s) st).C g.NMAX = st.C g.NMAX := by
  obtain ⟨ns, ks, i, -, -, -, rfl⟩ := mem_turns.mp hs
  have hNc : pieceLen g.N g.NMAX ns ≤ g.NMAX := pieceLen_le_size
  simp only [fullEffect, if_true]
  refine Program.run_frame _ fun r n _ hn hx => ?_
  simp only [fullProgram, orkiI8Synth, if_true] at hn hx
  have hn' : n < pieceLen g.N g.NMAX ns := hn
  rw [if_pos (by omega), ← Nat.add_mul] at hx
  have hx0 : (i * fullChunk w.K M + r) * w.N + n = 0 * w.N + g.NMAX := by omega
  have := (digits_inj (by omega) (by omega) hx0).2
  omega

omit [NonUnitalNonAssocSemiring R] in
theorem restride_frame {g : Geom} {Sn : Nat} (hNMAX : 0 < g.NMAX) (hSn : Sn = g.Sn) (hlt : g.NMAX < g.N) (C : Nat → R) :
    restride g Sn M C g.NMAX = C g.NMAX := by
  unfold restride
  refine foldl_frame (fun C : Nat → R => C g.NMAX) (fun s hs C => ?_) C
  obtain ⟨r, -, hs⟩ := List.mem_flatMap.mp hs
  obtain ⟨ns, hns, rfl⟩ := List.mem_map.mp hs
  have hns : ns < g.Sn := hSn ▸ List.mem_range.mp (List.mem_reverse.mp hns)
  have hcell := @stores_block_cell R 1 (g.tile ns 0).Nc
    (fun _ j => C ((g.tile ns 0).n0 + (g.tile ns 0).Nc + (r + 1 - 1) * g.N + j)) (r + 1) (g.tile ns 0).n0 g.N 0 g.NMAX
    (piece_le hNMAX hns) C hlt
  rw [Nat.zero_mul, Nat.zero_add, if_neg (by omega)] at hcell
  exact hcell

variable (c e v afSize ccSize A C) in
/-- Written in place by a weight of several N-slices, the first cell of the second one keeps what it held. -/
theorem runLoops_stale (hNMAX : 0 < c.soc.nmax) (hN : c.soc.nmax < w.N) (hSn : w.Sn = pieces w.N c.soc.nmax)
    (hf : fullK w M = true) (hz : v.zcC = true) :
    (runLoops c e v w M afSize ccSize A C).C c.soc.nmax = C c.soc.nmax ∨
      (runLoops c e v w M afSize ccSize A C).rc ≠ 0 := by
  simp only [runLoops, hf, hz, if_true]
  split
  · exact .inr (show (-1 : Int) ≠ 0 by decide)
  · next st h =>
      left
      have hSn1 : 1 < w.Sn := by
        rw [hSn, lt_pieces_iff hNMAX, Nat.one_mul]
        exact hN
      obtain ⟨-, rfl⟩ := full_foldlM.mp h
      dsimp only
      rw [if_pos hSn1]
      refine (restride_frame (g := weightGeom c e w.dt w.K w.N) hNMAX hSn hN _).trans ?_
      exact foldl_frame (fun st : RunSt R => st.C c.soc.nmax)
        (fun s hs st => full_frame (g := weightGeom c e w.dt w.K w.N) rfl hN hs st) _

/-- Staging buffers are missing, or the loops run with buffers that are large enough where nothing was refused. -/
theorem orkiRun_cases (c : OrkNpu) (e : F16Knobs) (v : RunEnv R) (w : OrkW R) (M : Nat) (A C : Nat → R) :
    ((orkiRun c e v w M A C).rc = -1 ∧ (orkiRun c e v w M A C).emitted = [] ∧ ¬ v.Good) ∨
    ∃ afSize ccSize, orkiRun c e v w M A C = runLoops c e v w M afSize ccSize A C ∧
      (v.Good → (sizing e w (weightGeom c e w.dt w.K w.N) (runRB c w.dt) M).1 ≤ afSize ∧
        (sizing e w (weightGeom c e w.dt w.K w.N) (runRB c w.dt) M).2 ≤ ccSize) := by
  have hpg : ∀ a b : Nat, b ≤ (if a < b then pgup b else a) := fun a b => by
    have := le_pgup b
    split <;> omega
  unfold orkiRun
  dsimp only
  split
  · next h =>
      refine .inl ⟨rfl, rfl, fun hv => ?_⟩
      rw [hv.newCc] at h
      exact Bool.noConfusion h.2
  · split
    · next h =>
        refine .inl ⟨rfl, rfl, fun hv => ?_⟩
        rw [hv.newAf] at h
        exact Bool.noConfusion h.2
    · refine .inr ⟨_, _, rfl, fun hv => ⟨hpg _ _, ?_⟩⟩
      have hle := hv.ccsz
      have := le_pgup (sizing e w (weightGeom c e w.dt w.K w.N) (runRB c w.dt) M).2
      split <;> omega

end

omit [NonUnitalNonAssocSemiring R] in
/-- What a packed weight holds, in its own dimensions. -/
theorem orkiPack_own {c : OrkNpu} (hc : c.soc ∈ socTable) {e : F16Knobs} {p : PackEnv R} {dt : Dt} {K N : Nat}
    {B : Nat → R} {w : OrkW R} (hw : orkiPack c e p dt K N B = some w) :
    (w.dt = dt ∧ w.K = K ∧ w.N = N) ∧ Holds (weightGeom c e w.dt w.K w.N) B w ∧
      Blocks (weightGeom c e w.dt w.K w.N) (ntSz w.dt) := by
  obtain ⟨hB, rfl, -⟩ := orkiPack_holds hc hw
  obtain rfl : w.K = K := hB.K
  obtain rfl : w.N = N := hB.N
  exact ⟨⟨rfl, rfl, rfl⟩, hB, weightGeom_blocks hc e w.dt w.K w.N⟩

section

variable {c : OrkNpu} {e : F16Knobs} {w : OrkW R} {B : Nat → R} {M : Nat} {zc : Bool}

/-- Nothing is refused, and C is or is not a DMA buffer. -/
def goodEnv (zc : Bool) : RunEnv R := ⟨false, zc, 0, 0, 0, true, true, fun _ => true, fun _ => 0, fun _ => 0⟩

theorem goodEnv_good (zc : Bool) : (goodEnv zc : RunEnv R).Good := ⟨rfl, rfl, Nat.le_refl 0, fun _ => rfl⟩

theorem orkiRun_good (c : OrkNpu) (e : F16Knobs) (w : OrkW R) (M : Nat) (zc : Bool) (A C : Nat → R) :
    ∃ afSize ccSize, orkiRun c e (goodEnv zc) w M A C = runLoops c e (goodEnv zc) w M afSize ccSize A C ∧
      (sizing e w (weightGeom c e w.dt w.K w.N) (runRB c w.dt) M).1 ≤ afSize ∧
      (sizing e w (weightGeom c e w.dt w.K w.N) (runRB c w.dt) M).2 ≤ ccSize := by
  rcases orkiRun_cases c e (goodEnv zc) w M A C with ⟨-, -, hno⟩ | ⟨af, cc, hrun, hsize⟩
  · exact absurd (goodEnv_good zc) hno
  · exact ⟨af, cc, hrun, hsize (goodEnv_good zc)⟩

theorem RunsRight.hasHeights (hM : 0 < M) (hg : Blocks (weightGeom c e w.dt w.K w.N) (ntSz w.dt))
    (hB : Holds (weightGeom c e w.dt w.K w.N) B w) {A C : Nat → R} (h : RunsRight c e (goodEnv zc) w M A B C) :
    HasHeights e (weightGeom c e w.dt w.K w.N) w.dt := by
  obtain ⟨af, cc, hrun, haf, hcc⟩ := orkiRun_good c e w M zc A C
  have hrc := h.returns (goodEnv_good zc)
  rw [hrun] at hrc
  exact (runLoops_rc hM hg hB (goodEnv_good zc) haf hcc).mp hrc

/-- Written in place by several N-slices, the product is missed for some content of C. -/
theorem exists_in_place_wrong [Nontrivial R] (hM : 0 < M) (hg : Blocks (weightGeom c e w.dt w.K w.N) (ntSz w.dt))
    (hB : Holds (weightGeom c e w.dt w.K w.N) B w) (hf : fullK w M = true) (hlt : c.soc.nmax < w.N) (A : Nat → R) :
    ∃ C, ¬ RunsRight c e (goodEnv true) w M A B C := by
  obtain ⟨x, hx⟩ := exists_ne (matmul A B w.K w.N 0 c.soc.nmax)
  refine ⟨fun _ => x, fun h => ?_⟩
  have hrc := h.returns (goodEnv_good true)
  have hcell := h.right.product hrc 0 c.soc.nmax hM hlt
  obtain ⟨af, cc, hrun, -, -⟩ := orkiRun_good c e w M true A fun _ => x
  rw [hrun] at hrc hcell
  rw [Nat.zero_mul, Nat.zero_add] at hcell
  rcases runLoops_stale c e (goodEnv true) af cc A (fun _ => x)
      hg.NMAX_pos hlt hB.Sn hf rfl with hstale | hbad
  · exact hx (hstale.symm.trans hcell)
  · exact hbad hrc

theorem runsRight_of (hM : 0 < M) (hg : Blocks (weightGeom c e w.dt w.K w.N) (ntSz w.dt))
    (hB : Holds (weightGeom c e w.dt w.K w.N) B w) (hheights : HasHeights e (weightGeom c e w.dt w.K w.N) w.dt)
    {v : RunEnv R} (hplace : ¬ (fullK w M = true ∧ v.zcC = true ∧ c.soc.nmax < w.N)) (A C : Nat → R) :
    RunsRight c e v w M A B C := by
  have hzc : fullK w M = true → v.zcC = true → w.Sn ≤ 1 := by
    intro hf hz
    rw [hB.Sn]
    refine Nat.not_lt.mp fun hlt => hplace ⟨hf, hz, ?_⟩
    have := (lt_pieces_iff hg.NMAX_pos).mp hlt
    rwa [Nat.one_mul] at this
  rcases orkiRun_cases c e v w M A C with ⟨hrc, hemitted, hno⟩ | ⟨af, cc, hrun, hsize⟩
  · refine ⟨.of_failed hrc ?_, fun hv => absurd hv hno⟩
    rw [hemitted]
    exact fun em hem => absurd hem List.not_mem_nil
  · constructor
    · rw [hrun]
      exact runLoops_right hM hg hB hzc
    · intro hv
      rw [hrun]
      exact (runLoops_rc hM hg hB hv (hsize hv).1 (hsize hv).2).mpr hheights

end

/-- A run on one core is right for all operands and buffers exactly if every fp16 slice has a legal program height and
no weight of several N-slices is written to C in place by the full-K loop. -/
theorem orkiRun_right_iff [Nontrivial R] {c : OrkNpu} (hc : c.soc ∈ socTable) {e : F16Knobs} {p : PackEnv R} {dt : Dt}
    {K N : Nat} {B : Nat → R} {w : OrkW R} (hw : orkiPack c e p dt K N B = some w) {M : Nat} (hM : 0 < M) (zc : Bool) :
    (∀ A C v, v.zcC = zc → RunsRight c e v w M A B C) ↔
      HasHeights e (weightGeom c e dt K N) dt ∧ ¬ (fullK w M = true ∧ zc = true ∧ c.soc.nmax < N) := by
  obtain ⟨⟨rfl, rfl, rfl⟩, hB, hg⟩ := orkiPack_own hc hw
  constructor
  · intro h
    refine ⟨(h (fun _ => 0) (fun _ => 0) (goodEnv zc) rfl).hasHeights hM hg hB, ?_⟩
    rintro ⟨hf, rfl, hlt⟩
    obtain ⟨C, hwrong⟩ := exists_in_place_wrong hM hg hB hf hlt fun _ => 0
    exact hwrong (h _ C (goodEnv true) rfl)
  · rintro ⟨hheights, hplace⟩ A C v rfl
    exact runsRight_of hM hg hB hheights hplace A C

instance nontrivial_word : Nontrivial (BitVec 32) := ⟨0, 1, by decide⟩

/-- A chip with three cores and no knobs set. -/
theorem orkiRun_right_512 : ∃ w : OrkW (BitVec 32),
    orkiPack ⟨3, socRk3588, 0⟩ ⟨0, 0⟩ (granted 0) .i8 512 8224 (fun i => .ofNat 32 i) = some w ∧
    ∀ A C v, v.zcC = false → RunsRight ⟨3, socRk3588, 0⟩ ⟨0, 0⟩ v w 2 A (fun i => .ofNat 32 i) C := by
  obtain ⟨w, hw, -⟩ := exists_orkiPack ⟨3, socRk3588, 0⟩ ⟨0, 0⟩ (0 : BitVec 32) .i8 (K := 512) (N := 8224) (by decide)
    (by decide) (fun i => .ofNat 32 i)
  refine ⟨w, hw, (orkiRun_right_iff (by decide) hw (by decide) false).mpr ⟨fun h => ?_, fun h => ?_⟩⟩
  · cases h
  · exact Bool.noConfusion h.2.1

/-- The same weight, written to C in place. -/
theorem orkiRun_in_place_fails : ∃ w : OrkW (BitVec 32),
    orkiPack ⟨3, socRk3588, 0⟩ ⟨0, 0⟩ (granted 0) .i8 512 8224 (fun i => .ofNat 32 i) = some w ∧
    ¬ ∀ A C v, v.zcC = true → RunsRight ⟨3, socRk3588, 0⟩ ⟨0, 0⟩ v w 2 A (fun i => .ofNat 32 i) C := by
  obtain ⟨w, hw, hBf⟩ := exists_orkiPack ⟨3, socRk3588, 0⟩ ⟨0, 0⟩ (0 : BitVec 32) .i8 (K := 512) (N := 8224) (by decide)
    (by decide) (fun i => .ofNat 32 i)
  obtain ⟨⟨hdt, hK, hN⟩, hB, hg⟩ := orkiPack_own (by decide) hw
  have hf : fullK w 2 = true := by
    rw [fullK, hBf, hdt, hK]
    decide
  obtain ⟨C, hwrong⟩ := exists_in_place_wrong (M := 2) (by decide) hg hB hf (by rw [hN]; decide) fun _ => 0
  exact ⟨w, hw, fun h => hwrong (h _ C (goodEnv true) rfl)⟩

end OrkDriver.Run
