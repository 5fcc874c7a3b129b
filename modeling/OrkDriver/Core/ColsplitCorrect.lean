import OrkDriver.Core.Descatter
import OrkDriver.Run.SingleCoreCorrect

/-!
`ork_dyn_end` after `ork_dyn_begin_colsplit`: the copy-back inverts the layout of the emission, and C is the product.
-/

namespace OrkDriver.Core

open OrkDriver.Lib OrkDriver.Npu OrkDriver.Pack OrkDriver.Run

variable {R : Type*}

/-! ### The column ranges -/

theorem coreCol_mono (NN nc : Nat) : Monotone (coreCol NN nc) := fun _ _ h =>
  Nat.mul_le_mul_right 32 (Nat.div_le_div_right (Nat.mul_le_mul_right NN h))

theorem coreCol_zero (NN nc : Nat) : coreCol NN nc 0 = 0 := by simp [coreCol]

theorem coreCol_last {N nc : Nat} (hnc : 0 < nc) (hN : 32 ∣ N) : coreCol (N / 32) nc nc = N := by
  rw [coreCol, Nat.mul_div_cancel_left _ hnc, Nat.div_mul_cancel hN]

theorem dvd_coreCol (NN nc i : Nat) : 32 ∣ coreCol NN nc i := Nat.dvd_mul_left 32 _

theorem coreCol_le {N nc i : Nat} (hnc : 0 < nc) (hN : 32 ∣ N) (hi : i < nc) : coreCol (N / 32) nc (i + 1) ≤ N :=
  le_trans (coreCol_mono _ _ hi) (Nat.le_of_eq (coreCol_last hnc hN))

theorem ColsplitEnv.dvd_segcap (v : ColsplitEnv R) (K : Nat) : 32 ∣ v.segcap K := by
  unfold segcap
  dsimp only
  split_ifs
  · exact Nat.dvd_mul_left 32 _
  · exact Nat.dvd_mul_left 32 _
  · exact Nat.dvd_zero 32

theorem ColsplitEnv.cores_pos (v : ColsplitEnv R) (c : OrkNpu) (NN : Nat) (ncreq : Int) : 0 < v.cores c NN ncreq :=
  raised_pos _

/-! ### The copy-back of the workers -/

/-- Storing the first partial and adding the others leaves their sum in the block, and nothing else anywhere. -/
theorem workerAccumulate_cell [AddCommMonoid R] {op : DynOp} {lo M Sk Nc stride : Nat} (hdst : op.dst = some lo)
    (hM : 0 < M) (hoM : op.oM = M) (hSk : 0 < Sk) (hoSk : op.oSk = Sk) (hnout : op.nout = Sk * M * Nc)
    (hstride : 0 < stride) (hos : op.ostride = stride) (hle : lo + Nc ≤ stride) (src C : Nat → R) {m n : Nat}
    (hn : n < stride) : workerAccumulate op src C (m * stride + n) =
      if m < M ∧ lo ≤ n ∧ n < lo + Nc then ∑ ks ∈ Finset.range Sk, src (ks * M * Nc + m * Nc + (n - lo))
      else C (m * stride + n) := by
  have hNn : op.nout / (op.oSk * M) = Nc := by
    rw [hnout, hoSk]
    exact Nat.mul_div_cancel_left Nc (Nat.mul_pos hSk hM)
  unfold workerAccumulate
  rw [hdst]
  dsimp only
  rw [hoM, if_neg (Nat.ne_of_gt hM), hNn, hos, if_pos hstride, hoSk]
  have hcell : ∀ (C : Nat → R) (v : Nat → Nat → R),
      stores C (block lo stride M Nc v) (m * stride + n) =
        if m < M ∧ lo ≤ n ∧ n < lo + Nc then v m (n - lo) else C (m * stride + n) := by
    intro C v
    have := @stores_block_cell R M Nc v 0 lo stride m n hle C hn
    rw [Nat.zero_mul, Nat.zero_add, Nat.zero_add, Nat.sub_zero] at this
    rw [this]
    exact if_congr ⟨fun h => h.2, fun h => ⟨Nat.zero_le m, h⟩⟩ rfl rfl
  by_cases hin : m < M ∧ lo ≤ n ∧ n < lo + Nc
  · have hback : lo + m * stride + (n - lo) = m * stride + n := by omega
    rw [if_pos hin, foldl_cell (fun C : Nat → R => C (m * stride + n))
      (g := fun ks v => if ks = 0 then src (ks * M * Nc + m * Nc + (n - lo))
        else v + src (ks * M * Nc + m * Nc + (n - lo))) (t := fun _ => true)]
    · rw [List.filter_true, foldl_store_add, if_neg (Nat.ne_of_gt hSk)]
    · intro ks _ _ C
      rw [hcell, if_pos hin, hback]
      split
      · next h0 => rw [h0, Nat.zero_mul, Nat.zero_mul, Nat.zero_add]
      · rfl
    · intro ks _ h
      cases h
  · rw [if_neg hin]
    refine foldl_frame (fun C : Nat → R => C (m * stride + n)) (fun ks _ C => ?_) C
    rw [hcell, if_neg hin]

/-! ### One core -/

/-- What `ork_dyn_begin_mc` asks of a task it column-splits: an int8 weight that holds `B`, read by its full-K copy, or
of a single N-slice. -/
structure Dispatched (c : OrkNpu) (e : F16Knobs) (B : Nat → R) (w : OrkW R) : Prop where
  soc : c.soc ∈ socTable
  holds : Holds (weightGeom c e .i8 w.K w.N) B w
  dt : w.dt = .i8
  K_pos : 0 < w.K
  gate : wideK w = true → w.Sn = 1

/-- How many partials an element has. -/
def slices (w : OrkW R) : Nat := if wideK w then w.Sk else 1

/-- Row stride of C. -/
def rowStride (w : OrkW R) (cstride : Nat) : Nat := if wideK w ∧ cstride ≠ 0 then cstride else w.N

section

variable {c : OrkNpu} {e : F16Knobs} {B : Nat → R} {w : OrkW R} {v : ColsplitEnv R} {M cstride nc i : Nat}

theorem Dispatched.nmax (h : Dispatched c e B w) : 0 < c.soc.nmax ∧ 32 ∣ c.soc.nmax := by
  rw [socTable_nmax h.soc]
  decide

theorem Dispatched.N32 (h : Dispatched c e B w) : 32 ∣ w.N := by
  have := h.holds.Nnb
  rwa [h.dt] at this

theorem Dispatched.Sk_pos (h : Dispatched c e B w) : 0 < w.Sk := by
  rw [h.holds.Sk]
  refine (lt_pieces_iff (weightGeom_blocks h.soc e .i8 w.K w.N).KS_pos).mpr ?_
  rw [Nat.zero_mul]
  exact h.K_pos

theorem Dispatched.N_le (h : Dispatched c e B w) (hwide : wideK w = true) : w.N ≤ c.soc.nmax := by
  have hSn := h.gate hwide
  rw [h.holds.Sn] at hSn
  refine Nat.not_lt.mp fun hlt => ?_
  have : 1 < (weightGeom c e .i8 w.K w.N).Sn := by
    refine (lt_pieces_iff h.nmax.1).mpr ?_
    rw [Nat.one_mul]
    exact hlt
  omega

theorem Dispatched.steps (h : Dispatched c e B w) (v : ColsplitEnv R) {hi : Nat} (h32 : 32 ∣ hi) (hle : hi ≤ w.N) :
    Steps (32 ∣ ·) (cutEnd c.soc.nmax w.N (v.segcap w.K) hi) hi 32 :=
  cutEnd_steps h.nmax.1 h.nmax.2 h.N32 (v.dvd_segcap w.K) h32 hle

variable {lo hi : Nat}

theorem wide_fetches (h : Dispatched c e B w) (hwide : wideK w = true) (hM : 0 < M) {stride : Nat} (hlt : lo < hi)
    (hle : hi ≤ w.N) (hstride : w.N ≤ stride) (segcap : Nat) :
    Fetches (orkDynWriteback ⟨c.soc.nmax, w.N, segcap, false⟩
        ⟨w.Sk * M * (hi - lo), M, w.Sk, stride, 0, false, some lo⟩)
      (wideEmits c.int8Ks w.K w.Sk M lo (hi - lo)) w.Sk M stride lo hi := by
  have hSk := h.Sk_pos
  have hpos : 0 < hi - lo := Nat.sub_pos_of_lt hlt
  have hout : w.Sk * M * (hi - lo) ≠ 0 := Nat.ne_of_gt (Nat.mul_pos (Nat.mul_pos hSk hM) hpos)
  unfold orkDynWriteback
  dsimp only
  rw [if_neg hout, if_neg (Nat.ne_of_gt hM), if_pos (show 0 < stride by omega)]
  by_cases hSk1 : 1 < w.Sk
  · rw [if_pos hSk1, Nat.mul_div_cancel_left _ (Nat.mul_pos hSk hM)]
    exact fetches_partials hlt.le (le_trans hle hstride) fun _ _ => rfl
  · have hone : w.Sk = 1 := by omega
    have hsmall : ¬ (false = false ∧ 1 < M ∧ c.soc.nmax < hi - lo) := fun hbig => by
      have := h.N_le hwide
      omega
    rw [if_neg hSk1, hone, Nat.one_mul, Nat.mul_div_cancel_left _ hM, if_neg Bool.false_ne_true, if_neg hsmall,
      if_neg Bool.false_ne_true, if_pos (show 0 < stride by omega)]
    refine fetches_partials hlt.le (le_trans hle hstride) fun m j => ?_
    rw [List.range_one, List.map_singleton, Nat.zero_mul, Nat.zero_mul, Nat.zero_add]

theorem segTable_walk (h : Dispatched c e B w) (v : ColsplitEnv R) (M : Nat) (hlo : 32 ∣ lo) (hhi : 32 ∣ hi)
    (hlt : lo < hi) (hle : hi ≤ w.N) :
    segTable c.soc.nmax w.N (v.segcap w.K) M (lo + (hi - lo)) ((hi - lo) / 32 + 2) lo 0 =
      (walk (cutEnd c.soc.nmax w.N (v.segcap w.K) hi) hi ((hi - lo) / 32 + 2) lo).map (segOf c.soc.nmax M lo) := by
  have := @segTable_eq _ _ _ _ M lo hi 32 ((hi - lo) / 32 + 2) lo (h.steps v hhi hle) hlo (Nat.le_refl lo)
  rw [Nat.add_sub_cancel' hlt.le]
  rwa [Nat.sub_self, Nat.mul_zero] at this

theorem base_fetches (h : Dispatched c e B w) (v : ColsplitEnv R) (hM : 0 < M) (hlo : 32 ∣ lo) (hhi : 32 ∣ hi)
    (hlt : lo < hi) (hle : hi ≤ w.N) (mouter : Bool) {sg : List Seg}
    (hsg : sg = (walk (cutEnd c.soc.nmax w.N (v.segcap w.K) hi) hi ((hi - lo) / 32 + 2) lo).map
      (segOf c.soc.nmax M lo)) :
    Fetches (orkDynWriteback ⟨c.soc.nmax, w.N, v.segcap w.K, false⟩
        ⟨M * (hi - lo), M, 0, w.N, lo, 1 < sg.length, some lo⟩)
      (segEmits c.soc.nmax w.K M mouter sg) 1 M w.N lo hi := by
  have hsteps := h.steps v hhi hle
  have hfuel : hi ≤ lo + ((hi - lo) / 32 + 2) * 32 := by omega
  have hfetch := @fetches_segments _ c.soc.nmax w.K M w.N lo hi _ mouter hsteps hlo hfuel hle
  have hout : M * (hi - lo) ≠ 0 := Nat.ne_of_gt (Nat.mul_pos hM (Nat.sub_pos_of_lt hlt))
  rw [← hsg] at hfetch
  have hlen : sg.length = (walk (cutEnd c.soc.nmax w.N (v.segcap w.K) hi) hi ((hi - lo) / 32 + 2) lo).length := by
    rw [hsg, List.length_map]
  unfold orkDynWriteback
  dsimp only
  rw [if_neg hout, if_neg (Nat.ne_of_gt hM), Nat.mul_div_cancel_left _ hM, if_neg (by decide)]
  by_cases hone : 1 < sg.length
  · rw [if_pos (decide_eq_true hone)]
    have hmoves := @scatterMoves_eq (32 ∣ ·) ⟨c.soc.nmax, w.N, v.segcap w.K, false⟩ M w.N lo (hi - lo) 32
      (hi - lo + 1) lo (by rw [Nat.add_sub_cancel' hlt.le]; exact hsteps) hlo (Nat.le_refl lo)
    rw [Nat.sub_self, Nat.mul_zero, Nat.add_sub_cancel' hlt.le,
      walk_fuel hsteps hlo hfuel (show (hi - lo) / 32 + 2 ≤ hi - lo + 1 by omega)] at hmoves
    rw [hmoves]
    exact hfetch
  · -- one segment: it lies in one N-slice
    have hsingle := walk_single hsteps hlo hfuel hlt (by omega)
    have hwidth : ¬ (false = false ∧ 1 < M ∧ c.soc.nmax < hi - lo) := fun hbig => by
      have hmem : (lo, hi) ∈ walk (cutEnd c.soc.nmax w.N (v.segcap w.K) hi) hi ((hi - lo) / 32 + 2) lo := by
        rw [hsingle]
        exact List.mem_cons_self
      have heq : hi = cutEnd c.soc.nmax w.N (v.segcap w.K) hi lo := (mem_walk hsteps hlo hmem).2.2.2.2.1
      have hslice := (cutEnd_spec h.nmax.1 h.nmax.2 h.N32 (v.dvd_segcap w.K) hhi hle hlo hlt).2.2.2
      rw [← heq, Nat.succ_mul] at hslice
      have := Nat.div_mul_le_self lo c.soc.nmax
      omega
    rw [if_neg (by simpa using hone), if_neg hwidth, if_neg (by decide), if_pos (show 0 < w.N by omega)]
    rw [hsingle] at hfetch
    simp only [List.flatMap_cons, List.flatMap_nil, List.append_nil, Nat.sub_self, Nat.mul_zero, Nat.zero_add] at hfetch
    exact hfetch

theorem coreWork_idle (h : coreCol (w.N / 32) nc (i + 1) - coreCol (w.N / 32) nc i = 0) :
    coreWork c v w M cstride nc i = ⟨[], 0, 0, 0, 0, 0, false, none⟩ := if_pos h

theorem coreWork_wide (h : coreCol (w.N / 32) nc (i + 1) - coreCol (w.N / 32) nc i ≠ 0) (hwide : wideK w = true) :
    coreWork c v w M cstride nc i =
      ⟨wideEmits c.int8Ks w.K w.Sk M (coreCol (w.N / 32) nc i)
          (coreCol (w.N / 32) nc (i + 1) - coreCol (w.N / 32) nc i),
        w.Sk * M * (coreCol (w.N / 32) nc (i + 1) - coreCol (w.N / 32) nc i), M, w.Sk,
        if cstride = 0 then w.N else cstride, 0, false, some (coreCol (w.N / 32) nc i)⟩ :=
  (if_neg h).trans (if_pos hwide)

variable (v M cstride) in
theorem coreWork_base (h : coreCol (w.N / 32) nc (i + 1) - coreCol (w.N / 32) nc i ≠ 0) (hwide : wideK w = false) :
    ∃ sg, sg = segTable c.soc.nmax w.N (v.segcap w.K) M
        (coreCol (w.N / 32) nc i + (coreCol (w.N / 32) nc (i + 1) - coreCol (w.N / 32) nc i))
        ((coreCol (w.N / 32) nc (i + 1) - coreCol (w.N / 32) nc i) / 32 + 2) (coreCol (w.N / 32) nc i) 0 ∧
      coreWork c v w M cstride nc i =
        ⟨segEmits c.soc.nmax w.K M (v.wrMouter ≠ 0) sg,
          M * (coreCol (w.N / 32) nc (i + 1) - coreCol (w.N / 32) nc i), M, 0, w.N, coreCol (w.N / 32) nc i,
          1 < sg.length, some (coreCol (w.N / 32) nc i)⟩ := by
  refine ⟨_, rfl, (if_neg h).trans (if_neg ?_)⟩
  rw [hwide]
  exact Bool.false_ne_true

/-- Layout and copy-back of one core agree. -/
theorem coreWork_spec (h : Dispatched c e B w) (hM : 0 < M) (hcs : cstride = 0 ∨ w.N ≤ cstride) (hi : i < nc) :
    Laid (coreWork c v w M cstride nc i).emits (slices w) M (coreCol (w.N / 32) nc i) (coreCol (w.N / 32) nc (i + 1)) ∧
    Fetches (orkDynWriteback ⟨c.soc.nmax, w.N, v.segcap w.K, false⟩ (coreWork c v w M cstride nc i).op)
      (coreWork c v w M cstride nc i).emits (slices w) M (rowStride w cstride) (coreCol (w.N / 32) nc i)
      (coreCol (w.N / 32) nc (i + 1)) := by
  have hmono : coreCol (w.N / 32) nc i ≤ coreCol (w.N / 32) nc (i + 1) := coreCol_mono _ _ (Nat.le_succ i)
  have hle := coreCol_le (Nat.zero_lt_of_lt hi) h.N32 hi
  have hlo := dvd_coreCol (w.N / 32) nc i
  have hhi := dvd_coreCol (w.N / 32) nc (i + 1)
  by_cases hidle : coreCol (w.N / 32) nc (i + 1) - coreCol (w.N / 32) nc i = 0
  · rw [coreWork_idle hidle]
    constructor
    · exact ⟨fun e he => absurd he List.not_mem_nil, fun ks m n _ _ hge hlt => by omega,
        fun e he => absurd he List.not_mem_nil⟩
    · exact ⟨fun m n _ hge hlt => by omega, fun p hp => absurd hp List.not_mem_nil⟩
  · have hlt : coreCol (w.N / 32) nc i < coreCol (w.N / 32) nc (i + 1) := by omega
    cases hwide : wideK w with
    | true =>
        have hrow : rowStride w cstride = if cstride = 0 then w.N else cstride := by
          rw [rowStride, hwide]
          by_cases h0 : cstride = 0 <;> simp [h0]
        rw [coreWork_wide hidle hwide, slices, hwide, if_pos rfl, hrow]
        exact ⟨wideEmits_laid _ _ _ _ hmono, wide_fetches h hwide hM hlt hle (by split <;> omega) _⟩
    | false =>
        obtain ⟨sg, hsg, hwork⟩ := coreWork_base (c := c) v M cstride hidle hwide
        have hrow : rowStride w cstride = w.N := by
          rw [rowStride, hwide]
          exact if_neg fun hand => Bool.false_ne_true hand.1
        rw [segTable_walk h v M hlo hhi hlt hle] at hsg
        rw [hwork, slices, hwide, if_neg Bool.false_ne_true, hrow]
        refine ⟨?_, base_fetches h v hM hlo hhi hlt hle _ hsg⟩
        dsimp only
        rw [hsg]
        exact segEmits_laid (h.steps v hhi hle) hlo (by omega)

/-! ### What the programs compute -/

/-- The gathered K-slices of A. -/
theorem stagedA_wide (hwide : wideK w = true) (A : Nat → R) {ks m k : Nat}
    (hks : ks < w.Sk) (hm : m < M) (hk : k < pieceLen w.K c.int8Ks ks) :
    stagedA c v w M A i (M * (ks * c.int8Ks) + m * pieceLen w.K c.int8Ks ks + k) =
      A (m * w.K + (ks * c.int8Ks + k)) := by
  have hKS : 0 < c.int8Ks := c.int8Ks_spec.1
  -- the gathered rows of one slice end before those of a later one start
  have hbefore : ∀ a b x y : Nat, a < b → b < w.Sk → x < M → y < pieceLen w.K c.int8Ks a →
      M * (a * c.int8Ks) + x * pieceLen w.K c.int8Ks a + y < M * (b * c.int8Ks) := by
    intro a b x y hab hb hx hy
    have hend : a * c.int8Ks + pieceLen w.K c.int8Ks a ≤ b * c.int8Ks := by
      have hlen : pieceLen w.K c.int8Ks a ≤ c.int8Ks := pieceLen_le_size
      have hnext : (a + 1) * c.int8Ks ≤ b * c.int8Ks := Nat.mul_le_mul_right _ hab
      rw [Nat.succ_mul] at hnext
      omega
    calc M * (a * c.int8Ks) + x * pieceLen w.K c.int8Ks a + y
        < M * (a * c.int8Ks) + M * pieceLen w.K c.int8Ks a := by
          rw [Nat.add_assoc]
          exact Nat.add_lt_add_left (digits_lt hx hy) _
      _ = M * (a * c.int8Ks + pieceLen w.K c.int8Ks a) := (Nat.mul_add M _ _).symm
      _ ≤ M * (b * c.int8Ks) := Nat.mul_le_mul_left M hend
  unfold stagedA
  rw [if_pos hwide]
  refine stores.of_mem ⟨_, List.mem_flatMap.mpr ⟨ks, List.mem_range.mpr hks, mem_block.mpr ⟨m, k, hm, hk, rfl⟩⟩, rfl⟩
    fun p hp hx => ?_
  obtain ⟨ks', hks', hp⟩ := List.mem_flatMap.mp hp
  obtain ⟨m', k', hm', hk', rfl⟩ := mem_block.mp hp
  have hks' := List.mem_range.mp hks'
  dsimp only at hx ⊢
  rcases Nat.lt_trichotomy ks ks' with hlt | rfl | hlt
  · have := hbefore ks ks' m k hlt hks' hm hk
    omega
  · rw [Nat.add_assoc, Nat.add_assoc] at hx
    obtain ⟨rfl, rfl⟩ := digits_inj hk' hk (Nat.add_left_cancel hx)
    rfl
  · have := hbefore ks' ks m' k' hlt hks hm' hk'
    omega

variable [NonUnitalNonAssocSemiring R]

/-- The part of an element that slice `ks` contributes. -/
def sliceAt (c : OrkNpu) (w : OrkW R) (A B : Nat → R) (ks m n : Nat) : R :=
  if wideK w then
    dot (pieceLen w.K c.int8Ks ks) (fun k => A (m * w.K + (ks * c.int8Ks + k)))
      fun k => B ((ks * c.int8Ks + k) * w.N + n)
  else matmul A B w.K w.N m n

theorem sum_sliceAt (h : Dispatched c e B w) (A : Nat → R) (m n : Nat) :
    ∑ ks ∈ Finset.range (slices w), sliceAt c w A B ks m n = matmul A B w.K w.N m n := by
  unfold slices sliceAt
  cases hwide : wideK w with
  | true =>
      simp only [if_true]
      rw [h.holds.Sk]
      exact sum_partialAt (weightGeom_blocks h.soc e .i8 w.K w.N).KS_pos A B 0 m n
  | false =>
      simp only [Bool.false_eq_true, if_false]
      exact Finset.sum_range_one _

omit [NonUnitalNonAssocSemiring R] in
/-- Columns from `n0` on of a tile in memory, for a column block that starts at a block boundary. -/
theorem tiled_from {t : Tile} {W : Nat → R} (hW : Tiled 32 B w.N t W) (hKp : 32 ∣ t.Kp) {n0 k j : Nat} (h32 : 32 ∣ n0)
    (hk : k < t.Kp) (hj : n0 + j < t.Nc) :
    W (n0 / 32 * t.Kp * 32 + wIndex 32 t.Kp k j) = B ((t.k0 + k) * w.N + (t.n0 + (n0 + j))) := by
  rw [← hW k (n0 + j) hk hj, wIndex_add (by decide) h32]
  obtain ⟨q, hq⟩ := hKp
  rw [hq, Nat.mul_div_cancel_left q (by decide)]
  exact congrArg (fun x => W (x + _)) (by ring)

theorem wide_value (h : Dispatched c e B w) (hwide : wideK w = true) {lo hi : Nat} (hlo : 32 ∣ lo) (hle : hi ≤ w.N)
    (A : Nat → R) : ∀ em ∈ wideEmits c.int8Ks w.K w.Sk M lo (hi - lo), ∀ r j, r < em.p.mc → j < em.p.Nc →
      em.p.value 32 (stagedA c v w M A i) (w.Bb em.wb) r j = sliceAt c w A B em.ks (em.m0 + r) (em.n0 + j) := by
  intro em hem r j hr hj
  obtain ⟨ks, hks, b, hb, rfl⟩ := mem_wideEmits.mp hem
  have hend := piece_le (orkiMtileCap_pos _) hb
  have hSn := h.gate hwide
  rw [h.holds.Sn] at hSn
  have hN : pieceLen w.N c.soc.nmax 0 = w.N := pieceLen_of_le (h.N_le hwide)
  have hW := h.holds.Bb 0 ks (by omega) (by rw [← h.holds.Sk]; exact hks)
  rw [Nat.zero_mul, Nat.zero_add] at hW
  have hKp : 32 ∣ pieceLen w.K c.int8Ks ks := dvd_pieceLen h.holds.K32 c.int8Ks_spec.2
  rw [Program.value, sliceAt, if_pos hwide]
  dsimp only at hr hj hend ⊢
  refine dot_congr (fun k hk => ?_) fun k hk => ?_
  · have hrow : M * (ks * c.int8Ks) + b * orkiMtileCap (pieceLen w.K c.int8Ks ks) * pieceLen w.K c.int8Ks ks +
        r * pieceLen w.K c.int8Ks ks + k = M * (ks * c.int8Ks) +
          (b * orkiMtileCap (pieceLen w.K c.int8Ks ks) + r) * pieceLen w.K c.int8Ks ks + k := by
      rw [Nat.add_mul, Nat.add_assoc (M * _)]
    rw [hrow]
    exact stagedA_wide hwide A hks (by omega) hk
  · have hdt : ntSz w.dt = 32 := by rw [h.dt]; rfl
    rw [hdt] at hW
    have := tiled_from hW hKp hlo hk (show lo + j < pieceLen w.N c.soc.nmax 0 by omega)
    refine this.trans (congrArg B ?_)
    show _ + (0 * c.soc.nmax + (lo + j)) = _
    rw [Nat.zero_mul, Nat.zero_add]
    rfl

theorem base_value (h : Dispatched c e B w) (hwide : wideK w = false) {lo hi fuel : Nat} {mouter : Bool} (hlo : 32 ∣ lo)
    (hhi : 32 ∣ hi) (hle : hi ≤ w.N) (A : Nat → R) :
    ∀ em ∈ segEmits c.soc.nmax w.K M mouter ((walk (cutEnd c.soc.nmax w.N (v.segcap w.K) hi) hi fuel lo).map
        (segOf c.soc.nmax M lo)), ∀ r j, r < em.p.mc → j < em.p.Nc →
      em.p.value 32 (stagedA c v w M A i) ((w.Bf.getD fun _ _ => 0) em.wb) r j =
        sliceAt c w A B em.ks (em.m0 + r) (em.n0 + j) := by
  intro em hem r j hr hj
  obtain ⟨s, hs, ti, hti, rfl⟩ := mem_segEmits.mp hem
  obtain ⟨p, hp, rfl⟩ := List.mem_map.mp hs
  have hnmax := h.nmax
  obtain ⟨hplo, hphi, -, hend, heq, hp32⟩ := mem_walk (h.steps v hhi hle) hlo hp
  have hslice := (cutEnd_spec hnmax.1 hnmax.2 h.N32 (v.dvd_segcap w.K) hhi hle hp32 hphi).2.2.2
  rw [← heq, Nat.succ_mul] at hslice
  have hrows := piece_le (orkiMtileCap_pos w.K) hti
  rw [segEmit_segOf] at hr hj ⊢
  dsimp only at hr hj ⊢
  generalize hns : p.1 / c.soc.nmax = ns at hslice ⊢
  have hn0 : ns * c.soc.nmax ≤ p.1 := by
    rw [← hns]
    exact Nat.div_mul_le_self p.1 c.soc.nmax
  have hBf : ∃ f, w.Bf = some f := by
    have := of_decide_eq_false hwide
    cases hf : w.Bf with
    | none => simp [hf] at this
    | some f => exact ⟨f, rfl⟩
  obtain ⟨f, hf⟩ := hBf
  have hmem : ns < (weightGeom c e .i8 w.K w.N).Sn := by
    rw [← hns]
    exact div_lt_pieces hnmax.1 (lt_of_lt_of_le hphi hle)
  have hW := h.holds.Bf f hf ns hmem
  have hdt : ntSz w.dt = 32 := by rw [h.dt]; rfl
  rw [hdt] at hW
  have hNc : p.1 - ns * c.soc.nmax + j < pieceLen w.N c.soc.nmax ns := by
    unfold pieceLen
    split <;> omega
  rw [Program.value, sliceAt, if_neg (by rw [hwide]; exact Bool.false_ne_true), matmul, hf, Option.getD_some]
  dsimp only
  refine dot_congr (fun k hk => ?_) fun k hk => ?_
  · have hrow : ti * orkiMtileCap w.K * w.K + r * w.K + k = (ti * orkiMtileCap w.K + r) * w.K + k := by rw [Nat.add_mul]
    rw [hrow, stagedA, if_neg (by rw [hwide]; exact Bool.false_ne_true)]
    exact copyOut_cell _ _ (by omega) hk
  · have h32 : 32 ∣ p.1 - ns * c.soc.nmax := Nat.dvd_sub hp32 (Nat.dvd_mul_left_of_dvd hnmax.2 ns)
    have := tiled_from hW h.holds.K32 h32 (k := k) hk hNc
    refine this.trans (congrArg B ?_)
    show (0 + k) * w.N + (ns * c.soc.nmax + (p.1 - ns * c.soc.nmax + j)) = k * w.N + (p.1 + j)
    rw [Nat.zero_add, ← Nat.add_assoc (ns * _), Nat.add_sub_cancel' hn0]

/-- Every program of a core computes the slice of the block it is for. -/
theorem coreWork_value (h : Dispatched c e B w) (hi : i < nc) (A : Nat → R) :
    ∀ em ∈ (coreWork c v w M cstride nc i).emits, ∀ r j, r < em.p.mc → j < em.p.Nc →
      em.p.value 32 (stagedA c v w M A i) (if wideK w then w.Bb em.wb else (w.Bf.getD fun _ _ => 0) em.wb) r j =
        sliceAt c w A B em.ks (em.m0 + r) (em.n0 + j) := by
  have hle := coreCol_le (Nat.zero_lt_of_lt hi) h.N32 hi
  have hlo := dvd_coreCol (w.N / 32) nc i
  have hhi := dvd_coreCol (w.N / 32) nc (i + 1)
  by_cases hidle : coreCol (w.N / 32) nc (i + 1) - coreCol (w.N / 32) nc i = 0
  · rw [coreWork_idle hidle]
    exact fun em hem => absurd hem List.not_mem_nil
  · cases hwide : wideK w with
    | true =>
        rw [coreWork_wide hidle hwide]
        simp only [if_true]
        exact wide_value h hwide hlo hle A
    | false =>
        obtain ⟨sg, hsg, hwork⟩ := coreWork_base (c := c) v M _ hidle hwide
        rw [segTable_walk h v M hlo hhi (by omega) hle] at hsg
        rw [hwork]
        dsimp only
        simp only [Bool.false_eq_true, if_false]
        rw [hsg]
        exact base_value h hwide hlo hhi hle A

/-! ### The whole dispatch -/

variable {ncreq : Int} {H : Colsplit}

omit [NonUnitalNonAssocSemiring R] in
theorem orkDynBeginColsplit_eq_some (hb : orkDynBeginColsplit c v ncreq w M cstride = some H) :
    0 < H.nc ∧ H = ⟨H.nc, ⟨c.soc.nmax, w.N, v.segcap w.K, false⟩, coreWork c v w M cstride H.nc⟩ := by
  unfold orkDynBeginColsplit at hb
  dsimp only at hb
  split at hb
  · obtain rfl := Option.some.inj hb
    exact ⟨v.cores_pos c _ _, rfl⟩
  · cases hb

/-- What a core leaves in the cell of an element of its columns. -/
theorem coreScratch_cell (h : Dispatched c e B w) (hM : 0 < M) (hcs : cstride = 0 ∨ w.N ≤ cstride)
    (hcore : H.core = coreWork c v w M cstride H.nc) (hi : i < H.nc) (A : Nat → R) {em : Emit}
    (hem : em ∈ (H.core i).emits) {ks m n : Nat} (hcov : em.Covers ks m n) :
    coreScratch c v w M A H i (em.cell m n) = sliceAt c w A B ks m n := by
  rw [hcore] at hem
  have hlaid := (coreWork_spec (v := v) h hM hcs hi).1
  have := @Laid.scratch R _ 32 (stagedA c v w M A i) (fun wb => if wideK w then w.Bb wb else (w.Bf.getD fun _ _ => 0) wb)
    _ _ _ _ _ hlaid (sliceAt c w A B) (coreWork_value h hi A) (v.mcc i) em hem ks m n hcov
  unfold coreScratch
  rw [hcore]
  exact this

omit [NonUnitalNonAssocSemiring R] in
theorem coreWork_oSk (h : 1 < (coreWork c v w M cstride nc i).op.oSk) :
    coreCol (w.N / 32) nc (i + 1) - coreCol (w.N / 32) nc i ≠ 0 ∧ wideK w = true := by
  by_cases hidle : coreCol (w.N / 32) nc (i + 1) - coreCol (w.N / 32) nc i = 0
  · rw [coreWork_idle hidle] at h
    exact absurd h (by decide)
  · refine ⟨hidle, ?_⟩
    cases hwide : wideK w with
    | true => rfl
    | false =>
        obtain ⟨sg, -, hwork⟩ := coreWork_base (c := c) v M _ hidle hwide
        rw [hwork] at h
        exact absurd h (Nat.not_lt_zero 1)

/-- The worker of a core leaves the sum of its slices in its columns, and nothing else anywhere. -/
theorem worker_cell (h : Dispatched c e B w) (hM : 0 < M) (hcs : cstride = 0 ∨ w.N ≤ cstride)
    (hcore : H.core = coreWork c v w M cstride H.nc) (hi : i < H.nc) (hSk : 1 < (H.core i).op.oSk) (A C : Nat → R)
    {m n : Nat} (hm : m < M) (hn : n < w.N) :
    workerAccumulate (H.core i).op (coreScratch c v w M A H i) C (m * rowStride w cstride + n) =
      if coreCol (w.N / 32) H.nc i ≤ n ∧ n < coreCol (w.N / 32) H.nc (i + 1) then matmul A B w.K w.N m n
      else C (m * rowStride w cstride + n) := by
  have hscratch := @coreScratch_cell _ _ _ _ _ _ _ _ _ _ _ h hM hcs hcore hi A
  have hlaid := (coreWork_spec (v := v) h hM hcs hi).1
  have hle := coreCol_le (Nat.zero_lt_of_lt hi) h.N32 hi
  rw [hcore] at hSk
  obtain ⟨hidle, hwide⟩ := coreWork_oSk hSk
  rw [hcore] at hscratch ⊢
  rw [coreWork_wide hidle hwide] at hscratch hlaid ⊢
  have hrow : rowStride w cstride = if cstride = 0 then w.N else cstride := by
    rw [rowStride, hwide]
    by_cases h0 : cstride = 0 <;> simp [h0]
  have hstride : w.N ≤ rowStride w cstride := by
    rw [hrow]
    split <;> omega
  rw [workerAccumulate_cell rfl hM rfl h.Sk_pos rfl rfl (show 0 < rowStride w cstride by omega) hrow.symm (by omega) _ C
    (show n < rowStride w cstride by omega)]
  refine if_congr_right ⟨fun hin => ⟨hin.2.1, by omega⟩, fun hin => ⟨hm, hin.1, by omega⟩⟩ fun hin => ?_
  rw [← sum_sliceAt h A m n, slices, if_pos hwide]
  refine Finset.sum_congr rfl fun ks hks => ?_
  have hks : ks < slices w := by
    rw [slices, if_pos hwide]
    exact Finset.mem_range.mp hks
  obtain ⟨em, hem, hcov, -⟩ := hlaid.once ks m n hks hm hin.1 hin.2
  rw [← hscratch hem hcov, wideEmits_cell hem hcov]

/-- After `ork_dyn_end`, C is the product. -/
theorem colsplitEnd_cell (h : Dispatched c e B w) (hM : 0 < M) (hcs : cstride = 0 ∨ w.N ≤ cstride)
    (hb : orkDynBeginColsplit c v ncreq w M cstride = some H) (A C : Nat → R) {m n : Nat} (hm : m < M) (hn : n < w.N) :
    colsplitEnd v H (coreScratch c v w M A H) C (m * rowStride w cstride + n) = matmul A B w.K w.N m n := by
  obtain ⟨hnc, hH⟩ := orkDynBeginColsplit_eq_some hb
  have hcore : H.core = coreWork c v w M cstride H.nc := by rw [hH]
  have hgeom : H.geom = ⟨c.soc.nmax, w.N, v.segcap w.K, false⟩ := by rw [hH]
  have hstride : w.N ≤ rowStride w cstride := by
    unfold rowStride
    split <;> omega
  obtain ⟨a, ha, hmem⟩ := exists_between (f := coreCol (w.N / 32) H.nc) (x := n)
    (by rw [coreCol_zero]; exact Nat.zero_le n) (by rw [coreCol_last hnc h.N32]; exact hn)
  have hback : ∀ i < H.nc, ∀ C : Nat → R, stores C (moved (coreScratch c v w M A H i)
      (orkDynWriteback H.geom (H.core i).op)) (m * rowStride w cstride + n) =
      if coreCol (w.N / 32) H.nc i ≤ n ∧ n < coreCol (w.N / 32) H.nc (i + 1) then matmul A B w.K w.N m n
      else C (m * rowStride w cstride + n) := by
    intro i hi C
    have hfetch := (coreWork_spec (v := v) h hM hcs hi).2
    rw [hgeom]
    split
    · next hin =>
        rw [← sum_sliceAt h A m n]
        have hsrc : ∀ em ∈ (coreWork c v w M cstride H.nc i).emits, ∀ ks m n, em.Covers ks m n →
            coreScratch c v w M A H i (em.cell m n) = sliceAt c w A B ks m n := by
          intro em hem ks m n hcov
          refine coreScratch_cell h hM hcs hcore hi A ?_ hcov
          rw [hcore]
          exact hem
        have := hfetch.stores hsrc C hm hin.1 hin.2
        rwa [← hcore] at this
    · next hout =>
        have hle := coreCol_le hnc h.N32 hi
        have := hfetch.frame (by omega) (coreScratch c v w M A H i) C (show n < rowStride w cstride by omega)
          (show n < coreCol (w.N / 32) H.nc i ∨ coreCol (w.N / 32) H.nc (i + 1) ≤ n by omega) (m := m)
        rwa [← hcore] at this
  unfold colsplitEnd
  dsimp only
  have hworker : ∀ i < H.nc, (decide (1 < H.nc ∧ v.serial = false) && decide (1 < (H.core i).op.oSk)) = true →
      1 < (H.core i).op.oSk := fun i _ ht => of_decide_eq_true (Bool.and_eq_true_iff.mp ht).2
  by_cases hw : (decide (1 < H.nc ∧ v.serial = false) && decide (1 < (H.core a).op.oSk)) = true
  · -- the worker of the core that owns column `n` has summed it
    rw [foldl_frame (fun C : Nat → R => C (m * rowStride w cstride + n))]
    · refine foldl_of_mem (fun C : Nat → R => C (m * rowStride w cstride + n)) (T := fun i => i = a)
        ⟨a, List.mem_range.mpr ha, rfl⟩ (fun i hi hT C => ?_) (fun i hi hT C => ?_) C
      · subst hT
        rw [if_pos hw, worker_cell h hM hcs hcore ha (hworker _ ha hw) A C hm hn, if_pos hmem]
      · have hi := List.mem_range.mp hi
        split
        · next hwi =>
            rw [worker_cell h hM hcs hcore hi (hworker i hi hwi) A C hm hn, if_neg]
            exact fun hin => hT (between_unique (coreCol_mono _ _) hin hmem)
        · rfl
    · intro i hi C
      have hi := List.mem_range.mp hi
      split
      · rfl
      · next hwi =>
          rw [hback i hi, if_neg]
          intro hin
          obtain rfl := between_unique (coreCol_mono _ _) hin hmem
          exact hwi hw
  · refine foldl_of_mem (fun C : Nat → R => C (m * rowStride w cstride + n)) (T := fun i => i = a)
      ⟨a, List.mem_range.mpr ha, rfl⟩ (fun i hi hT C => ?_) (fun i hi hT C => ?_) _
    · subst hT
      rw [if_neg hw, hback _ ha, if_pos hmem]
    · have hi := List.mem_range.mp hi
      split
      · rfl
      · rw [hback i hi, if_neg]
        exact fun hin => hT (between_unique (coreCol_mono _ _) hin hmem)

/-- The copy-back is the inverse of the emission: an element of C is summed up by one core, from one cell for each
K-slice, the one its only program puts that slice in. So C is the product. -/
theorem orkDynEnd_inverts_colsplit (h : Dispatched c e B w) (hM : 0 < M) (hcs : cstride = 0 ∨ w.N ≤ cstride)
    (hb : orkDynBeginColsplit c v ncreq w M cstride = some H) (A C : Nat → R) {m n : Nat} (hm : m < M) (hn : n < w.N) :
    (∃ i < H.nc, ∃ srcs : List Nat,
      (∀ j < H.nc, ∀ s, (m * rowStride w cstride + n, s) ∈ orkDynWriteback H.geom (H.core j).op ↔ j = i ∧ s = srcs) ∧
      srcs.length = slices w ∧
      ∀ ks < slices w, ∃ em ∈ (H.core i).emits, em.Covers ks m n ∧ srcs[ks]? = some (em.cell m n) ∧
        ∀ j < H.nc, ∀ em' ∈ (H.core j).emits, em'.Covers ks m n → j = i ∧ em' = em) ∧
    colsplitEnd v H (coreScratch c v w M A H) C (m * rowStride w cstride + n) = matmul A B w.K w.N m n := by
  refine ⟨?_, colsplitEnd_cell h hM hcs hb A C hm hn⟩
  obtain ⟨hnc, hH⟩ := orkDynBeginColsplit_eq_some hb
  have hcore : H.core = coreWork c v w M cstride H.nc := by rw [hH]
  have hgeom : H.geom = ⟨c.soc.nmax, w.N, v.segcap w.K, false⟩ := by rw [hH]
  have hstride : w.N ≤ rowStride w cstride := by
    unfold rowStride
    split <;> omega
  obtain ⟨a, ha, hmem⟩ := exists_between (f := coreCol (w.N / 32) H.nc) (x := n)
    (by rw [coreCol_zero]; exact Nat.zero_le n) (by rw [coreCol_last hnc h.N32]; exact hn)
  have hspec : ∀ i < H.nc, _ := fun i (hi : i < H.nc) => coreWork_spec (v := v) (i := i) h hM hcs hi
  rw [← hcore, ← hgeom] at hspec
  obtain ⟨srcs, hiff, hlen, hcell⟩ := (hspec a ha).2.cell m n hm hmem.1 hmem.2
  refine ⟨a, ha, srcs, fun j hj s => ?_, hlen, fun ks hks => ?_⟩
  · constructor
    · intro hs
      obtain ⟨m', n', -, hge, hlt, haddr⟩ := (hspec j hj).2.inside _ hs
      have hle := coreCol_le hnc h.N32 hj
      obtain ⟨-, rfl⟩ := digits_inj (by omega) (by omega) haddr
      obtain rfl := between_unique (coreCol_mono _ _) ⟨hge, hlt⟩ hmem
      exact ⟨rfl, (hiff s).mp hs⟩
    · rintro ⟨rfl, rfl⟩
      exact (hiff s).mpr rfl
  · obtain ⟨em, hem, hcov, hget⟩ := hcell ks hks
    refine ⟨em, hem, hcov, hget, fun j hj em' hem' hcov' => ?_⟩
    obtain ⟨-, -, hge, hle⟩ := (hspec j hj).1.inside em' hem'
    have hcols := hcov'.2.2
    obtain rfl := between_unique (coreCol_mono (w.N / 32) H.nc)
      (show coreCol (w.N / 32) H.nc j ≤ n ∧ n < coreCol (w.N / 32) H.nc (j + 1) by omega) hmem
    obtain ⟨em₀, -, -, huniq⟩ := (hspec j hj).1.once ks m n hks hm hmem.1 hmem.2
    exact ⟨rfl, (huniq em' hem' hcov').trans (huniq em hem hcov).symm⟩

end

/-- A 512 x 64 weight of ones, and its column split over two cores. -/
theorem exists_twoCores : ∃ (w : OrkW (BitVec 32)) (H : Colsplit),
    orkiPack ⟨3, socRk3588, 0⟩ ⟨0, 0⟩ (granted 0) .i8 512 64 (fun _ => 1) = some w ∧
    (w.K = 512 ∧ w.N = 64 ∧ w.Bf.isSome = true) ∧ Dispatched ⟨3, socRk3588, 0⟩ ⟨0, 0⟩ (fun _ => 1) w ∧
    orkDynBeginColsplit ⟨3, socRk3588, 0⟩ (.quiet 4 0) 2 w 1 0 = some H ∧ H.nc = 2 := by
  obtain ⟨w, hw, hBf⟩ := exists_orkiPack ⟨3, socRk3588, 0⟩ ⟨0, 0⟩ (0 : BitVec 32) .i8 (K := 512) (N := 64) (by decide)
    (by decide) (fun _ => 1)
  obtain ⟨⟨hdt, hK, hN⟩, hB, -⟩ := orkiPack_own (by decide) hw
  have hsome : w.Bf.isSome = true := hBf.trans (by decide)
  have hwide : wideK w = false := by
    refine decide_eq_false ?_
    rintro (h | h)
    · omega
    · rw [Option.isNone_iff_eq_none] at h
      rw [h] at hsome
      cases hsome
  have hd : Dispatched ⟨3, socRk3588, 0⟩ ⟨0, 0⟩ (fun _ => 1) w :=
    ⟨by decide, by rw [← hdt]; exact hB, hdt, by omega, fun h => by rw [hwide] at h; cases h⟩
  refine ⟨w, _, hw, ⟨hK, hN, hsome⟩, hd, if_pos ⟨rfl, fun i hi => ?_⟩, by rw [hN]; rfl⟩
  rw [hN] at hi
  refine ⟨?_, fun _ _ => rfl⟩
  have hi : i < 2 := hi
  rw [hN]
  simp only [coreWork, hwide, hK, hN, Bool.false_eq_true, if_false]
  rcases (show i = 0 ∨ i = 1 by omega) with rfl | rfl <;> decide

/-- Two cores, a 512 x 64 weight of ones: the first column of the second core. -/
theorem colsplit_two_cores : ∃ w : OrkW (BitVec 32),
    orkiPack ⟨3, socRk3588, 0⟩ ⟨0, 0⟩ (granted 0) .i8 512 64 (fun _ => 1) = some w ∧
    ∃ H, orkDynBeginColsplit ⟨3, socRk3588, 0⟩ (.quiet 4 0) 2 w 1 0 = some H ∧
      colsplitEnd (.quiet 4 0) H (coreScratch ⟨3, socRk3588, 0⟩ (.quiet 4 0) w 1 (fun _ => 1) H) (fun _ => 0)
        (0 * rowStride w 0 + 32) = matmul (fun _ => 1) (fun _ => 1) w.K w.N 0 32 := by
  obtain ⟨w, H, hw, ⟨hK, hN, -⟩, hd, hH, -⟩ := exists_twoCores
  exact ⟨w, hw, H, hH, (orkDynEnd_inverts_colsplit hd (by decide) (.inl rfl) hH _ _ (by decide) (by omega)).2⟩

end OrkDriver.Core
