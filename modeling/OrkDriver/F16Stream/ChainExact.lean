import OrkDriver.F16Stream.ChainCorrect

/-!
When `ork_f16_mm_run_stream_chain` is right for a batch, whatever its activations: the condition on the sizes of its tasks,
the buffers, and the copies of its weights.
-/

namespace OrkDriver.F16Stream

open OrkDriver.Lib OrkDriver.Npu OrkDriver.Pack OrkDriver.Run OrkDriver.Core

variable {R : Type*} {c : OrkNpu} {e : F16Knobs} {hard S : Nat} {tasks tasks' : Nat → MmTaskF16 R} {k : Checked} {i : Nat}

/-! ### Shapes -/

/-- The check depends on the sizes of the tasks, besides what it asks of each. -/
theorem check_congr (hshape : ∀ i, (tasks' i).shape = (tasks i).shape) (hacc : ∀ i < S, Accepts (tasks' i))
    (h : f16StreamCheck e hard S tasks = some k) : f16StreamCheck e hard S tasks' = some k := by
  have hM : ∀ i, (tasks' i).M = (tasks i).M := fun i => congrArg Shape.M (hshape i)
  have hK : ∀ i, (tasks' i).w.K = (tasks i).w.K := fun i => congrArg Shape.K (hshape i)
  have hN : ∀ i, (tasks' i).w.N = (tasks i).w.N := fun i => congrArg Shape.N (hshape i)
  have hcap : ∀ i, taskCap e hard (tasks' i) = taskCap e hard (tasks i) := fun i => by
    unfold taskCap
    rw [hK, hN]
  have hmin : minCap e hard S tasks' = minCap e hard S tasks := by simp only [minCap, hcap]
  have hmax : maxRows S tasks' = maxRows S tasks := by simp only [maxRows, hM]
  have hheight : ∀ i h, HeightOk (tasks' i) h ↔ HeightOk (tasks i) h := fun i h => by
    unfold HeightOk
    rw [hM, hK, hN]
  have hok := (check_fit h).accepts
  unfold f16StreamCheck at h ⊢
  rw [if_neg (by simpa using hok)] at h
  rw [if_neg (by simpa using hacc), hmin, hmax]
  simp only [hheight, hM]
  exact h

/-- The batches that are run, by the sizes of their tasks. -/
def shapeLeaves (k : Checked) (t : Nat → Shape) : List (List Nat × (Nat → Shape)) :=
  if k.cap < k.maxM then
    if k.uniform = true then
      (List.range (pieces k.maxM k.cap)).map fun j => ([j], fun i => { t i with M := pieceLen k.maxM k.cap j })
    else []
  else [([], t)]

theorem leaves_shape (k : Checked) (tasks : Nat → MmTaskF16 R) :
    (leaves k tasks).map (fun l => (l.1, fun i => (l.2 i).shape)) = shapeLeaves k fun i => (tasks i).shape := by
  unfold leaves shapeLeaves
  split_ifs
  · rw [List.map_map]
    rfl
  · rfl
  · rfl

theorem built_shape (b : BfullEnv R) (i : Nat) : (built c e b S tasks i).shape = (tasks i).shape := by
  unfold built
  split
  · unfold orkiF16Bfull
    split <;> rfl
  · rfl

/-! ### Cubes -/

/-- The full-K cube of a weight, where there is one, is that of the matrix. -/
def CubeOk (w : F16W R) (B : Nat → R) : Prop :=
  ∀ b, w.Bfull = some b → ∀ k < w.K, ∀ n < w.N, b (wIndex 16 w.K k n) = B (k * w.N + n)

/-- A weight multiplies with its matrix over all `K` and `N`. -/
def Holding (w : F16W R) (B : Nat → R) : Prop := ∀ k < w.K, ∀ n < w.N, held w (k * w.N + n) = B (k * w.N + n)

theorem held_at (w : F16W R) {k n : Nat} (hn : n < w.N) : held w (k * w.N + n) = orkiF16Wdma w (wIndex 16 w.K k n) := by
  obtain ⟨hdiv, hmod⟩ := digits_div_mod hn k
  unfold held
  rw [hdiv, hmod]

theorem holding_of_cube {w : F16W R} {B b : Nat → R} (hb : w.Bfull = some b) : Holding w B ↔ CubeOk w B := by
  have hw : orkiF16Wdma w = b := by
    unfold orkiF16Wdma
    rw [hb]
    rfl
  constructor
  · intro h b' hb' k hk n hn
    obtain rfl := Option.some.inj (hb.symm.trans hb')
    rw [← h k hk n hn, held_at w hn, hw]
  · intro h k hk n hn
    rw [held_at w hn, hw]
    exact h b hb k hk n hn

/-- Packed in one K-slice, the first tile is the whole matrix. -/
theorem holding_of_tile {w : F16W R} {B : Nat → R} (hc : c.soc ∈ socTable) (h : Run.Sound c e ⟨w, B⟩) (hnone : w.Bfull = none)
    (hSn : w.Sn = 1) (hSk : w.Sk = 1) : Holding w B := by
  have hg := Run.Sound.blocks hc (⟨w, B⟩ : F16State R) (e := e)
  have hKS : pieceLen w.K e.ks 0 = w.K := by
    apply pieceLen_of_le
    apply le_of_pieces_eq_one hg.KS_pos
    exact h.holds.Sk.symm.trans hSk
  have hNc : pieceLen w.N c.soc.nmax 0 = w.N := pieceLen_of_le (h.le_of_Sn hc hSn)
  have hpos : 0 < (F16W.geom c e w).Sn ∧ 0 < (F16W.geom c e w).Sk := by
    have h1 : w.Sn = (F16W.geom c e w).Sn := h.holds.Sn
    have h2 : w.Sk = (F16W.geom c e w).Sk := h.holds.Sk
    omega
  have hw : orkiF16Wdma w = w.Bb 0 := by
    unfold orkiF16Wdma
    rw [hnone]
    rfl
  intro k hk n hn
  rw [held_at w hn, hw]
  have htile := h.Bb hpos.1 hpos.2 k n (lt_of_lt_of_eq hk hKS.symm) (lt_of_lt_of_eq hn hNc.symm)
  simp only [Geom.tile, Nat.zero_mul, Nat.zero_add] at htile
  change w.Bb 0 (wIndex 16 (pieceLen w.K e.ks 0) k n) = B (k * w.N + n) at htile
  rwa [hKS] at htile

/-- The cube that the check builds is that of the matrix. -/
theorem holding_of_build {w : F16W R} {B : Nat → R} (hc : c.soc ∈ socTable) (h : Run.Sound c e ⟨w, B⟩)
    (hnone : w.Bfull = none) (hSn : w.Sn = 1) (fresh : Nat → R) : Holding (orkiF16Bfull c e true fresh w) B := by
  have hco : ∀ ks, ks < (F16W.geom c e w).Sk → Tiled 16 B w.N ((F16W.geom c e w).tile 0 ks) (w.Bb ks) := fun ks hks => by
    have hpos : 0 < (F16W.geom c e w).Sn := by
      have h1 : w.Sn = (F16W.geom c e w).Sn := h.holds.Sn
      omega
    have htile := h.Bb hpos hks
    rwa [Nat.zero_mul, Nat.zero_add] at htile
  have hcube := bfullStores_tiled ⟨Run.Sound.blocks hc (⟨w, B⟩ : F16State R), h.holds.K32, h.N16, h.le_of_Sn hc hSn⟩ hco fresh
  have hNc : pieceLen w.N c.soc.nmax 0 = w.N := pieceLen_of_le (h.le_of_Sn hc hSn)
  have hbuild : orkiF16Bfull c e true fresh w =
      { w with Bfull := some (stores fresh (bfullStores (weightGeom c e .f16 w.K w.N) w.Bb)) } :=
    if_pos ⟨by rw [hnone]; rfl, hSn, rfl⟩
  rw [hbuild]
  refine (holding_of_cube rfl).mpr fun b hb k hk n hn => ?_
  obtain rfl := Option.some.inj hb
  have hcell := hcube k n hk (lt_of_lt_of_eq hn hNc.symm)
  simp only [fullTile, Nat.zero_mul, Nat.zero_add] at hcell
  exact hcell

/-- An accepted weight multiplies with its matrix exactly if a cube it came with is that of the matrix. -/
theorem holding_built_iff {B : Nat → Nat → R} (hc : c.soc ∈ socTable) (h : Run.Sound c e ⟨(tasks i).w, B i⟩)
    {b : BfullEnv R} (hacc : Accepts (built c e b S tasks i)) :
    Holding (built c e b S tasks i).w (B i) ↔ CubeOk (tasks i).w (B i) := by
  obtain ⟨⟨-, -, hSn⟩, hcube, -⟩ := hacc
  cases hw : (tasks i).w.Bfull with
  | some m =>
      have hsame : (built c e b S tasks i).w = (tasks i).w := by
        unfold built
        split
        · show orkiF16Bfull c e _ _ (tasks i).w = _
          unfold orkiF16Bfull
          rw [if_neg (by rw [hw]; exact fun hand => Bool.false_ne_true hand.1)]
        · rfl
      rw [hsame]
      exact holding_of_cube hw
  | none =>
      refine iff_of_true ?_ fun m hm => ?_
      · unfold built at hSn hcube ⊢
        split at hcube
        · next hsk =>
            rw [if_pos hsk] at hSn ⊢
            dsimp only at hSn hcube ⊢
            have hSn' : (tasks i).w.Sn = 1 := by
              unfold orkiF16Bfull at hSn
              split at hSn <;> exact hSn
            cases hgr : b.granted i with
            | true => exact holding_of_build hc h hw hSn' _
            | false =>
                have hnot : orkiF16Bfull c e false (b.fresh i) (tasks i).w = (tasks i).w :=
                  if_neg fun hand => Bool.false_ne_true hand.2.2
                rw [hgr, hnot, hw] at hcube
                exact absurd (hcube.resolve_left hsk.2) Bool.false_ne_true
        · next hsk =>
            rw [if_neg hsk] at hSn ⊢
            have hSk : (tasks i).w.Sk = 1 := by
              rcases hcube with hSk | hsome
              · exact hSk
              · rw [hw] at hsome
                exact absurd hsome Bool.false_ne_true
            exact holding_of_tile hc h hw hSn hSk
      · rw [hw] at hm
        cases hm

/-! ### The stream -/

/-- The tasks with activations of their own. -/
def withActs (tasks : Nat → MmTaskF16 R) (A : Nat → Nat → R) (i : Nat) : MmTaskF16 R := { tasks i with A := A i }

theorem built_withActs (b : BfullEnv R) (A : Nat → Nat → R) :
    built c e b S (withActs tasks A) = withActs (built c e b S tasks) A := by
  funext i
  unfold built withActs
  dsimp only
  split <;> rfl

theorem Fit.S_pos (hk : Fit e hard S tasks k) : 0 < S := by
  refine Nat.pos_of_ne_zero fun h0 => ?_
  have hcap := hk.cap_pos
  have hle := hk.cap_le.1
  rw [hk.maxM, h0] at hle
  exact Nat.not_lt.mpr hle hcap

/-- A batch that is accepted with everything granted is accepted the same way, or not at all. -/
theorem check_or {b d : BfullEnv R} {A : Nat → Nat → R}
    (hk : f16StreamCheck e hard S (built c e b S tasks) = some k) :
    f16StreamCheck e hard S (built c e d S (withActs tasks A)) = none ∨
      f16StreamCheck e hard S (built c e d S (withActs tasks A)) = some k := by
  cases h : f16StreamCheck e hard S (built c e d S (withActs tasks A)) with
  | none => exact .inl rfl
  | some k' =>
      have hshape : ∀ i, (built c e d S (withActs tasks A) i).shape = (built c e b S tasks i).shape := fun i =>
        (built_shape d i).trans ((show (withActs tasks A i).shape = (tasks i).shape from rfl).trans (built_shape b i).symm)
      exact .inr (h.symm.trans (check_congr hshape (check_fit h).accepts hk))

section

variable [NonAssocSemiring R] {B : Nat → Nat → R} {L : List Nat → ChainLayout}

/-- What is asked of `ork_f16_mm_run_stream_chain` for a batch, whatever the activations, what a call finds and what the
arrays hold: it ends; with 0, the C of every task is the product with its matrix; and every batch it issues is good. -/
def ChainExact (c : OrkNpu) (e : F16Knobs) (S : Nat) (tasks : Nat → MmTaskF16 R) (B : Nat → Nat → R)
    (L : List Nat → ChainLayout) : Prop :=
  ∀ (A : Nat → Nat → R) (env : List Nat → ChainCall R), (∀ p, (env p).layout = L p) → ∀ C fuel, ∃ r,
    orkF16MmRunStreamChain.run c e S (fuel + 2) env (withActs tasks A) C = some r ∧
      (r.ret = 0 → Multiplied S (withActs tasks A) B r.C) ∧ ∀ b ∈ r.issued, b.Good e

/-- Nothing is refused and no core is warm; everything holds 0. -/
def granting (L : ChainLayout) : ChainCall R :=
  { layout := L
    bfull := ⟨fun _ => true, fun _ _ => 0⟩
    ensured := true
    mrc := fun _ => true
    mtk := fun _ => true
    maf := fun _ => true
    mcc := fun _ => true
    mafCells := fun _ _ => 0
    mccCells := fun _ _ => 0
    warm := fun _ => false
    submit := fun _ _ => true
    stray := fun _ _ => 0 }

omit [NonAssocSemiring R] in
theorem issued_streamChain [NonUnitalNonAssocSemiring R] {x : ChainCall R} {C : Nat → Nat → R} {b : ChainBatch}
    (hb : b ∈ (streamChain x S tasks C).issued) : b = chainBatch x.layout S fun k => (tasks k).shape := by
  unfold streamChain at hb
  dsimp only at hb
  split at hb
  · exact absurd hb List.not_mem_nil
  · exact List.mem_singleton.mp hb

theorem streamChain_granting (L : ChainLayout) (S : Nat) (tasks : Nat → MmTaskF16 R) (C : Nat → Nat → R) :
    (streamChain (granting L) S tasks C).ret = 0 ∧
      chainBatch L S (fun k => (tasks k).shape) ∈ (streamChain (granting L) S tasks C).issued := by
  have hsized : ∀ nc i, (granting L : ChainCall R).sized nc S (fun k => (tasks k).shape) i = true := fun nc i => by
    simp only [ChainCall.sized, granting, Bool.or_true, Bool.and_self]
  unfold streamChain
  dsimp only
  rw [if_neg]
  · refine ⟨if_neg ?_, List.mem_singleton_self _⟩
    rintro ⟨i, -, hf⟩
    exact absurd hf Bool.false_ne_true
  · rintro (hno | ⟨i, -, hno⟩)
    · cases hno
    · rw [hsized] at hno
      cases hno

/-- A product with a matrix is a product with another that agrees with it over all `K` and `N`. -/
theorem Multiplied.of_holding {C : Nat → Nat → R} (h : Multiplied S tasks (fun i => held (tasks i).w) C)
    (hB : ∀ i < S, Holding (tasks i).w (B i)) : Multiplied S tasks B C := fun i hi m hm n hn =>
  (h i hi m hm n hn).trans (dot_congr (fun _ _ => rfl) fun k hk => hB i hi k hk n hn)

/-- One activation picks out one element of the matrix. -/
theorem matmul_unit (B : Nat → R) {K N k n : Nat} (hk : k < K) :
    matmul (fun y => if y = k then 1 else 0) B K N 0 n = B (k * N + n) := by
  simp only [matmul, dot, Nat.zero_mul, Nat.zero_add]
  rw [Finset.sum_eq_single k]
  · rw [if_pos rfl, one_mul]
  · intro j _ hne
    rw [if_neg hne, zero_mul]
  · intro hno
    exact absurd (Finset.mem_range.mpr hk) hno

/-- The condition: if the batch is run, everything that is run fits its buffers, and no weight has a cube of another
matrix. -/
def ChainFits (S : Nat) (tasks : Nat → MmTaskF16 R) (B : Nat → Nat → R) (L : List Nat → ChainLayout) (k : Checked) : Prop :=
  k.Runs → (∀ l ∈ shapeLeaves k fun i => (tasks i).shape, Fits (L l.1) S l.2) ∧ ∀ i < S, CubeOk (tasks i).w (B i)

variable {A : Nat → Nat → R} {b : BfullEnv R}

omit [NonAssocSemiring R] in
theorem Multiplied.of_built [NonUnitalNonAssocSemiring R] {C : Nat → Nat → R} :
    Multiplied S (built c e b S (withActs tasks A)) B C ↔ Multiplied S (withActs tasks A) B C := by
  have hM : ∀ i, (built c e b S (withActs tasks A) i).M = (tasks i).M := fun i => congrArg Shape.M (built_shape b i)
  have hK : ∀ i, (built c e b S (withActs tasks A) i).w.K = (tasks i).w.K := fun i => congrArg Shape.K (built_shape b i)
  have hN : ∀ i, (built c e b S (withActs tasks A) i).w.N = (tasks i).w.N := fun i => congrArg Shape.N (built_shape b i)
  have hA : ∀ i, (built c e b S (withActs tasks A) i).A = A i := fun i => by
    rw [built_withActs]
    rfl
  simp only [Multiplied, hM, hK, hN, hA]
  rfl

section

variable (hcheck : f16StreamCheck e 0 S (built c e b S (withActs tasks A)) = some k)
include hcheck

omit [NonAssocSemiring R] in
/-- A batch that is run is good exactly if it fits. -/
theorem leaf_good_iff {l : List Nat × (Nat → MmTaskF16 R)} (hl : l ∈ leaves k (built c e b S (withActs tasks A)))
    (D : ChainLayout) :
    (chainBatch D S fun i => (l.2 i).shape).Good e ↔ Fits D S fun i => (l.2 i).shape := by
  have hk := check_fit hcheck
  obtain ⟨k', hfit, hmax⟩ := leaves_fit hk hk.S_pos hl
  exact chainBatch_good_iff fun i hi => hfit.legal hmax hi

omit [NonAssocSemiring R] hcheck in
theorem mem_shapeLeaves {l : List Nat × (Nat → Shape)} : l ∈ shapeLeaves k (fun i => (tasks i).shape) ↔
    ∃ l' ∈ leaves k (built c e b S (withActs tasks A)), (l'.1, fun i => (l'.2 i).shape) = l := by
  have hshape : (fun i => (built c e b S (withActs tasks A) i).shape) = fun i => (tasks i).shape := by
    funext i
    exact built_shape b i
  rw [← hshape, ← leaves_shape, List.mem_map]

/-- If all that is run fits, a stream with result 0 has multiplied by what its weights hold. -/
theorem outcome_held {env : List Nat → ChainCall R} (henv : (env []).bfull = b) {C : Nat → Nat → R}
    (hfits : ∀ l ∈ leaves k (built c e b S (withActs tasks A)),
      Fits (env l.1).layout S fun i => (l.2 i).shape)
    (hret : (orkF16MmRunStreamChain.outcome c e S env (withActs tasks A) C).ret = 0) :
    Multiplied S (built c e b S (withActs tasks A)) (fun i => held (built c e b S (withActs tasks A) i).w)
      (orkF16MmRunStreamChain.outcome c e S env (withActs tasks A) C).C := by
  subst henv
  refine Runner.outcome_multiplied (x := orkF16MmRunStreamChain) hcheck (check_fit hcheck).S_pos (fun l hl D hD => ?_) hret
  have hmul := streamChain_multiplied ((leaf_good_iff hcheck hl (env l.1).layout).mpr (hfits l hl)) hD
  have hheld : (fun i => held (l.2 i).w) = fun i => held (built c e (env []).bfull S (withActs tasks A) i).w := by
    funext i
    exact congrArg held (leaves_w hl i)
  rwa [hheld] at hmul

end

variable (hc : c.soc ∈ socTable) (hw : ∀ i < S, Run.Sound c e ⟨(tasks i).w, B i⟩)
  (hk : f16StreamCheck e 0 S (built c e ⟨fun _ => true, fun _ _ => 0⟩ S tasks) = some k)
include hc hw hk

theorem chainExact_of_fits (hfit : ChainFits S tasks B L k) : ChainExact c e S tasks B L := by
  intro A env hL C fuel
  refine ⟨_, Runner.run_eq _ env C fuel, ?_⟩
  rcases check_or (A := A) (d := (env []).bfull) hk with hno | hcheck
  · -- a cube that is not granted
    rw [Runner.outcome_refused (x := orkF16MmRunStreamChain) hno]
    exact ⟨fun h => absurd (show (-2 : Int) = 0 from h) (by decide), fun p hp => absurd hp List.not_mem_nil⟩
  · have hk' := check_fit hcheck
    constructor
    · intro hret
      obtain ⟨hfits, hcube⟩ := hfit (Runner.runs_of_ret (x := orkF16MmRunStreamChain) hcheck hk'.S_pos hret)
      have hmul := outcome_held hcheck rfl (fun l hl => hL l.1 ▸ hfits _ (mem_shapeLeaves.mpr ⟨l, hl, rfl⟩)) hret
      refine Multiplied.of_built.mp (hmul.of_holding fun i hi => ?_)
      have hbuilt : Holding (built c e (env []).bfull S (withActs tasks A) i).w (B i) ↔ CubeOk (tasks i).w (B i) :=
        holding_built_iff hc (show Run.Sound c e ⟨(withActs tasks A i).w, B i⟩ from hw i hi) (hk'.accepts i hi)
      exact hbuilt.mpr (hcube i hi)
    · intro p hp
      obtain ⟨l, hl, C', hp⟩ := Runner.outcome_issued (x := orkF16MmRunStreamChain) hcheck hk'.S_pos hp
      rw [issued_streamChain hp]
      have hmem := mem_shapeLeaves.mpr ⟨l, hl, rfl⟩
      exact (leaf_good_iff hcheck hl _).mpr (hL l.1 ▸ (hfit (runs_of_leaf hl)).1 _ hmem)

theorem fits_of_chainExact (hex : ChainExact c e S tasks B L) : ChainFits S tasks B L k := by
  intro hruns
  have hk' := check_fit hk
  have hS := hk'.S_pos
  have hcheck : ∀ A : Nat → Nat → R,
      f16StreamCheck e 0 S (built c e ⟨fun _ => true, fun _ _ => 0⟩ S (withActs tasks A)) = some k := fun A => by
    rw [built_withActs]
    exact check_congr (fun _ => rfl) hk'.accepts hk
  -- a run in which nothing is refused
  have hrun : ∀ A : Nat → Nat → R, ∃ C : Nat → Nat → R,
      (∀ l ∈ leaves k (built c e ⟨fun _ => true, fun _ _ => 0⟩ S (withActs tasks A)),
        Fits (L l.1) S fun i => (l.2 i).shape) ∧
      Multiplied S (withActs tasks A) B C ∧
      Multiplied S (built c e ⟨fun _ => true, fun _ _ => 0⟩ S (withActs tasks A))
        (fun i => held (built c e ⟨fun _ => true, fun _ _ => 0⟩ S (withActs tasks A) i).w) C := by
    intro A
    obtain ⟨r, hr, hmul, hissued⟩ := hex A (fun p => granting (L p)) (fun _ => rfl) (fun _ _ => 0) 0
    rw [Runner.run_eq] at hr
    obtain rfl := Option.some.inj hr
    have hall : (orkF16MmRunStreamChain.outcome c e S (fun p => granting (L p)) (withActs tasks A) fun _ _ => 0).ret = 0 ∧
        ∀ l ∈ leaves k (built c e ⟨fun _ => true, fun _ _ => 0⟩ S (withActs tasks A)), ∃ C',
          ∀ p ∈ (streamChain (granting (L l.1)) S l.2 C').issued,
            p ∈ (orkF16MmRunStreamChain.outcome c e S (fun p => granting (L p)) (withActs tasks A) fun _ _ => 0).issued :=
      Runner.outcome_all (hcheck A) hS hruns fun l _ D => (streamChain_granting (L l.1) S l.2 D).1
    have hfits : ∀ l ∈ leaves k (built c e ⟨fun _ => true, fun _ _ => 0⟩ S (withActs tasks A)),
        Fits (L l.1) S fun i => (l.2 i).shape := fun l hl => by
      obtain ⟨D, hD⟩ := hall.2 l hl
      exact (leaf_good_iff (hcheck A) hl _).mp (hissued _ (hD _ (streamChain_granting (L l.1) S l.2 D).2))
    exact ⟨_, hfits, hmul hall.1, outcome_held (hcheck A) rfl hfits hall.1⟩
  constructor
  · intro l hl
    obtain ⟨C, hfits, -⟩ := hrun fun _ _ => 0
    obtain ⟨l', hl', rfl⟩ := (mem_shapeLeaves (A := fun _ _ => 0)).mp hl
    exact hfits l' hl'
  · intro i hi
    refine (holding_built_iff hc (hw i hi) (hk'.accepts i hi)).mp fun j hj n hn => ?_
    -- the activations pick out row `j`
    obtain ⟨C, -, hB, hheld⟩ := hrun fun _ y => if y = j then 1 else 0
    rw [built_withActs] at hheld
    have hshape : (built c e ⟨fun _ => true, fun _ _ => 0⟩ S tasks i).shape = (tasks i).shape := built_shape _ i
    generalize built c e ⟨fun _ => true, fun _ _ => (0 : R)⟩ S tasks = T at hshape hheld hk' hj hn ⊢
    have hM := (hk'.accepts i hi).1.2.1
    have hheld := hheld i hi 0 hM n hn
    have hB := hB i hi 0 (lt_of_lt_of_eq hM (congrArg Shape.M hshape)) n (lt_of_lt_of_eq hn (congrArg Shape.N hshape))
    change C i (0 * (T i).w.N + n) = matmul (fun y => if y = j then 1 else 0) (held (T i).w) (T i).w.K (T i).w.N 0 n at hheld
    change C i (0 * (tasks i).w.N + n) =
      matmul (fun y => if y = j then 1 else 0) (B i) (tasks i).w.K (tasks i).w.N 0 n at hB
    rw [← show (T i).w.N = (tasks i).w.N from congrArg Shape.N hshape,
      ← show (T i).w.K = (tasks i).w.K from congrArg Shape.K hshape, hheld, matmul_unit _ hj, matmul_unit _ hj] at hB
    exact hB

end

/-- One row of ones on a weight of ones. -/
def onesF16 : MmTaskF16 Int := ⟨⟨⟨.f16, 32, 16, 1, 1, fun _ _ => 1, none⟩, none, none, none⟩, 0, 1, fun _ => 1⟩

theorem onesF16_sound : Run.Sound ⟨3, socRk3588, 0⟩ ⟨0, 0⟩ ⟨onesF16.w, fun _ => 1⟩ where
  holds :=
    { K := rfl
      N := rfl
      Sk := by decide
      Sn := by decide
      K32 := by decide
      Nnb := by decide
      Bb := fun _ _ _ _ _ _ _ _ => rfl
      Bf := fun f hf => by cases hf }
  dt := rfl
  Bf := rfl
  Bbc := fun h => absurd rfl h
  Bfull := fun h => absurd rfl h

theorem onesF16_checked : (f16StreamCheck ⟨0, 0⟩ 0 2 (built ⟨3, socRk3588, 0⟩ ⟨0, 0⟩ ⟨fun _ => true, fun _ _ => 0⟩ 2
    fun _ => onesF16)).isSome = true := by decide

theorem noScratch_le : ∀ b ∈ (none : Option Nat), 0 ≤ b := fun _ _ => Nat.zero_le _

/-- Two cores, no buffers yet. -/
def twoCores : ChainLayout := ⟨2, fun _ => ⟨0, 0, 0, none, 0, noScratch_le⟩⟩

end OrkDriver.F16Stream
