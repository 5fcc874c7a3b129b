import OrkDriver.Core.DynLayout

/-!
The doorbell frontier: over all rounds of `ork_dyn_end`, what it returns and what it leaves in the arrays.
-/

namespace OrkDriver.Core

open OrkDriver.Lib OrkDriver.Npu OrkDriver.Pack OrkDriver.Run OrkDriver.I4

variable {R : Type*} [AddCommMonoid R]

/-- Everything lands at once. -/
def DynRun.Lands {R : Type*} (v : DynRun R) : Prop := ∀ r i x, v.land r i x = some 0

namespace DynChain

variable {h : DynChain} {v : DynRun R} {r t i : Nat} {own : Nat → Nat → Nat → Prop} {C : Nat → Nat → R} {s : Poll R}

/-! ### Batched chains -/

/-- `i4_detiled` counts ops that are de-tiled. -/
def Fused (h : DynChain) (own : Nat → Nat → Nat → Prop) (v : DynRun R) (s : Poll R) : Prop :=
  ∃ F : Finset Nat, F.card = s.detiled ∧ ∀ i ∈ F, i < h.S ∧ s.edone i = true ∧ h.Placed own v s.C i

theorem fused_look (hf : h.Fused own v s) : h.Fused own v (h.look v r s i) := by
  obtain ⟨F, hcard, hF⟩ := hf
  unfold look
  split
  · exact ⟨F, hcard, hF⟩
  · next hi =>
      refine ⟨F, hcard, fun j hj => ?_⟩
      obtain ⟨hjS, hjd, hjp⟩ := hF j hj
      have hji : j ≠ i := fun heq => hi (heq ▸ hjd)
      exact ⟨hjS, (Function.update_of_ne hji _ _).trans hjd, hjp⟩

theorem fused_verify (hs : h.Sound own) (hb : h.i4batch = true) (hi : i < h.S) (hf : h.Fused own v s) :
    h.Fused own v (h.verify v r s i) := by
  obtain ⟨F, hcard, hF⟩ := hf
  have hmoves : ∀ j, h.moves j = (h.entry j).tiles := fun j => by rw [moves, hb, if_pos rfl]
  unfold verify
  dsimp only
  split
  · exact ⟨F, hcard, hF⟩
  · next hedone =>
      have hne : ∀ j ∈ F, j ≠ i := fun j hj heq => hedone (heq ▸ (hF j hj).2.1)
      have hframe : ∀ j ∈ F, ∀ l, (∀ p ∈ l, p ∈ h.moves i) → h.Placed own v (h.moveAt v r s.now s.C i l) j :=
        fun j hj l hl => placed_frame hs (hF j hj).1 hi (hne j hj) hl (hF j hj).2.2
      split
      · next hdone =>
          refine ⟨insert i F, by rw [Finset.card_insert_of_notMem fun hiF => hne i hiF rfl, hcard], fun j hj => ?_⟩
          rcases Finset.mem_insert.mp hj with rfl | hj
          · refine ⟨hi, Function.update_self _ _ _, ?_⟩
            have := placed_moveAt (C := s.C) hs hi hdone
            rwa [hmoves] at this
          · obtain ⟨hjS, hjd, -⟩ := hF j hj
            exact ⟨hjS, (Function.update_of_ne (hne j hj) _ _).trans hjd,
              hframe j hj _ fun p hp => by rwa [hmoves]⟩
      · refine ⟨F, hcard, fun j hj => ?_⟩
        obtain ⟨hjS, hjd, -⟩ := hF j hj
        exact ⟨hjS, hjd, hframe j hj _ fun p hp => by
          rw [hmoves]
          exact List.mem_of_mem_take hp⟩

omit [AddCommMonoid R] in
/-- A loop over the ops keeps what every step keeps. -/
theorem foldl_keeps {P : Poll R → Prop} {f : Poll R → Nat → Poll R} {n : Nat} (hstep : ∀ i < n, ∀ s, P s → P (f s i))
    (hs : P s) : P ((List.range n).foldl f s) := by
  induction n with
  | zero => exact hs
  | succ n ih =>
      rw [List.range_succ, List.foldl_append]
      exact hstep n (Nat.lt_succ_self n) _ (ih fun i hi => hstep i (Nat.lt_succ_of_lt hi))

theorem fused_pass (hs : h.Sound own) (hb : h.i4batch = true) (hf : h.Fused own v s) : h.Fused own v (h.pass v r s) := by
  unfold pass
  split
  · unfold verifyAll
    split
    · exact foldl_keeps (fun i hi s hf => fused_verify hs hb hi hf) hf
    · exact hf
  · exact foldl_keeps (fun i _ s hf => fused_look hf) hf

theorem fused_pollLoop (hs : h.Sound own) (hb : h.i4batch = true) {n : Nat} (hf : h.Fused own v s) :
    h.Fused own v (h.pollLoop v r n s) := by
  induction n generalizing s with
  | zero => exact fused_pass hs hb hf
  | succ n ih =>
      unfold pollLoop
      dsimp only
      split
      · exact fused_pass hs hb hf
      · exact ih (fused_pass hs hb hf)

theorem fused_pollRound (hs : h.Sound own) (hb : h.i4batch = true) (hz : s.detiled = 0) :
    h.Fused own v (h.pollRound v r s) := by
  have hstart : h.Fused own v { s with edone := fun _ => false } :=
    ⟨∅, hz.symm, fun i hi => absurd hi (Finset.notMem_empty i)⟩
  unfold pollRound
  dsimp only
  split
  · exact foldl_keeps (fun i _ s hf => fused_look hf) (fused_pollLoop hs hb hstart)
  · exact fused_pollLoop hs hb hstart

/-! ### The rounds -/

/-- The verdict of the last round is a frontier, and what is counted as de-tiled is. -/
theorem rounds_spec (hs : h.Sound own) (left : Nat) (hz : s.detiled = 0) :
    (∃ t, ((h.rounds v left r s).2.1, (h.rounds v left r s).2.2.now) = h.progressFrom v (h.rounds v left r s).1 h.S 0 t) ∧
      (h.i4batch = true → h.Fused own v (h.rounds v left r s).2.2) := by
  induction left generalizing r s with
  | zero =>
      unfold rounds
      dsimp only
      split <;> exact ⟨⟨_, rfl⟩, fun hb => fused_pollRound hs hb hz⟩
  | succ left ih =>
      unfold rounds
      dsimp only
      split
      · exact ⟨⟨_, rfl⟩, fun hb => fused_pollRound hs hb hz⟩
      · exact ih rfl

/-- What the claim of a handle comes to: progress is a frontier, and an end that reports the last op has seen every
output and filled every C from them. -/
structure Exact (h : DynChain) (v : DynRun R) (C : Nat → Nat → R) : Prop where
  progress : ∀ r t, ∃ t', t ≤ t' ∧ t' ≤ t + h.S ∧ h.Frontier v r t' (h.orkDynProgress v r t)
  finish : (h.orkDynEnd v C).ret = (h.S : Int) - 1 →
    (∀ i < h.S, h.done v (h.orkDynEnd v C).round (h.orkDynEnd v C).now i = true) ∧ h.Filled v (h.orkDynEnd v C).C

/-- A handle that is polled. -/
theorem exact_of_polled (hs : h.Sound own) (hpre : h.prepolled = false) : h.Exact v C := by
  refine ⟨orkDynProgress_frontier h v, fun hret => ?_⟩
  obtain ⟨⟨t, hp⟩, hfused⟩ := rounds_spec (v := v) (r := 0) (s := ⟨1, fun _ => false, 0, C⟩) hs h.recovMax rfl
  unfold orkDynEnd at hret ⊢
  dsimp only at hret ⊢
  rw [hpre, if_neg Bool.false_ne_true] at hret ⊢
  generalize h.rounds v h.recovMax 0 ⟨1, fun _ => false, 0, C⟩ = e at hret hp hfused ⊢
  obtain ⟨-, -, hle, hall, -⟩ := progressFrom_spec (h := h) (v := v) (r := e.1) (t := t) (i := 0) (n := h.S)
    fun j hj => absurd hj (Nat.not_lt_zero j)
  rw [← hp] at hle hall
  have hn : e.2.1 = h.S := by
    split at hret
    · next hfail =>
        obtain ⟨i, hi, -⟩ := hfail
        omega
    · omega
  rw [hn] at hall
  refine ⟨hall, filled_of_placed hs (copyBack_placed hs hall (fun hb hdet i hi => ?_) fun i _ ht => ?_)⟩
  · -- the de-tiled ops are as many as there are ops
    obtain ⟨F, hcard, hF⟩ := hfused hb
    have hsub : F ⊆ Finset.range h.S := fun j hj => Finset.mem_range.mpr (hF j hj).1
    have heq : F = Finset.range h.S := Finset.eq_of_subset_of_card_le hsub (by rw [Finset.card_range, hcard]; exact hdet)
    exact (hF i (by rw [heq]; exact Finset.mem_range.mpr hi)).2.2
  · rw [taken, hpre] at ht
    cases ht

/-- A handle that is not polled, if the outputs were there when the workers read them. -/
theorem exact_of_landed (hs : h.Sound own) (hpre : h.prepolled = true) (hd : ∀ i < h.S, h.done v 0 0 i = true) :
    h.Exact v C := by
  refine ⟨orkDynProgress_frontier h v, fun _ => ?_⟩
  unfold orkDynEnd
  dsimp only
  rw [hpre, if_pos rfl]
  dsimp only
  have hall : ∀ i < h.S, h.done v 0 1 i = true := fun i hi => done_mono (Nat.zero_le 1) (hd i hi)
  refine ⟨hall, filled_of_placed hs (copyBack_placed hs hall (fun hb => ?_) (workers_placed hs hd))⟩
  rw [(hs.parallel hpre).1] at hb
  cases hb

/-- The blocking submit of a worker that returned 0 has done its job. -/
def Obeys (h : DynChain) (v : DynRun R) (rc : Nat → Int) : Prop :=
  h.prepolled = true → ∀ i < h.S, rc i = 0 → h.done v 0 0 i = true

/-- Nothing of core `i` ever lands, all else at once. -/
def dropped (x : R) (i : Nat) : DynRun R :=
  ⟨fun _ j _ => if j = i then none else some 0, fun _ _ => x, fun _ _ => x, fun _ => 0, fun _ => false, fun _ _ => 0, fun _ => 0⟩

omit [AddCommMonoid R] in
theorem dropped_done {x : R} {j : Nat} (hij : j ≠ i) (r t : Nat) : h.done (dropped x i) r t j = true := by
  refine done_iff.mpr fun o _ ks m n _ => ?_
  simp only [DynRun.landed, dropped, if_neg hij, Option.any_some, Nat.zero_le, decide_true]

omit [AddCommMonoid R] in
theorem dropped_not_done {x : R} (hcell : ∃ o ∈ (h.entry i).outs, ∃ ks m n, o.Covers ks m n) (r t : Nat) :
    h.done (dropped x i) r t i = false := by
  obtain ⟨o, ho, ks, m, n, hcov⟩ := hcell
  refine Bool.eq_false_iff.mpr fun hd => ?_
  have := done_iff.mp hd o ho ks m n hcov
  simp only [DynRun.landed, dropped, if_true, Option.any_none, Bool.false_eq_true] at this

/-- A core that is not polled and whose job was dropped is reported done all the same. -/
theorem orkDynEnd_dropped (hpre : h.prepolled = true) (hdt : h.mcDt ≠ .f16) (v : DynRun R) (C : Nat → Nat → R) :
    (h.orkDynEnd v C).ret = (h.S : Int) - 1 ∧ (h.orkDynEnd v C).round = 0 ∧ (h.orkDynEnd v C).now = 1 := by
  unfold orkDynEnd
  dsimp only
  rw [hpre, if_pos rfl, if_neg]
  · exact ⟨rfl, rfl, rfl⟩
  · rintro ⟨i, -, hdrain, -⟩
    have := (Bool.and_eq_true_iff.mp (Bool.and_eq_true_iff.mp hdrain).1).1
    exact hdt (of_decide_eq_true this).1

omit [AddCommMonoid R] in
theorem done_of_lands (hv : v.Lands) (r t i : Nat) : h.done v r t i = true := by
  refine done_iff.mpr fun o _ ks m n _ => ?_
  rw [DynRun.landed, hv, Option.any_some, decide_eq_true (Nat.zero_le t)]

omit [AddCommMonoid R] in
theorem progressFrom_of_lands (hv : v.Lands) (r n i t : Nat) : (h.progressFrom v r n i t).1 = i + n := by
  induction n generalizing i t with
  | zero => rfl
  | succ n ih =>
      unfold progressFrom
      rw [if_pos (done_of_lands hv r t i), ih]
      omega

/-- If everything lands at once, the first round ends with the last op. -/
theorem orkDynEnd_of_lands (hv : v.Lands) (hdt : h.mcDt ≠ .f16) (C : Nat → Nat → R) :
    (h.orkDynEnd v C).ret = (h.S : Int) - 1 := by
  have hrounds : ∀ left r s, (h.rounds v left r s).2.1 = h.S := by
    intro left r s
    have hp : ∀ t, (h.progressFrom v r h.S 0 t).1 = h.S := fun t => by rw [progressFrom_of_lands hv, Nat.zero_add]
    unfold rounds
    dsimp only
    rw [if_pos (Or.inl (hp _).ge)]
    exact hp _
  unfold orkDynEnd
  dsimp only
  rw [if_neg]
  · split
    · rfl
    · rw [hrounds]
  · rintro ⟨i, -, hdrain, -⟩
    have := (Bool.and_eq_true_iff.mp (Bool.and_eq_true_iff.mp hdrain).1).1
    exact hdt (of_decide_eq_true this).1

theorem not_exact_dropped (hpre : h.prepolled = true) (hdt : h.mcDt ≠ .f16) (hi : i < h.S)
    (hcell : ∃ o ∈ (h.entry i).outs, ∃ ks m n, o.Covers ks m n) (x : R) (C : Nat → Nat → R) :
    ¬ h.Exact (dropped x i) C := by
  intro hex
  obtain ⟨hret, hround, hnow⟩ := orkDynEnd_dropped hpre hdt (dropped x i) C
  have hd := (hex.finish hret).1 i hi
  rw [hround, hnow, dropped_not_done hcell] at hd
  cases hd

end DynChain

/-! ### Accepted task lists -/

/-- The handles that are begun: on one core, on several (or by a column split), for int4 rows, or for a batched chain. -/
inductive Began (W : Type*) (c : OrkNpu) : DynChain → Prop
  | one {S : Nat} {tasks : Nat → DynTask W} {h : DynChain} (hb : orkDynBegin c S tasks = some h) : Began W c h
  | mc {v : ColsplitEnv W} {S : Nat} {tasks : Nat → DynTask W} {nc : Int} {h : DynChain}
    (hw : ∀ i < S, Resident c (tasks i).w) (hcs : ∀ i < S, (tasks i).cstride = 0 ∨ (tasks i).w.N ≤ (tasks i).cstride)
    (hb : orkiDynBeginMcImpl c v S tasks nc = some h) : Began W c h
  | rows {granted fits : Bool} {S : Nat} {tasks : Nat → Task4} {nc : Int} {h : DynChain}
    (hw : ∀ i < S, Resident4 c (tasks i).w) (hb : orkI4DynBeginMc c granted fits S tasks nc = some h) : Began W c h
  | batch {v : ChainEnv} {w : OrkW4} {M : Nat} {nc : Int} {Hlim Wblim : Nat} {P : Plan} (probe : Bool)
    (hc : c.soc ∈ socTable) (hwb : 64 ∣ v.wb) (hlim : 64 ∣ Wblim) (hb : orkiI4BchainTry v c w M nc Hlim Wblim = .ok P) :
    Began W c (batchChain c P M probe)

namespace Began

variable {W : Type*} {c : OrkNpu} {h : DynChain}

theorem sound (hb : Began W c h) : ∃ own, h.Sound own := by
  cases hb with
  | one hb => exact ⟨_, orkDynBegin_sound hb⟩
  | mc hw hcs hb => exact orkiDynBeginMcImpl_sound hw hcs hb
  | rows hw hb => exact ⟨_, orkI4DynBeginMc_sound hw hb⟩
  | @batch v w M nc Hlim Wblim P probe hc hwb hlim hb =>
      exact ⟨_, batchChain_sound (bchainTry_exact hc hwb hlim hb fun _ => 0)⟩

/-- A core that is given programs is given something to write. -/
theorem core_cell {t : DynTask W} {v : ColsplitEnv W} {ncreq : Int} {H : Colsplit} (hw : Resident c t.w)
    (hroute : routesToColsplit t.w = true) (hcs : t.cstride = 0 ∨ t.w.N ≤ t.cstride)
    (hb : orkDynBeginColsplit c v ncreq t.w t.M t.cstride = some H) {i : Nat} (hi : i < H.nc)
    (hne : (H.core i).emits ≠ []) : ∃ e ∈ (H.core i).emits, ∃ ks m n, e.Covers ks m n := by
  obtain ⟨hnc, hH⟩ := orkDynBeginColsplit_eq_some hb
  have hcore : H.core i = coreWork c v t.w t.M t.cstride H.nc i := by rw [hH]
  obtain ⟨e, B, hd⟩ := hw.dispatched hroute
  rw [hcore] at hne ⊢
  by_cases hidle : coreCol (t.w.N / 32) H.nc (i + 1) - coreCol (t.w.N / 32) H.nc i = 0
  · rw [coreWork_idle hidle] at hne
    exact absurd rfl hne
  · obtain ⟨em, hem⟩ := List.exists_mem_of_ne_nil _ hne
    have hM : 0 < t.M := by
      cases hwide : wideK t.w with
      | true =>
          rw [coreWork_wide hidle hwide] at hem
          obtain ⟨ks, -, ti, hti, -⟩ := mem_wideEmits.mp hem
          exact Nat.zero_lt_of_lt ((lt_pieces_iff (orkiMtileCap_pos _)).mp hti)
      | false =>
          obtain ⟨sg, -, hwork⟩ := coreWork_base (c := c) v t.M t.cstride hidle hwide
          rw [hwork] at hem
          obtain ⟨s, -, ti, hti, -⟩ := mem_segEmits.mp hem
          exact Nat.zero_lt_of_lt ((lt_pieces_iff (orkiMtileCap_pos _)).mp hti)
    have hslices : 0 < slices t.w := by
      unfold slices
      split
      · exact hd.Sk_pos
      · exact Nat.one_pos
    obtain ⟨em, hem, hcov, -⟩ := (coreWork_spec (v := v) hd hM hcs hi).1.once 0 0 (coreCol (t.w.N / 32) H.nc i) hslices hM
      (Nat.le_refl _) (by omega)
    exact ⟨em, hem, _, _, _, hcov⟩

/-- What a handle that is not polled is. -/
theorem not_polled (hb : Began W c h) (hpre : h.prepolled = true) : h.mcDt = .i8 ∧
    ∀ i < h.S, (h.entry i).outs ≠ [] → ∃ o ∈ (h.entry i).outs, ∃ ks m n, o.Covers ks m n := by
  cases hb with
  | one hb =>
      unfold orkDynBegin at hb
      split at hb
      · cases hb
      · obtain rfl := Option.some.inj hb
        cases hpre
  | @mc v S tasks nc _ hw hcs hb =>
      unfold orkiDynBeginMcImpl at hb
      split at hb
      · cases hb
      · next hS =>
          have h0 : 0 < S := by omega
          dsimp only at hb
          split at hb
          · next hroute =>
              obtain ⟨H, hH, rfl⟩ := Option.map_eq_some_iff.mp hb
              refine ⟨rfl, fun i hi hne => ?_⟩
              have hne : (H.core i).emits ≠ [] := fun hnil => hne (congrArg (List.map Emit.output) hnil)
              obtain ⟨em, hem, hcov⟩ := core_cell (hw 0 h0) hroute.2.2 (hcs 0 h0) hH hi hne
              exact ⟨em.output, List.mem_map_of_mem hem, hcov⟩
          · generalize (if S < mcCores c nc then S else mcCores c nc) = n at hb
            split at hb
            · obtain rfl := Option.some.inj hb
              cases hpre
            · cases hb
  | @rows granted fits S tasks nc _ hw hb =>
      unfold orkI4DynBeginMc at hb
      split at hb
      · cases hb
      · dsimp only at hb
        generalize (if S < mcCores c nc then S else mcCores c nc) = k at hb
        split at hb
        · obtain rfl := Option.some.inj hb
          cases hpre
        · cases hb
  | batch => cases hpre

end Began

/-- Progress is the frontier, and an end that reports the last op has every output and every C, for all landings that the
submits allow, exactly if the handle is polled or no core's blocking submit has failed. -/
theorem orkDynEnd_exact_iff {W : Type*} {c : OrkNpu} {h : DynChain} (hb : Began W c h) (rc : Nat → Int) :
    (∀ v : DynRun R, h.Obeys v rc → ∀ C, h.Exact v C) ↔
      (h.prepolled = false ∨ ∀ i < h.S, (h.entry i).outs ≠ [] → rc i = 0) := by
  obtain ⟨own, hs⟩ := hb.sound
  constructor
  · intro hex
    cases hpre : h.prepolled with
    | false => exact Or.inl rfl
    | true =>
        refine Or.inr fun i hi hne => ?_
        by_contra hrc
        obtain ⟨hdt, hcell⟩ := hb.not_polled hpre
        have hobeys : h.Obeys (DynChain.dropped (0 : R) i) rc := fun _ j _ hj =>
          DynChain.dropped_done (fun hji : j = i => hrc (hji ▸ hj)) 0 0
        exact DynChain.not_exact_dropped hpre (by rw [hdt]; decide) hi (hcell i hi hne) 0 (fun _ _ => 0) (hex _ hobeys _)
  · intro hcond v hobeys C
    cases hpre : h.prepolled with
    | false => exact DynChain.exact_of_polled hs hpre
    | true =>
        refine DynChain.exact_of_landed hs hpre fun i hi => ?_
        rcases hcond with hpoll | hrc
        · rw [hpre] at hpoll
          cases hpoll
        · by_cases hne : (h.entry i).outs = []
          · exact DynChain.done_iff.mpr fun o ho => absurd (hne ▸ ho) List.not_mem_nil
          · exact hobeys hpre i hi (hrc i hi hne)

/-- One row of a 512 x 64 weight of ones, split over two cores. -/
def twoCoreTask (w : OrkW (BitVec 32)) : DynTask (BitVec 32) := ⟨w, 0, 1, fun _ => 1, none, 0⟩

theorem exists_twoCoreChain : ∃ (w : OrkW (BitVec 32)) (h : DynChain),
    orkiPack ⟨3, socRk3588, 0⟩ ⟨0, 0⟩ (granted 0) .i8 512 64 (fun _ => 1) = some w ∧
    Resident ⟨3, socRk3588, 0⟩ w ∧
    orkiDynBeginMcImpl ⟨3, socRk3588, 0⟩ (.quiet 4 0) 1 (fun _ => twoCoreTask w) 2 = some h ∧
    (h.S = 2 ∧ h.prepolled = true ∧ h.mcDt = .i8) ∧
    ∀ i < 2, ∃ o ∈ (h.entry i).outs, ∃ ks m n, o.Covers ks m n := by
  obtain ⟨w, H, hw, ⟨hK, hN, hBf⟩, hd, hH, hnc⟩ := exists_twoCores
  have hroute : routesToColsplit w = true := decide_eq_true ⟨hd.dt, by omega, Or.inr ⟨by omega, hBf⟩⟩
  refine ⟨w, H.chain w 1 0 false, hw, ⟨hd.soc, hd.K_pos, _, _, hd.dt ▸ hd.holds⟩, ?_, ⟨hnc, ?_, rfl⟩, fun i hi => ?_⟩
  · unfold orkiDynBeginMcImpl
    rw [if_neg (by rw [twoCoreTask, hd.dt]; decide)]
    dsimp only
    rw [if_pos ⟨rfl, by decide, hroute⟩]
    exact congrArg (Option.map _) hH
  · show (decide (1 < H.nc) && !false) = true
    rw [hnc]
    decide
  · obtain ⟨-, hHeq⟩ := orkDynBeginColsplit_eq_some hH
    have hcore : H.core i = coreWork ⟨3, socRk3588, 0⟩ (.quiet 4 0) w 1 0 H.nc i := by rw [hHeq]
    have hslices : 0 < slices w := by
      unfold slices
      split
      · exact hd.Sk_pos
      · exact Nat.one_pos
    have hcols : coreCol (w.N / 32) H.nc i < coreCol (w.N / 32) H.nc (i + 1) := by
      rw [hN, hnc]
      rcases (show i = 0 ∨ i = 1 by omega) with rfl | rfl <;> decide
    obtain ⟨em, hem, hcov, -⟩ := (coreWork_spec (v := ColsplitEnv.quiet 4 0) hd Nat.one_pos (Or.inl (Eq.refl (0 : Nat)))
      (by omega)).1.once 0 0 _ hslices Nat.one_pos (Nat.le_refl _) hcols
    rw [← hcore] at hem
    exact ⟨em.output, List.mem_map_of_mem hem, _, _, _, hcov⟩

/-- With no submit refused the two cores are waited for. -/
theorem orkDynEnd_exact_twoCores : ∃ (w : OrkW (BitVec 32)) (h : DynChain),
    orkiPack ⟨3, socRk3588, 0⟩ ⟨0, 0⟩ (granted 0) .i8 512 64 (fun _ => 1) = some w ∧
    orkiDynBeginMcImpl ⟨3, socRk3588, 0⟩ (.quiet 4 0) 1 (fun _ => twoCoreTask w) 2 = some h ∧
    ∀ v : DynRun (BitVec 32), h.Obeys v (fun _ => 0) → ∀ C, h.Exact v C := by
  obtain ⟨w, h, hw, hres, hb, -, -⟩ := exists_twoCoreChain
  exact ⟨w, h, hw, hb, (orkDynEnd_exact_iff (.mc (fun _ _ => hres) (fun _ _ => Or.inl rfl) hb) _).mpr
    (Or.inr fun _ _ _ => rfl)⟩

/-- The submit of the second core is refused, so that nothing is written there: `ork_dyn_end` returns `S - 1` all the
same. -/
theorem orkDynEnd_refused_twoCores : ∃ (w : OrkW (BitVec 32)) (h : DynChain),
    orkiPack ⟨3, socRk3588, 0⟩ ⟨0, 0⟩ (granted 0) .i8 512 64 (fun _ => 1) = some w ∧
    orkiDynBeginMcImpl ⟨3, socRk3588, 0⟩ (.quiet 4 0) 1 (fun _ => twoCoreTask w) 2 = some h ∧ h.S = 2 ∧
    h.Obeys (DynChain.dropped (0 : BitVec 32) 1) (fun i => if i = 1 then -1 else 0) ∧
    (h.orkDynEnd (DynChain.dropped (0 : BitVec 32) 1) fun _ _ => 0).ret = 1 ∧
    ¬ h.Exact (DynChain.dropped (0 : BitVec 32) 1) fun _ _ => 0 := by
  obtain ⟨w, h, hw, -, hb, ⟨hS, hpre, hdt⟩, hcell⟩ := exists_twoCoreChain
  have hdt : h.mcDt ≠ .f16 := by
    rw [hdt]
    decide
  refine ⟨w, h, hw, hb, hS, fun _ i _ hrc => DynChain.dropped_done (fun hi : i = 1 => ?_) 0 0, ?_,
    DynChain.not_exact_dropped hpre hdt (by omega) (hcell 1 (by decide)) 0 _⟩
  · subst hi
    exact absurd hrc (by decide)
  · rw [(DynChain.orkDynEnd_dropped hpre hdt _ _).1, hS]
    rfl

end OrkDriver.Core
