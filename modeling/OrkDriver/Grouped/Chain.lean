import OrkDriver.Core.DynFrontier

/-!
`orki_i8_run_chain_impl` (`npu/i8/chain.c`) on a list of independent matmuls: one doorbell over all cores, or a chain of
row blocks on one core if a task is too tall for that.
-/

namespace OrkDriver.Grouped

open OrkDriver.Lib OrkDriver.Npu OrkDriver.Pack OrkDriver.Run OrkDriver.Core

/-- The buffer a full-K program reads: the full-K copy of its N-slice if there is one. -/
def weightOf (w : OrkW Int) (b : Nat) : Nat → Int :=
  match w.Bf with
  | some f => f b
  | none => w.Bb b

/-- What the programs of a task leave in a buffer that held `junk`. -/
def written (t : DynTask Int) (emits : List Emit) (junk : Nat → Int) : Nat → Int :=
  emits.foldl (fun C e => e.p.run 32 t.A (weightOf t.w e.wb) C) junk

/-- What a chain finds: its regcmd and task buffers, the doorbell with what its outputs go through (they hold what the
programs write, not `value`), `ORK_CHAIN_NC`, the scratch of each task, the verdict on each program, whether the NPU is
warm, and which submits are accepted. -/
structure ChainEnv8 where
  buffers : Bool
  doorbell : ColsplitEnv Int
  run : DynRun Int
  nc : Int
  scratch : Nat → Bool
  valid : Nat → Bool
  warmed : Bool
  submits : Nat → Bool

/-! ### The code -/

/-- What the validation returns for a task, 0 to go on. Its A and its C are arrays of their own. -/
def refusal (t : DynTask Int) : Int :=
  if t.w.dt ≠ .i8 then -2
  else if t.M = 0 then -2
  else if t.w.K % 32 ≠ 0 ∨ t.w.N % 32 ≠ 0 then -2
  else if t.w.Sn ≠ 1 then -2
  else if t.w.Sk ≠ 1 ∧ t.w.Bf.isNone then -2
  else if t.w.K % 512 ≠ 0 ∨ 4096 < t.w.K then -3
  else 0

/-- `orki_i8_chain_fullk_mcap`: the computation of `orki_mtile_cap`. -/
def orkiI8ChainFullkMcap (K : Nat) : Nat := orkiMtileCap K

/-- Whether `ork_dyn_begin_mc` can take the task. -/
def routable (t : DynTask Int) : Bool := !(decide (64 < t.M) && t.w.Bf.isNone)

/-- The outputs of the doorbell. -/
def ChainEnv8.outputs (v : ChainEnv8) (c : OrkNpu) (S : Nat) (tasks : Nat → DynTask Int) : DynRun Int :=
  { v.run with
    value := fun i => written (tasks i) (mcOp c (tasks i) (directC S tasks)).emits (v.run.stale i) }

/-- The doorbell: `ork_dyn_begin_mc`, then `ork_dyn_end`. -/
def chainDoorbell (c : OrkNpu) (v : ChainEnv8) (S : Nat) (tasks : Nat → DynTask Int) (C : Nat → Nat → Int) :
    Int × (Nat → Nat → Int) :=
  match orkiDynBeginMcImpl c v.doorbell S tasks v.nc with
  | none => (-1, C)
  | some h =>
    let e := h.orkDynEnd (v.outputs c S tasks) C
    (if e.ret = (S : Int) - 1 then 0 else -1, e.C)

/-- The chain on one core: every task in blocks of rows, one blocking submit, and the copies back. A part that is not warm
runs it twice. -/
def chainBlocking (v : ChainEnv8) (S : Nat) (tasks : Nat → DynTask Int) (C : Nat → Nat → Int) : Int × (Nat → Nat → Int) :=
  let P := ((List.range S).map fun i => pieces (tasks i).M (orkiI8ChainFullkMcap (tasks i).w.K)).sum
  if ∃ i < S, v.scratch i = false then (-1, C)
  else if 1024 < P then (-2, C)
  else if ∃ p < P, v.valid p = false then (-1, C)
  else if v.submits (if v.warmed then 0 else 1) = false then (-1, C)
  else
    (0, fun i =>
      let t := tasks i
      if i < S then copyOut (t.M * t.w.N) (written t (mtileOp t.w t.M).emits (v.run.stale i)) (C i) else C i)

/-- `orki_i8_run_chain_impl` without an op list, on the calling thread's core; `single` is `ork_i8_mm_run`, to which a
task on its own goes. -/
def orkiI8RunChainImpl (c : OrkNpu) (v : ChainEnv8) (single : DynTask Int → (Nat → Int) → Int × (Nat → Int)) (S : Nat)
    (tasks : Nat → DynTask Int) (C : Nat → Nat → Int) : Int × (Nat → Nat → Int) :=
  if S < 1 ∨ 1024 < S then (-2, C)
  else if S = 1 then
    let r := single (tasks 0) (C 0)
    (r.1, Function.update C 0 r.2)
  else if v.buffers = false then (-2, C)
  else
    match ((List.range S).map fun i => refusal (tasks i)).find? (fun e => e ≠ 0) with
    | some e => (e, C)
    | none => if ∀ i < S, routable (tasks i) = true then chainDoorbell c v S tasks C else chainBlocking v S tasks C

/-! ### What the programs of a task write -/

/-- Row `m` of A times column `n` of the one tile of the weight. -/
def tileDot (t : DynTask Int) (m n : Nat) : Int :=
  dot t.w.K (fun k => t.A (m * t.w.K + k)) fun k => weightOf t.w 0 (wIndex 32 t.w.K k n)

/-- Programs of the whole depth and width, each for a block of rows. -/
structure RowBlocks (t : DynTask Int) (emits : List Emit) : Prop where
  shape : ∀ e ∈ emits, e.wb = 0 ∧ e.p.w = 0 ∧ e.p.Kp = t.w.K ∧ e.p.Nc = t.w.N ∧ e.p.stride = t.w.N ∧
    e.p.a = e.m0 * t.w.K ∧ e.p.c = e.m0 * t.w.N
  cover : ∀ m < t.M, ∃ e ∈ emits, e.m0 ≤ m ∧ m < e.m0 + e.p.mc

section

variable {c : OrkNpu} {t : DynTask Int} {emits : List Emit} {m n : Nat}

theorem RowBlocks.written_cell (h : RowBlocks t emits) (junk : Nat → Int) (hm : m < t.M) (hn : n < t.w.N) :
    written t emits junk (m * t.w.N + n) = tileDot t m n := by
  have hstores : written t emits junk = stores junk (emits.flatMap fun e => e.p.outputs 32 t.A (weightOf t.w e.wb)) :=
    foldl_run emits junk
  rw [hstores]
  apply stores.of_mem
  · obtain ⟨e, he, hlo, hhi⟩ := h.cover m hm
    obtain ⟨-, -, -, hNc, hstride, -, hc⟩ := h.shape e he
    refine ⟨_, List.mem_flatMap.mpr ⟨e, he, mem_block.mpr ⟨m - e.m0, n, by omega, by rwa [hNc], rfl⟩⟩, ?_⟩
    dsimp only
    rw [hc, hstride, ← Nat.add_mul, Nat.add_sub_cancel' hlo]
  · intro x hx haddr
    obtain ⟨e, he, hx⟩ := List.mem_flatMap.mp hx
    obtain ⟨r, j, hr, hj, rfl⟩ := mem_block.mp hx
    obtain ⟨hwb, hw, hKp, hNc, hstride, ha, hc⟩ := h.shape e he
    dsimp only at haddr ⊢
    rw [hc, hstride, ← Nat.add_mul] at haddr
    obtain ⟨rfl, rfl⟩ := digits_inj (by rwa [← hNc]) hn haddr
    unfold Program.value tileDot
    rw [hwb, hw, hKp, ha]
    refine dot_congr (fun k _ => ?_) fun k _ => ?_
    · rw [← Nat.add_mul]
    · rw [Nat.zero_add]

theorem rowBlocks_mtile (t : DynTask Int) : RowBlocks t (mtileOp t.w t.M).emits := by
  constructor
  case shape =>
    intro e he
    obtain ⟨i, -, rfl⟩ := List.mem_map.mp he
    exact ⟨rfl, rfl, rfl, rfl, rfl, rfl, rfl⟩
  case cover =>
    intro m hm
    have hcap := orkiMtileCap_pos t.w.K
    refine ⟨_, List.mem_map_of_mem (List.mem_range.mpr (div_lt_pieces hcap hm)), ?_⟩
    exact (mem_piece_iff hcap hm).mpr rfl

/-- A task whose one tile a program reads as a whole. -/
structure View (c : OrkNpu) (t : DynTask Int) : Prop where
  Sn : t.w.Sn = 1
  Bf : t.w.Bf = none
  N_le : t.w.N ≤ c.soc.nmax
  cdom : t.cdom = none

theorem View.nslice_emits (h : View c t) (hdt : t.w.dt = .i8) (direct : Bool) : (nsliceOp c t.w t.M direct).emits =
    [⟨0, 0, 0, 0, orkiI8Synth t.M t.w.K t.w.N 0 0 0 0⟩] := by
  have hscat : scat t.w t.M = false := decide_eq_false fun hand => by
    have := h.Sn
    omega
  unfold nsliceOp
  rw [h.Sn, hscat, hdt]
  simp [pieceLen_of_le h.N_le]

theorem View.rowBlocks_nslice (h : View c t) (hdt : t.w.dt = .i8) (direct : Bool) :
    RowBlocks t (nsliceOp c t.w t.M direct).emits := by
  rw [h.nslice_emits hdt]
  constructor
  case shape =>
    intro e he
    obtain rfl := List.mem_singleton.mp he
    exact ⟨rfl, rfl, rfl, rfl, rfl, (Nat.zero_mul _).symm, (Nat.zero_mul _).symm⟩
  case cover =>
    intro m hm
    exact ⟨_, List.mem_singleton.mpr rfl, Nat.zero_le m, (Nat.zero_add t.M).symm ▸ hm⟩

end

/-! ### The doorbell -/

/-- The handle that `ork_dyn_begin_mc` returns for several tasks on `n` cores. -/
def mcHandle (c : OrkNpu) (S : Nat) (tasks : Nat → DynTask Int) (n : Nat) : DynChain :=
  ⟨S, fun p => ⟨p, (mcOp c (tasks p) (directC S tasks)).emits.map Emit.output, (mcOp c (tasks p) (directC S tasks)).op, []⟩,
    ⟨c.soc.nmax, (tasks 0).w.N, 0, false⟩, n, (tasks 0).w.dt, false, directC S tasks, false, false, S,
    fun p => ⟨(tasks p).M, (tasks p).w.N, (tasks p).w.N, if 4096 < (tasks p).w.K then (tasks p).w.Sk else 1⟩⟩

section

variable {c : OrkNpu} {v : ColsplitEnv Int} {S n : Nat} {tasks : Nat → DynTask Int} {nc : Int} {h : DynChain}

theorem beginMc_eq (hS : S ≠ 1) (hb : orkiDynBeginMcImpl c v S tasks nc = some h) : ∃ n, h = mcHandle c S tasks n := by
  unfold orkiDynBeginMcImpl at hb
  split at hb
  · cases hb
  dsimp only at hb
  rw [if_neg fun hand => hS hand.1] at hb
  generalize (if S < mcCores c nc then S else mcCores c nc) = k at hb
  split at hb
  · obtain rfl := Option.some.inj hb
    exact ⟨_, rfl⟩
  · cases hb

/-- Tasks that fit one program each. -/
structure Views (c : OrkNpu) (S : Nat) (tasks : Nat → DynTask Int) : Prop where
  view : ∀ i < S, View c (tasks i)
  dt : ∀ i < S, (tasks i).w.dt = .i8
  depth : ∀ i < S, (tasks i).w.K ≤ 4096
  rows : ∀ i < S, (tasks i).M ≤ 64

theorem Views.mcOp_eq (hv : Views c S tasks) {i : Nat} (hi : i < S) (direct : Bool) :
    mcOp c (tasks i) direct = nsliceOp c (tasks i).w (tasks i).M direct := by
  have hK := hv.depth i hi
  have hM := hv.rows i hi
  unfold mcOp
  rw [if_neg (by omega), if_neg (by omega)]

theorem Views.direct (hv : Views c S tasks) (hS : 0 < S) : directC S tasks = false := by
  refine decide_eq_false fun hall => ?_
  have h0 := (hall 0 hS).1
  rw [(hv.view 0 hS).cdom] at h0
  cases h0

theorem Views.outs (hv : Views c S tasks) {i : Nat} (hi : i < S) : ((mcHandle c S tasks n).entry i).outs =
    [Emit.output ⟨0, 0, 0, 0, orkiI8Synth (tasks i).M (tasks i).w.K (tasks i).w.N 0 0 0 0⟩] := by
  unfold mcHandle
  dsimp only
  rw [hv.mcOp_eq hi, (hv.view i hi).nslice_emits (hv.dt i hi)]
  rfl

theorem Views.sound (hv : Views c S tasks) (hS : 0 < S) : (mcHandle c S tasks n).Sound fun _ _ _ => True := by
  have hdirect := hv.direct hS
  refine sound_of_ops (fun _ _ => rfl) rfl rfl rfl (fun hd => ?_) (fun _ _ => Nat.le_refl _) fun i hi m n' hm hn => ?_
  · change directC S tasks = true at hd
    rw [hdirect] at hd
    cases hd
  · change m < (tasks i).M at hm
    change n' < (tasks i).w.N at hn
    change i < S at hi
    have hK := hv.depth i hi
    have hone : (if 4096 < (tasks i).w.K then (tasks i).w.Sk else 1) = 1 := if_neg (by omega)
    have hMN : (tasks i).M * (tasks i).w.N ≠ 0 := (Nat.mul_pos (Nat.zero_lt_of_lt hm) (Nat.zero_lt_of_lt hn)).ne'
    have hM : (tasks i).M ≠ 0 := by omega
    refine ⟨[m * (tasks i).w.N + n'], fun s => ?_, hone.symm, fun ks hks => ?_⟩
    · have hmoves : (mcHandle c S tasks n).moves i = orkDynWriteback ⟨c.soc.nmax, (tasks 0).w.N, 0, false⟩
          (nsliceOp c (tasks i).w (tasks i).M false).op := by
        unfold DynChain.moves mcHandle
        dsimp only
        rw [hdirect, if_neg Bool.false_ne_true, if_neg Bool.false_ne_true, hv.mcOp_eq hi]
      rw [hmoves]
      refine (writeback_plain rfl (Nat.zero_le 1) rfl rfl hMN fun hand => ?_).trans (and_iff_right (digits_lt hm hn))
      have hwide := hand.2.2
      change c.soc.nmax < (tasks i).M * (tasks i).w.N / (if (tasks i).M = 0 then 1 else (tasks i).M) at hwide
      rw [if_neg hM, Nat.mul_div_cancel_left _ (Nat.pos_of_ne_zero hM)] at hwide
      exact absurd hwide (Nat.not_lt.mpr (hv.view i hi).N_le)
    · have hks : ks = 0 := by
        change ks < (if 4096 < (tasks i).w.K then (tasks i).w.Sk else 1) at hks
        omega
      subst hks
      refine ⟨_, hv.outs hi ▸ List.mem_singleton.mpr rfl, ⟨rfl, ⟨Nat.zero_le m, ?_⟩, Nat.zero_le n', ?_⟩, ?_⟩
      · exact (Nat.zero_add (tasks i).M).symm ▸ hm
      · exact (Nat.zero_add (tasks i).w.N).symm ▸ hn
      · simp [Emit.output, Emit.cell, orkiI8Synth]

/-- An end that reports the last task leaves the product of every task in its C. -/
theorem Views.ended (hv : Views c S tasks) (hS : 0 < S) {e : ChainEnv8} {C : Nat → Nat → Int}
    (hret : ((mcHandle c S tasks n).orkDynEnd (e.outputs c S tasks) C).ret = (S : Int) - 1) {i : Nat} (hi : i < S)
    {m j : Nat} (hm : m < (tasks i).M) (hj : j < (tasks i).w.N) :
    ((mcHandle c S tasks n).orkDynEnd (e.outputs c S tasks) C).C i (m * (tasks i).w.N + j) = tileDot (tasks i) m j := by
  have hexact := DynChain.exact_of_polled (v := e.outputs c S tasks) (C := C) (hv.sound (n := n) hS) rfl
  obtain ⟨i', -, harr, srcs, ⟨hlen, hget⟩, hC⟩ := (hexact.finish hret).2 i hi m j hm hj
  obtain rfl : i' = i := harr
  have hK := hv.depth i' hi
  have hone : ((mcHandle c S tasks n).goal i').slices = 1 := if_neg (Nat.not_lt.mpr hK)
  rw [hone] at hlen hget
  obtain ⟨o, ho, -, hsrc⟩ := hget 0 Nat.one_pos
  obtain ⟨x, rfl⟩ := List.length_eq_one_iff.mp hlen
  obtain rfl := List.mem_singleton.mp (hv.outs hi ▸ ho)
  have hx : x = m * (tasks i').w.N + j := by
    have := Option.some.inj hsrc
    simpa [Emit.output, Emit.cell, orkiI8Synth] using this
  refine hC.trans ?_
  rw [List.map_singleton, List.sum_singleton, hx]
  change written (tasks i') (mcOp c (tasks i') (directC S tasks)).emits (e.run.stale i') _ = _
  rw [hv.mcOp_eq hi]
  exact ((hv.view i' hi).rowBlocks_nslice (hv.dt i' hi) _).written_cell _ hm hj

end

/-! ### The chain -/

section

variable {c : OrkNpu} {v : ChainEnv8} {single : DynTask Int → (Nat → Int) → Int × (Nat → Int)} {S : Nat}
  {tasks : Nat → DynTask Int} {C : Nat → Nat → Int}

theorem refusal_eq_zero {t : DynTask Int} (h : refusal t = 0) : t.w.dt = .i8 ∧ t.M ≠ 0 ∧ t.w.K % 512 = 0 ∧ t.w.K ≤ 4096 := by
  unfold refusal at h
  split_ifs at h with h1 h2 h3 h4 h5 h6
  exact ⟨not_not.mp h1, h2, by omega, by omega⟩

theorem chainDoorbell_exact (hS : S ≠ 1) (hv : Views c S tasks) (h : (chainDoorbell c v S tasks C).1 = 0) {i : Nat}
    (hi : i < S) {m n : Nat} (hm : m < (tasks i).M) (hn : n < (tasks i).w.N) :
    (chainDoorbell c v S tasks C).2 i (m * (tasks i).w.N + n) = tileDot (tasks i) m n := by
  unfold chainDoorbell at h ⊢
  split at h
  next => cases h
  next H hH =>
    obtain ⟨k, rfl⟩ := beginMc_eq hS hH
    dsimp only at h ⊢
    split at h
    next hret => exact hv.ended (by omega) hret hi hm hn
    next => cases h

theorem chainBlocking_exact (h : (chainBlocking v S tasks C).1 = 0) {i : Nat} (hi : i < S) {m n : Nat}
    (hm : m < (tasks i).M) (hn : n < (tasks i).w.N) :
    (chainBlocking v S tasks C).2 i (m * (tasks i).w.N + n) = tileDot (tasks i) m n := by
  unfold chainBlocking at h ⊢
  dsimp only at h ⊢
  generalize (if v.warmed then 0 else 1) = k at h ⊢
  split at h
  next => cases h
  next hs =>
  split at h
  next => cases h
  next hP =>
  split at h
  next => cases h
  next hvalid =>
  split at h
  next => cases h
  next hk =>
  rw [if_neg hs, if_neg hP, if_neg hvalid, if_neg hk]
  dsimp only
  rw [if_pos hi, copyOut_cell _ _ hm hn]
  exact (rowBlocks_mtile (tasks i)).written_cell _ hm hn

/-- A chain of several views that returns 0 has computed them all. -/
theorem orkiI8RunChainImpl_exact (hS : S ≠ 1) (hview : ∀ i < S, View c (tasks i))
    (h : (orkiI8RunChainImpl c v single S tasks C).1 = 0) {i : Nat} (hi : i < S) {m n : Nat} (hm : m < (tasks i).M)
    (hn : n < (tasks i).w.N) :
    (orkiI8RunChainImpl c v single S tasks C).2 i (m * (tasks i).w.N + n) = tileDot (tasks i) m n := by
  unfold orkiI8RunChainImpl at h ⊢
  split at h
  next => cases h
  next hrange =>
    rw [if_neg hrange, if_neg hS]
    split at h
    next => cases h
    next hbuf =>
      rw [if_neg hbuf]
      split at h
      next e he =>
        have hne := List.find?_some he
        simp only [decide_eq_true_eq] at hne
        exact absurd h hne
      next hnone =>
        have hzero : ∀ i < S, refusal (tasks i) = 0 := by
          intro i hi
          have := List.find?_eq_none.mp hnone _ (List.mem_map_of_mem (List.mem_range.mpr hi))
          simpa using this
        split at h
        next hroute =>
          rw [if_pos hroute]
          have hv : Views c S tasks := by
            refine ⟨hview, fun i hi => (refusal_eq_zero (hzero i hi)).1, fun i hi => (refusal_eq_zero (hzero i hi)).2.2.2,
              fun i hi => ?_⟩
            have := hroute i hi
            simp only [routable, (hview i hi).Bf] at this
            simpa using this
          exact chainDoorbell_exact hS hv h hi hm hn
        next hroute =>
          rw [if_neg hroute]
          exact chainBlocking_exact h hi hm hn

/-! ### Nothing refused -/

/-- Nothing is refused, a core takes 1024 programs, and everything lands. -/
structure ChainEnv8.Kind (v : ChainEnv8) : Prop where
  buffers : v.buffers = true
  granted : v.doorbell.granted = true
  fits : ∀ i, 1024 ≤ v.doorbell.fits i
  accepts : ∀ i p, v.doorbell.accepts i p = true
  lands : v.run.Lands
  scratch : ∀ i, v.scratch i = true
  valid : ∀ p, v.valid p = true
  submits : ∀ i, v.submits i = true

theorem Views.beginMc_isSome (hv : Views c S tasks) (hk : v.Kind) (hS : 2 ≤ S) (hS' : S ≤ 1024)
    (haccepts : ∀ i < S, mcAccepts c (tasks 0) (tasks i)) : (orkiDynBeginMcImpl c v.doorbell S tasks v.nc).isSome := by
  have hlen : ∀ p < S, (mcOp c (tasks p) (directC S tasks)).emits.length = 1 := by
    intro p hp
    rw [hv.mcOp_eq hp, (hv.view p hp).nslice_emits (hv.dt p hp)]
    rfl
  have hi8 : (tasks 0).w.dt = .i8 := hv.dt 0 (by omega)
  unfold orkiDynBeginMcImpl
  rw [if_neg (by rw [hi8]; rintro (h | h | h); exacts [by omega, by omega, by cases h])]
  dsimp only
  rw [if_neg fun hand => by omega]
  generalize hn : (if S < mcCores c v.nc then S else mcCores c v.nc) = n
  rw [if_pos]
  · rfl
  refine ⟨haccepts, hk.granted, fun i hi => ⟨?_, fun p _ _ e _ => hk.accepts i e.p⟩⟩
  have hle : coreTask S n (i + 1) ≤ S := by
    unfold coreTask
    exact Nat.div_le_of_le_mul (Nat.mul_le_mul_right S hi)
  have hsum : ((List.range (coreTask S n (i + 1))).map fun p =>
      if coreTask S n i ≤ p then (mcOp c (tasks p) (directC S tasks)).emits.length else 0).sum ≤
        (List.range (coreTask S n (i + 1))).length * 1 := by
    rw [← List.length_map (f := fun p =>
      if coreTask S n i ≤ p then (mcOp c (tasks p) (directC S tasks)).emits.length else 0)]
    apply List.sum_le_card_nsmul
    intro x hx
    obtain ⟨p, hp, rfl⟩ := List.mem_map.mp hx
    rw [List.mem_range] at hp
    rw [hlen p (by omega)]
    split <;> omega
  rw [List.length_range, Nat.mul_one] at hsum
  have := hk.fits i
  omega

theorem chainDoorbell_zero (hv : Views c S tasks) (hk : v.Kind) (hS : 2 ≤ S) (hS' : S ≤ 1024)
    (haccepts : ∀ i < S, mcAccepts c (tasks 0) (tasks i)) : (chainDoorbell c v S tasks C).1 = 0 := by
  obtain ⟨H, hH⟩ := Option.isSome_iff_exists.mp (hv.beginMc_isSome hk hS hS' haccepts)
  obtain ⟨n, rfl⟩ := beginMc_eq (by omega) hH
  have hlands : (v.outputs c S tasks).Lands := hk.lands
  have hdt : (mcHandle c S tasks n).mcDt ≠ .f16 := by
    change (tasks 0).w.dt ≠ .f16
    rw [hv.dt 0 (by omega)]
    decide
  unfold chainDoorbell
  rw [hH]
  exact if_pos (DynChain.orkDynEnd_of_lands hlands hdt C)

theorem chainBlocking_zero (hk : v.Kind)
    (hP : ((List.range S).map fun i => pieces (tasks i).M (orkiI8ChainFullkMcap (tasks i).w.K)).sum ≤ 1024) :
    (chainBlocking v S tasks C).1 = 0 := by
  unfold chainBlocking
  dsimp only
  rw [if_neg, if_neg (by omega), if_neg, if_neg (by rw [hk.submits]; decide)]
  · rintro ⟨p, -, hp⟩
    rw [hk.valid] at hp
    cases hp
  · rintro ⟨i, -, hi⟩
    rw [hk.scratch] at hi
    cases hi

/-- A chain of several views of one domain that none of its checks refuses returns 0. -/
theorem orkiI8RunChainImpl_zero (hk : v.Kind) (hS : 2 ≤ S) (hS' : S ≤ 1024) (hview : ∀ i < S, View c (tasks i))
    (hzero : ∀ i < S, refusal (tasks i) = 0) (hsk : ∀ i < S, (tasks i).w.Sk = 1)
    (hdom : ∀ i < S, (tasks i).domain = (tasks 0).domain)
    (hP : (∀ i < S, (tasks i).M ≤ 64) ∨
      ((List.range S).map fun i => pieces (tasks i).M (orkiI8ChainFullkMcap (tasks i).w.K)).sum ≤ 1024) :
    (orkiI8RunChainImpl c v single S tasks C).1 = 0 := by
  have hnone : ((List.range S).map fun i => refusal (tasks i)).find? (fun e => e ≠ 0) = none := by
    apply List.find?_eq_none.mpr
    intro e he
    obtain ⟨i, hi, rfl⟩ := List.mem_map.mp he
    rw [hzero i (List.mem_range.mp hi)]
    decide
  have hroutable : ∀ i < S, (routable (tasks i) = true ↔ (tasks i).M ≤ 64) := by
    intro i hi
    simp [routable, (hview i hi).Bf]
  unfold orkiI8RunChainImpl
  rw [if_neg (by omega), if_neg (by omega), if_neg (by rw [hk.buffers]; decide), hnone]
  dsimp only
  split
  next hroute =>
    have hv : Views c S tasks := ⟨hview, fun i hi => (refusal_eq_zero (hzero i hi)).1,
      fun i hi => (refusal_eq_zero (hzero i hi)).2.2.2, fun i hi => (hroutable i hi).mp (hroute i hi)⟩
    apply chainDoorbell_zero hv hk hS hS'
    intro i hi
    obtain ⟨hdt, hM, hK, hK'⟩ := refusal_eq_zero (hzero i hi)
    have hrows := hv.rows i hi
    refine ⟨⟨hdt.trans (hv.dt 0 (by omega)).symm, by omega⟩, fun h => by omega, Or.inl (hview i hi).Sn, ?_,
      fun h => by omega, fun h => ?_, Or.inl (hsk i hi), hdom i hi⟩
    · rw [if_pos hdt]
      exact hK
    · rw [hdt] at h
      cases h
  next hroute =>
    rcases hP with hP | hP
    · exact absurd (fun i hi => (hroutable i hi).mpr (hP i hi)) hroute
    · exact chainBlocking_zero hk hP

end

end OrkDriver.Grouped
