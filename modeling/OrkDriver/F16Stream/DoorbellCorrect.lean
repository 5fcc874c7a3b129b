import OrkDriver.Core.DynFrontier
import OrkDriver.Core.McChainSound
import OrkDriver.F16Stream.ChainExact
import OrkDriver.F16Stream.Doorbell

/-!
What `ork_f16_mm_run_stream` computes: one program for each task, its activations staged behind those of the tasks before
it, and the product in every C once `ork_dyn_end` has seen the last task.
-/

namespace OrkDriver.F16Stream

open OrkDriver.Lib OrkDriver.Npu OrkDriver.Pack OrkDriver.Run OrkDriver.Core

variable {R : Type*} {c : OrkNpu} {e : F16Knobs} {v : McEnv} {S : Nat} {ti : Nat → DynTask R}

/-! ### One task -/

/-- An fp16 task of `ork_dyn_begin_mc`: the weight in one tile. -/
structure F16Op (c : OrkNpu) (t : DynTask R) : Prop where
  dt : t.w.dt = .f16
  Sn : t.w.Sn = 1
  N : t.w.N ≤ c.soc.nmax
  K : t.w.K ≤ 4096
  M : t.M ≤ 64

/-- The program of an fp16 task. -/
def f16Emit (t : DynTask R) : Emit := ⟨0, 0, 0, 0, orkiF16Synth t.M t.w.K t.w.N 0 0 0⟩

theorem nsliceOp_f16 {t : DynTask R} (h : F16Op c t) (direct : Bool) : (nsliceOp c t.w t.M direct).emits = [f16Emit t] := by
  unfold nsliceOp f16Emit
  dsimp only
  rw [h.Sn, List.range_one, List.map_singleton, if_pos h.dt, Nat.zero_mul, pieceLen_of_le h.N]

theorem opEmits_f16 {t : DynTask R} (h : F16Op c t) (direct : Bool) : opEmits c t.w t.M direct = [f16Emit t] := by
  unfold opEmits
  rw [if_neg (Nat.not_lt.mpr h.K), if_neg (Nat.not_lt.mpr h.M)]
  exact nsliceOp_f16 h direct

theorem mcOp_f16 {t : DynTask R} (h : F16Op c t) (direct : Bool) : (mcOp c t direct).emits = [f16Emit t] := by
  unfold mcOp
  rw [if_neg (Nat.not_lt.mpr h.K), if_neg (Nat.not_lt.mpr h.M)]
  exact nsliceOp_f16 h direct

/-! ### Where activations are staged -/

/-- Bytes of activations of a task. -/
def actLen (ti : Nat → DynTask R) (gi : Nat) : Nat := (ti gi).M * (ti gi).w.K * 2

/-- The programs of a core so far have their activations one after another. -/
structure Laid (ti : Nat → DynTask R) (b : McState) : Prop where
  below : ∀ q ∈ b.progs, q.aoff + actLen ti q.gi ≤ b.astage
  order : b.progs.Pairwise fun q q' => q.aoff + actLen ti q.gi ≤ q'.aoff
  even : 2 ∣ b.astage ∧ ∀ q ∈ b.progs, 2 ∣ q.aoff

theorem Laid.buildOp {x : McCtx} {b b' : McState} {gi : Nat} (hf : F16Op c (ti gi)) (h : mcBuildOp c v x ti b gi = some b')
    (hb : Laid ti b) : Laid ti b' := by
  unfold mcBuildOp at h
  dsimp only at h
  rw [if_neg (Nat.not_lt.mpr hf.K), if_neg (Nat.not_lt.mpr hf.M), nsliceOp_f16 hf] at h
  obtain ⟨b1, hb1, rfl⟩ := Option.map_eq_some_iff.mp h
  have hesz : esz (ti gi).w.dt = 2 := by rw [hf.dt]; rfl
  unfold mcPlain at hb1
  dsimp only at hb1
  split at hb1
  · cases hb1
  rw [List.foldlM_cons, hesz] at hb1
  obtain ⟨b2, hb2, hend⟩ := Option.bind_eq_some_iff.mp hb1
  obtain rfl := Option.some.inj hend
  unfold mcEmit at hb2
  split at hb2
  · cases hb2
  obtain rfl := Option.some.inj hb2
  constructor
  case below =>
    intro q hq
    rcases List.mem_append.mp hq with hq | hq
    · exact Nat.le_add_right_of_le (hb.below q hq)
    · obtain rfl := List.mem_singleton.mp hq
      exact Nat.le_refl _
  case order =>
    refine List.pairwise_append.mpr ⟨hb.order, List.pairwise_singleton _ _, fun q hq q' hq' => ?_⟩
    obtain rfl := List.mem_singleton.mp hq'
    exact hb.below q hq
  case even =>
    refine ⟨Nat.dvd_add hb.even.1 (Nat.dvd_mul_left 2 _), fun q hq => ?_⟩
    rcases List.mem_append.mp hq with hq | hq
    · exact hb.even.2 q hq
    · obtain rfl := List.mem_singleton.mp hq
      exact hb.even.1

theorem Laid.build {x : McCtx} {l : List Nat} {b b' : McState} (hf : ∀ gi ∈ l, F16Op c (ti gi))
    (h : l.foldlM (mcBuildOp c v x ti) b = some b') (hb : Laid ti b) : Laid ti b' := by
  induction l generalizing b with
  | nil =>
      obtain rfl := Option.some.inj h
      exact hb
  | cons gi l ih =>
      rw [List.foldlM_cons] at h
      obtain ⟨b1, hb1, hrest⟩ := Option.bind_eq_some_iff.mp h
      exact ih (fun g hg => hf g (List.mem_cons_of_mem _ hg)) hrest (hb.buildOp (hf gi List.mem_cons_self) hb1)

/-- The core of a dispatch as it was built. -/
theorem orkiDynBeginMcChains_core {nc : Int} {H : McChains} (h : orkiDynBeginMcChains c v S ti nc = some H) {i : Nat}
    (hi : i < H.n) : ∃ CC, mcCore c v ti H.direct CC i (coreTask S H.n i) (coreTask S H.n (i + 1)) = some (H.core i) := by
  unfold orkiDynBeginMcChains at h
  split at h
  · cases h
  split at h
  · cases h
  dsimp only at h
  split at h
  · cases h
  generalize (if S < mcCores c nc then S else mcCores c nc) = n at h
  split at h
  · next hcores =>
    obtain rfl := Option.some.inj h
    obtain ⟨k, hk⟩ := Option.isSome_iff_exists.mp (hcores i hi)
    obtain ⟨CC, -, hcore⟩ := Option.bind_eq_some_iff.mp hk
    refine ⟨CC, ?_⟩
    dsimp only
    rw [hk]
    exact hcore
  · cases h

/-- The activations of the programs of a core do not overlap. -/
theorem core_laid {nc : Int} {H : McChains} (hf : ∀ gi < S, F16Op c (ti gi))
    (h : orkiDynBeginMcChains c v S ti nc = some H) {i : Nat} (hi : i < H.n) (hn : 0 < H.n) :
    (H.core i).progs.Pairwise (fun q q' => q.aoff + actLen ti q.gi ≤ q'.aoff) ∧ ∀ q ∈ (H.core i).progs, 2 ∣ q.aoff := by
  obtain ⟨CC, hcore⟩ := orkiDynBeginMcChains_core h hi
  unfold mcCore at hcore
  dsimp only at hcore
  split at hcore
  · cases hcore
  obtain ⟨AF, -, hcore⟩ := Option.bind_eq_some_iff.mp hcore
  obtain ⟨b, hb, heq⟩ := Option.map_eq_some_iff.mp hcore
  have hlast : coreTask S H.n (i + 1) ≤ S := by
    have := coreTask_mono S H.n (Nat.succ_le_of_lt hi)
    rwa [coreTask_last hn] at this
  have hlaid : Laid ti b := Laid.build
    (fun gi hgi => hf gi (Nat.lt_of_lt_of_le (mem_tasksOf.mp hgi).2 hlast)) hb
    ⟨fun q hq => absurd hq List.not_mem_nil, List.Pairwise.nil, dvd_zero 2, fun q hq => absurd hq List.not_mem_nil⟩
  rw [← heq]
  exact ⟨hlaid.order, hlaid.even.2⟩

end OrkDriver.F16Stream
