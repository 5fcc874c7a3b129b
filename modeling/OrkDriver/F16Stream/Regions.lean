import OrkDriver.F16Stream.Blocks
import OrkDriver.F16Stream.Chain

/-!
The regions of `ork_f16_mm_run_stream_chain`: when the slots of a core, each as large as its own task, are apart and inside
buffers that were sized by the first task; and that every task is then computed.
-/

namespace OrkDriver.F16Stream

open OrkDriver.Lib OrkDriver.Npu OrkDriver.Pack OrkDriver.Run OrkDriver.Core

variable {R : Type*} {e : F16Knobs} {nc S : Nat} {t : Nat → Shape} {k k' : Nat}

/-- Two ranges of cells have none in common. -/
def Apart (a n a' n' : Nat) : Prop := a + n ≤ a' ∨ a' + n' ≤ a

theorem Apart.symm {a n a' n' : Nat} (h : Apart a n a' n') : Apart a' n' a n := Or.symm h

theorem Apart.ne {a n a' n' y y' : Nat} (h : Apart a n a' n') (hy : y < n) (hy' : y' < n') : a + y ≠ a' + y' := by
  unfold Apart at h
  omega

/-- What a batch that is issued is to be: one program of legal height for each task, run in the domain of its operands,
with activations and outputs inside the buffers of its core, apart from all others. -/
structure ChainBatch.Good (e : F16Knobs) (b : ChainBatch) : Prop where
  own : ∀ k < b.S, ∃ q ∈ b.progs, q.task = k ∧ ∀ q' ∈ b.progs, q'.task = k → q' = q
  shape : ∀ q ∈ b.progs, (q.p.mc = (b.t q.task).M ∧ q.p.Kp = (b.t q.task).K) ∧ q.p.Nc = (b.t q.task).N
  legal : ∀ q ∈ b.progs, LegalHeight e q.p.Kp q.p.Nc q.p.mc
  mapped : ∀ q ∈ b.progs, Mapped b.active b.t q
  acts : ∀ q ∈ b.progs, (q.p.a + q.p.mc * q.p.Kp) * 2 ≤ b.AF q.core
  outs : ∀ q ∈ b.progs, ∃ bytes ∈ b.CC q.core, (q.p.c + q.p.mc * q.p.Nc) * 4 ≤ bytes
  apart : ∀ q ∈ b.progs, ∀ q' ∈ b.progs, q ≠ q' → q.core = q'.core →
    Apart q.p.a (q.p.mc * q.p.Kp) q'.p.a (q'.p.mc * q'.p.Kp) ∧ Apart q.p.c (q.p.mc * q.p.Nc) q'.p.c (q'.p.mc * q'.p.Nc)

/-- What it takes of the tasks and the buffers: all weights in the domain of the first, and on every core, with the slots of
a task as far apart as the task is large, the slots apart and inside the buffers. -/
structure Fits (L : ChainLayout) (S : Nat) (t : Nat → Shape) : Prop where
  domain : ∀ k < S, (t k).domain = (t 0).domain
  acts : ∀ k < S, (k / streamCores L.budget S + 1) * ((t k).M * (t k).K) * 2 ≤
    actBytes (L.bufs (k % streamCores L.budget S)) (actNeed (streamCores L.budget S) S t)
  outs : ∀ k < S, ∃ bytes ∈ outBytes (L.bufs (k % streamCores L.budget S)) (outNeed (streamCores L.budget S) S t),
    (k / streamCores L.budget S + 1) * ((t k).M * (t k).N) * 4 ≤ bytes
  apart : ∀ k < S, ∀ k' < S, k < k' → k % streamCores L.budget S = k' % streamCores L.budget S →
    Apart (k / streamCores L.budget S * ((t k).M * (t k).K)) ((t k).M * (t k).K)
      (k' / streamCores L.budget S * ((t k').M * (t k').K)) ((t k').M * (t k').K) ∧
    Apart (k / streamCores L.budget S * ((t k).M * (t k).N)) ((t k).M * (t k).N)
      (k' / streamCores L.budget S * ((t k').M * (t k').N)) ((t k').M * (t k').N)

theorem streamCores_pos (budget : Int) (S : Nat) : 0 < streamCores budget S := by
  unfold streamCores
  dsimp only
  generalize (if (S : Int) < _ then (S : Int) else _) = n
  split <;> omega

/-! ### The programs -/

theorem chainProg_at (nc : Nat) (t : Nat → Shape) (S k : Nat) :
    chainProg nc S t (k % nc) (k / nc) =
      { core := k % nc
        slot := k / nc
        next := if k / nc + 1 < owned S nc (k % nc) then some (k / nc + 1) else none
        task := k
        p := orkiF16Synth (t k).M (t k).K (t k).N (k / nc * ((t k).M * (t k).K)) 0 (k / nc * ((t k).M * (t k).N))
        domain := (t (k % nc)).domain } := by
  unfold chainProg
  dsimp only
  rw [Nat.mod_add_div' k nc, Nat.mul_assoc, Nat.mul_assoc]

theorem mem_coreProgs (hnc : 0 < nc) {i : Nat} (hi : i < nc) {q : ChainProg} :
    q ∈ coreProgs nc S t i ↔ ∃ k < S, k % nc = i ∧ q = chainProg nc S t (k % nc) (k / nc) := by
  unfold coreProgs owned
  rw [List.mem_map]
  constructor
  · rintro ⟨p, hp, rfl⟩
    have hlt := (lt_pieces_iff hnc).mp (List.mem_range.mp hp)
    obtain ⟨hdiv, hmod⟩ := digits_div_mod hi p
    rw [Nat.add_comm] at hdiv hmod
    exact ⟨i + p * nc, by omega, hmod, by rw [hdiv, hmod]⟩
  · rintro ⟨k, hk, rfl, rfl⟩
    refine ⟨k / nc, List.mem_range.mpr ((lt_pieces_iff hnc).mpr ?_), rfl⟩
    have := Nat.mod_add_div' k nc
    omega

theorem mem_progs {L : ChainLayout} {q : ChainProg} : q ∈ (chainBatch L S t).progs ↔
    ∃ k < S, q = chainProg (streamCores L.budget S) S t (k % streamCores L.budget S) (k / streamCores L.budget S) := by
  have hnc := streamCores_pos L.budget S
  unfold chainBatch
  simp only [List.mem_flatMap, List.mem_range]
  constructor
  · rintro ⟨i, hi, hq⟩
    obtain ⟨k, hk, -, rfl⟩ := (mem_coreProgs hnc hi).mp hq
    exact ⟨k, hk, rfl⟩
  · rintro ⟨k, hk, rfl⟩
    exact ⟨_, Nat.mod_lt k hnc, (mem_coreProgs hnc (Nat.mod_lt k hnc)).mpr ⟨k, hk, rfl, rfl⟩⟩

/-- A batch of legal heights is as it is to be exactly if it fits. -/
theorem chainBatch_good_iff {L : ChainLayout} (hlegal : ∀ k < S, LegalHeight e (t k).K (t k).N (t k).M) :
    (chainBatch L S t).Good e ↔ Fits L S t := by
  have hat := chainProg_at (streamCores L.budget S) t S
  have hmem : ∀ k < S, chainProg (streamCores L.budget S) S t (k % streamCores L.budget S) (k / streamCores L.budget S) ∈
      (chainBatch L S t).progs := fun k hk => mem_progs.mpr ⟨k, hk, rfl⟩
  constructor
  · intro h
    constructor
    case domain =>
      intro k hk
      have hd := (h.mapped _ (hmem k hk)).2
      rw [hat] at hd
      exact hd
    case acts =>
      intro k hk
      have ha := h.acts _ (hmem k hk)
      rw [hat] at ha
      rw [Nat.succ_mul]
      exact ha
    case outs =>
      intro k hk
      have ho := h.outs _ (hmem k hk)
      rw [hat] at ho
      rw [Nat.succ_mul]
      exact ho
    case apart =>
      intro k hk k' hk' hlt hcore
      have hne : chainProg (streamCores L.budget S) S t (k % streamCores L.budget S) (k / streamCores L.budget S) ≠
          chainProg (streamCores L.budget S) S t (k' % streamCores L.budget S) (k' / streamCores L.budget S) := by
        intro heq
        rw [hat, hat] at heq
        exact Nat.ne_of_lt hlt (congrArg ChainProg.task heq)
      have ha := h.apart _ (hmem k hk) _ (hmem k' hk') hne
      rw [hat, hat] at ha
      exact ha hcore
  · intro h
    constructor
    case own =>
      intro k hk
      refine ⟨_, hmem k hk, by rw [hat], fun q' hq' htask => ?_⟩
      obtain ⟨k', -, rfl⟩ := mem_progs.mp hq'
      rw [hat] at htask
      obtain rfl : k' = k := htask
      rfl
    case shape =>
      intro q hq
      obtain ⟨k, hk, rfl⟩ := mem_progs.mp hq
      rw [hat]
      exact ⟨⟨rfl, rfl⟩, rfl⟩
    case legal =>
      intro q hq
      obtain ⟨k, hk, rfl⟩ := mem_progs.mp hq
      rw [hat]
      exact hlegal k hk
    case mapped =>
      intro q hq
      obtain ⟨k, hk, rfl⟩ := mem_progs.mp hq
      rw [hat]
      exact ⟨h.domain _ (Nat.lt_of_le_of_lt (Nat.mod_le _ _) hk), h.domain k hk⟩
    case acts =>
      intro q hq
      obtain ⟨k, hk, rfl⟩ := mem_progs.mp hq
      have ha := h.acts k hk
      rw [Nat.succ_mul] at ha
      rw [hat]
      exact ha
    case outs =>
      intro q hq
      obtain ⟨k, hk, rfl⟩ := mem_progs.mp hq
      have ho := h.outs k hk
      rw [Nat.succ_mul] at ho
      rw [hat]
      exact ho
    case apart =>
      intro q hq q' hq' hne hcore
      obtain ⟨k, hk, rfl⟩ := mem_progs.mp hq
      obtain ⟨k', hk', rfl⟩ := mem_progs.mp hq'
      rw [hat, hat] at hcore ⊢
      rcases Nat.lt_trichotomy k k' with hlt | rfl | hlt
      · exact h.apart k hk k' hk' hlt hcore
      · exact absurd rfl hne
      · obtain ⟨ha, hc⟩ := h.apart k' hk' k hk hlt hcore.symm
        exact ⟨ha.symm, hc.symm⟩

end OrkDriver.F16Stream
