import OrkDriver.F16Stream.Regions

/-!
What `ork_f16_mm_run_stream_chain` computes: where the regions of a batch are what they are to be, the product of every
task with the weight its program reads.
-/

namespace OrkDriver.F16Stream

open OrkDriver.Lib OrkDriver.Npu OrkDriver.Pack OrkDriver.Run OrkDriver.Core

variable {R : Type*} {e : F16Knobs} {S : Nat} {tasks : Nat → MmTaskF16 R} {x : ChainCall R}

/-- The matrix a program of a weight multiplies with. -/
def held (w : F16W R) (y : Nat) : R := orkiF16Wdma w (wIndex 16 w.K (y / w.N) (y % w.N))

/-! ### Staging -/

/-- Slots that are apart hold the activations of their tasks. -/
theorem staged_cell {i : Nat} {progs : List ChainProg} {q : ChainProg} (hq : q ∈ progs)
    (hapart : ∀ q' ∈ progs, q' ≠ q → Apart q'.p.a (q'.p.mc * q'.p.Kp) q.p.a (q.p.mc * q.p.Kp)) {y : Nat}
    (hy : y < q.p.mc * q.p.Kp) : staged x tasks i progs (q.p.a + y) = (tasks q.task).A y := by
  unfold staged
  refine stores.of_mem ⟨(q.p.a + y, (tasks q.task).A y), ?_, rfl⟩ fun w hw hidx => ?_
  · exact List.mem_flatMap.mpr ⟨q, hq, List.mem_map_of_mem (List.mem_range.mpr hy)⟩
  · obtain ⟨q', hq', hw⟩ := List.mem_flatMap.mp hw
    obtain ⟨y', hy', rfl⟩ := List.mem_map.mp hw
    by_cases hqq : q' = q
    · subst hqq
      rw [Nat.add_left_cancel hidx]
    · exact absurd hidx ((hapart q' hq' hqq).ne (List.mem_range.mp hy') hy)

/-! ### The chain -/

variable [NonUnitalNonAssocSemiring R]

/-- A program that reads the slot of its task computes the product. -/
theorem value_eq {i : Nat} {progs : List ChainProg} {q : ChainProg} {K N m n : Nat} (hq : q ∈ progs)
    (hp : ∃ mc a co, q.p = orkiF16Synth mc K N a 0 co) (hm : m < q.p.mc) (hn : n < N)
    (hK : K = (tasks q.task).w.K) (hN : N = (tasks q.task).w.N)
    (hapart : ∀ q' ∈ progs, q' ≠ q → Apart q'.p.a (q'.p.mc * q'.p.Kp) q.p.a (q.p.mc * q.p.Kp)) :
    q.p.value 16 (staged x tasks i progs) (orkiF16Wdma (tasks q.task).w) m n =
      matmul (tasks q.task).A (held (tasks q.task).w) K N m n := by
  unfold Program.value matmul
  obtain ⟨mc, a, co, hp⟩ := hp
  have hKp : q.p.Kp = K := by rw [hp]; rfl
  have hw : q.p.w = 0 := by rw [hp]; rfl
  rw [hKp, hw]
  apply dot_congr
  · intro k hk
    rw [Nat.add_assoc]
    refine staged_cell hq hapart ?_
    rw [hKp]
    exact digits_lt hm hk
  · intro k _
    obtain ⟨hdiv, hmod⟩ := digits_div_mod hn k
    unfold held
    rw [← hN, ← hK, hdiv, hmod, Nat.zero_add]

/-- The last submit of a core that has not failed leaves what its chain writes. -/
theorem scratch_eq {active i : Nat} {progs : List ChainProg} (h : x.failed i = false) :
    ∃ m, scratch x active tasks i progs = runChain x active tasks i progs m := by
  unfold ChainCall.failed at h
  unfold scratch
  obtain ⟨n, hn⟩ : ∃ n, reps (x.warm i) = n + 1 := by
    unfold reps
    split
    · exact ⟨0, rfl⟩
    · exact ⟨1, rfl⟩
  rw [hn, Nat.add_sub_cancel] at h
  rw [hn, List.range_succ, List.foldl_append, List.foldl_cons, List.foldl_nil]
  exact ⟨_, if_pos (by simpa using h)⟩

/-- After one run of a chain whose outputs are apart, the scratch holds those of each of its programs. -/
theorem runChain_cell {active i m n : Nat} {progs : List ChainProg} {q : ChainProg} (hq : q ∈ progs)
    (hmapped : ∀ q ∈ progs, Mapped active (fun k => (tasks k).shape) q)
    (hrow : ∀ q ∈ progs, q.p.stride = q.p.Nc)
    (hapart : ∀ q' ∈ progs, q' ≠ q → Apart q'.p.c (q'.p.mc * q'.p.Nc) q.p.c (q.p.mc * q.p.Nc))
    (hm : m < q.p.mc) (hn : n < q.p.Nc) (mem : Nat → R) :
    runChain x active tasks i progs mem (q.p.c + (m * q.p.Nc + n)) =
      q.p.value 16 (staged x tasks i progs) (orkiF16Wdma (tasks q.task).w) m n := by
  unfold runChain
  rw [if_pos hmapped]
  refine foldl_of_mem (fun mem => mem (q.p.c + (m * q.p.Nc + n))) (T := fun q' => q' = q) ⟨q, hq, rfl⟩ ?_ ?_ mem
  · rintro q' - rfl mem
    have hcell := Program.run_cell 16 (A := staged x tasks i progs) (W := orkiF16Wdma (tasks q'.task).w)
      (hrow q' hq).ge mem hm hn
    rw [hrow q' hq, Nat.add_assoc] at hcell
    exact hcell
  · intro q' hq' hne mem
    apply Program.run_frame
    intro r l hr hl
    rw [hrow q' hq', Nat.add_assoc]
    exact (hapart q' hq' hne).ne (digits_lt hr hl) (digits_lt hm hn)

/-- `ork_f16_mm_run_stream_chain` on a batch that needs no row blocks. -/
theorem streamChain_multiplied {C : Nat → Nat → R}
    (hgood : (chainBatch x.layout S fun k => (tasks k).shape).Good e) (hret : (streamChain x S tasks C).ret = 0) :
    Multiplied S tasks (fun i => held (tasks i).w) (streamChain x S tasks C).C := by
  have hnc := streamCores_pos x.layout.budget S
  have hat := chainProg_at (streamCores x.layout.budget S) (fun k => (tasks k).shape) S
  unfold streamChain at hret ⊢
  dsimp only at hret ⊢
  split at hret
  · change (-1 : Int) = 0 at hret
    exact absurd hret (by decide)
  next hok =>
  rw [if_neg hok]
  dsimp only at hret ⊢
  split at hret
  · exact absurd hret (by decide)
  next hfailed =>
  simp only [not_exists, not_and, Bool.not_eq_true] at hfailed
  intro k hk m hm n hn
  dsimp only
  rw [if_pos hk]
  have hi := Nat.mod_lt k hnc
  generalize hprogs : coreProgs (streamCores x.layout.budget S) S (fun k => (tasks k).shape)
    (k % streamCores x.layout.budget S) = progs
  generalize hqdef : chainProg (streamCores x.layout.budget S) S (fun k => (tasks k).shape)
    (k % streamCores x.layout.budget S) (k / streamCores x.layout.budget S) = q
  have hqat := hqdef.symm.trans (hat k)
  -- the programs of the core are programs of the batch
  have hin : ∀ q' ∈ progs, q' ∈ (chainBatch x.layout S fun k => (tasks k).shape).progs ∧
      q'.core = k % streamCores x.layout.budget S ∧ q'.p.stride = q'.p.Nc := by
    intro q' hq'
    rw [← hprogs] at hq'
    obtain ⟨k', hk', hcore, rfl⟩ := (mem_coreProgs hnc hi).mp hq'
    refine ⟨mem_progs.mpr ⟨k', hk', rfl⟩, ?_, ?_⟩
    · rw [hat]
      exact hcore
    · rw [hat]
      rfl
  have hq : q ∈ progs := by
    rw [← hprogs]
    exact (mem_coreProgs hnc hi).mpr ⟨k, hk, rfl, hqdef.symm⟩
  have hapart : ∀ q' ∈ progs, q' ≠ q → Apart q'.p.a (q'.p.mc * q'.p.Kp) q.p.a (q.p.mc * q.p.Kp) ∧
      Apart q'.p.c (q'.p.mc * q'.p.Nc) q.p.c (q.p.mc * q.p.Nc) := fun q' hq' hne =>
    hgood.apart q' (hin q' hq').1 q (hin q hq).1 hne ((hin q' hq').2.1.trans (hin q hq).2.1.symm)
  obtain ⟨mem, hmem⟩ := scratch_eq (hfailed _ hi)
  have htask : q.task = k := by rw [hqat]
  have hpq : q.p = orkiF16Synth (tasks k).M (tasks k).w.K (tasks k).w.N
      (k / streamCores x.layout.budget S * ((tasks k).M * (tasks k).w.K)) 0
      (k / streamCores x.layout.budget S * ((tasks k).M * (tasks k).w.N)) := by rw [hqat]; rfl
  have hcopy : stores (C k) ((List.range ((tasks k).M * (tasks k).w.N)).map fun y => (y,
      scratch x (tasks 0).domain tasks (k % streamCores x.layout.budget S) progs
        (k / streamCores x.layout.budget S * (tasks k).M * (tasks k).w.N + y))) (m * (tasks k).w.N + n) =
      scratch x (tasks 0).domain tasks (k % streamCores x.layout.budget S) progs
        (k / streamCores x.layout.budget S * (tasks k).M * (tasks k).w.N + (m * (tasks k).w.N + n)) := by
    refine stores.of_mem ⟨_, List.mem_map_of_mem (List.mem_range.mpr (digits_lt hm hn)), rfl⟩ fun w hw hidx => ?_
    obtain ⟨y, -, rfl⟩ := List.mem_map.mp hw
    dsimp only at hidx ⊢
    rw [hidx]
  refine hcopy.trans ?_
  rw [hmem]
  have hcell := runChain_cell (x := x)
    (i := k % streamCores x.layout.budget S) hq (fun q' hq' => hgood.mapped q' (hin q' hq').1)
    (fun q' hq' => (hin q' hq').2.2) (fun q' hq' hne => (hapart q' hq' hne).2) (m := m) (n := n)
    (by rw [hpq]; exact hm) (by rw [hpq]; exact hn) mem
  rw [hpq] at hcell
  rw [Nat.mul_assoc]
  refine hcell.trans ?_
  rw [← hpq]
  have hval := value_eq (x := x) (i := k % streamCores x.layout.budget S) (K := (tasks k).w.K)
    (N := (tasks k).w.N) (m := m) (n := n) hq ⟨_, _, _, hpq⟩ (by rw [hpq]; exact hm) hn (by rw [htask]) (by rw [htask])
    fun q' hq' hne => (hapart q' hq' hne).1
  rw [htask] at hval ⊢
  exact hval

end OrkDriver.F16Stream
