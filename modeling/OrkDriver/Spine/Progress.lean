import Mathlib.Data.List.Perm.Subperm
import OrkDriver.Spine.Safety

/-!
Progress of `ork_spine_run`: the configurations on which its loop never spins without an op in flight and without one
to dispatch.
-/

namespace OrkDriver.Spine

open Transition

variable {W : Type*} {U : Nat → OrkSpineUnit W} {nu : Nat} {ops : Nat → OrkSpineOp W} {nops : Nat} {idle : W}
variable {s t : State W} {i j u v : Nat}

/-! ### What a configuration can complete -/

/-- The ops that can be brought to an end: there is a unit the placement allows, and for every bit of the dependency
mask an op that can and that sets this bit (`via` names one for each). -/
inductive Completable (U : Nat → OrkSpineUnit W) (nu : Nat) (ops : Nat → OrkSpineOp W) (nops : Nat) : Nat → Prop
  | mk (i u : Nat) (via : Nat → Nat) : i < nops → u < nu → (ops i).placement.Allows (U u).kind →
      (∀ b, (ops i).deps.getLsbD b = true → via b % 32 = b) →
      (∀ b, (ops i).deps.getLsbD b = true → Completable U nu ops nops (via b)) → Completable U nu ops nops i

theorem Completable.lt (h : Completable U nu ops nops i) : i < nops := by
  cases h
  assumption

namespace State

/-- The next pass dispatches an op. -/
def Moves (s : State W) : Prop := ∃ i < s.nops, (s.ops i).state = .pend ∧ (s.pass.ops i).state = .inflight

end State

/-- No run comes to a state with unfinished ops, none in flight, and none that the next pass dispatches. -/
def NeverStuck (U : Nat → OrkSpineUnit W) (nu : Nat) (ops : Nat → OrkSpineOp W) (nops : Nat) : Prop :=
  ∀ s, (spine U nu ops nops).Reachable s → (∃ i < s.nops, (s.ops i).state ≠ .done) →
    (∃ i < s.nops, (s.ops i).state = .inflight) ∨ s.Moves

/-! ### The pass -/

theorem tryDispatch_of_none (h : s.choose i = none) : s.tryDispatch i = s := by
  unfold State.tryDispatch
  rw [h]

theorem tryDispatch_of_some (h : s.choose i = some u) : s.tryDispatch i = s.send i u := by
  unfold State.tryDispatch
  rw [h]

theorem inflight_tryDispatch (h : (s.ops j).state = .inflight) : ((s.tryDispatch i).ops j).state = .inflight := by
  cases hc : s.choose i with
  | none => rw [tryDispatch_of_none hc]; exact h
  | some u =>
      rw [tryDispatch_of_some hc]
      by_cases hj : j = i
      · subst hj
        rw [send_ops_self]
      · rw [send_ops_ne hj]
        exact h

theorem inflight_foldl {l : List Nat} (h : (s.ops j).state = .inflight) :
    ((l.foldl State.tryDispatch s).ops j).state = .inflight := by
  induction l generalizing s with
  | nil => exact h
  | cons i l ih => exact ih (inflight_tryDispatch h)

/-- A pass over ops of which one can be dispatched now dispatches one. -/
theorem foldl_dispatches {l : List Nat} (hi : i ∈ l) (hc : s.choose i ≠ none) :
    ∃ j ∈ l, (s.ops j).state = .pend ∧ ((l.foldl State.tryDispatch s).ops j).state = .inflight := by
  induction l with
  | nil => exact absurd hi List.not_mem_nil
  | cons k l ih =>
      cases hk : s.choose k with
      | some u =>
          refine ⟨k, List.mem_cons_self, (choose_eq_some hk).1, ?_⟩
          rw [List.foldl_cons, tryDispatch_of_some hk]
          apply inflight_foldl
          rw [send_ops_self]
      | none =>
          have hne : i ≠ k := fun h => hc (h ▸ hk)
          obtain ⟨j, hj, hs⟩ := ih ((List.mem_cons.mp hi).resolve_left hne)
          rw [List.foldl_cons, tryDispatch_of_none hk]
          exact ⟨j, List.mem_cons_of_mem _ hj, hs⟩

theorem foldl_none {l : List Nat} (h : ∀ i ∈ l, s.choose i = none) : l.foldl State.tryDispatch s = s := by
  induction l with
  | nil => rfl
  | cons i l ih =>
      rw [List.foldl_cons, tryDispatch_of_none (h i List.mem_cons_self)]
      exact ih fun j hj => h j (List.mem_cons_of_mem _ hj)

theorem moves_iff : s.Moves ↔ ∃ i < s.nops, s.choose i ≠ none := by
  constructor
  · rintro ⟨i, hi, hp, hf⟩
    by_contra hall
    have hnone : ∀ j ∈ List.range s.nops, s.choose j = none := fun j hj =>
      not_not.mp fun hc => hall ⟨j, List.mem_range.mp hj, hc⟩
    unfold State.pass at hf
    rw [foldl_none hnone, hp] at hf
    cases hf
  · rintro ⟨i, hi, hc⟩
    obtain ⟨j, hj, hs⟩ := foldl_dispatches (List.mem_range.mpr hi) hc
    exact ⟨j, List.mem_range.mp hj, hs⟩

/-! ### What a run does not change -/

/-- The configuration of the run, and what has been started of it. -/
structure Configured (U : Nat → OrkSpineUnit W) (nu : Nat) (ops : Nat → OrkSpineOp W) (nops : Nat) (s : State W) :
    Prop where
  kind : ∀ u, (s.units u).kind = (U u).kind
  deps : ∀ i, (s.ops i).deps = (ops i).deps
  placement : ∀ i, (s.ops i).placement = (ops i).placement
  begun : ∀ i < nops, (s.ops i).state ≠ .pend → Completable U nu ops nops i

theorem configured_send (hs : Configured U nu ops nops s) (h : Inv s) (hn : s.nops = nops ∧ s.nu = nu) (hi : i < s.nops)
    (hc : s.choose i = some u) : Configured U nu ops nops (s.send i u) := by
  obtain ⟨-, hdeps, hu, -, hallow⟩ := choose_eq_some hc
  constructor
  case kind =>
    intro v
    by_cases hv : v = u
    · subst hv
      rw [send_units_self]
      exact hs.kind v
    · rw [send_units_ne hv]
      exact hs.kind v
  case deps =>
    intro j
    by_cases hj : j = i
    · subst hj
      rw [send_ops_self]
      exact hs.deps j
    · rw [send_ops_ne hj]
      exact hs.deps j
  case placement =>
    intro j
    by_cases hj : j = i
    · subst hj
      rw [send_ops_self]
      exact hs.placement j
    · rw [send_ops_ne hj]
      exact hs.placement j
  case begun =>
    intro j hj hstate
    by_cases hji : j = i
    · subst hji
      -- each bit of the mask was set by an op that is done, hence begun
      have hset : ∀ b, ∃ k, (ops j).deps.getLsbD b = true → k % 32 = b ∧ Completable U nu ops nops k := by
        intro b
        by_cases hb : (ops j).deps.getLsbD b = true
        · obtain ⟨k, hk, hdone, hbit⟩ := (h.mask b).mp (hdeps b (hs.deps j ▸ hb))
          refine ⟨k, fun _ => ⟨hbit.symm, hs.begun k (hn.1 ▸ hk) ?_⟩⟩
          rw [hdone]
          exact nofun
        · exact ⟨0, fun hb' => absurd hb' hb⟩
      obtain ⟨via, hvia⟩ := Classical.axiom_of_choice hset
      rw [hs.placement, hs.kind] at hallow
      exact .mk j u via hj (hn.2 ▸ hu) hallow (fun b hb => (hvia b hb).1) fun b hb => (hvia b hb).2
    · rw [send_ops_ne hji] at hstate
      exact hs.begun j hj hstate

theorem configured_collect (hs : Configured U nu ops nops s) (h : Inv s) (hu : u < s.nu)
    (hb : (s.units u).busy = true) : Configured U nu ops nops (s.collect u) := by
  have hf := h.busy u hu hb
  constructor
  case kind =>
    intro v
    by_cases hv : v = u
    · subst hv
      rw [collect_units_self]
      exact hs.kind v
    · rw [collect_units_ne hv]
      exact hs.kind v
  case deps =>
    intro j
    by_cases hj : j = (s.units u).op
    · rw [hj, collect_ops_self]
      exact hs.deps _
    · rw [collect_ops_ne hj]
      exact hs.deps j
  case placement =>
    intro j
    by_cases hj : j = (s.units u).op
    · rw [hj, collect_ops_self]
      exact hs.placement _
    · rw [collect_ops_ne hj]
      exact hs.placement j
  case begun =>
    intro j hj hstate
    refine hs.begun j hj ?_
    by_cases hjo : j = (s.units u).op
    · rw [hjo, hf.2.1]
      exact nofun
    · rwa [collect_ops_ne hjo] at hstate

/-- A worker's step does not touch the kind of a unit. -/
theorem kind_take (v : Nat) : ((s.take u).units v).kind = (s.units v).kind := by
  by_cases hv : v = u
  · subst hv
    rw [take_units_self]
    rfl
  · rw [worked_take.rest v hv]

theorem kind_finish {r : Int} (v : Nat) : ((s.finish u r).units v).kind = (s.units v).kind := by
  by_cases hv : v = u
  · subst hv
    rw [finish_units_self]
    unfold OrkSpineUnit.finish
    split <;> rfl
  · exact congrArg OrkSpineUnit.kind (Function.update_of_ne hv _ _)

theorem configured_next {a : Act} (hs : Configured U nu ops nops s) (h : Held s) (hn : s.nops = nops ∧ s.nu = nu) :
    Configured U nu ops nops (next s a) := by
  cases a with
  | take u => exact ⟨fun v => (kind_take v).trans (hs.kind v), hs.deps, hs.placement, hs.begun⟩
  | finish u r => exact ⟨fun v => (kind_finish v).trans (hs.kind v), hs.deps, hs.placement, hs.begun⟩
  | sched =>
      change Configured U nu ops nops s.sched
      unfold State.sched
      split
      · exact ⟨hs.kind, hs.deps, hs.placement, hs.begun⟩
      · next i _ =>
        split
        · next hi =>
          have ht : Configured U nu ops nops (s.tryDispatch i) := by
            cases hc : s.choose i with
            | none => rw [tryDispatch_of_none hc]; exact hs
            | some u => rw [tryDispatch_of_some hc]; exact configured_send hs h.toInv hn hi hc
          exact ⟨ht.kind, ht.deps, ht.placement, ht.begun⟩
        · exact ⟨hs.kind, hs.deps, hs.placement, hs.begun⟩
      · split
        · split
          · exact ⟨hs.kind, hs.deps, hs.placement, hs.begun⟩
          · exact ⟨hs.kind, hs.deps, hs.placement, hs.begun⟩
        · exact ⟨hs.kind, hs.deps, hs.placement, hs.begun⟩
      · next u hpc =>
        obtain ⟨hu, hb, -⟩ := h.scanned u hpc
        have ht := configured_collect hs h.toInv hu hb
        exact ⟨ht.kind, ht.deps, ht.placement, ht.begun⟩
      · exact hs

theorem configured_of_reachable (hU : ∀ u < nu, (U u).Started idle) (h : (spine U nu ops nops).Reachable s) :
    Configured U nu ops nops s := by
  refine System.ReachableOn.invariant (I := fun s => Configured U nu ops nops s) (fun s hs => ?_)
    (fun s a t hr hs _ hstep => ?_) h
  · change orkSpineRun U nu ops nops = some s at hs
    unfold orkSpineRun at hs
    split at hs
    · cases hs
      exact ⟨fun _ => rfl, fun _ => rfl, fun _ => rfl, fun _ _ hp => absurd rfl hp⟩
    · cases hs
  · obtain ⟨-, rfl⟩ := hstep
    exact configured_next hs (held_of_reachable hU hr) (nops_of_reachable hr)

/-! ### Where everything can be completed, no run is stuck -/

theorem neverStuck_of_completable (hU : ∀ u < nu, (U u).Started idle) (hall : ∀ i < nops, Completable U nu ops nops i) :
    NeverStuck U nu ops nops := by
  intro s hr ⟨i, hi, hundone⟩
  have h := held_of_reachable hU hr
  have hcfg := configured_of_reachable hU hr
  obtain ⟨hnops, hnu⟩ := nops_of_reachable hr
  by_cases hidle : ∃ i < s.nops, (s.ops i).state = .inflight
  · exact Or.inl hidle
  right
  rw [moves_iff]
  by_contra hnone
  have hfree : ∀ u < s.nu, (s.units u).busy = false := fun u hu => by
    cases hb : (s.units u).busy with
    | false => rfl
    | true => exact absurd ⟨_, (h.busy u hu hb).1, (h.busy u hu hb).2.1⟩ hidle
  have hdone : ∀ i, Completable U nu ops nops i → (s.ops i).state = .done := by
    intro i hi
    induction hi with
    | mk i u via hlt hu hallow hbit hcomp ih =>
        rw [← hnops] at hlt
        rw [← hnu] at hu
        cases hstate : (s.ops i).state with
        | done => rfl
        | inflight => exact absurd ⟨i, hlt, hstate⟩ hidle
        | pend =>
            have hdeps : ∀ b, (s.ops i).deps.getLsbD b = true → s.doneMask.getLsbD b = true := fun b hb => by
              rw [hcfg.deps] at hb
              exact (h.mask b).mpr ⟨via b, hnops ▸ (hcomp b hb).lt, ih b hb, (hbit b hb).symm⟩
            rw [← hcfg.placement, ← hcfg.kind] at hallow
            have := choose_isSome hstate hdeps hu (hfree u hu) hallow
            exact absurd ⟨i, hlt, Option.isSome_iff_ne_none.mp this⟩ hnone
  exact hundone (hdone i (hall i (hnops ▸ hi)))

/-! ### Where no run is stuck, everything is completed -/

/-- Position of a program point in one round of the loop. -/
def Pc.pos (nops : Nat) : Pc → Nat
  | .test => 0
  | .dispatch i => 1 + i
  | .poll u => 2 + nops + u
  | .collect u => 2 + nops + u
  | .returned => 0

/-- The scans stop at the ends of the arrays. -/
structure Bounded (s : State W) : Prop where
  dispatch : ∀ i, s.pc = .dispatch i → i ≤ s.nops
  poll : ∀ u, s.pc = .poll u → u ≤ s.nu

theorem bounded_sched (h : Held s) (hb : Bounded s) : Bounded s.sched := by
  unfold State.sched
  split
  · by_cases hlt : s.ndone < s.nops
    · rw [if_pos hlt]
      exact ⟨fun i hi => by cases hi; exact Nat.zero_le _, nofun⟩
    · rw [if_neg hlt]
      exact ⟨nofun, nofun⟩
  · next i _ =>
    split
    · next hi =>
      refine ⟨fun j hj => ?_, nofun⟩
      cases hj
      unfold State.tryDispatch
      split <;> exact hi
    · exact ⟨nofun, fun u hu => by cases hu; exact Nat.zero_le _⟩
  · next u _ =>
    split
    · next hu =>
      split
      · exact ⟨nofun, nofun⟩
      · exact ⟨nofun, fun v hv => by cases hv; exact hu⟩
    · exact ⟨nofun, nofun⟩
  · next u hpc => exact ⟨nofun, fun v hv => by cases hv; exact (h.scanned u hpc).1⟩
  · exact hb

theorem bounded_of_reachable (hU : ∀ u < nu, (U u).Started idle) (h : (spine U nu ops nops).Reachable s) :
    Bounded s := by
  refine System.ReachableOn.invariant (I := fun s => Bounded s) (fun s hs => ?_) (fun s a t hr hs _ hstep => ?_) h
  · have hpc := pc_orkSpineRun hs
    constructor
    · intro i hi
      rw [hpc] at hi
      cases hi
    · intro u hu
      rw [hpc] at hu
      cases hu
  · obtain ⟨-, rfl⟩ := hstep
    cases a with
    | sched => exact bounded_sched (held_of_reachable hU hr) hs
    | take u => exact ⟨hs.dispatch, hs.poll⟩
    | finish u r => exact ⟨hs.dispatch, hs.poll⟩

namespace State

/-- Dispatches and completions still to come. -/
def togo (s : State W) : Nat := 2 * s.nops - (s.sent.length + s.ndone)

end State

theorem Inv.counts (h : Inv s) : s.sent.length ≤ s.nops ∧ s.ndone ≤ s.nops := by
  constructor
  · have hsub : s.sent.map Sent.op ⊆ List.range s.nops := fun i hi => by
      obtain ⟨d, hd, rfl⟩ := List.mem_map.mp hi
      exact List.mem_range.mpr (h.sent d hd).1
    have := (List.subperm_of_subset h.once hsub).length_le
    rwa [List.length_map, List.length_range] at this
  · rw [h.ndone]
    exact Nat.le_trans List.countP_le_length (Nat.le_of_eq List.length_range)

theorem togo_send (h : Inv (s.send i u)) : (s.send i u).togo < s.togo := by
  have h1 : s.sent.length + 1 ≤ s.nops := h.counts.1
  have h2 : s.ndone ≤ s.nops := h.counts.2
  change 2 * s.nops - (s.sent.length + 1 + s.ndone) < 2 * s.nops - (s.sent.length + s.ndone)
  omega

theorem togo_collect (h : Inv (s.collect u)) : (s.collect u).togo < s.togo := by
  have h1 : s.sent.length ≤ s.nops := h.counts.1
  have h2 : s.ndone + 1 ≤ s.nops := h.counts.2
  change 2 * s.nops - (s.sent.length + (s.ndone + 1)) < 2 * s.nops - (s.sent.length + s.ndone)
  omega

section Reach

variable (hU : ∀ u < nu, (U u).Started idle)

/-- A state that is reached and has come nearer, or has reached `p` with nothing changed. -/
def Nears (U : Nat → OrkSpineUnit W) (nu : Nat) (ops : Nat → OrkSpineOp W) (nops : Nat) (s : State W) (p : Pc) : Prop :=
  ∃ t, (spine U nu ops nops).Reachable t ∧ (t.togo < s.togo ∨ t = { s with pc := p })

theorem reachable_sched (hr : (spine U nu ops nops).Reachable s) (hp : s.pc ≠ .returned) :
    (spine U nu ops nops).Reachable s.sched := .step (e := .sched) hr trivial ⟨hp, rfl⟩

include hU

/-- The scheduler at a dispatch that succeeds. -/
theorem nears_of_choose (hr : (spine U nu ops nops).Reachable s) (hpc : s.pc = .dispatch i) (hi : i < s.nops)
    (hc : s.choose i = some u) : ∃ t, (spine U nu ops nops).Reachable t ∧ t.togo < s.togo := by
  have hs : s.sched = { s.send i u with pc := .dispatch (i + 1) } := by
    unfold State.sched
    rw [hpc]
    dsimp only
    rw [if_pos hi, tryDispatch_of_some hc]
  refine ⟨s.sched, reachable_sched hr (by rw [hpc]; exact nofun), ?_⟩
  rw [hs]
  exact togo_send (inv_send (held_of_reachable hU hr).toInv hi hc)

/-- The scheduler at the collection of a finished unit. -/
theorem nears_of_collect (hr : (spine U nu ops nops).Reachable s) (hpc : s.pc = .collect u) :
    ∃ t, (spine U nu ops nops).Reachable t ∧ t.togo < s.togo := by
  have hs : s.sched = { s.collect u with pc := .poll (u + 1) } := by
    unfold State.sched
    rw [hpc]
  have h := held_of_reachable hU hr
  obtain ⟨hu, hb, hd⟩ := h.scanned u hpc
  refine ⟨s.sched, reachable_sched hr (by rw [hpc]; exact nofun), ?_⟩
  rw [hs]
  exact togo_collect (inv_collect h.toInv hu hb hd)

/-- The scheduler at a unit that has finished. -/
theorem nears_of_polled (hr : (spine U nu ops nops).Reachable s) (hpc : s.pc = .poll u) (hu : u < s.nu)
    (hp : ((s.units u).busy && (s.units u).orkSpineUnitPoll (s.ops (s.units u).op).gen) = true) :
    ∃ t, (spine U nu ops nops).Reachable t ∧ t.togo < s.togo := by
  have hs : s.sched = { s with pc := .collect u } := by
    unfold State.sched
    rw [hpc]
    dsimp only
    rw [if_pos hu, if_pos hp]
  have hr' := reachable_sched hr (by rw [hpc]; exact nofun)
  rw [hs] at hr'
  have hnear := nears_of_collect hU hr' rfl
  exact hnear

/-- One step of a scan: it comes nearer, or nothing but the position changes. -/
theorem sched_moves (hr : (spine U nu ops nops).Reachable s) (hlt : s.ndone < s.nops) (hend : s.pc ≠ .poll s.nu) :
    (∃ t, (spine U nu ops nops).Reachable t ∧ t.togo < s.togo) ∨
      ∃ q, (spine U nu ops nops).Reachable { s with pc := q } ∧ q.pos s.nops = s.pc.pos s.nops + 1 := by
  have h := held_of_reachable hU hr
  have hb := bounded_of_reachable hU hr
  have hp : s.pc ≠ .returned := fun hret => Nat.not_lt.mpr (h.finished hret) hlt
  have hr' := reachable_sched hr hp
  unfold State.sched at hr'
  cases hpc : s.pc with
  | test =>
      rw [hpc] at hr'
      dsimp only at hr'
      rw [if_pos hlt] at hr'
      exact Or.inr ⟨_, hr', rfl⟩
  | dispatch i =>
      rw [hpc] at hr'
      dsimp only at hr'
      by_cases hi : i < s.nops
      · rw [if_pos hi] at hr'
        cases hc : s.choose i with
        | some u => exact Or.inl (nears_of_choose hU hr hpc hi hc)
        | none =>
            rw [tryDispatch_of_none hc] at hr'
            exact Or.inr ⟨_, hr', rfl⟩
      · rw [if_neg hi] at hr'
        have hle := hb.dispatch i hpc
        refine Or.inr ⟨_, hr', ?_⟩
        simp only [Pc.pos]
        omega
  | poll u =>
      have hu : u < s.nu := Nat.lt_of_le_of_ne (hb.poll u hpc) fun heq => hend (heq ▸ hpc)
      rw [hpc] at hr'
      dsimp only at hr'
      rw [if_pos hu] at hr'
      by_cases hpoll : ((s.units u).busy && (s.units u).orkSpineUnitPoll (s.ops (s.units u).op).gen) = true
      · exact Or.inl (nears_of_polled hU hr hpc hu hpoll)
      · rw [if_neg hpoll] at hr'
        exact Or.inr ⟨_, hr', rfl⟩
  | collect u => exact Or.inl (nears_of_collect hU hr hpc)
  | returned => exact absurd hpc hp

/-- Forward in a round. -/
theorem nears_ahead {p : Pc} (hr : (spine U nu ops nops).Reachable s) (hlt : s.ndone < s.nops)
    (hp : (∃ i, p = .dispatch i ∧ i ≤ s.nops) ∨ ∃ u, p = .poll u ∧ u ≤ s.nu) (hle : s.pc.pos s.nops ≤ p.pos s.nops) :
    Nears U nu ops nops s p := by
  induction hn : p.pos s.nops - s.pc.pos s.nops generalizing s with
  | zero =>
      have hb := bounded_of_reachable hU hr
      cases hpc : s.pc with
      | collect u =>
          obtain ⟨t, ht, hnear⟩ := nears_of_collect hU hr hpc
          exact ⟨t, ht, Or.inl hnear⟩
      | returned => exact absurd hlt (Nat.not_lt.mpr ((held_of_reachable hU hr).finished hpc))
      | test =>
          rw [hpc] at hn
          rcases hp with ⟨i, rfl, hi⟩ | ⟨u, rfl, hu⟩
          · simp only [Pc.pos] at hn
            omega
          · simp only [Pc.pos] at hn
            omega
      | dispatch j =>
          have hj := hb.dispatch j hpc
          rw [hpc] at hn hle
          rcases hp with ⟨i, rfl, hi⟩ | ⟨u, rfl, hu⟩
          · simp only [Pc.pos] at hn hle
            obtain rfl : j = i := by omega
            exact ⟨s, hr, Or.inr (by rw [← hpc])⟩
          · simp only [Pc.pos] at hn
            omega
      | poll v =>
          have hv := hb.poll v hpc
          rw [hpc] at hn hle
          rcases hp with ⟨i, rfl, hi⟩ | ⟨u, rfl, hu⟩
          · simp only [Pc.pos] at hle
            omega
          · simp only [Pc.pos] at hn hle
            obtain rfl : v = u := by omega
            exact ⟨s, hr, Or.inr (by rw [← hpc])⟩
  | succ n ih =>
      have hend : s.pc ≠ .poll s.nu := fun heq => by
        rw [heq] at hn
        rcases hp with ⟨i, rfl, hi⟩ | ⟨u, rfl, hu⟩
        · simp only [Pc.pos] at hn
          omega
        · simp only [Pc.pos] at hn
          omega
      rcases sched_moves hU hr hlt hend with ⟨t, ht, hnear⟩ | ⟨q, hq, hpos⟩
      · exact ⟨t, ht, Or.inl hnear⟩
      · have hnear := ih hq hlt hp (show q.pos s.nops ≤ p.pos s.nops by omega)
          (show p.pos s.nops - q.pos s.nops = n by omega)
        exact hnear

/-- From anywhere, by way of the loop's test. -/
theorem nears {p : Pc} (hr : (spine U nu ops nops).Reachable s) (hlt : s.ndone < s.nops)
    (hp : (∃ i, p = .dispatch i ∧ i ≤ s.nops) ∨ ∃ u, p = .poll u ∧ u ≤ s.nu) : Nears U nu ops nops s p := by
  have hle : s.pc.pos s.nops ≤ (Pc.poll s.nu).pos s.nops := by
    have hb := bounded_of_reachable hU hr
    cases hpc : s.pc with
    | test => exact Nat.zero_le _
    | returned => exact Nat.zero_le _
    | dispatch i =>
        have := hb.dispatch i hpc
        simp only [Pc.pos]
        omega
    | poll u =>
        have := hb.poll u hpc
        simp only [Pc.pos]
        omega
    | collect u =>
        have := ((held_of_reachable hU hr).scanned u hpc).1
        simp only [Pc.pos]
        omega
  obtain ⟨t, ht, hnear | rfl⟩ := nears_ahead hU hr hlt (Or.inr ⟨s.nu, rfl, Nat.le_refl _⟩) hle
  · exact ⟨t, ht, Or.inl hnear⟩
  · have ht' := reachable_sched ht nofun
    rw [show State.sched { s with pc := .poll s.nu } = { s with pc := .test } from if_neg (Nat.lt_irrefl _)] at ht'
    have hnear := nears_ahead hU ht' hlt hp (Nat.zero_le _)
    exact hnear

/-- The worker of unit `u` is let run until it has done everything it was given. -/
theorem exists_idle (hr : (spine U nu ops nops).Reachable s) (hu : u < s.nu) :
    ∃ t, (spine U nu ops nops).Reachable t ∧ Worked s t u ∧ (t.units u).doneGen = (t.units u).gen := by
  -- a worker that waits takes the latest call and returns from it
  have hwait : ∀ s, (spine U nu ops nops).Reachable s → u < s.nu → (s.units u).worker = .waiting →
      ∃ t, (spine U nu ops nops).Reachable t ∧ Worked s t u ∧ (t.units u).doneGen = (t.units u).gen := by
    intro s hr hu hw
    by_cases hdone : (s.units u).gen = (s.units u).doneGen
    · exact ⟨s, hr, .refl s u, hdone.symm⟩
    · have hr1 : (spine U nu ops nops).Reachable (s.take u) :=
        .step (e := .take u) hr trivial ⟨⟨hu, by rw [hw]; rfl, hdone⟩, rfl⟩
      have hrun : ((s.take u).units u).worker = .running (s.units u).work (s.units u).gen := by
        rw [take_units_self]
        rfl
      refine ⟨(s.take u).finish u 0, .step (e := .finish u 0) hr1 trivial ⟨⟨hu, by rw [hrun]; rfl⟩, rfl⟩,
        worked_take.trans (worked_finish (held_of_reachable hU hr1).toInv hu hrun 0), ?_⟩
      rw [(finish_of_running hrun 0).1, take_units_self]
      rfl
  cases hw : (s.units u).worker with
  | waiting => exact hwait s hr hu hw
  | running work g =>
      have hr1 : (spine U nu ops nops).Reachable (s.finish u 0) :=
        .step (e := .finish u 0) hr trivial ⟨⟨hu, by rw [hw]; rfl⟩, rfl⟩
      obtain ⟨t, ht, hworked, hdone⟩ := hwait _ hr1 hu (by rw [(finish_of_running hw 0).1])
      exact ⟨t, ht, (worked_finish (held_of_reachable hU hr).toInv hu hw 0).trans hworked, hdone⟩

/-- While nothing is stuck, every unfinished state leads on. -/
theorem exists_nearer (hstuck : NeverStuck U nu ops nops) (hr : (spine U nu ops nops).Reachable s)
    (hlt : s.ndone < s.nops) : ∃ t, (spine U nu ops nops).Reachable t ∧ t.togo < s.togo := by
  have h := held_of_reachable hU hr
  have hopen : ∃ i < s.nops, (s.ops i).state ≠ .done := by
    by_contra hall
    have hcount : (List.range s.nops).countP (fun i => (s.ops i).state == .done) = (List.range s.nops).length := by
      apply List.countP_eq_length.mpr
      intro i hi
      rw [beq_iff_eq]
      exact not_not.mp fun hne => hall ⟨i, List.mem_range.mp hi, hne⟩
    rw [← h.ndone, List.length_range] at hcount
    exact Nat.ne_of_lt hlt hcount
  rcases hstuck s hr hopen with ⟨i, hi, hfl⟩ | hmoves
  · obtain ⟨u, hat, on⟩ := h.inflight i hi hfl
    obtain ⟨s1, hr1, k, hdone⟩ := exists_idle hU hr on.lt
    obtain ⟨hnu, hnops, hops, hsent, -, hndone, -⟩ := k.loop
    have htogo : s1.togo = s.togo := by
      unfold State.togo
      rw [hnops, hsent, hndone]
    obtain ⟨t, ht, hnear | rfl⟩ := nears hU hr1 (by rw [hndone, hnops]; exact hlt)
      (Or.inr ⟨u, rfl, by rw [hnu]; exact Nat.le_of_lt on.lt⟩)
    · exact ⟨t, ht, htogo ▸ hnear⟩
    · obtain ⟨hgen, hbusy, hop, -⟩ := k.fields u
      have hpoll : ((s1.units u).busy && (s1.units u).orkSpineUnitPoll (s1.ops (s1.units u).op).gen) = true := by
        rw [hbusy, on.busy, hop, on.op, hops, on.gen, ← hgen, ← hdone]
        exact decide_eq_true (Nat.le_refl _)
      have hnear := nears_of_polled hU ht rfl (hnu ▸ on.lt) hpoll
      obtain ⟨t', ht', hlt'⟩ := hnear
      exact ⟨t', ht', htogo ▸ hlt'⟩
  · obtain ⟨i, hi, hc⟩ := moves_iff.mp hmoves
    obtain ⟨t, ht, hnear | rfl⟩ := nears hU hr hlt (Or.inl ⟨i, rfl, Nat.le_of_lt hi⟩)
    · exact ⟨t, ht, hnear⟩
    · obtain ⟨v, hv⟩ := Option.ne_none_iff_exists'.mp hc
      have hnear := nears_of_choose hU ht rfl hi hv
      exact hnear

theorem completable_of_neverStuck (hacc : Accepts U nu ops nops) (hstuck : NeverStuck U nu ops nops) :
    ∀ i < nops, Completable U nu ops nops i := by
  obtain ⟨s, hr, hs⟩ := System.exists_goal (R := (spine U nu ops nops).Reachable) (G := fun s => s.nops ≤ s.ndone)
    State.togo (fun s hr hg => exists_nearer hU hstuck hr (Nat.lt_of_not_le hg)) (.init (if_pos hacc))
  intro i hi
  have hdone := (held_of_reachable hU hr).toInv.all_done hs ((nops_of_reachable hr).1 ▸ hi)
  refine (configured_of_reachable hU hr).begun i hi ?_
  rw [hdone]
  exact nofun

end Reach

/-- On a configuration `ork_spine_run` takes, no run is stuck if and only if every op can be completed: there is a
unit for it, and its dependencies are ops of the list that can be completed in turn. -/
theorem orkSpineRun_neverStuck_iff (hU : ∀ u < nu, (U u).Started idle) (hacc : Accepts U nu ops nops) :
    NeverStuck U nu ops nops ↔ ∀ i < nops, Completable U nu ops nops i :=
  ⟨completable_of_neverStuck hU hacc, neverStuck_of_completable hU⟩

/-- The test's graph never gets stuck. -/
theorem orkSpineRun_neverStuck_graph : NeverStuck graphUnits 2 graphOps 4 := by
  refine (orkSpineRun_neverStuck_iff (fun u _ => .start _) (by decide)).mpr ?_
  have hnone : ∀ b : Nat, ¬ (0 : BitVec 32).getLsbD b = true := fun b hb => by
    change (0#32).getLsbD b = true at hb
    rw [BitVec.getLsbD_zero] at hb
    cases hb
  have h0 : Completable graphUnits 2 graphOps 4 0 :=
    .mk 0 0 id (by decide) (by decide) rfl (fun b hb => absurd hb (hnone b)) fun b hb => absurd hb (hnone b)
  have h1 : Completable graphUnits 2 graphOps 4 1 :=
    .mk 1 1 id (by decide) (by decide) rfl (fun b hb => absurd hb (hnone b)) fun b hb => absurd hb (hnone b)
  have hbit : ∀ i b : Nat, i < 32 → (opBit i).getLsbD b = true → b = i := fun i b hi hb =>
    (getLsbD_opBit.mp hb).trans (Nat.mod_eq_of_lt hi)
  have h2 : Completable graphUnits 2 graphOps 4 2 :=
    .mk 2 1 (fun _ => 0) (by decide) (by decide) rfl (fun b hb => (hbit 0 b (by decide) hb).symm) fun b _ => h0
  have h3 : Completable graphUnits 2 graphOps 4 3 :=
    .mk 3 0 (fun _ => 1) (by decide) (by decide) rfl (fun b hb => (hbit 1 b (by decide) hb).symm) fun b _ => h1
  intro i hi
  match i, hi with
  | 0, _ => exact h0
  | 1, _ => exact h1
  | 2, _ => exact h2
  | 3, _ => exact h3

/-- One NPU unit and one op that wants a CPU unit: the configuration is taken, and the first pass, like every later
one, dispatches nothing. -/
theorem orkSpineRun_stuck : Accepts (fun _ => OrkSpineUnit.orkSpineUnitStart 0 .npu) 1
    (fun _ => (⟨0, .cpu, 0, .pend, none, 0, 0⟩ : OrkSpineOp Nat)) 1 ∧
    ¬ NeverStuck (fun _ => OrkSpineUnit.orkSpineUnitStart 0 .npu) 1
      (fun _ => (⟨0, .cpu, 0, .pend, none, 0, 0⟩ : OrkSpineOp Nat)) 1 := by
  refine ⟨by decide, fun h => ?_⟩
  rcases h ⟨1, 1, fun _ => .orkSpineUnitStart 0 .npu, fun _ => ⟨0, .cpu, 0, .pend, none, 0, 0⟩, 0, 0, .test, [], []⟩
    (.init (if_pos (by decide))) ⟨0, by decide, by decide⟩ with ⟨i, -, hi⟩ | ⟨i, hi, -, hmove⟩
  · cases hi
  · obtain rfl := Nat.lt_one_iff.mp hi
    exact absurd hmove (by decide)

end OrkDriver.Spine
