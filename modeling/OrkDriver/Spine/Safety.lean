import OrkDriver.Spine.Dispatcher

/-!
Safety of `ork_spine_run`: what the op states, the units' bookkeeping, the generation counters and the mask have to
do with one another in every interleaving, and what that says about each dispatch and about the values returned.
-/

namespace OrkDriver.Spine

open Transition

variable {W : Type*} {U : Nat → OrkSpineUnit W} {nu : Nat} {ops : Nat → OrkSpineOp W} {nops : Nat} {idle : W}
variable {s t : State W} {i j u v : Nat}

/-! ### Units between calls -/

/-- The counters of a unit: nothing is done that was not dispatched, and the call in progress is not done. -/
structure OrkSpineUnit.Ordered (u : OrkSpineUnit W) : Prop where
  done_le : u.doneGen ≤ u.gen
  running : ∀ work g, u.worker = .running work g → u.doneGen < g ∧ g ≤ u.gen

theorem OrkSpineUnit.Ordered.take {x : OrkSpineUnit W} (h : x.Ordered) (hne : x.gen ≠ x.doneGen) : x.take.Ordered := by
  refine ⟨h.done_le, fun work g hw => ?_⟩
  cases hw
  exact ⟨Nat.lt_of_le_of_ne h.done_le hne.symm, Nat.le_refl _⟩

theorem OrkSpineUnit.Ordered.finish {x : OrkSpineUnit W} (h : x.Ordered) (r : Int) : (x.finish r).Ordered := by
  unfold OrkSpineUnit.finish
  split
  · exact h
  · next work g hw =>
    exact ⟨(h.running work g hw).2, fun work' g' hw' => by cases hw'⟩

theorem OrkSpineUnit.Ordered.dispatch {x : OrkSpineUnit W} (h : x.Ordered) (work : W) :
    (x.orkSpineUnitDispatch work).Ordered := by
  refine ⟨Nat.le_succ_of_le h.done_le, fun w g hw => ?_⟩
  have := h.running w g hw
  exact ⟨this.1, Nat.le_succ_of_le this.2⟩

theorem OrkSpineUnit.Started.ordered {x : OrkSpineUnit W} (h : x.Started idle) : x.Ordered := by
  induction h with
  | start kind => exact ⟨Nat.le_refl 0, fun _ _ hw => by cases hw⟩
  | dispatch work _ ih => exact ih.dispatch work
  | take _ _ hne ih => exact ih.take hne
  | finish r _ ih => exact ih.finish r
  | book busy op _ ih => exact ⟨ih.done_le, ih.running⟩

/-! ### The invariant -/

namespace State

/-- Op `i` has been dispatched on unit `u` and not been collected yet. -/
def InFlight (s : State W) (i u : Nat) : Prop := i < s.nops ∧ (s.ops i).state = .inflight ∧ (s.ops i).unit = some u

/-- Op `i` was dispatched, the call made for that dispatch returned, and what it returned is in the op. -/
def Ran (s : State W) (i : Nat) : Prop :=
  ∃ u, ⟨i, u, (s.ops i).gen⟩ ∈ s.sent ∧ ⟨u, (s.ops i).gen, (s.ops i).work, (s.ops i).ret⟩ ∈ s.calls

end State

/-- What the state of op `i` says about the unit it is on. -/
structure OnUnit (s : State W) (i u : Nat) : Prop where
  lt : u < s.nu
  busy : (s.units u).busy = true
  op : (s.units u).op = i
  gen : (s.ops i).gen = (s.units u).gen
  work : (s.units u).work = (s.ops i).work
  sent : ⟨i, u, (s.ops i).gen⟩ ∈ s.sent
  running : ∀ work g, (s.units u).worker = .running work g → g = (s.units u).gen → work = (s.units u).work
  called : (s.units u).doneGen = (s.units u).gen →
    ⟨u, (s.units u).gen, (s.units u).work, (s.units u).ret⟩ ∈ s.calls

/-- The invariant without the program point. -/
structure Inv (s : State W) : Prop where
  ordered : ∀ u < s.nu, (s.units u).Ordered
  pend : ∀ i < s.nops, (s.ops i).state = .pend → ∀ d ∈ s.sent, d.op ≠ i
  inflight : ∀ i < s.nops, (s.ops i).state = .inflight → ∃ u, (s.ops i).unit = some u ∧ OnUnit s i u
  ran : ∀ i < s.nops, (s.ops i).state = .done → s.Ran i
  busy : ∀ u < s.nu, (s.units u).busy = true → s.InFlight (s.units u).op u
  sent : ∀ d ∈ s.sent, d.op < s.nops ∧ d.unit < s.nu ∧ d.gen ≤ (s.units d.unit).gen ∧ (s.ops d.op).gen = d.gen ∧
    (s.ops d.op).unit = some d.unit
  once : (s.sent.map Sent.op).Nodup
  calls : ∀ c ∈ s.calls, c.unit < s.nu ∧ c.gen ≤ (s.units c.unit).doneGen
  distinct : s.calls.Pairwise fun c c' => c.unit = c'.unit → c.gen ≠ c'.gen
  mask : ∀ b, s.doneMask.getLsbD b = true ↔ ∃ i < s.nops, (s.ops i).state = .done ∧ b = i % 32
  ndone : s.ndone = (List.range s.nops).countP fun i => (s.ops i).state == .done

theorem inv_start (hU : ∀ u < nu, (U u).Started idle) (h : orkSpineRun U nu ops nops = some s) : Inv s := by
  unfold orkSpineRun at h
  split at h
  · cases h
    exact {
      ordered := fun u hu => ⟨(hU u hu).ordered.done_le, (hU u hu).ordered.running⟩
      pend := fun i _ _ d hd => absurd hd List.not_mem_nil
      inflight := fun i _ hi => by cases hi
      ran := fun i _ hi => by cases hi
      busy := fun u _ hb => by cases hb
      sent := fun d hd => absurd hd List.not_mem_nil
      once := List.nodup_nil
      calls := fun c hc => absurd hc List.not_mem_nil
      distinct := List.Pairwise.nil
      mask := fun b => by
        change (0#32).getLsbD b = true ↔ _
        rw [BitVec.getLsbD_zero]
        exact ⟨nofun, fun ⟨_, _, hdone, _⟩ => nomatch hdone⟩
      ndone := (List.countP_eq_zero.mpr fun i _ => Bool.false_ne_true).symm }
  · cases h

/-- Only the program point moves. -/
theorem Inv.moveTo (h : Inv s) (p : Pc) : Inv { s with pc := p } :=
  { h with
    inflight := fun i hi hs => by
      obtain ⟨u, hu, on⟩ := h.inflight i hi hs
      exact ⟨u, hu, { on with }⟩ }

theorem Inv.onUnit (h : Inv s) (hf : s.InFlight i u) : OnUnit s i u := by
  obtain ⟨v, hv, on⟩ := h.inflight i hf.1 hf.2.1
  obtain rfl : v = u := Option.some.inj (hv.symm.trans hf.2.2)
  exact on

/-- An op in flight is on one unit, a unit has one op in flight. -/
theorem Inv.inFlight_inj (h : Inv s) (hi : s.InFlight i u) (hj : s.InFlight j u) : i = j :=
  (h.onUnit hi).op.symm.trans (h.onUnit hj).op

/-! ### Dispatch -/

theorem send_units_ne (hv : v ≠ u) : (s.send i u).units v = s.units v := Function.update_of_ne hv _ _

theorem send_units_self : (s.send i u).units u =
    { (s.units u).orkSpineUnitDispatch (s.ops i).work with busy := true, op := i } := Function.update_self _ _ _

theorem send_ops_ne (hj : j ≠ i) : (s.send i u).ops j = s.ops j := Function.update_of_ne hj _ _

theorem send_ops_self : (s.send i u).ops i =
    { s.ops i with gen := (s.units u).gen + 1, state := .inflight, unit := some u } := Function.update_self _ _ _

theorem send_done_iff (hc : s.choose i = some u) : ((s.send i u).ops j).state = .done ↔ (s.ops j).state = .done := by
  by_cases hj : j = i
  · subst hj
    rw [send_ops_self, (choose_eq_some hc).1]
    exact ⟨nofun, nofun⟩
  · rw [send_ops_ne hj]

/-- What is in flight elsewhere stays where it is. -/
theorem onUnit_send (hc : s.choose i = some u) (hj : j ≠ i) (on : OnUnit s j v) : OnUnit (s.send i u) j v := by
  have hv : v ≠ u := fun hvu => by
    have := on.busy
    rw [hvu, (choose_eq_some hc).2.2.2.1] at this
    cases this
  constructor
  · exact on.lt
  · rw [send_units_ne hv]; exact on.busy
  · rw [send_units_ne hv]; exact on.op
  · rw [send_units_ne hv, send_ops_ne hj]; exact on.gen
  · rw [send_units_ne hv, send_ops_ne hj]; exact on.work
  · rw [send_ops_ne hj]; exact List.mem_cons_of_mem _ on.sent
  · rw [send_units_ne hv]; exact on.running
  · rw [send_units_ne hv]; exact on.called

/-- The op just sent. -/
theorem onUnit_sent (h : Inv s) (hc : s.choose i = some u) : OnUnit (s.send i u) i u := by
  obtain ⟨-, -, hu, -, -⟩ := choose_eq_some hc
  have hord := h.ordered u hu
  constructor
  · exact hu
  · rw [send_units_self]
  · rw [send_units_self]
  · rw [send_units_self, send_ops_self]; rfl
  · rw [send_units_self, send_ops_self]; rfl
  · rw [send_ops_self]; exact List.mem_cons_self
  · intro work g hw hg
    rw [send_units_self] at hw hg
    have hle := (hord.running work g hw).2
    rw [hg] at hle
    exact absurd hle (Nat.not_succ_le_self _)
  · intro hd
    rw [send_units_self] at hd
    have hle := hord.done_le
    rw [show (s.units u).doneGen = (s.units u).gen + 1 from hd] at hle
    exact absurd hle (Nat.not_succ_le_self _)

theorem inv_send (h : Inv s) (hi : i < s.nops) (hc : s.choose i = some u) : Inv (s.send i u) := by
  obtain ⟨hpend, -, hu, hfree, -⟩ := choose_eq_some hc
  constructor
  case ordered =>
    intro v hv
    by_cases hvu : v = u
    · subst hvu
      rw [send_units_self]
      exact ⟨((h.ordered v hv).dispatch (s.ops i).work).done_le, ((h.ordered v hv).dispatch (s.ops i).work).running⟩
    · rw [send_units_ne hvu]
      exact h.ordered v hv
  case pend =>
    intro j hj hs d hd
    have hji : j ≠ i := fun hji => by
      rw [hji, send_ops_self] at hs
      cases hs
    rw [send_ops_ne hji] at hs
    rcases List.mem_cons.mp hd with rfl | hd
    · exact hji.symm
    · exact h.pend j hj hs d hd
  case inflight =>
    intro j hj hs
    by_cases hji : j = i
    · subst hji
      exact ⟨u, by rw [send_ops_self], onUnit_sent h hc⟩
    · rw [send_ops_ne hji] at hs ⊢
      obtain ⟨v, hv, on⟩ := h.inflight j hj hs
      exact ⟨v, hv, onUnit_send hc hji on⟩
  case ran =>
    intro j hj hs
    have hji : j ≠ i := fun hji => by
      rw [hji, send_ops_self] at hs
      cases hs
    rw [send_ops_ne hji] at hs
    obtain ⟨v, hsent, hcall⟩ := h.ran j hj hs
    refine ⟨v, ?_, ?_⟩
    · rw [send_ops_ne hji]
      exact List.mem_cons_of_mem _ hsent
    · rw [send_ops_ne hji]
      exact hcall
  case busy =>
    intro v hv hb
    by_cases hvu : v = u
    · subst hvu
      rw [send_units_self]
      exact ⟨hi, by rw [send_ops_self], by rw [send_ops_self]⟩
    · rw [send_units_ne hvu] at hb ⊢
      have hf := h.busy v hv hb
      have hne : (s.units v).op ≠ i := fun heq => by
        have := hf.2.1
        rw [heq, hpend] at this
        cases this
      refine ⟨hf.1, ?_, ?_⟩
      · rw [send_ops_ne hne]; exact hf.2.1
      · rw [send_ops_ne hne]; exact hf.2.2
  case sent =>
    intro d hd
    rcases List.mem_cons.mp hd with rfl | hd
    · refine ⟨hi, hu, ?_, ?_, ?_⟩
      · rw [send_units_self]; exact Nat.le_refl _
      · rw [send_ops_self]
      · rw [send_ops_self]
    · obtain ⟨hop, hunit, hgen, hogen, hounit⟩ := h.sent d hd
      have hne : d.op ≠ i := h.pend i hi hpend d hd
      rw [send_ops_ne hne]
      refine ⟨hop, hunit, ?_, hogen, hounit⟩
      by_cases hdu : d.unit = u
      · rw [hdu, send_units_self]
        rw [hdu] at hgen
        exact Nat.le_succ_of_le hgen
      · rw [send_units_ne hdu]
        exact hgen
  case once =>
    refine List.nodup_cons.mpr ⟨fun hmem => ?_, h.once⟩
    obtain ⟨d, hd, hop⟩ := List.mem_map.mp hmem
    exact h.pend i hi hpend d hd hop
  case calls =>
    intro c hcall
    obtain ⟨hunit, hgen⟩ := h.calls c hcall
    refine ⟨hunit, ?_⟩
    by_cases hcu : c.unit = u
    · rw [hcu, send_units_self]
      rwa [hcu] at hgen
    · rwa [send_units_ne hcu]
  case distinct => exact h.distinct
  case mask =>
    intro b
    refine (h.mask b).trans (exists_congr fun j => and_congr_right fun _ => and_congr_left fun _ => ?_)
    exact (send_done_iff hc).symm
  case ndone =>
    refine h.ndone.trans (List.countP_congr fun j _ => ?_)
    rw [beq_iff_eq, beq_iff_eq]
    exact (send_done_iff hc).symm

/-! ### Collecting -/

theorem countP_range_update {p q : Nat → Bool} {n : Nat} (hi : i < n) (hp : p i = false) (hq : q i = true)
    (hne : ∀ j, j ≠ i → q j = p j) : (List.range n).countP q = (List.range n).countP p + 1 := by
  induction n with
  | zero => exact absurd hi (Nat.not_lt_zero i)
  | succ n ih =>
      rw [List.range_succ, List.countP_append, List.countP_append, List.countP_singleton, List.countP_singleton]
      rcases Nat.lt_succ_iff_lt_or_eq.mp hi with hlt | heq
      · rw [ih hlt, hne n (Nat.ne_of_gt hlt)]
        omega
      · subst heq
        rw [hp, hq, List.countP_congr fun j hj => by rw [hne j (Nat.ne_of_lt (List.mem_range.mp hj))]]
        rfl

theorem collect_ops_ne (hj : j ≠ (s.units u).op) : (s.collect u).ops j = s.ops j := Function.update_of_ne hj _ _

theorem collect_ops_self : (s.collect u).ops (s.units u).op =
    { s.ops (s.units u).op with ret := (s.units u).ret, state := .done } := Function.update_self _ _ _

theorem collect_units_ne (hv : v ≠ u) : (s.collect u).units v = s.units v := Function.update_of_ne hv _ _

theorem collect_units_self : (s.collect u).units u = { s.units u with busy := false } := Function.update_self _ _ _

theorem onUnit_collect (hj : j ≠ (s.units u).op) (on : OnUnit s j v) : OnUnit (s.collect u) j v := by
  have hv : v ≠ u := fun hvu => hj (by rw [← hvu, on.op])
  constructor
  · exact on.lt
  · rw [collect_units_ne hv]; exact on.busy
  · rw [collect_units_ne hv]; exact on.op
  · rw [collect_units_ne hv, collect_ops_ne hj]; exact on.gen
  · rw [collect_units_ne hv, collect_ops_ne hj]; exact on.work
  · rw [collect_ops_ne hj]; exact on.sent
  · rw [collect_units_ne hv]; exact on.running
  · rw [collect_units_ne hv]; exact on.called

/-- The value read off the unit is that of the op's own call. -/
theorem ran_collect (h : Inv s) (hu : u < s.nu) (hb : (s.units u).busy = true)
    (hd : (s.ops (s.units u).op).gen ≤ (s.units u).doneGen) : (s.collect u).Ran (s.units u).op := by
  have on := h.onUnit (h.busy u hu hb)
  have hgen : (s.units u).doneGen = (s.units u).gen :=
    Nat.le_antisymm (h.ordered u hu).done_le (on.gen ▸ hd)
  refine ⟨u, ?_, ?_⟩
  · rw [collect_ops_self]
    exact on.sent
  · rw [collect_ops_self]
    have := on.called hgen
    rwa [← on.gen, on.work] at this

theorem inv_collect (h : Inv s) (hu : u < s.nu) (hb : (s.units u).busy = true)
    (hd : (s.ops (s.units u).op).gen ≤ (s.units u).doneGen) : Inv (s.collect u) := by
  have hf := h.busy u hu hb
  constructor
  case ordered =>
    intro v hv
    by_cases hvu : v = u
    · subst hvu
      rw [collect_units_self]
      exact ⟨(h.ordered v hv).done_le, (h.ordered v hv).running⟩
    · rw [collect_units_ne hvu]
      exact h.ordered v hv
  case pend =>
    intro j hj hs
    have hne : j ≠ (s.units u).op := fun heq => by
      rw [heq, collect_ops_self] at hs
      cases hs
    rw [collect_ops_ne hne] at hs
    exact h.pend j hj hs
  case inflight =>
    intro j hj hs
    have hne : j ≠ (s.units u).op := fun heq => by
      rw [heq, collect_ops_self] at hs
      cases hs
    rw [collect_ops_ne hne] at hs ⊢
    obtain ⟨v, hv, on⟩ := h.inflight j hj hs
    exact ⟨v, hv, onUnit_collect hne on⟩
  case ran =>
    intro j hj hs
    by_cases hne : j = (s.units u).op
    · subst hne
      exact ran_collect h hu hb hd
    · rw [collect_ops_ne hne] at hs
      obtain ⟨v, hsent, hcall⟩ := h.ran j hj hs
      refine ⟨v, ?_, ?_⟩
      · rw [collect_ops_ne hne]
        exact hsent
      · rw [collect_ops_ne hne]
        exact hcall
  case busy =>
    intro v hv hbv
    have hvu : v ≠ u := fun hvu => by
      rw [hvu, collect_units_self] at hbv
      cases hbv
    rw [collect_units_ne hvu] at hbv ⊢
    have hfv := h.busy v hv hbv
    have hne : (s.units v).op ≠ (s.units u).op := fun heq => by
      have := hfv.2.2
      rw [heq] at this
      exact hvu (Option.some.inj (this.symm.trans hf.2.2))
    refine ⟨hfv.1, ?_, ?_⟩
    · rw [collect_ops_ne hne]; exact hfv.2.1
    · rw [collect_ops_ne hne]; exact hfv.2.2
  case sent =>
    intro d hmem
    obtain ⟨hop, hunit, hgen, hogen, hounit⟩ := h.sent d hmem
    refine ⟨hop, hunit, ?_, ?_, ?_⟩
    · by_cases hdu : d.unit = u
      · rw [hdu, collect_units_self]
        rwa [hdu] at hgen
      · rwa [collect_units_ne hdu]
    · by_cases hne : d.op = (s.units u).op
      · rw [hne, collect_ops_self, ← hogen, hne]
      · rwa [collect_ops_ne hne]
    · by_cases hne : d.op = (s.units u).op
      · rw [hne, collect_ops_self, ← hounit, hne]
      · rwa [collect_ops_ne hne]
  case once => exact h.once
  case calls =>
    intro c hc
    obtain ⟨hunit, hgen⟩ := h.calls c hc
    refine ⟨hunit, ?_⟩
    by_cases hcu : c.unit = u
    · rw [hcu, collect_units_self]
      rwa [hcu] at hgen
    · rwa [collect_units_ne hcu]
  case distinct => exact h.distinct
  case mask =>
    intro b
    rw [show (s.collect u).doneMask = s.doneMask ||| opBit (s.units u).op from rfl, BitVec.getLsbD_or, Bool.or_eq_true,
      getLsbD_opBit, h.mask b]
    constructor
    · rintro (⟨j, hj, hs, hbit⟩ | hbit)
      · refine ⟨j, hj, ?_, hbit⟩
        by_cases hne : j = (s.units u).op
        · rw [hne, collect_ops_self]
        · rwa [collect_ops_ne hne]
      · exact ⟨_, hf.1, by rw [collect_ops_self], hbit⟩
    · rintro ⟨j, hj, hs, hbit⟩
      by_cases hne : j = (s.units u).op
      · exact Or.inr (hne ▸ hbit)
      · rw [collect_ops_ne hne] at hs
        exact Or.inl ⟨j, hj, hs, hbit⟩
  case ndone =>
    refine (congrArg (· + 1) h.ndone).trans (countP_range_update hf.1 ?_ ?_ fun j hj => ?_).symm
    · rw [hf.2.1]
      rfl
    · rw [collect_ops_self]
      rfl
    · rw [collect_ops_ne hj]

/-! ### The workers -/

/-- What a step of the worker of unit `u` leaves alone. -/
structure Worked (s t : State W) (u : Nat) : Prop where
  rest : ∀ v, v ≠ u → t.units v = s.units v
  gen : (t.units u).gen = (s.units u).gen
  work : (t.units u).work = (s.units u).work
  busy : (t.units u).busy = (s.units u).busy
  op : (t.units u).op = (s.units u).op
  done : (s.units u).doneGen ≤ (t.units u).doneGen
  loop : t.nu = s.nu ∧ t.nops = s.nops ∧ t.ops = s.ops ∧ t.sent = s.sent ∧ t.doneMask = s.doneMask ∧
    t.ndone = s.ndone ∧ t.pc = s.pc
  calls : ∀ c ∈ s.calls, c ∈ t.calls

/-- The fields the scheduler works with, of every unit. -/
theorem Worked.fields (k : Worked s t u) (v : Nat) : (t.units v).gen = (s.units v).gen ∧
    (t.units v).busy = (s.units v).busy ∧ (t.units v).op = (s.units v).op ∧
    (s.units v).doneGen ≤ (t.units v).doneGen := by
  by_cases hv : v = u
  · subst hv
    exact ⟨k.gen, k.busy, k.op, k.done⟩
  · rw [k.rest v hv]
    exact ⟨rfl, rfl, rfl, Nat.le_refl _⟩

theorem Worked.refl (s : State W) (u : Nat) : Worked s s u :=
  ⟨fun _ _ => rfl, rfl, rfl, rfl, rfl, Nat.le_refl _, ⟨rfl, rfl, rfl, rfl, rfl, rfl, rfl⟩, fun _ hc => hc⟩

theorem Worked.trans {r : State W} (k : Worked s t u) (l : Worked t r u) : Worked s r u := by
  obtain ⟨h1, h2, h3, h4, h5, h6, h7⟩ := k.loop
  obtain ⟨l1, l2, l3, l4, l5, l6, l7⟩ := l.loop
  constructor
  case rest => exact fun v hv => (l.rest v hv).trans (k.rest v hv)
  case gen => exact l.gen.trans k.gen
  case work => exact l.work.trans k.work
  case busy => exact l.busy.trans k.busy
  case op => exact l.op.trans k.op
  case done => exact Nat.le_trans k.done l.done
  case loop =>
    exact ⟨l1.trans h1, l2.trans h2, l3.trans h3, l4.trans h4, l5.trans h5, l6.trans h6, l7.trans h7⟩
  case calls => exact fun c hc => l.calls c (k.calls c hc)

theorem Worked.inv (k : Worked s t u) (h : Inv s) (hord : (t.units u).Ordered)
    (hunit : ∀ i, OnUnit s i u → OnUnit t i u)
    (hcalls : ∀ c ∈ t.calls, c.unit < t.nu ∧ c.gen ≤ (t.units c.unit).doneGen)
    (hdistinct : t.calls.Pairwise fun c c' => c.unit = c'.unit → c.gen ≠ c'.gen) : Inv t := by
  obtain ⟨hnu, hnops, hops, hsent, hmask, hndone, -⟩ := k.loop
  constructor
  case ordered =>
    intro v hv
    by_cases hvu : v = u
    · exact hvu ▸ hord
    · rw [k.rest v hvu]
      exact h.ordered v (hnu ▸ hv)
  case pend =>
    rw [hnops, hops, hsent]
    exact h.pend
  case inflight =>
    intro i hi hs
    rw [hnops] at hi
    rw [hops] at hs ⊢
    obtain ⟨v, hv, on⟩ := h.inflight i hi hs
    refine ⟨v, hv, ?_⟩
    by_cases hvu : v = u
    · subst hvu
      exact hunit i on
    · constructor
      · exact hnu ▸ on.lt
      · rw [k.rest v hvu]; exact on.busy
      · rw [k.rest v hvu]; exact on.op
      · rw [k.rest v hvu, hops]; exact on.gen
      · rw [k.rest v hvu, hops]; exact on.work
      · rw [hops, hsent]; exact on.sent
      · rw [k.rest v hvu]; exact on.running
      · rw [k.rest v hvu]; exact fun hd => k.calls _ (on.called hd)
  case ran =>
    intro i hi hs
    rw [hnops] at hi
    rw [hops] at hs
    obtain ⟨v, hmem, hcall⟩ := h.ran i hi hs
    refine ⟨v, ?_, ?_⟩
    · rw [hops, hsent]; exact hmem
    · rw [hops]; exact k.calls _ hcall
  case busy =>
    intro v hv hb
    obtain ⟨-, hbusy, hop, -⟩ := k.fields v
    rw [hbusy] at hb
    obtain ⟨hlt, hstate, hat⟩ := h.busy v (hnu ▸ hv) hb
    rw [hop]
    refine ⟨hnops ▸ hlt, ?_, ?_⟩
    · rw [hops]; exact hstate
    · rw [hops]; exact hat
  case sent =>
    intro d hd
    rw [hsent] at hd
    rw [hnops, hnu, hops, (k.fields d.unit).1]
    exact h.sent d hd
  case once => exact hsent ▸ h.once
  case calls => exact hcalls
  case distinct => exact hdistinct
  case mask =>
    rw [hmask, hnops, hops]
    exact h.mask
  case ndone =>
    rw [hndone, hnops, hops]
    exact h.ndone

theorem take_units_self : (s.take u).units u = (s.units u).take := Function.update_self _ _ _

theorem finish_units_self {r : Int} : (s.finish u r).units u = (s.units u).finish r := Function.update_self _ _ _

theorem worked_take : Worked s (s.take u) u := by
  constructor
  case rest => exact fun v hv => Function.update_of_ne hv _ _
  case loop => exact ⟨rfl, rfl, rfl, rfl, rfl, rfl, rfl⟩
  case calls => exact fun c hc => hc
  case done =>
    rw [take_units_self]
    exact Nat.le_refl _
  all_goals
    rw [take_units_self]
    rfl

theorem inv_take (h : Inv s) (hu : u < s.nu) (hne : (s.units u).gen ≠ (s.units u).doneGen) : Inv (s.take u) := by
  refine worked_take.inv h ?_ (fun i on => ?_) (fun c hc => ?_) h.distinct
  · rw [take_units_self]
    exact (h.ordered u hu).take hne
  · constructor
    case running =>
      intro work g hw _
      rw [take_units_self] at hw ⊢
      cases hw
      rfl
    case called =>
      rw [take_units_self]
      exact on.called
    case lt => exact on.lt
    case sent => exact on.sent
    case busy => rw [take_units_self]; exact on.busy
    case op => rw [take_units_self]; exact on.op
    case gen => rw [take_units_self]; exact on.gen
    case work => rw [take_units_self]; exact on.work
  · obtain ⟨hunit, hgen⟩ := h.calls c hc
    exact ⟨hunit, Nat.le_trans hgen (worked_take.fields c.unit).2.2.2⟩

/-- The worker comes back from the call of generation `g`. -/
theorem finish_of_running {work : W} {g : Nat} (hw : (s.units u).worker = .running work g) (r : Int) :
    (s.finish u r).units u = { s.units u with ret := r, doneGen := g, worker := .waiting } ∧
      (s.finish u r).calls = ⟨u, g, work, r⟩ :: s.calls := by
  constructor
  · rw [finish_units_self]
    unfold OrkSpineUnit.finish
    rw [hw]
  · unfold State.finish
    dsimp only
    rw [hw]

theorem worked_finish (h : Inv s) (hu : u < s.nu) {work : W} {g : Nat} (hw : (s.units u).worker = .running work g)
    (r : Int) : Worked s (s.finish u r) u := by
  obtain ⟨hself, hcalls⟩ := finish_of_running hw r
  constructor
  case rest => exact fun v hv => Function.update_of_ne hv _ _
  case loop => exact ⟨rfl, rfl, rfl, rfl, rfl, rfl, rfl⟩
  case calls =>
    intro c hc
    rw [hcalls]
    exact List.mem_cons_of_mem _ hc
  case done =>
    rw [hself]
    exact Nat.le_of_lt ((h.ordered u hu).running work g hw).1
  all_goals rw [hself]

theorem inv_finish (h : Inv s) (hu : u < s.nu) {work : W} {g : Nat} (hw : (s.units u).worker = .running work g)
    (r : Int) : Inv (s.finish u r) := by
  obtain ⟨hself, hcalls⟩ := finish_of_running hw r
  obtain ⟨hlt, hle⟩ := (h.ordered u hu).running work g hw
  have k := worked_finish h hu hw r
  refine k.inv h ?_ (fun i on => ?_) (fun c hc => ?_) ?_
  · rw [finish_units_self]
    exact (h.ordered u hu).finish r
  · constructor
    case running =>
      intro w' g' hw' _
      rw [hself] at hw'
      cases hw'
    case called =>
      intro hd
      rw [hself] at hd ⊢
      dsimp only at hd ⊢
      rw [hcalls, ← on.running work g hw hd, ← hd]
      exact List.mem_cons_self
    case lt => exact on.lt
    case sent => exact on.sent
    case busy => rw [hself]; exact on.busy
    case op => rw [hself]; exact on.op
    case gen => rw [hself]; exact on.gen
    case work => rw [hself]; exact on.work
  · rw [hcalls] at hc
    rcases List.mem_cons.mp hc with rfl | hc
    · exact ⟨hu, Nat.le_of_eq (congrArg (fun x => x.doneGen) hself).symm⟩
    · obtain ⟨hunit, hgen⟩ := h.calls c hc
      exact ⟨hunit, Nat.le_trans hgen (k.fields c.unit).2.2.2⟩
  · rw [hcalls]
    refine List.pairwise_cons.mpr ⟨fun c hc hunit hgen => ?_, h.distinct⟩
    have := (h.calls c hc).2
    rw [← hunit, ← hgen] at this
    exact absurd hlt (Nat.not_lt.mpr this)

/-! ### Runs -/

namespace State

/-- The next step of the scheduler sends op `i` to unit `u`. -/
def Dispatches (s : State W) (i u : Nat) : Prop := s.pc = .dispatch i ∧ i < s.nops ∧ s.choose i = some u

end State

/-- The invariant of a run: what is about to be collected has been polled, and the loop is left with all ops done. -/
structure Held (s : State W) : Prop extends Inv s where
  scanned : ∀ u, s.pc = .collect u → u < s.nu ∧ (s.units u).busy = true ∧
    (s.ops (s.units u).op).gen ≤ (s.units u).doneGen
  finished : s.pc = .returned → s.nops ≤ s.ndone

theorem Inv.tryDispatch (h : Inv s) (hi : i < s.nops) : Inv (s.tryDispatch i) := by
  unfold State.tryDispatch
  split
  · exact h
  · next u hc => exact inv_send h hi hc

theorem Inv.held (h : Inv s) (hs : ∀ u, s.pc ≠ .collect u) (hf : s.pc ≠ .returned) : Held s :=
  ⟨h, fun u hpc => absurd hpc (hs u), fun hpc => absurd hpc hf⟩

theorem held_sched (h : Held s) (hne : s.pc ≠ .returned) : Held s.sched := by
  have hinv := h.toInv
  unfold State.sched
  split
  · by_cases hlt : s.ndone < s.nops
    · rw [if_pos hlt]
      exact (hinv.moveTo _).held nofun nofun
    · rw [if_neg hlt]
      exact ⟨hinv.moveTo _, nofun, fun _ => Nat.le_of_not_lt hlt⟩
  · next i _ =>
    split
    · next hi => exact ((hinv.tryDispatch hi).moveTo _).held nofun nofun
    · exact (hinv.moveTo _).held nofun nofun
  · next u _ =>
    split
    · next hu =>
      split
      · next hp =>
        rw [Bool.and_eq_true] at hp
        refine ⟨hinv.moveTo _, fun v hv => ?_, nofun⟩
        cases hv
        exact ⟨hu, hp.1, of_decide_eq_true hp.2⟩
      · exact (hinv.moveTo _).held nofun nofun
    · exact (hinv.moveTo _).held nofun nofun
  · next u hpc =>
    obtain ⟨hu, hb, hd⟩ := h.scanned u hpc
    exact ((inv_collect hinv hu hb hd).moveTo _).held nofun nofun
  · next hpc => exact absurd hpc hne

/-- A worker's step leaves a polled unit polled. -/
theorem Held.worked (h : Held s) (k : Worked s t u) (ht : Inv t) : Held t := by
  obtain ⟨hnu, hnops, hops, -, -, hndone, hpc⟩ := k.loop
  refine ⟨ht, fun v hv => ?_, fun hr => ?_⟩
  · obtain ⟨hlt, hb, hd⟩ := h.scanned v (hpc ▸ hv)
    obtain ⟨-, hbusy, hop, hdone⟩ := k.fields v
    rw [hnu, hbusy, hop, hops]
    exact ⟨hlt, hb, Nat.le_trans hd hdone⟩
  · rw [hnops, hndone]
    exact h.finished (hpc ▸ hr)

theorem held_next {a : Act} (h : Held s) (ha : Enabled s a) : Held (next s a) := by
  cases a with
  | sched => exact held_sched h ha
  | take u => exact h.worked worked_take (inv_take h.toInv ha.1 ha.2.2)
  | finish u r =>
      obtain ⟨hu, hrun⟩ := ha
      cases hw : (s.units u).worker with
      | waiting =>
          rw [hw] at hrun
          cases hrun
      | running work g => exact h.worked (worked_finish h.toInv hu hw r) (inv_finish h.toInv hu hw r)

theorem pc_orkSpineRun (h : orkSpineRun U nu ops nops = some s) : s.pc = .test := by
  unfold orkSpineRun at h
  split at h
  · cases h
    rfl
  · cases h

theorem held_of_reachable (hU : ∀ u < nu, (U u).Started idle) (h : (spine U nu ops nops).Reachable s) : Held s := by
  refine System.ReachableOn.invariant (fun s hs => ?_) (fun s a t _ hs _ hstep => ?_) h
  · have hpc := pc_orkSpineRun hs
    refine (inv_start hU hs).held (fun u hu => ?_) fun hr => ?_
    · rw [hpc] at hu
      cases hu
    · rw [hpc] at hr
      cases hr
  · obtain ⟨ha, rfl⟩ := hstep
    exact held_next hs ha

/-- All ops are done when the count says so. -/
theorem Inv.all_done (h : Inv s) (hn : s.nops ≤ s.ndone) (hi : i < s.nops) : (s.ops i).state = .done := by
  have hall : (List.range s.nops).countP (fun i => (s.ops i).state == .done) = (List.range s.nops).length := by
    apply Nat.le_antisymm List.countP_le_length
    rw [List.length_range, ← h.ndone]
    exact hn
  exact beq_iff_eq.mp (List.countP_eq_length.mp hall i (List.mem_range.mpr hi))

/-- What was sent to a unit that is free has run. -/
theorem Inv.ran_of_free (h : Inv s) (hb : (s.units u).busy = false) {d : Sent} (hd : d ∈ s.sent) (hu : d.unit = u) :
    s.Ran d.op := by
  obtain ⟨hop, -, -, -, hunit⟩ := h.sent d hd
  cases hs : (s.ops d.op).state with
  | pend => exact absurd rfl (h.pend d.op hop hs d hd)
  | inflight =>
      have on := h.onUnit ⟨hop, hs, hunit⟩
      rw [← hu, on.busy] at hb
      cases hb
  | done => exact h.ran d.op hop hs

/-- The safety of a state of the scheduler. -/
structure Safe (s : State W) : Prop where
  /-- No op is dispatched twice. -/
  once : (s.sent.map Sent.op).Nodup
  /-- A dispatch is the op's first, its dependencies are done and have run, and it goes to a free unit of a kind
  its placement allows, everything sent there before having run. -/
  dispatch : ∀ i u, s.Dispatches i u → (∀ d ∈ s.sent, d.op ≠ i) ∧
    (∀ j, (s.ops i).deps.getLsbD j = true → j < s.nops ∧ (s.ops j).state = .done ∧ s.Ran j) ∧
    u < s.nu ∧ (s.ops i).placement.Allows (s.units u).kind ∧ (∀ j, ¬ s.InFlight j u) ∧
    ∀ d ∈ s.sent, d.unit = u → s.Ran d.op
  /-- At most one op is in flight on a unit. -/
  single : ∀ i j u, s.InFlight i u → s.InFlight j u → i = j
  /-- A generation of a unit is one call, so that its value is that of one op. -/
  distinct : s.calls.Pairwise fun c c' => c.unit = c'.unit → c.gen ≠ c'.gen
  /-- On return every op has run, and its `ret` is what its call returned. -/
  returned : s.pc = .returned → ∀ i < s.nops, (s.ops i).state = .done ∧ s.Ran i

theorem Held.safe (h : Held s) (hn : s.nops ≤ 32) : Safe s := by
  refine ⟨h.once, fun i u ⟨_, hi, hc⟩ => ?_, fun i j u => h.inFlight_inj, h.distinct, fun hpc i hi => ?_⟩
  · obtain ⟨hpend, hdeps, hu, hfree, hallow⟩ := choose_eq_some hc
    refine ⟨h.pend i hi hpend, fun j hj => ?_, hu, hallow, fun j hf => ?_, fun d hd => h.ran_of_free hfree hd⟩
    · obtain ⟨k, hk, hdone, hbit⟩ := (h.mask j).mp (hdeps j hj)
      rw [Nat.mod_eq_of_lt (Nat.lt_of_lt_of_le hk hn)] at hbit
      subst hbit
      exact ⟨hk, hdone, h.ran j hk hdone⟩
    · have := (h.onUnit hf).busy
      rw [hfree] at this
      cases this
  · have hdone := h.all_done (h.finished hpc) hi
    exact ⟨hdone, h.ran i hi hdone⟩

theorem nops_of_reachable (h : (spine U nu ops nops).Reachable s) : s.nops = nops ∧ s.nu = nu := by
  refine System.ReachableOn.invariant (I := fun s => s.nops = nops ∧ s.nu = nu) (fun s hs => ?_) (fun s a t _ hs _ hstep => ?_) h
  · change orkSpineRun U nu ops nops = some s at hs
    unfold orkSpineRun at hs
    split at hs
    · cases hs
      exact ⟨rfl, rfl⟩
    · cases hs
  · obtain ⟨-, rfl⟩ := hstep
    cases a with
    | take u => exact hs
    | finish u r => exact hs
    | sched =>
        change s.sched.nops = nops ∧ s.sched.nu = nu
        unfold State.sched State.tryDispatch
        repeat' split
        all_goals exact hs

/-- One NPU unit and one CPU unit, just started. -/
def graphUnits (u : Nat) : OrkSpineUnit Nat := .orkSpineUnitStart 0 (if u = 0 then .npu else .cpu)

/-- Two independent ops, a bridge behind the first, a second matmul behind the other. -/
def graphOps (i : Nat) : OrkSpineOp Nat :=
  match i with
  | 0 => ⟨0, .npu, 10, .pend, none, 0, 0⟩
  | 1 => ⟨0, .cpu, 11, .pend, none, 0, 0⟩
  | 2 => ⟨1, .cpu, 12, .pend, none, 0, 0⟩
  | _ => ⟨2, .npu, 13, .pend, none, 0, 0⟩

/-- The CPU unit is done first, so that op 3 waits for the NPU unit and op 2 for op 0. -/
def graphActs : List Act :=
  List.replicate 6 .sched ++ [.take 1, .finish 1 5, .take 0] ++ List.replicate 10 .sched ++ [.finish 0 0] ++
    List.replicate 10 .sched ++ [.take 0, .take 1, .finish 1 7, .finish 0 0] ++ List.replicate 6 .sched

def graphStart : State Nat :=
  ⟨2, 4, fun u => { graphUnits u with busy := false }, fun i => { graphOps i with state := .pend, unit := none },
    0, 0, .test, [], []⟩

end OrkDriver.Spine
