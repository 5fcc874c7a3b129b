import OrkDriver.Orkd.RingSafety

/-!
When a call of `orkd_ring_collect` comes back: the daemon alone answers every op that is in the ring, and a ticket with no
op in its slot is waited for without end.
-/

namespace OrkDriver.Orkd

namespace RingSys

/-- What the daemon does next when it has turned to the ring of the client in place `ci`; `answer` is the NPU. -/
def turn (answer : RingSys → Int × (Nat → UInt32)) (ci : Nat) (s : RingSys) : RingEvent :=
  if s.daemon.isRest then .look ci else .service (answer s).1 (answer s).2

/-- `n` steps of the daemon in a row. -/
def turns (c : ConnId) (answer : RingSys → Int × (Nat → UInt32)) (ci : Nat) : Nat → RingSys → Option RingSys
  | 0, s => some s
  | n + 1, s => (s.step c (s.turn answer ci)).bind (turns c answer ci n)

/-- How far the daemon is from having answered submission `k`. -/
def distance (k : Nat) (s : RingSys) : Nat :=
  5 * (k + 1 - s.log.answered) -
    match s.daemon with
    | .rest => 0
    | .found _ _ => 1
    | .ran _ _ _ => 2
    | .answer _ _ _ => 3
    | .publish _ _ _ => 4

theorem distance_le (k : Nat) (s : RingSys) : s.distance k ≤ 5 * (k + 1 - s.log.answered) := Nat.sub_le _ _

end RingSys

namespace RingSys.Ok

variable {c : ConnId} {s : RingSys}

theorem turn_service (answer : RingSys → Int × (Nat → UInt32)) (ci : Nat) (hd : s.daemon.isRest = false) :
    s.step c (s.turn answer ci) = s.serviceStep (answer s).1 (answer s).2 := by
  simp [turn, RingSys.step, hd]

/-- While submission `k` waits in its slot, the daemon comes nearer to it with each of its steps. -/
theorem turn_nearer (h : s.Ok c) (answer : RingSys → Int × (Nat → UInt32)) {ci : Nat} (ha : s.Attached c ci) {k : Nat}
    (hk : s.log.answered ≤ k) (hks : k < s.log.submitted.length) :
    ∃ s', s.step c (s.turn answer ci) = some s' ∧ s'.Attached c ci ∧ s'.client = s.client ∧ s'.log.live = s.log.live ∧
      s'.log.submitted = s.log.submitted ∧ s'.distance k < s.distance k := by
  cases hd : s.daemon with
  | rest =>
      have htail : s.tailSlot ci = s.log.answered % 8 := by
        rw [tailSlot, h.nslots, (h.tail.tail ci ha.1 ha.2.1).2]
        show s.log.answered % 2 ^ 32 % 8 = _
        omega
      obtain ⟨o, -, hreq, -⟩ := h.tail_slot (Nat.lt_of_le_of_lt hk hks)
      refine ⟨{ s with daemon := .found ci (s.log.answered % 8) }, ?_, ha, rfl, rfl, rfl, ?_⟩
      · simp [turn, RingSys.step, hd, RingServicePc.isRest, ha, lookStep, htail, hreq]
      · simp only [distance, hd]
        omega
  | found ci' i =>
      have hstep : s.step c (s.turn answer ci) = _ := turn_service answer ci (by rw [hd]; rfl)
      simp only [RingSys.serviceStep, hd] at hstep
      refine ⟨_, hstep, ha, rfl, rfl, rfl, ?_⟩
      simp only [distance, hd]
      omega
  | ran ci' i x =>
      have hstep : s.step c (s.turn answer ci) = _ := turn_service answer ci (by rw [hd]; rfl)
      simp only [RingSys.serviceStep, hd] at hstep
      refine ⟨_, hstep, ha, rfl, rfl, rfl, ?_⟩
      simp only [distance, hd]
      omega
  | answer ci' i x =>
      have hstep : s.step c (s.turn answer ci) = _ := turn_service answer ci (by rw [hd]; rfl)
      simp only [RingSys.serviceStep, hd] at hstep
      refine ⟨_, hstep, ha, rfl, rfl, rfl, ?_⟩
      simp only [distance, hd]
      omega
  | publish ci' i x =>
      have hstep : s.step c (s.turn answer ci) = _ := turn_service answer ci (by rw [hd]; rfl)
      simp only [RingSys.serviceStep, hd] at hstep
      refine ⟨_, hstep, ?_, rfl, rfl, rfl, ?_⟩
      · refine ⟨ha.1, (Connected.connOf_ring ci' ci).trans ha.2.1, ?_⟩
        by_cases hci : ci = ci'
        · subst hci
          simp only [ringStep, Daemon.setClient, Function.update_self]
          exact ha.2.2
        · simp only [ringStep, Daemon.setClient, Function.update_of_ne hci]
          exact ha.2.2
      · simp only [distance, hd]
        omega

/-- The daemon's own steps put the response of submission `k` into its slot. -/
theorem answers (h : s.Ok c) (answer : RingSys → Int × (Nat → UInt32)) {ci : Nat} (ha : s.Attached c ci) {t k : Nat}
    (ht : t < 8) (hlive : s.log.live t = some k) :
    ∃ n s', n ≤ s.distance k ∧ s.turns c answer ci n = some s' ∧ s'.client = s.client ∧
      (s'.ring.slot t).state = .resp := by
  induction hn : s.distance k using Nat.strongRecOn generalizing s with
  | ind m ih =>
      obtain ⟨-, hks, -⟩ := h.log.recent t k ht hlive
      cases h.slot t ht with
      | free hl _ => rw [hlive] at hl; cases hl
      | done _ _ _ hresp _ => exact ⟨0, s, Nat.zero_le _, rfl, rfl, hresp⟩
      | waiting hl hk _ _ _ _ =>
          rw [hlive] at hl
          cases hl
          obtain ⟨s1, hstep, ha1, hclient, hlive1, -, hlt⟩ := h.turn_nearer answer ha hk hks
          obtain ⟨n, s', hle, hturns, hclient', hresp⟩ :=
            ih _ (hn ▸ hlt) (h.step hstep) ha1 (hlive1 ▸ hlive) rfl
          refine ⟨n + 1, s', by omega, ?_, hclient'.trans hclient, hresp⟩
          rw [turns, hstep]
          exact hturns

end RingSys.Ok

/-! ### Waiting in vain -/

theorem clientStep_stop {s t : RingSys} (h : s.clientStep = some t) : t.ring.stop = s.ring.stop := by
  unfold RingSys.clientStep at h
  split at h
  · cases h
  · cases h
  · split at h <;> cases h <;> rfl
  · cases h; rfl
  · cases h; rfl
  · cases h; rfl
  · split at h
    · cases h; rfl
    · split at h <;> cases h <;> rfl
  · cases h; rfl
  · cases h; rfl
  · cases h; rfl

theorem serviceStep_stop {s t : RingSys} {rc : Int} {out : Nat → UInt32} (h : s.serviceStep rc out = some t) :
    t.ring.stop = s.ring.stop ∧ t.client = s.client := by
  unfold RingSys.serviceStep at h
  split at h
  · cases h
  · cases h; exact ⟨rfl, rfl⟩
  · cases h
    refine ⟨?_, rfl⟩
    dsimp only
    split <;> rfl
  · cases h; exact ⟨rfl, rfl⟩
  · cases h; exact ⟨rfl, rfl⟩

/-- Only a client that leaves sets `stop`, and it does nothing afterwards. -/
theorem step_stop {c : ConnId} {s t : RingSys} {e : RingEvent} (h : s.step c e = some t) :
    t.client.pc = .gone ∨ t.ring.stop = s.ring.stop ∧ s.client.pc ≠ .gone ∨ t.ring.stop = s.ring.stop ∧ t.client = s.client := by
  cases e with
  | submit o =>
      simp only [RingSys.step, Option.ite_none_right_eq_some, Option.some.injEq] at h
      obtain ⟨⟨hi, -⟩, rfl⟩ := h
      refine .inr (.inl ⟨?_, fun hg => by rw [hg] at hi; cases hi⟩)
      unfold RingSys.enterSubmit
      split
      · rfl
      · split <;> rfl
  | collect t' =>
      simp only [RingSys.step, Option.ite_none_right_eq_some, Option.some.injEq] at h
      obtain ⟨hi, rfl⟩ := h
      refine .inr (.inl ⟨?_, fun hg => by rw [hg] at hi; cases hi⟩)
      unfold RingSys.enterCollect
      split <;> rfl
  | setOpDomain domain =>
      simp only [RingSys.step, Option.ite_none_right_eq_some, Option.some.injEq] at h
      obtain ⟨hi, rfl⟩ := h
      exact .inr (.inl ⟨rfl, fun hg => by rw [hg] at hi; cases hi⟩)
  | disconnect =>
      simp only [RingSys.step, Option.ite_none_right_eq_some, Option.some.injEq] at h
      obtain ⟨-, rfl⟩ := h
      exact .inl rfl
  | client =>
      refine .inr (.inl ⟨clientStep_stop h, fun hg => ?_⟩)
      simp only [RingSys.step, RingSys.clientStep, hg] at h
      cases h
  | loop e =>
      simp only [RingSys.step, Option.ite_none_right_eq_some, Option.some.injEq] at h
      obtain ⟨-, rfl⟩ := h
      exact .inr (.inr ⟨rfl, rfl⟩)
  | look ci =>
      simp only [RingSys.step, Option.ite_none_right_eq_some, Option.some.injEq] at h
      obtain ⟨-, rfl⟩ := h
      refine .inr (.inr ?_)
      unfold RingSys.lookStep
      split <;> exact ⟨rfl, rfl⟩
  | service rc out => exact .inr (.inr (serviceStep_stop h))

theorem gone_of_stop {c : ConnId} {s : RingSys} (h : (ringSystem c).Reachable s) (hstop : s.ring.stop = true) :
    s.client.pc = .gone := by
  revert hstop
  refine h.invariant (I := fun s => s.ring.stop = true → s.client.pc = .gone) (fun s h0 hstop => ?_) ?_
  · rw [h0.ring] at hstop
    cases hstop
  · intro s e t _ hs _ hstep hstop
    rcases step_stop hstep with hg | ⟨heq, hne⟩ | ⟨heq, hclient⟩
    · exact hg
    · exact absurd (hs (heq ▸ hstop)) hne
    · rw [hclient]
      exact hs (heq ▸ hstop)

/-- The runs that go on from `s`. -/
def ringSystemFrom (c : ConnId) (s : RingSys) : Transition.System RingSys RingEvent :=
  { ringSystem c with init := (· = s) }

/-- A client that waits for a slot without an op waits on, whatever is done. -/
theorem stuck_step {c : ConnId} {s t : RingSys} {e : RingEvent} {i : Nat} (h : s.Ok c) (hi : i < 8)
    (hpc : s.client.pc = .spin i) (hlive : s.log.live i = none) (hstop : s.ring.stop = false)
    (hstep : s.step c e = some t) : t.client.pc = .spin i ∧ t.log.live i = none := by
  have hidle : ¬ s.client.pc.isIdle = true := by
    rw [hpc]
    exact Bool.false_ne_true
  cases e with
  | submit o => simp [RingSys.step, hidle] at hstep
  | collect t' => simp [RingSys.step, hidle] at hstep
  | setOpDomain domain => simp [RingSys.step, hidle] at hstep
  | disconnect => simp [RingSys.step, hidle] at hstep
  | client =>
      have hstate : (s.ring.slot i).state ≠ .resp := by
        rw [(h.slot i hi).empty hlive]
        decide
      simp only [RingSys.step, RingSys.clientStep, hpc, if_neg hstate, hstop, Bool.false_eq_true, if_false] at hstep
      cases hstep
      exact ⟨hpc, hlive⟩
  | loop e =>
      simp only [RingSys.step, Option.ite_none_right_eq_some, Option.some.injEq] at hstep
      obtain ⟨-, rfl⟩ := hstep
      exact ⟨hpc, hlive⟩
  | look ci =>
      simp only [RingSys.step, Option.ite_none_right_eq_some, Option.some.injEq] at hstep
      obtain ⟨-, rfl⟩ := hstep
      unfold RingSys.lookStep
      split <;> exact ⟨hpc, hlive⟩
  | service rc out =>
      simp only [RingSys.step, RingSys.serviceStep] at hstep
      split at hstep
      · cases hstep
      all_goals
        cases hstep
        exact ⟨hpc, hlive⟩

/-- A client that waits for a ticket is answered by the daemon alone, in at most forty of its steps, if an op lies in that
slot and the daemon has the client; if no op lies there, the call does not return in any run. -/
theorem ring_collect_returns {c : ConnId} {s : RingSys} {t : Nat} (h : (ringSystem c).Reachable s)
    (hpc : s.client.pc = .spin t) :
    (∀ k ci (answer : RingSys → Int × (Nat → UInt32)), s.log.live t = some k → s.Attached c ci →
      ∃ n s', n ≤ 40 ∧ s.turns c answer ci n = some s' ∧ s'.client = s.client ∧ (s'.ring.slot t).state = .resp) ∧
    (s.log.live t = none → ∀ s', (ringSystemFrom c s).Reachable s' → s'.client.pc = .spin t) := by
  have hok := ringOk_of_reachable h
  have ht : t < 8 := by
    have := hok.client
    rwa [hpc] at this
  refine ⟨fun k ci answer hlive ha => ?_, fun hlive s' hs' => ?_⟩
  · obtain ⟨n, s', hle, hrest⟩ := hok.answers answer ha ht hlive
    obtain ⟨-, hk, -⟩ := hok.log.recent t k ht hlive
    have hbound := hok.log.le_eight
    have hdist := RingSys.distance_le k s
    exact ⟨n, s', by omega, hrest⟩
  · have hrun : (ringSystem c).Reachable s' ∧ s'.client.pc = .spin t ∧ s'.log.live t = none := by
      refine hs'.invariant (I := fun s' => (ringSystem c).Reachable s' ∧ s'.client.pc = .spin t ∧ s'.log.live t = none) ?_ ?_
      · rintro s0 rfl
        exact ⟨h, hpc, hlive⟩
      · intro s1 e s2 _ ⟨hr, hp, hl⟩ _ hstep
        have hstop : s1.ring.stop = false := by
          cases hst : s1.ring.stop with
          | false => rfl
          | true =>
              have hg := gone_of_stop hr hst
              rw [hp] at hg
              cases hg
        exact ⟨.step hr trivial hstep, stuck_step (ringOk_of_reachable hr) ht hp hl hstop hstep⟩
    exact hrun.2.1

theorem submitOnes_some : (ringStart.run 0 (submitOnes ++ [.collect 0])).isSome = true := by decide

/-- A client that waits for its one op. -/
theorem ring_collect_returns_ones : ∃ s, (ringSystem 0).Reachable s ∧ s.client.pc = .spin 0 ∧
    ∃ n s', n ≤ 40 ∧ s.turns 0 (fun _ => (0, fun _ => 32)) 0 n = some s' ∧ s'.client = s.client ∧
      (s'.ring.slot 0).state = .resp := by
  have hreach := reachable_of_run ringStart_start (Option.some_get submitOnes_some).symm
  exact ⟨_, hreach, rfl, (ring_collect_returns hreach rfl).1 0 0 _ (by decide) (by decide)⟩

end OrkDriver.Orkd
