import OrkDriver.Orkd.RingInvariant

/-!
What the A-ring guarantees, in whatever order the client, `ring_service` and the rest of the daemon take their steps: the
ops are run once each in the order of their submission, a ticket gives what its op gave, and the two sides are never at
the payload of one slot together.
-/

namespace OrkDriver.Orkd

namespace RingSys

/-- The slot whose payload the client's next step reads or writes. -/
def clientAt (s : RingSys) : Option Nat :=
  match s.client.pc with
  | .fields i _ | .payload i _ | .readRc i | .copyOut i _ => some i
  | .idle | .probe _ | .publish _ _ | .spin _ | .release _ _ _ | .gone => none

/-- The slot whose payload the daemon's next step reads or writes. -/
def daemonAt (s : RingSys) : Option Nat :=
  match s.daemon with
  | .found _ i | .ran _ i _ | .answer _ i _ => some i
  | .rest | .publish _ _ _ => none

end RingSys

namespace RingSys.Ok

variable {c : ConnId} {s t : RingSys}

theorem start (h : s.Start c) : s.Ok c := by
  obtain ⟨ci, ⟨hlt, hc, hring⟩, htail⟩ := h.attached
  have hs : Connected s.sys := connected_of_reachable h.reachable
  have hlog := h.log
  refine ⟨h.reachable, ⟨hc ▸ hs.connOf_lt hlt, fun i hi hic => ?_⟩, ?_, ?_, ?_, ?_, fun j _ => ?_, ?_, ?_⟩
  · obtain rfl : i = ci := hs.connOf_inj hi hlt (hic.trans hc.symm)
    refine ⟨hring, ?_⟩
    rw [htail, hlog]
    exact (Nat.zero_mod _).symm
  · rw [h.ring]; rfl
  · rw [h.ring]; rfl
  · rw [h.client.2, hlog]; rfl
  · rw [hlog]
    exact ⟨by simp, by simp, by simp, by simp, by simp, by simp, by simp, by simp [RingLog.numbers], by simp, by simp,
      by simp⟩
  · rw [hlog, h.ring]
    exact .free rfl rfl
  · rw [h.daemon, DaemonOk, hlog]
    rfl
  · rw [h.client.1]
    trivial

/-! ### The client's steps -/

theorem goto (h : s.Ok c) {pc : RingClientPc} (hpc : ClientOk s pc) : (s.goto pc).Ok c :=
  { h with
    daemon := h.daemon.congr rfl rfl rfl (Nat.le_refl _) fun _ => rfl
    client := hpc.congr rfl rfl fun _ _ _ => rfl }

theorem refuse (h : s.Ok c) {o : RingOp} {rc : Int} {occupant : Option Nat} (ho : rc = -2 → o.Fits → occupant ≠ none) :
    (s.refuse o rc occupant).Ok c :=
  { h with
    log := h.log.refuse ho
    slot := fun j hj => (h.slot j hj).mono rfl (fun _ _ h => h) (fun _ _ h => h) (Nat.le_refl _)
      fun _ _ hk => ⟨hk, fun he hp => ⟨he, hp⟩⟩
    daemon := h.daemon.congr rfl rfl rfl (Nat.le_refl _) fun _ => rfl
    client := trivial }

theorem enterSubmit (h : s.Ok c) {o : RingOp} (ho : o.IsInt) : (s.enterSubmit o).Ok c := by
  have hsd : s.ring.slotData.toNat = 65536 := by rw [h.slotData]; rfl
  unfold RingSys.enterSubmit
  split
  · exact h.refuse fun hrc => by omega
  · rename_i hpos
    split
    · rename_i hbig
      refine h.refuse fun _ hfits => ?_
      have := hfits.abytes
      have := hfits.cbytes
      omega
    · rename_i hsmall
      exact h.goto ⟨ho, by omega, by omega, by omega, by omega, by omega⟩

theorem enterCollect (h : s.Ok c) (t : Int) : (s.enterCollect t).Ok c := by
  have hns : s.ring.nslots.toNat = 8 := by rw [h.nslots]; rfl
  unfold RingSys.enterCollect
  split
  · exact h
  · refine h.goto ?_
    simp only [ClientOk]
    omega

theorem setOpDomain (h : s.Ok c) (domain : UInt32) : { s with client := { s.client with opDomain := domain } }.Ok c :=
  { h with
    daemon := h.daemon.congr rfl rfl rfl (Nat.le_refl _) fun _ => rfl
    client := h.client.congr rfl rfl fun _ _ _ => rfl }

theorem leave (h : s.Ok c) : s.leave.Ok c :=
  { h with
    daemon := h.daemon.congr rfl rfl rfl (Nat.le_refl _) fun _ => rfl
    client := trivial }

theorem nextSlot_eq (h : s.Ok c) : s.nextSlot = s.log.submitted.length % 8 := by
  rw [nextSlot, h.nslots, UInt32.toNat_mod, h.next]
  show s.log.submitted.length % 2 ^ 32 % 8 = _
  omega

/-- The slot the daemon is to answer next is not one the client may write. -/
theorem tail_ne (h : s.Ok c) {i : Nat} (hfree : s.log.live i = none) (hlt : s.log.answered < s.log.submitted.length) :
    s.log.answered % 8 ≠ i := by
  rintro rfl
  rw [h.log.window _ (Nat.le_refl _) hlt] at hfree
  cases hfree

/-- The client writes the payload of a free slot. -/
theorem write (h : s.Ok c) {i : Nat} {sl : RingSlot} {pc : RingClientPc} (hfree : s.log.live i = none)
    (hempty : sl.state = .empty) (hpc : ClientOk { s with ring := s.ring.setSlot i sl } pc) :
    { s.goto pc with ring := s.ring.setSlot i sl }.Ok c :=
  { h with
    slot := setSlot_slots (fun j hj _ => h.slot j hj) (.free hfree hempty)
    daemon := h.daemon.congr rfl rfl rfl (Nat.le_refl _) fun hlt => setSlot_ne _ _ (h.tail_ne hfree hlt)
    client := hpc.congr rfl rfl fun _ _ _ => rfl }

theorem probe (h : s.Ok c) {o : RingOp} (ho : o.Fits) (ht : s.client.pc = .probe o) (hstep : s.clientStep = some t) :
    t.Ok c := by
  have hslot := h.slot _ (h.nextSlot_eq ▸ Nat.mod_lt _ (by decide))
  simp only [clientStep, ht] at hstep
  split at hstep
  · rename_i hempty
    cases hstep
    exact h.goto ⟨ho, h.nextSlot_eq, hslot.live_none hempty⟩
  · rename_i hbusy
    cases hstep
    exact h.refuse fun _ _ hnone => hbusy (hslot.empty hnone)

theorem publish (h : s.Ok c) {i : Nat} {o : RingOp} (ho : o.Fits) (hi : i = s.log.submitted.length % 8)
    (hfree : s.log.live i = none) (hr : Requested o (s.ring.slot i)) (hl : Loaded o (s.ring.slot i))
    (ht : s.client.pc = .publish i o) (hstep : s.clientStep = some t) : t.Ok c := by
  simp only [clientStep, ht] at hstep
  cases hstep
  have hother : ∀ j, j < 8 → j ≠ i → SlotOk { s.log with
      submitted := s.log.submitted ++ [o]
      live := Function.update s.log.live i (some s.log.submitted.length) } s.daemon.Past j (s.ring.slot j) := by
    intro j hj hji
    refine (h.slot j hj).mono (Function.update_of_ne hji _ _) (fun k o' ho' => ?_) (fun _ _ h => h) (Nat.le_refl _)
      fun _ _ hk => ⟨hk, fun he hp => ⟨he, hp⟩⟩
    exact (List.getElem?_append_left (List.getElem?_eq_some_iff.mp ho').1).trans ho'
  refine { h with
    next := ?_
    log := h.log.submit ho hi hfree
    slot := setSlot_slots hother (.waiting (Function.update_self ..) h.log.le (List.getElem?_concat_length ..) rfl
      (hr.congr rfl rfl rfl rfl rfl) (.inr hl))
    daemon := h.daemon.congr rfl rfl rfl (by simp) fun hlt => setSlot_ne _ _ (h.tail_ne hfree hlt)
    client := trivial }
  rw [UInt32.toNat_add, h.next, List.length_append, List.length_singleton]
  show (s.log.submitted.length % 2 ^ 32 + 1) % 2 ^ 32 = _
  omega

theorem release (h : s.Ok c) {t' : Nat} {rc : Int} {C : List UInt8} (ht8 : t' < 8)
    (hs : (s.ring.slot t').state = .resp) (hrc : rc = (s.ring.slot t').rc)
    (hC : C = if rc = 0 then (s.ring.slot t').data.take (s.ring.slot t').cbytes.toNat else [])
    (ht : s.client.pc = .release t' rc C) (hstep : s.clientStep = some t) : t.Ok c := by
  obtain ⟨k, x, hlive, hlt, hx, hresp⟩ := (h.slot t' ht8).response hs
  have hxsize : ringCbytes x.request ≤ 65536 := by
    obtain ⟨o, ho, hxo⟩ : ∃ o ∈ s.log.submitted, x.input = o.input := by
      have hmem : x.input ∈ s.log.executed.map RingRun.input := List.mem_map_of_mem (List.mem_of_getElem? hx)
      obtain ⟨o, ho, heq⟩ := List.mem_map.mp (h.log.inputs.subset hmem)
      exact ⟨o, ho, heq.symm⟩
    have hreq : x.request = o.input.1 := congrArg Prod.fst hxo
    rw [hreq, ringCbytes_input (h.log.fits o ho)]
    exact (h.log.fits o ho).cbytes
  have hCx : C = x.result := by
    rw [hC, hrc]
    exact take_of_response hresp hxsize
  have hrcx : rc = x.rc := hrc.trans hresp.rc
  simp only [clientStep, ht, hlive] at hstep
  cases hstep
  have hother : ∀ j, j < 8 → j ≠ t' → SlotOk { s.log with
      live := Function.update s.log.live t' none
      collected := s.log.collected ++ [⟨t', some k, rc, C⟩] } s.daemon.Past j (s.ring.slot j) := fun j hj hjt =>
    (h.slot j hj).mono (Function.update_of_ne hjt _ _) (fun _ _ h => h) (fun _ _ h => h) (Nat.le_refl _)
      fun _ _ hk => ⟨hk, fun he hp => ⟨he, hp⟩⟩
  refine { h with
    log := ?_
    slot := setSlot_slots hother (.free (Function.update_self ..) rfl)
    daemon := h.daemon.congr rfl rfl rfl (Nat.le_refl _) fun hlt' => setSlot_ne _ _ ?_
    client := trivial }
  · rw [hCx, hrcx]
    exact h.log.collect ht8 hlive hlt hx
  · rintro heq
    have hwin := h.log.window _ (Nat.le_refl _) hlt'
    rw [heq, hlive] at hwin
    cases hwin
    omega

theorem clientStep (h : s.Ok c) (hstep : s.clientStep = some t) : t.Ok c := by
  have hclient := h.client
  have hmod : s.log.submitted.length % 8 < 8 := Nat.mod_lt _ (by decide)
  cases hpc : s.client.pc with
  | idle => simp only [RingSys.clientStep, hpc] at hstep; cases hstep
  | gone => simp only [RingSys.clientStep, hpc] at hstep; cases hstep
  | probe o =>
      rw [hpc] at hclient
      exact h.probe hclient hpc hstep
  | fields i o =>
      rw [hpc] at hclient
      obtain ⟨ho, hi, hfree⟩ := hclient
      simp only [RingSys.clientStep, hpc] at hstep
      cases hstep
      refine h.write hfree ((h.slot i (hi ▸ hmod)).empty hfree) ⟨ho, hi, hfree, ?_⟩
      rw [setSlot_self]
      exact requested_fill ..
  | payload i o =>
      rw [hpc] at hclient
      obtain ⟨ho, hi, hfree, hr⟩ := hclient
      simp only [RingSys.clientStep, hpc] at hstep
      cases hstep
      refine h.write hfree ((h.slot i (hi ▸ hmod)).empty hfree) ⟨ho, hi, hfree, ?_, ?_⟩
      · rw [setSlot_self]
        exact hr.congr rfl rfl rfl rfl rfl
      · rw [setSlot_self]
        exact loaded_copyBytes o _
  | publish i o =>
      rw [hpc] at hclient
      obtain ⟨ho, hi, hfree, hr, hl⟩ := hclient
      exact h.publish ho hi hfree hr hl hpc hstep
  | spin t' =>
      rw [hpc] at hclient
      simp only [RingSys.clientStep, hpc] at hstep
      split at hstep
      · rename_i hresp
        cases hstep
        exact h.goto ⟨hclient, hresp⟩
      · split at hstep
        · cases hstep
          exact h.goto trivial
        · cases hstep
          exact h
  | readRc t' =>
      rw [hpc] at hclient
      obtain ⟨ht8, hs⟩ := hclient
      simp only [RingSys.clientStep, hpc] at hstep
      cases hstep
      exact h.goto ⟨ht8, hs, rfl⟩
  | copyOut t' rc =>
      rw [hpc] at hclient
      obtain ⟨ht8, hs, hrc⟩ := hclient
      simp only [RingSys.clientStep, hpc] at hstep
      cases hstep
      exact h.goto ⟨ht8, hs, hrc, rfl⟩
  | release t' rc C =>
      rw [hpc] at hclient
      obtain ⟨ht8, hs, hrc, hC⟩ := hclient
      exact h.release ht8 hs hrc hC hpc hstep

/-! ### The daemon's steps -/

/-- What lies in the slot that is to be answered next. -/
theorem tail_slot (h : s.Ok c) (hlt : s.log.answered < s.log.submitted.length) :
    ∃ o, s.log.submitted[s.log.answered]? = some o ∧ (s.ring.slot (s.log.answered % 8)).state = .req ∧
      Requested o (s.ring.slot (s.log.answered % 8)) ∧ (s.daemon.Past ∨ Loaded o (s.ring.slot (s.log.answered % 8))) := by
  have hwin := h.log.window _ (Nat.le_refl _) hlt
  cases h.slot (s.log.answered % 8) (Nat.mod_lt _ (by decide)) with
  | free hl _ => rw [hwin] at hl; cases hl
  | waiting hl hk ho hq hr hload =>
      rw [hwin] at hl
      cases hl
      exact ⟨_, ho, hq, hr, hload.imp_left fun hp => hp.2⟩
  | done hl hk _ _ _ =>
      rw [hwin] at hl
      cases hl
      omega

/-- The slot the daemon is to answer next is not one the client reads or writes. -/
theorem ne_tail (h : s.Ok c) (hlt : s.log.answered < s.log.submitted.length) {i : Nat}
    (hi : s.log.live i = none ∨ (s.ring.slot i).state = .resp) : i ≠ s.log.answered % 8 := by
  rintro rfl
  obtain ⟨o, -, hq, -⟩ := h.tail_slot hlt
  rcases hi with hi | hi
  · rw [h.log.window _ (Nat.le_refl _) hlt] at hi
    cases hi
  · rw [hq] at hi
    cases hi

theorem look (h : s.Ok c) (hd : s.daemon = .rest) {ci : Nat} (ha : s.Attached c ci) : (s.lookStep ci).Ok c := by
  have htail : s.tailSlot ci = s.log.answered % 8 := by
    rw [tailSlot, h.nslots, (h.tail.tail ci ha.1 ha.2.1).2]
    show s.log.answered % 2 ^ 32 % 8 = _
    omega
  have hmod : s.log.answered % 8 < 8 := Nat.mod_lt _ (by decide)
  have hlen : s.log.executed.length = s.log.answered := by
    have := h.daemon
    rwa [hd] at this
  unfold lookStep
  rw [htail]
  split
  · rename_i hreq
    obtain ⟨k, o, hlive, hk, -⟩ := (h.slot _ hmod).request hreq
    obtain ⟨hk8, hlt, -⟩ := h.log.recent _ _ hmod hlive
    have hbound := h.log.le_eight
    exact { h with
      slot := fun j hj => (h.slot j hj).mono rfl (fun _ _ h => h) (fun _ _ h => h) (Nat.le_refl _) fun _ _ hk =>
        ⟨hk, fun _ hp => by rw [hd] at hp; exact hp.elim⟩
      daemon := ⟨ha, rfl, by show s.log.answered < s.log.submitted.length; omega, hlen⟩
      client := h.client.congr rfl rfl fun _ _ _ => rfl }
  · exact h

/-- The daemon writes the slot it has run. -/
theorem respond (h : s.Ok c) {i : Nat} (hi : i = s.log.answered % 8) (hlt : s.log.answered < s.log.submitted.length)
    {sl : RingSlot} {pc : RingServicePc} (hpast : pc.Past) (hstate : sl.state = (s.ring.slot i).state)
    (hreq : ∀ o, Requested o (s.ring.slot i) → Requested o sl)
    (hpc : DaemonOk c { s with ring := s.ring.setSlot i sl, daemon := pc } pc) :
    { s with ring := s.ring.setSlot i sl, daemon := pc }.Ok c := by
  subst hi
  obtain ⟨o, ho, hq, hr, -⟩ := h.tail_slot hlt
  exact { h with
    slot := setSlot_slots
      (fun j hj _ => (h.slot j hj).mono rfl (fun _ _ h => h) (fun _ _ h => h) (Nat.le_refl _) fun _ _ hk =>
        ⟨hk, fun he _ => ⟨he, hpast⟩⟩)
      (.waiting (h.log.window _ (Nat.le_refl _) hlt) (Nat.le_refl _) ho (hstate.trans hq) (hreq o hr) (.inl ⟨rfl, hpast⟩))
    daemon := hpc
    client := h.client.congr rfl rfl fun j _ hj => setSlot_ne _ _ (h.ne_tail hlt hj) }

theorem found (h : s.Ok c) {ci i : Nat} (hd : s.daemon = .found ci i) {rc : Int} {out : Nat → UInt32}
    (hstep : s.serviceStep rc out = some t) : t.Ok c := by
  have hdaemon := h.daemon
  rw [hd] at hdaemon
  obtain ⟨ha, hi, hlt, hlen⟩ := hdaemon
  obtain ⟨o, ho, -, hr, hload⟩ := h.tail_slot hlt
  have hload : Loaded o (s.ring.slot (s.log.answered % 8)) :=
    hload.resolve_left fun hp => by rw [hd] at hp; exact hp
  rw [← hi] at hr hload
  have hinput := input_of_requested h.nslots h.slotData (h.log.fits o (List.mem_of_getElem? ho)) hr hload s.sys.d
    (s.sys.d.cl ci) rc out
  simp only [serviceStep, hd] at hstep
  cases hstep
  exact { h with
    log := h.log.run hlen ho hinput
    slot := fun j hj => (h.slot j hj).mono rfl (fun _ _ h => h)
      (fun k x hx => (List.getElem?_append_left (List.getElem?_eq_some_iff.mp hx).1).trans hx) (Nat.le_refl _)
      fun _ _ hk => ⟨hk, fun _ hp => by rw [hd] at hp; exact hp.elim⟩
    daemon := ⟨ha, hi, hlt, by simp [hlen], by simp [← hlen]⟩
    client := h.client.congr rfl rfl fun _ _ _ => rfl }

theorem ran (h : s.Ok c) {ci i : Nat} {x : RingRun} (hd : s.daemon = .ran ci i x) {rc : Int} {out : Nat → UInt32}
    (hstep : s.serviceStep rc out = some t) : t.Ok c := by
  have hdaemon := h.daemon
  rw [hd] at hdaemon
  obtain ⟨ha, hi, hlt, hlen, hx⟩ := hdaemon
  simp only [serviceStep, hd] at hstep
  cases hstep
  by_cases hrc : x.rc = 0
  · rw [if_pos hrc]
    refine h.respond hi hlt trivial rfl (fun o hr => hr.congr rfl rfl rfl rfl rfl) ⟨ha, hi, hlt, hlen, hx, ?_⟩
    intro _ j hj
    simp only [setSlot_self, copyBytes, if_pos hj]
  · rw [if_neg hrc]
    exact { h with
      slot := fun j hj => (h.slot j hj).mono rfl (fun _ _ h => h) (fun _ _ h => h) (Nat.le_refl _) fun _ _ hk =>
        ⟨hk, fun he _ => ⟨he, trivial⟩⟩
      daemon := ⟨ha, hi, hlt, hlen, hx, fun h0 => absurd h0 hrc⟩
      client := h.client.congr rfl rfl fun _ _ _ => rfl }

theorem answer (h : s.Ok c) {ci i : Nat} {x : RingRun} (hd : s.daemon = .answer ci i x) {rc : Int} {out : Nat → UInt32}
    (hstep : s.serviceStep rc out = some t) : t.Ok c := by
  have hdaemon := h.daemon
  rw [hd] at hdaemon
  obtain ⟨ha, hi, hlt, hlen, hx, hdata⟩ := hdaemon
  simp only [serviceStep, hd] at hstep
  cases hstep
  refine h.respond hi hlt trivial rfl (fun o hr => hr.congr rfl rfl rfl rfl rfl) ⟨ha, hi, hlt, hlen, hx, ?_⟩
  rw [setSlot_self]
  exact ⟨rfl, rfl, hdata⟩

theorem respPublish (h : s.Ok c) {ci i : Nat} {x : RingRun} (hd : s.daemon = .publish ci i x) {rc : Int}
    {out : Nat → UInt32} (hstep : s.serviceStep rc out = some t) : t.Ok c := by
  have hdaemon := h.daemon
  rw [hd] at hdaemon
  obtain ⟨⟨hci, hc, hring⟩, hi, hlt, hlen, hx, hresp⟩ := hdaemon
  subst hi
  have hs : Connected s.sys := connected_of_reachable h.reachable
  have hen : Enabled s.sys (.ring ci (s.ring.request (s.log.answered % 8))) := by
    refine ⟨hci, hring, ?_⟩
    show 0 < cInt s.ring.nslots
    rw [h.nslots]
    decide
  simp only [serviceStep, hd] at hstep
  cases hstep
  have hlive := h.log.window _ (Nat.le_refl _) hlt
  have hother : ∀ j, j < 8 → j ≠ s.log.answered % 8 →
      SlotOk { s.log with answered := s.log.answered + 1 } RingServicePc.rest.Past j (s.ring.slot j) := by
    intro j hj hne
    refine (h.slot j hj).mono rfl (fun _ _ h => h) (fun _ _ h => h) (Nat.le_succ _) fun k hk hle => ?_
    have hk8 := (h.log.recent j k hj hk).1
    have hkne : k ≠ s.log.answered := fun heq => hne (heq ▸ hk8).symm
    exact ⟨by show s.log.answered + 1 ≤ k; omega, fun he => absurd he hkne⟩
  exact {
    reachable := .step h.reachable trivial ⟨hen, rfl⟩
    tail := h.tail.ring_self hs hci hc
    nslots := h.nslots
    slotData := h.slotData
    next := h.next
    log := h.log.answer hlt
    slot := setSlot_slots hother (.done hlive (Nat.lt_succ_self _) hx rfl ⟨hresp.rc, hresp.cbytes, hresp.data⟩)
    daemon := hlen
    client := h.client.congr rfl rfl fun j _ hj => setSlot_ne _ _ (h.ne_tail hlt hj) }

theorem serviceStep (h : s.Ok c) {rc : Int} {out : Nat → UInt32} (hstep : s.serviceStep rc out = some t) : t.Ok c := by
  cases hd : s.daemon with
  | rest => simp only [RingSys.serviceStep, hd] at hstep; cases hstep
  | found ci i => exact h.found hd hstep
  | ran ci i x => exact h.ran hd hstep
  | answer ci i x => exact h.answer hd hstep
  | publish ci i x => exact h.respPublish hd hstep

theorem loop (h : s.Ok c) (hd : s.daemon = .rest) {e : Event} (he : Enabled s.sys e) (helse : s.Elsewhere c e) :
    { s with sys := Orkd.next s.sys e }.Ok c := by
  have hs : Connected s.sys := connected_of_reachable h.reachable
  have hdaemon := h.daemon
  rw [hd] at hdaemon
  refine { h with
    reachable := .step h.reachable trivial ⟨he, rfl⟩
    tail := h.tail.loop hs he fun i r hr => ?_
    daemon := ?_
    client := h.client.congr rfl rfl fun _ _ _ => rfl }
  · subst hr
    exact helse
  · show DaemonOk c _ s.daemon
    rw [hd]
    exact hdaemon

theorem step (h : s.Ok c) {e : RingEvent} (hstep : s.step c e = some t) : t.Ok c := by
  cases e with
  | submit o =>
      simp only [RingSys.step, Option.ite_none_right_eq_some, Option.some.injEq] at hstep
      obtain ⟨⟨-, ho⟩, rfl⟩ := hstep
      exact h.enterSubmit ho
  | collect t' =>
      simp only [RingSys.step, Option.ite_none_right_eq_some, Option.some.injEq] at hstep
      obtain ⟨-, rfl⟩ := hstep
      exact h.enterCollect t'
  | setOpDomain domain =>
      simp only [RingSys.step, Option.ite_none_right_eq_some, Option.some.injEq] at hstep
      obtain ⟨-, rfl⟩ := hstep
      exact h.setOpDomain domain
  | disconnect =>
      simp only [RingSys.step, Option.ite_none_right_eq_some, Option.some.injEq] at hstep
      obtain ⟨-, rfl⟩ := hstep
      exact h.leave
  | client => exact h.clientStep hstep
  | loop e =>
      simp only [RingSys.step, Option.ite_none_right_eq_some, Option.some.injEq] at hstep
      obtain ⟨⟨hrest, he, helse⟩, rfl⟩ := hstep
      exact h.loop (atRest_eq hrest) he helse
  | look ci =>
      simp only [RingSys.step, Option.ite_none_right_eq_some, Option.some.injEq] at hstep
      obtain ⟨⟨hrest, ha⟩, rfl⟩ := hstep
      exact h.look (atRest_eq hrest) ha
  | service rc out => exact h.serviceStep hstep

end RingSys.Ok

theorem ringOk_of_reachable {c : ConnId} {s : RingSys} (h : (ringSystem c).Reachable s) : s.Ok c :=
  h.invariant (fun _ h0 => .start h0) fun _ _ _ _ hs _ hstep => hs.step hstep

/-- The two sides are never at the payload of one slot. -/
theorem RingSys.Ok.apart {c : ConnId} {s : RingSys} (h : s.Ok c) {i j : Nat} (hi : s.clientAt = some i)
    (hj : s.daemonAt = some j) : i ≠ j := by
  have htail : j = s.log.answered % 8 ∧ s.log.answered < s.log.submitted.length := by
    have hdaemon := h.daemon
    unfold RingSys.daemonAt at hj
    cases hd : s.daemon with
    | rest => rw [hd] at hj; cases hj
    | publish ci i x => rw [hd] at hj; cases hj
    | found ci i => rw [hd] at hj hdaemon; cases hj; exact ⟨hdaemon.2.1, hdaemon.2.2.1⟩
    | ran ci i x => rw [hd] at hj hdaemon; cases hj; exact ⟨hdaemon.2.1, hdaemon.2.2.1⟩
    | answer ci i x => rw [hd] at hj hdaemon; cases hj; exact ⟨hdaemon.2.1, hdaemon.2.2.1⟩
  have hown : s.log.live i = none ∨ (s.ring.slot i).state = .resp := by
    have hclient := h.client
    unfold RingSys.clientAt at hi
    cases hpc : s.client.pc with
    | fields i o => rw [hpc] at hi hclient; cases hi; exact .inl hclient.2.2
    | payload i o => rw [hpc] at hi hclient; cases hi; exact .inl hclient.2.2.1
    | readRc t => rw [hpc] at hi hclient; cases hi; exact .inr hclient.2
    | copyOut t rc => rw [hpc] at hi hclient; cases hi; exact .inr hclient.2.1
    | _ => rw [hpc] at hi; cases hi
  rw [htail.1]
  exact h.ne_tail htail.2 hown

/-- In every run: the daemon is where some run of its loop leads; it has found a prefix of the submitted ops, each as it
was submitted; every collected result is that of the run of its submission and no submission is collected twice; a
submission that is neither in its slot nor collected does not exist; `-2` for an op that fits means the slot is taken;
and the two sides keep apart. -/
theorem ring_delivers {c : ConnId} {s : RingSys} (h : (ringSystem c).Reachable s) :
    orkd.Reachable s.sys ∧
    s.log.executed.map RingRun.input <+: s.log.submitted.map RingOp.input ∧
    (s.log.numbers.Nodup ∧ ∀ y ∈ s.log.collected, ∃ k x, y.number = some k ∧ s.log.executed[k]? = some x ∧
      y.rc = x.rc ∧ y.C = x.result) ∧
    (∀ k, k < s.log.submitted.length → s.log.live (k % 8) = some k ∨ some k ∈ s.log.numbers) ∧
    (∀ y ∈ s.log.refused, y.rc = -2 → y.op.Fits → y.occupant ≠ none) ∧
    ∀ i j, s.clientAt = some i → s.daemonAt = some j → i ≠ j := by
  have hok := ringOk_of_reachable h
  refine ⟨hok.reachable, hok.log.inputs, ⟨hok.log.once, fun y hy => ?_⟩, hok.log.kept, hok.log.refused, fun i j hi hj => hok.apart hi hj⟩
  obtain ⟨k, x, hk, -, hx, hrc, hC⟩ := hok.log.collected y hy
  exact ⟨k, x, hk, hx, hrc, hC⟩

/-! ### A run -/

/-- What the events lead to, if each can happen in its turn. -/
def RingSys.run (c : ConnId) (s : RingSys) (es : List RingEvent) : Option RingSys := es.foldlM (step c) s

theorem reachable_of_run {c : ConnId} {s t : RingSys} {es : List RingEvent} (h : s.Start c) (hrun : s.run c es = some t) :
    (ringSystem c).Reachable t := by
  have hall : ∀ (es : List RingEvent) {s : RingSys}, (ringSystem c).Reachable s → s.run c es = some t →
      (ringSystem c).Reachable t := by
    intro es
    induction es with
    | nil =>
        intro s hs hrun
        cases hrun
        exact hs
    | cons e es ih =>
        intro s hs hrun
        rw [RingSys.run, List.foldlM_cons, Option.bind_eq_bind, Option.bind_eq_some_iff] at hrun
        obtain ⟨s', hstep, hrun'⟩ := hrun
        exact ih (.step hs trivial hstep) hrun'
  exact hall es (.init h) hrun

/-- Import a 32x32 weight, then set the ring up. -/
def importThenRing : Stream :=
  .ofBytes (OrkdMsgType.importW.message 1
      (bytes32 32 ++ bytes32 32 ++ bytes32 1 ++ bytes32 0 ++ bytes64 4096 ++ bytes64 0) ++
    OrkdMsgType.ringSetup.message 6 (bytes64 524736))

def ringStart : RingSys where
  sys := [.accept 5, .message 0 .good, .message 0 .good].foldl next (boot false fun _ => importThenRing)
  ring := .fresh
  client := ⟨.idle, 0, 0⟩
  daemon := .rest
  log := ⟨[], [], 0, fun _ => none, [], []⟩

theorem ringStart_start : ringStart.Start 0 :=
  ⟨boot_run (by decide), ⟨0, by decide, by decide⟩, rfl, ⟨rfl, rfl⟩, rfl, rfl⟩

/-- One row of ones on that weight. -/
def submitOnes : List RingEvent := .submit ⟨1, 1, 32, 32, 1, fun _ => 1⟩ :: List.replicate 4 .client

def serveOnes : List RingEvent := .look 0 :: List.replicate 4 (.service 0 fun _ => 32)

def collectTicket (t : Int) : List RingEvent := .collect t :: List.replicate 4 .client

/-- Two ops in flight, collected the other way round. -/
def ringRunTwo : List RingEvent :=
  submitOnes ++ submitOnes ++ serveOnes ++ serveOnes ++ collectTicket 1 ++ collectTicket 0

theorem ringRunTwo_some : (ringStart.run 0 ringRunTwo).isSome = true := by decide

theorem ring_delivers_two : ∃ s, (ringSystem 0).Reachable s ∧ s.log.numbers = [some 1, some 0] ∧
    ∀ y ∈ s.log.collected, ∃ k x, y.number = some k ∧ s.log.executed[k]? = some x ∧ y.rc = x.rc ∧ y.C = x.result := by
  have hreach := reachable_of_run ringStart_start (Option.some_get ringRunTwo_some).symm
  exact ⟨_, hreach, by decide, (ring_delivers hreach).2.2.1.2⟩

end OrkDriver.Orkd
