import OrkDriver.Orkd.RingTail

/-!
What every step at the A-ring keeps: which slot holds what, how far the two cursors are apart, and what the client and
the daemon know about the slot they are at.
-/

namespace OrkDriver.Orkd

/-! ### What lies in a slot -/

/-- The arguments that `orkd_ring_submit` takes: positive sizes of type `int`, and both payloads fit a slot. -/
structure RingOp.Fits (o : RingOp) : Prop where
  isInt : o.IsInt
  M : 0 < o.M
  K : 0 < o.K
  N : 0 < o.N
  abytes : o.abytes ≤ 65536
  cbytes : o.cbytes ≤ 65536

/-- What the daemon is to find for an op: the request and A. -/
def RingOp.input (o : RingOp) : RingRequest × List UInt8 :=
  (⟨8, 65536, o.weightId, .ofNat o.M.toNat, .ofNat o.N.toNat, o.dtype, .ofNat o.abytes⟩, o.A.take o.abytes)

def RingRun.input (x : RingRun) : RingRequest × List UInt8 := (x.request, x.A)

theorem cInt_toNat {z : Int} (h0 : 0 < z) (h : z < 2 ^ 31) : cInt (.ofNat z.toNat) = z := by
  have h32 : z.toNat < 2 ^ 32 := by omega
  unfold cInt
  rw [UInt32.toNat_ofNat_of_lt' h32, if_pos (by omega)]
  omega

/-- Both sides compute the size of C alike. -/
theorem ringCbytes_input {o : RingOp} (h : o.Fits) : ringCbytes o.input.1 = o.cbytes := by
  obtain ⟨hM, -, hN⟩ := h.isInt
  have hprod : o.M * o.N * 4 = ((o.cbytes : Nat) : Int) := by
    have hM' := Int.toNat_of_nonneg (Int.le_of_lt h.M)
    have hN' := Int.toNat_of_nonneg (Int.le_of_lt h.N)
    simp only [RingOp.cbytes, Int.natCast_mul, hM', hN', Int.cast_ofNat_Int]
  have hle := h.cbytes
  simp only [ringCbytes, RingOp.input, cInt_toNat h.M hM, cInt_toNat h.N hN, cSize, hprod]
  omega

/-- The request of an op, as far as the daemon reads it. -/
structure Requested (o : RingOp) (sl : RingSlot) : Prop where
  weightId : sl.weightId = o.weightId
  M : sl.M = .ofNat o.M.toNat
  N : sl.N = .ofNat o.N.toNat
  dtype : sl.dtype = o.dtype
  abytes : sl.abytes = .ofNat o.abytes

/-- A of an op. -/
def Loaded (o : RingOp) (sl : RingSlot) : Prop := ∀ j, j < o.abytes → sl.data j = o.A j

/-- The response to an op. -/
structure Response (x : RingRun) (sl : RingSlot) : Prop where
  rc : sl.rc = x.rc
  cbytes : sl.cbytes = .ofNat (ringCbytes x.request)
  data : x.rc = 0 → ∀ j, j < ringCbytes x.request → sl.data j = x.bytes j

theorem requested_fill (sl : RingSlot) (o : RingOp) (domain : UInt32) : Requested o (sl.fill o domain) :=
  ⟨rfl, rfl, rfl, rfl, rfl⟩

theorem Requested.congr {o : RingOp} {sl sl' : RingSlot} (h : Requested o sl) (hw : sl'.weightId = sl.weightId)
    (hM : sl'.M = sl.M) (hN : sl'.N = sl.N) (hd : sl'.dtype = sl.dtype) (ha : sl'.abytes = sl.abytes) : Requested o sl' :=
  ⟨hw.trans h.weightId, hM.trans h.M, hN.trans h.N, hd.trans h.dtype, ha.trans h.abytes⟩

theorem loaded_copyBytes (o : RingOp) (sl : RingSlot) :
    Loaded o { sl with data := copyBytes o.abytes o.A sl.data } := by
  intro j hj
  simp only [copyBytes, if_pos hj]

/-- What the daemon finds is what the client has put there. -/
theorem input_of_requested {o : RingOp} {r : OrkdRing} {i : Nat} (hns : r.nslots = 8) (hsd : r.slotData = 65536)
    (ho : o.Fits) (hr : Requested o (r.slot i)) (hl : Loaded o (r.slot i)) (d : Daemon) (cl : Client) (rc : Int)
    (out : Nat → UInt32) : (ringRun d cl r i rc out).input = o.input := by
  have hab : (UInt32.ofNat o.abytes).toNat = o.abytes :=
    UInt32.toNat_ofNat_of_lt' (Nat.lt_of_le_of_lt ho.abytes (by decide))
  simp only [RingRun.input, ringRun, OrkdRing.request, RingOp.input, hns, hsd, hr.weightId, hr.M, hr.N, hr.dtype,
    hr.abytes, hab, Stream.take]
  congr 1
  apply List.map_congr_left
  intro j hj
  exact hl j (List.mem_range.mp hj)

/-- What `orkd_ring_collect` copies out is what the run gave. -/
theorem take_of_response {x : RingRun} {sl : RingSlot} (h : Response x sl) (hc : ringCbytes x.request ≤ 65536) :
    (if sl.rc = 0 then sl.data.take sl.cbytes.toNat else []) = x.result := by
  have hcb : sl.cbytes.toNat = ringCbytes x.request := by
    rw [h.cbytes]
    exact UInt32.toNat_ofNat_of_lt' (Nat.lt_of_le_of_lt hc (by decide))
  rw [h.rc, hcb]
  unfold RingRun.result
  by_cases hrc : x.rc = 0
  · rw [if_pos hrc, if_pos hrc]
    apply List.map_congr_left
    intro j hj
    exact h.data hrc j (List.mem_range.mp hj)
  · rw [if_neg hrc, if_neg hrc]

theorem atRest_eq {pc : RingServicePc} (h : pc.isRest = true) : pc = .rest := by
  cases pc with
  | rest => rfl
  | _ => cases h

/-- The daemon is past its run, and A need not be in the slot any more. -/
def RingServicePc.Past : RingServicePc → Prop
  | .answer .. | .publish .. => True
  | .rest | .found .. | .ran .. => False

/-- Slot `j` is free, holds a request, or holds a response. -/
inductive SlotOk (log : RingLog) (past : Prop) (j : Nat) (sl : RingSlot) : Prop
  | free : log.live j = none → sl.state = .empty → SlotOk log past j sl
  | waiting {k : Nat} {o : RingOp} : log.live j = some k → log.answered ≤ k → log.submitted[k]? = some o →
      sl.state = .req → Requested o sl → (k = log.answered ∧ past ∨ Loaded o sl) → SlotOk log past j sl
  | done {k : Nat} {x : RingRun} : log.live j = some k → k < log.answered → log.executed[k]? = some x →
      sl.state = .resp → Response x sl → SlotOk log past j sl

namespace SlotOk

variable {log log' : RingLog} {past past' : Prop} {j : Nat} {sl : RingSlot}

theorem empty (h : SlotOk log past j sl) (hl : log.live j = none) : sl.state = .empty := by
  cases h with
  | free _ he => exact he
  | waiting hk _ _ _ _ _ => rw [hk] at hl; cases hl
  | done hk _ _ _ _ => rw [hk] at hl; cases hl

theorem live_none (h : SlotOk log past j sl) (hs : sl.state = .empty) : log.live j = none := by
  cases h with
  | free hl _ => exact hl
  | waiting _ _ _ hq _ _ => rw [hq] at hs; cases hs
  | done _ _ _ hr _ => rw [hr] at hs; cases hs

theorem request (h : SlotOk log past j sl) (hs : sl.state = .req) :
    ∃ k o, log.live j = some k ∧ log.answered ≤ k ∧ log.submitted[k]? = some o ∧ Requested o sl ∧
      (k = log.answered ∧ past ∨ Loaded o sl) := by
  cases h with
  | free _ he => rw [he] at hs; cases hs
  | waiting hl hk ho _ hr hload => exact ⟨_, _, hl, hk, ho, hr, hload⟩
  | done _ _ _ hr _ => rw [hr] at hs; cases hs

theorem response (h : SlotOk log past j sl) (hs : sl.state = .resp) :
    ∃ k x, log.live j = some k ∧ k < log.answered ∧ log.executed[k]? = some x ∧ Response x sl := by
  cases h with
  | free _ he => rw [he] at hs; cases hs
  | waiting _ _ _ hq _ _ => rw [hq] at hs; cases hs
  | done hl hk hx _ hr => exact ⟨_, _, hl, hk, hx, hr⟩

/-- The logs may grow, and other slots change; an op that was not the next to be answered is still there. -/
theorem mono (h : SlotOk log past j sl) (hlive : log'.live j = log.live j)
    (hsub : ∀ (k : Nat) (o : RingOp), log.submitted[k]? = some o → log'.submitted[k]? = some o)
    (hexec : ∀ (k : Nat) (x : RingRun), log.executed[k]? = some x → log'.executed[k]? = some x)
    (hle : log.answered ≤ log'.answered)
    (hans : ∀ k, log.live j = some k → log.answered ≤ k → log'.answered ≤ k ∧
      (k = log.answered → past → k = log'.answered ∧ past')) : SlotOk log' past' j sl := by
  cases h with
  | free hl he => exact .free (hlive.trans hl) he
  | waiting hl hk ho hq hr hload =>
      obtain ⟨hk', hpast⟩ := hans _ hl hk
      exact .waiting (hlive.trans hl) hk' (hsub _ _ ho) hq hr (hload.imp_left fun h => hpast h.1 h.2)
  | done hl hk hx hs hr => exact .done (hlive.trans hl) (Nat.lt_of_lt_of_le hk hle) (hexec _ _ hx) hs hr

end SlotOk

/-! ### The invariant -/

/-- Where the daemon is in its pass. -/
def DaemonOk (c : ConnId) (s : RingSys) : RingServicePc → Prop
  | .rest => s.log.executed.length = s.log.answered
  | .found ci i => s.Attached c ci ∧ i = s.log.answered % 8 ∧ s.log.answered < s.log.submitted.length ∧
      s.log.executed.length = s.log.answered
  | .ran ci i x => s.Attached c ci ∧ i = s.log.answered % 8 ∧ s.log.answered < s.log.submitted.length ∧
      s.log.executed.length = s.log.answered + 1 ∧ s.log.executed[s.log.answered]? = some x
  | .answer ci i x => s.Attached c ci ∧ i = s.log.answered % 8 ∧ s.log.answered < s.log.submitted.length ∧
      s.log.executed.length = s.log.answered + 1 ∧ s.log.executed[s.log.answered]? = some x ∧
      (x.rc = 0 → ∀ j, j < ringCbytes x.request → (s.ring.slot i).data j = x.bytes j)
  | .publish ci i x => s.Attached c ci ∧ i = s.log.answered % 8 ∧ s.log.answered < s.log.submitted.length ∧
      s.log.executed.length = s.log.answered + 1 ∧ s.log.executed[s.log.answered]? = some x ∧
      Response x (s.ring.slot i)

/-- Where the client is in its call. -/
def ClientOk (s : RingSys) : RingClientPc → Prop
  | .idle | .gone => True
  | .probe o => o.Fits
  | .fields i o => o.Fits ∧ i = s.log.submitted.length % 8 ∧ s.log.live i = none
  | .payload i o => o.Fits ∧ i = s.log.submitted.length % 8 ∧ s.log.live i = none ∧ Requested o (s.ring.slot i)
  | .publish i o => o.Fits ∧ i = s.log.submitted.length % 8 ∧ s.log.live i = none ∧ Requested o (s.ring.slot i) ∧
      Loaded o (s.ring.slot i)
  | .spin t => t < 8
  | .readRc t => t < 8 ∧ (s.ring.slot t).state = .resp
  | .copyOut t rc => t < 8 ∧ (s.ring.slot t).state = .resp ∧ rc = (s.ring.slot t).rc
  | .release t rc C => t < 8 ∧ (s.ring.slot t).state = .resp ∧ rc = (s.ring.slot t).rc ∧
      C = if rc = 0 then (s.ring.slot t).data.take (s.ring.slot t).cbytes.toNat else []

/-- The numbers of the submissions whose results were collected. -/
def RingLog.numbers (log : RingLog) : List (Option Nat) := log.collected.map Collected.number

/-- What was collected is what the runs gave, once each. -/
structure RingLog.Ok (log : RingLog) : Prop where
  fits : ∀ o ∈ log.submitted, o.Fits
  le : log.answered ≤ log.submitted.length
  le_eight : log.submitted.length ≤ log.answered + 8
  inputs : log.executed.map RingRun.input <+: log.submitted.map RingOp.input
  window : ∀ k, log.answered ≤ k → k < log.submitted.length → log.live (k % 8) = some k
  recent : ∀ j k, j < 8 → log.live j = some k → k % 8 = j ∧ k < log.submitted.length ∧ log.submitted.length ≤ k + 8
  collected : ∀ y ∈ log.collected, ∃ k x, y.number = some k ∧ k < log.answered ∧ log.executed[k]? = some x ∧
    y.rc = x.rc ∧ y.C = x.result
  once : log.numbers.Nodup
  live : ∀ j k, j < 8 → log.live j = some k → some k ∉ log.numbers
  kept : ∀ k, k < log.submitted.length → log.live (k % 8) = some k ∨ some k ∈ log.numbers
  refused : ∀ y ∈ log.refused, y.rc = -2 → y.op.Fits → y.occupant ≠ none

structure RingSys.Ok (c : ConnId) (s : RingSys) : Prop where
  reachable : orkd.Reachable s.sys
  tail : TailAt c s.log.answered s.sys
  nslots : s.ring.nslots = 8
  slotData : s.ring.slotData = 65536
  next : s.client.ringNext.toNat = s.log.submitted.length % 2 ^ 32
  log : s.log.Ok
  slot : ∀ j, j < 8 → SlotOk s.log s.daemon.Past j (s.ring.slot j)
  daemon : DaemonOk c s s.daemon
  client : ClientOk s s.client.pc

/-! ### Changing one slot -/

@[simp] theorem setSlot_self (r : OrkdRing) (i : Nat) (sl : RingSlot) : (r.setSlot i sl).slot i = sl := by
  simp [OrkdRing.setSlot]

theorem setSlot_ne (r : OrkdRing) {i j : Nat} (sl : RingSlot) (h : j ≠ i) : (r.setSlot i sl).slot j = r.slot j := by
  simp [OrkdRing.setSlot, h]

theorem setSlot_slots {log : RingLog} {past : Prop} {r : OrkdRing} {i : Nat} {sl : RingSlot}
    (h : ∀ j, j < 8 → j ≠ i → SlotOk log past j (r.slot j)) (hi : SlotOk log past i sl) (j : Nat) (hj : j < 8) :
    SlotOk log past j ((r.setSlot i sl).slot j) := by
  by_cases hji : j = i
  · subst hji
    rw [setSlot_self]
    exact hi
  · rw [setSlot_ne r sl hji]
    exact h j hj hji

theorem DaemonOk.congr {c : ConnId} {s t : RingSys} {pc : RingServicePc} (h : DaemonOk c s pc) (hsys : t.sys = s.sys)
    (hans : t.log.answered = s.log.answered) (hexec : t.log.executed = s.log.executed)
    (hsub : s.log.submitted.length ≤ t.log.submitted.length)
    (hslot : s.log.answered < s.log.submitted.length →
      t.ring.slot (s.log.answered % 8) = s.ring.slot (s.log.answered % 8)) : DaemonOk c t pc := by
  have hatt : ∀ ci, s.Attached c ci → t.Attached c ci := fun ci h => by
    unfold RingSys.Attached at h ⊢
    rw [hsys]
    exact h
  cases pc with
  | rest => simpa only [DaemonOk, hans, hexec] using h
  | found ci i =>
      obtain ⟨ha, hi, hlt, hlen⟩ := h
      exact ⟨hatt ci ha, hans ▸ hi, by omega, by rw [hexec, hans]; exact hlen⟩
  | ran ci i x =>
      obtain ⟨ha, hi, hlt, hlen, hx⟩ := h
      exact ⟨hatt ci ha, hans ▸ hi, by omega, by rw [hexec, hans]; exact hlen, by rw [hexec, hans]; exact hx⟩
  | answer ci i x =>
      obtain ⟨ha, hi, hlt, hlen, hx, hd⟩ := h
      refine ⟨hatt ci ha, hans ▸ hi, by omega, by rw [hexec, hans]; exact hlen, by rw [hexec, hans]; exact hx, ?_⟩
      rw [hi, hslot hlt, ← hi]
      exact hd
  | publish ci i x =>
      obtain ⟨ha, hi, hlt, hlen, hx, hr⟩ := h
      refine ⟨hatt ci ha, hans ▸ hi, by omega, by rw [hexec, hans]; exact hlen, by rw [hexec, hans]; exact hx, ?_⟩
      rw [hi, hslot hlt, ← hi]
      exact hr

theorem ClientOk.congr {s t : RingSys} {pc : RingClientPc} (h : ClientOk s pc)
    (hsub : t.log.submitted = s.log.submitted) (hlive : t.log.live = s.log.live)
    (hslot : ∀ i, i < 8 → (s.log.live i = none ∨ (s.ring.slot i).state = .resp) → t.ring.slot i = s.ring.slot i) :
    ClientOk t pc := by
  have hmod : s.log.submitted.length % 8 < 8 := Nat.mod_lt _ (by decide)
  cases pc with
  | idle => trivial
  | gone => trivial
  | probe o => exact h
  | fields i o =>
      obtain ⟨ho, hi, hl⟩ := h
      exact ⟨ho, hsub ▸ hi, hlive ▸ hl⟩
  | payload i o =>
      obtain ⟨ho, hi, hl, hr⟩ := h
      refine ⟨ho, hsub ▸ hi, hlive ▸ hl, ?_⟩
      rw [hslot i (hi ▸ hmod) (.inl hl)]
      exact hr
  | publish i o =>
      obtain ⟨ho, hi, hl, hr, hd⟩ := h
      refine ⟨ho, hsub ▸ hi, hlive ▸ hl, ?_⟩
      rw [hslot i (hi ▸ hmod) (.inl hl)]
      exact ⟨hr, hd⟩
  | spin t => exact h
  | readRc t =>
      obtain ⟨ht, hs⟩ := h
      refine ⟨ht, ?_⟩
      rw [hslot t ht (.inr hs)]
      exact hs
  | copyOut t rc =>
      obtain ⟨ht, hs, hrc⟩ := h
      refine ⟨ht, ?_⟩
      rw [hslot t ht (.inr hs)]
      exact ⟨hs, hrc⟩
  | release t rc C =>
      obtain ⟨ht, hs, hrc, hC⟩ := h
      refine ⟨ht, ?_⟩
      rw [hslot t ht (.inr hs)]
      exact ⟨hs, hrc, hC⟩

namespace RingLog.Ok

variable {log : RingLog}

theorem refuse (h : log.Ok) {o : RingOp} {rc : Int} {occupant : Option Nat}
    (ho : rc = -2 → o.Fits → occupant ≠ none) : RingLog.Ok { log with refused := log.refused ++ [⟨o, rc, occupant⟩] } :=
  { h with
    refused := fun y hy => by
      rcases List.mem_append.mp hy with hy | hy
      · exact h.refused y hy
      · rw [List.mem_singleton.mp hy]
        exact ho }

/-- A number that is still to be answered is not among the collected ones. -/
theorem not_collected (h : log.Ok) {k : Nat} (hk : log.answered ≤ k) : some k ∉ log.numbers := by
  intro hmem
  obtain ⟨y, hy, hyk⟩ := List.mem_map.mp hmem
  obtain ⟨k', x, hk', hlt, -⟩ := h.collected y hy
  rw [hk'] at hyk
  cases hyk
  omega

/-- A new op goes where the op eight before it was. -/
theorem submit (h : log.Ok) {o : RingOp} (ho : o.Fits) {i : Nat} (hi : i = log.submitted.length % 8)
    (hfree : log.live i = none) :
    RingLog.Ok { log with
      submitted := log.submitted ++ [o]
      live := Function.update log.live i (some log.submitted.length) } := by
  -- the ring was not full: else this slot held the next op to be answered
  have hroom : log.submitted.length < log.answered + 8 := by
    have hle := h.le_eight
    by_contra hfull
    have hwin := h.window log.answered (Nat.le_refl _) (by omega)
    have hmod : log.answered % 8 = i := by omega
    rw [hmod, hfree] at hwin
    cases hwin
  have hother : ∀ j k, log.live j = some k → j ≠ i := by
    rintro j k hj rfl
    rw [hfree] at hj
    cases hj
  refine ⟨?_, ?_, ?_, ?_, ?_, ?_, h.collected, h.once, ?_, ?_, h.refused⟩
  · intro o' ho'
    rcases List.mem_append.mp ho' with h' | h'
    · exact h.fits o' h'
    · exact List.mem_singleton.mp h' ▸ ho
  · simp only [List.length_append, List.length_singleton]
    exact Nat.le_succ_of_le h.le
  · simp only [List.length_append, List.length_singleton]
    omega
  · rw [List.map_append]
    exact h.inputs.trans (List.prefix_append _ _)
  · intro k hk hlt
    simp only [List.length_append, List.length_singleton] at hlt
    by_cases hlast : k = log.submitted.length
    · subst hlast
      rw [← hi]
      exact Function.update_self ..
    · have hold := h.window k hk (by omega)
      exact (Function.update_of_ne (hother _ _ hold) _ _).trans hold
  · intro j k hj hjk
    simp only [List.length_append, List.length_singleton] at hjk ⊢
    by_cases hji : j = i
    · subst hji
      rw [Function.update_self] at hjk
      cases hjk
      exact ⟨hi.symm, by omega, by omega⟩
    · rw [Function.update_of_ne hji] at hjk
      obtain ⟨hmod, hlt, hle⟩ := h.recent j k hj hjk
      refine ⟨hmod, by omega, ?_⟩
      have : k + 8 ≠ log.submitted.length := by omega
      omega
  · intro j k hj hjk
    dsimp only at hjk
    by_cases hji : j = i
    · subst hji
      rw [Function.update_self] at hjk
      cases hjk
      exact h.not_collected h.le
    · rw [Function.update_of_ne hji] at hjk
      exact h.live j k hj hjk
  · intro k hk
    simp only [List.length_append, List.length_singleton] at hk
    by_cases hlast : k = log.submitted.length
    · subst hlast
      left
      rw [← hi]
      exact Function.update_self ..
    · refine (h.kept k (by omega)).imp_left fun hold => ?_
      exact (Function.update_of_ne (hother _ _ hold) _ _).trans hold

/-- The result of op `k` is handed out and its slot given back. -/
theorem collect (h : log.Ok) {t k : Nat} {x : RingRun} (ht : t < 8) (hk : log.live t = some k) (hlt : k < log.answered)
    (hx : log.executed[k]? = some x) :
    RingLog.Ok { log with
      live := Function.update log.live t none
      collected := log.collected ++ [⟨t, some k, x.rc, x.result⟩] } := by
  obtain ⟨hmod, hks, -⟩ := h.recent t k ht hk
  have hnew := h.live t k ht hk
  have hnumbers : (log.collected ++ [(⟨t, some k, x.rc, x.result⟩ : Collected)]).map Collected.number =
      log.numbers ++ [some k] := by
    rw [List.map_append]
    rfl
  refine ⟨h.fits, h.le, h.le_eight, h.inputs, ?_, ?_, ?_, ?_, ?_, ?_, h.refused⟩
  · intro k' hk' hlt'
    dsimp only at hk' hlt'
    have hold := h.window k' hk' hlt'
    refine (Function.update_of_ne ?_ _ _).trans hold
    intro heq
    rw [heq, hk] at hold
    cases hold
    omega
  · intro j k' hj hjk
    dsimp only at hjk
    by_cases hjt : j = t
    · subst hjt
      rw [Function.update_self] at hjk
      cases hjk
    · rw [Function.update_of_ne hjt] at hjk
      exact h.recent j k' hj hjk
  · intro y hy
    rcases List.mem_append.mp hy with hy | hy
    · exact h.collected y hy
    · rw [List.mem_singleton.mp hy]
      exact ⟨k, x, rfl, hlt, hx, rfl, rfl⟩
  · rw [RingLog.numbers, hnumbers]
    exact List.nodup_append.mpr ⟨h.once, List.nodup_singleton _, by
      intro a ha b hb
      rw [List.mem_singleton.mp hb]
      exact fun heq => hnew (heq ▸ ha)⟩
  · intro j k' hj hjk
    dsimp only at hjk
    by_cases hjt : j = t
    · subst hjt
      rw [Function.update_self] at hjk
      cases hjk
    · rw [Function.update_of_ne hjt] at hjk
      rw [RingLog.numbers, hnumbers, List.mem_append, List.mem_singleton]
      rintro (hmem | heq)
      · exact h.live j k' hj hjk hmem
      · cases heq
        exact hjt ((h.recent j k hj hjk).1.symm.trans hmod)
  · intro k' hk'
    rw [RingLog.numbers, hnumbers, List.mem_append, List.mem_singleton]
    by_cases hkk : k' = k
    · exact .inr (.inr (congrArg some hkk))
    · rcases h.kept k' hk' with hold | hold
      · refine .inl ((Function.update_of_ne ?_ _ _).trans hold)
        intro heq
        rw [heq, hk] at hold
        cases hold
        exact hkk rfl
      · exact .inr (.inl hold)

/-- The next op is run. -/
theorem run (h : log.Ok) (hlen : log.executed.length = log.answered) {o : RingOp} {x : RingRun}
    (ho : log.submitted[log.answered]? = some o) (hx : x.input = o.input) :
    RingLog.Ok { log with executed := log.executed ++ [x] } := by
  refine { h with inputs := ?_, collected := ?_ }
  · obtain ⟨rest, hrest⟩ := h.inputs
    have hget : (log.submitted.map RingOp.input)[log.answered]? = some o.input := by
      rw [List.getElem?_map, ho]
      rfl
    rw [← hrest, List.getElem?_append_right (by simp [hlen]), List.length_map, hlen, Nat.sub_self] at hget
    cases rest with
    | nil => simp at hget
    | cons y rest =>
        simp only [List.getElem?_cons_zero, Option.some.injEq] at hget
        refine ⟨rest, ?_⟩
        rw [← hrest, List.map_append, hget, ← hx]
        simp
  · intro y hy
    obtain ⟨k, x', hn, hlt, hx', hrc, hC⟩ := h.collected y hy
    exact ⟨k, x', hn, hlt, (List.getElem?_append_left (by omega)).trans hx', hrc, hC⟩

theorem answer (h : log.Ok) (hlt : log.answered < log.submitted.length) :
    RingLog.Ok { log with answered := log.answered + 1 } :=
  { h with
    le := hlt
    le_eight := by have := h.le_eight; simp only; omega
    window := fun k hk hks => h.window k (by simp only at hk; omega) hks
    collected := fun y hy => by
      obtain ⟨k, x, hn, hk, hx⟩ := h.collected y hy
      exact ⟨k, x, hn, Nat.lt_succ_of_lt hk, hx⟩ }

end RingLog.Ok

end OrkDriver.Orkd
