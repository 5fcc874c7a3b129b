import OrkDriver.Ssm.Phases

/-!
One chunk of a scan: from the state it is entered with to the products of its stages, in all its slots.
-/

namespace OrkDriver.Ssm.Scan

open Lib Lib.Assign

variable {R : Type*} [CommRing R] (q : Scan R)

/-! ### What is known of the slot of head `h` of chunk `cc` -/

section

variable (seq cc h : Nat)

def entered : Facts R := [(.buf .state, fun i n => q.held seq h i n (cc * q.z.csz))]

def marshalled : Facts R :=
  [(.buf .aC, fun i sp => q.xAt seq h (cc * q.z.csz + sp) i), (.buf .bD, fun l i => q.xAt seq h (cc * q.z.csz + l) i)]

def carried : Facts R := [(.buf .bO, fun n i => q.held seq h i n (cc * q.z.csz))]

def gram : Facts R := [(.buf .G, q.gramVal seq cc h)]

def masked : Facts R := [(.buf .aD, q.maskVal seq cc h)]

def decayed : Facts R := [(.buf .bC, q.decayVal seq cc h)]

def intra : Facts R := [(.buf .Yd, q.intraVal seq cc h)]

def contributed : Facts R := [(.buf .cs, q.chunkVal seq cc h)]

def inter : Facts R := [(.buf .tmp, q.interVal seq cc h)]

end

variable {q} {m : Mem R} {seq n : Nat} {slot cs hs : Nat → Nat}

theorem mask_gram {S cc h : Nat} : Fills q.dims S (q.maskOperand S) [.buf .aD]
    [(.buf .G, q.gramVal seq cc h), (.buf .Acs, fun _ l => q.runSum seq cc h (l + 1))] (q.masked seq cc h) :=
  mask_fills

theorem input_slot {S cc h : Nat} : Fills q.dims S (q.inputOperands S) [.buf .aC, .buf .bD]
    [(.buf .xbar, fun l i => q.xAt seq h (cc * q.z.csz + l) i)] (q.marshalled seq cc h) :=
  input_fills

theorem state_slot {S cc h : Nat} : Fills q.dims S (q.stateOperand .state S) [.buf .bO] (q.entered seq cc h)
    (q.carried seq cc h) :=
  state_fills rfl (by decide)

/-! ### The loop nests over a family of slots -/

section

variable (hinj : ∀ i < n, ∀ j < n, slot i = slot j → i = j)

include hinj

theorem prep_all (hcsz : 0 < q.z.csz) : FillsAll q.dims n slot (times n fun i => q.prep seq (cs i) (hs i) (slot i))
    [.buf .Acs, .buf .xbar, .buf .Acl] (fun _ => []) fun i => q.prepared seq (cs i) (hs i) :=
  .times hinj fun _ _ => prep_fills hcsz

theorem gram_all : FillsAll q.dims n slot (times n fun i => q.gramOperands seq (cs i) (hs i) (slot i))
    [.buf .aS, .buf .aO, .buf .bS] (fun _ => []) fun i => q.operands seq (cs i) (hs i) :=
  .times hinj fun _ _ => gram_fills

theorem input_all : FillsAll q.dims n slot
    (times n fun i => q.gramOperands seq (cs i) (hs i) (slot i) ++ q.inputOperands (slot i))
    [.buf .aS, .buf .aO, .buf .bS, .buf .aC, .buf .bD] (fun i => q.prepared seq (cs i) (hs i))
    fun i => q.operands seq (cs i) (hs i) ++ q.marshalled seq (cs i) (hs i) :=
  .times hinj fun _ _ => gram_fills.append input_slot (by simp) (by simp [prepared]) (by simp [operands])

theorem mask_all : FillsAll q.dims n slot (times n fun i => q.maskOperand (slot i)) [.buf .aD]
    (fun i => q.prepared seq (cs i) (hs i) ++ q.gram seq (cs i) (hs i)) fun i => q.masked seq (cs i) (hs i) :=
  .times hinj fun _ _ => mask_gram.mono (by simp [prepared, gram]) fun _ hp => hp

theorem decay_all (hcsz : 0 < q.z.csz) : FillsAll q.dims n slot
    (times n fun i => q.maskOperand (slot i) ++ q.decayOperand seq (cs i) (hs i) (slot i)) [.buf .aD, .buf .bC]
    (fun i => q.prepared seq (cs i) (hs i) ++ q.gram seq (cs i) (hs i))
    fun i => q.masked seq (cs i) (hs i) ++ q.decayed seq (cs i) (hs i) :=
  .times hinj fun _ _ => mask_gram.append (decay_fills hcsz) (by simp [prepared, gram]) (by simp [prepared])
    (by simp [masked])

/-- `ssm_marshal_gi`. -/
theorem marshal_all (hcsz : 0 < q.z.csz) : FillsAll q.dims n slot
    (times n fun i =>
      q.inputOperands (slot i) ++ q.stateOperand .state (slot i) ++ q.decayOperand seq (cs i) (hs i) (slot i))
    [.buf .aC, .buf .bD, .buf .bO, .buf .bC]
    (fun i => q.prepared seq (cs i) (hs i) ++ q.entered seq (cs i) (hs i))
    fun i => q.marshalled seq (cs i) (hs i) ++ q.carried seq (cs i) (hs i) ++ q.decayed seq (cs i) (hs i) := by
  refine .times hinj fun i _ => ?_
  have hboth : Fills q.dims (slot i) _ _ (q.prepared seq (cs i) (hs i) ++ q.entered seq (cs i) (hs i))
      (q.marshalled seq (cs i) (hs i) ++ q.carried seq (cs i) (hs i)) :=
    input_slot.append state_slot (by simp [prepared]) (by simp [entered]) (by simp [marshalled])
  exact hboth.append (decay_fills hcsz) (fun _ hp => hp) (by simp [prepared]) (by simp [marshalled, carried])

/-- The operands of the serial schedule. -/
theorem serial_all : FillsAll q.dims n slot
    (times n fun i =>
      q.gramOperands seq (cs i) (hs i) (slot i) ++ q.inputOperands (slot i) ++ q.stateOperand .state (slot i))
    [.buf .aS, .buf .aO, .buf .bS, .buf .aC, .buf .bD, .buf .bO]
    (fun i => q.prepared seq (cs i) (hs i) ++ q.entered seq (cs i) (hs i))
    fun i => q.operands seq (cs i) (hs i) ++ q.marshalled seq (cs i) (hs i) ++ q.carried seq (cs i) (hs i) := by
  refine .times hinj fun i _ => ?_
  have hinput : Fills q.dims (slot i) _ _ (q.prepared seq (cs i) (hs i) ++ q.entered seq (cs i) (hs i))
      (q.operands seq (cs i) (hs i) ++ q.marshalled seq (cs i) (hs i)) :=
    gram_fills.append input_slot (by simp) (by simp [prepared]) (by simp [operands])
  exact hinput.append state_slot (fun _ hp => hp) (by simp [entered]) (by simp [operands, marshalled])

end

/-! ### The stages -/

section

variable {p : ScratchW} {M K N : Nat} {Aop Bop Cop : Buf} {u w : Nat → Nat → Nat → R}

theorem stg_all (hw : q.z.dims p = (K, N)) (hA : q.dims (.buf Aop) = (M, K)) (hB : q.dims (.buf Bop) = (K, N))
    (hC : q.dims (.buf Cop) = (M, N)) (hAC : Aop ≠ Cop) : FillsAll q.dims n id (stg n p M K N Aop Bop Cop)
      [.weight p, .buf Cop] (fun S => [(.buf Aop, u S), (.buf Bop, w S)])
      fun S => [(.buf Cop, fun r c => dot K (fun k => u S r k) fun k => w S k c)] :=
  ⟨fun s hs => (stg_writes hw hA hB hC hAC s hs).mono fun _ _ h => ⟨h.1, let ⟨S, hS, hx⟩ := h.2; ⟨S, ⟨S, hS, rfl⟩, hx⟩⟩,
    fun _ hm => stg_holding hw hA hB hC hAC hm⟩

end

theorem gram_stage : FillsAll q.dims n id (stg n .pS q.z.csz q.z.nc q.z.csz .aS .bS .G) [.weight .pS, .buf .G]
    (fun i => q.operands seq (cs i) (hs i)) fun i => q.gram seq (cs i) (hs i) :=
  (stg_all rfl rfl rfl rfl (by decide)).mono (fun _ h => h)
    (fun i _ p hp => by rcases List.mem_pair.mp hp with rfl | rfl <;> simp [operands]) fun _ _ _ hp => hp

theorem intra_stage : FillsAll q.dims n id (stg n .pD q.z.csz q.z.csz q.z.nr .aD .bD .Yd) [.weight .pD, .buf .Yd]
    (fun i => q.marshalled seq (cs i) (hs i) ++ q.masked seq (cs i) (hs i)) fun i => q.intra seq (cs i) (hs i) :=
  (stg_all rfl rfl rfl rfl (by decide)).mono (fun _ h => h)
    (fun i _ p hp => by rcases List.mem_pair.mp hp with rfl | rfl <;> simp [marshalled, masked]) fun _ _ _ hp => hp

theorem state_stage : FillsAll q.dims n id (stg n .pC q.z.nr q.z.csz q.z.nc .aC .bC .cs) [.weight .pC, .buf .cs]
    (fun i => q.marshalled seq (cs i) (hs i) ++ q.decayed seq (cs i) (hs i))
    fun i => q.contributed seq (cs i) (hs i) :=
  (stg_all rfl rfl rfl rfl (by decide)).mono (fun _ h => h)
    (fun i _ p hp => by rcases List.mem_pair.mp hp with rfl | rfl <;> simp [marshalled, decayed]) fun _ _ _ hp => hp

theorem inter_stage : FillsAll q.dims n id (stg n .pO q.z.csz q.z.nc q.z.nr .aO .bO .tmp) [.weight .pO, .buf .tmp]
    (fun i => q.operands seq (cs i) (hs i) ++ q.carried seq (cs i) (hs i)) fun i => q.inter seq (cs i) (hs i) :=
  (stg_all rfl rfl rfl rfl (by decide)).mono (fun _ h => h)
    (fun i _ p hp => by rcases List.mem_pair.mp hp with rfl | rfl <;> simp [operands, carried]) fun _ _ _ hp => hp

theorem stgs_all : FillsAll q.dims n id (q.stgs n) [.weight .pD, .buf .Yd, .weight .pC, .buf .cs]
    (fun i => q.marshalled seq (cs i) (hs i) ++ q.masked seq (cs i) (hs i) ++ q.decayed seq (cs i) (hs i))
    fun i => q.intra seq (cs i) (hs i) ++ q.contributed seq (cs i) (hs i) :=
  intra_stage.append state_stage (by simp +contextual [or_imp]) (by simp [marshalled, decayed]) (by simp [intra])

/-! ### The operands of a chunk, in the serial and in the pipelined schedule -/

section

variable {cc : Nat}

theorem ne_id : ∀ i < n, ∀ j < n, id i = id j → i = j := fun _ _ _ _ h => h

/-- The operands of the last three stages. -/
def ready (q : Scan R) (seq cc h : Nat) : Facts R :=
  q.operands seq cc h ++ q.marshalled seq cc h ++ q.carried seq cc h ++ q.masked seq cc h ++ q.decayed seq cc h

/-- The arrays that change up to there. -/
def readied : List Arr :=
  [.buf .aS, .buf .aO, .buf .bS, .buf .aC, .buf .bD, .buf .bO, .weight .pS, .buf .G, .buf .aD, .buf .bC]

theorem serial_front (hcsz : 0 < q.z.csz) : FillsAll q.dims q.z.nh id
    ((times q.z.nh fun h => q.gramOperands seq cc h h ++ q.inputOperands h ++ q.stateOperand .state h)
      ++ stg q.z.nh .pS q.z.csz q.z.nc q.z.csz .aS .bS .G
      ++ times q.z.nh fun h => q.maskOperand h ++ q.decayOperand seq cc h h)
    readied (fun h => q.prepared seq cc h ++ q.entered seq cc h) (q.ready seq cc) := by
  have hops : FillsAll q.dims q.z.nh id _ _ (fun h => q.prepared seq cc h ++ q.entered seq cc h)
      fun h => q.operands seq cc h ++ q.marshalled seq cc h ++ q.carried seq cc h := serial_all ne_id
  have hstage : FillsAll q.dims q.z.nh id _ _ (q.operands seq cc) (q.gram seq cc) := gram_stage
  have hmask : FillsAll q.dims q.z.nh id _ _ (fun h => q.prepared seq cc h ++ q.gram seq cc h)
      fun h => q.masked seq cc h ++ q.decayed seq cc h := decay_all ne_id hcsz
  have hgram := hops.append hstage (fun _ _ _ hp => hp) (by simp +contextual) (by simp [operands, marshalled, carried])
  have hall := hgram.append hmask (fun _ _ _ hp => hp) (by simp +contextual [or_imp, prepared, gram])
    (by simp [operands, marshalled, carried, gram])
  exact hall.mono (by simp [readied]) (fun _ _ _ hp => hp) (by simp +contextual [ready, or_imp])

theorem marshal_readsOff : ∀ s ∈ q.ssmMarshalGi seq cc, ReadsOff (· ∈ [Arr.weight .pS, .buf .G]) s := by
  refine forall_mem_times fun h _ s hs => ?_
  rcases List.mem_append.mp hs with hs | hs
  · rcases List.mem_append.mp hs with hs | hs
    · rcases List.mem_append.mp hs with hs | hs
      · exact fill_readsOff (by simp +contextual) s hs
      · exact fill_readsOff (by simp +contextual) s hs
    · exact fill_readsOff (by simp +contextual) s hs
  · exact fill_readsOff (by simp +contextual) s hs

theorem stg_readsOff {V : Arr → Prop} {p : ScratchW} {M K N : Nat} {Aop Bop Cop : Buf} (hp : ¬ V (.weight p))
    (hA : ¬ V (.buf Aop)) (hB : ¬ V (.buf Bop)) :
    ∀ s ∈ (stg n p M K N Aop Bop Cop : List (Stmt R)), ReadsOff V s := by
  intro s hs
  rcases List.mem_append.mp hs with hs | hs
  · obtain ⟨h, -, hs⟩ := mem_times.mp hs
    rcases List.mem_cons.mp hs with rfl | hs
    · trivial
    · obtain ⟨i, -, hs⟩ := mem_times.mp hs
      obtain rfl := List.mem_singleton.mp hs
      intro m m' hm
      dsimp only
      rw [hm _ hB]
  · rcases List.mem_cons.mp hs with rfl | hs
    · trivial
    · obtain ⟨h, -, hs⟩ := mem_times.mp hs
      obtain ⟨r, -, hs⟩ := mem_times.mp hs
      obtain ⟨c, -, hs⟩ := mem_times.mp hs
      obtain rfl := List.mem_singleton.mp hs
      intro m m' hm
      dsimp only
      rw [hm _ hA, hm _ hp]

/-- Whatever the helper has marshalled when the first stage ends a step, they do not meet. -/
theorem pipelined_front (hcsz : 0 < q.z.csz) (o : List Bool) : FillsAll q.dims q.z.nh id
    ((times q.z.nh fun h => q.gramOperands seq cc h h)
      ++ mix o (q.ssmMarshalGi seq cc) (stg q.z.nh .pS q.z.csz q.z.nc q.z.csz .aS .bS .G)
      ++ times q.z.nh fun h => q.maskOperand h)
    readied (fun h => q.prepared seq cc h ++ q.entered seq cc h) (q.ready seq cc) := by
  have hops : FillsAll q.dims q.z.nh id _ _ (fun _ => []) (q.operands seq cc) := gram_all ne_id
  have hmarshal : FillsAll q.dims q.z.nh id (q.ssmMarshalGi seq cc) _
      (fun h => q.prepared seq cc h ++ q.entered seq cc h)
      fun h => q.marshalled seq cc h ++ q.carried seq cc h ++ q.decayed seq cc h := marshal_all ne_id hcsz
  have hstage : FillsAll q.dims q.z.nh id _ _ (q.operands seq cc) (q.gram seq cc) := gram_stage
  have hmask : FillsAll q.dims q.z.nh id _ _ (fun h => q.prepared seq cc h ++ q.gram seq cc h) (q.masked seq cc) :=
    mask_all ne_id
  have hmix : FillsAll q.dims q.z.nh id _ _
      (fun h => q.prepared seq cc h ++ q.entered seq cc h ++ q.operands seq cc h) _ :=
    hmarshal.mix hstage marshal_readsOff (stg_readsOff (by simp) (by simp) (by simp)) (by simp)
      (fun _ _ _ hp => List.mem_append_left _ hp) (by simp +contextual [operands, or_imp])
      (by simp [marshalled, carried, decayed]) o
  have hoff : ∀ h < q.z.nh, ∀ p ∈ q.prepared seq cc h ++ q.entered seq cc h, p.1 ∉ [Arr.buf .aS, .buf .aO, .buf .bS] := by
    simp [prepared, entered]
  have hfirst := hops.append hmix (L := fun h => q.prepared seq cc h ++ q.entered seq cc h) (by simp)
    (fun h hh p hp => (List.mem_append.mp hp).imp_left fun hp => ⟨hp, hoff h hh p hp⟩) (by simp [operands])
  have hall := hfirst.append hmask (fun _ _ _ hp => hp) (by simp +contextual [or_imp, prepared, gram])
    (by simp [operands, marshalled, carried, decayed, gram])
  exact hall.mono (by simp [readied]) (fun _ _ _ hp => hp) (by simp +contextual [ready, or_imp])

end

end OrkDriver.Ssm.Scan
