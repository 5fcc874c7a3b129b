import OrkDriver.Ssm.Sequences

/-!
Whole sequences where each stage runs over all the chunks at once: slot `cc * nh + h` is head `h` of chunk `cc`, and the
carry goes from slot to slot.
-/

namespace OrkDriver.Ssm.Scan

open Lib Lib.Assign

variable {R : Type*} [CommRing R] {q : Scan R} {m : Mem R} {seq : Nat}

/-- What slot `S` holds, from what the slot of a head and a chunk does. -/
def atSlot (q : Scan R) (f : Nat → Nat → Facts R) (S : Nat) : Facts R := f (S / q.z.nh) (S % q.z.nh)

theorem block_inj {cc : Nat} : ∀ i < q.z.nh, ∀ j < q.z.nh, cc * q.z.nh + i = cc * q.z.nh + j → i = j :=
  fun _ _ _ _ h => Nat.add_left_cancel h

/-- The phases up to the products that do not need the carry. -/
def batchedFront (q : Scan R) (seq : Nat) : List (Stmt R) :=
  (times q.chunks fun cc =>
    (times q.z.nh fun h => q.prep seq cc h (cc * q.z.nh + h))
    ++ times q.z.nh fun h => q.gramOperands seq cc h (cc * q.z.nh + h) ++ q.inputOperands (cc * q.z.nh + h))
  ++ stg (q.chunks * q.z.nh) .pS q.z.csz q.z.nc q.z.csz .aS .bS .G
  ++ (times q.chunks fun cc => times q.z.nh fun h =>
    q.maskOperand (cc * q.z.nh + h) ++ q.decayOperand seq cc h (cc * q.z.nh + h))
  ++ q.stgs (q.chunks * q.z.nh)

def frontArrays : List Arr :=
  [.buf .Acs, .buf .xbar, .buf .Acl, .buf .aS, .buf .aO, .buf .bS, .buf .aC, .buf .bD, .weight .pS, .buf .G, .buf .aD,
    .buf .bC, .weight .pD, .buf .Yd, .weight .pC, .buf .cs]

/-- What the front leaves. -/
def fronted (q : Scan R) (seq cc h : Nat) : Facts R :=
  q.prepared seq cc h ++ q.operands seq cc h ++ q.intra seq cc h ++ q.contributed seq cc h

theorem blocks_all (hcsz : 0 < q.z.csz) : FillsAll q.dims (q.chunks * q.z.nh) id
    (times q.chunks fun cc =>
      (times q.z.nh fun h => q.prep seq cc h (cc * q.z.nh + h))
      ++ times q.z.nh fun h => q.gramOperands seq cc h (cc * q.z.nh + h) ++ q.inputOperands (cc * q.z.nh + h))
    [.buf .Acs, .buf .xbar, .buf .Acl, .buf .aS, .buf .aO, .buf .bS, .buf .aC, .buf .bD] (fun _ => [])
    fun S => q.atSlot (q.prepared seq) S ++ (q.atSlot (q.operands seq) S ++ q.atSlot (q.marshalled seq) S) := by
  refine @FillsAll.blocks _ _ _ _ _ _ _ _ (fun _ _ => [])
    (fun cc h => q.prepared seq cc h ++ (q.operands seq cc h ++ q.marshalled seq cc h)) fun cc _ => ?_
  have hprep : FillsAll q.dims q.z.nh (cc * q.z.nh + ·) (times q.z.nh fun h => q.prep seq cc h (cc * q.z.nh + h)) _
      (fun _ => []) (q.prepared seq cc) := prep_all block_inj hcsz
  have hinput : FillsAll q.dims q.z.nh (cc * q.z.nh + ·)
      (times q.z.nh fun h => q.gramOperands seq cc h (cc * q.z.nh + h) ++ q.inputOperands (cc * q.z.nh + h)) _
      (q.prepared seq cc) fun h => q.operands seq cc h ++ q.marshalled seq cc h := input_all block_inj
  exact hprep.append hinput (by simp) (by simp +contextual) (by simp [prepared])

theorem masks_all (hcsz : 0 < q.z.csz) : FillsAll q.dims (q.chunks * q.z.nh) id
    (times q.chunks fun cc => times q.z.nh fun h =>
      q.maskOperand (cc * q.z.nh + h) ++ q.decayOperand seq cc h (cc * q.z.nh + h))
    [.buf .aD, .buf .bC] (fun S => q.atSlot (q.prepared seq) S ++ q.atSlot (q.gram seq) S)
    fun S => q.atSlot (q.masked seq) S ++ q.atSlot (q.decayed seq) S := by
  refine @FillsAll.blocks _ _ _ _ _ _ _ _ (fun cc h => q.prepared seq cc h ++ q.gram seq cc h)
    (fun cc h => q.masked seq cc h ++ q.decayed seq cc h) fun cc _ => ?_
  have hmask : FillsAll q.dims q.z.nh (cc * q.z.nh + ·)
      (times q.z.nh fun h => q.maskOperand (cc * q.z.nh + h) ++ q.decayOperand seq cc h (cc * q.z.nh + h)) _
      (fun h => q.prepared seq cc h ++ q.gram seq cc h) fun h => q.masked seq cc h ++ q.decayed seq cc h :=
    decay_all block_inj hcsz
  exact hmask

theorem front_all (hcsz : 0 < q.z.csz) : FillsAll q.dims (q.chunks * q.z.nh) id (q.batchedFront seq) frontArrays
    (fun _ => []) (q.atSlot (q.fronted seq)) := by
  have hops := @blocks_all R _ q seq hcsz
  have hgram : FillsAll q.dims (q.chunks * q.z.nh) id _ _ (q.atSlot (q.operands seq)) (q.atSlot (q.gram seq)) := gram_stage
  have hmask := @masks_all R _ q seq hcsz
  have hstgs : FillsAll q.dims (q.chunks * q.z.nh) id (q.stgs (q.chunks * q.z.nh)) _
      (fun S => q.atSlot (q.marshalled seq) S ++ q.atSlot (q.masked seq) S ++ q.atSlot (q.decayed seq) S)
      fun S => q.atSlot (q.intra seq) S ++ q.atSlot (q.contributed seq) S := stgs_all
  have h1 := hops.append hgram (L := fun _ => []) (by simp) (by simp +contextual) (by simp [atSlot, prepared, operands, marshalled])
  have h2 := h1.append hmask (fun _ _ _ hp => hp) (by simp +contextual [or_imp])
    (by simp [atSlot, prepared, operands, marshalled, gram])
  have h3 := h2.append hstgs (fun _ _ _ hp => hp) (by simp +contextual [or_imp])
    (by simp [atSlot, prepared, operands, marshalled, gram, masked, decayed])
  exact h3.mono (by simp [frontArrays]) (fun _ _ _ hp => hp) (by simp +contextual [atSlot, fronted, or_imp])

/-! ### The carry, from slot to slot -/

/-- `stp` holds the state a chunk is entered with. -/
def enteredAt (q : Scan R) (seq cc h : Nat) : Facts R := [(.buf .stp, fun i n => q.held seq h i n (cc * q.z.csz))]

/-- From the slots of chunk `c` to those of the next. -/
def carryLink (q : Scan R) (c : Nat) : List (Stmt R) :=
  times q.z.nh fun h => times (q.z.nr * q.z.nc) fun i =>
    [.set (.buf .stp) (((c + 1) * q.z.nh + h) * q.z.nr * q.z.nc + i) fun m =>
      q.exp (m (.buf .Acl) (c * q.z.nh + h)) * m (.buf .stp) ((c * q.z.nh + h) * q.z.nr * q.z.nc + i)
        + m (.buf .cs) ((c * q.z.nh + h) * q.z.nr * q.z.nc + i)]

/-- `s0` into the slots of the first chunk, and from each chunk to the next. -/
def carryChain (q : Scan R) (seq : Nat) : List (Stmt R) :=
  (times q.z.nh fun h => times (q.z.nr * q.z.nc) fun i =>
    [.set (.buf .stp) (h * q.z.nr * q.z.nc + i) fun _ =>
      q.s0 (seq * q.z.nh * q.z.nr * q.z.nc + h * q.z.nr * q.z.nc + i)])
  ++ times (q.chunks - 1) q.carryLink

theorem carryFirst : FillsAll q.dims q.z.nh id
    (times q.z.nh fun h => times (q.z.nr * q.z.nc) fun i =>
      [.set (.buf .stp) (h * q.z.nr * q.z.nc + i) fun _ =>
        q.s0 (seq * q.z.nh * q.z.nr * q.z.nc + h * q.z.nr * q.z.nc + i)])
    [.buf .stp] (fun _ => []) (q.enteredAt seq 0) := by
  refine .times ne_id fun h _ => Fills.sweep rfl fun m _ i _ n _ m' _ => ?_
  rw [Nat.zero_mul, held, Nat.zero_min, stateAt]
  congr 1
  ring

/-- One step of the chain. -/
theorem carryNext {c : Nat}
    (hm : ∀ h < q.z.nh, Holding q.dims m (c * q.z.nh + h)
      (q.prepared seq c h ++ q.contributed seq c h ++ q.enteredAt seq c h)) :
    ∀ h < q.z.nh, Holding q.dims (run m (q.carryLink c)) ((c + 1) * q.z.nh + h) (q.enteredAt seq (c + 1) h) := by
  have hblock : ∀ i < q.z.nh, ∀ j < q.z.nh, c * q.z.nh + i ≠ (c + 1) * q.z.nh + j := by
    intro i hi j _ heq
    rw [Nat.succ_mul] at heq
    omega
  refine run_times_each
    (fun h m => Holding q.dims m (c * q.z.nh + h) (q.prepared seq c h ++ q.contributed seq c h ++ q.enteredAt seq c h))
    (fun h m => Holding q.dims m ((c + 1) * q.z.nh + h) (q.enteredAt seq (c + 1) h)) hm ?_ ?_ ?_
  · intro h hh m hm
    refine holding_sweep rfl fun i hi n hn m' hm' => ?_
    have hstp : m' (.buf .stp) ((c * q.z.nh + h) * q.z.nr * q.z.nc + (i * q.z.nc + n)) =
        q.held seq h i n (c * q.z.csz) := by
      rw [hm' _ _ ?_, ← slot_index]
      · exact hm.cell (f := fun i n => q.held seq h i n (c * q.z.csz)) (by simp [enteredAt]) hi hn
      · rintro ⟨-, hin, -⟩
        rw [← slot_index] at hin
        exact not_inSlot (hblock h hh h hh) hi hn hin
    have hcs : m' (.buf .cs) ((c * q.z.nh + h) * q.z.nr * q.z.nc + (i * q.z.nc + n)) = q.chunkVal seq c h i n := by
      rw [hm' _ _ (by simp), ← slot_index]
      exact hm.cell (f := q.chunkVal seq c h) (by simp [contributed]) hi hn
    have hacl : m' (.buf .Acl) (c * q.z.nh + h) = q.runSum seq c h q.z.csz := by
      rw [hm' _ _ (by simp)]
      exact holding_single rfl hm (by simp [prepared])
    rw [hstp, hcs, hacl, held_next]
  · intro i hi j hj _ m hm
    exact hm.run (sweep_cells (S := (c + 1) * q.z.nh + j) rfl) (.inl (hblock i hi j hj))
  · intro i hi j hj hij m hm
    exact hm.run (sweep_cells (S := (c + 1) * q.z.nh + j) rfl) (.inl fun heq => hij (Nat.add_left_cancel heq))

theorem carryLink_writes {c : Nat} : ∀ s ∈ q.carryLink c,
    WritesIn (Cells q.dims [.buf .stp] fun S => ∃ h < q.z.nh, S = (c + 1) * q.z.nh + h) s := by
  intro s hs
  obtain ⟨h, hh, hs⟩ := mem_times.mp hs
  have hcells : WritesIn (Cells q.dims [.buf .stp] (· = (c + 1) * q.z.nh + h)) s :=
    sweep_cells (show q.dims (.buf .stp) = (q.z.nr, q.z.nc) from rfl) s hs
  refine hcells.mono ?_
  rintro a x ⟨ha, S, hS, hx⟩
  exact ⟨ha, S, ⟨h, hh, hS⟩, hx⟩

theorem carryChain_writes : ∀ s ∈ q.carryChain seq, WritesIn (Cells q.dims [.buf .stp] fun _ => True) s := by
  intro s hs
  rcases List.mem_append.mp hs with hs | hs
  · refine (carryFirst.writes s hs).mono ?_
    rintro a x ⟨ha, S, -, hx⟩
    exact ⟨ha, S, trivial, hx⟩
  · obtain ⟨c, -, hs⟩ := mem_times.mp hs
    refine (carryLink_writes s hs).mono ?_
    rintro a x ⟨ha, S, -, hx⟩
    exact ⟨ha, S, trivial, hx⟩

theorem carryLinks_hold (hm : ∀ cc < q.chunks, ∀ h < q.z.nh, Holding q.dims m (cc * q.z.nh + h)
      (q.prepared seq cc h ++ q.contributed seq cc h))
    (hfirst : ∀ h < q.z.nh, Holding q.dims m (0 * q.z.nh + h) (q.enteredAt seq 0 h)) {n : Nat} (hn : n < q.chunks) :
    (∀ cc < q.chunks, ∀ h < q.z.nh, Holding q.dims (run m (times n q.carryLink)) (cc * q.z.nh + h)
        (q.prepared seq cc h ++ q.contributed seq cc h)) ∧
      ∀ cc ≤ n, ∀ h < q.z.nh, Holding q.dims (run m (times n q.carryLink)) (cc * q.z.nh + h) (q.enteredAt seq cc h) := by
  refine run_times (fun c m => (∀ cc < q.chunks, ∀ h < q.z.nh, Holding q.dims m (cc * q.z.nh + h)
      (q.prepared seq cc h ++ q.contributed seq cc h)) ∧
    ∀ cc ≤ c, ∀ h < q.z.nh, Holding q.dims m (cc * q.z.nh + h) (q.enteredAt seq cc h)) ⟨hm, ?_⟩ ?_
  · intro cc hcc h hh
    obtain rfl := Nat.le_zero.mp hcc
    exact hfirst h hh
  · rintro c hc m ⟨hfacts, hdone⟩
    constructor
    · exact fun cc hcc h hh => (hfacts cc hcc h hh).run carryLink_writes (.inr (by simp [prepared, contributed]))
    · intro cc hcc h hh
      rcases Nat.le_succ_iff.mp hcc with hle | rfl
      · refine (hdone cc hle h hh).run carryLink_writes (.inl ?_)
        rintro ⟨h', hh', heq⟩
        rw [(digits_inj hh hh' heq).1] at hle
        exact Nat.not_succ_le_self c hle
      · have hlt : c < q.chunks := Nat.lt_trans hc hn
        exact carryNext (fun h hh => (hfacts c hlt h hh).append (hdone c (Nat.le_refl c) h hh)) h hh

/-- The chain takes every chunk to the state it is entered with. -/
theorem carryChain_holds (hm : ∀ cc < q.chunks, ∀ h < q.z.nh, Holding q.dims m (cc * q.z.nh + h)
      (q.prepared seq cc h ++ q.contributed seq cc h)) :
    ∀ cc < q.chunks, ∀ h < q.z.nh, Holding q.dims (run m (q.carryChain seq)) (cc * q.z.nh + h) (q.enteredAt seq cc h) := by
  intro cc hcc
  have hcarry := @carryFirst R _ q seq
  have hfirst := hcarry.holds m fun _ _ => by simp [Holding]
  rw [carryChain, run_append]
  refine (carryLinks_hold ?_ ?_ (Nat.sub_lt (Nat.zero_lt_of_lt hcc) Nat.one_pos)).2 cc (Nat.le_sub_one_of_lt hcc)
  · exact fun cc hcc h hh => (hm cc hcc h hh).run hcarry.writes (.inr (by simp [prepared, contributed]))
  · intro h hh
    rw [Nat.zero_mul, Nat.zero_add]
    exact hfirst h hh

/-! ### A whole sequence -/

theorem of_slots {f : Nat → Nat → Facts R}
    (h : ∀ S < q.chunks * q.z.nh, Holding q.dims m S (q.atSlot f S)) :
    ∀ cc < q.chunks, ∀ h < q.z.nh, Holding q.dims m (cc * q.z.nh + h) (f cc h) := by
  intro cc hcc i hi
  have hone := h (cc * q.z.nh + i) (digits_lt hcc hi)
  obtain ⟨hdiv, hmod⟩ := digits_div_mod hi cc
  rwa [atSlot, hdiv, hmod] at hone

theorem to_slots {f : Nat → Nat → Facts R}
    (h : ∀ cc < q.chunks, ∀ h < q.z.nh, Holding q.dims m (cc * q.z.nh + h) (f cc h)) :
    ∀ S < q.chunks * q.z.nh, Holding q.dims m S (q.atSlot f S) := by
  intro S hS
  have hnh : 0 < q.z.nh := Nat.pos_of_ne_zero fun h => by simp [h] at hS
  have hone := h (S / q.z.nh) ((Nat.div_lt_iff_lt_mul hnh).mpr hS) (S % q.z.nh) (Nat.mod_lt S hnh)
  rwa [Nat.div_add_mod'] at hone

/-- The last operand and its stage. -/
def batchedTail (q : Scan R) : List (Stmt R) :=
  (times q.chunks fun cc => times q.z.nh fun h => q.stateOperand .stp (cc * q.z.nh + h))
  ++ stg (q.chunks * q.z.nh) .pO q.z.csz q.z.nc q.z.nr .aO .bO .tmp

theorem tail_all : FillsAll q.dims (q.chunks * q.z.nh) id q.batchedTail [.buf .bO, .weight .pO, .buf .tmp] (fun S => q.atSlot (q.enteredAt seq) S ++ q.atSlot (q.fronted seq) S)
    fun S => q.atSlot (q.carried seq) S ++ q.atSlot (q.inter seq) S := by
  have hstate : FillsAll q.dims (q.chunks * q.z.nh) id
      (times q.chunks fun cc => times q.z.nh fun h => q.stateOperand .stp (cc * q.z.nh + h)) [.buf .bO]
      (q.atSlot (q.enteredAt seq)) (q.atSlot (q.carried seq)) := by
    refine @FillsAll.blocks _ _ _ _ _ _ _ _ (q.enteredAt seq) (q.carried seq) fun cc _ => ?_
    exact .times block_inj fun h _ => state_fills rfl (by decide)
  have hinter : FillsAll q.dims (q.chunks * q.z.nh) id _ _
      (fun S => q.atSlot (q.operands seq) S ++ q.atSlot (q.carried seq) S) (q.atSlot (q.inter seq)) := inter_stage
  refine hstate.append hinter (by simp +contextual) ?_ (by simp [atSlot, carried])
  intro S _ p hp
  rcases List.mem_append.mp hp with hp | hp
  · have hoff : ∀ p ∈ q.atSlot (q.operands seq) S, p.1 ∉ [Arr.buf .bO] := by simp [atSlot, operands]
    have hmem : p ∈ q.atSlot (q.fronted seq) S := by
      simp only [atSlot, fronted, List.mem_append]
      exact .inl (.inl (.inr hp))
    exact .inl ⟨List.mem_append_right _ hmem, hoff p hp⟩
  · exact .inr hp

/-- The rows of all the chunks. -/
def batchedPost (q : Scan R) (seq : Nat) : List (Stmt R) :=
  times (q.chunks * q.z.nh) fun S => q.post seq (S / q.z.nh) (S % q.z.nh) S

/-- `s_new`, from the slots of the last chunk. -/
def batchedEnd (q : Scan R) (seq : Nat) : List (Stmt R) :=
  times q.z.nh fun h => times (q.z.nr * q.z.nc) fun i =>
    [.set .sNew (seq * q.z.nh * q.z.nr * q.z.nc + (h * q.z.nr * q.z.nc + i)) fun m =>
      q.exp (m (.buf .Acl) ((q.chunks - 1) * q.z.nh + h))
        * m (.buf .stp) (((q.chunks - 1) * q.z.nh + h) * q.z.nr * q.z.nc + i)
        + m (.buf .cs) (((q.chunks - 1) * q.z.nh + h) * q.z.nr * q.z.nc + i)]

theorem batched_eq : q.batched seq =
    q.batchedFront seq ++ q.carryChain seq ++ q.batchedTail ++ q.batchedPost seq ++ q.batchedEnd seq := by
  have hpost : (times q.chunks fun cc => times q.z.nh fun h => q.post seq cc h (cc * q.z.nh + h)) = q.batchedPost seq := by
    rw [times_times, batchedPost]
    simp only [Nat.div_add_mod']
  rw [batched, hpost, Nat.mul_comm q.z.nh q.chunks]
  simp only [batchedFront, carryChain, batchedTail, batchedEnd, List.append_assoc, Nat.add_assoc]
  rfl

theorem batchedPost_writes : ∀ s ∈ q.batchedPost seq, WritesIn (fun a x => a = .y ∧ q.Own seq a x) s := by
  refine forall_mem_times fun S hS s hs => ?_
  have hnh : 0 < q.z.nh := Nat.pos_of_ne_zero fun h => by simp [h] at hS
  refine (post_writes (Nat.mod_lt S hnh) s hs).mono ?_
  rintro a x ⟨rfl, l, -, ht, hin⟩
  exact ⟨rfl, S / q.z.nh * q.z.csz + l, ht, hin⟩

/-- What is known of a slot when all the products are there. -/
def finished (q : Scan R) (seq cc h : Nat) : Facts R := q.multiplied seq cc h ++ q.enteredAt seq cc h

theorem batched_products (hcsz : 0 < q.z.csz) : ∀ S < q.chunks * q.z.nh,
    Holding q.dims (run m (q.batchedFront seq ++ q.carryChain seq ++ q.batchedTail)) S (q.atSlot (q.finished seq) S) := by
  have htail := @tail_all R _ q seq
  rw [run_append, run_append]
  have hfronted := of_slots ((@front_all R _ q seq hcsz).holds m fun _ _ => by simp [Holding])
  generalize run m (q.batchedFront seq) = m₁ at hfronted
  have hchain : ∀ cc < q.chunks, ∀ h < q.z.nh, Holding q.dims m₁ (cc * q.z.nh + h)
      (q.prepared seq cc h ++ q.contributed seq cc h) :=
    fun cc hcc h hh => (hfronted cc hcc h hh).mono (by simp +contextual [fronted, or_imp])
  have hkept : ∀ cc < q.chunks, ∀ h < q.z.nh, Holding q.dims (run m₁ (q.carryChain seq)) (cc * q.z.nh + h)
      (q.enteredAt seq cc h ++ q.fronted seq cc h) := fun cc hcc h hh =>
    (carryChain_holds hchain cc hcc h hh).append ((hfronted cc hcc h hh).run carryChain_writes
      (.inr (by simp [fronted, prepared, operands, intra, contributed])))
  generalize run m₁ (q.carryChain seq) = m₂ at hkept
  have hslots : ∀ S < q.chunks * q.z.nh, Holding q.dims m₂ S (q.atSlot (q.enteredAt seq) S ++ q.atSlot (q.fronted seq) S) :=
    to_slots hkept
  intro S hS
  have hold := (hslots S hS).run htail.writes
    (.inr (by simp [atSlot, enteredAt, fronted, prepared, operands, intra, contributed]))
  exact (hold.append (htail.holds m₂ hslots S hS)).mono (by simp +contextual [atSlot, finished, multiplied, fronted, or_imp])

theorem batched_done (hcsz : 0 < q.z.csz) (hchunks : 0 < q.chunks) : q.Done (run m (q.batched seq)) seq := by
  have hproducts := @batched_products R _ q m seq hcsz
  rw [batched_eq, run_append, run_append]
  generalize run m (q.batchedFront seq ++ q.carryChain seq ++ q.batchedTail) = m₁ at hproducts
  constructor
  · intro t ht h hh i hi
    have hcc : t / q.z.csz < q.chunks := div_lt_pieces hcsz ht
    obtain ⟨hdiv, hmod⟩ := digits_div_mod hh (t / q.z.csz)
    have hrows : ∀ S < q.chunks * q.z.nh, ∀ l < q.z.csz, S / q.z.nh * q.z.csz + l < q.nt → ∀ j < q.z.nr,
        run m₁ (q.batchedPost seq) .y (((seq * q.nt + (S / q.z.nh * q.z.csz + l)) * q.z.nh + S % q.z.nh) * q.z.nr + j) =
          q.output seq (S % q.z.nh) (S / q.z.nh * q.z.csz + l) j :=
      post_all (fun S _ => Nat.mod_lt S (Nat.zero_lt_of_lt hh)) fun S hS =>
        (hproducts S hS).mono fun p hp => List.mem_append_left _ hp
    have hrow := hrows (t / q.z.csz * q.z.nh + h) (digits_lt hcc hh) (t % q.z.csz) (Nat.mod_lt t hcsz)
    rw [hdiv, hmod, Nat.div_add_mod'] at hrow
    rw [batchedEnd, final_y]
    exact hrow ht i hi
  · have hlast : q.chunks - 1 < q.chunks := Nat.sub_lt hchunks Nat.one_pos
    have hkept : ∀ h < q.z.nh, Holding q.dims (run m₁ (q.batchedPost seq)) ((q.chunks - 1) * q.z.nh + h)
        (q.finished seq (q.chunks - 1) h) := fun h hh =>
      (of_slots hproducts (q.chunks - 1) hlast h hh).of_eq fun p hp =>
        run_array (W := (· = .y)) (fun s hs => (batchedPost_writes s hs).mono fun _ _ h => h.1) (by
          revert p
          simp [finished, multiplied, prepared, intra, contributed, inter, enteredAt])
    refine final_of_values ?_ ?_
    · intro h x m m' hm
      rw [hm (.buf .Acl) (by simp), hm (.buf .stp) (by simp), hm (.buf .cs) (by simp)]
    · intro h hh i hi n hn
      have hslot := hkept h hh
      have hacl : run m₁ (q.batchedPost seq) (.buf .Acl) ((q.chunks - 1) * q.z.nh + h) =
          q.runSum seq (q.chunks - 1) h q.z.csz := holding_single rfl hslot (by simp [finished, multiplied, prepared])
      have hstp : run m₁ (q.batchedPost seq) (.buf .stp) (((q.chunks - 1) * q.z.nh + h) * q.z.nr * q.z.nc + (i * q.z.nc + n)) =
          q.held seq h i n ((q.chunks - 1) * q.z.csz) := by
        rw [← slot_index]
        exact hslot.cell (f := fun i n => q.held seq h i n ((q.chunks - 1) * q.z.csz)) (by simp [finished, enteredAt]) hi hn
      have hcs : run m₁ (q.batchedPost seq) (.buf .cs) (((q.chunks - 1) * q.z.nh + h) * q.z.nr * q.z.nc + (i * q.z.nc + n)) =
          q.chunkVal seq (q.chunks - 1) h i n := by
        rw [← slot_index]
        exact hslot.cell (f := q.chunkVal seq (q.chunks - 1) h) (by simp [finished, multiplied, contributed]) hi hn
      rw [hacl, hstp, hcs, held_next, Nat.sub_add_cancel hchunks, held_chunks hcsz]

theorem batched_own (hcsz : 0 < q.z.csz) : ∀ s ∈ q.batched seq, WritesIn (q.Own seq) s := by
  intro s hs
  rw [batched_eq] at hs
  rcases List.mem_append.mp hs with hs | hs
  · rcases List.mem_append.mp hs with hs | hs
    · rcases List.mem_append.mp hs with hs | hs
      · rcases List.mem_append.mp hs with hs | hs
        · exact own_of_cells (front_all hcsz).writes (by simp [frontArrays]) (by simp [frontArrays]) s hs
        · exact own_of_cells carryChain_writes (by simp) (by simp) s hs
      · exact own_of_cells (@tail_all R _ q seq).writes (by simp) (by simp) s hs
    · exact (batchedPost_writes s hs).mono fun _ _ h => h.2
  · exact final_writes s hs

end OrkDriver.Ssm.Scan
