import Mathlib.Data.List.Range
import OrkDriver.Lib.Stores

/-!
Synchronous operators that submit without blocking and poll poisoned output cells until a time cap (`orki_submit1_db` of
`submit.c`, `ork_f16_npu_ewmul` and `ork_f16_npu_add` of `perchan.c`). Time is counted in turns of the poll loop.
-/

namespace OrkDriver.Polled

open OrkDriver.Lib

variable {W : Type*} [DecidableEq W]

/-! ### The device -/

/-- What the device does with one submission: whether the driver takes it, the turn of the poll loop that first sees each
cell written (`none`: no turn does), and the words written. The clock passes the cap after turn `cap`. What an earlier
submission writes late is written in the later one's time. -/
structure Device (W : Type*) where
  accepted : Bool
  lands : Nat → Option Nat
  value : Nat → W
  cap : Nat

/-- The cell has been written by turn `k`. -/
def Device.landed (d : Device W) (k i : Nat) : Bool := (d.lands i).any fun t => decide (t ≤ k)

/-- A cell of an output buffer, and whether its word is the device's, of this call. -/
structure Cell (W : Type*) where
  word : W
  written : Bool

abbrev Mem (W : Type*) := Nat → Cell W

/-- The buffer at turn `k`. -/
def Device.after (d : Device W) (mem : Mem W) (k : Nat) : Mem W := fun i =>
  if d.landed k i then ⟨d.value i, true⟩ else mem i

/-- The poll loop, `n` turns before the cap: whether it found the cells done, and in which turn it stopped. -/
def pollLoop (done : Nat → Bool) : Nat → Nat → Bool × Nat
  | 0, k => (done k, k)
  | n + 1, k => if done k then (true, k) else pollLoop done n (k + 1)

theorem pollLoop_cases (done : Nat → Bool) (n k : Nat) :
    (∃ t, k ≤ t ∧ t ≤ k + n ∧ done t = true ∧ (∀ j, k ≤ j → j < t → done j = false) ∧ pollLoop done n k = (true, t)) ∨
    ((∀ j, k ≤ j → j ≤ k + n → done j = false) ∧ pollLoop done n k = (false, k + n)) := by
  induction n generalizing k with
  | zero =>
      cases hd : done k with
      | true => exact .inl ⟨k, le_refl k, le_refl k, hd, fun j h h' => by omega, by rw [pollLoop, hd]⟩
      | false =>
          refine .inr ⟨fun j h h' => ?_, by rw [pollLoop, hd, Nat.add_zero]⟩
          obtain rfl : j = k := by omega
          exact hd
  | succ n ih =>
      rw [pollLoop]
      cases hd : done k with
      | true => exact .inl ⟨k, le_refl k, by omega, hd, fun j h h' => by omega, if_pos rfl⟩
      | false =>
          have hfirst : ∀ j, k ≤ j → (k + 1 ≤ j → done j = false) → done j = false := by
            intro j hk hj
            rcases Nat.eq_or_lt_of_le hk with rfl | hlt
            · exact hd
            · exact hj hlt
          rw [if_neg Bool.false_ne_true]
          rcases ih (k + 1) with ⟨t, hk, hn, ht, hj, hr⟩ | ⟨hj, hr⟩
          · exact .inl ⟨t, by omega, by omega, ht, fun j h h' => hfirst j h fun h1 => hj j h1 h', hr⟩
          · refine .inr ⟨fun j h h' => hfirst j h fun h1 => hj j h1 (by omega), hr.trans ?_⟩
            rw [Nat.add_assoc, Nat.add_comm 1 n]

/-! ### One word -/

/-- `0x7fffffff`. -/
def wordPoison : BitVec 32 := 0x7fffffff#32

/-- The repetitions of `orki_submit1_db`, `li` being the last word. -/
def submitReps (li : Nat) : List (Device (BitVec 32)) → Mem (BitVec 32) → Int × Mem (BitVec 32)
  | [], mem => (0, mem)
  | d :: ds, mem =>
    let seeded := Function.update mem li ⟨wordPoison, false⟩
    if d.accepted then
      let r := pollLoop (fun k => (d.after seeded k li).word ≠ wordPoison) d.cap 0
      let mem := d.after seeded r.2
      if r.1 = false ∧ ds = [] then (-1, mem) else submitReps li ds mem
    else if ds = [] then (-1, seeded)
    else submitReps li ds seeded

/-- `orki_warm_reps`. -/
def orkiWarmReps (e : Option Int) : Nat := if e.getD 2 < 1 then 1 else (e.getD 2).toNat

/-- The repetitions a call makes. -/
def repCount (warmed : Bool) (e : Option Int) : Nat := if warmed then 1 else orkiWarmReps e

/-- `orki_submit1_db`; `device i` is what the device does with repetition `i`. -/
def orkiSubmit1Db (warmed : Bool) (e : Option Int) (device : Nat → Device (BitVec 32)) (nout : Nat)
    (mem : Mem (BitVec 32)) : Int × Mem (BitVec 32) :=
  submitReps (nout - 1) ((List.range (repCount warmed e)).map device) mem

/-! ### A whole surface -/

/-- The infinity that an fp16 surface is seeded with. -/
def f16Poison : BitVec 16 := 0x7c00#16

/-- `EWCUBEH`. -/
def ewCubeH (M m n : Nat) : Nat := n / 8 * (M * 16) + m * 16 + n % 8 * 2

/-- `ORK_SDP_MAXM_F16`. -/
def orkSdpMaxmF16 : Int := 8188

/-- The elements of the output, row by row. -/
def elements (M N : Nat) : List (Nat × Nat) := (List.range M).flatMap fun m => (List.range N).map fun n => (m, n)

/-- The seeded surface. -/
def seededSurface (M N : Nat) : Mem (BitVec 16) :=
  stores (fun _ => ⟨0, false⟩) ((elements M N).map fun p => (ewCubeH M p.1 p.2, ⟨f16Poison, false⟩))

/-- The result of an elementwise operator, and the elements of the surface at the end of its poll loop: with result 0 they
are copied to `out`. -/
def pollSurface (M N : Nat) (d : Device (BitVec 16)) : Int × (Nat × Nat → Cell (BitVec 16)) :=
  let seeded := seededSurface M N
  if d.accepted then
    let r := pollLoop (fun k => (elements M N).all fun p => (d.after seeded k (ewCubeH M p.1 p.2)).word ≠ f16Poison) d.cap 0
    (0, fun p => d.after seeded r.2 (ewCubeH M p.1 p.2))
  else (-1, fun p => seeded (ewCubeH M p.1 p.2))

/-- An fp16 elementwise operator: whether fusing is enabled, and whether its three buffers are granted. -/
def sdpPolled (enabled granted : Bool) (M N : Int) (d : Device (BitVec 16)) : Int × (Nat × Nat → Cell (BitVec 16)) :=
  if enabled = false then (-3, fun _ => ⟨0, false⟩)
  else if M < 1 ∨ M > orkSdpMaxmF16 ∨ N < 8 ∨ N > 8192 ∨ N % 8 ≠ 0 then (-2, fun _ => ⟨0, false⟩)
  else if granted = false then (-2, fun _ => ⟨0, false⟩)
  else pollSurface M.toNat N.toNat d

/-- `ork_f16_npu_ewmul`. -/
def orkF16NpuEwmul (enabled granted : Bool) (M N : Int) (d : Device (BitVec 16)) : Int × (Nat × Nat → Cell (BitVec 16)) :=
  sdpPolled enabled granted M N d

/-- `ork_f16_npu_add`, which keeps its buffers. -/
def orkF16NpuAdd (enabled granted : Bool) (M N : Int) (d : Device (BitVec 16)) : Int × (Nat × Nat → Cell (BitVec 16)) :=
  sdpPolled enabled granted M N d

/-! ### Honest results -/

/-- Success is reported for cells that are all the device's, of this call, and for such cells no failure. -/
def Honest {ι : Type*} (ret : Int) (cells : List ι) (written : ι → Bool) : Prop :=
  (ret = 0 → ∀ i ∈ cells, written i = true) ∧ (cells ≠ [] → (∀ i ∈ cells, written i = true) → ret = 0)

/-! ### One word: what a repetition leaves -/

section

variable {d : Device (BitVec 32)} {ds : List (Device (BitVec 32))} {mem : Mem (BitVec 32)} {li i : Nat}

/-- The last word is written before the cap, and does not look like the seed. -/
def Device.rings (d : Device (BitVec 32)) (li : Nat) : Bool := d.landed d.cap li && decide (d.value li ≠ wordPoison)

/-- The turn the poll loop stops in. -/
def Device.stop (d : Device (BitVec 32)) (li : Nat) : Nat := if d.rings li then (d.lands li).getD 0 else d.cap

/-- The buffer after a repetition. -/
def repMem (li : Nat) (mem : Mem (BitVec 32)) (d : Device (BitVec 32)) : Mem (BitVec 32) :=
  let seeded := Function.update mem li ⟨wordPoison, false⟩
  if d.accepted then d.after seeded (d.stop li) else seeded

/-- Some repetition has written the cell by its end. -/
def wroteEarly (ds : List (Device (BitVec 32))) (li i : Nat) : Bool :=
  ds.any fun d => d.accepted && d.landed (d.stop li) i

theorem landed_iff {W : Type*} {d : Device W} {k i : Nat} : d.landed k i = true ↔ ∃ t, d.lands i = some t ∧ t ≤ k := by
  unfold Device.landed
  cases d.lands i <;> simp

theorem poll_rep (hseed : (mem li).word = wordPoison) :
    pollLoop (fun k => (d.after mem k li).word ≠ wordPoison) d.cap 0 = (d.rings li, d.stop li) := by
  have hdone (k : Nat) : decide ((d.after mem k li).word ≠ wordPoison) = (d.landed k li && decide (d.value li ≠ wordPoison)) := by
    unfold Device.after
    cases d.landed k li <;> simp [hseed]
  rcases pollLoop_cases (fun k => (d.after mem k li).word ≠ wordPoison) d.cap 0 with ⟨t, -, hle, ht, hfirst, hr⟩ | ⟨hnone, hr⟩
  · rw [hdone, Bool.and_eq_true] at ht
    obtain ⟨u, hu, hut⟩ := landed_iff.mp ht.1
    have htu : ¬ u < t := fun hlt => by
      have := hfirst u (Nat.zero_le u) hlt
      rw [hdone, landed_iff.mpr ⟨u, hu, le_refl u⟩, ht.2] at this
      exact Bool.false_ne_true this.symm
    obtain rfl : u = t := by omega
    have hrings : d.rings li = true := by
      rw [Device.rings, landed_iff.mpr ⟨u, hu, by omega⟩, ht.2]
      rfl
    rw [hr, Device.stop, if_pos hrings, hrings, hu]
    rfl
  · have hrings : d.rings li = false := by
      have := hnone d.cap (Nat.zero_le _) (by omega)
      rwa [hdone] at this
    rw [hr, Device.stop, hrings, if_neg Bool.false_ne_true, Nat.zero_add]

theorem submitReps_append (ds : List (Device (BitVec 32))) (d : Device (BitVec 32)) (mem : Mem (BitVec 32)) :
    submitReps li (ds ++ [d]) mem =
      (if d.accepted && d.rings li then 0 else -1, repMem li (ds.foldl (repMem li) mem) d) := by
  have hseed (mem : Mem (BitVec 32)) : (Function.update mem li (⟨wordPoison, false⟩ : Cell (BitVec 32)) li).word = wordPoison := by
    rw [Function.update_self]
  induction ds generalizing mem with
  | nil =>
      rw [List.nil_append, submitReps, List.foldl_nil, repMem]
      dsimp only
      rw [poll_rep (hseed mem)]
      cases d.accepted <;> cases d.rings li <;> simp [submitReps]
  | cons a ds ih =>
      have hne : ds ++ [d] ≠ [] := by simp
      rw [List.cons_append, submitReps, List.foldl_cons, ← ih, repMem]
      dsimp only
      rw [poll_rep (hseed mem), if_neg hne]
      split_ifs with ha hlast
      · exact absurd hlast.2 hne
      · rfl
      · rfl

theorem written_repMem_of_ne (h : i ≠ li) : (repMem li mem d i).written =
    ((mem i).written || (d.accepted && d.landed (d.stop li) i)) := by
  unfold repMem Device.after
  cases d.accepted <;> cases hl : d.landed (d.stop li) i <;> simp [hl, Function.update_of_ne h]

theorem written_repMem_self : (repMem li mem d li).written = (d.accepted && d.landed (d.stop li) li) := by
  unfold repMem Device.after
  cases d.accepted <;> cases hl : d.landed (d.stop li) li <;> simp [hl]

theorem written_foldl (h : i ≠ li) : (ds.foldl (repMem li) mem i).written = ((mem i).written || wroteEarly ds li i) := by
  induction ds generalizing mem with
  | nil => simp [wroteEarly]
  | cons d ds ih => rw [List.foldl_cons, ih, written_repMem_of_ne h, Bool.or_assoc, wroteEarly, wroteEarly, List.any_cons]

theorem landed_stop (h : d.rings li = true) : d.landed (d.stop li) li = true := by
  rw [Device.stop, if_pos h]
  rw [Device.rings, Bool.and_eq_true] at h
  obtain ⟨t, ht, -⟩ := landed_iff.mp h.1
  exact landed_iff.mpr ⟨t, ht, by rw [ht]; exact le_refl t⟩

/-- The last word tells of the others. With a last word that does not look like the seed, every other word has been
written when it is first seen, in this repetition or before; with one that does, some word is still missing at the cap. -/
def LastWordTells (ds : List (Device (BitVec 32))) (d : Device (BitVec 32)) (nout : Nat) : Prop :=
  d.accepted = true → d.landed d.cap (nout - 1) = true →
    if d.value (nout - 1) ≠ wordPoison then
      ∀ i < nout - 1, wroteEarly ds (nout - 1) i = true ∨ d.landed ((d.lands (nout - 1)).getD 0) i = true
    else ∃ i < nout - 1, wroteEarly ds (nout - 1) i = false ∧ d.landed d.cap i = false

theorem submitReps_honest_iff {nout : Nat} (hn : 0 < nout) (hmem : ∀ i, (mem i).written = false) :
    Honest (submitReps (nout - 1) (ds ++ [d]) mem).1 (List.range nout)
        (fun i => ((submitReps (nout - 1) (ds ++ [d]) mem).2 i).written) ↔ LastWordTells ds d nout := by
  have hne : List.range nout ≠ [] := by simpa using hn.ne'
  have hflag : ∀ i < nout - 1, (repMem (nout - 1) (ds.foldl (repMem (nout - 1)) mem) d i).written =
      (wroteEarly ds (nout - 1) i || (d.accepted && d.landed (d.stop (nout - 1)) i)) := fun i hi => by
    rw [written_repMem_of_ne (by omega), written_foldl (by omega), hmem, Bool.false_or]
  have hall : (∀ i ∈ List.range nout, (repMem (nout - 1) (ds.foldl (repMem (nout - 1)) mem) d i).written = true) ↔
      (d.accepted && d.landed (d.stop (nout - 1)) (nout - 1)) = true ∧
        ∀ i < nout - 1, (wroteEarly ds (nout - 1) i || (d.accepted && d.landed (d.stop (nout - 1)) i)) = true := by
    constructor
    · intro h
      refine ⟨?_, fun i hi => ?_⟩
      · rw [← written_repMem_self]
        exact h _ (List.mem_range.mpr (by omega))
      · rw [← hflag i hi]
        exact h i (List.mem_range.mpr (by omega))
    · rintro ⟨hlast, hrest⟩ i hi
      rcases Nat.lt_or_ge i (nout - 1) with hlt | hge
      · rw [hflag i hlt]
        exact hrest i hlt
      · obtain rfl : i = nout - 1 := by have := List.mem_range.mp hi; omega
        rw [written_repMem_self]
        exact hlast
  rw [submitReps_append]
  unfold Honest LastWordTells
  dsimp only
  rw [hall]
  cases hacc : d.accepted with
  | false => simp [hne]
  | true =>
      cases hcap : d.landed d.cap (nout - 1) with
      | false =>
          have hrings : d.rings (nout - 1) = false := by rw [Device.rings, hcap, Bool.false_and]
          have hstop : d.stop (nout - 1) = d.cap := by rw [Device.stop, hrings, if_neg Bool.false_ne_true]
          simp [hrings, hstop, hcap]
      | true =>
          by_cases hv : d.value (nout - 1) = wordPoison
          · have hrings : d.rings (nout - 1) = false := by simp [Device.rings, hv]
            have hstop : d.stop (nout - 1) = d.cap := by rw [Device.stop, hrings, if_neg Bool.false_ne_true]
            simp [hrings, hstop, hcap, hv, hne]
          · have hrings : d.rings (nout - 1) = true := by simp [Device.rings, hv, hcap]
            have hstop : d.stop (nout - 1) = (d.lands (nout - 1)).getD 0 := by rw [Device.stop, if_pos hrings]
            have hlast := landed_stop hrings
            rw [hstop] at hlast
            simp [hrings, hstop, hlast, hv]

end

/-! ### A whole surface: what the poll finds -/

section

variable {M N : Nat} {d : Device (BitVec 16)} {p : Nat × Nat}

theorem mem_elements : p ∈ elements M N ↔ p.1 < M ∧ p.2 < N := by
  obtain ⟨m, n⟩ := p
  simp [elements]

theorem seededSurface_cell (hp : p ∈ elements M N) : seededSurface M N (ewCubeH M p.1 p.2) = ⟨f16Poison, false⟩ := by
  refine stores.of_mem ⟨_, List.mem_map_of_mem hp, rfl⟩ fun w hw _ => ?_
  obtain ⟨q, -, rfl⟩ := List.mem_map.mp hw
  rfl

theorem written_after (hp : p ∈ elements M N) (k : Nat) :
    (d.after (seededSurface M N) k (ewCubeH M p.1 p.2)).written = d.landed k (ewCubeH M p.1 p.2) := by
  unfold Device.after
  split_ifs with h
  · exact h.symm
  · rw [seededSurface_cell hp, Bool.eq_false_iff.mpr h]

theorem landed_of_word (hp : p ∈ elements M N) {k : Nat}
    (h : (d.after (seededSurface M N) k (ewCubeH M p.1 p.2)).word ≠ f16Poison) : d.landed k (ewCubeH M p.1 p.2) = true := by
  by_contra hl
  apply h
  rw [Device.after, if_neg hl, seededSurface_cell hp]

theorem landed_mono {k k' i : Nat} (h : d.landed k i = true) (hk : k ≤ k') : d.landed k' i = true := by
  obtain ⟨t, ht, hle⟩ := landed_iff.mp h
  exact landed_iff.mpr ⟨t, ht, hle.trans hk⟩

theorem pollSurface_honest_iff (hM : 0 < M) (hN : 0 < N) :
    Honest (pollSurface M N d).1 (elements M N) (fun p => ((pollSurface M N d).2 p).written) ↔
      (d.accepted = true → ∀ p ∈ elements M N, d.landed d.cap (ewCubeH M p.1 p.2) = true) := by
  have hfirst : (0, 0) ∈ elements M N := mem_elements.mpr ⟨hM, hN⟩
  unfold pollSurface
  cases hacc : d.accepted with
  | false =>
      dsimp only
      rw [if_neg Bool.false_ne_true]
      refine iff_of_true ⟨fun h => absurd (show (-1 : Int) = 0 from h) (by decide), fun _ h => ?_⟩ fun h =>
        absurd h Bool.false_ne_true
      have hw := (congrArg Cell.written (seededSurface_cell hfirst)).symm.trans (h _ hfirst)
      exact absurd hw Bool.false_ne_true
  | true =>
      dsimp only
      rw [if_pos rfl]
      rcases pollLoop_cases (fun k => (elements M N).all fun p =>
          (d.after (seededSurface M N) k (ewCubeH M p.1 p.2)).word ≠ f16Poison) d.cap 0 with ⟨t, -, hle, ht, -, hr⟩ | ⟨-, hr⟩
      · have hall : ∀ p ∈ elements M N, d.landed t (ewCubeH M p.1 p.2) = true := fun p hp =>
          landed_of_word hp (by simpa using List.all_eq_true.mp ht p hp)
        rw [hr]
        refine iff_of_true ⟨fun _ p hp => ?_, fun _ _ => rfl⟩ fun _ p hp => landed_mono (hall p hp) (by omega)
        exact (written_after hp t).trans (hall p hp)
      · rw [hr, Nat.zero_add]
        constructor
        · intro h _ p hp
          exact (written_after hp d.cap).symm.trans (h.1 rfl p hp)
        · intro h
          exact ⟨fun _ p hp => (written_after hp d.cap).trans (h rfl p hp), fun _ _ => rfl⟩

/-- The shapes an elementwise operator accepts. -/
def SdpShape (M N : Int) : Prop := 1 ≤ M ∧ M ≤ orkSdpMaxmF16 ∧ 8 ≤ N ∧ N ≤ 8192 ∧ N % 8 = 0

/-- What the operator submits is written in full before the cap. -/
def SurfaceLands (enabled granted : Bool) (M N : Int) (d : Device (BitVec 16)) : Prop :=
  enabled = true → SdpShape M N → granted = true → d.accepted = true →
    ∀ p ∈ elements M.toNat N.toNat, d.landed d.cap (ewCubeH M.toNat p.1 p.2) = true

theorem sdpPolled_honest_iff (enabled granted : Bool) (M N : Int) (d : Device (BitVec 16)) :
    Honest (sdpPolled enabled granted M N d).1 (elements M.toNat N.toNat)
      (fun p => ((sdpPolled enabled granted M N d).2 p).written) ↔ SurfaceLands enabled granted M N d := by
  -- a refused call submits nothing
  have refused {r : Int} (hr : r ≠ 0) : Honest r (elements M.toNat N.toNat)
      fun _ => (⟨0, false⟩ : Cell (BitVec 16)).written := by
    refine ⟨fun h => absurd h hr, fun hne h => ?_⟩
    obtain ⟨p, hp⟩ := List.exists_mem_of_ne_nil _ hne
    exact absurd (h p hp) Bool.false_ne_true
  unfold sdpPolled SurfaceLands
  split_ifs with he hs hg
  · exact iff_of_true (refused (by decide)) fun h => absurd (he.symm.trans h) Bool.false_ne_true
  · refine iff_of_true (refused (by decide)) fun _ ⟨h1, h2, h3, h4, h5⟩ => ?_
    rcases hs with h | h | h | h | h
    · exact absurd h1 (by omega)
    · exact absurd h2 (by omega)
    · exact absurd h3 (by omega)
    · exact absurd h4 (by omega)
    · exact absurd h5 h
  · exact iff_of_true (refused (by decide)) fun _ _ h => absurd (hg.symm.trans h) Bool.false_ne_true
  · have hshape : SdpShape M N := by
      unfold SdpShape
      omega
    have hM := hshape.1
    have hN := hshape.2.2.1
    refine (pollSurface_honest_iff (by omega) (by omega)).trans ?_
    exact ⟨fun h _ _ _ => h, fun h => h (by simpa using he) hshape (by simpa using hg)⟩

end

/-- For every repetition count, shape, value and time of writing: the result of each operator is honest under exactly
these conditions on the device. -/
theorem polled_honest_iff (warmed : Bool) (e : Option Int) (device : Nat → Device (BitVec 32)) {nout : Nat}
    (mem : Mem (BitVec 32)) (enabled granted : Bool) (M N : Int) (d : Device (BitVec 16)) (hn : 0 < nout)
    (hmem : ∀ i, (mem i).written = false) :
    (Honest (orkiSubmit1Db warmed e device nout mem).1 (List.range nout)
        (fun i => ((orkiSubmit1Db warmed e device nout mem).2 i).written) ↔
      LastWordTells ((List.range (repCount warmed e - 1)).map device) (device (repCount warmed e - 1)) nout) ∧
    (Honest (orkF16NpuEwmul enabled granted M N d).1 (elements M.toNat N.toNat)
      (fun p => ((orkF16NpuEwmul enabled granted M N d).2 p).written) ↔ SurfaceLands enabled granted M N d) ∧
    (Honest (orkF16NpuAdd enabled granted M N d).1 (elements M.toNat N.toNat)
      (fun p => ((orkF16NpuAdd enabled granted M N d).2 p).written) ↔ SurfaceLands enabled granted M N d) := by
  refine ⟨?_, sdpPolled_honest_iff enabled granted M N d, sdpPolled_honest_iff enabled granted M N d⟩
  have hpos : 0 < repCount warmed e := by
    unfold repCount orkiWarmReps
    split_ifs <;> omega
  have hreps : (List.range (repCount warmed e)).map device =
      (List.range (repCount warmed e - 1)).map device ++ [device (repCount warmed e - 1)] := by
    obtain ⟨r, hr⟩ := Nat.exists_eq_add_of_lt hpos
    rw [hr, Nat.zero_add, Nat.add_sub_cancel, List.range_succ, List.map_append, List.map_singleton]
  unfold orkiSubmit1Db
  rw [hreps]
  exact submitReps_honest_iff hn hmem

/-- A device that takes the job and never writes. -/
def silentDevice : Device (BitVec 16) := ⟨true, fun _ => none, fun _ => 0, 3⟩

/-- A device that writes the last of two words at once, and no other. -/
def lastWordOnly : Device (BitVec 32) := ⟨true, fun i => if i = 1 then some 0 else none, fun _ => 0, 3⟩

/-- A device that writes both words in the first turn, the last one being `0x7fffffff`. -/
def seedLikeWord : Device (BitVec 32) := ⟨true, fun _ => some 0, fun _ => wordPoison, 3⟩

def staleWords : Mem (BitVec 32) := fun _ => ⟨0, false⟩

theorem polled_honest_written : Honest (orkF16NpuEwmul true true 1 8 ⟨true, fun _ => some 1, fun _ => f16Poison, 3⟩).1
    (elements 1 8) (fun p => ((orkF16NpuEwmul true true 1 8 ⟨true, fun _ => some 1, fun _ => f16Poison, 3⟩).2 p).written) :=
  (polled_honest_iff true none (fun _ => seedLikeWord) staleWords true true 1 8 ⟨true, fun _ => some 1, fun _ => f16Poison, 3⟩
    (show 0 < 2 by decide) fun _ => rfl).2.1.mpr fun _ _ _ _ _ _ => rfl

/-- A timeout that reports success, a success with a word missing, and a failure with every word written. -/
theorem polled_not_honest :
    ((orkF16NpuEwmul true true 1 8 silentDevice).1 = 0 ∧ ((orkF16NpuEwmul true true 1 8 silentDevice).2 (0, 0)).written = false) ∧
    ((orkF16NpuAdd true true 1 8 silentDevice).1 = 0 ∧ ((orkF16NpuAdd true true 1 8 silentDevice).2 (0, 0)).written = false) ∧
    ((orkiSubmit1Db true none (fun _ => lastWordOnly) 2 staleWords).1 = 0 ∧
      ((orkiSubmit1Db true none (fun _ => lastWordOnly) 2 staleWords).2 0).written = false) ∧
    ((orkiSubmit1Db true none (fun _ => seedLikeWord) 2 staleWords).1 = -1 ∧
      ∀ i < 2, ((orkiSubmit1Db true none (fun _ => seedLikeWord) 2 staleWords).2 i).written = true) := by
  refine ⟨⟨by decide, by decide⟩, ⟨by decide, by decide⟩, ⟨by decide, by decide⟩, by decide, by decide⟩

end OrkDriver.Polled
