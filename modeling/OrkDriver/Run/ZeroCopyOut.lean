import OrkDriver.Run.SingleCoreCorrect

/-!
`ORK_ZC_OUT` on the full-K path of `orki_run`: when a run that writes C in place leaves what the run through the scratch
output leaves.
-/

namespace OrkDriver.Run

open OrkDriver.Lib OrkDriver.Npu OrkDriver.Pack

variable {R : Type*} [NonUnitalNonAssocSemiring R]

/-- The same run through the scratch output. -/
def RunEnv.staged (v : RunEnv R) : RunEnv R := { v with zcC := false }

/-- Whenever both runs end well, they leave the same result. -/
def InPlaceParity (c : OrkNpu) (e : F16Knobs) (w : OrkW R) (M : Nat) : Prop :=
  ∀ (v : RunEnv R) (A C : Nat → R), v.zcC = true → (orkiRun c e v w M A C).rc = 0 →
    (orkiRun c e v.staged w M A C).rc = 0 →
    ∀ x < M * w.N, (orkiRun c e v w M A C).C x = (orkiRun c e v.staged w M A C).C x

section

variable {c : OrkNpu} {e : F16Knobs} {w : OrkW R} {B : Nat → R} {M : Nat}

omit [NonUnitalNonAssocSemiring R] in
theorem fullK_pos (hf : fullK w M = true) : w.dt = .i8 ∧ 0 < M := by
  obtain ⟨hdt, hM, -⟩ := of_decide_eq_true hf
  exact ⟨hdt, Nat.lt_of_succ_lt hM⟩

omit [NonUnitalNonAssocSemiring R] in
/-- Only fp16 has illegal heights. -/
theorem hasHeights_i8 (e : F16Knobs) (g : Geom) : HasHeights e g .i8 := fun h => absurd h (by decide)

/-- Both runs of a weight of one N-slice leave the product. -/
theorem inPlaceParity_of_le (hg : Blocks (weightGeom c e w.dt w.K w.N) (ntSz w.dt))
    (hB : Holds (weightGeom c e w.dt w.K w.N) B w) (hf : fullK w M = true) (hN : w.N ≤ c.soc.nmax) :
    InPlaceParity c e w M := by
  intro v A C _ hrc hrc' x hx
  obtain ⟨hdt, hM⟩ := fullK_pos hf
  have hheights : HasHeights e (weightGeom c e w.dt w.K w.N) w.dt := by
    rw [hdt]
    exact hasHeights_i8 e _
  have hN0 : 0 < w.N := Nat.pos_of_ne_zero fun h0 => by
    rw [h0, Nat.mul_zero] at hx
    exact Nat.not_lt_zero x hx
  have hplace : ∀ v : RunEnv R, ¬ (fullK w M = true ∧ v.zcC = true ∧ c.soc.nmax < w.N) :=
    fun v h => Nat.not_lt.mpr hN h.2.2
  have hright := (runsRight_of (v := v) hM hg hB hheights (hplace v) A C).right
  have hright' := (runsRight_of (v := v.staged) hM hg hB hheights (hplace v.staged) A C).right
  have hrow : x / w.N < M := Nat.div_lt_of_lt_mul (by rwa [Nat.mul_comm])
  have hcol : x % w.N < w.N := Nat.mod_lt x hN0
  have hcell := hright.product hrc (x / w.N) (x % w.N) hrow hcol
  have hcell' := hright'.product hrc' (x / w.N) (x % w.N) hrow hcol
  rw [Nat.div_add_mod'] at hcell hcell'
  rw [hcell, hcell']

/-- With several N-slices the first column of the second slice is written by the run through the scratch output only. -/
theorem not_inPlaceParity [Nontrivial R] (hg : Blocks (weightGeom c e w.dt w.K w.N) (ntSz w.dt))
    (hB : Holds (weightGeom c e w.dt w.K w.N) B w) (hf : fullK w M = true) (hlt : c.soc.nmax < w.N) :
    ¬ InPlaceParity c e w M := by
  intro hpar
  obtain ⟨hdt, hM⟩ := fullK_pos hf
  have hheights : HasHeights e (weightGeom c e w.dt w.K w.N) w.dt := by
    rw [hdt]
    exact hasHeights_i8 e _
  obtain ⟨x, hx⟩ := exists_ne (matmul (fun _ => (0 : R)) B w.K w.N 0 c.soc.nmax)
  have hstaged : (goodEnv true : RunEnv R).staged = goodEnv false := rfl
  have hright : RunsRight c e (goodEnv false) w M (fun _ => 0) B fun _ => x :=
    runsRight_of hM hg hB hheights (fun h => Bool.noConfusion h.2.1) _ _
  have hrc' : (orkiRun c e (goodEnv false) w M (fun _ => 0) fun _ => x).rc = 0 := hright.returns (goodEnv_good false)
  obtain ⟨af, cc, hrun, haf, hcc⟩ := orkiRun_good c e w M true (fun _ => 0) fun _ => x
  have hrc : (orkiRun c e (goodEnv true) w M (fun _ => 0) fun _ => x).rc = 0 := by
    rw [hrun]
    exact (runLoops_rc hM hg hB (goodEnv_good true) haf hcc).mpr hheights
  have hcell : c.soc.nmax < M * w.N := by
    calc c.soc.nmax < 1 * w.N := by rwa [Nat.one_mul]
      _ ≤ M * w.N := Nat.mul_le_mul_right w.N hM
  have hsame := hpar (goodEnv true) (fun _ => 0) (fun _ => x) rfl hrc (by rwa [hstaged]) c.soc.nmax hcell
  have hproduct := hright.right.product hrc' 0 c.soc.nmax hM hlt
  rw [Nat.zero_mul, Nat.zero_add] at hproduct
  rw [hstaged, hproduct] at hsame
  rw [hrun] at hsame hrc
  rcases runLoops_stale c e (goodEnv true) af cc (fun _ => 0) (fun _ => x) hg.NMAX_pos hlt hB.Sn hf rfl with hstale | hbad
  · exact hx (hstale.symm.trans hsame)
  · exact hbad hrc

end

/-- A run in place leaves what the run through the scratch output leaves, for all operands and prior contents, just when
the weight has one N-slice. -/
theorem inPlaceParity_iff [Nontrivial R] {c : OrkNpu} (hc : c.soc ∈ socTable) {e : F16Knobs} {p : PackEnv R} {K N : Nat}
    {B : Nat → R} {w : OrkW R} (hw : orkiPack c e p .i8 K N B = some w) {M : Nat} (hf : fullK w M = true) :
    InPlaceParity c e w M ↔ N ≤ c.soc.nmax := by
  obtain ⟨⟨-, -, rfl⟩, hB, hg⟩ := orkiPack_own hc hw
  constructor
  · intro hpar
    by_contra hlt
    exact not_inPlaceParity hg hB hf (Nat.not_le.mp hlt) hpar
  · exact inPlaceParity_of_le hg hB hf

/-- One slice of 512 columns. -/
theorem inPlaceParity_512 : ∃ w : OrkW (BitVec 32),
    orkiPack ⟨3, socRk3588, 0⟩ ⟨0, 0⟩ (granted 0) .i8 512 512 (fun i => .ofNat 32 i) = some w ∧
    (InPlaceParity ⟨3, socRk3588, 0⟩ ⟨0, 0⟩ w 2 ↔ 512 ≤ socRk3588.nmax) := by
  obtain ⟨w, hw, hBf⟩ := exists_orkiPack ⟨3, socRk3588, 0⟩ ⟨0, 0⟩ (0 : BitVec 32) .i8 (K := 512) (N := 512) (by decide)
    (by decide) (fun i => .ofNat 32 i)
  obtain ⟨⟨hdt, hK, -⟩, -⟩ := orkiPack_own (by decide) hw
  have hf : fullK w 2 = true := by
    rw [fullK, hBf, hdt, hK]
    decide
  exact ⟨w, hw, inPlaceParity_iff (by decide) hw hf⟩

/-- Two slices, of 8192 and 32 columns. -/
theorem not_inPlaceParity_8224 : ∃ w : OrkW (BitVec 32),
    orkiPack ⟨3, socRk3588, 0⟩ ⟨0, 0⟩ (granted 0) .i8 512 8224 (fun i => .ofNat 32 i) = some w ∧
    ¬ InPlaceParity ⟨3, socRk3588, 0⟩ ⟨0, 0⟩ w 2 := by
  obtain ⟨w, hw, hBf⟩ := exists_orkiPack ⟨3, socRk3588, 0⟩ ⟨0, 0⟩ (0 : BitVec 32) .i8 (K := 512) (N := 8224) (by decide)
    (by decide) (fun i => .ofNat 32 i)
  obtain ⟨⟨hdt, hK, hN⟩, hB, hg⟩ := orkiPack_own (by decide) hw
  have hf : fullK w 2 = true := by
    rw [fullK, hBf, hdt, hK]
    decide
  exact ⟨w, hw, not_inPlaceParity hg hB hf (by rw [hN]; decide)⟩

end OrkDriver.Run
