import OrkDriver.Npu.F16Envelope
import OrkDriver.Slice.Matmul

/-!
The fp16 planner (`ork_slice_f16.h`, `npu/f16/plan.c`) and the tiles of the run paths.
-/

namespace OrkDriver.Slice

open OrkDriver.Lib
open OrkDriver.Npu

/-- `ork_slice_f16_caps`; `mmax` is NULL or the callback with its `ud`. -/
structure OrkSliceF16Caps where
  kmax : Nat
  kmul : Nat
  nmax : Nat
  nmul : Nat
  mmax : Option (Int → Int → Int)

/-- `ork_slice_f16_check`. -/
def orkSliceF16Check (K N : Int) (c : OrkSliceF16Caps) : Int :=
  if K ≤ 0 ∨ N ≤ 0 then -2
  else if K % c.kmul ≠ 0 ∨ N % c.nmul ≠ 0 then -2
  else match c.mmax with
    | none => -3
    | some mmax =>
        let ks := orkSliceStep c.kmax c.kmul
        let ns := orkSliceStep c.nmax c.nmul
        if (List.range (pieces K.toNat ks)).all fun l => (List.range (pieces N.toNat ns)).all fun j =>
          !decide (mmax (pieceLen K.toNat ks l) (pieceLen N.toNat ns j) < 1) then 0 else -4

/-- The turns of the loop over M. -/
def f16Rows (K N M ks ns ms : Nat) (b : Nat × Nat) : List OrkTile :=
  (List.range (pieces M ms)).map fun i => tile K N M ks ns ms i b.1 b.2

/-- One turn of the loops over N and K. -/
def f16Block (K N M ks ns : Nat) (mmax : Int → Int → Int) (max : Int) (s : Nat × (Nat → OrkTile)) (b : Nat × Nat) :
    Except (Int × (Nat → OrkTile)) (Nat × (Nat → OrkTile)) :=
  let k0 := b.2 * ks
  let n0 := b.1 * ns
  let ms := mmax (sliceEnd K ks k0 - k0 : Nat) (sliceEnd N ns n0 - n0 : Nat)
  if ms < 1 then .error (-4, s.2)
  else
    match (f16Rows K N M ks ns ms.toNat b).foldlM (put max) s with
    | .error s => .error (-1, s.2)
    | .ok s => .ok s

/-- The loops over N and K. -/
def f16Turns (K N ks ns : Nat) : List (Nat × Nat) :=
  (List.range (pieces N ns)).flatMap fun j => (List.range (pieces K ks)).map fun l => (j, l)

/-- `ork_slice_f16_matmul`: what it returns and what `out` holds afterwards. -/
def orkSliceF16Matmul (K N M : Int) (c : OrkSliceF16Caps) (out : Nat → OrkTile) (max : Int) : Int × (Nat → OrkTile) :=
  let rc := orkSliceF16Check K N c
  match c.mmax with
  | none => (rc, out)
  | some mmax =>
      if rc ≠ 0 then (rc, out)
      else if M ≤ 0 ∨ max ≤ 0 then (-2, out)
      else
        let ks := orkSliceStep c.kmax c.kmul
        let ns := orkSliceStep c.nmax c.nmul
        match (f16Turns K.toNat N.toNat ks ns).foldlM (f16Block K.toNat N.toNat M.toNat ks ns mmax max) (0, out) with
        | .error r => r
        | .ok s => (s.1, s.2)

/-- `ork_f16_mm_mmax`. -/
def orkF16MmMmax (e : F16Knobs) (soc : Soc) (K N : Int) : Int :=
  if K ≤ 0 ∨ N ≤ 0 ∨ K % 32 ≠ 0 ∨ N % 16 ≠ 0 then -2
  else if soc.nmax < N then -2
  else orkiF16McapN e K.toNat (orkiF16Sched K.toNat) N.toNat

/-- `ork_slice_f16_caps_rk3588`. -/
def orkSliceF16CapsRk3588 : OrkSliceF16Caps := ⟨2048, 32, 8192, 16, none⟩

/-- `orki_f16_plan_caps`. -/
def orkiF16PlanCaps (e : F16Knobs) (soc : Soc) : OrkSliceF16Caps :=
  { orkSliceF16CapsRk3588 with
    kmax := if 0 < e.ks then e.ks else orkSliceF16CapsRk3588.kmax
    nmax := if 0 < soc.nmax then soc.nmax else orkSliceF16CapsRk3588.nmax
    mmax := some (orkF16MmMmax e soc) }

/-! ### What a plan says -/

/-- What `ork_f16_mm_pack` asks of a shape, and a batch of rows. -/
def Packable (K N M : Int) : Prop := (0 < K ∧ 0 < N ∧ 0 < M) ∧ 32 ∣ K ∧ 16 ∣ N

instance (K N M : Int) : Decidable (Packable K N M) := inferInstanceAs (Decidable (_ ∧ _))

/-- The run paths have a row tile for every slice of the weight. -/
def RuntimeTiles (e : F16Knobs) (soc : Soc) (K N M : Int) : Prop :=
  Packable K N M ∧ ∀ l < pieces K.toNat e.ks, ∀ j < pieces N.toNat soc.nmax,
    orkiF16MtileN e (pieceLen K.toNat e.ks l) M.toNat (pieceLen N.toNat soc.nmax j) ≠ 0

/-- A program of the plan is one the runtime may issue, and the first of its slice has the height of the runtime's. -/
def OrkTile.Runs (e : F16Knobs) (M : Nat) (t : OrkTile) : Prop :=
  LegalHeight e (t.k1 - t.k0) (t.n1 - t.n0) (t.m1 - t.m0) ∧
    (t.m0 = 0 → t.m1 = orkiF16MtileN e (t.k1 - t.k0) M (t.n1 - t.n0))

/-- The plan says what the runtime does. -/
def Predicts (e : F16Knobs) (soc : Soc) (K N M : Int) : Prop :=
  ∀ (out : Nat → OrkTile) (max : Int), 0 < max →
    let r := orkSliceF16Matmul K N M (orkiF16PlanCaps e soc) out max
    (0 ≤ r.1 → ∀ x < r.1.toNat, (r.2 x).Runs e M.toNat) ∧ (r.1 < -1 → ¬ RuntimeTiles e soc K N M)

/-- With `ORK_F16_MTILE` unset the rows of a slice fit. -/
def RowsExact (K N M : Nat) : Prop :=
  if K = 128 then M % (if N ≤ 1152 then 256 else 128) = 0 ∨ ¬ Starved N (M % (if N ≤ 1152 then 256 else 128))
  else K ≤ 16384

instance (K N M : Nat) : Decidable (RowsExact K N M) := inferInstanceAs (Decidable (ite _ _ _))

/-! ### The loops -/

theorem sliceEnd_sub {X s i : Nat} (h : 0 < s) (hi : i < pieces X s) : sliceEnd X s (i * s) - i * s = pieceLen X s i := by
  rw [sliceEnd_eq h hi, Nat.add_sub_cancel_left]

theorem mem_f16Turns {K N ks ns : Nat} {b : Nat × Nat} :
    b ∈ f16Turns K N ks ns ↔ b.1 < pieces N ns ∧ b.2 < pieces K ks := by
  obtain ⟨j, l⟩ := b
  simp [f16Turns]

/-- Where no ceiling is below 1, the loops write the tiles of all blocks one after another. -/
theorem f16Block_foldlM {K N M ks ns : Nat} {mmax : Int → Int → Int} (height : Nat × Nat → Nat) (max : Int)
    {bs : List (Nat × Nat)} (h : ∀ b ∈ bs, 1 ≤ height b ∧
      mmax (sliceEnd K ks (b.2 * ks) - b.2 * ks : Nat) (sliceEnd N ns (b.1 * ns) - b.1 * ns : Nat) = height b)
    (s : Nat × (Nat → OrkTile)) : bs.foldlM (f16Block K N M ks ns mmax max) s =
      match (bs.flatMap fun b => f16Rows K N M ks ns (height b) b).foldlM (put max) s with
      | .error s => .error (-1, s.2)
      | .ok s => .ok s := by
  induction bs generalizing s with
  | nil => rfl
  | cons b bs ih =>
      obtain ⟨hpos, heq⟩ := h b List.mem_cons_self
      have hb : f16Block K N M ks ns mmax max s b = match (f16Rows K N M ks ns (height b) b).foldlM (put max) s with
          | .error s => .error (-1, s.2)
          | .ok s => .ok s := by
        unfold f16Block
        dsimp only
        rw [heq, if_neg (by omega), Int.toNat_natCast]
      rw [List.foldlM_cons, hb, List.flatMap_cons, List.foldlM_append]
      cases (f16Rows K N M ks ns (height b) b).foldlM (put max) s with
      | error s => rfl
      | ok s => exact ih (fun b hb => h b (List.mem_cons_of_mem _ hb)) s

theorem forall_fill {P : OrkTile → Prop} {out : Nat → OrkTile} {l : List OrkTile} :
    (∀ x < l.length, P (fill out 0 l x)) ↔ ∀ t ∈ l, P t := by
  have hfill : ∀ x (hx : x < l.length), fill out 0 l x = l[x] := by
    intro x hx
    unfold fill
    rw [if_pos (Nat.zero_le x), Nat.sub_zero, List.getD_eq_getElem _ _ hx]
  constructor
  · intro h t ht
    obtain ⟨x, hx, rfl⟩ := List.getElem_of_mem ht
    rw [← hfill x hx]
    exact h x hx
  · intro h x hx
    rw [hfill x hx]
    exact h _ (List.getElem_mem hx)

/-! ### The plan -/

section

variable {e : F16Knobs} {soc : Soc} (hsoc : soc ∈ socTable)
include hsoc

theorem plan_steps : orkSliceStep (orkiF16PlanCaps e soc).kmax (orkiF16PlanCaps e soc).kmul = e.ks ∧
    orkSliceStep (orkiF16PlanCaps e soc).nmax (orkiF16PlanCaps e soc).nmul = soc.nmax := by
  have hstep : ∀ {cap mul : Nat}, 0 < cap → mul ∣ cap → orkSliceStep cap mul = cap := by
    intro cap mul hcap hdvd
    unfold orkSliceStep
    rw [Nat.div_mul_cancel hdvd, if_neg (Nat.not_lt.mpr (Nat.le_of_dvd hcap hdvd))]
  obtain ⟨hks, hmul⟩ := e.ks_spec
  have hn : 0 < soc.nmax ∧ 16 ∣ soc.nmax := by
    have hall : ∀ s ∈ socTable, 0 < s.nmax ∧ 16 ∣ s.nmax := by decide
    exact hall soc hsoc
  unfold orkiF16PlanCaps
  rw [if_pos hks, if_pos hn.1]
  exact ⟨hstep hks hmul, hstep hn.1 hn.2⟩

/-- The ceiling of a slice is the cap of the run paths. -/
theorem mmax_slice {K N l j : Nat} (hK : 32 ∣ K) (hN : 16 ∣ N) (hl : l < pieces K e.ks) (hj : j < pieces N soc.nmax) :
    orkF16MmMmax e soc (pieceLen K e.ks l) (pieceLen N soc.nmax j) =
      orkiF16McapN e (pieceLen K e.ks l) (orkiF16Sched (pieceLen K e.ks l)) (pieceLen N soc.nmax j) := by
  obtain ⟨hks, hmul⟩ := e.ks_spec
  have hn : 0 < soc.nmax ∧ 16 ∣ soc.nmax := by
    have hall : ∀ s ∈ socTable, 0 < s.nmax ∧ 16 ∣ s.nmax := by decide
    exact hall soc hsoc
  have hk0 := pieceLen_pos hks hl
  have hn0 := pieceLen_pos hn.1 hj
  have hk32 : 32 ∣ pieceLen K e.ks l := dvd_pieceLen hK hmul
  have hn16 : 16 ∣ pieceLen N soc.nmax j := dvd_pieceLen hN hn.2
  have hle := @pieceLen_le_size N soc.nmax j
  unfold orkF16MmMmax
  rw [if_neg (by omega), if_neg (by omega), Int.toNat_natCast, Int.toNat_natCast]

theorem orkSliceF16Check_plan (K N : Int) :
    orkSliceF16Check K N (orkiF16PlanCaps e soc) = if (0 < K ∧ 0 < N) ∧ 32 ∣ K ∧ 16 ∣ N then 0 else -2 := by
  obtain ⟨hks, hns⟩ := plan_steps (e := e) hsoc
  unfold orkSliceF16Check
  rw [hks, hns]
  by_cases hpos : K ≤ 0 ∨ N ≤ 0
  · rw [if_pos hpos, if_neg (by omega)]
  by_cases hmul : K % (32 : Nat) ≠ 0 ∨ N % (16 : Nat) ≠ 0
  · rw [if_neg hpos, if_pos (by exact hmul), if_neg (by omega)]
  have hK : 32 ∣ K.toNat := by omega
  have hN : 16 ∣ N.toNat := by omega
  rw [if_neg hpos, if_neg (by exact hmul), if_pos (by omega)]
  refine if_pos (List.all_eq_true.mpr fun l hl => List.all_eq_true.mpr fun j hj => ?_)
  rw [List.mem_range] at hl hj
  have hcap := mmax_slice (e := e) hsoc hK hN hl hj
  have hone := mcapN_pos e (pieceLen K.toNat e.ks l) (orkiF16Sched (pieceLen K.toNat e.ks l))
    (pieceLen N.toNat soc.nmax j)
  dsimp only
  rw [hcap, Bool.not_eq_true', decide_eq_false_iff_not]
  omega

/-- The tiles of a plan. -/
def planTiles (e : F16Knobs) (soc : Soc) (K N M : Nat) : List OrkTile :=
  (f16Turns K N e.ks soc.nmax).flatMap fun b => f16Rows K N M e.ks soc.nmax
    (orkiF16McapN e (pieceLen K e.ks b.2) (orkiF16Sched (pieceLen K e.ks b.2)) (pieceLen N soc.nmax b.1)) b

theorem orkSliceF16Matmul_plan {K N M : Int} (h : Packable K N M) (out : Nat → OrkTile) {max : Int} (hmax : 0 < max) :
    orkSliceF16Matmul K N M (orkiF16PlanCaps e soc) out max =
      if (planTiles e soc K.toNat N.toNat M.toNat).length ≤ max.toNat then
        (((planTiles e soc K.toNat N.toNat M.toNat).length : Int), fill out 0 (planTiles e soc K.toNat N.toNat M.toNat))
      else (-1, fill out 0 ((planTiles e soc K.toNat N.toNat M.toNat).take max.toNat)) := by
  obtain ⟨⟨hK, hN, hM⟩, hk, hn⟩ := h
  obtain ⟨hks, hns⟩ := plan_steps (e := e) hsoc
  have hsizes : 0 < e.ks ∧ 0 < soc.nmax := by
    have hall : ∀ s ∈ socTable, 0 < s.nmax := by decide
    exact ⟨e.ks_spec.1, hall soc hsoc⟩
  unfold orkSliceF16Matmul
  rw [orkSliceF16Check_plan hsoc, if_pos ⟨⟨hK, hN⟩, hk, hn⟩, hks, hns]
  dsimp only [orkiF16PlanCaps]
  rw [if_neg (fun h => h rfl), if_neg (show ¬ (M ≤ 0 ∨ max ≤ 0) by omega), f16Block_foldlM (fun b => orkiF16McapN e (pieceLen K.toNat e.ks b.2)
    (orkiF16Sched (pieceLen K.toNat e.ks b.2)) (pieceLen N.toNat soc.nmax b.1)), foldlM_put (Nat.zero_le _),
    Nat.zero_add, Nat.sub_zero]
  · unfold planTiles
    split_ifs <;> rfl
  · intro b hb
    obtain ⟨hj, hl⟩ := mem_f16Turns.mp hb
    refine ⟨mcapN_pos _ _ _ _, ?_⟩
    rw [sliceEnd_sub hsizes.1 hl, sliceEnd_sub hsizes.2 hj]
    exact mmax_slice hsoc (by omega) (by omega) hl hj

end

/-! ### One slice -/

/-- The programs of one slice are the runtime's exactly if its rows fit. -/
theorem runs_f16Rows_iff {e : F16Knobs} {K N M ks ns : Nat} (hks : 0 < ks) (hns : 0 < ns) (hM : 0 < M) {b : Nat × Nat}
    (hj : b.1 < pieces N ns) (hl : b.2 < pieces K ks) :
    (∀ t ∈ f16Rows K N M ks ns (orkiF16McapN e (pieceLen K ks b.2) (orkiF16Sched (pieceLen K ks b.2))
      (pieceLen N ns b.1)) b, t.Runs e M) ↔ RowsFit e (pieceLen K ks b.2) (pieceLen N ns b.1) M := by
  have hcap := mcapN_pos e (pieceLen K ks b.2) (orkiF16Sched (pieceLen K ks b.2)) (pieceLen N ns b.1)
  have hfits : RowsFit e (pieceLen K ks b.2) (pieceLen N ns b.1) M ↔ ∀ i < pieces M (orkiF16McapN e (pieceLen K ks b.2)
      (orkiF16Sched (pieceLen K ks b.2)) (pieceLen N ns b.1)), LegalHeight e (pieceLen K ks b.2) (pieceLen N ns b.1)
        (pieceLen M (orkiF16McapN e (pieceLen K ks b.2) (orkiF16Sched (pieceLen K ks b.2)) (pieceLen N ns b.1)) i) :=
    (forall_pieceLen_iff hcap hM).symm
  have hmtile : RowsFit e (pieceLen K ks b.2) (pieceLen N ns b.1) M → _ := fun h => h.mtile_eq
  generalize orkiF16McapN e (pieceLen K ks b.2) (orkiF16Sched (pieceLen K ks b.2)) (pieceLen N ns b.1) = cap at *
  have hruns : ∀ i < pieces M cap, (tile K N M ks ns cap i b.1 b.2).Runs e M ↔
      LegalHeight e (pieceLen K ks b.2) (pieceLen N ns b.1) (pieceLen M cap i) ∧
        (i * cap = 0 → sliceEnd M cap (i * cap) = orkiF16MtileN e (pieceLen K ks b.2) M (pieceLen N ns b.1)) := by
    intro i hi
    unfold OrkTile.Runs tile
    dsimp only
    rw [sliceEnd_sub hks hl, sliceEnd_sub hns hj, sliceEnd_sub hcap hi]
  unfold f16Rows
  rw [List.forall_mem_map, hfits]
  constructor
  · intro h i hi
    exact ((hruns i hi).mp (h i (List.mem_range.mpr hi))).1
  · intro h i hi
    rw [List.mem_range] at hi
    refine (hruns i hi).mpr ⟨h i hi, fun h0 => ?_⟩
    rw [hmtile (hfits.mpr h), h0]
    unfold sliceEnd
    rw [Nat.zero_add]
    split_ifs <;> omega

theorem rowsFit_128_iff {e : F16Knobs} (he : e.mtile ≤ 0) {N M : Nat} (hN : 1 ≤ N) (hM : 0 < M) :
    RowsFit e 128 N M ↔ RowsExact 128 N M := by
  have hs : orkiF16Sched 128 = true := by decide
  have hcap := mcapN_128 he hN
  have hlegal : ∀ t, 1 ≤ t → (LegalHeight e 128 N t ↔ ¬ Starved N t ∧ t ≤ if N ≤ 1152 then 256 else 128) := by
    intro t h1
    rw [legalHeight_iff, hs, hcap]
    refine and_congr_left fun hle => mcOk_128_iff hN h1 ?_
    split_ifs at hle <;> omega
  unfold RowsFit RowsExact
  rw [if_pos rfl, hs, hcap]
  generalize hc : (if N ≤ 1152 then 256 else 128) = cap at *
  have hcap0 : 0 < cap := by split_ifs at hc <;> omega
  have htop : ¬ Starved N cap := by
    unfold Starved
    split_ifs at hc <;> omega
  have hmod := Nat.mod_lt M hcap0
  constructor
  · rintro ⟨-, hlast⟩
    refine (Nat.eq_zero_or_pos (M % cap)).imp_right fun hpos => ?_
    exact ((hlegal _ hpos).mp (hlast.resolve_left (Nat.ne_of_gt hpos))).1
  · intro h
    have hlast : M % cap = 0 ∨ LegalHeight e 128 N (M % cap) := by
      refine (Nat.eq_zero_or_pos (M % cap)).imp_right fun hpos => ?_
      exact (hlegal _ hpos).mpr ⟨h.resolve_left (Nat.ne_of_gt hpos), hmod.le⟩
    refine ⟨?_, hlast⟩
    rcases Nat.lt_or_ge M cap with hlt | hge
    · rw [Nat.min_eq_left hlt.le]
      rw [Nat.mod_eq_of_lt hlt] at hlast
      exact hlast.resolve_left (Nat.ne_of_gt hM)
    · rw [Nat.min_eq_right hge]
      exact (hlegal cap hcap0).mpr ⟨htop, Nat.le_refl cap⟩

theorem rowsFit_iff {e : F16Knobs} (he : e.mtile ≤ 0) {K N M : Nat} (hK : 1 ≤ K) (hN : 1 ≤ N) (hM : 0 < M) :
    RowsFit e K N M ↔ RowsExact K N M := by
  cases hs : orkiF16Sched K with
  | true =>
      by_cases h128 : K = 128
      · subst h128
        exact rowsFit_128_iff he hN hM
      · have hcases : K = 256 ∨ K = 512 ∨ K = 1024 := (orkiF16Sched_cases hs).resolve_left h128
        have hexact : RowsExact K N M := by
          unfold RowsExact
          rw [if_neg h128]
          omega
        refine iff_of_true (rowsFit_of_legal hM fun t h1 hle => ?_) hexact
        rw [hs] at hle ⊢
        exact mcOk_of_le_mcap hcases hN h1 (hle.trans (mcapN_le_sched he hcases))
  | false =>
      have h128 : K ≠ 128 := by
        rintro rfl
        exact absurd hs (by decide)
      have hcap : orkiF16McapN e K false N ≤ max 1 (16384 / K) := by
        refine (lowerTo_le _ _).trans ((narrown_le_mcap e K false N).trans ?_)
        rw [mcap_general he hK]
      unfold RowsExact
      rw [if_neg h128]
      constructor
      · intro h
        have hpos : 1 ≤ min M (orkiF16McapN e K (orkiF16Sched K) N) := Nat.le_min.mpr ⟨hM, mcapN_pos e K _ N⟩
        have hok := h.1.1
        rw [hs] at hok hpos
        rw [mcOk_general_iff hK hN hpos] at hok
        have hrow := Nat.mul_le_mul_right K hpos
        omega
      · intro hle
        refine rowsFit_of_legal hM fun t h1 ht => ?_
        rw [hs] at ht ⊢
        have hdiv : 1 ≤ 16384 / K := (Nat.one_le_div_iff hK).mpr hle
        have hrows : t * K ≤ 16384 := (Nat.le_div_iff_mul_le hK).mp (by omega)
        rw [mcOk_general_iff hK hN h1]
        omega

/-! ### The whole shape -/

theorem orkSliceF16Matmul_refused {e : F16Knobs} {soc : Soc} (hsoc : soc ∈ socTable) {K N M : Int}
    (h : ¬ Packable K N M) (out : Nat → OrkTile) {max : Int} :
    (orkSliceF16Matmul K N M (orkiF16PlanCaps e soc) out max).1 = -2 := by
  unfold orkSliceF16Matmul
  rw [orkSliceF16Check_plan hsoc]
  by_cases hshape : (0 < K ∧ 0 < N) ∧ 32 ∣ K ∧ 16 ∣ N
  · have hM : M ≤ 0 ∨ max ≤ 0 := by
      left
      by_contra hpos
      exact h ⟨⟨hshape.1.1, hshape.1.2, by omega⟩, hshape.2⟩
    rw [if_pos hshape]
    dsimp only [orkiF16PlanCaps]
    rw [if_neg fun h => h rfl, if_pos hM]
  · rw [if_neg hshape]
    rfl

theorem predicts_iff {e : F16Knobs} {soc : Soc} (hsoc : soc ∈ socTable) (K N M : Int) : Predicts e soc K N M ↔
    (Packable K N M → ∀ l < pieces K.toNat e.ks, ∀ j < pieces N.toNat soc.nmax,
      RowsFit e (pieceLen K.toNat e.ks l) (pieceLen N.toNat soc.nmax j) M.toNat) := by
  by_cases h : Packable K N M
  · have hsizes : 0 < e.ks ∧ 0 < soc.nmax := by
      have hall : ∀ s ∈ socTable, 0 < s.nmax := by decide
      exact ⟨e.ks_spec.1, hall soc hsoc⟩
    have hM : 0 < M.toNat := by
      have := h.1.2.2
      omega
    have hblocks : (∀ t ∈ planTiles e soc K.toNat N.toNat M.toNat, t.Runs e M.toNat) ↔
        ∀ l < pieces K.toNat e.ks, ∀ j < pieces N.toNat soc.nmax,
          RowsFit e (pieceLen K.toNat e.ks l) (pieceLen N.toNat soc.nmax j) M.toNat := by
      unfold planTiles
      rw [List.forall_mem_flatMap]
      constructor
      · intro hall l hl j hj
        exact (runs_f16Rows_iff (b := (j, l)) hsizes.1 hsizes.2 hM hj hl).mp (hall (j, l) (mem_f16Turns.mpr ⟨hj, hl⟩))
      · intro hall b hb
        obtain ⟨hj, hl⟩ := mem_f16Turns.mp hb
        exact (runs_f16Rows_iff hsizes.1 hsizes.2 hM hj hl).mpr (hall b.2 hl b.1 hj)
    rw [← hblocks]
    refine ⟨fun hp _ => ?_, fun hruns out max hmax => ?_⟩
    · have hroom := hp (fun _ => ⟨0, 0, 0, 0, 0, 0⟩) ((planTiles e soc K.toNat N.toNat M.toNat).length + 1) (by omega)
      rw [orkSliceF16Matmul_plan hsoc h _ (by omega), if_pos (by omega)] at hroom
      exact forall_fill.mp (hroom.1 (Int.natCast_nonneg _))
    · rw [orkSliceF16Matmul_plan hsoc h out hmax]
      split_ifs with hfit
      · exact ⟨fun _ => forall_fill.mpr (hruns h), fun hneg => by dsimp only at hneg; omega⟩
      · exact ⟨fun hneg => by dsimp only at hneg; omega, fun hneg => by dsimp only at hneg; omega⟩
  · refine iff_of_true (fun out max _ => ?_) fun hp => absurd hp h
    dsimp only
    rw [orkSliceF16Matmul_refused hsoc h out]
    exact ⟨fun hneg => absurd hneg (by decide), fun _ hruns => h hruns.1⟩

/-- The plan is the runtime's exactly if the rows of every slice fit; with `ORK_F16_MTILE` unset only slices of 128 rows
of the weight, and slices of more than 16384, can break it. -/
theorem f16_plan_predicts_iff {e : F16Knobs} {soc : Soc} (hsoc : soc ∈ socTable) (K N M : Int) :
    (Predicts e soc K N M ↔ (Packable K N M → ∀ l < pieces K.toNat e.ks, ∀ j < pieces N.toNat soc.nmax,
      RowsFit e (pieceLen K.toNat e.ks l) (pieceLen N.toNat soc.nmax j) M.toNat)) ∧
    (e.mtile ≤ 0 → (Predicts e soc K N M ↔ (Packable K N M → ∀ l < pieces K.toNat e.ks,
      ∀ j < pieces N.toNat soc.nmax, RowsExact (pieceLen K.toNat e.ks l) (pieceLen N.toNat soc.nmax j) M.toNat))) := by
  refine ⟨predicts_iff hsoc K N M, fun he => (predicts_iff hsoc K N M).trans ?_⟩
  refine forall_congr' fun h => forall₂_congr fun l hl => forall₂_congr fun j hj => ?_
  have hn : 0 < soc.nmax := by
    have hall : ∀ s ∈ socTable, 0 < s.nmax := by decide
    exact hall soc hsoc
  have hM := h.1.2.2
  exact rowsFit_iff he (pieceLen_pos e.ks_spec.1 hl) (pieceLen_pos hn hj) (by omega)

/-- A plan of six programs over two K-slices. -/
theorem f16_plan_predicts_wide : Predicts ⟨0, 0⟩ socRk3588 2048 16 300 := by
  refine ((f16_plan_predicts_iff (e := ⟨0, 0⟩) (by decide) 2048 16 300).2 (by decide)).mpr fun _ => ?_
  decide

/-- At `K = 128`, `N = 1024` the plan has one program of 32 rows, and the run paths decline. -/
theorem f16_plan_starved : ¬ Predicts ⟨0, 0⟩ socRk3588 128 1024 32 := by
  intro h
  obtain ⟨hruns, -⟩ := h (fun _ => ⟨0, 0, 0, 0, 0, 0⟩) 8 (by decide)
  have hcount : (orkSliceF16Matmul 128 1024 32 (orkiF16PlanCaps ⟨0, 0⟩ socRk3588) (fun _ => ⟨0, 0, 0, 0, 0, 0⟩) 8).1 = 1 := by
    decide
  have hlegal := (hruns (by rw [hcount]; decide) 0 (by rw [hcount]; decide)).1
  revert hlegal
  unfold LegalHeight
  decide

end OrkDriver.Slice
