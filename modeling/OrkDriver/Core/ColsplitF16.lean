import OrkDriver.Core.Colsplit
import OrkDriver.Npu.F16Envelope

/-!
The column-split dispatch of one fp16 matmul (`npu/core/colsplit.c`): which tasks it takes and the programs it emits for
every core.
-/

namespace OrkDriver.Core

open OrkDriver.Lib OrkDriver.Npu OrkDriver.Pack OrkDriver.Run

/-- An fp16 program: the height and the shape `orki_f16_synth` is given, where its activations, weight and output start,
in bytes from the start of the gathered activations, of the weight and of the core's scratch, and the schedule. -/
structure F16Program where
  mc : Nat
  K : Nat
  N : Nat
  aoff : Nat
  woff : Nat
  coff : Nat
  sched : Bool
  cbuf : Nat
  deriving DecidableEq

/-- What the fp16 branch reads of the environment, and what it finds: `ORK_WR_NC`, `ORK_F16_2CORE` and
`ORK_F16_NO_CONTIG`, whether buffers are granted, how many programs fit a core's chain, and which are valid. -/
structure F16ColsplitEnv where
  knobs : F16Knobs
  wrNc : Int
  twoCore : Bool
  noContig : Bool
  granted : Bool
  fits : Nat → Nat
  accepts : Nat → F16Program → Bool

/-- `nc`. -/
def F16ColsplitEnv.cores (v : F16ColsplitEnv) (c : OrkNpu) (K N : Nat) (ncreq : Int) : Nat :=
  let nc := { ColsplitEnv.quiet 0 () with wrNc := v.wrNc }.cores c (N / 16) ncreq
  if 1 < pieces K v.knobs.ks ∧ 2 < nc ∧ v.twoCore then 2 else nc

/-- Column tile a core starts at. -/
def f16Tile (NN nc i : Nat) : Nat := i * NN / nc

/-- `Ncore`. -/
def f16Ncore (NN nc i : Nat) : Nat := (f16Tile NN nc (i + 1) - f16Tile NN nc i) * 16

/-- `f16_ncmax`. -/
def f16Ncmax (NN nc : Nat) : Nat :=
  (List.range nc).foldl (fun m i => if m < f16Ncore NN nc i then f16Ncore NN nc i else m) 0

/-- The program count of a core, if the dispatch does not decline. -/
def f16Count (e : F16Knobs) (K M ncmax : Nat) : Option Nat :=
  (List.range (pieces K e.ks)).foldlM (fun npq ks =>
    let kc := orkiF16MtileN e (pieceLen K e.ks ks) M ncmax
    if kc < 1 then none
    else if 512 < npq + pieces M kc then none
    else some (npq + pieces M kc)) 0

/-- The programs of one core; without `contig` the weight offset is from the start of the slice's own buffer. -/
def f16CorePrograms (e : F16Knobs) (cbuf : Nat) (contig : Bool) (K N M ncmax t0 Ncore : Nat) : List F16Program :=
  (List.range (pieces K e.ks)).flatMap fun ks =>
    let k0 := ks * e.ks
    let Kp := pieceLen K e.ks ks
    let kcap := orkiF16MtileN e Kp M ncmax
    (List.range (pieces M kcap)).map fun i =>
      let m0 := i * kcap
      ⟨pieceLen M kcap i, Kp, Ncore, (M * k0 + m0 * Kp) * 2, (if contig then k0 * N * 2 else 0) + t0 * Kp * 32,
        (ks * M + m0) * Ncore * 4, orkiF16Sched Kp, if 32768 < cbuf then 32768 else cbuf⟩

/-- A round: its cores and their programs. -/
structure F16Colsplit where
  nc : Nat
  programs : Nat → List F16Program

/-- `ork_dyn_begin_colsplit` for fp16; `Sn` is the number of N-slices. -/
def orkDynBeginColsplitF16 (c : OrkNpu) (v : F16ColsplitEnv) (ncreq : Int) (K N M Sn : Nat) : Option F16Colsplit :=
  let nc := v.cores c K N ncreq
  let ncmax := f16Ncmax (N / 16) nc
  let contig := decide (Sn = 1) && !v.noContig
  let programs := fun i =>
    let Ncore := f16Ncore (N / 16) nc i
    if Ncore = 0 then []
    else f16CorePrograms v.knobs c.soc.cbufElems contig K N M ncmax (f16Tile (N / 16) nc i) Ncore
  if v.granted then
    match f16Count v.knobs K M ncmax with
    | none => none
    | some _ =>
        if ∀ i < nc, (programs i).length ≤ v.fits i ∧ ∀ p ∈ programs i, v.accepts i p = true then
          some ⟨nc, programs⟩
        else none
  else none

/-- Whether `run_multicore` comes to the dispatch with the whole weight. -/
def f16Routed (nc K N Sn : Nat) : Bool := 1 < nc ∧ Sn = 1 ∧ 2 ≤ N / 32 ∧ 4 * 32768 < K * N * 2

/-! ### What a round is to satisfy -/

/-- Every program of the round is one a single core may be given for the same columns. -/
def F16Colsplit.Legal (e : F16Knobs) (h : F16Colsplit) : Prop :=
  ∀ i < h.nc, ∀ p ∈ h.programs i, LegalHeight e p.K p.N p.mc

/-- The cores cut the columns into ranges of whole tiles. -/
def CutsColumns (N nc : Nat) : Prop :=
  f16Tile (N / 16) nc 0 * 16 = 0 ∧ f16Tile (N / 16) nc nc * 16 = N ∧
    ∀ n < N, ∃! i, i < nc ∧ f16Tile (N / 16) nc i * 16 ≤ n ∧ n < f16Tile (N / 16) nc (i + 1) * 16

/-- The tile of every slice is below the cap of every core. -/
def BelowCaps (e : F16Knobs) (K N M nc : Nat) : Prop :=
  ∀ ks < pieces K e.ks, ∀ i < nc, f16Ncore (N / 16) nc i ≠ 0 →
    orkiF16MtileN e (pieceLen K e.ks ks) M (f16Ncmax (N / 16) nc) ≤
      f16McapNarrown e (pieceLen K e.ks ks) (orkiF16Sched (pieceLen K e.ks ks)) (f16Ncore (N / 16) nc i)

/-- The widest core streams its weight and the narrowest does not, and there are rows enough to tell. -/
def Straddles (Kp N M nc : Nat) : Prop :=
  (Kp = 256 ∨ Kp = 512 ∨ Kp = 1024) ∧ N / 16 % nc ≠ 0 ∧ N / 16 / nc * 16 * Kp = 65536 ∧ narrowCap Kp < M

instance (Kp N M nc : Nat) : Decidable (Straddles Kp N M nc) := inferInstanceAs (Decidable (_ ∧ _))

/-! ### Widths -/

theorem F16ColsplitEnv.cores_spec (v : F16ColsplitEnv) (c : OrkNpu) (K : Nat) {N : Nat} (ncreq : Int) (hN : 0 < N / 16) :
    0 < v.cores c K N ncreq ∧ v.cores c K N ncreq ≤ N / 16 := by
  unfold cores ColsplitEnv.cores
  dsimp only
  generalize Int.toNat _ = n
  split_ifs <;> omega

theorem foldl_max_spec (f : Nat → Nat) (n : Nat) :
    let m := (List.range n).foldl (fun m i => if m < f i then f i else m) 0
    (∀ i < n, f i ≤ m) ∧ (m = 0 ∨ ∃ i < n, m = f i) := by
  induction n with
  | zero => exact ⟨nofun, .inl rfl⟩
  | succ n ih =>
      dsimp only at ih ⊢
      rw [List.range_succ, List.foldl_append, List.foldl_cons, List.foldl_nil]
      generalize (List.range n).foldl (fun m i => if m < f i then f i else m) 0 = m at *
      obtain ⟨hle, hmem⟩ := ih
      split_ifs with hlt
      · refine ⟨fun i hi => ?_, .inr ⟨n, Nat.lt_succ_self n, rfl⟩⟩
        rcases Nat.lt_succ_iff_lt_or_eq.mp hi with hi | rfl
        · exact (hle i hi).trans hlt.le
        · exact Nat.le_refl _
      · refine ⟨fun i hi => ?_, hmem.imp_right fun ⟨i, hi, heq⟩ => ⟨i, Nat.lt_succ_of_lt hi, heq⟩⟩
        rcases Nat.lt_succ_iff_lt_or_eq.mp hi with hi | rfl
        · exact hle i hi
        · exact Nat.not_lt.mp hlt

theorem f16Ncore_bounds {NN nc : Nat} (hnc : 0 < nc) (i : Nat) :
    NN / nc * 16 ≤ f16Ncore NN nc i ∧ f16Ncore NN nc i ≤ (NN / nc + 1) * 16 := by
  obtain ⟨hlo, hhi⟩ := balanced_width (n := NN) (i := i) hnc
  exact ⟨Nat.mul_le_mul_right 16 hlo, Nat.mul_le_mul_right 16 hhi⟩

theorem f16Ncore_le_ncmax {NN nc i : Nat} (hi : i < nc) : f16Ncore NN nc i ≤ f16Ncmax NN nc :=
  (foldl_max_spec (f16Ncore NN nc) nc).1 i hi

/-- The widest core is the last. -/
theorem f16Ncmax_eq {NN nc : Nat} (hnc : 0 < nc) :
    f16Ncmax NN nc = if NN % nc = 0 then NN / nc * 16 else (NN / nc + 1) * 16 := by
  have hlast : f16Ncore NN nc (nc - 1) = if NN % nc = 0 then NN / nc * 16 else (NN / nc + 1) * 16 := by
    unfold f16Ncore f16Tile
    rw [balanced_last hnc]
    split_ifs <;> rfl
  have hge := @f16Ncore_le_ncmax NN nc _ (Nat.sub_one_lt_of_lt hnc)
  have hle : f16Ncmax NN nc ≤ if NN % nc = 0 then NN / nc * 16 else (NN / nc + 1) * 16 := by
    rcases (foldl_max_spec (f16Ncore NN nc) nc).2 with h0 | ⟨i, hi, heq⟩
    · exact Nat.le_trans (Nat.le_of_eq h0) (Nat.zero_le _)
    · refine Nat.le_trans (Nat.le_of_eq heq) ?_
      split_ifs with hdvd
      · have hmul : ∀ j, j * NN / nc = j * (NN / nc) := fun j => Nat.mul_div_assoc j (Nat.dvd_of_mod_eq_zero hdvd)
        unfold f16Ncore f16Tile
        rw [hmul, hmul, ← Nat.sub_mul, Nat.add_sub_cancel_left, Nat.one_mul]
      · exact (f16Ncore_bounds hnc i).2
  rw [hlast] at hge
  exact Nat.le_antisymm hle hge

theorem cutsColumns {N nc : Nat} (hnc : 0 < nc) (hN : 16 ∣ N) : CutsColumns N nc := by
  have hmono : Monotone fun i => f16Tile (N / 16) nc i * 16 := fun _ _ h =>
    Nat.mul_le_mul_right 16 (Nat.div_le_div_right (Nat.mul_le_mul_right _ h))
  have h0 : f16Tile (N / 16) nc 0 * 16 = 0 := by simp [f16Tile]
  have hlast : f16Tile (N / 16) nc nc * 16 = N := by
    unfold f16Tile
    rw [Nat.mul_div_cancel_left _ hnc, Nat.div_mul_cancel hN]
  refine ⟨h0, hlast, fun n hn => ?_⟩
  obtain ⟨i, hi, hmem⟩ := exists_between (f := fun i => f16Tile (N / 16) nc i * 16) (x := n)
    (h0.trans_le (Nat.zero_le n)) (hn.trans_eq hlast.symm)
  exact ⟨i, ⟨hi, hmem⟩, fun j hj => between_unique hmono hj.2 hmem⟩

/-! ### Legality -/

/-- A narrower weight needs no more banks. -/
theorem mcOk_mono {K N N' h : Nat} {sched : Bool} (hok : orkiF16McOk K N sched h = true) (h1 : 1 ≤ N') (hle : N' ≤ N) :
    orkiF16McOk K N' sched h = true := by
  have hpos : ¬ (h < 1 ∨ K < 1 ∨ N < 1) := by
    intro hor
    unfold orkiF16McOk at hok
    rw [if_pos hor] at hok
    cases hok
  have hmul : K * N' * 2 ≤ K * N * 2 := Nat.mul_le_mul_right 2 (Nat.mul_le_mul_left K hle)
  rw [mcOk_iff rfl (by omega) (by omega) (by omega)] at hok ⊢
  omega

/-- The rows of a tile legal at a width are legal at a narrower one exactly if the tile is below its cap. -/
theorem legal_rows_iff {e : F16Knobs} {K N N' M : Nat} (hpos : 1 ≤ orkiF16MtileN e K M N) (h1 : 1 ≤ N') (hle : N' ≤ N) :
    (∀ i < pieces M (orkiF16MtileN e K M N), LegalHeight e K N' (pieceLen M (orkiF16MtileN e K M N) i)) ↔
      orkiF16MtileN e K M N ≤ f16McapNarrown e K (orkiF16Sched K) N' := by
  obtain ⟨⟨h0, hM⟩, ⟨hok, hrest⟩, -⟩ :=
    (orkiF16MtileN_largest e K N M).resolve_left fun hno => absurd hno.1 (Nat.ne_of_gt hpos)
  generalize orkiF16MtileN e K M N = t at *
  rw [forall_pieceLen_iff hpos (h0.trans_le hM), Nat.min_eq_right hM]
  constructor
  · rintro ⟨htop, -⟩
    exact htop.2
  · intro hcap
    refine ⟨⟨mcOk_mono hok.1 h1 hle, hcap⟩, hrest.imp_right fun hr => ⟨mcOk_mono hr.1 h1 hle, ?_⟩⟩
    exact (Nat.mod_lt M h0).le.trans hcap

theorem f16Count_pos {e : F16Knobs} {K M ncmax n : Nat} (h : f16Count e K M ncmax = some n) {ks : Nat}
    (hks : ks < pieces K e.ks) : 1 ≤ orkiF16MtileN e (pieceLen K e.ks ks) M ncmax := by
  unfold f16Count at h
  rw [← List.mem_range] at hks
  generalize List.range (pieces K e.ks) = l at h hks
  generalize (0 : Nat) = npq at h
  induction l generalizing npq with
  | nil => exact absurd hks List.not_mem_nil
  | cons x l ih =>
      rw [List.foldlM_cons] at h
      obtain ⟨npq', hstep, hrest⟩ := Option.bind_eq_some_iff.mp h
      dsimp only at hstep
      split_ifs at hstep with hone hfull
      rcases List.mem_cons.mp hks with rfl | hmem
      · exact Nat.not_lt.mp hone
      · exact ih hmem npq' hrest

theorem forall_f16CorePrograms {e : F16Knobs} {cbuf : Nat} {contig : Bool} {K N M ncmax t0 Ncore : Nat} :
    (∀ p ∈ f16CorePrograms e cbuf contig K N M ncmax t0 Ncore, LegalHeight e p.K p.N p.mc) ↔
      ∀ ks < pieces K e.ks, ∀ i < pieces M (orkiF16MtileN e (pieceLen K e.ks ks) M ncmax),
        LegalHeight e (pieceLen K e.ks ks) Ncore
          (pieceLen M (orkiF16MtileN e (pieceLen K e.ks ks) M ncmax) i) := by
  simp only [f16CorePrograms, List.forall_mem_flatMap, List.forall_mem_map, List.mem_range]

section

variable {c : OrkNpu} {v : F16ColsplitEnv} {ncreq : Int} {K N M Sn : Nat} {h : F16Colsplit}

theorem legal_iff_belowCaps (hacc : orkDynBeginColsplitF16 c v ncreq K N M Sn = some h) :
    h.nc = v.cores c K N ncreq ∧ (∀ ks < pieces K v.knobs.ks,
      1 ≤ orkiF16MtileN v.knobs (pieceLen K v.knobs.ks ks) M (f16Ncmax (N / 16) h.nc)) ∧
    (h.Legal v.knobs ↔ BelowCaps v.knobs K N M h.nc) := by
  unfold orkDynBeginColsplitF16 at hacc
  dsimp only at hacc
  cases hcount : f16Count v.knobs K M (f16Ncmax (N / 16) (v.cores c K N ncreq)) with
  | none =>
      rw [hcount] at hacc
      split_ifs at hacc
  | some n =>
      rw [hcount] at hacc
      dsimp only at hacc
      split_ifs at hacc with hgranted hfits
      cases hacc
      refine ⟨rfl, fun ks hks => f16Count_pos hcount hks, ?_⟩
      unfold F16Colsplit.Legal BelowCaps
      dsimp only
      generalize v.cores c K N ncreq = nc at *
      have hcore : ∀ i < nc, (∀ p ∈ if f16Ncore (N / 16) nc i = 0 then [] else f16CorePrograms v.knobs c.soc.cbufElems
          (decide (Sn = 1) && !v.noContig) K N M (f16Ncmax (N / 16) nc) (f16Tile (N / 16) nc i)
            (f16Ncore (N / 16) nc i), LegalHeight v.knobs p.K p.N p.mc) ↔
          ∀ ks < pieces K v.knobs.ks, f16Ncore (N / 16) nc i ≠ 0 →
            orkiF16MtileN v.knobs (pieceLen K v.knobs.ks ks) M (f16Ncmax (N / 16) nc) ≤
              f16McapNarrown v.knobs (pieceLen K v.knobs.ks ks) (orkiF16Sched (pieceLen K v.knobs.ks ks))
                (f16Ncore (N / 16) nc i) := by
        intro i hi
        split_ifs with hidle
        · exact iff_of_true nofun fun ks _ hne => absurd hidle hne
        · rw [forall_f16CorePrograms]
          refine forall₂_congr fun ks hks => ?_
          rw [legal_rows_iff (f16Count_pos hcount hks) (Nat.one_le_iff_ne_zero.mpr hidle) (f16Ncore_le_ncmax hi)]
          exact ⟨fun hle _ => hle, fun hle => hle hidle⟩
      constructor
      · intro hall ks hks i hi
        exact (hcore i hi).mp (hall i hi) ks hks
      · intro hall i hi
        exact (hcore i hi).mpr fun ks hks => hall ks hks i hi

end

/-! ### With `ORK_F16_MTILE` unset -/

section

variable {e : F16Knobs} (he : e.mtile ≤ 0)
include he

/-- Only a scheduled slice of 256 rows or more has a cap that depends on the width. -/
theorem narrown_width {Kp N N' : Nat} (hK : 1 ≤ Kp) (h : ¬ (Kp = 256 ∨ Kp = 512 ∨ Kp = 1024)) :
    f16McapNarrown e Kp (orkiF16Sched Kp) N = f16McapNarrown e Kp (orkiF16Sched Kp) N' := by
  cases hs : orkiF16Sched Kp with
  | true =>
      obtain rfl : Kp = 128 := (orkiF16Sched_cases hs).resolve_right h
      rw [narrown_128 he, narrown_128 he]
  | false => simp [f16McapNarrown]

/-- The tile at a width that streams its weight. -/
theorem mtile_wide {Kp N M : Nat} (hK : Kp = 256 ∨ Kp = 512 ∨ Kp = 1024) (hN : 1 ≤ N) (hM : 0 < M)
    (hwide : 131072 < Kp * N * 2) : orkiF16MtileN e Kp M N = min M (180224 / Kp) := by
  have hs : orkiF16Sched Kp = true := by rcases hK with rfl | rfl | rfl <;> decide
  have hlegal : ∀ t, 1 ≤ t → t ≤ orkiF16McapN e Kp (orkiF16Sched Kp) N →
      orkiF16McOk Kp N (orkiF16Sched Kp) t = true := by
    intro t h1 hle
    rw [hs] at hle ⊢
    exact mcOk_of_le_mcap hK hN h1 (hle.trans (mcapN_le_sched he hK))
  have hcap : orkiF16McapN e Kp (orkiF16Sched Kp) N = 180224 / Kp := by
    have htop : 1 ≤ 180224 / Kp := by rcases hK with rfl | rfl | rfl <;> decide
    rw [hs]
    refine Nat.le_antisymm (mcapN_le_sched he hK) ?_
    unfold orkiF16McapN
    rw [narrown_sched he hK hN, if_pos hwide]
    exact le_lowerTo (mcOk_of_le_mcap hK hN htop (Nat.le_refl _)) (Nat.le_refl _)
  rw [(rowsFit_of_legal hM hlegal).mtile_eq, hcap]

theorem slice_below_iff {Kp N M nc : Nat} (hK : 1 ≤ Kp) (hnc : 0 < nc) (hN : nc ≤ N / 16)
    (hpos : 1 ≤ orkiF16MtileN e Kp M (f16Ncmax (N / 16) nc)) :
    (∀ i < nc, f16Ncore (N / 16) nc i ≠ 0 → orkiF16MtileN e Kp M (f16Ncmax (N / 16) nc) ≤
      f16McapNarrown e Kp (orkiF16Sched Kp) (f16Ncore (N / 16) nc i)) ↔ ¬ Straddles Kp N M nc := by
  obtain ⟨⟨-, hM⟩, ⟨htop, -⟩, -⟩ :=
    (orkiF16MtileN_largest e Kp (f16Ncmax (N / 16) nc) M).resolve_left fun hno => absurd hno.1 (Nat.ne_of_gt hpos)
  have hcap := htop.2
  by_cases hcases : Kp = 256 ∨ Kp = 512 ∨ Kp = 1024
  · have hs : orkiF16Sched Kp = true := by rcases hcases with rfl | rfl | rfl <;> decide
    have hq : 1 ≤ N / 16 / nc := Nat.div_pos hN hnc
    have hmax := @f16Ncmax_eq (N / 16) nc hnc
    have hone : 1 ≤ f16Ncmax (N / 16) nc := by
      rw [hmax]
      split_ifs <;> omega
    have hlt : narrowCap Kp < 180224 / Kp := by rcases hcases with rfl | rfl | rfl <;> decide
    rw [hs] at hcap ⊢
    rw [narrown_sched he hcases hone] at hcap
    constructor
    · rintro hall ⟨-, hragged, hbound, hrows⟩
      have hfirst : f16Ncore (N / 16) nc 0 = N / 16 / nc * 16 := by
        unfold f16Ncore f16Tile
        rw [balanced_first]
      have hle := hall 0 hnc (by rw [hfirst]; omega)
      rw [if_neg hragged] at hmax
      have hwide : 131072 < Kp * f16Ncmax (N / 16) nc * 2 := by
        rw [hmax]
        rcases hcases with rfl | rfl | rfl <;> omega
      have hnarrow : ¬ 131072 < Kp * (N / 16 / nc * 16) * 2 := by
        rw [Nat.mul_comm Kp]
        omega
      rw [hfirst, narrown_sched he hcases (by omega), if_neg hnarrow, mtile_wide he hcases hone (by omega) hwide] at hle
      omega
    · intro hno i hi hne
      obtain ⟨hlo, hhi⟩ := @f16Ncore_bounds (N / 16) nc hnc i
      rw [narrown_sched he hcases (by omega)]
      by_cases hwide : 131072 < Kp * f16Ncore (N / 16) nc i * 2
      · rw [if_pos hwide]
        refine hcap.trans ?_
        split_ifs <;> omega
      · rw [if_neg hwide]
        by_cases hwidest : 131072 < Kp * f16Ncmax (N / 16) nc * 2
        · have hragged : N / 16 % nc ≠ 0 := by
            intro h0
            rw [hmax, if_pos h0] at hwidest
            have := Nat.mul_le_mul_left Kp hlo
            omega
          rw [hmax, if_neg hragged] at hwidest
          have hbound : N / 16 / nc * 16 * Kp = 65536 := by
            have := Nat.mul_le_mul_left Kp hlo
            generalize f16Ncore (N / 16) nc i = W at *
            rcases hcases with rfl | rfl | rfl <;> omega
          have hfew : ¬ narrowCap Kp < M := fun hrows => hno ⟨hcases, hragged, hbound, hrows⟩
          omega
        · rwa [if_neg hwidest] at hcap
  · refine iff_of_true (fun i _ _ => ?_) fun hstraddles => hcases hstraddles.1
    rw [narrown_width he hK hcases]
    exact hcap

end

section

variable {c : OrkNpu} {v : F16ColsplitEnv} {ncreq : Int} {K N M Sn : Nat} {h : F16Colsplit}

/-- The cores of a round own whole column tiles, and their programs are legal exactly if the one tile height is below
every core's cap. With `ORK_F16_MTILE` unset that fails where a K-slice of 256, 512 or 1024 rows has exactly 131072
bytes of weight on the narrower cores, 16 columns more on the wider ones, and more rows than the narrower cap. -/
theorem colsplit_f16_legal_iff (hN : 16 ∣ N) (h0 : 0 < N) (hacc : orkDynBeginColsplitF16 c v ncreq K N M Sn = some h) :
    CutsColumns N h.nc ∧ (h.Legal v.knobs ↔ BelowCaps v.knobs K N M h.nc) ∧
      (v.knobs.mtile ≤ 0 → (h.Legal v.knobs ↔
        ∀ ks < pieces K v.knobs.ks, ¬ Straddles (pieceLen K v.knobs.ks ks) N M h.nc)) := by
  obtain ⟨hcores, hpos, hlegal⟩ := legal_iff_belowCaps hacc
  obtain ⟨hnc, hle⟩ := v.cores_spec c K (N := N) ncreq (Nat.div_pos (Nat.le_of_dvd h0 hN) (by decide))
  rw [← hcores] at hnc hle
  refine ⟨cutsColumns hnc hN, hlegal, fun he => hlegal.trans ?_⟩
  refine forall₂_congr fun ks hks => ?_
  exact slice_below_iff he (pieceLen_pos v.knobs.ks_spec.1 hks) hnc hle (hpos ks hks)

end

/-- An environment that refuses nothing, with no knob set. -/
def F16ColsplitEnv.quiet : F16ColsplitEnv := ⟨⟨0, 0⟩, 0, false, false, true, fun _ => 512, fun _ _ => true⟩

/-- Cores of 64, 64 and 80 columns, and no more rows than the narrower cap. -/
theorem colsplit_f16_legal_few_rows : ∃ h,
    orkDynBeginColsplitF16 ⟨0, socRk3588, 0⟩ .quiet 3 1024 208 128 1 = some h ∧ h.Legal ⟨0, 0⟩ := by
  obtain ⟨h, hh⟩ : ∃ h, orkDynBeginColsplitF16 ⟨0, socRk3588, 0⟩ .quiet 3 1024 208 128 1 = some h :=
    Option.isSome_iff_exists.mp (by decide)
  refine ⟨h, hh, ((colsplit_f16_legal_iff (by decide) (by decide) hh).2.2 (by decide)).mpr fun ks hks => ?_⟩
  obtain rfl : ks = 0 := Nat.lt_one_iff.mp hks
  rintro ⟨-, -, -, hrows⟩
  exact absurd hrows (by decide)

/-- With 176 rows the task is routed to the dispatch and taken, and its first core gets one program of 176 rows of
1024 times 64, which alone may have 128. -/
theorem colsplit_f16_illegal : f16Routed 3 1024 208 1 = true ∧ ∃ h,
    orkDynBeginColsplitF16 ⟨0, socRk3588, 0⟩ .quiet 3 1024 208 176 1 = some h ∧ ¬ h.Legal ⟨0, 0⟩ := by
  refine ⟨by decide, ?_⟩
  have hrun : (orkDynBeginColsplitF16 ⟨0, socRk3588, 0⟩ .quiet 3 1024 208 176 1).map (fun h => (h.nc, h.programs 0)) =
      some (3, [⟨176, 1024, 64, 0, 0, 0, true, 32768⟩]) := by decide
  obtain ⟨h, hh, hprog⟩ := Option.map_eq_some_iff.mp hrun
  obtain ⟨hnc, hfirst⟩ := Prod.mk.inj hprog
  refine ⟨h, hh, fun hlegal => ?_⟩
  have hheight := (hlegal 0 (by rw [hnc]; decide) _ (by rw [hfirst]; exact List.mem_singleton_self _)).2
  exact absurd hheight (by decide)

end OrkDriver.Core
