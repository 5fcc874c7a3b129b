import OrkDriver.Core.DynSound

/-!
Every handle of the doorbell path is sound: its copy-back reads the cells its programs write.
-/

namespace OrkDriver.Core

open OrkDriver.Lib OrkDriver.Npu OrkDriver.Pack OrkDriver.Run OrkDriver.I4

variable {R : Type*}

/-! ### Copy-backs to the start of C -/

/-- A straight copy. -/
theorem writeback_plain {g : DynGeom} {op : DynOp} (hdst : op.dst = some 0) (hSk : op.oSk ≤ 1) (hscat : op.oscat = false)
    (hstride : op.ostride = 0) (hno : op.nout ≠ 0)
    (hslice : ¬ (g.half = false ∧ 1 < (if op.oM = 0 then 1 else op.oM) ∧
      g.nmax < op.nout / (if op.oM = 0 then 1 else op.oM))) {x : Nat} {s : List Nat} :
    (x, s) ∈ orkDynWriteback g op ↔ x < op.nout ∧ s = [x] := by
  have hmoves : orkDynWriteback g op = (block 0 op.nout 1 op.nout fun _ e => [e]).map fun p => (0 + p.1, p.2) := by
    unfold orkDynWriteback
    rw [hdst]
    dsimp only
    rw [if_neg hno, if_neg (by omega), hscat, if_neg Bool.false_ne_true, if_neg hslice, hstride]
    split <;> rfl
  rw [hmoves, mem_shifted]
  constructor
  · rintro ⟨m, j, hm, hj, heq⟩
    obtain ⟨rfl, rfl⟩ := Prod.mk.inj heq
    obtain rfl := Nat.lt_one_iff.mp hm
    simp only [Nat.zero_mul, Nat.zero_add]
    exact ⟨hj, trivial⟩
  · rintro ⟨hx, rfl⟩
    exact ⟨0, x, Nat.one_pos, hx, by simp only [Nat.zero_mul, Nat.zero_add]⟩

/-- A sum of partials. -/
theorem writeback_ksplit {g : DynGeom} {op : DynOp} {Sk M N : Nat} (hdst : op.dst = some 0) (hoSk : op.oSk = Sk)
    (hSk : 1 < Sk) (hM : 0 < M) (hoM : op.oM = M) (hstride : op.ostride = 0) (hno : op.nout = Sk * M * N) {m n : Nat}
    (hm : m < M) (hn : n < N) {s : List Nat} : (m * N + n, s) ∈ orkDynWriteback g op ↔
      s = (List.range Sk).map fun ks => ks * M * N + m * N + n := by
  have hpos : 0 < op.nout := by
    rw [hno]
    exact Nat.mul_pos (Nat.mul_pos (by omega) hM) (Nat.zero_lt_of_lt hn)
  have hmoves : orkDynWriteback g op = (block 0 N M N fun m n =>
      (List.range Sk).map fun ks => ks * M * N + m * N + n).map fun p => (0 + p.1, p.2) := by
    unfold orkDynWriteback
    rw [hdst]
    dsimp only
    rw [if_neg (Nat.ne_of_gt hpos), hoM, if_neg (Nat.ne_of_gt hM), hoSk, if_pos hSk, hstride, hno,
      Nat.mul_div_cancel_left _ (Nat.mul_pos (by omega) hM)]
    rfl
  rw [hmoves, mem_shifted]
  constructor
  · rintro ⟨m', j, -, hj, heq⟩
    obtain ⟨haddr, rfl⟩ := Prod.mk.inj heq
    obtain ⟨rfl, rfl⟩ := digits_inj hn (by omega) haddr
    simp only [Nat.zero_add]
  · rintro rfl
    exact ⟨m, n, hm, hn, by simp only [Nat.zero_add]⟩

/-- A scatter of whole N-slices. -/
theorem writeback_slices {g : DynGeom} {op : DynOp} {M N : Nat} (hdst : op.dst = some 0) (hSk : op.oSk ≤ 1)
    (hscat : op.oscat = false) (hhalf : g.half = false) (hM : 1 < M) (hoM : op.oM = M) (hno : op.nout = M * N)
    (hnmax : 0 < g.nmax) (hlt : g.nmax < N) {m n : Nat} (hm : m < M) (hn : n < N) {s : List Nat} :
    (m * N + n, s) ∈ orkDynWriteback g op ↔
      s = [M * (n / g.nmax * g.nmax) + m * pieceLen N g.nmax (n / g.nmax) + (n - n / g.nmax * g.nmax)] := by
  have hpos : 0 < op.nout := by
    rw [hno]
    exact Nat.mul_pos (by omega) (by omega)
  have hNe : op.nout / M = N := by
    rw [hno]
    exact Nat.mul_div_cancel_left N (by omega)
  have hmoves : orkDynWriteback g op = (sliceMoves g.nmax M N).map fun p => (0 + p.1, p.2) := by
    unfold orkDynWriteback
    rw [hdst]
    dsimp only
    rw [if_neg (Nat.ne_of_gt hpos), if_neg (show ¬ 1 < op.oSk by omega), hoM, if_neg (show ¬ M = 0 by omega), hNe, hscat,
      if_neg Bool.false_ne_true, if_pos ⟨hhalf, hM, hlt⟩]
  have hmem : ∀ p : Move, p ∈ (sliceMoves g.nmax M N).map (fun p => (0 + p.1, p.2)) ↔ ∃ ns < pieces N g.nmax,
      ∃ m j, m < M ∧ j < pieceLen N g.nmax ns ∧
        p = (m * N + (ns * g.nmax + j), [M * (ns * g.nmax) + m * pieceLen N g.nmax ns + j]) := by
    intro p
    rw [sliceMoves, List.map_flatMap, List.mem_flatMap]
    constructor
    · rintro ⟨ns, hns, hp⟩
      obtain ⟨m, j, hm, hj, rfl⟩ := mem_shifted.mp hp
      exact ⟨ns, List.mem_range.mp hns, m, j, hm, hj, by rw [Nat.zero_add]⟩
    · rintro ⟨ns, hns, m, j, hm, hj, rfl⟩
      exact ⟨ns, List.mem_range.mpr hns, mem_shifted.mpr ⟨m, j, hm, hj, by rw [Nat.zero_add]⟩⟩
  rw [hmoves, hmem]
  have hslice := (mem_piece_iff hnmax hn).mpr rfl
  constructor
  · rintro ⟨ns, hns, m', j, -, hj, heq⟩
    obtain ⟨haddr, rfl⟩ := Prod.mk.inj heq
    have hend := piece_le hnmax hns
    obtain ⟨rfl, rfl⟩ := digits_inj hn (by omega) haddr
    obtain ⟨hdiv, -⟩ := piece_unique hj
    rw [hdiv, Nat.add_sub_cancel_left]
  · rintro rfl
    exact ⟨n / g.nmax, div_lt_pieces hnmax hn, m, n - n / g.nmax * g.nmax, hm, by omega,
      by rw [Nat.add_sub_cancel' hslice.1]⟩

/-! ### Ops with a C of their own -/

/-- A handle whose ops each have a C of their own. -/
theorem sound_of_ops {h : DynChain} (harr : ∀ i < h.S, (h.entry i).arr = i) (ht : h.targets = h.S)
    (hb : h.i4batch = false) (hpre : h.prepolled = false) (hnull : h.direct = true → ∀ i < h.S, (h.entry i).op.dst = none)
    (hstride : ∀ i < h.S, (h.goal i).N ≤ (h.goal i).stride)
    (hcell : ∀ i < h.S, ∀ m n, m < (h.goal i).M → n < (h.goal i).N →
      ∃ srcs, (∀ s, (m * (h.goal i).stride + n, s) ∈ h.moves i ↔ s = srcs) ∧ h.Partials i m n srcs) :
    h.Sound fun _ _ _ => True where
  stride := hstride
  cell i hi m n hm hn _ := hcell i hi m n hm hn
  covered a ha _ _ _ _ := ⟨a, ht ▸ ha, harr a (ht ▸ ha), trivial⟩
  apart i hi j hj hij heq := absurd ((harr i hi).symm.trans (heq.trans (harr j hj))) hij
  null hk i hi := by
    rw [hb] at hk
    rcases hk with hk | hk
    · cases hk
    · exact hnull hk i hi
  kinds hk := by
    rw [hb] at hk
    cases hk
  parallel hk := by
    rw [hpre] at hk
    cases hk
  worker i _ hk := by
    rw [DynChain.taken, hpre] at hk
    cases hk

/-- The outputs of an op that is not copied back: a cell of C is its own source. -/
theorem mem_inPlace {e : DynEntry} {x : Nat} (hx : ∃ o ∈ e.outs, ∃ ks m n, o.Covers ks m n ∧ o.cell m n = x)
    {s : List Nat} : (x, s) ∈ e.inPlace ↔ s = [x] := by
  simp only [DynEntry.inPlace, List.mem_flatMap, List.mem_map, List.mem_range]
  constructor
  · rintro ⟨o, -, a, -, b, -, heq⟩
    obtain ⟨rfl, rfl⟩ := Prod.mk.inj heq
    rfl
  · rintro rfl
    obtain ⟨o, ho, ks, m, n, ⟨-, ⟨hm, hm'⟩, hn, hn'⟩, rfl⟩ := hx
    refine ⟨o, ho, m - o.m0, by omega, n - o.n0, by omega, ?_⟩
    rw [Nat.add_sub_cancel' hm, Nat.add_sub_cancel' hn]

theorem orkDynBegin_sound {c : OrkNpu} {S : Nat} {tasks : Nat → DynTask R} {h : DynChain}
    (hb : orkDynBegin c S tasks = some h) : h.Sound fun _ _ _ => True := by
  unfold orkDynBegin at hb
  split at hb
  · cases hb
  · obtain rfl := Option.some.inj hb
    refine sound_of_ops (fun _ _ => rfl) rfl rfl rfl (fun _ _ _ => rfl) (fun _ _ => Nat.le_refl _)
      fun i _ m n hm hn => ?_
    obtain rfl := Nat.lt_one_iff.mp hm
    obtain ⟨o, ho, hcov, hcell⟩ : ∃ o ∈ (dynEntry (tasks i) i).outs, o.Covers 0 0 n ∧ o.cell 0 n = n := by
      refine ⟨_, List.mem_singleton.mpr rfl, ⟨rfl, ⟨Nat.le_refl 0, Nat.one_pos⟩, Nat.zero_le n, ?_⟩, ?_⟩
      · exact (Nat.zero_add _).symm ▸ hn
      · simp only [Emit.output, Emit.cell, orkiI8Synth, Nat.sub_zero, Nat.zero_mul, Nat.zero_add]
    refine ⟨[n], fun s => ?_, rfl, fun ks hks => ?_⟩
    · show (0 * (tasks i).w.N + n, s) ∈ (dynEntry (tasks i) i).inPlace ↔ s = [n]
      rw [Nat.zero_mul, Nat.zero_add]
      exact mem_inPlace ⟨o, ho, 0, 0, n, hcov, hcell⟩
    · obtain rfl := Nat.lt_one_iff.mp hks
      exact ⟨o, ho, hcov, by rw [hcell]; rfl⟩

/-! ### Ops of `ork_dyn_begin_mc` -/

/-- A weight that packing or loading left. -/
structure Resident (c : OrkNpu) (w : OrkW R) : Prop where
  soc : c.soc ∈ socTable
  pos : 0 < w.K
  cut : ∃ e B, Holds (weightGeom c e w.dt w.K w.N) B w

namespace Resident

variable {c : OrkNpu} {w : OrkW R} {M m n : Nat}

theorem nmax_pos (hw : Resident c w) : 0 < c.soc.nmax := by
  rw [socTable_nmax hw.soc]
  decide

theorem Sn_eq (hw : Resident c w) : w.Sn = pieces w.N c.soc.nmax := by
  obtain ⟨e, B, h⟩ := hw.cut
  exact h.Sn

theorem Sk_pos (hw : Resident c w) : 0 < w.Sk := by
  obtain ⟨e, B, h⟩ := hw.cut
  rw [h.Sk]
  refine (lt_pieces_iff (weightGeom_blocks hw.soc e w.dt w.K w.N).KS_pos).mpr ?_
  rw [Nat.zero_mul]
  exact hw.pos

/-- One N-slice is all the columns. -/
theorem N_le (hw : Resident c w) (h : w.Sn ≤ 1) : w.N ≤ c.soc.nmax := by
  refine Nat.not_lt.mp fun hlt => ?_
  have : 1 < w.Sn := by
    rw [hw.Sn_eq]
    refine (lt_pieces_iff hw.nmax_pos).mpr ?_
    rwa [Nat.one_mul]
  omega

theorem nmax_lt (hw : Resident c w) (h : 1 < w.Sn) : c.soc.nmax < w.N := by
  rw [hw.Sn_eq, lt_pieces_iff hw.nmax_pos, Nat.one_mul] at h
  exact h

end Resident

section

variable {c : OrkNpu} {w : OrkW R} {M m n : Nat}

theorem ksplitOp_cell (hm : m < M) (hn : n < w.N) {ks : Nat} (hks : ks < w.Sk) :
    ∃ e ∈ (ksplitOp c w M).emits, e.Covers ks m n ∧ e.cell m n = ks * M * w.N + m * w.N + n := by
  refine ⟨_, List.mem_map_of_mem (List.mem_range.mpr hks), ⟨rfl, ⟨Nat.zero_le m, ?_⟩, Nat.zero_le n, ?_⟩, ?_⟩
  · exact (Nat.zero_add _).symm ▸ hm
  · exact (Nat.zero_add _).symm ▸ hn
  · simp only [Emit.cell, orkiI8Synth, Nat.lt_irrefl, if_false, Nat.sub_zero]

theorem mtileOp_cell (hm : m < M) (hn : n < w.N) :
    ∃ e ∈ (mtileOp w M).emits, e.Covers 0 m n ∧ e.cell m n = m * w.N + n := by
  have hcap := orkiMtileCap_pos w.K
  have hrow := (mem_piece_iff hcap hm).mpr rfl
  refine ⟨_, List.mem_map_of_mem (List.mem_range.mpr (div_lt_pieces hcap hm)), ⟨rfl, hrow, Nat.zero_le n, ?_⟩, ?_⟩
  · exact (Nat.zero_add _).symm ▸ hn
  · have := @row_cell 0 _ m w.N n hrow.1
    simp only [Emit.cell, orkiI8Synth, Nat.lt_irrefl, if_false, Nat.sub_zero]
    rwa [Nat.zero_add, Nat.zero_add] at this

/-- Where a program of an N-slice puts an element: the slices of several rows lie block by block, all else row by row. -/
theorem nsliceOp_cell (hw : Resident c w) (hf16 : w.dt = .f16 → w.Sn = 1) (direct : Bool) (hm : m < M) (hn : n < w.N) :
    ∃ e ∈ (nsliceOp c w M direct).emits, e.Covers 0 m n ∧ e.cell m n =
      if scat w M then M * (n / c.soc.nmax * c.soc.nmax) + m * pieceLen w.N c.soc.nmax (n / c.soc.nmax) +
        (n - n / c.soc.nmax * c.soc.nmax) else m * w.N + n := by
  have hslice := (mem_piece_iff hw.nmax_pos hn).mpr rfl
  have hns : n / c.soc.nmax < w.Sn := by
    rw [hw.Sn_eq]
    exact div_lt_pieces hw.nmax_pos hn
  refine ⟨_, List.mem_map_of_mem (List.mem_range.mpr hns), ?_, ?_⟩
  · refine ⟨rfl, ⟨Nat.zero_le m, ?_⟩, ?_⟩
    · dsimp only
      split <;> exact (Nat.zero_add _).symm ▸ hm
    · dsimp only
      split <;> exact hslice
  · by_cases hSn : 1 < w.Sn
    · have hi8 : w.dt ≠ .f16 := fun hdt => by
        have := hf16 hdt
        omega
      by_cases hM : 1 < M
      · have hscat : scat w M = true := decide_eq_true ⟨hSn, hM⟩
        simp only [Emit.cell, orkiI8Synth, if_neg hi8, hscat, if_true, Nat.lt_irrefl, if_false, Nat.sub_zero]
      · have hscat : scat w M = false := decide_eq_false fun hand => hM hand.2
        have hm0 : m = 0 := by omega
        simp only [Emit.cell, orkiI8Synth, if_neg hi8, hscat, Bool.false_eq_true, if_false, hm0, Nat.sub_zero, Nat.zero_mul,
          Nat.add_zero, Nat.zero_add]
        exact Nat.add_sub_cancel' hslice.1
    · have hscat : scat w M = false := decide_eq_false fun hand => hSn hand.1
      have hle := hw.N_le (by omega)
      have hns0 : n / c.soc.nmax = 0 := Nat.div_eq_of_lt (lt_of_lt_of_le hn hle)
      have hNc := pieceLen_of_le hle
      simp only [Emit.cell, orkiI8Synth, orkiF16Synth, hscat, Bool.false_eq_true, if_false, hns0, Nat.zero_mul, hNc,
        if_neg hSn, Nat.lt_irrefl, Nat.sub_zero]
      split <;> rw [Nat.zero_add]

/-- The copy-back of an op with a C of its own reads the cells that its programs write. -/
theorem mcOp_writeback {t t0 : DynTask R} (hw : Resident c t.w) (ht : mcAccepts c t0 t) {N : Nat} (hm : m < t.M)
    (hn : n < t.w.N) : ∃ srcs, (∀ s, (m * t.w.N + n, s) ∈ orkDynWriteback ⟨c.soc.nmax, N, 0, false⟩ (mcOp c t false).op ↔
        s = srcs) ∧ srcs.length = (if 4096 < t.w.K then t.w.Sk else 1) ∧
      ∀ ks < (if 4096 < t.w.K then t.w.Sk else 1), ∃ e ∈ (mcOp c t false).emits, e.Covers ks m n ∧
        srcs[ks]? = some (e.cell m n) := by
  obtain ⟨⟨-, hM⟩, hwide, hSn, -, hdeep, -, -, -⟩ := ht
  have hNpos : 0 < t.w.N := Nat.zero_lt_of_lt hn
  have hMN : t.M * t.w.N ≠ 0 := (Nat.mul_pos hM hNpos).ne'
  have hlin : m * t.w.N + n < t.M * t.w.N := digits_lt hm hn
  have hplain : ∀ {op : DynOp}, op.dst = some 0 → op.oSk ≤ 1 → op.oscat = false → op.ostride = 0 →
      op.nout = t.M * t.w.N → op.oM = t.M → (1 < t.M → t.w.N ≤ c.soc.nmax) → ∀ s,
      (m * t.w.N + n, s) ∈ orkDynWriteback ⟨c.soc.nmax, N, 0, false⟩ op ↔ s = [m * t.w.N + n] := by
    intro op hdst hSk hscat hstride hno hoM hle s
    rw [writeback_plain hdst hSk hscat hstride (by rw [hno]; exact hMN) ?_, hno]
    · exact and_iff_right hlin
    · rw [hoM, if_neg (Nat.ne_of_gt hM), hno, Nat.mul_div_cancel_left _ hM]
      rintro ⟨-, h1, h2⟩
      exact absurd (hle h1) (Nat.not_le.mpr h2)
  by_cases hK : 4096 < t.w.K
  · obtain ⟨-, hSn1, -⟩ := hdeep hK
    have hop : mcOp c t false = ksplitOp c t.w t.M := if_pos hK
    rw [hop, if_pos hK]
    by_cases hSk : 1 < t.w.Sk
    · refine ⟨(List.range t.w.Sk).map fun ks => ks * t.M * t.w.N + m * t.w.N + n,
        fun s => writeback_ksplit rfl rfl hSk hM rfl rfl rfl hm hn, by rw [List.length_map, List.length_range],
        fun ks hks => ?_⟩
      obtain ⟨e, he, hcov, hcell⟩ := ksplitOp_cell (c := c) hm hn hks
      exact ⟨e, he, hcov, by rw [List.getElem?_map, List.getElem?_range hks, Option.map_some, hcell]⟩
    · have hSk1 : t.w.Sk = 1 := by
        have := hw.Sk_pos
        omega
      refine ⟨[m * t.w.N + n], hplain rfl (show t.w.Sk ≤ 1 by omega) rfl rfl ?_ rfl fun _ => hw.N_le (by omega), hSk1.symm,
        fun ks hks => ?_⟩
      · show t.w.Sk * t.M * t.w.N = t.M * t.w.N
        rw [hSk1, Nat.one_mul]
      · obtain ⟨e, he, hcov, hcell⟩ := ksplitOp_cell (c := c) hm hn hks
        have hks0 : ks = 0 := by omega
        refine ⟨e, he, hcov, ?_⟩
        rw [hcell, hks0, Nat.zero_mul, Nat.zero_mul, Nat.zero_add]
        rfl
  · rw [if_neg hK]
    by_cases h64 : 64 < t.M
    · obtain ⟨-, hSn1, -, -⟩ := hwide h64
      have hop : mcOp c t false = mtileOp t.w t.M := (if_neg hK).trans (if_pos h64)
      rw [hop]
      refine ⟨[m * t.w.N + n], hplain rfl (Nat.zero_le 1) rfl rfl rfl rfl fun _ => hw.N_le (by omega), rfl, fun ks hks => ?_⟩
      obtain ⟨e, he, hcov, hcell⟩ := mtileOp_cell hm hn
      obtain rfl := Nat.lt_one_iff.mp hks
      exact ⟨e, he, hcov, by rw [hcell]; rfl⟩
    · have hop : mcOp c t false = nsliceOp c t.w t.M false := (if_neg hK).trans (if_neg h64)
      have hf16 : t.w.dt = .f16 → t.w.Sn = 1 := fun hdt => by
        rcases hSn with h | h
        · exact h
        · rw [hdt] at h
          cases h
      obtain ⟨e, he, hcov, hcell⟩ := nsliceOp_cell hw hf16 false hm hn
      rw [hop]
      have hget : ∀ ks < 1, ∃ e' ∈ (nsliceOp c t.w t.M false).emits, e'.Covers ks m n ∧
          [e.cell m n][ks]? = some (e'.cell m n) := by
        intro ks hks
        obtain rfl := Nat.lt_one_iff.mp hks
        exact ⟨e, he, hcov, rfl⟩
      refine ⟨[e.cell m n], ?_, rfl, hget⟩
      rw [hcell]
      cases hscat : scat t.w t.M with
      | true =>
          obtain ⟨h1, h2⟩ := of_decide_eq_true hscat
          rw [if_pos rfl]
          exact fun s => writeback_slices rfl (Nat.zero_le 1) rfl rfl h2 rfl rfl hw.nmax_pos (hw.nmax_lt h1) hm hn
      | false =>
          rw [if_neg Bool.false_ne_true]
          refine hplain rfl (Nat.zero_le 1) rfl rfl rfl rfl fun h1 => hw.N_le ?_
          exact Nat.not_lt.mp fun h2 => of_decide_eq_false hscat ⟨h2, h1⟩

end

/-! ### Handles -/

section

variable {c : OrkNpu} {v : ColsplitEnv R} {S : Nat} {tasks : Nat → DynTask R} {nc : Int} {h : DynChain}

/-- A task that is routed to the column split is one it takes. -/
theorem Resident.dispatched {w : OrkW R} (hw : Resident c w) (hroute : routesToColsplit w = true) :
    ∃ e B, Dispatched c e B w := by
  obtain ⟨hdt, -, hgate⟩ := of_decide_eq_true hroute
  obtain ⟨e, B, hB⟩ := hw.cut
  rw [hdt] at hB
  refine ⟨e, B, hw.soc, hB, hdt, hw.pos, fun hwide => ?_⟩
  rcases hgate with h1 | ⟨hK, hBf⟩
  · exact h1
  · rcases of_decide_eq_true hwide with hdeep | hnone
    · omega
    · rw [Option.isNone_iff_eq_none] at hnone
      rw [hnone] at hBf
      cases hBf

/-- The column split of one task. -/
theorem colsplit_sound {t : DynTask R} {ncreq : Int} {H : Colsplit} (hw : Resident c t.w)
    (hroute : routesToColsplit t.w = true) (hcs : t.cstride = 0 ∨ t.w.N ≤ t.cstride)
    (hb : orkDynBeginColsplit c v ncreq t.w t.M t.cstride = some H) :
    (H.chain t.w t.M t.cstride v.serial).Sound fun i _ n =>
      coreCol (t.w.N / 32) H.nc i ≤ n ∧ n < coreCol (t.w.N / 32) H.nc (i + 1) := by
  obtain ⟨hnc, hH⟩ := orkDynBeginColsplit_eq_some hb
  have hcore : H.core = coreWork c v t.w t.M t.cstride H.nc := by rw [hH]
  have hgeom : H.geom = ⟨c.soc.nmax, t.w.N, v.segcap t.w.K, false⟩ := by rw [hH]
  obtain ⟨e, B, hd⟩ := hw.dispatched hroute
  have hstride : t.w.N ≤ rowStride t.w t.cstride := by
    unfold rowStride
    split <;> omega
  have hspec : 0 < t.M → ∀ i < H.nc, _ := fun hM i (hi : i < H.nc) => coreWork_spec (v := v) (i := i) hd hM hcs hi
  rw [← hcore, ← hgeom] at hspec
  have hle : ∀ i < H.nc, coreCol (t.w.N / 32) H.nc (i + 1) ≤ t.w.N := fun i hi => coreCol_le hnc hd.N32 hi
  constructor
  · exact fun _ _ => hstride
  · intro i hi m n hm hn hown
    obtain ⟨srcs, hiff, hlen, hcell⟩ := (hspec (Nat.zero_lt_of_lt hm) i hi).2.cell m n hm hown.1 hown.2
    refine ⟨srcs, hiff, hlen, fun ks hks => ?_⟩
    obtain ⟨em, hem, hcov, hget⟩ := hcell ks hks
    exact ⟨_, List.mem_map_of_mem hem, hcov, hget⟩
  · intro a ha m n _ hn
    obtain ⟨i, hi, hmem⟩ := exists_between (f := coreCol (t.w.N / 32) H.nc) (x := n)
      (by rw [coreCol_zero]; exact Nat.zero_le n) (by rw [coreCol_last hnc hd.N32]; exact hn)
    exact ⟨i, hi, (Nat.lt_one_iff.mp ha).symm, hmem⟩
  · intro i hi j hj hij _ p hp m n hm hn hown hx
    change n < t.w.N at hn
    obtain ⟨m', n', -, hge, hlt, haddr⟩ := (hspec (Nat.zero_lt_of_lt hm) j hj).2.inside p hp
    have hnj := hle j hj
    obtain ⟨-, rfl⟩ := digits_inj (by omega) (show n < rowStride t.w t.cstride by omega) (haddr.symm.trans hx)
    exact hij (between_unique (coreCol_mono _ _) hown ⟨hge, hlt⟩)
  · rintro (hk | hk) <;> cases hk
  · intro hk
    cases hk
  · exact fun _ => ⟨rfl, rfl⟩
  · intro i hi ht hM
    have hSk : 1 < (H.core i).op.oSk := of_decide_eq_true (Bool.and_eq_true_iff.mp ht).2
    rw [hcore] at hSk
    obtain ⟨hidle, hwide⟩ := coreWork_oSk hSk
    have hop : (H.core i).op = _ := congrArg CoreWork.op ((congrFun hcore i).trans (coreWork_wide hidle hwide))
    have hcol := hle i hi
    refine ⟨coreCol (t.w.N / 32) H.nc i, coreCol (t.w.N / 32) H.nc (i + 1) - coreCol (t.w.N / 32) H.nc i, ?_⟩
    show (H.core i).op.dst = _ ∧ (H.core i).op.nout = (H.core i).op.oSk * (H.core i).op.oM * _ ∧ 0 < (H.core i).op.oM ∧
      _ ∧ _ ≤ (H.core i).op.ostride
    rw [hop]
    dsimp only
    refine ⟨rfl, rfl, hM, by omega, ?_⟩
    split <;> omega

/-- Ops on cores of their own. -/
theorem mcChain_sound {N mcNc : Nat} {dt : Dt} (hw : ∀ i < S, Resident c (tasks i).w)
    (hacc : ∀ i < S, mcAccepts c (tasks 0) (tasks i)) :
    DynChain.Sound ⟨S, fun p => ⟨p, (mcOp c (tasks p) (directC S tasks)).emits.map Emit.output,
        (mcOp c (tasks p) (directC S tasks)).op, []⟩, ⟨c.soc.nmax, N, 0, false⟩, mcNc, dt, false, directC S tasks, false,
      false, S, fun p => ⟨(tasks p).M, (tasks p).w.N, (tasks p).w.N, if 4096 < (tasks p).w.K then (tasks p).w.Sk else 1⟩⟩
      fun _ _ _ => True := by
  -- a direct op is a single row of a shallow weight
  have hdirect : directC S tasks = true → ∀ i < S, (tasks i).M = 1 ∧ ¬ 4096 < (tasks i).w.K ∧
      mcOp c (tasks i) true = nsliceOp c (tasks i).w (tasks i).M true := by
    intro hdir i hi
    obtain ⟨-, hM, hK⟩ := of_decide_eq_true hdir i hi
    have hM1 := (hacc i hi).1.2
    exact ⟨by omega, by omega, (if_neg (by omega)).trans (if_neg (by omega))⟩
  refine sound_of_ops (fun _ _ => rfl) rfl rfl rfl (fun hdir i hi => ?_) (fun _ _ => Nat.le_refl _)
    fun i hi m n hm hn => ?_
  · dsimp only at hdir hi ⊢
    rw [hdir, (hdirect hdir i hi).2.2]
    rfl
  · change m < (tasks i).M at hm
    change n < (tasks i).w.N at hn
    change i < S at hi
    simp only [DynChain.Partials, DynChain.goal, DynChain.moves, Bool.false_eq_true, if_false, List.mem_map]
    cases hdir : directC S tasks with
    | true =>
        obtain ⟨hM, hK, hop⟩ := hdirect hdir i hi
        have hf16 : (tasks i).w.dt = .f16 → (tasks i).w.Sn = 1 := fun hdt => by
          rcases (hacc i hi).2.2.1 with h1 | h1
          · exact h1
          · rw [hdt] at h1
            cases h1
        obtain ⟨em, hem, hcov, hcell⟩ := nsliceOp_cell (hw i hi) hf16 true hm hn
        have hscat : scat (tasks i).w (tasks i).M = false := decide_eq_false fun hand => by omega
        rw [hscat, if_neg Bool.false_ne_true] at hcell
        rw [if_pos rfl, if_neg hK, hop]
        refine ⟨[m * (tasks i).w.N + n], fun s => mem_inPlace ⟨em.output, List.mem_map_of_mem hem, 0, m, n, hcov, hcell⟩, rfl,
          fun ks hks => ?_⟩
        obtain rfl := Nat.lt_one_iff.mp hks
        exact ⟨_, ⟨em, hem, rfl⟩, hcov, by rw [← hcell]; rfl⟩
    | false =>
        obtain ⟨srcs, hiff, hlen, hget⟩ := mcOp_writeback (N := N) (hw i hi) (hacc i hi) hm hn
        rw [if_neg Bool.false_ne_true]
        refine ⟨srcs, hiff, hlen, fun ks hks => ?_⟩
        obtain ⟨em, hem, hcov, hks⟩ := hget ks hks
        exact ⟨_, ⟨em, hem, rfl⟩, hcov, hks⟩

theorem orkiDynBeginMcImpl_sound (hw : ∀ i < S, Resident c (tasks i).w)
    (hcs : ∀ i < S, (tasks i).cstride = 0 ∨ (tasks i).w.N ≤ (tasks i).cstride)
    (hb : orkiDynBeginMcImpl c v S tasks nc = some h) : ∃ own, h.Sound own := by
  unfold orkiDynBeginMcImpl at hb
  split at hb
  · cases hb
  · next hS =>
      have h0 : 0 < S := by omega
      dsimp only at hb
      split at hb
      · next hroute =>
          obtain ⟨H, hH, rfl⟩ := Option.map_eq_some_iff.mp hb
          exact ⟨_, colsplit_sound (hw 0 h0) hroute.2.2 (hcs 0 h0) hH⟩
      · generalize (if S < mcCores c nc then S else mcCores c nc) = n at hb
        split at hb
        · next hok =>
            obtain rfl := Option.some.inj hb
            exact ⟨_, mcChain_sound hw hok.1⟩
        · cases hb

end

/-! ### int4 -/

/-- An int4 weight that packing or loading left. -/
structure Resident4 (c : OrkNpu) (w : OrkW4) : Prop where
  soc : c.soc ∈ socTable
  pos : 0 < w.K
  Sn : w.Sn = pieces w.N c.soc.nmax
  Sk : w.Sk = pieces w.K orkI4Ks

theorem Resident4.Sk_pos {c : OrkNpu} {w : OrkW4} (hw : Resident4 c w) : 0 < w.Sk := by
  rw [hw.Sk]
  refine (lt_pieces_iff (by decide)).mpr ?_
  rw [Nat.zero_mul]
  exact hw.pos

theorem orkI4DynBeginMc_sound {c : OrkNpu} {granted fits : Bool} {S : Nat} {tasks : Nat → Task4} {nc : Int} {h : DynChain}
    (hw : ∀ i < S, Resident4 c (tasks i).w) (hb : orkI4DynBeginMc c granted fits S tasks nc = some h) :
    h.Sound fun _ _ _ => True := by
  unfold orkI4DynBeginMc at hb
  split at hb
  · cases hb
  · dsimp only at hb
    generalize (if S < mcCores c nc then S else mcCores c nc) = k at hb
    split at hb
    · obtain rfl := Option.some.inj hb
      refine sound_of_ops (fun _ _ => rfl) rfl rfl rfl (fun hdir => by cases hdir) (fun _ _ => Nat.le_refl _)
        fun i hi m n hm hn => ?_
      change n < (tasks i).w.N at hn
      change i < S at hi
      obtain rfl := Nat.lt_one_iff.mp hm
      have hnmax : 0 < c.soc.nmax := by
        rw [socTable_nmax (hw i hi).soc]
        decide
      have hslice := (mem_piece_iff hnmax hn).mpr rfl
      have hget : ∀ ks < (tasks i).w.Sk, ∃ o ∈ (mcEntry4 c (tasks i) i).outs, o.Covers ks 0 n ∧
          o.cell 0 n = ks * (tasks i).w.N + n := by
        intro ks hks
        have hns : n / c.soc.nmax < (tasks i).w.Sn := by
          rw [(hw i hi).Sn]
          exact div_lt_pieces hnmax hn
        exact ⟨_, List.mem_flatMap.mpr ⟨_, List.mem_range.mpr hns, List.mem_map_of_mem (List.mem_range.mpr hks)⟩,
          ⟨rfl, ⟨Nat.le_refl 0, Nat.one_pos⟩, hslice⟩, rfl⟩
      have hSk := (hw i hi).Sk_pos
      have hno : (tasks i).w.Sk * (tasks i).w.N ≠ 0 := (Nat.mul_pos hSk (Nat.zero_lt_of_lt hn)).ne'
      by_cases hSk1 : 1 < (tasks i).w.Sk
      · refine ⟨(List.range (tasks i).w.Sk).map fun ks => ks * 1 * (tasks i).w.N + 0 * (tasks i).w.N + n,
          fun s => ?_, by rw [List.length_map, List.length_range]; rfl, fun ks hks => ?_⟩
        · show (0 * (tasks i).w.N + n, s) ∈ orkDynWriteback ⟨c.soc.nmax, (tasks 0).w.N, 0, true⟩
            (mcEntry4 c (tasks i) i).op ↔ _
          refine writeback_ksplit rfl rfl hSk1 Nat.one_pos rfl rfl ?_ Nat.one_pos hn
          show (tasks i).w.Sk * (tasks i).w.N = (tasks i).w.Sk * 1 * (tasks i).w.N
          rw [Nat.mul_one]
        · change ks < (tasks i).w.Sk at hks
          obtain ⟨o, ho, hcov, hcell⟩ := hget ks hks
          refine ⟨o, ho, hcov, ?_⟩
          rw [List.getElem?_map, List.getElem?_range hks, Option.map_some, hcell, Nat.mul_one, Nat.zero_mul, Nat.add_zero]
      · have hone : (tasks i).w.Sk = 1 := by omega
        refine ⟨[0 * (tasks i).w.N + n], fun s => ?_, hone.symm, fun ks hks => ?_⟩
        · show (0 * (tasks i).w.N + n, s) ∈ orkDynWriteback ⟨c.soc.nmax, (tasks 0).w.N, 0, true⟩
            (mcEntry4 c (tasks i) i).op ↔ _
          refine (writeback_plain rfl (Nat.not_lt.mp hSk1) rfl rfl hno fun hand => ?_).trans (and_iff_right ?_)
          · cases hand.1
          · show 0 * (tasks i).w.N + n < (tasks i).w.Sk * (tasks i).w.N
            rw [hone]
            omega
        · obtain ⟨o, ho, hcov, hcell⟩ := hget ks hks
          have hks0 : ks = 0 := by
            change ks < (tasks i).w.Sk at hks
            omega
          refine ⟨o, ho, hcov, ?_⟩
          rw [hcell, hks0]
          rfl
    · cases hb

/-- The batched chain over one weight. -/
theorem batchChain_sound {c : OrkNpu} {P : Plan} {ex : Nat → Task4} {probe : Bool} (hP : Exact P ex 1) :
    (batchChain c P (ex 0).M probe).Sound fun i m n => ∃ x ∈ P.emits i, x.Covers 0 m n where
  stride _ _ := Nat.le_refl _
  cell i hi m n hm hn hown := by
    obtain ⟨x, hx, hcov⟩ := hown
    have hmoves : ∀ s, (m * P.G.N + n, s) ∈ P.detile i 0 ↔ s = [x.cell m n] := by
      intro s
      rw [hP.fetches i hi 0 m n s Nat.one_pos hm hn]
      constructor
      · rintro ⟨x', hx', hcov', rfl⟩
        obtain ⟨i₀, -, x₀, -, -, huniq⟩ := hP.once 0 m n Nat.one_pos hm hn
        rw [(huniq i hi x' hx' hcov').2, (huniq i hi x hx hcov).2]
      · rintro rfl
        exact ⟨x, hx, hcov, rfl⟩
    refine ⟨[x.cell m n], hmoves, rfl, fun ks hks => ?_⟩
    obtain rfl := Nat.lt_one_iff.mp hks
    exact ⟨batchOutput x, List.mem_map_of_mem hx, ⟨rfl, hcov.2⟩, rfl⟩
  covered a ha m n hm hn := by
    obtain ⟨i, hi, x, hx, hcov, -⟩ := hP.once 0 m n Nat.one_pos hm hn
    exact ⟨i, hi, (Nat.lt_one_iff.mp ha).symm, x, hx, hcov⟩
  apart i hi j hj hij _ p hp m n hm hn hown hx := by
    obtain ⟨m', n', hm', hn', haddr⟩ := hP.within j hj 0 Nat.one_pos p hp
    obtain ⟨rfl, rfl⟩ := digits_inj hn' hn (haddr.symm.trans hx)
    obtain ⟨x, hxe, hcov⟩ := hown
    have hp' : (m' * P.G.N + n', p.2) ∈ P.detile j 0 := by
      rw [← haddr]
      exact hp
    obtain ⟨x', hx', hcov', -⟩ := (hP.fetches j hj 0 m' n' p.2 Nat.one_pos hm' hn').mp hp'
    obtain ⟨i₀, -, x₀, -, -, huniq⟩ := hP.once 0 m' n' Nat.one_pos hm' hn'
    exact hij ((huniq i hi x hxe hcov).1.trans (huniq j hj x' hx' hcov').1.symm)
  null _ _ _ := rfl
  kinds _ := rfl
  parallel hk := by cases hk
  worker _ _ ht := by cases ht

end OrkDriver.Core
