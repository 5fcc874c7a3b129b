import OrkDriver.Core.Colsplit
import OrkDriver.Run.Staged

/-!
The cells that the programs of one core write: every K-slice of every element has one, and no two share one.
-/

namespace OrkDriver.Core

open OrkDriver.Lib OrkDriver.Npu OrkDriver.Pack OrkDriver.Run

namespace Emit

/-- The program computes K-slice `ks` of element `(m, n)`. -/
def Covers (ks m n : Nat) (e : Emit) : Prop :=
  e.ks = ks ∧ (e.m0 ≤ m ∧ m < e.m0 + e.p.mc) ∧ e.n0 ≤ n ∧ n < e.n0 + e.p.Nc

/-- Where it puts it. -/
def cell (m n : Nat) (e : Emit) : Nat := e.p.c + (m - e.m0) * e.p.stride + (n - e.n0)

end Emit

/-- The programs of a core lay out `S` K-slices of rows `[0, M)` and columns `[lo, hi)`: each in one program, and in
cells of its own. -/
structure Laid (emits : List Emit) (S M lo hi : Nat) : Prop where
  inside : ∀ e ∈ emits, e.ks < S ∧ e.m0 + e.p.mc ≤ M ∧ lo ≤ e.n0 ∧ e.n0 + e.p.Nc ≤ hi
  once : ∀ ks m n, ks < S → m < M → lo ≤ n → n < hi →
    ∃ e ∈ emits, e.Covers ks m n ∧ ∀ e' ∈ emits, e'.Covers ks m n → e' = e
  apart : ∀ e ∈ emits, ∀ e' ∈ emits, ∀ ks m n ks' m' n', e.Covers ks m n → e'.Covers ks' m' n' →
    e.cell m n = e'.cell m' n' → ks = ks' ∧ m = m' ∧ n = n'

section

variable {R : Type*} [NonUnitalNonAssocSemiring R] {nb : Nat} {A : Nat → R} {W : Nat → Nat → R}

/-- The scratch after the chain: the stores of its programs in order. -/
theorem foldl_run (emits : List Emit) (C : Nat → R) :
    emits.foldl (fun C e => e.p.run nb A (W e.wb) C) C =
      stores C (emits.flatMap fun e => e.p.outputs nb A (W e.wb)) := by
  induction emits generalizing C with
  | nil => rfl
  | cons e emits ih => rw [List.foldl_cons, ih, List.flatMap_cons, stores.append, Program.run]

/-- What the chain leaves in the cell of an element, if every program computes what it is for. -/
theorem Laid.scratch {emits : List Emit} {S M lo hi : Nat} (h : Laid emits S M lo hi) {f : Nat → Nat → Nat → R}
    (hval : ∀ e ∈ emits, ∀ r j, r < e.p.mc → j < e.p.Nc → e.p.value nb A (W e.wb) r j = f e.ks (e.m0 + r) (e.n0 + j))
    (C : Nat → R) {e : Emit} (he : e ∈ emits) {ks m n : Nat} (hcov : e.Covers ks m n) :
    emits.foldl (fun C e => e.p.run nb A (W e.wb) C) C (e.cell m n) = f ks m n := by
  rw [foldl_run]
  refine stores.of_mem ?_ fun w hw hx => ?_
  · obtain ⟨-, hm, hn⟩ := hcov
    exact ⟨_, List.mem_flatMap.mpr ⟨e, he, mem_block.mpr ⟨m - e.m0, n - e.n0, by omega, by omega, rfl⟩⟩, rfl⟩
  · obtain ⟨e', he', hw⟩ := List.mem_flatMap.mp hw
    obtain ⟨r, j, hr, hj, rfl⟩ := mem_block.mp hw
    have hcov' : e'.Covers e'.ks (e'.m0 + r) (e'.n0 + j) := ⟨rfl, by omega, by omega⟩
    have hcell : e'.cell (e'.m0 + r) (e'.n0 + j) = e'.p.c + r * e'.p.stride + j := by
      rw [Emit.cell, Nat.add_sub_cancel_left, Nat.add_sub_cancel_left]
    obtain ⟨rfl, rfl, rfl⟩ := h.apart e' he' e he _ _ _ _ _ _ hcov' hcov (hcell.trans hx)
    exact hval e' he' r j hr hj

end

/-! ### Segments -/

theorem cutEnd_spec {nmax N cap hi x : Nat} (hnmax : 0 < nmax) (h32 : 32 ∣ nmax) (hN : 32 ∣ N) (hcap : 32 ∣ cap)
    (hhi : 32 ∣ hi) (hle : hi ≤ N) (hx : 32 ∣ x) (hlt : x < hi) :
    x + 32 ≤ cutEnd nmax N cap hi x ∧ cutEnd nmax N cap hi x ≤ hi ∧ 32 ∣ cutEnd nmax N cap hi x ∧
      cutEnd nmax N cap hi x ≤ (x / nmax + 1) * nmax := by
  have hsl : x < (x / nmax + 1) * nmax := by
    have := Nat.lt_div_mul_add (a := x) hnmax
    rwa [Nat.succ_mul]
  have hsl32 : 32 ∣ (x / nmax + 1) * nmax := Nat.dvd_mul_left_of_dvd h32 _
  generalize hs : (x / nmax + 1) * nmax = sl at hsl hsl32
  unfold cutEnd
  rw [hs]
  dsimp only
  split_ifs <;> omega

theorem cutEnd_steps {nmax N cap hi : Nat} (hnmax : 0 < nmax) (h32 : 32 ∣ nmax) (hN : 32 ∣ N) (hcap : 32 ∣ cap)
    (hhi : 32 ∣ hi) (hle : hi ≤ N) : Steps (32 ∣ ·) (cutEnd nmax N cap hi) hi 32 := by
  intro x hx hlt
  obtain ⟨h1, h2, h3, -⟩ := cutEnd_spec hnmax h32 hN hcap hhi hle hx hlt
  exact ⟨h1, h2, h3⟩

/-- The entry of the segment table for a piece of the walk. -/
def segOf (nmax M lo : Nat) (p : Nat × Nat) : Seg := ⟨p.2 - p.1, p.1 - p.1 / nmax * nmax, p.1 / nmax, M * (p.1 - lo)⟩

theorem segTable_eq {P : Nat → Prop} {nmax N cap M lo hi d fuel cur : Nat} (h : Steps P (cutEnd nmax N cap hi) hi d)
    (hcur : P cur) (hlo : lo ≤ cur) :
    segTable nmax N cap M hi fuel cur (M * (cur - lo)) =
      (walk (cutEnd nmax N cap hi) hi fuel cur).map (segOf nmax M lo) := by
  induction fuel generalizing cur with
  | zero => rfl
  | succ fuel ih =>
      unfold segTable walk
      by_cases hlt : cur < hi
      · obtain ⟨hd, -, hnext⟩ := h cur hcur hlt
        have hbase : M * (cur - lo) + M * (cutEnd nmax N cap hi cur - cur) = M * (cutEnd nmax N cap hi cur - lo) := by
          rw [← Nat.mul_add]
          exact congrArg (M * ·) (by omega)
        rw [if_pos hlt, if_pos hlt, List.map_cons]
        dsimp only
        rw [hbase, ih hnext (by omega)]
        rfl
      · rw [if_neg hlt, if_neg hlt]
        rfl

theorem mem_segEmits {nmax K M : Nat} {mouter : Bool} {sg : List Seg} {e : Emit} :
    e ∈ segEmits nmax K M mouter sg ↔ ∃ s ∈ sg, ∃ ti < pieces M (orkiMtileCap K), e = segEmit nmax K M s ti := by
  have hgetD : ∀ s (hs : s < sg.length), sg.getD s ⟨0, 0, 0, 0⟩ = sg[s] := fun s hs => by
    rw [List.getD_eq_getElem?_getD, List.getElem?_eq_getElem hs, Option.getD_some]
  have hget : ∀ s < sg.length, sg.getD s ⟨0, 0, 0, 0⟩ ∈ sg := fun s hs => by
    rw [hgetD s hs]
    exact List.getElem_mem hs
  simp only [segEmits, List.mem_map, List.mem_range]
  constructor
  · rintro ⟨idx, hidx, rfl⟩
    have hsg : 0 < sg.length := Nat.pos_of_mul_pos_right (Nat.zero_lt_of_lt hidx)
    have hti : 0 < pieces M (orkiMtileCap K) := Nat.pos_of_mul_pos_left (Nat.zero_lt_of_lt hidx)
    cases mouter with
    | true => exact ⟨_, hget _ (Nat.mod_lt _ hsg), _, Nat.div_lt_of_lt_mul hidx, rfl⟩
    | false => exact ⟨_, hget _ (Nat.div_lt_of_lt_mul (by rwa [Nat.mul_comm])), _, Nat.mod_lt _ hti, rfl⟩
  · rintro ⟨s, hs, ti, hti, rfl⟩
    obtain ⟨i, hi, rfl⟩ := List.getElem_of_mem hs
    cases mouter with
    | true =>
        obtain ⟨hdiv, hmod⟩ := digits_div_mod hi ti
        refine ⟨ti * sg.length + i, ?_, ?_⟩
        · rw [Nat.mul_comm sg.length]
          exact digits_lt hti hi
        · simp only [if_true, hdiv, hmod, hgetD i hi]
    | false =>
        obtain ⟨hdiv, hmod⟩ := digits_div_mod hti i
        refine ⟨i * pieces M (orkiMtileCap K) + ti, digits_lt hi hti, ?_⟩
        simp only [Bool.false_eq_true, if_false, hdiv, hmod, hgetD i hi]

theorem orkiMtileCap_pos (K : Nat) : 0 < orkiMtileCap K := raised_pos _

/-- The program of a piece of the walk and a row block. -/
theorem segEmit_segOf (nmax K M lo : Nat) (p : Nat × Nat) (ti : Nat) :
    segEmit nmax K M (segOf nmax M lo p) ti =
      ⟨0, ti * orkiMtileCap K, p.1, p.1 / nmax, pieceLen M (orkiMtileCap K) ti, K, p.2 - p.1, ti * orkiMtileCap K * K,
        (p.1 - p.1 / nmax * nmax) / 32 * K * 32, M * (p.1 - lo) + ti * orkiMtileCap K * (p.2 - p.1), p.2 - p.1⟩ := by
  simp only [segEmit, segOf, orkiI8Synth, Nat.lt_irrefl, if_false, Nat.add_sub_cancel' (Nat.div_mul_le_self _ _)]

/-- Row `m` of a block that starts at row `m0`. -/
theorem row_cell {base m0 m w j : Nat} (h : m0 ≤ m) : base + m0 * w + (m - m0) * w + j = base + m * w + j := by
  rw [Nat.add_assoc base, ← Nat.add_mul, Nat.add_sub_cancel' h]

theorem segEmits_laid {next : Nat → Nat} {nmax K M lo hi fuel : Nat} {mouter : Bool} (h : Steps (32 ∣ ·) next hi 32)
    (hlo : 32 ∣ lo) (hfuel : hi ≤ lo + fuel * 32) :
    Laid (segEmits nmax K M mouter ((walk next hi fuel lo).map (segOf nmax M lo))) 1 M lo hi := by
  have hmem : ∀ e, e ∈ segEmits nmax K M mouter ((walk next hi fuel lo).map (segOf nmax M lo)) ↔
      ∃ p ∈ walk next hi fuel lo, ∃ ti < pieces M (orkiMtileCap K), e = segEmit nmax K M (segOf nmax M lo p) ti := by
    intro e
    rw [mem_segEmits]
    constructor
    · rintro ⟨s, hs, ti, hti, rfl⟩
      obtain ⟨p, hp, rfl⟩ := List.mem_map.mp hs
      exact ⟨p, hp, ti, hti, rfl⟩
    · rintro ⟨p, hp, ti, hti, rfl⟩
      exact ⟨_, List.mem_map_of_mem hp, ti, hti, rfl⟩
  have hcap := orkiMtileCap_pos K
  constructor
  · intro e he
    obtain ⟨p, hp, ti, hti, rfl⟩ := (hmem e).mp he
    obtain ⟨hge, hlt, hd, hend, -, -⟩ := mem_walk h hlo hp
    rw [segEmit_segOf]
    exact ⟨Nat.one_pos, piece_le hcap hti, hge, by dsimp only; omega⟩
  · intro ks m n hks hm hge hlt
    obtain ⟨p, hp, hpn, hnp⟩ := exists_mem_walk h hlo hfuel hge hlt
    have hrow := (mem_piece_iff hcap hm).mpr rfl
    refine ⟨_, (hmem _).mpr ⟨p, hp, m / orkiMtileCap K, div_lt_pieces hcap hm, rfl⟩, ?_, fun e' he' hcov => ?_⟩
    · rw [segEmit_segOf]
      exact ⟨(Nat.lt_one_iff.mp hks).symm, hrow, hpn, by dsimp only; omega⟩
    · obtain ⟨q, hq, ti, -, rfl⟩ := (hmem e').mp he'
      rw [segEmit_segOf] at hcov
      obtain ⟨-, hrow', hqn, hnq⟩ := hcov
      dsimp only at hrow' hqn hnq
      have hti := (mem_piece_iff hcap hm).mp hrow'
      have hqw := (mem_walk h hlo hq).2.2.1
      have hpq : q = p := by
        rcases walk_ordered h hlo hq hp with heq | hle | hle
        · exact heq
        · omega
        · omega
      rw [hpq, hti]
  · intro e he e' he' ks m n ks' m' n' hcov hcov' hcell
    obtain ⟨p, hp, ti, hti, rfl⟩ := (hmem e).mp he
    obtain ⟨q, hq, ti', hti', rfl⟩ := (hmem e').mp he'
    obtain ⟨hplo, -, hpd, -, -⟩ := mem_walk h hlo hp
    obtain ⟨hqlo, -, hqd, -, -⟩ := mem_walk h hlo hq
    rw [segEmit_segOf] at hcov hcov'
    rw [segEmit_segOf, segEmit_segOf] at hcell
    obtain ⟨rfl, hm, hn⟩ := hcov
    obtain ⟨rfl, hm', hn'⟩ := hcov'
    have hend := piece_le hcap hti
    have hend' := piece_le hcap hti'
    simp only [Emit.cell] at hm hn hm' hn' hcell
    rw [row_cell hm.1, row_cell hm'.1] at hcell
    -- the cells of an earlier piece come before those of a later one
    have hbefore : ∀ (a b a' x y : Nat), a ≤ b → b ≤ a' → x < M → y < b - a →
        M * a + x * (b - a) + y < M * a' := by
      intro a b a' x y hab hle hx hy
      calc M * a + x * (b - a) + y < M * a + M * (b - a) := by
            rw [Nat.add_assoc]
            exact Nat.add_lt_add_left (digits_lt hx hy) _
        _ = M * b := by rw [← Nat.mul_add, Nat.add_sub_cancel' hab]
        _ ≤ M * a' := Nat.mul_le_mul_left M hle
    rcases walk_ordered h hlo hp hq with rfl | hle | hle
    · rw [Nat.add_assoc, Nat.add_assoc] at hcell
      obtain ⟨rfl, hn''⟩ := digits_inj (by omega) (by omega) (Nat.add_left_cancel hcell)
      exact ⟨rfl, rfl, by omega⟩
    · have := hbefore (p.1 - lo) (p.2 - lo) (q.1 - lo) m (n - p.1) (by omega) (by omega) (by omega) (by omega)
      have hwidth : p.2 - lo - (p.1 - lo) = p.2 - p.1 := by omega
      rw [hwidth] at this
      omega
    · have := hbefore (q.1 - lo) (q.2 - lo) (p.1 - lo) m' (n' - q.1) (by omega) (by omega) (by omega) (by omega)
      have hwidth : q.2 - lo - (q.1 - lo) = q.2 - q.1 := by omega
      rw [hwidth] at this
      omega

/-! ### K-slices -/

theorem mem_wideEmits {KS K Sk M c0 Ncore : Nat} {e : Emit} :
    e ∈ wideEmits KS K Sk M c0 Ncore ↔ ∃ ks < Sk, ∃ i < pieces M (orkiMtileCap (pieceLen K KS ks)),
      e = ⟨ks, i * orkiMtileCap (pieceLen K KS ks), c0, ks, pieceLen M (orkiMtileCap (pieceLen K KS ks)) i,
        pieceLen K KS ks, Ncore, M * (ks * KS) + i * orkiMtileCap (pieceLen K KS ks) * pieceLen K KS ks,
        c0 / 32 * pieceLen K KS ks * 32, (ks * M + i * orkiMtileCap (pieceLen K KS ks)) * Ncore, Ncore⟩ := by
  simp only [wideEmits, List.mem_flatMap, List.mem_map, List.mem_range, orkiI8Synth, Nat.lt_irrefl, if_false]
  constructor
  · rintro ⟨ks, hks, i, hi, rfl⟩
    exact ⟨ks, hks, i, hi, rfl⟩
  · rintro ⟨ks, hks, i, hi, rfl⟩
    exact ⟨ks, hks, i, hi, rfl⟩

/-- The cell of an element in the partial blocks. -/
theorem partial_cell {ks M m0 m w j : Nat} (h : m0 ≤ m) : (ks * M + m0) * w + (m - m0) * w + j = (ks * M + m) * w + j := by
  rw [← Nat.add_mul, Nat.add_assoc (ks * M), Nat.add_sub_cancel' h]

theorem wideEmits_cell {KS K Sk M c0 Ncore ks m n : Nat} {e : Emit} (he : e ∈ wideEmits KS K Sk M c0 Ncore)
    (hcov : e.Covers ks m n) : e.cell m n = ks * M * Ncore + m * Ncore + (n - c0) := by
  obtain ⟨a, -, i, -, rfl⟩ := mem_wideEmits.mp he
  obtain ⟨rfl, hm, -⟩ := hcov
  rw [Emit.cell, partial_cell hm.1, Nat.add_mul]

theorem wideEmits_laid (KS K Sk M : Nat) {lo hi : Nat} (hle : lo ≤ hi) :
    Laid (wideEmits KS K Sk M lo (hi - lo)) Sk M lo hi := by
  constructor
  · intro e he
    obtain ⟨ks, hks, i, hi, rfl⟩ := mem_wideEmits.mp he
    exact ⟨hks, piece_le (orkiMtileCap_pos _) hi, Nat.le_refl _, by dsimp only; omega⟩
  · intro ks m n hks hm hge hlt
    have hcap := orkiMtileCap_pos (pieceLen K KS ks)
    refine ⟨_, mem_wideEmits.mpr ⟨ks, hks, m / orkiMtileCap (pieceLen K KS ks), div_lt_pieces hcap hm, rfl⟩, ?_,
      fun e' he' hcov => ?_⟩
    · exact ⟨rfl, (mem_piece_iff hcap hm).mpr rfl, hge, by dsimp only; omega⟩
    · obtain ⟨ks', -, i, -, rfl⟩ := mem_wideEmits.mp he'
      obtain ⟨rfl, hrow, -⟩ := hcov
      rw [(mem_piece_iff hcap hm).mp hrow]
  · intro e he e' he' ks m n ks' m' n' hcov hcov' hcell
    obtain ⟨a, -, i, hi, rfl⟩ := mem_wideEmits.mp he
    obtain ⟨b, -, i', hi', rfl⟩ := mem_wideEmits.mp he'
    obtain ⟨rfl, hm, hn⟩ := hcov
    obtain ⟨rfl, hm', hn'⟩ := hcov'
    have hend := piece_le (orkiMtileCap_pos _) hi
    have hend' := piece_le (orkiMtileCap_pos _) hi'
    simp only [Emit.cell] at hm hn hm' hn' hcell
    rw [partial_cell hm.1, partial_cell hm'.1] at hcell
    obtain ⟨hrow, hn''⟩ := digits_inj (by omega) (by omega) hcell
    obtain ⟨hks, hm''⟩ := digits_inj (by omega) (by omega) hrow
    exact ⟨hks, hm'', by omega⟩

end OrkDriver.Core
