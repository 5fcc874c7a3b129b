import OrkDriver.Core.Layout

/-!
The copy-back of a column-split core reads the cells its programs wrote: the same cuts, computed a second time.
-/

namespace OrkDriver.Core

open OrkDriver.Lib OrkDriver.Npu OrkDriver.Pack OrkDriver.Run

/-- The moves sum up, for each element of the block, its cell of every K-slice, and touch nothing else. -/
structure Fetches (moves : List Move) (emits : List Emit) (S M stride lo hi : Nat) : Prop where
  cell : ∀ m n, m < M → lo ≤ n → n < hi → ∃ srcs, (∀ s, (m * stride + n, s) ∈ moves ↔ s = srcs) ∧ srcs.length = S ∧
    ∀ ks < S, ∃ e ∈ emits, e.Covers ks m n ∧ srcs[ks]? = some (e.cell m n)
  inside : ∀ p ∈ moves, ∃ m n, m < M ∧ lo ≤ n ∧ n < hi ∧ p.1 = m * stride + n

/-- The block of a column range, shifted to its first column. -/
theorem mem_shifted {lo off stride M w : Nat} {f : Nat → Nat → List Nat} {p : Move} :
    p ∈ (block off stride M w f).map (fun p => (lo + p.1, p.2)) ↔
      ∃ m j, m < M ∧ j < w ∧ p = (m * stride + (lo + off + j), f m j) := by
  have haddr : ∀ m j, lo + (off + m * stride + j) = m * stride + (lo + off + j) := fun m j => by omega
  simp only [List.mem_map, mem_block]
  constructor
  · rintro ⟨q, ⟨m, j, hm, hj, rfl⟩, rfl⟩
    exact ⟨m, j, hm, hj, by rw [haddr]⟩
  · rintro ⟨m, j, hm, hj, rfl⟩
    exact ⟨_, ⟨m, j, hm, hj, rfl⟩, by rw [haddr]⟩

/-- Segment by segment. -/
theorem scatterMoves_eq {P : Nat → Prop} {g : DynGeom} {M stride lo Ne d fuel cur : Nat}
    (h : Steps P (cutEnd g.nmax g.N g.segcap (lo + Ne)) (lo + Ne) d) (hcur : P cur) (hlo : lo ≤ cur) :
    scatterMoves g M stride lo Ne fuel cur (cur - lo) (M * (cur - lo)) =
      (walk (cutEnd g.nmax g.N g.segcap (lo + Ne)) (lo + Ne) fuel cur).flatMap fun p =>
        block (p.1 - lo) stride M (p.2 - p.1) fun m j => [M * (p.1 - lo) + m * (p.2 - p.1) + j] := by
  induction fuel generalizing cur with
  | zero => rfl
  | succ fuel ih =>
      unfold scatterMoves walk
      by_cases hlt : cur < lo + Ne
      · obtain ⟨hd, -, hnext⟩ := h cur hcur hlt
        have hin : cur - lo < Ne := by omega
        rw [if_pos hin, if_pos hlt, List.flatMap_cons]
        dsimp only
        generalize cutEnd g.nmax g.N g.segcap (lo + Ne) cur = e at hd hnext
        have hoff : cur - lo + (e - cur) = e - lo := by omega
        have hblk : M * (cur - lo) + M * (e - cur) = M * (e - lo) := by rw [← Nat.mul_add, hoff]
        rw [hoff, hblk, ih hnext (by omega)]
      · rw [if_neg (by omega), if_neg hlt]
        rfl

/-- A copy-back that follows the walk of the emission. -/
theorem fetches_segments {next : Nat → Nat} {nmax K M stride lo hi fuel : Nat} {mouter : Bool}
    (h : Steps (32 ∣ ·) next hi 32) (hlo : 32 ∣ lo) (hfuel : hi ≤ lo + fuel * 32) (hstride : hi ≤ stride) :
    Fetches (((walk next hi fuel lo).flatMap fun p =>
        block (p.1 - lo) stride M (p.2 - p.1) fun m j => [M * (p.1 - lo) + m * (p.2 - p.1) + j]).map
          fun p => (lo + p.1, p.2))
      (segEmits nmax K M mouter ((walk next hi fuel lo).map (segOf nmax M lo))) 1 M stride lo hi := by
  have hmem : ∀ q : Move, q ∈ ((walk next hi fuel lo).flatMap fun p =>
      block (p.1 - lo) stride M (p.2 - p.1) fun m j => [M * (p.1 - lo) + m * (p.2 - p.1) + j]).map
        (fun p => (lo + p.1, p.2)) ↔ ∃ p ∈ walk next hi fuel lo, ∃ m j, m < M ∧ j < p.2 - p.1 ∧
          q = (m * stride + (p.1 + j), [M * (p.1 - lo) + m * (p.2 - p.1) + j]) := by
    intro q
    rw [List.map_flatMap, List.mem_flatMap]
    refine exists_congr fun p => and_congr_right fun hp => ?_
    rw [mem_shifted, Nat.add_sub_cancel' (mem_walk h hlo hp).1]
  constructor
  · intro m n hm hge hlt
    obtain ⟨p, hp, hpn, hnp⟩ := exists_mem_walk h hlo hfuel hge hlt
    refine ⟨[M * (p.1 - lo) + m * (p.2 - p.1) + (n - p.1)], fun s => ?_, rfl, fun ks hks => ?_⟩
    · rw [hmem]
      constructor
      · rintro ⟨q, hq, m', j, hm', hj, heq⟩
        obtain ⟨haddr, rfl⟩ := Prod.mk.inj heq
        have hqhi := (mem_walk h hlo hq).2.2.2.1
        obtain ⟨rfl, rfl⟩ := digits_inj (by omega) (by omega) haddr
        have hpq : p = q := by
          rcases walk_ordered h hlo hp hq with heq | hle | hle
          · exact heq
          · omega
          · omega
        rw [hpq, Nat.add_sub_cancel_left]
      · rintro rfl
        exact ⟨p, hp, m, n - p.1, hm, by omega, by rw [Nat.add_sub_cancel' hpn]⟩
    · obtain rfl := Nat.lt_one_iff.mp hks
      have hcap := orkiMtileCap_pos K
      have hrow := (mem_piece_iff hcap hm).mpr rfl
      refine ⟨segEmit nmax K M (segOf nmax M lo p) (m / orkiMtileCap K),
        mem_segEmits.mpr ⟨_, List.mem_map_of_mem hp, _, div_lt_pieces hcap hm, rfl⟩, ?_, ?_⟩
      · rw [segEmit_segOf]
        exact ⟨rfl, hrow, hpn, by dsimp only; omega⟩
      · rw [segEmit_segOf, Emit.cell, row_cell hrow.1]
        rfl
  · intro q hq
    obtain ⟨p, hp, m, j, hm, hj, rfl⟩ := (hmem q).mp hq
    obtain ⟨hplo, -, -, hphi, -⟩ := mem_walk h hlo hp
    exact ⟨m, p.1 + j, hm, by omega, by omega, rfl⟩

/-- A copy-back of partial blocks. -/
theorem fetches_partials {KS K Sk M stride lo hi : Nat} (hle : lo ≤ hi) (hstride : hi ≤ stride)
    {f : Nat → Nat → List Nat}
    (hf : ∀ m j, f m j = (List.range Sk).map fun ks => ks * M * (hi - lo) + m * (hi - lo) + j) :
    Fetches ((block 0 stride M (hi - lo) f).map fun p => (lo + p.1, p.2)) (wideEmits KS K Sk M lo (hi - lo)) Sk M stride
      lo hi := by
  constructor
  · intro m n hm hge hlt
    refine ⟨f m (n - lo), fun s => ?_, by rw [hf, List.length_map, List.length_range], fun ks hks => ?_⟩
    · rw [mem_shifted]
      constructor
      · rintro ⟨m', j, -, hj, heq⟩
        obtain ⟨haddr, rfl⟩ := Prod.mk.inj heq
        obtain ⟨rfl, rfl⟩ := digits_inj (by omega) (by omega) haddr
        rw [Nat.add_zero, Nat.add_sub_cancel_left]
      · rintro rfl
        exact ⟨m, n - lo, hm, by omega, by rw [Nat.add_zero, Nat.add_sub_cancel' hge]⟩
    · have hcap := orkiMtileCap_pos (pieceLen K KS ks)
      have hrow := (mem_piece_iff hcap hm).mpr rfl
      refine ⟨_, mem_wideEmits.mpr ⟨ks, hks, m / orkiMtileCap (pieceLen K KS ks), div_lt_pieces hcap hm, rfl⟩,
        ⟨rfl, hrow, hge, by dsimp only; omega⟩, ?_⟩
      rw [hf, List.getElem?_map, List.getElem?_range hks, Option.map_some, Emit.cell, partial_cell hrow.1, Nat.add_mul]
  · intro p hp
    obtain ⟨m, j, hm, hj, rfl⟩ := mem_shifted.mp hp
    exact ⟨m, lo + 0 + j, hm, by omega, by omega, rfl⟩

section

variable {R : Type*} [AddCommMonoid R] {moves : List Move} {emits : List Emit} {S M stride lo hi : Nat}

/-- What the copy-back leaves in an element of its block, if the output cells hold `f`. -/
theorem Fetches.stores (h : Fetches moves emits S M stride lo hi) {src : Nat → R} {f : Nat → Nat → Nat → R}
    (hsrc : ∀ e ∈ emits, ∀ ks m n, e.Covers ks m n → src (e.cell m n) = f ks m n) (C : Nat → R) {m n : Nat} (hm : m < M)
    (hge : lo ≤ n) (hlt : n < hi) :
    Lib.stores C (moved src moves) (m * stride + n) = ∑ ks ∈ Finset.range S, f ks m n := by
  obtain ⟨srcs, hiff, hlen, hcell⟩ := h.cell m n hm hge hlt
  have hsum : (srcs.map src).sum = ∑ ks ∈ Finset.range S, f ks m n := by
    have hmap : srcs.map src = (List.range S).map fun ks => f ks m n := by
      refine List.ext_getElem? fun ks => ?_
      rw [List.getElem?_map, List.getElem?_map]
      rcases Nat.lt_or_ge ks S with hks | hks
      · obtain ⟨e, he, hcov, hget⟩ := hcell ks hks
        rw [hget, List.getElem?_range hks, Option.map_some, Option.map_some, hsrc e he ks m n hcov]
      · rw [List.getElem?_eq_none (by omega), List.getElem?_eq_none (by rw [List.length_range]; exact hks)]
        rfl
    rw [hmap, Finset.sum_eq_multiset_sum, Finset.range_val, Multiset.range, Multiset.map_coe, Multiset.sum_coe]
  refine stores.of_mem ⟨_, List.mem_map_of_mem ((hiff srcs).mpr rfl), rfl⟩ fun w hw hx => ?_
  obtain ⟨p, hp, rfl⟩ := List.mem_map.mp hw
  dsimp only at hx ⊢
  rw [(hiff p.2).mp (by rw [← hx]; exact hp), hsum]

/-- Elsewhere it leaves C alone. -/
theorem Fetches.frame (h : Fetches moves emits S M stride lo hi) (hstride : hi ≤ stride) (src C : Nat → R) {m n : Nat}
    (hn : n < stride) (hout : n < lo ∨ hi ≤ n) : Lib.stores C (moved src moves) (m * stride + n) = C (m * stride + n) := by
  refine stores.of_forall_ne fun w hw hx => ?_
  obtain ⟨p, hp, rfl⟩ := List.mem_map.mp hw
  obtain ⟨m', n', -, hge, hlt, haddr⟩ := h.inside p hp
  obtain ⟨-, rfl⟩ := digits_inj (by omega) hn (haddr.symm.trans hx)
  omega

end

end OrkDriver.Core
