import Mathlib.Algebra.BigOperators.Ring.List
import Mathlib.Tactic.Ring
import OrkDriver.Lib.Grid
import OrkDriver.Lib.Lanes

/-!
The host transposes (`npu/f16/transpose.c`) in their vector build: register blocks inside tiles of 64, and two scalar
strips where the sides are not whole blocks. The counters of the loops are natural numbers.
-/

namespace OrkDriver.Cpu

open OrkDriver.Lib

variable {α β : Type*}

def tblk : Nat := 64

/-! ### Register blocks -/

/-- `ORK_J`, in lanes of 64 bits: the same half of two registers. -/
def orkJ (half : Lanes ((α × α) × (α × α)) → Lanes ((α × α) × (α × α))) (x y : Lanes (α × α)) : Lanes α :=
  Lanes.narrow (Lanes.narrow (Lanes.combine 1 (half (Lanes.widen x)) (half (Lanes.widen y))))

/-- The eight registers `o` of `t16_blk8`, from the eight it loads. -/
def t16Regs (a : Nat → Lanes α) : Nat → Lanes α :=
  let p0 := Lanes.trn (a 0) (a 1)
  let p1 := Lanes.trn (a 2) (a 3)
  let p2 := Lanes.trn (a 4) (a 5)
  let p3 := Lanes.trn (a 6) (a 7)
  let q0 := Lanes.trn (Lanes.widen p0.1) (Lanes.widen p1.1)
  let q1 := Lanes.trn (Lanes.widen p0.2) (Lanes.widen p1.2)
  let q2 := Lanes.trn (Lanes.widen p2.1) (Lanes.widen p3.1)
  let q3 := Lanes.trn (Lanes.widen p2.2) (Lanes.widen p3.2)
  fun
  | 0 => orkJ Lanes.low q0.1 q2.1
  | 4 => orkJ (Lanes.high 1) q0.1 q2.1
  | 1 => orkJ Lanes.low q1.1 q3.1
  | 5 => orkJ (Lanes.high 1) q1.1 q3.1
  | 2 => orkJ Lanes.low q0.2 q2.2
  | 6 => orkJ (Lanes.high 1) q0.2 q2.2
  | 3 => orkJ Lanes.low q1.2 q3.2
  | _ => orkJ (Lanes.high 1) q1.2 q3.2

/-- `t16_blk8`. -/
def t16Blk8 (s : Nat → α) (R C r c : Nat) : List (Nat × α) :=
  let o := t16Regs fun i => Lanes.load s ((r + i) * C + c)
  (List.range 8).flatMap fun i => Lanes.store 8 ((c + i) * R + r) (o i)

/-- The four registers `b` of `t32_blk4`. -/
def t32Regs (a : Nat → Lanes α) : Nat → Lanes α :=
  let t0 := Lanes.trn (a 0) (a 1)
  let t1 := Lanes.trn (a 2) (a 3)
  fun
  | 0 => Lanes.combine 2 (Lanes.low t0.1) (Lanes.low t1.1)
  | 1 => Lanes.combine 2 (Lanes.low t0.2) (Lanes.low t1.2)
  | 2 => Lanes.combine 2 (Lanes.high 2 t0.1) (Lanes.high 2 t1.1)
  | _ => Lanes.combine 2 (Lanes.high 2 t0.2) (Lanes.high 2 t1.2)

/-- `t32_blk4`; `toF16` is the conversion of one lane of `vcvt_f16_f32`. -/
def t32Blk4 (toF16 : α → β) (s : Nat → α) (R C r c : Nat) : List (Nat × β) :=
  let b := t32Regs fun i => Lanes.load s ((r + i) * C + c)
  (List.range 4).flatMap fun i => Lanes.store 4 ((c + i) * R + r) fun l => toF16 (b i l)

/-! ### The walks -/

/-- The tiles of the first `rv` rows and `cv` columns, in blocks of `w` by `w`. -/
def tileWalk (w rv cv : Nat) (blk : Nat → Nat → List (Nat × β)) : List (Nat × β) :=
  (upTo 0 rv tblk).flatMap fun r0 => (upTo 0 cv tblk).flatMap fun c0 =>
    let rm := if r0 + tblk < rv then r0 + tblk else rv
    let cm := if c0 + tblk < cv then c0 + tblk else cv
    (upTo r0 rm w).flatMap fun r => (upTo c0 cm w).flatMap fun c => blk r c

/-- One of the scalar loops. -/
def scalarWalk (r0 r1 c0 c1 R C : Nat) (v : Nat → β) : List (Nat × β) :=
  (upTo r0 r1 1).flatMap fun r => (upTo c0 c1 1).map fun c => (c * R + r, v (r * C + c))

/-- `ork_f16_transpose`: the result, and the stores to `dst`. -/
def orkF16Transpose (inPlace : Bool) (src : Nat → α) (rows cols : Int) : Int × List (Nat × α) :=
  if rows ≤ 0 ∨ cols ≤ 0 then (-1, [])
  else if inPlace then (-1, [])
  else
    let R := rows.toNat
    let C := cols.toNat
    let rv := R / 8 * 8
    let cv := C / 8 * 8
    (0, tileWalk 8 rv cv (t16Blk8 src R C) ++ scalarWalk rv R 0 C R C src ++ scalarWalk 0 rv cv C R C src)

/-- `ork_f32_transpose_to_f16`; the scalar cast converts as a lane does. -/
def orkF32TransposeToF16 (toF16 : α → β) (src : Nat → α) (rows cols : Int) : Int × List (Nat × β) :=
  if rows ≤ 0 ∨ cols ≤ 0 then (-1, [])
  else
    let R := rows.toNat
    let C := cols.toNat
    let rv := R / 4 * 4
    let cv := C / 4 * 4
    (0, tileWalk 4 rv cv (t32Blk4 toF16 src R C) ++ scalarWalk rv R 0 C R C (fun x => toF16 (src x)) ++
      scalarWalk 0 rv cv C R C fun x => toF16 (src x))

/-! ### The registers are transposed -/

theorem t16Regs_apply (a : Nat → Lanes α) {i l : Nat} (hi : i < 8) (hl : l < 8) : t16Regs a i l = a l i := by
  interval_cases i <;> interval_cases l <;> rfl

theorem t32Regs_apply (a : Nat → Lanes α) {i l : Nat} (hi : i < 4) (hl : l < 4) : t32Regs a i l = a l i := by
  interval_cases i <;> interval_cases l <;> rfl

/-- `blk` stores the transpose of a `w` by `w` block, in any order. -/
structure TransposesBlock (w R C : Nat) (v : Nat → β) (blk : Nat → Nat → List (Nat × β)) : Prop where
  length : ∀ r c, (blk r c).length = w * w
  mem : ∀ r c i l, i < w → l < w → ((c + i) * R + (r + l), v ((r + l) * C + (c + i))) ∈ blk r c

theorem mem_store {n p i : Nat} (hi : i < n) (x : Lanes β) : (p + i, x i) ∈ Lanes.store n p x :=
  List.mem_map.mpr ⟨i, List.mem_range.mpr hi, rfl⟩

theorem length_stores (w n : Nat) (p : Nat → Nat) (x : Nat → Lanes β) :
    ((List.range w).flatMap fun i => Lanes.store n (p i) (x i)).length = w * n := by
  simp only [Lanes.store, List.length_flatMap, List.length_map, List.length_range, List.map_const', List.sum_replicate_nat]

theorem t16Blk8_transposes (s : Nat → α) (R C : Nat) : TransposesBlock 8 R C s (t16Blk8 s R C) where
  length r c := length_stores 8 8 _ _
  mem r c i l hi hl := by
    have hreg := t16Regs_apply (fun i => Lanes.load s ((r + i) * C + c)) hi hl
    refine List.mem_flatMap.mpr ⟨i, List.mem_range.mpr hi, ?_⟩
    rw [← Nat.add_assoc, ← Nat.add_assoc, show s ((r + l) * C + c + i) = _ from hreg.symm]
    exact mem_store hl _

theorem t32Blk4_transposes (toF16 : α → β) (s : Nat → α) (R C : Nat) :
    TransposesBlock 4 R C (fun x => toF16 (s x)) (t32Blk4 toF16 s R C) where
  length r c := length_stores 4 4 _ _
  mem r c i l hi hl := by
    have hreg := t32Regs_apply (fun i => Lanes.load s ((r + i) * C + c)) hi hl
    refine List.mem_flatMap.mpr ⟨i, List.mem_range.mpr hi, ?_⟩
    rw [← Nat.add_assoc, ← Nat.add_assoc, show s ((r + l) * C + c + i) = _ from hreg.symm]
    exact mem_store hl fun l => toF16 (t32Regs (fun i => Lanes.load s ((r + i) * C + c)) i l)

/-! ### The walks cover the matrix -/

section

variable {w rv cv R C : Nat} {v : Nat → β} {blk : Nat → Nat → List (Nat × β)}

/-- The blocks of width `w` in the tiles of a side that is whole blocks. -/
theorem sum_tile_blocks (hw : w ∣ tblk) (hd : w ∣ rv) :
    ((upTo 0 rv tblk).map fun r0 => (upTo r0 (if r0 + tblk < rv then r0 + tblk else rv) w).length * w).sum = rv := by
  have ht : 0 < tblk := by decide
  rw [upTo, List.map_map, Nat.sub_zero]
  refine Eq.trans (congrArg List.sum (List.map_congr_left fun j hj => ?_)) (sum_pieceLen ht (n := rv))
  have hlt := (lt_pieces_iff ht).mp (List.mem_range.mp hj)
  have hjd : w ∣ j * tblk := Nat.dvd_trans hw (Nat.dvd_mul_left tblk j)
  rw [Function.comp_apply, Nat.zero_add, pieceLen]
  split_ifs with h1 h2
  · omega
  · rw [length_upTo_mul (by rw [Nat.add_sub_cancel_left]; exact hw), Nat.add_sub_cancel_left]
  · exact length_upTo_mul (Nat.dvd_sub hd hjd)
  · rw [length_upTo_mul (Nat.dvd_sub hd hjd)]
    omega

theorem length_tileWalk (hb : TransposesBlock w R C v blk) (hw : w ∣ tblk) (hr : w ∣ rv) (hc : w ∣ cv) :
    (tileWalk w rv cv blk).length = rv * cv := by
  have hinner (r0 c0 rm cm : Nat) : ((upTo r0 rm w).flatMap fun r => (upTo c0 cm w).flatMap fun c => blk r c).length =
      (upTo r0 rm w).length * w * ((upTo c0 cm w).length * w) := by
    simp only [List.length_flatMap, hb.length, List.map_const', List.sum_replicate_nat]
    ring
  simp only [tileWalk, List.length_flatMap (l := upTo 0 rv tblk), List.length_flatMap (l := upTo 0 cv tblk), hinner,
    List.sum_map_mul_left, List.sum_map_mul_right, sum_tile_blocks hw hc, sum_tile_blocks hw hr]

/-- The tile that holds row `r` meets the block that holds it. -/
theorem block_mem_tile (hw0 : 0 < w) (hw : w ∣ tblk) {r : Nat} (hr : r < rv) : r / w * w ∈
    upTo (r / tblk * tblk) (if r / tblk * tblk + tblk < rv then r / tblk * tblk + tblk else rv) w := by
  have hle : r / tblk * tblk ≤ r / w * w := by
    obtain ⟨q, hq⟩ := hw
    rw [hq, ← Nat.div_div_eq_div_mul, Nat.mul_comm w q, ← Nat.mul_assoc]
    exact Nat.mul_le_mul_right w (Nat.div_mul_le_self (r / w) q)
  have hself := Nat.div_mul_le_self r w
  have hlt : r < r / tblk * tblk + tblk := Nat.lt_div_mul_add (by decide)
  refine mul_mem_upTo hw0 (Nat.dvd_trans hw (Nat.dvd_mul_left tblk _)) hle ?_
  split_ifs <;> omega

theorem tile_mem_walk {r : Nat} (hr : r < rv) : r / tblk * tblk ∈ upTo 0 rv tblk :=
  mul_mem_upTo (by decide) (Nat.dvd_zero tblk) (Nat.zero_le _) (lt_of_le_of_lt (Nat.div_mul_le_self r tblk) hr)

/-- Every cell of the walk's rows and columns is stored, transposed. -/
theorem mem_tileWalk (hb : TransposesBlock w R C v blk) (hw0 : 0 < w) (hw : w ∣ tblk) {r c : Nat} (hr : r < rv)
    (hc : c < cv) : (c * R + r, v (r * C + c)) ∈ tileWalk w rv cv blk := by
  have hcell := hb.mem (r / w * w) (c / w * w) (c % w) (r % w) (Nat.mod_lt _ hw0) (Nat.mod_lt _ hw0)
  rw [Nat.div_add_mod', Nat.div_add_mod'] at hcell
  refine List.mem_flatMap.mpr ⟨r / tblk * tblk, tile_mem_walk hr, ?_⟩
  refine List.mem_flatMap.mpr ⟨c / tblk * tblk, tile_mem_walk hc, ?_⟩
  refine List.mem_flatMap.mpr ⟨r / w * w, block_mem_tile hw0 hw hr, ?_⟩
  exact List.mem_flatMap.mpr ⟨c / w * w, block_mem_tile hw0 hw hc, hcell⟩

theorem mem_scalarWalk {r0 r1 c0 c1 r c : Nat} (hr : r0 ≤ r ∧ r < r1) (hc : c0 ≤ c ∧ c < c1) :
    (c * R + r, v (r * C + c)) ∈ scalarWalk r0 r1 c0 c1 R C v :=
  List.mem_flatMap.mpr ⟨r, mem_upTo_one.mpr hr, List.mem_map.mpr ⟨c, mem_upTo_one.mpr hc, rfl⟩⟩

theorem length_scalarWalk (r0 r1 c0 c1 R C : Nat) (v : Nat → β) :
    (scalarWalk r0 r1 c0 c1 R C v).length = (r1 - r0) * (c1 - c0) := by
  have hone (lo hi : Nat) : (upTo lo hi 1).length = hi - lo := by
    have : (upTo lo hi 1).length * 1 = hi - lo := length_upTo_mul (Nat.one_dvd _)
    omega
  simp only [scalarWalk, List.length_flatMap, List.length_map, hone, List.map_const', List.sum_replicate_nat]

/-- Tiles and strips partition the matrix. -/
theorem walks_perm (hb : TransposesBlock w R C v blk) (hw0 : 0 < w) (hw : w ∣ tblk) :
    (tileWalk w (R / w * w) (C / w * w) blk ++ scalarWalk (R / w * w) R 0 C R C v ++
      scalarWalk 0 (R / w * w) (C / w * w) C R C v).Perm (grid R C fun r c => (c * R + r, v (r * C + c))) := by
  have hR : R / w * w ≤ R := Nat.div_mul_le_self R w
  have hC : C / w * w ≤ C := Nat.div_mul_le_self C w
  apply perm_grid
  · intro r c r' c' hr _ hr' _ heq
    obtain ⟨hc, hr⟩ := digits_inj hr hr' (Prod.ext_iff.mp heq).1
    exact ⟨hr, hc⟩
  · rw [List.length_append, List.length_append, length_tileWalk hb hw (Nat.dvd_mul_left w _) (Nat.dvd_mul_left w _),
      length_scalarWalk, length_scalarWalk]
    obtain ⟨a, ha⟩ := Nat.exists_eq_add_of_le hR
    obtain ⟨b, hbC⟩ := Nat.exists_eq_add_of_le hC
    generalize R / w * w = rv at *
    generalize C / w * w = cv at *
    subst ha hbC
    rw [Nat.add_sub_cancel_left, Nat.add_sub_cancel_left, Nat.sub_zero, Nat.sub_zero]
    ring
  · intro r c hr hc
    rw [List.mem_append, List.mem_append]
    by_cases hrv : r < R / w * w
    · by_cases hcv : c < C / w * w
      · exact .inl (.inl (mem_tileWalk hb hw0 hw hrv hcv))
      · exact .inr (mem_scalarWalk ⟨Nat.zero_le r, hrv⟩ ⟨by omega, hc⟩)
    · exact .inl (.inr (mem_scalarWalk ⟨by omega, hr⟩ ⟨Nat.zero_le c, hc⟩))

end

/-- For every number of rows and columns and every source, each transpose stores each element of the destination once,
with the value of its element of the source, and stores nothing else. -/
theorem transposes_perm (toF16 : α → β) (src16 : Nat → β) (src : Nat → α) {rows cols : Int} (hr : 1 ≤ rows)
    (hc : 1 ≤ cols) :
    (orkF16Transpose false src16 rows cols).1 = 0 ∧
    (orkF16Transpose false src16 rows cols).2.Perm
      (grid rows.toNat cols.toNat fun r c => (c * rows.toNat + r, src16 (r * cols.toNat + c))) ∧
    (orkF32TransposeToF16 toF16 src rows cols).1 = 0 ∧
    (orkF32TransposeToF16 toF16 src rows cols).2.Perm
      (grid rows.toNat cols.toNat fun r c => (c * rows.toNat + r, toF16 (src (r * cols.toNat + c)))) := by
  have hpos : ¬ (rows ≤ 0 ∨ cols ≤ 0) := by omega
  rw [orkF16Transpose, orkF32TransposeToF16, if_neg hpos, if_neg hpos, if_neg Bool.false_ne_true]
  exact ⟨rfl, walks_perm (t16Blk8_transposes src16 _ _) (by decide) (by decide), rfl,
    walks_perm (t32Blk4_transposes toF16 src _ _) (by decide) (by decide)⟩

theorem transposes_perm_ragged : (orkF16Transpose false (fun x => x) 9 75).2.Perm
    (grid 9 75 fun r c => (c * 9 + r, r * 75 + c)) :=
  (transposes_perm (fun x : Nat => x) (fun x => x) (fun x => x) (show (1 : Int) ≤ 9 by decide)
    (show (1 : Int) ≤ 75 by decide)).2.1

end OrkDriver.Cpu
