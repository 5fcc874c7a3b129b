import Mathlib.Algebra.Order.BigOperators.Group.Finset
import Mathlib.Algebra.Order.Ring.Abs
import OrkDriver.Cpu.Gemm
import OrkDriver.Lib.Dot
import OrkDriver.Lib.Plane

/-!
Grouped runs: what they are to compute, the loops that scale the partials of the groups and sum them, and
`orki_cpu_gemm_grouped` (`npu/core/buf.c`).
-/

namespace OrkDriver.Grouped

open Finset OrkDriver.Lib OrkDriver.Lib.Neon OrkDriver.Cpu

/-- Bytes as `int8_t`. -/
def codes (A : Bytes) : Nat → Int := fun x => (A x).toInt

/-- The product of row `m` and column `n` over group `g`. -/
def groupDot (K N G : Nat) (A B : Nat → Int) (g m n : Nat) : Int :=
  dot G (fun k => A (m * K + (g * G + k))) fun k => B ((g * G + k) * N + n)

/-- An `int32_t` accumulator. -/
def wrap32 (x : Int) : Int := (BitVec.ofInt 32 x).toInt

section

variable {F : Type*} [CommRing F]

/-- The sum over the groups of each partial times its scales. -/
def scaledSum (Sk N : Nat) (P : Nat → Int) (aScale bScale : Nat → F) (m n : Nat) : F :=
  ∑ g ∈ range Sk, (P g : F) * aScale (m * Sk + g) * bScale (g * N + n)

/-- What a grouped run is to leave in row `m` and column `n`, with the accumulators `acc`. -/
def reference (acc : Int → Int) (K N G : Nat) (A B : Nat → Int) (aScale bScale : Nat → F) (m n : Nat) : F :=
  scaledSum (K / G) N (fun g => acc (groupDot K N G A B g m n)) aScale bScale m n

/-! ### Accumulation -/

/-- `for(nc<Nc) cr[n0+nc] += (float)pg[nc]*as*bs[nc]` -/
def addScaled (n0 Nc : Nat) (pg : Nat → Int) (as : F) (bs cr : Nat → F) : Nat → F :=
  fun n => if n0 ≤ n ∧ n < n0 + Nc then cr n + (pg (n - n0) : F) * as * bs (n - n0) else cr n

/-- The groups of one N-slice. -/
def addGroups (n0 Nc Sk : Nat) (pg : Nat → Nat → Int) (as : Nat → F) (bs : Nat → Nat → F) (cr : Nat → F) : Nat → F :=
  (List.range Sk).foldl (fun cr g => addScaled n0 Nc (pg g) (as g) (bs g) cr) cr

variable {n0 Nc Sk : Nat} {pg : Nat → Nat → Int} {as : Nat → F} {bs : Nat → Nat → F} {cr : Nat → F} {n : Nat}

theorem addGroups_in (h : n0 ≤ n ∧ n < n0 + Nc) : addGroups n0 Nc Sk pg as bs cr n =
    cr n + ∑ g ∈ range Sk, (pg g (n - n0) : F) * as g * bs g (n - n0) := by
  unfold addGroups
  induction Sk with
  | zero => simp
  | succ Sk ih =>
    rw [List.range_succ, List.foldl_append, List.foldl_cons, List.foldl_nil, sum_range_succ, ← add_assoc, ← ih]
    exact if_pos h

theorem addGroups_out (h : ¬ (n0 ≤ n ∧ n < n0 + Nc)) : addGroups n0 Nc Sk pg as bs cr n = cr n := by
  unfold addGroups
  apply foldl_frame fun cr : Nat → F => cr n
  intro g _ cr
  exact if_neg h

/-- Rows of `C`, each computed by itself. -/
def putRows (M N : Nat) (row : Nat → Nat → F) (C : Nat → F) : Nat → F := stores C (block 0 N M N row)

omit [CommRing F] in
theorem putRows_cell {M N : Nat} {row : Nat → Nat → F} {C : Nat → F} {m n : Nat} (hm : m < M) (hn : n < N) :
    putRows M N row C (m * N + n) = row m n := by
  have h : putRows M N row C (0 + m * N + n) = row m n := stores_block (Nat.le_refl N) C hm hn
  rwa [Nat.zero_add] at h

/-! ### Without a device -/

/-- A row of `orki_cpu_gemm_grouped`: the partials of a group are those of `orki_cpu_gemm_i32` on one row of its part of
A, from an accumulator that holds `acc`. -/
def gemmGroupedRow (neon : Bool) (acc : Words) (K N G : Nat) (A codes : Bytes) (aScale bScale : Nat → F) (m : Nat) : Nat → F :=
  addGroups 0 N (K / G)
    (fun g n =>
      let Ag : Bytes := fun k => A (m * K + g * G + k)
      let Bg : Bytes := fun x => codes (g * G * N + x)
      (orkiCpuGemmI32 Ag Bg G N (gemmRow Ag G N neon 0) acc n).toInt)
    (fun g => aScale (m * (K / G) + g)) (fun g n => bScale (g * N + n)) fun _ => 0

/-- `orki_cpu_gemm_grouped`, when the accumulators are granted. -/
def orkiCpuGemmGrouped (neon : Bool) (acc : Words) (M K N G : Nat) (A codes : Bytes) (aScale bScale C : Nat → F) :
    Int × (Nat → F) :=
  if M < 1 ∨ K < 1 ∨ N < 1 ∨ G < 1 ∨ K % G ≠ 0 then (-1, C)
  else (0, putRows M N (gemmGroupedRow neon acc K N G A codes aScale bScale) C)

theorem row_gemmRow {neon : Bool} {A : Bytes} {K N m : Nat} {s : GemmStep} (hs : s ∈ gemmRow A K N neon m) : s.row = m := by
  unfold gemmRow at hs
  rcases List.mem_cons.mp hs with rfl | hs
  · rfl
  rcases List.mem_append.mp hs with hs | hs
  · obtain ⟨b, -, hs⟩ := List.mem_flatMap.mp hs
    unfold quadTrip at hs
    split at hs
    · exact absurd hs List.not_mem_nil
    · rcases List.mem_append.mp hs with hs | hs <;> obtain ⟨j, -, rfl⟩ := List.mem_map.mp hs <;> rfl
  · obtain ⟨k, -, hs⟩ := List.mem_flatMap.mp hs
    unfold singleTrip at hs
    split at hs
    · exact absurd hs List.not_mem_nil
    · obtain ⟨j, -, rfl⟩ := List.mem_map.mp hs
      rfl

theorem gemmRow_cell (neon : Bool) (A B : Bytes) (K N : Nat) (acc : Words) {n : Nat} (hn : n < N) :
    (orkiCpuGemmI32 A B K N (gemmRow A K N neon 0) acc n).toInt = wrap32 (dot K (codes A) fun k => codes B (k * N + n)) := by
  have hrows : RowsInterleave A K N neon 1 (gemmRow A K N neon 0) := by
    constructor
    case within =>
      intro s hs
      rw [row_gemmRow hs]
      exact Nat.one_pos
    case each =>
      intro m hm
      obtain rfl := Nat.lt_one_iff.mp hm
      exact List.filter_eq_self.mpr fun s hs => decide_eq_true (row_gemmRow hs)
  have h := (orkiCpuGemmI32_eq A B K N neon 1 _ hrows acc).1 0 Nat.one_pos n hn
  simp only [Nat.zero_mul, Nat.zero_add] at h
  rw [h]
  rfl

theorem orkiCpuGemmGrouped_spec {neon : Bool} {acc : Words} {M K N G : Nat} {A B : Bytes} {aScale bScale C : Nat → F}
    (h : (orkiCpuGemmGrouped neon acc M K N G A B aScale bScale C).1 = 0) {m n : Nat} (hm : m < M) (hn : n < N) :
    (orkiCpuGemmGrouped neon acc M K N G A B aScale bScale C).2 (m * N + n) =
      reference wrap32 K N G (codes A) (codes B) aScale bScale m n := by
  unfold orkiCpuGemmGrouped at h ⊢
  split at h
  · cases h
  rw [if_neg ‹_›]
  refine (putRows_cell hm hn).trans ?_
  rw [gemmGroupedRow, addGroups_in ⟨Nat.zero_le n, by omega⟩, zero_add]
  unfold reference scaledSum
  apply sum_congr rfl
  intro g _
  dsimp only
  rw [Nat.sub_zero, gemmRow_cell _ _ _ _ _ _ hn]
  congr 4
  unfold groupDot dot codes
  apply sum_congr rfl
  intro k _
  dsimp only
  rw [Nat.add_mul, Nat.add_assoc, Nat.add_assoc]

theorem orkiCpuGemmGrouped_ok (neon : Bool) (acc : Words) {M K N G : Nat} (A B : Bytes) (aScale bScale C : Nat → F)
    (hM : 0 < M) (hK : 0 < K) (hN : 0 < N) (hG : 0 < G) (hKG : K % G = 0) :
    (orkiCpuGemmGrouped neon acc M K N G A B aScale bScale C).1 = 0 := by
  unfold orkiCpuGemmGrouped
  rw [if_neg (by omega)]

end

/-! ### Accumulators -/

theorem abs_dot_le {n : Nat} {a b : Nat → Int} {p q : Int} (ha : ∀ k < n, |a k| ≤ p) (hb : ∀ k < n, |b k| ≤ q) :
    |dot n a b| ≤ n * (p * q) := by
  unfold dot
  calc |∑ k ∈ range n, a k * b k| ≤ ∑ k ∈ range n, |a k * b k| := abs_sum_le_sum_abs _ _
    _ ≤ ∑ _k ∈ range n, p * q := by
      apply sum_le_sum
      intro k hk
      rw [abs_mul]
      exact mul_le_mul (ha k (mem_range.mp hk)) (hb k (mem_range.mp hk)) (abs_nonneg _)
        ((abs_nonneg _).trans (ha k (mem_range.mp hk)))
    _ = n * (p * q) := by rw [sum_const, card_range, nsmul_eq_mul]

theorem abs_codes (A : Bytes) (x : Nat) : |codes A x| ≤ 128 := by
  have hlo := BitVec.le_toInt (A x)
  have hhi := BitVec.toInt_lt (x := A x)
  unfold codes
  rw [abs_le]
  omega

/-- Groups that an `int32_t` holds. -/
theorem wrap32_groupDot {K N G : Nat} (hG : G < 131072) (A B : Bytes) (g m n : Nat) :
    wrap32 (groupDot K N G (codes A) (codes B) g m n) = groupDot K N G (codes A) (codes B) g m n := by
  have h := abs_dot_le (n := G) (fun k _ => abs_codes A (m * K + (g * G + k)))
    (fun k _ => abs_codes B ((g * G + k) * N + n))
  change |groupDot K N G (codes A) (codes B) g m n| ≤ _ at h
  rw [abs_le] at h
  exact BitVec.toInt_ofInt_eq_self (by decide) (by omega) (by omega)

end OrkDriver.Grouped
