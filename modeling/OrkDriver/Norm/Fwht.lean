import Mathlib.Analysis.Real.Sqrt
import OrkDriver.Lib.Loops
import OrkDriver.Lib.Walsh

/-!
`ork_fwht_norm` (`npu/norm.c`): butterflies over a growing stride, then a scaling.
-/

namespace OrkDriver.Norm

open Finset OrkDriver.Lib

variable {F : Type*} [CommRing F]

/-! ### The code -/

/-- `a=v[j], b=v[j+len]; v[j]=a+b; v[j+len]=a-b` -/
def butterfly (len : Nat) (v : Nat → F) (j : Nat) : Nat → F :=
  let a := v j
  let b := v (j + len)
  Function.update (Function.update v j (a + b)) (j + len) (a - b)

/-- The values of `j` in the pass of stride `len`. -/
def butterflies (n len : Nat) : List Nat :=
  (List.range (pieces n (len * 2))).flatMap fun b => (List.range len).map fun r => b * (len * 2) + r

def fwhtPass (n len : Nat) (v : Nat → F) : Nat → F := (butterflies n len).foldl (butterfly len) v

/-- The passes from stride `len` on. -/
def fwhtPasses (n len : Nat) (v : Nat → F) : Nat → F :=
  if 0 < len ∧ len < n then fwhtPasses n (len * 2) (fwhtPass n len v) else v
termination_by n - len

/-- `ork_fwht_norm`, with `s` for `1.0f/sqrtf((float)n)`. -/
def orkFwhtNorm (s : F) (n : Nat) (v : Nat → F) : Nat → F :=
  (List.range n).foldl (fun v i => Function.update v i (v i * s)) (fwhtPasses n 1 v)

/-- The elements that the passes from stride `len` on read and write. -/
def passAccesses (n len : Nat) : List Nat :=
  if 0 < len ∧ len < n then ((butterflies n len).flatMap fun j => [j, j + len]) ++ passAccesses n (len * 2) else []
termination_by n - len

/-- All elements that are read or written. -/
def fwhtAccesses (n : Nat) : List Nat := passAccesses n 1 ++ List.range n

/-! ### One pass -/

section

variable {n len q r k p : Nat} {v : Nat → F}

theorem mem_butterflies {j : Nat} : j ∈ butterflies n len ↔ ∃ b < pieces n (len * 2), ∃ r < len, j = b * (len * 2) + r := by
  simp only [butterflies, List.mem_flatMap, List.mem_map, List.mem_range, eq_comm]

theorem nodup_butterflies (n len : Nat) : (butterflies n len).Nodup := by
  unfold butterflies
  rw [flatMap_range_map]
  apply (List.nodup_map_iff_inj_on List.nodup_range).mpr
  intro x _ y _ heq
  rcases Nat.eq_zero_or_pos len with rfl | hlen
  · rw [Nat.mul_zero] at *
    exact absurd ‹x ∈ List.range 0› List.not_mem_nil
  have hx := Nat.mod_lt x hlen
  have hy := Nat.mod_lt y hlen
  obtain ⟨hdiv, hmod⟩ := digits_inj (by omega) (by omega) heq
  rw [← Nat.div_add_mod' x len, ← Nat.div_add_mod' y len, hdiv, hmod]

/-- The two elements of a butterfly. -/
theorem butterfly_pair (hlen : 0 < len) (v : Nat → F) (j : Nat) :
    (butterfly len v j j, butterfly len v j (j + len)) = (v j + v (j + len), v j - v (j + len)) := by
  unfold butterfly
  refine Prod.ext ?_ (Function.update_self _ _ _)
  exact (Function.update_of_ne (show j ≠ j + len by omega) _ _).trans (Function.update_self _ _ _)

theorem butterfly_frame {j x : Nat} (h : x ≠ j) (h' : x ≠ j + len) (v : Nat → F) : butterfly len v j x = v x := by
  unfold butterfly
  exact (Function.update_of_ne h' _ _).trans (Function.update_of_ne h _ _)

/-- Each pair of a pass is one butterfly's. -/
theorem fwhtPass_pair (hq : q < pieces n (len * 2)) (hr : r < len) (v : Nat → F) :
    fwhtPass n len v (q * (len * 2) + r) = v (q * (len * 2) + r) + v (q * (len * 2) + r + len) ∧
      fwhtPass n len v (q * (len * 2) + r + len) = v (q * (len * 2) + r) - v (q * (len * 2) + r + len) := by
  have hfold := foldl_once (fun v : Nat → F => (v (q * (len * 2) + r), v (q * (len * 2) + r + len)))
    (f := butterfly len) (g := fun ab => (ab.1 + ab.2, ab.1 - ab.2)) (nodup_butterflies n len)
    (mem_butterflies.mpr ⟨q, hq, r, hr, rfl⟩) (fun v => butterfly_pair (Nat.zero_lt_of_lt hr) v _)
    (fun j hj hne v => ?_) v
  · exact Prod.mk.inj hfold
  · obtain ⟨b, -, r', hr', rfl⟩ := mem_butterflies.mp hj
    have hsame : q * (len * 2) + r ≠ b * (len * 2) + r' := fun heq => hne heq.symm
    have hlow : q * (len * 2) + r ≠ b * (len * 2) + r' + len := by
      intro heq
      have h := (digits_inj (m := len * 2) (by omega) (by omega) (heq.trans (Nat.add_assoc _ _ _))).2
      omega
    have hupp : q * (len * 2) + r + len ≠ b * (len * 2) + r' := by
      intro heq
      have h := (digits_inj (m := len * 2) (by omega) (by omega) ((Nat.add_assoc _ _ _).symm.trans heq)).2
      omega
    refine Prod.ext (butterfly_frame hsame hlow v) (butterfly_frame hupp ?_ v)
    omega

theorem pieces_pow (hk : k < p) : pieces (2 ^ p) (2 ^ k * 2) = 2 ^ (p - (k + 1)) := by
  unfold pieces
  have hpow : 2 ^ p = 2 ^ (p - (k + 1)) * (2 ^ k * 2) := by
    rw [← pow_succ, ← pow_add, Nat.sub_add_cancel hk]
  have hpos : 0 < 2 ^ k * 2 := by positivity
  rw [hpow, Nat.add_sub_assoc hpos, Nat.mul_comm, Nat.mul_add_div hpos, Nat.div_eq_of_lt (by omega), Nat.add_zero]

/-- Each block of `2 ^ k` elements holds the transform of what it held. -/
def Blockwise (n k : Nat) (v v' : Nat → F) : Prop :=
  ∀ q r, r < 2 ^ k → q * 2 ^ k + r < n → v' (q * 2 ^ k + r) = wht k (fun s => v (q * 2 ^ k + s)) r

theorem Blockwise.pass {v₀ : Nat → F} (hk : k < p) (h : Blockwise (2 ^ p) k v₀ v) :
    Blockwise (2 ^ p) (k + 1) v₀ (fwhtPass (2 ^ p) (2 ^ k) v) := by
  intro q r hr hin
  have hpow : 2 ^ p = 2 ^ (p - (k + 1)) * (2 ^ k * 2) := by
    rw [← pow_succ, ← pow_add, Nat.sub_add_cancel hk]
  rw [pow_succ] at hr hin ⊢
  have hq : q < pieces (2 ^ p) (2 ^ k * 2) := by
    rw [pieces_pow hk]
    rw [hpow] at hin
    exact Nat.lt_of_mul_lt_mul_right (Nat.lt_of_le_of_lt (Nat.le_add_right _ r) hin)
  have hend : q * (2 ^ k * 2) + 2 ^ k * 2 ≤ 2 ^ p := by
    rw [pieces_pow hk] at hq
    rw [hpow, ← Nat.succ_mul]
    exact Nat.mul_le_mul_right _ hq
  have hlow : q * (2 ^ k * 2) = 2 * q * 2 ^ k := by ring
  have hupp : q * (2 ^ k * 2) + 2 ^ k = (2 * q + 1) * 2 ^ k := by ring
  have hblocks : ∀ r < 2 ^ k, v (q * (2 ^ k * 2) + r) = wht k (fun s => v₀ (q * (2 ^ k * 2) + s)) r ∧
      v (q * (2 ^ k * 2) + r + 2 ^ k) = wht k (fun s => v₀ (q * (2 ^ k * 2) + (2 ^ k + s))) r := by
    intro r hr
    constructor
    · rw [hlow] at hend ⊢
      exact h (2 * q) r hr (by omega)
    · have hcomm : q * (2 ^ k * 2) + r + 2 ^ k = (2 * q + 1) * 2 ^ k + r := by rw [← hupp]; omega
      have hfun : (fun s => v₀ (q * (2 ^ k * 2) + (2 ^ k + s))) = fun s => v₀ ((2 * q + 1) * 2 ^ k + s) := by
        funext s
        rw [← hupp, Nat.add_assoc]
      rw [hcomm, hfun]
      exact h (2 * q + 1) r hr (by omega)
  rcases lower_or_upper (show r < 2 ^ (k + 1) by rwa [pow_succ]) with hr' | ⟨y, hy, rfl⟩
  · rw [(fwhtPass_pair hq hr' v).1, wht_lower _ hr', (hblocks r hr').1, (hblocks r hr').2]
  · rw [Nat.add_comm (2 ^ k) y, ← Nat.add_assoc, (fwhtPass_pair hq hy v).2, Nat.add_comm y, wht_upper, (hblocks y hy).1,
      (hblocks y hy).2]

/-! ### All passes -/

/-- The passes from a stride on whose blocks are transformed. -/
theorem fwhtPasses_blockwise {v₀ : Nat → F} (hk : k ≤ p) (h : Blockwise (2 ^ p) k v₀ v) :
    Blockwise (2 ^ p) p v₀ (fwhtPasses (2 ^ p) (2 ^ k) v) := by
  induction hd : p - k generalizing k v with
  | zero =>
    obtain rfl : k = p := by omega
    rw [fwhtPasses, if_neg fun hlt => Nat.lt_irrefl _ hlt.2]
    exact h
  | succ d ih =>
    have hlt : k < p := by omega
    rw [fwhtPasses, if_pos ⟨by positivity, Nat.pow_lt_pow_right (by decide) hlt⟩, ← pow_succ]
    exact ih hlt (h.pass hlt) (by omega)

theorem fwhtPasses_cell (v : Nat → F) {x : Nat} (hx : x < 2 ^ p) : fwhtPasses (2 ^ p) 1 v x = wht p v x := by
  have hstart : Blockwise (2 ^ p) 0 v v := by
    intro q r hr _
    obtain rfl := Nat.lt_one_iff.mp hr
    rfl
  have h := fwhtPasses_blockwise (Nat.zero_le p) hstart 0 x hx (by omega)
  simpa only [Nat.zero_mul, Nat.zero_add, pow_zero] using h

theorem butterflies_lt (hk : k < p) {j : Nat} (hj : j ∈ butterflies (2 ^ p) (2 ^ k)) : j + 2 ^ k < 2 ^ p := by
  obtain ⟨q, hq, r, hr, rfl⟩ := mem_butterflies.mp hj
  have hpow : 2 ^ p = 2 ^ (p - (k + 1)) * (2 ^ k * 2) := by
    rw [← pow_succ, ← pow_add, Nat.sub_add_cancel hk]
  rw [pieces_pow hk] at hq
  rw [hpow, Nat.add_assoc]
  exact digits_lt hq (by omega)

theorem fwhtPasses_frame (hk : k ≤ p) (v : Nat → F) {x : Nat} (hx : 2 ^ p ≤ x) :
    fwhtPasses (2 ^ p) (2 ^ k) v x = v x := by
  induction hd : p - k generalizing k v with
  | zero =>
    obtain rfl : k = p := by omega
    rw [fwhtPasses, if_neg fun hlt => Nat.lt_irrefl _ hlt.2]
  | succ d ih =>
    have hlt : k < p := by omega
    rw [fwhtPasses, if_pos ⟨by positivity, Nat.pow_lt_pow_right (by decide) hlt⟩, ← pow_succ, ih hlt _ (by omega)]
    apply foldl_frame fun v : Nat → F => v x
    intro j hj v
    have hlt := butterflies_lt hlt hj
    have hj : j < 2 ^ p := Nat.lt_of_le_of_lt (Nat.le_add_right _ _) hlt
    exact butterfly_frame (by omega) (by omega) v

theorem passAccesses_lt (hk : k ≤ p) : ∀ x ∈ passAccesses (2 ^ p) (2 ^ k), x < 2 ^ p := by
  induction hd : p - k generalizing k with
  | zero =>
    obtain rfl : k = p := by omega
    rw [passAccesses, if_neg fun hlt => Nat.lt_irrefl _ hlt.2]
    exact fun x hx => absurd hx List.not_mem_nil
  | succ d ih =>
    have hlt : k < p := by omega
    rw [passAccesses, if_pos ⟨by positivity, Nat.pow_lt_pow_right (by decide) hlt⟩, ← pow_succ]
    intro x hx
    rcases List.mem_append.mp hx with hx | hx
    · obtain ⟨j, hj, hx⟩ := List.mem_flatMap.mp hx
      have hlt := butterflies_lt hlt hj
      rcases List.mem_cons.mp hx with rfl | hx
      · exact Nat.lt_of_le_of_lt (Nat.le_add_right _ _) hlt
      · obtain rfl := List.mem_singleton.mp hx
        exact hlt
    · exact ih hlt (by omega) x hx

/-! ### The scaling -/

theorem scale_in (s : F) (v : Nat → F) {x : Nat} (hx : x < n) :
    (List.range n).foldl (fun v i => Function.update v i (v i * s)) v x = v x * s :=
  foldl_once (fun v : Nat → F => v x) (g := fun a => a * s) List.nodup_range (List.mem_range.mpr hx)
    (fun _ => Function.update_self _ _ _) (fun _ _ hne _ => Function.update_of_ne (Ne.symm hne) _ _) v

theorem scale_out (s : F) (v : Nat → F) {x : Nat} (hx : n ≤ x) :
    (List.range n).foldl (fun v i => Function.update v i (v i * s)) v x = v x := by
  apply foldl_frame fun v : Nat → F => v x
  intro i hi v
  have := List.mem_range.mp hi
  exact Function.update_of_ne (by omega) _ _

/-- The transform of the whole vector, scaled; the rest of the memory stays. -/
theorem orkFwhtNorm_eq (s : F) (p : Nat) (v : Nat → F) :
    orkFwhtNorm s (2 ^ p) v = fun x => if x < 2 ^ p then wht p v x * s else v x := by
  funext x
  unfold orkFwhtNorm
  split
  next hx => rw [scale_in s _ hx, fwhtPasses_cell v hx]
  next hx =>
    have hframe := fwhtPasses_frame (Nat.zero_le p) v (Nat.not_lt.mp hx)
    rw [pow_zero] at hframe
    rw [scale_out s _ (Nat.not_lt.mp hx), hframe]

end

/-! ### The normaliser -/

/-- `1.0f/sqrtf((float)n)`, exactly. -/
noncomputable def invSqrt (n : Nat) : ℝ := 1 / Real.sqrt n

theorem invSqrt_sq (p : Nat) : 2 ^ p * (invSqrt (2 ^ p) * invSqrt (2 ^ p)) = 1 := by
  unfold invSqrt
  rw [div_mul_div_comm, one_mul, Real.mul_self_sqrt (Nat.cast_nonneg _), Nat.cast_pow, Nat.cast_ofNat]
  exact mul_one_div_cancel (by positivity)

/-- Over the reals the normaliser is linear, its own inverse, and an isometry, and it stays in its vector. -/
theorem orkFwhtNorm_isometry (p : Nat) :
    (∀ (a b : ℝ) (u v : Nat → ℝ), orkFwhtNorm (invSqrt (2 ^ p)) (2 ^ p) (fun x => a * u x + b * v x) = fun x =>
        a * orkFwhtNorm (invSqrt (2 ^ p)) (2 ^ p) u x + b * orkFwhtNorm (invSqrt (2 ^ p)) (2 ^ p) v x) ∧
      (∀ v : Nat → ℝ, orkFwhtNorm (invSqrt (2 ^ p)) (2 ^ p) (orkFwhtNorm (invSqrt (2 ^ p)) (2 ^ p) v) = v) ∧
      (∀ u v : Nat → ℝ, ∑ x ∈ range (2 ^ p), orkFwhtNorm (invSqrt (2 ^ p)) (2 ^ p) u x *
          orkFwhtNorm (invSqrt (2 ^ p)) (2 ^ p) v x = ∑ x ∈ range (2 ^ p), u x * v x) ∧
      (∀ x ∈ fwhtAccesses (2 ^ p), x < 2 ^ p) ∧
      ∀ (u v : Nat → ℝ), (∀ x < 2 ^ p, u x = v x) →
        (∀ x < 2 ^ p, orkFwhtNorm (invSqrt (2 ^ p)) (2 ^ p) u x = orkFwhtNorm (invSqrt (2 ^ p)) (2 ^ p) v x) ∧
          ∀ x, 2 ^ p ≤ x → orkFwhtNorm (invSqrt (2 ^ p)) (2 ^ p) u x = u x := by
  have hsq := invSqrt_sq p
  generalize invSqrt (2 ^ p) = s at hsq ⊢
  simp only [orkFwhtNorm_eq]
  refine ⟨fun a b u v => ?_, fun v => ?_, fun u v => ?_, fun x hx => ?_, fun u v h => ⟨fun x hx => ?_, fun x hx => ?_⟩⟩
  · funext x
    split
    · rw [wht_linear]
      ring
    · rfl
  · funext x
    split
    next hx =>
      have hin : ∀ y < 2 ^ p, (if y < 2 ^ p then wht p v y * s else v y) = s * wht p v y + 0 * v y := by
        intro y hy
        rw [if_pos hy]
        ring
      rw [wht_congr hin hx, wht_linear, wht_wht v hx]
      calc (s * (2 ^ p * v x) + 0 * wht p v x) * s = 2 ^ p * (s * s) * v x := by ring
        _ = v x := by rw [hsq, one_mul]
    next hx => rfl
  · calc ∑ x ∈ range (2 ^ p), (if x < 2 ^ p then wht p u x * s else u x) * (if x < 2 ^ p then wht p v x * s else v x)
        = ∑ x ∈ range (2 ^ p), s * s * (wht p u x * wht p v x) := by
          apply sum_congr rfl
          intro x hx
          rw [if_pos (mem_range.mp hx), if_pos (mem_range.mp hx)]
          ring
      _ = 2 ^ p * (s * s) * ∑ x ∈ range (2 ^ p), u x * v x := by
          rw [← mul_sum, sum_wht_mul_wht]
          ring
      _ = ∑ x ∈ range (2 ^ p), u x * v x := by rw [hsq, one_mul]
  · rcases List.mem_append.mp hx with hx | hx
    · have h := passAccesses_lt (Nat.zero_le p) x
      rw [pow_zero] at h
      exact h hx
    · exact List.mem_range.mp hx
  · rw [if_pos hx, if_pos hx, wht_congr h hx]
  · rw [if_neg (Nat.not_lt.mpr hx)]

end OrkDriver.Norm
