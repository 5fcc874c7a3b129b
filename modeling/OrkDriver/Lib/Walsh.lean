import Mathlib.Algebra.BigOperators.Intervals
import Mathlib.Algebra.BigOperators.Ring.Finset
import Mathlib.Tactic.Ring

/-!
The Walsh-Hadamard transform of a vector of `2 ^ k` entries, by halves.
-/

namespace OrkDriver.Lib

open Finset

variable {R : Type*} [CommRing R]

/-- The transform of the first `2 ^ k` entries. -/
def wht : Nat → (Nat → R) → Nat → R
  | 0, v, x => v x
  | k + 1, v, x =>
    if x < 2 ^ k then wht k v x + wht k (fun s => v (2 ^ k + s)) x
    else wht k v (x - 2 ^ k) - wht k (fun s => v (2 ^ k + s)) (x - 2 ^ k)

variable {k x : Nat} {u v : Nat → R}

theorem wht_lower (v : Nat → R) (hx : x < 2 ^ k) :
    wht (k + 1) v x = wht k v x + wht k (fun s => v (2 ^ k + s)) x := if_pos hx

theorem wht_upper (k : Nat) (v : Nat → R) (x : Nat) :
    wht (k + 1) v (2 ^ k + x) = wht k v x - wht k (fun s => v (2 ^ k + s)) x := by
  refine (if_neg (Nat.not_lt.mpr (Nat.le_add_right _ x))).trans ?_
  rw [Nat.add_sub_cancel_left]

/-- A place in twice as many entries lies in one half or in the other. -/
theorem lower_or_upper (hx : x < 2 ^ (k + 1)) : x < 2 ^ k ∨ ∃ y < 2 ^ k, x = 2 ^ k + y := by
  rw [pow_succ] at hx
  rcases Nat.lt_or_ge x (2 ^ k) with hlt | hge
  · exact Or.inl hlt
  · exact Or.inr ⟨x - 2 ^ k, by omega, (Nat.add_sub_cancel' hge).symm⟩

/-- Only these entries are read. -/
theorem wht_congr (h : ∀ s < 2 ^ k, u s = v s) (hx : x < 2 ^ k) : wht k u x = wht k v x := by
  induction k generalizing u v x with
  | zero => exact h x hx
  | succ k ih =>
    have hlow : ∀ s < 2 ^ k, u s = v s := fun s hs => h s (by rw [pow_succ]; omega)
    have hupp : ∀ s < 2 ^ k, u (2 ^ k + s) = v (2 ^ k + s) := fun s hs => h _ (by rw [pow_succ]; omega)
    rcases lower_or_upper hx with hx | ⟨y, hy, rfl⟩
    · rw [wht_lower u hx, wht_lower v hx, ih hlow hx, ih hupp hx]
    · rw [wht_upper, wht_upper, ih hlow hy, ih hupp hy]

theorem wht_linear (a b : R) (u v : Nat → R) (x : Nat) :
    wht k (fun s => a * u s + b * v s) x = a * wht k u x + b * wht k v x := by
  induction k generalizing u v x with
  | zero => rfl
  | succ k ih =>
    simp only [wht]
    split
    · rw [ih, ih]
      ring
    · rw [ih, ih]
      ring

theorem wht_add (u v : Nat → R) (x : Nat) : wht k (fun s => u s + v s) x = wht k u x + wht k v x := by
  have h := wht_linear (k := k) 1 1 u v x
  simpa only [one_mul] using h

theorem wht_sub (u v : Nat → R) (x : Nat) : wht k (fun s => u s - v s) x = wht k u x - wht k v x := by
  have h := wht_linear (k := k) 1 (-1) u v x
  simpa only [one_mul, neg_one_mul, ← sub_eq_add_neg] using h

/-- Twice the transform is the vector times its length. -/
theorem wht_wht (v : Nat → R) (hx : x < 2 ^ k) : wht k (wht k v) x = 2 ^ k * v x := by
  induction k generalizing v x with
  | zero => rw [pow_zero, one_mul]; rfl
  | succ k ih =>
    have hlow : ∀ y < 2 ^ k, wht k (wht (k + 1) v) y =
        2 ^ k * v y + wht k (wht k fun s => v (2 ^ k + s)) y := by
      intro y hy
      rw [wht_congr (fun s hs => wht_lower v hs) hy, wht_add, ih v hy]
    have hupp : ∀ y < 2 ^ k, wht k (fun s => wht (k + 1) v (2 ^ k + s)) y =
        2 ^ k * v y - wht k (wht k fun s => v (2 ^ k + s)) y := by
      intro y hy
      rw [wht_congr (fun s _ => wht_upper k v s) hy, wht_sub, ih v hy]
    rcases lower_or_upper hx with hx | ⟨y, hy, rfl⟩
    · rw [wht_lower _ hx, hlow x hx, hupp x hx]
      ring
    · rw [wht_upper, hlow y hy, hupp y hy, ih (fun s => v (2 ^ k + s)) hy]
      ring

/-- Parseval. -/
theorem sum_wht_mul_wht (k : Nat) (u v : Nat → R) :
    ∑ x ∈ range (2 ^ k), wht k u x * wht k v x = 2 ^ k * ∑ x ∈ range (2 ^ k), u x * v x := by
  induction k generalizing u v with
  | zero => rw [pow_zero, pow_zero, one_mul]; rfl
  | succ k ih =>
    have hsplit : ∀ f : Nat → R, ∑ x ∈ range (2 ^ (k + 1)), f x =
        ∑ x ∈ range (2 ^ k), f x + ∑ x ∈ range (2 ^ k), f (2 ^ k + x) := by
      intro f
      rw [pow_succ, mul_two, sum_range_add]
    calc ∑ x ∈ range (2 ^ (k + 1)), wht (k + 1) u x * wht (k + 1) v x
        = ∑ x ∈ range (2 ^ k), (wht k u x + wht k (fun s => u (2 ^ k + s)) x) *
              (wht k v x + wht k (fun s => v (2 ^ k + s)) x) +
            ∑ x ∈ range (2 ^ k), (wht k u x - wht k (fun s => u (2 ^ k + s)) x) *
              (wht k v x - wht k (fun s => v (2 ^ k + s)) x) := by
          rw [hsplit]
          congr 1
          · apply sum_congr rfl
            intro x hx
            rw [wht_lower u (mem_range.mp hx), wht_lower v (mem_range.mp hx)]
          · apply sum_congr rfl
            intro x _
            rw [wht_upper, wht_upper]
      _ = 2 * (∑ x ∈ range (2 ^ k), wht k u x * wht k v x +
            ∑ x ∈ range (2 ^ k), wht k (fun s => u (2 ^ k + s)) x * wht k (fun s => v (2 ^ k + s)) x) := by
          rw [← sum_add_distrib, ← sum_add_distrib, mul_sum]
          apply sum_congr rfl
          intro x _
          ring
      _ = 2 ^ (k + 1) * ∑ x ∈ range (2 ^ (k + 1)), u x * v x := by
          rw [ih, ih, hsplit]
          ring

end OrkDriver.Lib
