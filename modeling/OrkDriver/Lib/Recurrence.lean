import Mathlib.Algebra.BigOperators.Ring.Finset
import Mathlib.Algebra.Group.AddChar
import Mathlib.Tactic.Ring

/-!
Blocks of a linear recurrence whose decays are exponentials.
-/

namespace OrkDriver.Lib

open Finset

variable {R : Type*} [CommRing R]

/-- `l` steps of `s ← e a * s + u` from step `b` on, in one go; `c` sums the exponents of the block. -/
theorem recurrence_block (e : AddChar R R) {s a u c : Nat → R} {b : Nat} (hs : ∀ t, s (t + 1) = e (a t) * s t + u t)
    (hc0 : c 0 = 0) (hc : ∀ l, c (l + 1) = c l + a (b + l)) (l : Nat) :
    s (b + l) = e (c l) * s b + ∑ k ∈ range l, e (c l - c (k + 1)) * u (b + k) := by
  induction l with
  | zero => simp [hc0]
  | succ l ih =>
      have hdecay : ∀ k ∈ range l, e (c (l + 1) - c (k + 1)) * u (b + k) =
          e (a (b + l)) * (e (c l - c (k + 1)) * u (b + k)) := by
        intro k _
        rw [hc l, show c l + a (b + l) - c (k + 1) = a (b + l) + (c l - c (k + 1)) by ring, AddChar.map_add_eq_mul,
          mul_assoc]
      have hlast : e (c (l + 1) - c (l + 1)) = 1 := by rw [sub_self, AddChar.map_zero_eq_one]
      have hhead : e (c (l + 1)) = e (a (b + l)) * e (c l) := by rw [hc l, add_comm, AddChar.map_add_eq_mul]
      rw [← Nat.add_assoc, hs, ih, sum_range_succ, sum_congr rfl hdecay, ← mul_sum, hlast, hhead]
      ring

/-- A sum over the terms up to `l`, written with a mask. -/
theorem sum_mask {M : Type*} [AddCommMonoid M] (f : Nat → M) {l n : Nat} (h : l < n) :
    (∑ k ∈ range n, if k ≤ l then f k else 0) = ∑ k ∈ range (l + 1), f k := by
  rw [← sum_filter]
  apply sum_congr
  · ext k
    simp only [mem_filter, mem_range]
    omega
  · intro k _
    rfl

end OrkDriver.Lib
