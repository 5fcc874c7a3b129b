import Mathlib.Algebra.BigOperators.Ring.Finset
import OrkDriver.Lib.Cut

/-!
Sums of products over a range cut into pieces.
-/

namespace OrkDriver.Lib

open Finset

section

variable {M : Type*} [AddCommMonoid M]

/-- A sum over the first pieces of a cut. -/
theorem sum_prefix_pieces (f : Nat → M) {n size : Nat} (h : 0 < size) {p : Nat} (hp : p ≤ pieces n size) :
    ∑ i ∈ range p, ∑ j ∈ range (pieceLen n size i), f (i * size + j) = ∑ k ∈ range (min n (p * size)), f k := by
  induction p with
  | zero => simp
  | succ p ih =>
      have hlt : p * size < n := (lt_pieces_iff h).mp hp
      have hend : min n ((p + 1) * size) = p * size + pieceLen n size p := by
        rw [Nat.succ_mul]
        unfold pieceLen
        split <;> omega
      rw [sum_range_succ, ih (Nat.le_of_succ_le hp), hend, sum_range_add, Nat.min_eq_right hlt.le]

/-- Summing piece by piece is summing. -/
theorem sum_pieces (f : Nat → M) (n : Nat) {size : Nat} (h : 0 < size) :
    ∑ i ∈ range (pieces n size), ∑ j ∈ range (pieceLen n size i), f (i * size + j) = ∑ k ∈ range n, f k := by
  have hall : n ≤ pieces n size * size := not_lt.mp fun hlt => lt_irrefl _ ((lt_pieces_iff h).mpr hlt)
  rw [sum_prefix_pieces f h (Nat.le_refl _), Nat.min_eq_left hall]

end

section

variable {R : Type*} [NonUnitalNonAssocSemiring R]

/-- `Σ k < n, a k * b k`. -/
def dot (n : Nat) (a b : Nat → R) : R := ∑ k ∈ range n, a k * b k

theorem dot_pieces (n : Nat) {size : Nat} (h : 0 < size) (a b : Nat → R) :
    ∑ i ∈ range (pieces n size), dot (pieceLen n size i) (fun j => a (i * size + j)) (fun j => b (i * size + j)) =
      dot n a b :=
  sum_pieces (fun k => a k * b k) n h

theorem dot_congr {n : Nat} {a a' b b' : Nat → R} (ha : ∀ k, k < n → a k = a' k) (hb : ∀ k, k < n → b k = b' k) :
    dot n a b = dot n a' b' :=
  sum_congr rfl fun k hk => by rw [ha k (mem_range.mp hk), hb k (mem_range.mp hk)]

/-- Entries past the end that are zero on one side do not count. -/
theorem dot_pad {n n' : Nat} (h : n ≤ n') {a b : Nat → R} (hb : ∀ k, n ≤ k → k < n' → b k = 0) :
    dot n' a b = dot n a b := by
  obtain ⟨d, rfl⟩ := Nat.exists_eq_add_of_le h
  have htail : ∑ k ∈ range d, a (n + k) * b (n + k) = 0 := sum_eq_zero fun k hk => by
    rw [hb (n + k) (Nat.le_add_right n k) (Nat.add_lt_add_left (mem_range.mp hk) n), mul_zero]
  rw [dot, sum_range_add, htail, add_zero, dot]

/-- Entry `(m, n)` of the row-major product of `A` (rows of `K`) and `B` (rows of `N`). -/
def matmul (A B : Nat → R) (K N m n : Nat) : R := dot K (fun k => A (m * K + k)) fun k => B (k * N + n)

end

end OrkDriver.Lib
