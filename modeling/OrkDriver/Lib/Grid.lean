import Mathlib.Data.List.Nodup
import Mathlib.Data.List.Perm.Subperm
import Mathlib.Data.List.ProdSigma
import Mathlib.Data.List.Range
import OrkDriver.Lib.Cut

/-!
Lists with one entry for each cell of a grid, and counted loops.
-/

namespace OrkDriver.Lib

variable {α : Type*}

/-! ### Grids -/

section

variable {a b : Nat} {f f' : Nat → Nat → α} {l : List α}

/-- The entries of a grid, row by row. -/
def grid (a b : Nat) (f : Nat → Nat → α) : List α := (List.range a ×ˢ List.range b).map fun p => f p.1 p.2

theorem mem_pairs {i j : Nat} : (i, j) ∈ List.range a ×ˢ List.range b ↔ i < a ∧ j < b :=
  List.pair_mem_product.trans (and_congr List.mem_range List.mem_range)

theorem length_grid : (grid a b f).length = a * b := by
  simp [grid, List.length_product]

theorem grid_congr (h : ∀ i j, i < a → j < b → f i j = f' i j) : grid a b f = grid a b f' := by
  refine List.map_congr_left ?_
  rintro ⟨i, j⟩ hp
  exact h i j (mem_pairs.mp hp).1 (mem_pairs.mp hp).2

theorem nodup_grid (h : ∀ i j i' j', i < a → j < b → i' < a → j' < b → f i j = f i' j' → i = i' ∧ j = j') :
    (grid a b f).Nodup := by
  refine List.Nodup.map_on ?_ (List.nodup_range.product List.nodup_range)
  rintro ⟨i, j⟩ hp ⟨i', j'⟩ hp' heq
  obtain ⟨hi, hj⟩ := mem_pairs.mp hp
  obtain ⟨hi', hj'⟩ := mem_pairs.mp hp'
  obtain ⟨rfl, rfl⟩ := h i j i' j' hi hj hi' hj' heq
  rfl

/-- A list as long as the grid, with each of its entries, has no others. -/
theorem perm_grid (h : ∀ i j i' j', i < a → j < b → i' < a → j' < b → f i j = f i' j' → i = i' ∧ j = j')
    (hlen : l.length = a * b) (hmem : ∀ i j, i < a → j < b → f i j ∈ l) : l.Perm (grid a b f) := by
  have hsub : grid a b f ⊆ l := by
    intro x hx
    obtain ⟨⟨i, j⟩, hp, rfl⟩ := List.mem_map.mp hx
    exact hmem i j (mem_pairs.mp hp).1 (mem_pairs.mp hp).2
  exact (((nodup_grid h).subperm hsub).perm_of_length_le (by rw [hlen, length_grid])).symm

end

/-! ### Counted loops -/

/-- The turns of `for (x = lo; x < hi; x += step)`. -/
def upTo (lo hi step : Nat) : List Nat := (List.range (pieces (hi - lo) step)).map fun j => lo + j * step

section

variable {lo hi step : Nat}

theorem mem_upTo (hs : 0 < step) {x : Nat} : x ∈ upTo lo hi step ↔ ∃ j, x = lo + j * step ∧ x < hi := by
  simp only [upTo, List.mem_map, List.mem_range]
  constructor
  · rintro ⟨j, hj, rfl⟩
    have := (lt_pieces_iff hs).mp hj
    exact ⟨j, rfl, by omega⟩
  · rintro ⟨j, rfl, hlt⟩
    exact ⟨j, (lt_pieces_iff hs).mpr (by omega), rfl⟩

/-- A loop that starts at a multiple of its step meets every multiple in its range. -/
theorem mul_mem_upTo {q : Nat} (hs : 0 < step) (hlo : step ∣ lo) (h : lo ≤ q * step) (hlt : q * step < hi) :
    q * step ∈ upTo lo hi step := by
  obtain ⟨p, rfl⟩ := hlo
  refine (mem_upTo hs).mpr ⟨q - p, ?_, hlt⟩
  rw [Nat.mul_comm] at h
  rw [Nat.sub_mul, Nat.mul_comm step p]
  omega

theorem mem_upTo_one {x : Nat} : x ∈ upTo lo hi 1 ↔ lo ≤ x ∧ x < hi := by
  rw [mem_upTo Nat.one_pos]
  constructor
  · rintro ⟨j, rfl, hlt⟩
    exact ⟨Nat.le_add_right _ _, hlt⟩
  · rintro ⟨hle, hlt⟩
    exact ⟨x - lo, by omega, hlt⟩

theorem length_upTo : (upTo lo hi step).length = pieces (hi - lo) step := by
  simp [upTo]

theorem length_upTo_mul (hd : step ∣ hi - lo) : (upTo lo hi step).length * step = hi - lo := by
  obtain ⟨q, hq⟩ := hd
  rw [length_upTo, hq, pieces]
  rcases Nat.eq_zero_or_pos step with rfl | hs
  · simp
  · rw [Nat.add_sub_assoc hs, Nat.mul_add_div hs, Nat.div_eq_of_lt (by omega), Nat.add_zero, Nat.mul_comm]

end

end OrkDriver.Lib
