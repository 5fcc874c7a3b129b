import OrkDriver.Lib.Cut
import OrkDriver.Lib.Stores

/-!
Rectangles in a row-major memory.
-/

namespace OrkDriver.Lib

variable {α : Type*}

/-- The stores of `rows` rows of `cols` cells from `base` on, the rows `stride` apart. -/
def block (base stride rows cols : Nat) (v : Nat → Nat → α) : List (Nat × α) :=
  (List.range rows).flatMap fun r => (List.range cols).map fun n => (base + r * stride + n, v r n)

variable {base stride rows cols : Nat} {v : Nat → Nat → α}

theorem mem_block {w : Nat × α} :
    w ∈ block base stride rows cols v ↔ ∃ r n, r < rows ∧ n < cols ∧ w = (base + r * stride + n, v r n) := by
  simp only [block, List.mem_flatMap, List.mem_map, List.mem_range]
  constructor
  · rintro ⟨r, hr, n, hn, rfl⟩
    exact ⟨r, n, hr, hn, rfl⟩
  · rintro ⟨r, n, hr, hn, rfl⟩
    exact ⟨r, hr, n, hn, rfl⟩

theorem stores_block (h : cols ≤ stride) (f : Nat → α) {r n : Nat} (hr : r < rows) (hn : n < cols) :
    stores f (block base stride rows cols v) (base + r * stride + n) = v r n := by
  refine stores.of_mem ⟨_, mem_block.mpr ⟨r, n, hr, hn, rfl⟩, rfl⟩ fun w hw hidx => ?_
  obtain ⟨r', n', -, hn', rfl⟩ := mem_block.mp hw
  rw [Nat.add_assoc, Nat.add_assoc] at hidx
  obtain ⟨rfl, rfl⟩ := digits_inj (lt_of_lt_of_le hn' h) (lt_of_lt_of_le hn h) (Nat.add_left_cancel hidx)
  rfl

theorem stores_block_frame (f : Nat → α) {x : Nat} (h : ∀ r n, r < rows → n < cols → base + r * stride + n ≠ x) :
    stores f (block base stride rows cols v) x = f x := by
  refine stores.of_forall_ne fun w hw => ?_
  obtain ⟨r, n, hr, hn, rfl⟩ := mem_block.mp hw
  exact h r n hr hn

/-- A rectangle stored into an array of rows of `N`, seen from a cell of the array. -/
theorem stores_block_cell {m0 n0 N m n : Nat} (h : n0 + cols ≤ N) (f : Nat → α) (hn : n < N) :
    stores f (block (m0 * N + n0) N rows cols v) (m * N + n) =
      if m0 ≤ m ∧ m < m0 + rows ∧ n0 ≤ n ∧ n < n0 + cols then v (m - m0) (n - n0) else f (m * N + n) := by
  have haddr : ∀ r j, m0 * N + n0 + r * N + j = (m0 + r) * N + (n0 + j) := fun r j => by
    rw [Nat.add_mul, Nat.add_assoc, Nat.add_assoc, Nat.add_assoc, Nat.add_left_comm n0]
  split
  · next hin =>
      obtain ⟨hm0, hm, hn0, hn'⟩ := hin
      have hcell : m * N + n = m0 * N + n0 + (m - m0) * N + (n - n0) := by
        rw [haddr, Nat.add_sub_cancel' hm0, Nat.add_sub_cancel' hn0]
      rw [hcell]
      exact stores_block (by omega) f (by omega) (by omega)
  · next hout =>
      refine stores_block_frame f fun r j hr hj hx => hout ?_
      rw [haddr] at hx
      obtain ⟨rfl, rfl⟩ := digits_inj (by omega) hn hx
      omega

end OrkDriver.Lib
