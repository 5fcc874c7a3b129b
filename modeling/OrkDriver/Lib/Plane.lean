import OrkDriver.Lib.Block

/-!
Blocks of one height that lie in one array, each behind the other.
-/

namespace OrkDriver.Lib

variable {α : Type*}

/-- Block `t` has `M` rows of `w t` elements and starts at `off t`. -/
def plane (n : Nat) (off w : Nat → Nat) (M : Nat) (v : Nat → Nat → Nat → α) : List (Nat × α) :=
  (List.range n).flatMap fun t => block (off t) (w t) M (w t) (v t)

variable {n M : Nat} {off w : Nat → Nat} {v : Nat → Nat → Nat → α}

theorem plane_le (hoff : ∀ t, off t + M * w t ≤ off (t + 1)) {s t : Nat} (h : s < t) : off s + M * w s ≤ off t := by
  induction t, h using Nat.le_induction with
  | base => exact hoff s
  | succ t _ ih =>
    have := hoff t
    omega

/-- Every element of every block is where its block has it. -/
theorem stores_plane (hoff : ∀ t, off t + M * w t ≤ off (t + 1)) (f : Nat → α) {t m j : Nat} (ht : t < n) (hm : m < M)
    (hj : j < w t) : stores f (plane n off w M v) (off t + (m * w t + j)) = v t m j := by
  apply stores.of_mem
  · refine ⟨_, List.mem_flatMap.mpr ⟨t, List.mem_range.mpr ht, mem_block.mpr ⟨m, j, hm, hj, rfl⟩⟩, ?_⟩
    exact Nat.add_assoc _ _ _
  · intro x hx haddr
    obtain ⟨s, -, hx⟩ := List.mem_flatMap.mp hx
    obtain ⟨m', j', hm', hj', rfl⟩ := mem_block.mp hx
    have hin := digits_lt hm hj
    have hin' := digits_lt hm' hj'
    dsimp only at haddr ⊢
    rcases Nat.lt_trichotomy s t with hlt | rfl | hlt
    · have := plane_le hoff hlt
      omega
    · obtain ⟨rfl, rfl⟩ := digits_inj hj' hj (show m' * w s + j' = m * w s + j by omega)
      rfl
    · have := plane_le hoff hlt
      omega

end OrkDriver.Lib
