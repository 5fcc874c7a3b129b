import Mathlib.Tactic.Ring

/-!
A walk up to `hi` in steps that its position decides: the pieces it cuts, end to end.
-/

namespace OrkDriver.Lib

/-- The pieces `(cur, next cur)` of a walk, at most `fuel` of them. -/
def walk (next : Nat → Nat) (hi : Nat) : Nat → Nat → List (Nat × Nat)
  | 0, _ => []
  | fuel + 1, cur => if cur < hi then (cur, next cur) :: walk next hi fuel (next cur) else []

/-- From the places `P` every step goes at least `d` further, stays inside, and ends at such a place. -/
def Steps (P : Nat → Prop) (next : Nat → Nat) (hi d : Nat) : Prop :=
  ∀ x, P x → x < hi → x + d ≤ next x ∧ next x ≤ hi ∧ P (next x)

variable {P : Nat → Prop} {next : Nat → Nat} {hi d fuel cur : Nat}

theorem walk_of_le (h : hi ≤ cur) : walk next hi fuel cur = [] := by
  cases fuel with
  | zero => rfl
  | succ fuel => exact if_neg (Nat.not_lt.mpr h)

theorem mem_walk (h : Steps P next hi d) (hcur : P cur) {p : Nat × Nat} (hp : p ∈ walk next hi fuel cur) :
    cur ≤ p.1 ∧ p.1 < hi ∧ p.1 + d ≤ p.2 ∧ p.2 ≤ hi ∧ p.2 = next p.1 ∧ P p.1 := by
  induction fuel generalizing cur with
  | zero => cases hp
  | succ fuel ih =>
      unfold walk at hp
      split at hp
      · next hlt =>
          obtain ⟨hd, hhi, hnext⟩ := h cur hcur hlt
          rcases List.mem_cons.mp hp with rfl | hp
          · exact ⟨Nat.le_refl _, hlt, hd, hhi, rfl, hcur⟩
          · obtain ⟨h1, h2⟩ := ih hnext hp
            exact ⟨le_trans (le_trans (Nat.le_add_right cur d) hd) h1, h2⟩
      · cases hp

/-- Two pieces are the same, or one ends before the other starts. -/
theorem walk_ordered (h : Steps P next hi d) (hcur : P cur) {p q : Nat × Nat} (hp : p ∈ walk next hi fuel cur)
    (hq : q ∈ walk next hi fuel cur) : p = q ∨ p.2 ≤ q.1 ∨ q.2 ≤ p.1 := by
  induction fuel generalizing cur with
  | zero => cases hp
  | succ fuel ih =>
      unfold walk at hp hq
      split at hp
      · next hlt =>
          rw [if_pos hlt] at hq
          have hnext := (h cur hcur hlt).2.2
          rcases List.mem_cons.mp hp with rfl | hp
          · rcases List.mem_cons.mp hq with rfl | hq
            · exact .inl rfl
            · exact .inr (.inl (mem_walk h hnext hq).1)
          · rcases List.mem_cons.mp hq with rfl | hq
            · exact .inr (.inr (mem_walk h hnext hp).1)
            · exact ih hnext hp hq
      · cases hp

/-- With fuel for `hi - cur` in steps of `d`, the walk reaches every point. -/
theorem exists_mem_walk (h : Steps P next hi d) (hcur : P cur) (hfuel : hi ≤ cur + fuel * d) {x : Nat} (hle : cur ≤ x)
    (hx : x < hi) : ∃ p ∈ walk next hi fuel cur, p.1 ≤ x ∧ x < p.2 := by
  induction fuel generalizing cur with
  | zero => omega
  | succ fuel ih =>
      have hlt : cur < hi := lt_of_le_of_lt hle hx
      obtain ⟨hd, -, hnext⟩ := h cur hcur hlt
      rw [walk, if_pos hlt]
      rcases Nat.lt_or_ge x (next cur) with hin | hout
      · exact ⟨_, List.mem_cons_self, hle, hin⟩
      · rw [Nat.succ_mul] at hfuel
        obtain ⟨p, hp, hmem⟩ := ih hnext (by omega) hout
        exact ⟨p, List.mem_cons_of_mem _ hp, hmem⟩

/-- More fuel than suffices makes no difference. -/
theorem walk_fuel (h : Steps P next hi d) (hcur : P cur) (hfuel : hi ≤ cur + fuel * d) {fuel' : Nat}
    (hle : fuel ≤ fuel') : walk next hi fuel' cur = walk next hi fuel cur := by
  induction fuel generalizing cur fuel' with
  | zero =>
      have hend : hi ≤ cur := by omega
      rw [walk_of_le hend, walk_of_le hend]
  | succ fuel ih =>
      obtain ⟨fuel', rfl⟩ := Nat.exists_eq_succ_of_ne_zero (Nat.ne_of_gt (Nat.lt_of_lt_of_le (Nat.succ_pos fuel) hle))
      unfold walk
      by_cases hlt : cur < hi
      · obtain ⟨hd, -, hnext⟩ := h cur hcur hlt
        rw [Nat.succ_mul] at hfuel
        rw [if_pos hlt, if_pos hlt, ih hnext (by omega) (Nat.le_of_succ_le_succ hle)]
      · rw [if_neg hlt, if_neg hlt]

/-- A walk of one piece ends where it should. -/
theorem walk_single (h : Steps P next hi d) (hcur : P cur) (hfuel : hi ≤ cur + fuel * d) (hlt : cur < hi)
    (hlen : (walk next hi fuel cur).length ≤ 1) : walk next hi fuel cur = [(cur, hi)] := by
  cases fuel with
  | zero => omega
  | succ fuel =>
      obtain ⟨hd, hhi, hnext⟩ := h cur hcur hlt
      rw [walk, if_pos hlt] at hlen ⊢
      rw [List.length_cons] at hlen
      have hrest : walk next hi fuel (next cur) = [] := List.eq_nil_of_length_eq_zero (by omega)
      rcases Nat.lt_or_ge (next cur) hi with hmore | hend
      · rw [Nat.succ_mul] at hfuel
        obtain ⟨p, hp, -⟩ := exists_mem_walk h hnext (show hi ≤ next cur + fuel * d by omega) (Nat.le_refl _) hmore
        rw [hrest] at hp
        cases hp
      · rw [hrest, Nat.le_antisymm hhi hend]

end OrkDriver.Lib
