import Mathlib.Tactic.TypeStar

/-!
A pool of resources handed out one by one: a mark says that a resource is taken, and a holder has it.
-/

namespace Lease

variable {ι ι' κ : Type*}

/-- The marked resources are the held ones, and each has one holder. -/
structure Exact (holds : ι → κ → Prop) (marked : κ → Prop) : Prop where
  marked_iff : ∀ k, marked k ↔ ∃ i, holds i k
  exclusive : ∀ i j k, holds i k → holds j k → i = j

namespace Exact

variable {holds : ι → κ → Prop} {holds' : ι' → κ → Prop} {marked marked' : κ → Prop}

theorem not_held (h : Exact holds marked) {k : κ} (hk : ¬ marked k) (i : ι) : ¬ holds i k := fun hi =>
  hk ((h.marked_iff k).mpr ⟨i, hi⟩)

theorem existsUnique (h : Exact holds marked) {k : κ} (hk : marked k) : ∃ i, holds i k ∧ ∀ j, holds j k → j = i := by
  obtain ⟨i, hi⟩ := (h.marked_iff k).mp hk
  exact ⟨i, hi, fun j hj => h.exclusive j i k hj hi⟩

theorem congr (h : Exact holds marked) {holds' : ι → κ → Prop} (hh : ∀ i k, holds' i k ↔ holds i k)
    (hm : ∀ k, marked' k ↔ marked k) : Exact holds' marked' := by
  constructor
  · intro k
    simp only [hm, hh, h.marked_iff]
  · intro i j k hi hj
    exact h.exclusive i j k ((hh i k).mp hi) ((hh j k).mp hj)

/-- An unmarked resource is marked and given to `i`. -/
theorem grant (h : Exact holds marked) {holds' : ι → κ → Prop} {i : ι} {k : κ} (hk : ¬ marked k)
    (hh : ∀ j l, holds' j l ↔ holds j l ∨ j = i ∧ l = k) (hm : ∀ l, marked' l ↔ marked l ∨ l = k) :
    Exact holds' marked' := by
  constructor
  · intro l
    rw [hm, h.marked_iff]
    constructor
    · rintro (⟨j, hj⟩ | rfl)
      · exact ⟨j, (hh j l).mpr (.inl hj)⟩
      · exact ⟨i, (hh i l).mpr (.inr ⟨rfl, rfl⟩)⟩
    · rintro ⟨j, hj⟩
      rcases (hh j l).mp hj with hj | ⟨-, rfl⟩
      · exact .inl ⟨j, hj⟩
      · exact .inr rfl
  · intro j j' l hj hj'
    rcases (hh j l).mp hj with hj | ⟨rfl, rfl⟩ <;> rcases (hh j' l).mp hj' with hj' | ⟨rfl, hl⟩
    · exact h.exclusive j j' l hj hj'
    · rw [hl] at hj
      exact absurd hj (h.not_held hk j)
    · exact absurd hj' (h.not_held hk j')
    · rfl

/-- The holder `i` gives `k` back. -/
theorem giveBack (h : Exact holds marked) {holds' : ι → κ → Prop} {i : ι} {k : κ} (hk : holds i k)
    (hh : ∀ j l, holds' j l ↔ holds j l ∧ ¬ (j = i ∧ l = k)) (hm : ∀ l, marked' l ↔ marked l ∧ l ≠ k) :
    Exact holds' marked' := by
  constructor
  · intro l
    rw [hm, h.marked_iff]
    constructor
    · rintro ⟨⟨j, hj⟩, hl⟩
      exact ⟨j, (hh j l).mpr ⟨hj, fun hjl => hl hjl.2⟩⟩
    · rintro ⟨j, hj⟩
      obtain ⟨hj, hne⟩ := (hh j l).mp hj
      refine ⟨⟨j, hj⟩, ?_⟩
      rintro rfl
      exact hne ⟨h.exclusive j i l hj hk, rfl⟩
  · intro j j' l hj hj'
    exact h.exclusive j j' l ((hh j l).mp hj).1 ((hh j' l).mp hj').1

/-- The holder `i` leaves with everything it holds; `f` names the holders that stay. -/
theorem leave (h : Exact holds marked) {i : ι} {stays : ι' → Prop} {f : ι' → ι} (hne : ∀ j, stays j → f j ≠ i)
    (hinj : ∀ j j', stays j → stays j' → f j = f j' → j = j')
    (hsurj : ∀ j k, holds j k → j ≠ i → ∃ j', stays j' ∧ f j' = j)
    (hh : ∀ j k, holds' j k ↔ stays j ∧ holds (f j) k) (hm : ∀ k, marked' k ↔ marked k ∧ ¬ holds i k) :
    Exact holds' marked' := by
  constructor
  · intro k
    rw [hm, h.marked_iff]
    constructor
    · rintro ⟨⟨j, hj⟩, hi⟩
      obtain ⟨j', hj', rfl⟩ := hsurj j k hj fun hji => hi (hji ▸ hj)
      exact ⟨j', (hh j' k).mpr ⟨hj', hj⟩⟩
    · rintro ⟨j, hj⟩
      obtain ⟨hs, hj⟩ := (hh j k).mp hj
      exact ⟨⟨f j, hj⟩, fun hi => hne j hs (h.exclusive _ _ k hj hi)⟩
  · intro j j' k hj hj'
    obtain ⟨hs, hj⟩ := (hh j k).mp hj
    obtain ⟨hs', hj'⟩ := (hh j' k).mp hj'
    exact hinj j j' hs hs' (h.exclusive _ _ k hj hj')

end Exact

end Lease
