import Mathlib.Data.List.Perm.Basic
import Mathlib.Data.List.Nodup

/-!
Removal from an unordered table by moving its last entry into the hole.
-/

namespace List

variable {α : Type*}

/-- `l[i] = l[--n]` at the first entry that satisfies `p`. -/
def swapRemove (p : α → Bool) (l : List α) : List α :=
  match l.findIdx? p, l.getLast? with
  | some i, some last => (l.set i last).dropLast
  | _, _ => l

theorem set_last_dropLast_perm {l : List α} {i : Nat} {last : α} (hi : i < l.length)
    (hlast : l.getLast? = some last) : ((l.set i last).dropLast).Perm (l.eraseIdx i) := by
  induction l generalizing i with
  | nil => simp at hi
  | cons a l ih =>
      by_cases hl : l = []
      · subst hl
        have hi0 : i = 0 := by simpa using hi
        simp [hi0]
      · have hlast' : l.getLast? = some last := by rwa [getLast?_cons_of_ne_nil hl] at hlast
        cases i with
        | zero =>
            have hconcat : l.dropLast ++ [last] = l := by
              rw [getLast?_eq_some_getLast hl, Option.some.injEq] at hlast'
              rw [← hlast', dropLast_append_getLast]
            rw [set_cons_zero, dropLast_cons_of_ne_nil hl, eraseIdx_cons_zero]
            calc last :: l.dropLast
              _ ~ l.dropLast ++ [last] := (perm_append_singleton last l.dropLast).symm
              _ ~ l := by rw [hconcat]
        | succ i =>
            have hi' : i < l.length := by simpa using hi
            have hne : l.set i last ≠ [] := by
              intro h
              rw [← length_eq_zero_iff, length_set] at h
              omega
            rw [set_cons_succ, dropLast_cons_of_ne_nil hne, eraseIdx_cons_succ]
            exact (ih hi' hlast').cons a

/-- Up to order, the first entry that satisfies `p` is gone and nothing else. -/
theorem swapRemove_perm_eraseP (p : α → Bool) (l : List α) : (l.swapRemove p).Perm (l.eraseP p) := by
  rw [eraseP_eq_eraseIdx, swapRemove]
  cases h : l.findIdx? p with
  | none => rfl
  | some i =>
      have hi : i < l.length := (findIdx?_eq_some_iff_findIdx_eq.mp h).1
      have hl : l ≠ [] := by rintro rfl; simp at hi
      rw [getLast?_eq_some_getLast hl]
      exact set_last_dropLast_perm hi (getLast?_eq_some_getLast hl)

theorem mem_of_mem_swapRemove {p : α → Bool} {l : List α} {a : α} (h : a ∈ l.swapRemove p) : a ∈ l :=
  mem_of_mem_eraseP ((swapRemove_perm_eraseP p l).mem_iff.mp h)

theorem mem_swapRemove_of_neg {p : α → Bool} {l : List α} {a : α} (ha : ¬ p a) :
    a ∈ l.swapRemove p ↔ a ∈ l := by
  rw [(swapRemove_perm_eraseP p l).mem_iff, mem_eraseP_of_neg ha]

/-- Entries other than the last stay where they are. -/
theorem getElem?_swapRemove {p : α → Bool} {l : List α} {k : Nat} {a : α} (hk : k + 1 < l.length) (h : l[k]? = some a)
    (ha : ¬ p a) : (l.swapRemove p)[k]? = some a := by
  unfold swapRemove
  cases hi : l.findIdx? p with
  | none => exact h
  | some i =>
      have hpi := findIdx?_eq_some_iff_getElem.mp hi
      have hne : i ≠ k := by
        rintro rfl
        obtain ⟨hlt, hp, -⟩ := hpi
        rw [getElem?_eq_getElem hlt, Option.some.injEq] at h
        exact ha (h ▸ hp)
      have hl : l ≠ [] := ne_nil_of_length_pos (by omega)
      rw [getLast?_eq_some_getLast hl]
      dsimp only
      rw [getElem?_dropLast, length_set, if_pos (by omega), getElem?_set_ne hne, h]

/-- Keys without repetition stay so. -/
theorem Nodup.map_swapRemove {β : Type*} {f : α → β} {l : List α} (h : (l.map f).Nodup) (p : α → Bool) :
    ((l.swapRemove p).map f).Nodup :=
  ((swapRemove_perm_eraseP p l).map f).nodup_iff.mpr (h.sublist (eraseP_sublist.map f))

/-- Under distinct keys, removing by key removes every entry with that key. -/
theorem mem_swapRemove_key {β : Type*} [DecidableEq β] {f : α → β} {l : List α} (h : (l.map f).Nodup) (k : β)
    {a : α} : a ∈ l.swapRemove (fun x => f x == k) ↔ a ∈ l ∧ f a ≠ k := by
  rw [(swapRemove_perm_eraseP _ l).mem_iff]
  induction l with
  | nil => simp
  | cons b l ih =>
      obtain ⟨hb, hl⟩ := nodup_cons.mp h
      by_cases hbk : f b = k
      · subst hbk
        rw [eraseP_cons_of_pos (by simp), mem_cons]
        constructor
        · intro ha
          exact ⟨.inr ha, fun hab => hb (hab ▸ mem_map_of_mem ha)⟩
        · rintro ⟨rfl | ha, hne⟩
          · exact absurd rfl hne
          · exact ha
      · rw [eraseP_cons_of_neg (by simpa using hbk), mem_cons, mem_cons, ih hl]
        constructor
        · rintro (rfl | ⟨ha, hne⟩)
          · exact ⟨.inl rfl, hbk⟩
          · exact ⟨.inr ha, hne⟩
        · rintro ⟨rfl | ha, hne⟩
          · exact .inl rfl
          · exact .inr ⟨ha, hne⟩

end List
