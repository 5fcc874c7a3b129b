import Mathlib.Logic.Function.Basic
import Mathlib.Data.List.Induction

/-!
A memory under a list of stores, made in list order.
-/

namespace OrkDriver.Lib

variable {α : Type*}

/-- `m` after the stores of `l`. -/
def stores (m : Nat → α) (l : List (Nat × α)) : Nat → α := l.foldl (fun m w => Function.update m w.1 w.2) m

namespace stores

variable {m : Nat → α} {l : List (Nat × α)} {p : Nat} {x : α}

theorem append (m : Nat → α) (l k : List (Nat × α)) : stores m (l ++ k) = stores (stores m l) k := List.foldl_append

theorem of_forall_ne (h : ∀ w ∈ l, w.1 ≠ p) : stores m l p = m p := by
  induction l generalizing m with
  | nil => rfl
  | cons w l ih =>
      have hw : stores (Function.update m w.1 w.2) l p = Function.update m w.1 w.2 p :=
        ih fun v hv => h v (List.mem_cons_of_mem _ hv)
      exact hw.trans (Function.update_of_ne (h w List.mem_cons_self).symm _ _)

/-- A cell depends on what it held before, and on no other. -/
theorem congr {m' : Nat → α} (h : m p = m' p) : stores m l p = stores m' l p := by
  induction l generalizing m m' with
  | nil => exact h
  | cons w l ih =>
      refine @ih (Function.update m w.1 w.2) (Function.update m' w.1 w.2) ?_
      by_cases hp : p = w.1
      · subst hp
        rw [Function.update_self, Function.update_self]
      · rw [Function.update_of_ne hp, Function.update_of_ne hp, h]

/-- A cell that is stored to, always the same value, holds that value. -/
theorem of_mem (hmem : ∃ w ∈ l, w.1 = p) (hall : ∀ w ∈ l, w.1 = p → w.2 = x) : stores m l p = x := by
  induction l using List.reverseRecOn with
  | nil =>
      obtain ⟨w, hw, -⟩ := hmem
      cases hw
  | append_singleton l w ih =>
      rw [append]
      by_cases hp : w.1 = p
      · subst hp
        exact (Function.update_self _ _ _).trans (hall w (List.mem_append_right _ List.mem_cons_self) rfl)
      · have hlast : stores (stores m l) [w] p = stores m l p := Function.update_of_ne (Ne.symm hp) _ _
        rw [hlast]
        refine ih ?_ fun v hv => hall v (List.mem_append_left _ hv)
        obtain ⟨v, hv, hvp⟩ := hmem
        rcases List.mem_append.mp hv with hv | hv
        · exact ⟨v, hv, hvp⟩
        · obtain rfl := List.mem_singleton.mp hv
          exact absurd hvp hp

/-- The order of stores that agree with each other does not matter. -/
theorem perm {k : List (Nat × α)} (m : Nat → α) (h : l.Perm k) (hagree : ∀ w ∈ l, ∀ v ∈ l, v.1 = w.1 → v.2 = w.2) :
    stores m l = stores m k := by
  funext p
  by_cases hp : ∃ w ∈ l, w.1 = p
  · obtain ⟨w, hw, rfl⟩ := hp
    have hl : stores m l w.1 = w.2 := of_mem ⟨w, hw, rfl⟩ fun v hv heq => hagree w hw v hv heq
    have hk : stores m k w.1 = w.2 :=
      of_mem ⟨w, h.mem_iff.mp hw, rfl⟩ fun v hv heq => hagree w hw v (h.mem_iff.mpr hv) heq
    rw [hl, hk]
  · have hne : ∀ w ∈ l, w.1 ≠ p := fun w hw heq => hp ⟨w, hw, heq⟩
    rw [of_forall_ne hne, of_forall_ne fun w hw => hne w (h.mem_iff.mpr hw)]

end stores

end OrkDriver.Lib
