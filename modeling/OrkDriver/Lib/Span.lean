import Mathlib.Algebra.Ring.Nat
import Mathlib.Order.Interval.Set.Basic
import Mathlib.Data.List.Count

/-!
A list of half-open intervals laid end to end, and how often it covers a point.
-/

namespace OrkDriver.Lib

/-- `l` runs from `a` to `b`, each interval starting where the last one ended. -/
inductive Span {α : Type*} : α → List (α × α) → α → Prop
  | nil (a : α) : Span a [] a
  | cons {a b c : α} {l : List (α × α)} : Span b l c → Span a ((a, b) :: l) c

namespace Span

variable {α : Type*} {a b c : α} {l m : List (α × α)}

theorem append (h : Span a l b) (h' : Span b m c) : Span a (l ++ m) c := by
  induction h with
  | nil a => exact h'
  | cons _ ih => exact .cons (ih h')

theorem snoc (h : Span a l b) (c : α) : Span a (l ++ [(b, c)]) c := h.append (.cons (.nil c))

theorem le {a b : Nat} {l : List (Nat × Nat)} (h : Span a l b) (hl : ∀ p ∈ l, p.1 ≤ p.2) : a ≤ b := by
  induction h with
  | nil a => exact Nat.le_refl a
  | cons _ ih => exact Nat.le_trans (hl _ List.mem_cons_self) (ih fun p hp => hl p (List.mem_cons_of_mem _ hp))

theorem bounds {a b : Nat} {l : List (Nat × Nat)} (h : Span a l b) (hl : ∀ p ∈ l, p.1 ≤ p.2) : ∀ p ∈ l, a ≤ p.1 ∧ p.2 ≤ b := by
  induction h with
  | nil a => exact fun p hp => absurd hp List.not_mem_nil
  | cons hspan ih =>
      have hl' := fun p hp => hl p (List.mem_cons_of_mem _ hp)
      intro p hp
      rcases List.mem_cons.mp hp with rfl | hp
      · exact ⟨Nat.le_refl _, hspan.le hl'⟩
      · obtain ⟨hlo, hhi⟩ := ih hl' p hp
        exact ⟨Nat.le_trans (hl _ List.mem_cons_self) hlo, hhi⟩

/-- Laid end to end, what comes later starts where what came before has ended. -/
theorem pairwise {a b : Nat} {l : List (Nat × Nat)} (h : Span a l b) (hl : ∀ p ∈ l, p.1 ≤ p.2) : l.Pairwise fun p q => p.2 ≤ q.1 := by
  induction h with
  | nil a => exact List.Pairwise.nil
  | cons hspan ih =>
      have hl' := fun p hp => hl p (List.mem_cons_of_mem _ hp)
      exact List.Pairwise.cons (fun q hq => (hspan.bounds hl' q hq).1) (ih hl')

theorem sum {a b : Nat} {l : List (Nat × Nat)} (h : Span a l b) (hl : ∀ p ∈ l, p.1 ≤ p.2) : b = a + (l.map fun p => p.2 - p.1).sum := by
  induction h with
  | nil a => rfl
  | cons hspan ih =>
      have hstep := ih fun p hp => hl p (List.mem_cons_of_mem _ hp)
      have hle := hl _ List.mem_cons_self
      rw [List.map_cons, List.sum_cons]
      dsimp only at hle ⊢
      omega

end Span

/-- The stretches between successive places make up the whole. -/
theorem flatMap_range' {f : Nat → Nat} (h0 : f 0 = 0) {k : Nat} (hf : ∀ i < k, f i ≤ f (i + 1)) :
    ((List.range k).flatMap fun i => List.range' (f i) (f (i + 1) - f i)) = List.range (f k) := by
  induction k with
  | zero =>
      rw [h0]
      rfl
  | succ k ih =>
      have hstep := hf k (Nat.lt_succ_self k)
      rw [List.range_succ, List.flatMap_append, ih fun i hi => hf i (Nat.lt_succ_of_lt hi), List.flatMap_singleton]
      have happ : List.range' 0 (f k) 1 ++ List.range' (0 + 1 * f k) (f (k + 1) - f k) 1 = _ := List.range'_append
      rw [Nat.zero_add, Nat.one_mul, ← List.range_eq_range', Nat.add_sub_cancel' hstep, ← List.range_eq_range'] at happ
      exact happ

variable {α : Type*} [LinearOrder α]

/-- How many intervals of `l` hold `r`. -/
def hits (l : List (α × α)) (r : α) : Nat := l.countP fun p => decide (p.1 ≤ r ∧ r < p.2)

theorem hits_append (l m : List (α × α)) (r : α) : hits (l ++ m) r = hits l r + hits m r := List.countP_append

theorem hits_singleton (a b r : α) : hits [(a, b)] r = if a ≤ r ∧ r < b then 1 else 0 := by
  simp only [hits, List.countP_singleton, decide_eq_true_eq]

/-- `l` partitions `[a, b)`: end to end, every point of it once and no other point. -/
structure Tiles (a : α) (l : List (α × α)) (b : α) : Prop where
  span : Span a l b
  once : ∀ r, hits l r = if a ≤ r ∧ r < b then 1 else 0

namespace Tiles

variable {a b c : α} {l : List (α × α)}

theorem nil (a : α) : Tiles a [] a where
  span := .nil a
  once r := by
    rw [if_neg fun h => lt_irrefl a (lt_of_le_of_lt h.1 h.2)]
    rfl

/-- One more interval. It may run backwards if it is the first one that moves; it covers nothing then. -/
theorem snoc (h : Tiles a l b) (hab : a ≤ b) (hbc : a < b → b ≤ c) : Tiles a (l ++ [(b, c)]) c where
  span := h.span.snoc c
  once r := by
    rw [hits_append, hits_singleton, h.once r]
    rcases hab.lt_or_eq with hlt | rfl
    · have hle := hbc hlt
      rcases lt_or_ge r b with hrb | hbr
      · have hrc : r < c := lt_of_lt_of_le hrb hle
        simp only [hrb, and_true, hrc, not_le.mpr hrb, if_false, Nat.add_zero]
      · have har : a ≤ r := hab.trans hbr
        simp only [not_lt.mpr hbr, and_false, if_false, hbr, true_and, har, Nat.zero_add]
    · rw [if_neg fun h => lt_irrefl a (lt_of_le_of_lt h.1 h.2), Nat.zero_add]

end Tiles

end OrkDriver.Lib
