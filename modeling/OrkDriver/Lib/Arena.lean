import Mathlib.Data.List.Nodup
import Mathlib.Logic.Function.Basic

/-!
Objects behind handles: allocation hands out a handle never used before, and freeing an object that is not
live is recorded.
-/

/-- The live objects by handle. Handles from `next` on are unused. -/
structure Arena (α : Type*) where
  cell : Nat → Option α
  next : Nat
  doubleFree : Bool
  fresh : ∀ h, next ≤ h → cell h = none

namespace Arena

variable {α : Type*}

def empty : Arena α where
  cell _ := none
  next := 0
  doubleFree := false
  fresh _ _ := rfl

/-- `a` becomes the object behind handle `A.next`. -/
def alloc (A : Arena α) (a : α) : Arena α where
  cell := Function.update A.cell A.next (some a)
  next := A.next + 1
  doubleFree := A.doubleFree
  fresh h hh := by
    rw [Function.update_of_ne (by omega)]
    exact A.fresh h (by omega)

def free (A : Arena α) (h : Nat) : Arena α where
  cell := Function.update A.cell h none
  next := A.next
  doubleFree := A.doubleFree || (A.cell h).isNone
  fresh k hk := by
    by_cases hkh : k = h
    · rw [hkh, Function.update_self]
    · rw [Function.update_of_ne hkh]
      exact A.fresh k hk

def freeAll (A : Arena α) (hs : List Nat) : Arena α := hs.foldl free A

variable (A : Arena α) (a : α) (h : Nat)

theorem lt_next {A : Arena α} {h : Nat} {a : α} (hh : A.cell h = some a) : h < A.next := by
  by_contra hle
  rw [A.fresh h (by omega)] at hh
  cases hh

@[simp] theorem alloc_next : (A.alloc a).next = A.next + 1 := rfl
@[simp] theorem alloc_doubleFree : (A.alloc a).doubleFree = A.doubleFree := rfl
@[simp] theorem alloc_cell_self : (A.alloc a).cell A.next = some a := Function.update_self ..

theorem alloc_cell_of_lt {A : Arena α} {h : Nat} (hh : h < A.next) (a : α) : (A.alloc a).cell h = A.cell h :=
  Function.update_of_ne (by omega) _ _

/-- A live object stays where it is. -/
theorem alloc_cell_of_some {A : Arena α} {h : Nat} {b : α} (hh : A.cell h = some b) (a : α) :
    (A.alloc a).cell h = some b := by
  rw [alloc_cell_of_lt (lt_next hh), hh]

@[simp] theorem free_next : (A.free h).next = A.next := rfl

theorem free_cell_of_ne {h k : Nat} (hk : k ≠ h) : (A.free h).cell k = A.cell k := Function.update_of_ne hk _ _

/-- What is live after a free was live before, behind another handle. -/
theorem free_cell_eq_some {A : Arena α} {h k : Nat} {b : α} :
    (A.free h).cell k = some b ↔ k ≠ h ∧ A.cell k = some b := by
  by_cases hk : k = h
  · simp [free, hk]
  · simp [A.free_cell_of_ne hk, hk]

theorem free_doubleFree {A : Arena α} {h : Nat} (hlive : A.cell h ≠ none) : (A.free h).doubleFree = A.doubleFree := by
  cases hh : A.cell h with
  | none => exact absurd hh hlive
  | some a => simp [free, hh]

theorem freeAll_cell (hs : List Nat) (k : Nat) :
    (A.freeAll hs).cell k = if k ∈ hs then none else A.cell k := by
  induction hs generalizing A with
  | nil => simp [freeAll]
  | cons h hs ih =>
      have hfold : A.freeAll (h :: hs) = (A.free h).freeAll hs := rfl
      rw [hfold, ih]
      by_cases hk : k = h
      · simp [hk, free]
      · simp [hk, A.free_cell_of_ne hk]

/-- Freeing live objects, each once, is no double free. -/
theorem freeAll_doubleFree {A : Arena α} {hs : List Nat} (hnd : hs.Nodup) (hlive : ∀ h ∈ hs, A.cell h ≠ none) :
    (A.freeAll hs).doubleFree = A.doubleFree := by
  induction hs generalizing A with
  | nil => rfl
  | cons h hs ih =>
      obtain ⟨hh, hnd⟩ := List.nodup_cons.mp hnd
      have hrest : ∀ k ∈ hs, (A.free h).cell k ≠ none := by
        intro k hk
        have hne : k ≠ h := ne_of_mem_of_not_mem hk hh
        rw [A.free_cell_of_ne hne]
        exact hlive k (List.mem_cons_of_mem h hk)
      calc (A.freeAll (h :: hs)).doubleFree
        _ = (A.free h).doubleFree := ih hnd hrest
        _ = A.doubleFree := free_doubleFree (hlive h List.mem_cons_self)

end Arena
