import Mathlib.Tactic.IntervalCases

/-!
Vectors by their lanes, whatever a lane is: the NEON moves that exchange lanes and never look into them.
-/

namespace OrkDriver.Lib

/-- A register, or a memory. -/
abbrev Lanes (α : Type*) := Nat → α

namespace Lanes

variable {α : Type*}

/-- `vld1q`. -/
def load (m : Lanes α) (p : Nat) : Lanes α := fun i => m (p + i)

/-- `vtrnq`: the even lanes of the two side by side, and the odd ones. -/
def trn (x y : Lanes α) : Lanes α × Lanes α :=
  (fun i => if i % 2 = 0 then x i else y (i - 1), fun i => if i % 2 = 0 then x (i + 1) else y i)

/-- A register seen in lanes of twice the width, the lower half first. -/
def widen (x : Lanes α) : Lanes (α × α) := fun i => (x (2 * i), x (2 * i + 1))

/-- A register seen in lanes of half the width. -/
def narrow (x : Lanes (α × α)) : Lanes α := fun i => if i % 2 = 0 then (x (i / 2)).1 else (x (i / 2)).2

/-- `vcombine` of halves of `n` lanes. -/
def combine (n : Nat) (x y : Lanes α) : Lanes α := fun i => if i < n then x i else y (i - n)

/-- `vget_low`. -/
def low (x : Lanes α) : Lanes α := x

/-- `vget_high` of halves of `n` lanes. -/
def high (n : Nat) (x : Lanes α) : Lanes α := fun i => x (n + i)

/-- `vst1q` of `n` lanes. -/
def store (n p : Nat) (x : Lanes α) : List (Nat × α) := (List.range n).map fun i => (p + i, x i)

end Lanes

end OrkDriver.Lib
