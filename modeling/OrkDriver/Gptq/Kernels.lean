import Mathlib.Algebra.Order.BigOperators.Group.Finset
import Mathlib.Algebra.Order.Field.Basic
import Mathlib.Algebra.BigOperators.Intervals
import OrkDriver.Lib.Loops

/-!
The linear algebra of the GPTQ quantiser (`gptq_kernels.inc`), in the arithmetic of a field.
-/

namespace OrkDriver.Gptq

open OrkDriver.Lib Finset

/-- A row-major array of rows. -/
abbrev Mat (α : Type*) := ℕ → ℕ → α

section

variable {α : Type*}

/-- `A[i*K + j] = x`. -/
def Mat.set (A : Mat α) (i j : ℕ) (x : α) : Mat α := Function.update A i (Function.update (A i) j x)

namespace Mat

variable (A : Mat α) {i j r c : ℕ} (x : α)

@[simp] theorem set_self (A : Mat α) (i j : ℕ) (x : α) : A.set i j x i j = x := by simp [set]

theorem set_of_row_ne (h : r ≠ i) : A.set i j x r = A r := by simp [set, h]

theorem set_of_col_ne (h : c ≠ j) : A.set i j x r c = A r c := by
  unfold set
  by_cases hr : r = i
  · subst hr
    rw [Function.update_self, Function.update_of_ne h]
  · rw [Function.update_of_ne hr]

end Mat

end

section

variable {α : Type*} [Field α]

/-! ### The dot products -/

/-- The trips of `for (; k + 4 <= n; k += 4)` from `k0`. -/
def trips (k0 n : ℕ) : ℕ := (n - k0) / 4

/-- `(s0 + s1) + (s2 + s3)` after that loop. -/
def lanes (f : ℕ → α) (k0 n : ℕ) : α :=
  let s := (List.range (trips k0 n)).foldl (fun (s : α × α × α × α) b =>
    (s.1 + f (k0 + 4 * b), s.2.1 + f (k0 + 4 * b + 1), s.2.2.1 + f (k0 + 4 * b + 2), s.2.2.2 + f (k0 + 4 * b + 3)))
    (0, 0, 0, 0)
  (s.1 + s.2.1) + (s.2.2.1 + s.2.2.2)

/-- What `for (; k < n; k++)` still has to do. -/
def rest (k0 n : ℕ) : List ℕ := List.range' (k0 + 4 * trips k0 n) (n - (k0 + 4 * trips k0 n))

/-- `s -= f(k)` over the rest. -/
def subRest (s : α) (f : ℕ → α) (k0 n : ℕ) : α := (rest k0 n).foldl (fun s k => s - f k) s

/-- `s += f(k)` over the rest. -/
def addRest (s : α) (f : ℕ → α) (k0 n : ℕ) : α := (rest k0 n).foldl (fun s k => s + f k) s

theorem trips_le {k0 n : ℕ} (h : k0 ≤ n) : k0 + 4 * trips k0 n ≤ n := by
  unfold trips
  omega

theorem lanes_eq (f : ℕ → α) (k0 n : ℕ) : lanes f k0 n = ∑ k ∈ Ico k0 (k0 + 4 * trips k0 n), f k := by
  unfold lanes
  dsimp only
  induction trips k0 n with
  | zero => simp
  | succ m ih =>
      rw [List.range_succ, List.foldl_append, List.foldl_cons, List.foldl_nil]
      dsimp only
      have hsum : ∑ k ∈ Ico k0 (k0 + 4 * (m + 1)), f k = ∑ k ∈ Ico k0 (k0 + 4 * m), f k +
          (f (k0 + 4 * m) + f (k0 + 4 * m + 1) + f (k0 + 4 * m + 2) + f (k0 + 4 * m + 3)) := by
        rw [show k0 + 4 * (m + 1) = k0 + 4 * m + 1 + 1 + 1 + 1 by ring, sum_Ico_succ_top (by omega),
          sum_Ico_succ_top (by omega), sum_Ico_succ_top (by omega), sum_Ico_succ_top (by omega)]
        ring
      rw [hsum, ← ih]
      ring

theorem sum_rest (f : ℕ → α) (a m : ℕ) : ((List.range' a m).map f).sum = ∑ k ∈ Ico a (a + m), f k := by
  induction m with
  | zero => simp
  | succ m ih =>
      rw [List.range'_1_concat, List.map_append, List.sum_append, ih, ← Nat.add_assoc, sum_Ico_succ_top (by omega)]
      simp

theorem addRest_eq (s : α) (f : ℕ → α) {k0 n : ℕ} (h : k0 ≤ n) :
    addRest s f k0 n = s + ∑ k ∈ Ico (k0 + 4 * trips k0 n) n, f k := by
  have hfold : ∀ (l : List ℕ) (s : α), l.foldl (fun s k => s + f k) s = s + (l.map f).sum := by
    intro l
    induction l with
    | nil => simp
    | cons k l ih =>
        intro s
        rw [List.foldl_cons, ih, List.map_cons, List.sum_cons]
        ring
  unfold addRest rest
  rw [hfold, sum_rest, Nat.add_sub_cancel' (trips_le h)]

theorem subRest_eq (s : α) (f : ℕ → α) {k0 n : ℕ} (h : k0 ≤ n) :
    subRest s f k0 n = s - ∑ k ∈ Ico (k0 + 4 * trips k0 n) n, f k := by
  have hneg : subRest s f k0 n = addRest s (fun k => -f k) k0 n := by
    simp only [subRest, addRest, sub_eq_add_neg]
  rw [hneg, addRest_eq _ _ h, sum_neg_distrib, sub_eq_add_neg]

/-- Four accumulators and the rest, subtracted: the whole sum. -/
theorem subRest_lanes (x : α) (f : ℕ → α) {k0 n : ℕ} (h : k0 ≤ n) :
    subRest (x - lanes f k0 n) f k0 n = x - ∑ k ∈ Ico k0 n, f k := by
  rw [subRest_eq _ f h, lanes_eq, ← sum_Ico_consecutive f (Nat.le_add_right k0 _) (trips_le h)]
  ring

theorem addRest_lanes (f : ℕ → α) {k0 n : ℕ} (h : k0 ≤ n) :
    addRest (lanes f k0 n) f k0 n = ∑ k ∈ Ico k0 n, f k := by
  rw [addRest_eq _ f h, lanes_eq, sum_Ico_consecutive f (Nat.le_add_right k0 _) (trips_le h)]

/-! ### `chol_lower` -/

/-- The body of the loop over `j`. -/
def cholEntry (A : Mat α) (i j : ℕ) : α :=
  subRest (A i j - lanes (fun k => A i k * A j k) 0 j) (fun k => A i k * A j k) 0 j / A j j

/-- The loop over `j`, its iterations in the given order. -/
def cholRow (order : List ℕ) (i : ℕ) (A : Mat α) : Mat α := order.foldl (fun A j => A.set i j (cholEntry A i j)) A

/-- The order of the loop of row `i`: the team of threads is there from row 257 on. -/
def rowOrder (row : ℕ → List ℕ) (i : ℕ) : List ℕ := if 256 < i then row i else List.range i

/-- `s` of the diagonal entry. -/
def cholPivot (A : Mat α) (i : ℕ) : α :=
  subRest (A i i - lanes (fun k => A i k * A i k) 0 i) (fun k => A i k * A i k) 0 i

/-- The loops that zero the upper triangle. -/
def zeroUpper (K : ℕ) (A : Mat α) : Mat α :=
  (List.range K).foldl (fun A i => (List.range' (i + 1) (K - (i + 1))).foldl (fun A j => A.set i j 0) A) A

section

variable [LinearOrder α] (sqrt : α → α) (row : ℕ → List ℕ)

/-- Row `i`. -/
def cholStep (A : Mat α) (i : ℕ) : Option (Mat α) :=
  let A := cholRow (rowOrder row i) i A
  if cholPivot A i ≤ 0 then none else some (A.set i i (sqrt (cholPivot A i)))

/-- `chol_lower`; `none` is the return of -1. -/
def cholLower (K : ℕ) (A : Mat α) : Option (Mat α) := ((List.range K).foldlM (cholStep sqrt row) A).map (zeroUpper K)

/-- The loops of `chol_upper` that transpose. -/
def transposeUpper (K : ℕ) (A : Mat α) : Mat α :=
  (List.range K).foldl (fun A i => (List.range' (i + 1) (K - (i + 1))).foldl
    (fun A j => (A.set i j (A j i)).set j i 0) A) A

/-- `chol_upper`. -/
def cholUpper (K : ℕ) (A : Mat α) : Option (Mat α) := (cholLower sqrt row K A).map (transposeUpper K)

end

/-! ### `inv_from_chol` -/

/-- An iteration of the first loop: the forward solve of column `c`. -/
def solveCol (K : ℕ) (L : Mat α) (M : Mat α) (c : ℕ) : Mat α :=
  (List.range' (c + 1) (K - (c + 1))).foldl
    (fun M i => M.set c i (subRest (-lanes (fun k => L i k * M c k) c i) (fun k => L i k * M c k) c i / L i i))
    (M.set c c (1 / L c c))

/-- The columns `j` of a row, tile by tile. -/
def tiled (K : ℕ) : List ℕ :=
  (List.range ((K + 7) / 8)).flatMap fun b => List.range' (8 * b) ((if 8 * b + 8 < K then 8 * b + 8 else K) - 8 * b)

/-- An iteration of the second loop: row `i` of the product. -/
def mulRow (K : ℕ) (M : Mat α) (out : Mat α) (i : ℕ) : Mat α :=
  (tiled K).foldl (fun out j =>
    let k0 := if j < i then i else j
    out.set i j (addRest (lanes (fun k => M i k * M j k) k0 K) (fun k => M i k * M j k) k0 K)) out

/-- `inv_from_chol`, the iterations of its two loops in the given orders. -/
def invFromChol (solve mul : List ℕ) (K : ℕ) (L out : Mat α) : Mat α :=
  mul.foldl (mulRow K (solve.foldl (solveCol K L) fun _ _ => 0)) out

end

end OrkDriver.Gptq
