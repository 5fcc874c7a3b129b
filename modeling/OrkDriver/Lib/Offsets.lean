import Mathlib.Data.List.SplitBy
import Mathlib.Tactic.Common

/-!
Tables of offsets: a list of blocks lies end to end in its concatenation, and a table holds where each starts and where
the last ends.
-/

namespace OrkDriver.Lib

variable {α : Type*}

/-- Where the blocks start, the first at `p`, and where the last ends. -/
def cuts : Nat → List (List α) → List Nat
  | p, [] => [p]
  | p, b :: bs => p :: cuts (p + b.length) bs

@[simp] theorem cuts_nil (p : Nat) : cuts p ([] : List (List α)) = [p] := rfl

@[simp] theorem cuts_cons (p : Nat) (b : List α) (bs : List (List α)) :
    cuts p (b :: bs) = p :: cuts (p + b.length) bs := rfl

@[simp] theorem cuts_length (p : Nat) (bs : List (List α)) : (cuts p bs).length = bs.length + 1 := by
  induction bs generalizing p with
  | nil => rfl
  | cons b bs ih => simp [ih]

theorem cuts_getD_zero (p : Nat) (bs : List (List α)) : (cuts p bs).getD 0 0 = p := by
  cases bs <;> rfl

theorem cuts_getLast? (p : Nat) (bs : List (List α)) : (cuts p bs).getLast? = some (p + bs.flatten.length) := by
  induction bs generalizing p with
  | nil => rfl
  | cons b bs ih =>
    have hne : cuts (p + b.length) bs ≠ [] := by cases bs <;> simp
    rw [cuts_cons, List.getLast?_cons_of_ne_nil hne, ih, List.flatten_cons, List.length_append, Nat.add_assoc]

theorem le_cuts_getD (p : Nat) (bs : List (List α)) {g : Nat} (hg : g ≤ bs.length) : p ≤ (cuts p bs).getD g 0 := by
  induction bs generalizing p g with
  | nil =>
    obtain rfl : g = 0 := by simpa using hg
    exact le_rfl
  | cons b bs ih =>
    cases g with
    | zero => exact le_rfl
    | succ g => exact (Nat.le_add_right p b.length).trans (ih _ (by simpa using hg))

/-- A table delimits the blocks. -/
structure Delimits (starts : List Nat) (blocks : List (List α)) : Prop where
  entries : starts.length = blocks.length + 1
  first : starts.head? = some 0
  last : starts.getLast? = some blocks.flatten.length
  slice : ∀ g (hg : g < blocks.length), (blocks.flatten.drop (starts.getD g 0)).take
    (starts.getD (g + 1) 0 - starts.getD g 0) = blocks[g]
  once : ∀ p < blocks.flatten.length, ∃! g, g < blocks.length ∧ starts.getD g 0 ≤ p ∧ p < starts.getD (g + 1) 0

/-- Entry `g` and the one behind it enclose block `g`. -/
theorem cuts_slice (p : Nat) (pre : List α) (bs : List (List α)) (hp : pre.length = p) {g : Nat} (hg : g < bs.length) :
    ((pre ++ bs.flatten).drop ((cuts p bs).getD g 0)).take
      ((cuts p bs).getD (g + 1) 0 - (cuts p bs).getD g 0) = bs[g] := by
  induction bs generalizing p pre g with
  | nil => exact absurd hg (Nat.not_lt_zero g)
  | cons b bs ih =>
    cases g with
    | zero =>
      have h1 : (cuts p (b :: bs)).getD 1 0 = p + b.length := cuts_getD_zero (p + b.length) bs
      rw [Nat.zero_add, h1, cuts_getD_zero, Nat.add_sub_cancel_left, ← hp, List.drop_left, List.flatten_cons,
        List.take_left]
      rfl
    | succ g =>
      have hrest := ih (p + b.length) (pre ++ b) (by simp [hp]) (by simpa using hg)
      rw [List.append_assoc] at hrest
      exact hrest

/-- Every position lies in one block, when none is empty. -/
theorem cuts_once (p : Nat) (bs : List (List α)) (hne : [] ∉ bs) {x : Nat} (hp : p ≤ x)
    (hx : x < p + bs.flatten.length) :
    ∃! g, g < bs.length ∧ (cuts p bs).getD g 0 ≤ x ∧ x < (cuts p bs).getD (g + 1) 0 := by
  induction bs generalizing p with
  | nil => simp at hx; omega
  | cons b bs ih =>
    have h1 : (cuts p (b :: bs)).getD 1 0 = p + b.length := cuts_getD_zero (p + b.length) bs
    by_cases hb : x < p + b.length
    · refine ⟨0, ⟨by simp, hp, by rwa [Nat.zero_add, h1]⟩, ?_⟩
      rintro g ⟨hg, hle, -⟩
      cases g with
      | zero => rfl
      | succ g =>
        have := le_cuts_getD (p + b.length) bs (g := g) (by simpa using Nat.le_of_lt hg)
        exact absurd (this.trans hle) (by omega)
    · rw [List.flatten_cons, List.length_append] at hx
      obtain ⟨g, ⟨hg, hle, hlt⟩, huniq⟩ := ih (p + b.length) (fun h => hne (List.mem_cons_of_mem b h)) (by omega)
        (by omega)
      refine ⟨g + 1, ⟨by simpa using hg, hle, hlt⟩, ?_⟩
      rintro g' ⟨hg', hle', hlt'⟩
      cases g' with
      | zero => exact absurd (h1 ▸ hlt') hb
      | succ g' => rw [huniq g' ⟨by simpa using hg', hle', hlt'⟩]

theorem delimits_cuts (bs : List (List α)) (hne : [] ∉ bs) : Delimits (cuts 0 bs) bs where
  entries := cuts_length 0 bs
  first := by cases bs <;> rfl
  last := by rw [cuts_getLast?, Nat.zero_add]
  slice := fun _ hg => cuts_slice 0 [] bs rfl hg
  once := fun _ hp => cuts_once 0 bs hne (Nat.zero_le _) (by rwa [Nat.zero_add])

end OrkDriver.Lib
