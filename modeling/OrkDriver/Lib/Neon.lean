import Mathlib.Algebra.BigOperators.Intervals
import Mathlib.Data.BitVec
import Mathlib.Logic.Function.Basic
import Mathlib.Tactic.Ring

/-!
Vectors of bytes as the NEON intrinsics see them, lane by lane, and planes of single bits.
-/

namespace OrkDriver.Lib.Neon

open Finset

/-- The lanes of a vector of bytes, or a memory; the operations say whether a byte has a sign. -/
abbrev Bytes := Nat → BitVec 8

/-- `int32x4_t`. -/
abbrev Words := Nat → BitVec 32

/-! ### Intrinsics -/

def vld1q (m : Bytes) (p : Nat) : Bytes := fun i => m (p + i)

def vld2q (m : Bytes) (p : Nat) : Bytes × Bytes := (fun i => m (p + 2 * i), fun i => m (p + 2 * i + 1))

def vdupq (b : BitVec 8) : Bytes := fun _ => b

def vandq (x y : Bytes) : Bytes := fun i => x i &&& y i

def vorrq (x y : Bytes) : Bytes := fun i => x i ||| y i

/-- `vshlq_n`. -/
def vshlq (x : Bytes) (n : Nat) : Bytes := fun i => x i <<< n

/-- `vshrq_n_u8`. -/
def vshrqU (x : Bytes) (n : Nat) : Bytes := fun i => x i >>> n

/-- `vshrq_n_s8`. -/
def vshrqS (x : Bytes) (n : Nat) : Bytes := fun i => (x i).sshiftRight n

def vtstq (x y : Bytes) : Bytes := fun i => if x i &&& y i = 0 then 0 else 0xff

/-- Two halves of eight lanes. -/
def vcombine (x y : Bytes) : Bytes := fun i => if i < 8 then x i else y (i - 8)

def vqtbl1q (t x : Bytes) : Bytes := fun i => if (x i).toNat < 16 then t (x i).toNat else 0

/-- `vzip` of eight lanes each. -/
def vzip (x y : Bytes) : Bytes × Bytes :=
  (fun i => if i % 2 = 0 then x (i / 2) else y (i / 2), fun i => if i % 2 = 0 then x (4 + i / 2) else y (4 + i / 2))

/-- `vdotq_s32`: each lane takes the products of four bytes. -/
def vdotq (acc : Words) (x y : Bytes) : Words := fun l =>
  acc l + BitVec.ofInt 32 (∑ j ∈ range 4, (x (4 * l + j)).toInt * (y (4 * l + j)).toInt)

/-- `vaddvq_s32`. -/
def vaddvq (acc : Words) : BitVec 32 := acc 0 + acc 1 + acc 2 + acc 3

/-! ### Sums -/

theorem vaddvq_vdotq (acc : Words) (x y : Bytes) :
    vaddvq (vdotq acc x y) = vaddvq acc + BitVec.ofInt 32 (∑ i ∈ range 16, (x i).toInt * (y i).toInt) := by
  have hlanes : ∑ i ∈ range 16, (x i).toInt * (y i).toInt =
      ∑ l ∈ range 4, ∑ j ∈ range 4, (x (4 * l + j)).toInt * (y (4 * l + j)).toInt := by
    simp only [sum_range_succ, sum_range_zero]
    ring_nf
  have hsum : ∀ s : Nat → Int, acc 0 + BitVec.ofInt 32 (s 0) + (acc 1 + BitVec.ofInt 32 (s 1)) +
      (acc 2 + BitVec.ofInt 32 (s 2)) + (acc 3 + BitVec.ofInt 32 (s 3)) =
      acc 0 + acc 1 + acc 2 + acc 3 + BitVec.ofInt 32 (∑ l ∈ range 4, s l) := by
    intro s
    simp only [sum_range_succ, sum_range_zero, zero_add, BitVec.ofInt_add]
    ring
  rw [hlanes]
  exact hsum fun l => ∑ j ∈ range 4, (x (4 * l + j)).toInt * (y (4 * l + j)).toInt

/-- A loop of dot products adds up. -/
theorem vaddvq_foldl {step : Words → Nat → Words} {g : Nat → Int} {n : Nat}
    (h : ∀ b < n, ∀ acc, vaddvq (step acc b) = vaddvq acc + BitVec.ofInt 32 (g b)) (acc : Words) :
    vaddvq ((List.range n).foldl step acc) = vaddvq acc + BitVec.ofInt 32 (∑ b ∈ range n, g b) := by
  induction n with
  | zero => simp
  | succ n ih =>
      rw [List.range_succ, List.foldl_append, List.foldl_cons, List.foldl_nil, h n (Nat.lt_succ_self n),
        ih fun b hb => h b (Nat.lt_succ_of_lt hb), sum_range_succ, BitVec.ofInt_add, BitVec.add_assoc]

/-- Accumulators that do not look at each other run their own loops. -/
theorem foldl_pointwise {ι α β : Type*} (f : ι → β → α → β) (l : List α) (s : ι → β) (c : ι) :
    l.foldl (fun s a => fun c => f c (s c) a) s c = l.foldl (f c) (s c) := by
  induction l generalizing s with
  | nil => rfl
  | cons a l ih => exact ih fun c => f c (s c) a

theorem sum_blocks {M : Type*} [AddCommMonoid M] (f : Nat → M) (q s : Nat) :
    ∑ b ∈ range q, ∑ i ∈ range s, f (s * b + i) = ∑ k ∈ range (s * q), f k := by
  induction q with
  | zero => simp
  | succ q ih => rw [sum_range_succ, ih, Nat.mul_succ, sum_range_add]

theorem sum_pairs {M : Type*} [AddCommMonoid M] (f : Nat → M) (n : Nat) :
    ∑ i ∈ range n, (f (2 * i) + f (2 * i + 1)) = ∑ k ∈ range (2 * n), f k := by
  rw [← sum_blocks f n 2]
  exact sum_congr rfl fun i _ => by simp [sum_range_succ]

theorem sum_halves {M : Type*} [AddCommMonoid M] (f : Nat → M) (n : Nat) :
    ∑ i ∈ range n, (f i + f (n + i)) = ∑ k ∈ range (n + n), f k := by
  rw [sum_add_distrib, sum_range_add]

/-! ### Planes of bits -/

/-- `m[p] |= 1 << j`. -/
def orBit (m : Bytes) (p j : Nat) : Bytes := Function.update m p (m p ||| BitVec.twoPow 8 j)

def orBits (m : Bytes) (l : List (Nat × Nat)) : Bytes := l.foldl (fun m w => orBit m w.1 w.2) m

theorem getLsbD_orBit (m : Bytes) (p j : Nat) {q i : Nat} (hi : i < 8) :
    (orBit m p j q).getLsbD i = ((m q).getLsbD i || decide (p = q ∧ j = i)) := by
  unfold orBit
  by_cases hq : q = p
  · rw [hq, Function.update_self, BitVec.getLsbD_or, BitVec.getLsbD_twoPow]
    have hlt : (decide (j < 8) && decide (j = i)) = decide (j = i) := by
      by_cases hj : j = i
      · simp [hj, hi]
      · simp [hj]
    simp [hlt]
  · rw [Function.update_of_ne hq]
    simp [Ne.symm hq]

/-- A bit is set if it was, or if the loop sets it. -/
theorem getLsbD_orBits (m : Bytes) (l : List (Nat × Nat)) {p j : Nat} (hj : j < 8) :
    (orBits m l p).getLsbD j = ((m p).getLsbD j || decide ((p, j) ∈ l)) := by
  induction l generalizing m with
  | nil => simp [orBits]
  | cons w l ih =>
      have htail := ih (orBit m w.1 w.2)
      rw [getLsbD_orBit m w.1 w.2 hj, Bool.or_assoc] at htail
      refine htail.trans (congrArg _ ?_)
      rw [← Bool.decide_or]
      congr 1
      rw [List.mem_cons, Prod.ext_iff]
      exact propext (or_congr ⟨fun h => ⟨h.1.symm, h.2.symm⟩, fun h => ⟨h.1.symm, h.2.symm⟩⟩ Iff.rfl)

theorem orBits_of_ne {m : Bytes} {l : List (Nat × Nat)} {p : Nat} (h : ∀ w ∈ l, w.1 ≠ p) : orBits m l p = m p := by
  induction l generalizing m with
  | nil => rfl
  | cons w l ih =>
      have htail := @ih (orBit m w.1 w.2) fun x hx => h x (List.mem_cons_of_mem w hx)
      exact htail.trans (Function.update_of_ne (Ne.symm (h w List.mem_cons_self)) _ _)

end OrkDriver.Lib.Neon
