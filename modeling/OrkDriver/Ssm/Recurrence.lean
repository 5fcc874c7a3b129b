import Mathlib.Algebra.BigOperators.Group.Finset.Sigma
import OrkDriver.Lib.Recurrence
import OrkDriver.Ssm.Scan

/-!
The recurrence a state-space scan stands for, and what the products of one chunk come to.
-/

namespace OrkDriver.Ssm.Scan

open Lib Finset

variable {R : Type*} [CommRing R] (q : Scan R)

/-! ### The recurrence -/

/-- Entry `(i, n)` of the state of head `h` of sequence `seq` before token `t`. -/
def stateAt (seq h i n : Nat) : Nat → R
  | 0 => q.s0 (((seq * q.z.nh + h) * q.z.nr + i) * q.z.nc + n)
  | t + 1 =>
    let d := q.softplus (q.dt ((seq * q.nt + t) * q.z.nh + h))
    q.exp (d * q.A h) * stateAt seq h i n t
      + d * q.x (((seq * q.nt + t) * q.z.nh + h) * q.z.nr + i)
        * q.B (((seq * q.nt + t) * q.ng + h / q.hpg) * q.z.nc + n)

/-- `y` of head `h` at token `t`: the state behind the token under `C`. -/
def output (seq h t i : Nat) : R :=
  ∑ n ∈ range q.z.nc, q.C (((seq * q.nt + t) * q.ng + h / q.hpg) * q.z.nc + n) * q.stateAt seq h i n (t + 1)

/-- The state before token `t`, of those that exist. -/
def held (seq h i n t : Nat) : R := q.stateAt seq h i n (min t q.nt)

theorem held_succ (seq h i n t : Nat) :
    q.held seq h i n (t + 1) =
      q.exp (q.dtv seq h t * q.A h) * q.held seq h i n t + q.xAt seq h t i * q.bAt seq h t n := by
  rcases Nat.lt_or_ge t q.nt with ht | ht
  · rw [held, held, Nat.min_eq_left ht, Nat.min_eq_left ht.le, stateAt, xAt, bAt, dtv, if_pos ht, if_pos ht, if_pos ht]
  · rw [held, held, Nat.min_eq_right (Nat.le_succ_of_le ht), Nat.min_eq_right ht, xAt, dtv, if_neg (Nat.not_lt.mpr ht),
      if_neg (Nat.not_lt.mpr ht), zero_mul, AddChar.map_zero_eq_one, one_mul, zero_mul, add_zero]

/-! ### A chunk -/

def gramVal (seq cc h l sp : Nat) : R :=
  dot q.z.nc (fun n => q.cAt seq h (cc * q.z.csz + l) n) fun n => q.bAt seq h (cc * q.z.csz + sp) n

def maskVal (seq cc h l sp : Nat) : R :=
  if sp ≤ l then q.gramVal seq cc h l sp * q.exp (q.runSum seq cc h (l + 1) - q.runSum seq cc h (sp + 1)) else 0

def decayVal (seq cc h sp n : Nat) : R :=
  q.exp (q.runSum seq cc h q.z.csz - q.runSum seq cc h (sp + 1)) * q.bAt seq h (cc * q.z.csz + sp) n

/-- `Yd`. -/
def intraVal (seq cc h l i : Nat) : R :=
  dot q.z.csz (fun sp => q.maskVal seq cc h l sp) fun sp => q.xAt seq h (cc * q.z.csz + sp) i

/-- `cs`. -/
def chunkVal (seq cc h i n : Nat) : R :=
  dot q.z.csz (fun sp => q.xAt seq h (cc * q.z.csz + sp) i) fun sp => q.decayVal seq cc h sp n

/-- `tmp`. -/
def interVal (seq cc h l i : Nat) : R :=
  dot q.z.nc (fun n => q.cAt seq h (cc * q.z.csz + l) n) fun n => q.held seq h i n (cc * q.z.csz)

theorem held_block (seq cc h i n l : Nat) :
    q.held seq h i n (cc * q.z.csz + l) =
      q.exp (q.runSum seq cc h l) * q.held seq h i n (cc * q.z.csz)
        + ∑ k ∈ range l, q.exp (q.runSum seq cc h l - q.runSum seq cc h (k + 1))
          * (q.xAt seq h (cc * q.z.csz + k) i * q.bAt seq h (cc * q.z.csz + k) n) :=
  recurrence_block q.exp (q.held_succ seq h i n) rfl (fun _ => rfl) l

/-- The carry: what a chunk does to the state it is entered with. -/
theorem held_next (seq cc h i n : Nat) :
    q.exp (q.runSum seq cc h q.z.csz) * q.held seq h i n (cc * q.z.csz) + q.chunkVal seq cc h i n =
      q.held seq h i n ((cc + 1) * q.z.csz) := by
  rw [Nat.succ_mul, held_block, chunkVal, dot]
  congr 1
  apply sum_congr rfl
  intro k _
  rw [decayVal]
  ring

/-- The rows of `y`: what the tokens of the chunk contribute, and the state it is entered with. -/
theorem output_eq {seq cc h l i : Nat} (hl : l < q.z.csz) (ht : cc * q.z.csz + l < q.nt) :
    q.intraVal seq cc h l i + q.interVal seq cc h l i * q.exp (q.runSum seq cc h (l + 1)) =
      q.output seq h (cc * q.z.csz + l) i := by
  have hout : q.output seq h (cc * q.z.csz + l) i =
      ∑ n ∈ range q.z.nc, q.cAt seq h (cc * q.z.csz + l) n * q.held seq h i n (cc * q.z.csz + (l + 1)) := by
    rw [output]
    apply sum_congr rfl
    intro n _
    rw [cAt, if_pos ht, held, Nat.min_eq_left (by omega), Nat.add_assoc]
  have hintra : q.intraVal seq cc h l i =
      ∑ k ∈ range (l + 1), ∑ n ∈ range q.z.nc, q.cAt seq h (cc * q.z.csz + l) n
        * (q.exp (q.runSum seq cc h (l + 1) - q.runSum seq cc h (k + 1))
          * (q.xAt seq h (cc * q.z.csz + k) i * q.bAt seq h (cc * q.z.csz + k) n)) := by
    rw [intraVal, dot, ← sum_mask _ hl]
    apply sum_congr rfl
    intro k _
    rw [maskVal]
    split
    · rw [gramVal, dot, sum_mul, sum_mul]
      apply sum_congr rfl
      intro n _
      ring
    · rw [zero_mul]
  rw [hout, hintra, sum_comm, interVal, dot, sum_mul, ← sum_add_distrib]
  apply sum_congr rfl
  intro n _
  rw [held_block, mul_add, mul_sum]
  ring

end OrkDriver.Ssm.Scan
