import OrkDriver.Npu.Program

/-!
int4 programs (`npu/i4/run.c`, `npu/i4/i4.h`): results of 16 bits, and the native batch, in which the hardware computes
four rows for each row of the activations and the first of every four is the result.
-/

namespace OrkDriver.Npu

open OrkDriver.Lib

/-- A code as the datapath reads it: its low four bits. -/
def nibble (x : Int) : Int := (x + 8) % 16 - 8

theorem nibble_code {x : Int} (h : -8 ≤ x) (h' : x < 8) : nibble x = x := by
  unfold nibble
  omega

theorem nibble_range (x : Int) : -8 ≤ nibble x ∧ nibble x < 8 := by
  unfold nibble
  omega

/-- The results saturate. -/
def sat16 (x : Int) : Int := max (-32768) (min 32767 x)

theorem sat16_of_range {x : Int} (h : -32768 ≤ x) (h' : x ≤ 32767) : sat16 x = x := by
  unfold sat16
  omega

/-- The arguments of `orki_i4_synth`, with `orki_i4_act_dense`. Addresses are bytes. -/
structure Program4 where
  mc : Nat
  K : Nat
  N : Nat
  aA : Nat
  aB : Nat
  aC : Nat
  dense : Bool
  deriving DecidableEq

namespace Program4

/-- Rows of results. -/
def rows (p : Program4) : Nat := if p.mc = 1 then 1 else p.mc / 2

/-- `LINE_STRIDE` in codes; the register counts atoms of 16 bytes. -/
def line (p : Program4) : Nat := (if p.dense then p.K / 32 else p.K / 16) * 32

/-- Place of a result among the int16 words. -/
def cell (p : Program4) (r n : Nat) : Nat :=
  if p.mc = 1 then p.aC / 2 + n else p.aC / 2 + ((4 * r + 2 * p.mc * (n / 64)) * 64 + n % 64)

/-- How many int16 words the program writes, from `aC` on. -/
def surface (p : Program4) : Nat := if p.mc = 1 then p.N else 2 * p.mc * p.N

/-- The result in row `r` and column `n`, from the codes in the activation and weight memories. -/
def value (p : Program4) (A W : Nat → Int) (r n : Nat) : Int :=
  sat16 (dot p.K (fun k => A (2 * p.aA + r * p.line + k)) fun k => W (2 * p.aB + wIndex 64 p.K k n))

variable {p : Program4} {H : Nat}

theorem rows_batch (h : p.mc = 2 * H) : p.rows = H := by
  have : p.mc ≠ 1 := by omega
  rw [rows, if_neg this, h, Nat.mul_div_cancel_left _ (by decide)]

theorem cell_batch (h : p.mc = 2 * H) (r n : Nat) :
    p.cell r n = p.aC / 2 + ((4 * r + 4 * H * (n / 64)) * 64 + n % 64) := by
  have : p.mc ≠ 1 := by omega
  rw [cell, if_neg this, h, ← Nat.mul_assoc 2 2]

theorem surface_batch (h : p.mc = 2 * H) : p.surface = 4 * H * p.N := by
  have : p.mc ≠ 1 := by omega
  rw [surface, if_neg this, h, ← Nat.mul_assoc 2 2]

/-- With a depth of whole blocks, rows of activations lie one or two rows apart. -/
theorem line_eq (h : 32 ∣ p.K) : p.line = (if p.dense then 1 else 2) * p.K := by
  unfold line
  split <;> omega

/-- The results of a native batch lie in its surface. -/
theorem cell_lt (h : p.mc = 2 * H) (hN : 64 ∣ p.N) {r n : Nat} (hr : r < H) (hn : n < p.N) :
    p.cell r n < p.aC / 2 + p.surface := by
  obtain ⟨b, hb⟩ := hN
  rw [cell_batch h, surface_batch h, hb]
  rw [hb] at hn
  have hblock : n / 64 < b := Nat.div_lt_of_lt_mul hn
  have hrow : 4 * r + 4 * H * (n / 64) < 4 * H * b :=
    calc 4 * r + 4 * H * (n / 64) < 4 * H + 4 * H * (n / 64) := by omega
      _ = 4 * H * (n / 64 + 1) := by rw [Nat.mul_succ, Nat.add_comm]
      _ ≤ 4 * H * b := Nat.mul_le_mul_left _ hblock
  have hcell : (4 * r + 4 * H * (n / 64)) * 64 + n % 64 < 4 * H * b * 64 :=
    digits_lt hrow (Nat.mod_lt _ (by decide))
  rw [Nat.mul_comm 64 b, ← Nat.mul_assoc]
  exact Nat.add_lt_add_left hcell _

theorem le_cell (p : Program4) (r n : Nat) : p.aC / 2 ≤ p.cell r n := by
  unfold cell
  split <;> exact Nat.le_add_right _ _

/-- Different results of a native batch lie apart. -/
theorem cell_inj (h : p.mc = 2 * H) {r n r' n' : Nat} (hr : r < H) (hr' : r' < H) (hc : p.cell r n = p.cell r' n') :
    r = r' ∧ n = n' := by
  rw [cell_batch h, cell_batch h] at hc
  obtain ⟨hrow, hn⟩ := digits_inj (Nat.mod_lt _ (by decide)) (Nat.mod_lt _ (by decide)) (Nat.add_left_cancel hc)
  rw [Nat.add_comm (4 * r), Nat.add_comm (4 * r'), Nat.mul_comm (4 * H), Nat.mul_comm (4 * H)] at hrow
  obtain ⟨hblock, hrow⟩ := digits_inj (by omega) (by omega) hrow
  omega

end Program4

end OrkDriver.Npu
