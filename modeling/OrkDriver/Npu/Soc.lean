import Mathlib.Data.List.Basic

/-!
The chips the driver knows (`soc.c`, `soc/*.c`) and what a context takes from its chip and its environment.
-/

namespace OrkDriver.Npu

/-- `struct ork_soc`; `id` is a C string. -/
structure Soc where
  id : List Char
  cores : Nat
  cbufElems : Nat
  nmax : Nat
  ks : Nat
  deriving DecidableEq

def socRk3588 : Soc := ⟨['r', 'k', '3', '5', '8', '8'], 3, 57344, 8192, 2048⟩

def socRk3576 : Soc := ⟨['r', 'k', '3', '5', '7', '6'], 2, 32768, 8192, 2048⟩

/-- The registry of `soc.c`; detection and lookup by id both return an entry of it. -/
def socTable : List Soc := [socRk3588, socRk3576]

def socById (id : List Char) : Option Soc := socTable.find? fun s => s.id == id

/-- A context: the device descriptor (negative without a device), the chip, and `atoi` of `ORK_KTILE` (0 if unset). -/
structure OrkNpu where
  fd : Int
  soc : Soc
  ktile : Int

/-- `orki_int8_ks`. -/
def OrkNpu.int8Ks (c : OrkNpu) : Nat :=
  let kt := if c.ktile ≠ 0 ∧ (c.ktile < 32 ∨ c.ktile % 32 ≠ 0) then 0 else c.ktile
  if 0 < kt then kt.toNat else 1024

theorem OrkNpu.int8Ks_spec (c : OrkNpu) : 0 < c.int8Ks ∧ 32 ∣ c.int8Ks := by
  unfold int8Ks
  by_cases h : c.ktile ≠ 0 ∧ (c.ktile < 32 ∨ c.ktile % 32 ≠ 0)
  · simp only [if_pos h]
    decide
  · simp only [if_neg h]
    split <;> omega

/-- Every positive multiple of 32 is the slice size of some environment. -/
theorem OrkNpu.int8Ks_of_ktile (c : OrkNpu) {KS : Nat} (h0 : 0 < KS) (h : 32 ∣ KS) (hk : c.ktile = KS) :
    c.int8Ks = KS := by
  have hok : ¬ (c.ktile ≠ 0 ∧ (c.ktile < 32 ∨ c.ktile % 32 ≠ 0)) := by omega
  have hpos : 0 < c.ktile := by omega
  simp only [int8Ks, if_neg hok, if_pos hpos]
  rw [hk, Int.toNat_natCast]

end OrkDriver.Npu
