import Mathlib.Data.BitVec
import Mathlib.Logic.Function.Basic

/-!
Bytes as pairs of nibbles, the low one first: reading one, or-ing one in, and codes of four bits.
-/

namespace OrkDriver.Lib

/-- Shift of nibble `i` in its byte. -/
def nibbleShift (i : Nat) : Nat := if i % 2 = 1 then 4 else 0

/-- Nibble `i`. -/
def nibbleAt (m : Nat → BitVec 8) (i : Nat) : BitVec 4 := (m (i / 2) >>> nibbleShift i).setWidth 4

/-- `dst[i/2] |= v << (i&1 ? 4 : 0)`. -/
def orNibble (m : Nat → BitVec 8) (i : Nat) (v : BitVec 4) : Nat → BitVec 8 :=
  Function.update m (i / 2) (m (i / 2) ||| v.setWidth 8 <<< nibbleShift i)

/-- The stores of a loop, one after the other. -/
def orNibbles (m : Nat → BitVec 8) (l : List (Nat × BitVec 4)) : Nat → BitVec 8 :=
  l.foldl (fun m w => orNibble m w.1 w.2) m

/-! ### One byte -/

theorem nibble_or (b : BitVec 8) (v : BitVec 4) :
    ((b ||| v.setWidth 8 <<< 0) >>> 0).setWidth 4 = (b >>> 0).setWidth 4 ||| v ∧
    ((b ||| v.setWidth 8 <<< 4) >>> 4).setWidth 4 = (b >>> 4).setWidth 4 ||| v ∧
    ((b ||| v.setWidth 8 <<< 0) >>> 4).setWidth 4 = (b >>> 4).setWidth 4 ∧
    ((b ||| v.setWidth 8 <<< 4) >>> 0).setWidth 4 = (b >>> 0).setWidth 4 := by
  refine ⟨?_, ?_, ?_, ?_⟩
  all_goals
    ext i hi
    have hbyte : 4 + i < 8 := by omega
    have hhigh : ¬ 4 + i < 4 := by omega
    simp [BitVec.getElem_setWidth, BitVec.getLsbD_eq_getElem, hi, hbyte, hhigh, Nat.lt_of_lt_of_le hi]

/-! ### A store -/

theorem nibbleAt_orNibble_self (m : Nat → BitVec 8) (i : Nat) (v : BitVec 4) :
    nibbleAt (orNibble m i v) i = nibbleAt m i ||| v := by
  unfold nibbleAt orNibble nibbleShift
  rw [Function.update_self]
  split
  · exact (nibble_or _ v).2.1
  · exact (nibble_or _ v).1

theorem nibbleAt_orNibble_of_ne (m : Nat → BitVec 8) {i j : Nat} (v : BitVec 4) (h : i ≠ j) :
    nibbleAt (orNibble m i v) j = nibbleAt m j := by
  unfold nibbleAt orNibble nibbleShift
  by_cases hb : j / 2 = i / 2
  · -- the two nibbles of one byte
    rw [hb, Function.update_self]
    by_cases hi : i % 2 = 1
    · have hj : ¬ j % 2 = 1 := by omega
      rw [if_pos hi, if_neg hj]
      exact (nibble_or _ v).2.2.2
    · have hj : j % 2 = 1 := by omega
      rw [if_neg hi, if_pos hj]
      exact (nibble_or _ v).2.2.1
  · rw [Function.update_of_ne hb]

theorem orNibble_of_ne (m : Nat → BitVec 8) {i p : Nat} (v : BitVec 4) (h : i / 2 ≠ p) : orNibble m i v p = m p :=
  Function.update_of_ne (Ne.symm h) _ _

theorem nibbleAt_zero (i : Nat) : nibbleAt (fun _ => 0) i = 0 := by
  have hbyte : (0 : BitVec 8) >>> nibbleShift i = 0 := BitVec.zero_ushiftRight
  unfold nibbleAt
  rw [hbyte]
  rfl

theorem nibbleAt_add (m : Nat → BitVec 8) (o i : Nat) : nibbleAt m (2 * o + i) = nibbleAt (fun j => m (o + j)) i := by
  unfold nibbleAt nibbleShift
  rw [Nat.mul_add_div (by omega), Nat.mul_add_mod]

theorem orNibble_congr {m m' : Nat → BitVec 8} {p : Nat} (i : Nat) (v : BitVec 4) (h : m p = m' p) :
    orNibble m i v p = orNibble m' i v p := by
  by_cases hp : i / 2 = p
  · subst hp
    unfold orNibble
    rw [Function.update_self, Function.update_self, h]
  · rw [orNibble_of_ne m v hp, orNibble_of_ne m' v hp, h]

theorem orNibble_shift (m : Nat → BitVec 8) (o i : Nat) (v : BitVec 4) :
    (fun j => orNibble m (2 * o + i) v (o + j)) = orNibble (fun j => m (o + j)) i v := by
  funext j
  unfold orNibble nibbleShift
  rw [Nat.mul_add_div (by decide), Nat.mul_add_mod]
  by_cases hj : j = i / 2
  · rw [hj, Function.update_self, Function.update_self]
  · rw [Function.update_of_ne hj, Function.update_of_ne (by omega)]

/-! ### A loop of stores -/

namespace orNibbles

variable {m : Nat → BitVec 8} {l : List (Nat × BitVec 4)} {i : Nat}

theorem of_forall_ne (h : ∀ w ∈ l, w.1 ≠ i) : nibbleAt (orNibbles m l) i = nibbleAt m i := by
  induction l generalizing m with
  | nil => rfl
  | cons w l ih =>
      have ht := @ih (orNibble m w.1 w.2) fun x hx => h x (List.mem_cons_of_mem _ hx)
      exact ht.trans (nibbleAt_orNibble_of_ne m w.2 (h w List.mem_cons_self))

/-- Where the loop stores one value only, and nothing was before, that value stands. -/
theorem of_mem {v : BitVec 4} (h0 : nibbleAt m i = 0 ∨ nibbleAt m i = v) (hmem : (i, v) ∈ l)
    (hval : ∀ w ∈ l, w.1 = i → w.2 = v) : nibbleAt (orNibbles m l) i = v := by
  have hor : ∀ x : BitVec 4, x = 0 ∨ x = v → x ||| v = v := by
    rintro x (rfl | rfl)
    · exact BitVec.zero_or
    · exact BitVec.or_self
  induction l generalizing m with
  | nil => cases hmem
  | cons w l ih =>
      change nibbleAt (orNibbles (orNibble m w.1 w.2) l) i = v
      have htail : ∀ x ∈ l, x.1 = i → x.2 = v := fun x hx => hval x (List.mem_cons_of_mem _ hx)
      by_cases hw : w.1 = i
      · -- stored now, and not changed by what follows
        have hv : nibbleAt (orNibble m w.1 w.2) i = v := by
          rw [← hw, nibbleAt_orNibble_self, hw, hval w List.mem_cons_self hw]
          exact hor _ h0
        by_cases hl : (i, v) ∈ l
        · exact ih (.inr hv) hl htail
        · refine (of_forall_ne fun x hx hxi => hl ?_).trans hv
          rw [← hxi, ← htail x hx hxi]
          exact hx
      · have hne := nibbleAt_orNibble_of_ne m w.2 hw
        rcases List.mem_cons.mp hmem with heq | hl
        · exact absurd (congrArg Prod.fst heq).symm hw
        · exact ih (by rw [hne]; exact h0) hl htail

theorem of_byte_ne {p : Nat} (h : ∀ w ∈ l, w.1 / 2 ≠ p) : orNibbles m l p = m p := by
  induction l generalizing m with
  | nil => rfl
  | cons w l ih =>
      have ht := @ih (orNibble m w.1 w.2) fun x hx => h x (List.mem_cons_of_mem _ hx)
      exact ht.trans (orNibble_of_ne m w.2 (h w List.mem_cons_self))

/-- A byte depends on what it was, and on no other. -/
theorem byte_congr {m' : Nat → BitVec 8} {p : Nat} (h : m p = m' p) : orNibbles m l p = orNibbles m' l p := by
  induction l generalizing m m' with
  | nil => exact h
  | cons w l ih => exact ih (orNibble_congr w.1 w.2 h)

/-- The loop at another place of the memory. -/
theorem shift (m : Nat → BitVec 8) (o : Nat) (l : List (Nat × BitVec 4)) :
    (fun j => orNibbles m (l.map fun w => (2 * o + w.1, w.2)) (o + j)) = orNibbles (fun j => m (o + j)) l := by
  induction l generalizing m with
  | nil => rfl
  | cons w l ih => exact (ih (orNibble m (2 * o + w.1) w.2)).trans (congrArg (orNibbles · l) (orNibble_shift m o w.1 w.2))

end orNibbles

/-! ### Codes of four bits -/

/-- `v & 0xf`. -/
def low4 (v : Int8) : BitVec 4 := v.toBitVec.setWidth 4

/-- `nib >= 8 ? nib - 16 : nib`. -/
def signExtend4 (v : BitVec 4) : Int8 := Int8.ofInt (if 8 ≤ v.toNat then (v.toNat : Int) - 16 else v.toNat)

theorem signExtend4_low4 {v : Int8} (h : -8 ≤ v.toInt ∧ v.toInt ≤ 7) : signExtend4 (low4 v) = v := by
  have key : ∀ b : BitVec 8, -8 ≤ b.toInt ∧ b.toInt ≤ 7 → (signExtend4 (b.setWidth 4)).toBitVec = b := by
    decide
  exact Int8.toBitVec_inj.mp (key v.toBitVec h)

theorem low4_signExtend4 : ∀ v : BitVec 4, low4 (signExtend4 v) = v := by decide

theorem signExtend4_range : ∀ v : BitVec 4, -8 ≤ (signExtend4 v).toInt ∧ (signExtend4 v).toInt ≤ 7 := by
  decide

end OrkDriver.Lib
