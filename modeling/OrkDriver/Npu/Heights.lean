import Mathlib.Algebra.Ring.Nat
import Mathlib.Data.Nat.Log
import OrkDriver.Pack.Header

/-!
How many rows one program may have: the int8 K-reduction schedule, the fp16 bank split (`npu/f16/regcmd.c`) and the chunk
rule of `orki_run`.
-/

namespace OrkDriver.Npu

open OrkDriver.Pack

/-- `ORK_F16_KTILE` and `ORK_F16_MTILE` as `atoi` reads them, 0 if unset. -/
structure F16Knobs where
  ktile : Int
  mtile : Int

/-- `orki_f16_ks`. -/
def F16Knobs.ks (e : F16Knobs) : Nat :=
  let kt := if e.ktile ≠ 0 ∧ (e.ktile < 32 ∨ e.ktile % 32 ≠ 0) then 0 else e.ktile
  if 0 < kt then kt.toNat else 1024

theorem F16Knobs.ks_spec (e : F16Knobs) : 0 < e.ks ∧ 32 ∣ e.ks := by
  unfold ks
  by_cases h : e.ktile ≠ 0 ∧ (e.ktile < 32 ∨ e.ktile % 32 ≠ 0)
  · simp only [if_pos h]
    decide
  · simp only [if_neg h]
    split <;> omega

/-- `while(rp2*2<=R)rp2*=2`. -/
def pow2Floor (R : Nat) : Nat := 2 ^ Nat.log 2 R

/-- `(int)(177.0-15.0*(scale-1.0))` with `scale = K/unit`; the doubles are exact. -/
def schedBase (unit K : Nat) : Int := ((192 * unit : Int) - 15 * K).tdiv unit

/-- `(int)(15.0*scale)`. -/
def schedSlope (unit K : Nat) : Int := 15 * K / unit

/-- `orki_mtile_cap`, before its floor of 1: `mg_max * 64`. -/
def mgMaxRows (K : Nat) : Nat :=
  if 0x1b ≤ schedBase 512 K then ((schedBase 512 K - 0x1b).tdiv (schedSlope 512 K) + 1).toNat * 64 else 0

def orkiMtileCap (K : Nat) : Nat := if mgMaxRows K < 1 then 1 else mgMaxRows K

/-- `orki_f16_sched`. -/
def orkiF16Sched (K : Nat) : Bool := K &&& (K - 1) = 0 ∧ 128 ≤ K ∧ K < 2048

/-- `orki_f16_mcap`. -/
def orkiF16Mcap (e : F16Knobs) (K : Nat) (sched : Bool) : Nat :=
  let cap := if K < 1 then 1
    else if !sched then 16384 / K
    else if K = 128 then 256
    else if K = 256 ∨ K = 512 ∨ K = 1024 then 180224 / K
    else 16384 / K
  let cap := if 0 < e.mtile then e.mtile.toNat else cap
  if cap < 1 then 1 else cap

/-- `f16_bank_split`: data banks and weight banks. -/
def f16BankSplit (K mc : Nat) (sched : Bool) : Nat × Nat :=
  let v : Int := if sched then
      let mg := if (mc + 63) / 64 < 1 then 1 else (mc + 63) / 64
      let v := schedBase 256 K - schedSlope 256 K * (mg - 1 : Nat)
      if v < 0x1b then 0x1b else v
    else 0xb1
  (v.toNat % 16, v.toNat / 16 % 16)

/-- `orki_f16_mc_ok`. -/
def orkiF16McOk (K N : Nat) (sched : Bool) (mc : Nat) : Bool :=
  if mc < 1 ∨ K < 1 ∨ N < 1 then false
  else
    let b := f16BankSplit K mc sched
    let dreq := (mc * K * 2 + 32767) / 32768
    let wreq := (K * N * 2 + 32767) / 32768
    let wuse := if wreq < b.2 then wreq else b.2
    decide (dreq ≤ b.1 ∧ b.1 + wuse ≤ 12)

/-- `f16_mcap_narrown`. -/
def f16McapNarrown (e : F16Knobs) (K : Nat) (sched : Bool) (N : Nat) : Nat :=
  let cap := orkiF16Mcap e K sched
  if !sched || decide (K < 1 ∨ N < 1) then cap
  else if 4 * 32768 < K * N * 2 then cap
  else if schedSlope 256 K < 1 then cap
  else
    let mgmax := ((List.range 16).takeWhile fun i => decide (0x20 ≤ schedBase 256 K - schedSlope 256 K * i)).length
    if mgmax < 1 then cap
    else if mgmax * 64 < cap then mgmax * 64 else cap

/-- `while(cap>1 && !ok(cap)) cap--`. -/
def lowerTo (ok : Nat → Bool) : Nat → Nat
  | cap + 2 => if ok (cap + 2) then cap + 2 else lowerTo ok (cap + 1)
  | cap => cap

/-- `orki_f16_mcap_n`. -/
def orkiF16McapN (e : F16Knobs) (K : Nat) (sched : Bool) (N : Nat) : Nat :=
  lowerTo (orkiF16McOk K N sched) (f16McapNarrown e K sched N)

/-- `orki_f16_mcpad`. -/
def orkiF16Mcpad (K N : Nat) (sched : Bool) (mc cap : Nat) : Nat :=
  ((List.range' mc (cap + 1 - mc)).find? (orkiF16McOk K N sched)).getD 0

/-- The schedule flag of a slice in `orki_run`. -/
def runSched (dt : Dt) (Kp : Nat) : Bool := if dt = .f16 then orkiF16Sched Kp else Kp = 1024 ∨ Kp = 512

/-- `orki_run_loop_chunk`. -/
def orkiRunLoopChunk (e : F16Knobs) (dt : Dt) (Kp Nc RB : Nat) : Nat :=
  if Kp < 1 then 1
  else
    let sched := runSched dt Kp
    let R := pow2Floor (if RB / Kp < 1 then 1 else RB / Kp)
    let chunk := if sched then 4 * R else RB / 2 / Kp
    let chunk := if chunk < 1 then 1 else chunk
    let chunk := if dt = .f16 then orkiF16McapN e Kp sched Nc else chunk
    let chunk := if sched then chunk
      else
        let cap := if 32768 / Kp < 1 then 1 else 32768 / Kp
        if cap < chunk then cap else chunk
    if chunk < 1 then 1 else chunk

theorem raised_pos (x : Nat) : 0 < if x < 1 then 1 else x := by
  split <;> omega

theorem orkiRunLoopChunk_pos (e : F16Knobs) (dt : Dt) (Kp Nc RB : Nat) : 0 < orkiRunLoopChunk e dt Kp Nc RB := by
  unfold orkiRunLoopChunk
  split
  · exact Nat.one_pos
  · exact raised_pos _

/-! ### Padding a short tile -/

theorem lowerTo_of_ok {ok : Nat → Bool} {cap : Nat} (h : ok (cap + 2) = true) : lowerTo ok (cap + 2) = cap + 2 :=
  if_pos h

theorem lowerTo_of_not {ok : Nat → Bool} {cap : Nat} (h : ¬ ok (cap + 2) = true) :
    lowerTo ok (cap + 2) = lowerTo ok (cap + 1) :=
  if_neg h

/-- Nothing below 2 is lowered. -/
theorem lowerTo_of_small {ok : Nat → Bool} {cap : Nat} (h : ∀ n, cap = n + 2 → False) : lowerTo ok cap = cap := by
  cases cap with
  | zero => rfl
  | succ cap =>
      cases cap with
      | zero => rfl
      | succ cap => exact absurd rfl (h cap)

theorem lowerTo_le (ok : Nat → Bool) (cap : Nat) : lowerTo ok cap ≤ cap := by
  induction cap using lowerTo.induct ok with
  | case1 cap h => rw [lowerTo_of_ok h]
  | case2 cap h ih =>
      rw [lowerTo_of_not h]
      exact Nat.le_succ_of_le ih
  | case3 cap h => rw [lowerTo_of_small h]

theorem lowerTo_ok (ok : Nat → Bool) (cap : Nat) : ok (lowerTo ok cap) = true ∨ lowerTo ok cap ≤ 1 := by
  induction cap using lowerTo.induct ok with
  | case1 cap h => exact .inl (by rw [lowerTo_of_ok h]; exact h)
  | case2 cap h ih =>
      rw [lowerTo_of_not h]
      exact ih
  | case3 cap h =>
      right
      rw [lowerTo_of_small h]
      exact not_lt.mp fun hlt => h (cap - 2) (Nat.sub_add_cancel hlt).symm

/-- Lowering stops at or above every legal height. -/
theorem le_lowerTo {ok : Nat → Bool} {cap t : Nat} (hok : ok t = true) (h : t ≤ cap) : t ≤ lowerTo ok cap := by
  induction cap using lowerTo.induct ok with
  | case1 cap hcap => rw [lowerTo_of_ok hcap]; exact h
  | case2 cap hcap ih =>
      rw [lowerTo_of_not hcap]
      have hne : t ≠ cap + 2 := by
        rintro rfl
        exact hcap hok
      exact ih (by omega)
  | case3 cap hcap => rw [lowerTo_of_small hcap]; exact h

theorem lowerTo_pos {ok : Nat → Bool} {cap : Nat} (h : 0 < cap) : 0 < lowerTo ok cap := by
  induction cap using lowerTo.induct ok with
  | case1 cap hok => rw [lowerTo_of_ok hok]; exact h
  | case2 cap hok ih =>
      rw [lowerTo_of_not hok]
      exact ih (Nat.succ_pos cap)
  | case3 cap hcap => rw [lowerTo_of_small hcap]; exact h

/-- Lowering ends at a legal height if there is one. -/
theorem ok_lowerTo_iff {ok : Nat → Bool} {cap : Nat} (h : 0 < cap) :
    ok (lowerTo ok cap) = true ↔ ∃ t, 0 < t ∧ t ≤ cap ∧ ok t = true := by
  constructor
  · intro hok
    exact ⟨_, lowerTo_pos h, lowerTo_le ok cap, hok⟩
  · rintro ⟨t, ht, hle, hok⟩
    induction cap using lowerTo.induct ok with
    | case1 cap hcap => rw [lowerTo_of_ok hcap]; exact hcap
    | case2 cap hcap ih =>
        rw [lowerTo_of_not hcap]
        have hne : t ≠ cap + 2 := by
          rintro rfl
          exact hcap hok
        exact ih (Nat.succ_pos cap) (by omega)
    | case3 cap hcap =>
        have hone : cap = 1 := by
          cases cap with
          | zero => exact absurd h (Nat.lt_irrefl 0)
          | succ cap =>
              cases cap with
              | zero => rfl
              | succ cap => exact absurd rfl (hcap cap)
        subst hone
        obtain rfl : t = 1 := Nat.le_antisymm hle ht
        exact hok

/-- The padded height is 0 exactly if no height from `mc` to `cap` is legal; otherwise it is such a height. -/
theorem orkiF16Mcpad_spec {K N : Nat} {sched : Bool} {mc cap : Nat} (h0 : 0 < mc) :
    (orkiF16Mcpad K N sched mc cap = 0 ↔ ∀ t, mc ≤ t → t ≤ cap → orkiF16McOk K N sched t = false) ∧
    (orkiF16Mcpad K N sched mc cap ≠ 0 →
      mc ≤ orkiF16Mcpad K N sched mc cap ∧ orkiF16Mcpad K N sched mc cap ≤ cap) := by
  unfold orkiF16Mcpad
  cases hf : (List.range' mc (cap + 1 - mc)).find? (orkiF16McOk K N sched) with
  | none =>
      rw [List.find?_eq_none] at hf
      refine ⟨iff_of_true rfl fun t hle hcap => ?_, fun h => absurd rfl h⟩
      have := hf t (List.mem_range'_1.mpr ⟨hle, by omega⟩)
      simpa using this
  | some t =>
      have hmem := List.mem_range'_1.mp (List.mem_of_find?_eq_some hf)
      have hok := List.find?_some hf
      rw [Option.getD_some]
      refine ⟨iff_of_false (by omega) fun h => ?_, fun _ => ⟨hmem.1, by omega⟩⟩
      rw [h t hmem.1 (by omega)] at hok
      exact Bool.false_ne_true hok

theorem orkiF16Mcap_pos (e : F16Knobs) (K : Nat) (sched : Bool) : 0 < orkiF16Mcap e K sched := raised_pos _

theorem f16McapNarrown_pos (e : F16Knobs) (K : Nat) (sched : Bool) (N : Nat) : 0 < f16McapNarrown e K sched N := by
  have := orkiF16Mcap_pos e K sched
  unfold f16McapNarrown
  dsimp only
  repeat' split
  all_goals omega

theorem orkiF16Sched_cases {K : Nat} (h : orkiF16Sched K = true) : K = 128 ∨ K = 256 ∨ K = 512 ∨ K = 1024 := by
  obtain ⟨hand, hle, hlt⟩ := of_decide_eq_true h
  obtain ⟨m, rfl⟩ := (Nat.and_sub_one_eq_zero_iff_isPowerOfTwo (by omega)).mp hand
  have hlo : 6 < m := (Nat.pow_lt_pow_iff_right (a := 2) (by decide)).mp (by omega)
  have hhi : m < 11 := (Nat.pow_lt_pow_iff_right (a := 2) (by decide)).mp (by omega)
  obtain rfl | rfl | rfl | rfl : m = 7 ∨ m = 8 ∨ m = 9 ∨ m = 10 := by omega
  all_goals decide

/-- With `ORK_F16_MTILE` unset every slice has a legal height: 128 rows for `K = 128`, one row otherwise. -/
theorem exists_height {e : F16Knobs} (he : e.mtile ≤ 0) {K N : Nat} (hK : 0 < K) (hmax : K ≤ 16384) (hN : 0 < N) :
    ∃ t, 0 < t ∧ t ≤ f16McapNarrown e K (orkiF16Sched K) N ∧ orkiF16McOk K N (orkiF16Sched K) t = true := by
  have hok : ∀ t b, 0 < t → f16BankSplit K t (orkiF16Sched K) = b → (t * K * 2 + 32767) / 32768 ≤ b.1 → b.1 + b.2 ≤ 12 →
      orkiF16McOk K N (orkiF16Sched K) t = true := by
    intro t b ht hb hd hsum
    unfold orkiF16McOk
    rw [if_neg (by omega)]
    simp only [hb]
    refine decide_eq_true ⟨hd, ?_⟩
    split <;> omega
  have hone : f16BankSplit K 1 (orkiF16Sched K) = (1, 11) ∨ f16BankSplit K 1 (orkiF16Sched K) = (2, 10) ∨
      f16BankSplit K 1 (orkiF16Sched K) = (4, 8) ∨ K = 128 := by
    cases hs : orkiF16Sched K with
    | true => rcases orkiF16Sched_cases hs with rfl | rfl | rfl | rfl <;> decide
    | false => exact .inl (by simp [f16BankSplit])
  rcases hone with hb | hb | hb | rfl
  · exact ⟨1, Nat.one_pos, f16McapNarrown_pos _ _ _ _, hok 1 _ Nat.one_pos hb (by dsimp only; omega) (by decide)⟩
  · exact ⟨1, Nat.one_pos, f16McapNarrown_pos _ _ _ _, hok 1 _ Nat.one_pos hb (by dsimp only; omega) (by decide)⟩
  · exact ⟨1, Nat.one_pos, f16McapNarrown_pos _ _ _ _, hok 1 _ Nat.one_pos hb (by dsimp only; omega) (by decide)⟩
  · refine ⟨128, by decide, ?_, hok 128 (1, 11) (by decide) (by decide) (by decide) (by decide)⟩
    have hs : orkiF16Sched 128 = true := by decide
    have hcap : orkiF16Mcap e 128 true = 256 := by
      simp only [orkiF16Mcap, if_neg (Int.not_lt.mpr he)]
      decide
    unfold f16McapNarrown
    rw [hs, hcap]
    have hmg : ((List.range 16).takeWhile fun i =>
        decide ((0x20 : Int) ≤ schedBase 256 128 - schedSlope 256 128 * i)).length = 16 := by decide
    dsimp only
    rw [hmg]
    repeat' split
    all_goals omega

/-- Without the K-reduction schedule there is one data bank. -/
theorem orkiF16McOk_general {K N mc : Nat} (h : orkiF16McOk K N false mc = true) : mc * K * 2 ≤ 32768 := by
  unfold orkiF16McOk at h
  split at h
  · cases h
  · have hd := (of_decide_eq_true h).1
    have hbank : (f16BankSplit K mc false).1 = 1 := by simp [f16BankSplit]
    rw [hbank] at hd
    omega

/-- The chunk rule of `orki_run` for fp16 is the N-aware cap: its last clamp never bites. -/
theorem orkiRunLoopChunk_f16 (e : F16Knobs) {Kp : Nat} (Nc RB : Nat) (h : 0 < Kp) :
    orkiRunLoopChunk e .f16 Kp Nc RB = orkiF16McapN e Kp (orkiF16Sched Kp) Nc := by
  have hpos : 0 < orkiF16McapN e Kp (orkiF16Sched Kp) Nc := lowerTo_pos (f16McapNarrown_pos e Kp _ Nc)
  have hclamp : orkiF16Sched Kp = false → orkiF16McapN e Kp (orkiF16Sched Kp) Nc ≤ 32768 / Kp ∨
      orkiF16McapN e Kp (orkiF16Sched Kp) Nc ≤ 1 := by
    intro hs
    rcases lowerTo_ok (orkiF16McOk Kp Nc (orkiF16Sched Kp)) (f16McapNarrown e Kp (orkiF16Sched Kp) Nc) with hok | hle
    · left
      rw [hs] at hok
      rw [Nat.le_div_iff_mul_le h]
      have := orkiF16McOk_general hok
      rw [hs]
      unfold orkiF16McapN
      omega
    · exact .inr hle
  unfold orkiRunLoopChunk
  rw [if_neg (by omega)]
  simp only [runSched, if_true]
  cases hs : orkiF16Sched Kp with
  | true => rw [if_pos rfl, if_neg (by rw [hs] at hpos; omega)]
  | false =>
      have := hclamp hs
      rw [hs] at this hpos
      simp only [Bool.false_eq_true, if_false]
      repeat' split
      all_goals omega

end OrkDriver.Npu
