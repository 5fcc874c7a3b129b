import OrkDriver.Cpu.Pack
import Mathlib.Data.Int.Interval

/-!
The dot kernels of `ork_native_cpu.h`: each is the dot product of the activation with the codes, modulo 2^32.
-/

namespace OrkDriver.Cpu

open Finset
open OrkDriver.Lib OrkDriver.Lib.Neon

/-! ### Kernels -/

/-- The sum of the lanes after `n` blocks. -/
def blocks (n : Nat) (step : Words → Nat → Words) : BitVec 32 := vaddvq ((List.range n).foldl step fun _ => 0)

/-- The codes of 16 nibbles with a sign (`ORK_I4X`, `ORK_UNP`). -/
def unpackI4 (pk : Bytes) : Bytes × Bytes :=
  (vshrqS (vshlq (vandq pk (vdupq 0x0f)) 4) 4, vshrqS (vshlq (vshrqU pk 4) 4) 4)

/-- The codes of 16 indices (`ORK_UNP_NF4`). -/
def unpackNf4 (lut pk : Bytes) : Bytes × Bytes := (vqtbl1q lut (vandq pk (vdupq 0x0f)), vqtbl1q lut (vshrqU pk 4))

/-- `ORK_ACC`. -/
def accumulate (ac : Words) (v ar : Bytes × Bytes) : Words := vdotq (vdotq ac v.1 ar.1) v.2 ar.2

/-- `ork_dot_i4`. -/
def orkDotI4 (a b4 : Bytes) (K : Nat) : BitVec 32 :=
  blocks (K / 32) fun ac b => accumulate ac (unpackI4 (vld1q b4 (16 * b))) (vld2q a (32 * b))

/-- `ork_dot_nf4`. -/
def orkDotNf4 (a b4 lut : Bytes) (K : Nat) : BitVec 32 :=
  blocks (K / 32) fun ac b => accumulate ac (unpackNf4 lut (vld1q b4 (16 * b))) (vld2q a (32 * b))

/-- `ORK_CPU_BITSEL`. -/
def bitsel : Bytes := fun i => BitVec.twoPow 8 (i % 8)

/-- `vandq(vtstq(vcombine(vdup(p[km]), vdup(p[km+1])), bsel), c)`. -/
def planeLanes (p : Bytes) (km : Nat) (c : BitVec 8) : Bytes :=
  vandq (vtstq (vcombine (vdupq (p km)) (vdupq (p (km + 1)))) bitsel) (vdupq c)

/-- The kernels with bit planes: nibbles, the planes with the weights of their bits, and the shift that extends the
sign. -/
def dotPlanes (sh : Nat) (planes : List (Bytes × BitVec 8)) (a nb : Bytes) (K : Nat) : BitVec 32 :=
  blocks (K / 32) fun ac b =>
    let pk := vld1q nb (16 * b)
    let lo := planes.foldl (fun v p => vorrq v (planeLanes p.1 (4 * b) p.2)) (vandq pk (vdupq 0x0f))
    let hi := planes.foldl (fun v p => vorrq v (planeLanes p.1 (4 * b + 2) p.2)) (vshrqU pk 4)
    accumulate ac (vshrqS (vshlq lo sh) sh, vshrqS (vshlq hi sh) sh) (vld1q a (32 * b), vld1q a (32 * b + 16))

/-- `ork_dot_i5`. -/
def orkDotI5 (a nb b4p : Bytes) (K : Nat) : BitVec 32 := dotPlanes 3 [(b4p, 0x10)] a nb K

/-- `ork_dot_i6`. -/
def orkDotI6 (a nb b4p b5p : Bytes) (K : Nat) : BitVec 32 := dotPlanes 2 [(b4p, 0x10), (b5p, 0x20)] a nb K

/-- `ork_dot_i7`. -/
def orkDotI7 (a nb b4p b5p b6p : Bytes) (K : Nat) : BitVec 32 :=
  dotPlanes 1 [(b4p, 0x10), (b5p, 0x20), (b6p, 0x40)] a nb K

/-- `ork_dot_i8`. -/
def orkDotI8 (a b : Bytes) (K : Nat) : BitVec 32 :=
  blocks (K / 16) fun ac i => vdotq ac (vld1q b (16 * i)) (vld1q a (16 * i))

/-! ### Sums of lanes -/

/-- The dot product of an activation with codes, as an `int32_t`. -/
def dot32 (K : Nat) (a : Bytes) (c : Nat → Int) : BitVec 32 := BitVec.ofInt 32 (∑ k ∈ range K, (a k).toInt * c k)

theorem vaddvq_zero : vaddvq (fun _ => 0) = 0 := rfl

theorem blocks_eq {n : Nat} {step : Words → Nat → Words} {g : Nat → Int}
    (h : ∀ b < n, ∀ ac, vaddvq (step ac b) = vaddvq ac + BitVec.ofInt 32 (g b)) :
    blocks n step = BitVec.ofInt 32 (∑ b ∈ range n, g b) := by
  unfold blocks
  rw [vaddvq_foldl h, vaddvq_zero]
  exact BitVec.zero_add _

theorem vaddvq_accumulate (ac : Words) (v ar : Bytes × Bytes) : vaddvq (accumulate ac v ar) = vaddvq ac +
    BitVec.ofInt 32 (∑ i ∈ range 16, ((v.1 i).toInt * (ar.1 i).toInt + (v.2 i).toInt * (ar.2 i).toInt)) := by
  unfold accumulate
  rw [vaddvq_vdotq, vaddvq_vdotq, BitVec.add_assoc, ← BitVec.ofInt_add, sum_add_distrib]

/-- A kernel on consecutive pairs whose lanes are the codes. -/
theorem pairs_eq {K : Nat} (hK : 32 ∣ K) {a : Bytes} {c : Nat → Int} {v : Nat → Bytes × Bytes}
    (hv : ∀ b < K / 32, ∀ i < 16, ((v b).1 i).toInt = c (32 * b + 2 * i) ∧ ((v b).2 i).toInt = c (32 * b + (2 * i + 1))) :
    blocks (K / 32) (fun ac b => accumulate ac (v b) (vld2q a (32 * b))) = dot32 K a c := by
  rw [blocks_eq fun b _ ac => vaddvq_accumulate ac (v b) (vld2q a (32 * b))]
  unfold dot32
  congr 1
  have hblock : ∀ b ∈ range (K / 32), ∑ i ∈ range 16, (((v b).1 i).toInt * ((vld2q a (32 * b)).1 i).toInt +
      ((v b).2 i).toInt * ((vld2q a (32 * b)).2 i).toInt) = ∑ j ∈ range 32, (a (32 * b + j)).toInt * c (32 * b + j) := by
    intro b hb
    refine Eq.trans ?_ (sum_pairs (fun j => (a (32 * b + j)).toInt * c (32 * b + j)) 16)
    refine sum_congr rfl fun i hi => ?_
    obtain ⟨h1, h2⟩ := hv b (mem_range.mp hb) i (mem_range.mp hi)
    rw [h1, h2, Int.mul_comm, Int.mul_comm (c (32 * b + (2 * i + 1)))]
    rfl
  rw [sum_congr rfl hblock, sum_blocks (fun k => (a k).toInt * c k), Nat.mul_div_cancel' hK]

/-- A kernel on halves of 32 whose lanes are the codes. -/
theorem halves_eq {K : Nat} (hK : 32 ∣ K) {a : Bytes} {c : Nat → Int} {v : Nat → Bytes × Bytes}
    (hv : ∀ b < K / 32, ∀ i < 16, ((v b).1 i).toInt = c (32 * b + i) ∧ ((v b).2 i).toInt = c (32 * b + 16 + i)) :
    blocks (K / 32) (fun ac b => accumulate ac (v b) (vld1q a (32 * b), vld1q a (32 * b + 16))) = dot32 K a c := by
  rw [blocks_eq fun b _ ac => vaddvq_accumulate ac (v b) (vld1q a (32 * b), vld1q a (32 * b + 16))]
  unfold dot32
  congr 1
  have hblock : ∀ b ∈ range (K / 32), ∑ i ∈ range 16, (((v b).1 i).toInt * (vld1q a (32 * b) i).toInt +
      ((v b).2 i).toInt * (vld1q a (32 * b + 16) i).toInt) = ∑ j ∈ range 32, (a (32 * b + j)).toInt * c (32 * b + j) := by
    intro b hb
    refine Eq.trans ?_ (sum_halves (fun j => (a (32 * b + j)).toInt * c (32 * b + j)) 16)
    refine sum_congr rfl fun i hi => ?_
    obtain ⟨h1, h2⟩ := hv b (mem_range.mp hb) i (mem_range.mp hi)
    rw [h1, h2, Int.mul_comm, Int.mul_comm (c (32 * b + 16 + i)), ← Nat.add_assoc]
    rfl
  rw [sum_congr rfl hblock, sum_blocks (fun k => (a k).toInt * c k), Nat.mul_div_cancel' hK]

/-! ### Lanes -/

theorem ofInt_low (c : Int) : BitVec.ofInt 8 c &&& 0xf#8 = (BitVec.ofInt 4 c).setWidth 8 := by
  have hbyte : BitVec.ofInt 8 c &&& 0xf#8 = ((BitVec.ofInt 8 c).setWidth 4).setWidth 8 := by
    apply BitVec.eq_of_toNat_eq
    simp only [BitVec.toNat_and, BitVec.toNat_setWidth, BitVec.toNat_ofNat]
    exact (Nat.and_two_pow_sub_one_eq_mod _ 4).trans (Nat.mod_eq_of_lt (by omega)).symm
  have hcut : (BitVec.ofInt 8 c).setWidth 4 = BitVec.ofInt 4 c := by
    apply BitVec.eq_of_toNat_eq
    rw [BitVec.toNat_setWidth, BitVec.toNat_ofInt, BitVec.toNat_ofInt]
    omega
  rw [hbyte, hcut]

theorem or_nibbles (v w : BitVec 4) : (v.setWidth 8 ||| w.setWidth 8 <<< 4) &&& 0xf = v.setWidth 8 ∧
    (v.setWidth 8 ||| w.setWidth 8 <<< 4) >>> 4 = w.setWidth 8 := by
  have hmask : ∀ i (h : i < 8), (15#8)[i] = decide (i < 4) := by decide
  constructor
  all_goals
    ext i hi
    by_cases h : i < 4
    · have h8 : 4 + i < 8 := by omega
      simp [hmask, h, h8]
    · have h8 : ¬ 4 + i < 8 := by omega
      simp [hmask, h, h8, BitVec.getLsbD_of_ge _ i (Nat.not_lt.mp h)]

theorem nibblePair_lanes (c0 c1 : Int) : nibblePair c0 c1 &&& 0xf = (BitVec.ofInt 4 c0).setWidth 8 ∧
    nibblePair c0 c1 >>> 4 = (BitVec.ofInt 4 c1).setWidth 8 := by
  unfold nibblePair
  rw [ofInt_low, ofInt_low]
  exact or_nibbles _ _

theorem signed_nibble {c : Int} (h : -8 ≤ c ∧ c ≤ 7) :
    ((((BitVec.ofInt 4 c).setWidth 8) <<< 4).sshiftRight 4).toInt = c := by
  have hall : ∀ c ∈ Icc (-8 : Int) 7, ((((BitVec.ofInt 4 c).setWidth 8) <<< 4).sshiftRight 4).toInt = c := by
    decide
  exact hall c (mem_Icc.mpr h)

theorem index_nibble {c : Int} (h : 0 ≤ c ∧ c < 16) : ((BitVec.ofInt 4 c).setWidth 8).toNat = c.toNat := by
  rw [BitVec.toNat_setWidth, BitVec.toNat_ofInt]
  omega

theorem planeLanes_at (p : Bytes) (km : Nat) (m : BitVec 8) {i : Nat} (hi : i < 16) :
    planeLanes p km m i = if (p (km + i / 8)).getLsbD (i % 8) = true then m else 0 := by
  have hhalf : vcombine (vdupq (p km)) (vdupq (p (km + 1))) i = p (km + i / 8) := by
    unfold vcombine vdupq
    split_ifs with h
    · rw [Nat.div_eq_of_lt h]
      rfl
    · rw [show i / 8 = 1 by omega]
  have hpow : ∀ j < 8, BitVec.twoPow 8 j ≠ 0 := by decide
  have hone : BitVec.twoPow 8 (i % 8) ≠ 0 := hpow _ (Nat.mod_lt i (by decide))
  unfold planeLanes vandq vtstq bitsel
  rw [hhalf, BitVec.and_twoPow]
  by_cases hbit : (p (km + i / 8)).getLsbD (i % 8) = true
  · rw [if_pos hbit, if_neg hone, if_pos hbit]
    exact BitVec.allOnes_and
  · rw [if_neg hbit, if_neg hbit]
    exact BitVec.zero_and

/-- What the shifts make of a nibble and the bits of the planes. -/
def extend (sh : Nat) (ps : List (Nat × BitVec 8)) (c : Int) : BitVec 8 :=
  ((ps.foldl (fun v q => v ||| if bitOf c q.1 = true then q.2 else 0) ((BitVec.ofInt 4 c).setWidth 8)) <<< sh).sshiftRight sh

theorem extend_i5 {c : Int} (h : -15 ≤ c ∧ c ≤ 15) : (extend 3 [(4, 0x10)] c).toInt = c := by
  have hall : ∀ c ∈ Icc (-15 : Int) 15, (extend 3 [(4, 0x10)] c).toInt = c := by decide
  exact hall c (mem_Icc.mpr h)

theorem extend_i6 {c : Int} (h : -31 ≤ c ∧ c ≤ 31) : (extend 2 [(4, 0x10), (5, 0x20)] c).toInt = c := by
  have hall : ∀ c ∈ Icc (-31 : Int) 31, (extend 2 [(4, 0x10), (5, 0x20)] c).toInt = c := by decide
  exact hall c (mem_Icc.mpr h)

theorem extend_i7 {c : Int} (h : -63 ≤ c ∧ c ≤ 63) : (extend 1 [(4, 0x10), (5, 0x20), (6, 0x40)] c).toInt = c := by
  have hall : ∀ c ∈ Icc (-63 : Int) 63, (extend 1 [(4, 0x10), (5, 0x20), (6, 0x40)] c).toInt = c := by decide +kernel
  exact hall c (mem_Icc.mpr h)

theorem signed_byte {c : Int} (h : -127 ≤ c ∧ c ≤ 127) : (BitVec.ofInt 8 c).toInt = c :=
  BitVec.toInt_ofInt_eq_self (by decide) (by omega) (by omega)

/-! ### The kernels on packed channels -/

section

variable {K : Nat} {a : Bytes} {c : Nat → Int}

theorem pair_at {b4 : Bytes} (hb : ∀ j < K / 2, b4 j = nibblePair (c (2 * j)) (c (2 * j + 1))) {b i : Nat}
    (hlt : b < K / 32) (hi : i < 16) :
    vld1q b4 (16 * b) i = nibblePair (c (32 * b + 2 * i)) (c (32 * b + (2 * i + 1))) := by
  unfold vld1q
  rw [hb _ (by omega), show 2 * (16 * b + i) = 32 * b + 2 * i by omega, Nat.add_assoc (32 * b)]

theorem orkDotI4_eq (hK : 32 ∣ K) {b4 : Bytes} (hc : ∀ k < K, -8 ≤ c k ∧ c k ≤ 7)
    (hb : ∀ j < K / 2, b4 j = nibblePair (c (2 * j)) (c (2 * j + 1))) : orkDotI4 a b4 K = dot32 K a c := by
  refine pairs_eq hK fun b hlt i hi => ?_
  unfold unpackI4 vshrqS vshlq vandq vshrqU vdupq
  dsimp only
  rw [pair_at hb hlt hi, (nibblePair_lanes _ _).1, (nibblePair_lanes _ _).2]
  exact ⟨signed_nibble (hc _ (by omega)), signed_nibble (hc _ (by omega))⟩

theorem orkDotNf4_eq (hK : 32 ∣ K) {b4 : Bytes} (lut : Bytes) (hc : ∀ k < K, 0 ≤ c k ∧ c k < 16)
    (hb : ∀ j < K / 2, b4 j = nibblePair (c (2 * j)) (c (2 * j + 1))) :
    orkDotNf4 a b4 lut K = dot32 K a fun k => (lut (c k).toNat).toInt := by
  refine pairs_eq hK fun b hlt i hi => ?_
  unfold unpackNf4 vqtbl1q vandq vshrqU vdupq
  dsimp only
  rw [pair_at hb hlt hi, (nibblePair_lanes _ _).1, (nibblePair_lanes _ _).2, index_nibble (hc _ (by omega)),
    index_nibble (hc _ (by omega))]
  have h0 := hc (32 * b + 2 * i) (by omega)
  have h1 := hc (32 * b + (2 * i + 1)) (by omega)
  rw [if_pos (by omega), if_pos (by omega)]
  exact ⟨rfl, rfl⟩

theorem foldl_planes (plane : Nat → Bytes) (ps : List (Nat × BitVec 8)) (v : Bytes) {km i : Nat} (hi : i < 16) :
    (ps.map fun q => (plane q.1, q.2)).foldl (fun v p => vorrq v (planeLanes p.1 km p.2)) v i =
      ps.foldl (fun v q => v ||| if (plane q.1 (km + i / 8)).getLsbD (i % 8) = true then q.2 else 0) (v i) := by
  induction ps generalizing v with
  | nil => rfl
  | cons q ps ih =>
      have htail := ih (vorrq v (planeLanes (plane q.1) km q.2))
      have hhead : vorrq v (planeLanes (plane q.1) km q.2) i =
          v i ||| if (plane q.1 (km + i / 8)).getLsbD (i % 8) = true then q.2 else 0 :=
        congrArg (v i ||| ·) (planeLanes_at _ km q.2 hi)
      rw [hhead] at htail
      exact htail

theorem foldl_bits {ps : List (Nat × BitVec 8)} {f g : Nat → Bool} (h : ∀ q ∈ ps, f q.1 = g q.1) (v : BitVec 8) :
    ps.foldl (fun v q => v ||| if f q.1 = true then q.2 else 0) v =
      ps.foldl (fun v q => v ||| if g q.1 = true then q.2 else 0) v := by
  apply List.foldl_ext
  intro v q hq
  rw [h q hq]

/-- Nibbles and planes that hold the bits of the codes give the codes back. -/
theorem dotPlanes_eq (hK : 32 ∣ K) {nb : Bytes} {sh : Nat} {ps : List (Nat × BitVec 8)} {plane : Nat → Bytes}
    (hext : ∀ k < K, (extend sh ps (c k)).toInt = c k) (hnb : ∀ b < K / 32, ∀ i < 16, nb (16 * b + i) =
      nibblePair (c (32 * b + i)) (c (32 * b + 16 + i))) (hbits : ∀ q ∈ ps, ∀ b < K / 32, ∀ i < 16,
      (plane q.1 (4 * b + i / 8)).getLsbD (i % 8) = bitOf (c (32 * b + i)) q.1 ∧
        (plane q.1 (4 * b + 2 + i / 8)).getLsbD (i % 8) = bitOf (c (32 * b + 16 + i)) q.1) :
    dotPlanes sh (ps.map fun q => (plane q.1, q.2)) a nb K = dot32 K a c := by
  refine halves_eq hK fun b hlt i hi => ?_
  have hpk : vld1q nb (16 * b) i = nibblePair (c (32 * b + i)) (c (32 * b + 16 + i)) := hnb b hlt i hi
  have hlo : vandq (vld1q nb (16 * b)) (vdupq 0x0f) i = (BitVec.ofInt 4 (c (32 * b + i))).setWidth 8 := by
    unfold vandq vdupq
    rw [hpk]
    exact (nibblePair_lanes _ _).1
  have hhi : vshrqU (vld1q nb (16 * b)) 4 i = (BitVec.ofInt 4 (c (32 * b + 16 + i))).setWidth 8 := by
    unfold vshrqU
    rw [hpk]
    exact (nibblePair_lanes _ _).2
  unfold vshrqS vshlq
  dsimp only
  rw [foldl_planes plane ps _ hi, foldl_planes plane ps _ hi, hlo, hhi,
    foldl_bits (f := fun s => (plane s (4 * b + i / 8)).getLsbD (i % 8)) fun q hq => (hbits q hq b hlt i hi).1,
    foldl_bits (f := fun s => (plane s (4 * b + 2 + i / 8)).getLsbD (i % 8)) fun q hq => (hbits q hq b hlt i hi).2]
  exact ⟨hext _ (by omega), hext _ (by omega)⟩

theorem orkDotI8_eq (hK : 16 ∣ K) {b : Bytes} (hc : ∀ k < K, -127 ≤ c k ∧ c k ≤ 127)
    (hb : ∀ k < K, b k = BitVec.ofInt 8 (c k)) : orkDotI8 a b K = dot32 K a c := by
  unfold orkDotI8
  rw [blocks_eq fun i _ ac => vaddvq_vdotq ac (vld1q b (16 * i)) (vld1q a (16 * i))]
  unfold dot32
  congr 1
  refine Eq.trans ?_ ((sum_blocks (fun k => (a k).toInt * c k) (K / 16) 16).trans (by rw [Nat.mul_div_cancel' hK]))
  refine sum_congr rfl fun x hx => sum_congr rfl fun i hi => ?_
  have hlt : 16 * x + i < K := by
    have hx := mem_range.mp hx
    have hi := mem_range.mp hi
    omega
  unfold vld1q
  rw [hb _ hlt, signed_byte (hc _ hlt), Int.mul_comm]

end

end OrkDriver.Cpu
