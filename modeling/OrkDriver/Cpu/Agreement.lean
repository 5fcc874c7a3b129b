import OrkDriver.Cpu.Gemv
import Mathlib.Algebra.Order.BigOperators.Group.Finset
import Mathlib.Algebra.Order.Ring.Abs

/-!
What `ork_cpu_pack` stores, every reader reads as the same codes: the kernels, the blocked drivers and the expanders of
the NPU side.
-/

namespace OrkDriver.Cpu

open Finset
open OrkDriver.Lib OrkDriver.Lib.Neon

/-! ### The expanders on vectors -/

/-- `orki_i4_expand_chan_to_i8` where there is NEON: what it stores. -/
def orkiI4ExpandChanToI8 (nib : Bytes) (K : Nat) : List (Nat × BitVec 8) :=
  ((List.range (K / 16)).flatMap fun b =>
    let pk := vld1q nib (8 * b)
    let even := vshrqS (vshlq (vandq pk (vdupq 0x0f)) 4) 4
    let odd := vshrqS (vshlq (vshrqU pk 4) 4) 4
    let zip := vzip even odd
    (List.range 16).map fun i => (16 * b + i, vcombine zip.1 zip.2 i)) ++
  (List.range' (16 * (K / 16)) (K - 16 * (K / 16))).map fun k => (k, (I4.orkiI4ExpandChanToI8 nib k).toBitVec)

/-- `orki_nf4_inflate_chan_to_i8` where there is NEON: what it stores. -/
def orkiNf4InflateChanToI8 (nib : Bytes) (K : Nat) (lut : List Int8) : List (Nat × BitVec 8) :=
  ((List.range (K / 16)).flatMap fun b =>
    let pk := vld1q nib (8 * b)
    let zip := vzip (vandq pk (vdupq 0x0f)) (vshrqU pk 4)
    let codes := vqtbl1q (fun i => (lut.getD i 0).toBitVec) (vcombine zip.1 zip.2)
    (List.range 16).map fun i => (16 * b + i, codes i)) ++
  (List.range' (16 * (K / 16)) (K - 16 * (K / 16))).map fun k => (k, (I4.orkiNf4InflateChanToI8 lut nib k).toBitVec)

theorem interleave_lanes (x y : Bytes) {i : Nat} (hi : i < 16) :
    vcombine (vzip x y).1 (vzip x y).2 i = if i % 2 = 1 then y (i / 2) else x (i / 2) := by
  unfold vcombine vzip
  dsimp only
  by_cases hlow : i < 8
  · rw [if_pos hlow]
    split_ifs <;> first | rfl | omega
  · have hhalf : 4 + (i - 8) / 2 = i / 2 := by omega
    rw [if_neg hlow, hhalf]
    split_ifs <;> first | rfl | omega

theorem chanNibble_lane (nib : Bytes) (b i : Nat) : I4.chanNibble nib (16 * b + i) =
    if i % 2 = 1 then vshrqU (vld1q nib (8 * b)) 4 (i / 2) else vandq (vld1q nib (8 * b)) (vdupq 0x0f) (i / 2) := by
  have hbyte : (16 * b + i) / 2 = 8 * b + i / 2 := by omega
  have hodd : (16 * b + i) % 2 = i % 2 := by omega
  unfold I4.chanNibble
  rw [hbyte, hodd]
  rfl

theorem chanNibble_lt (nib : Bytes) (k : Nat) : (I4.chanNibble nib k).toNat < 16 := by
  rw [I4.chanNibble_eq, BitVec.toNat_setWidth]
  omega

/-- Sixteen at a time and the rest one by one: every code once. -/
theorem expand_blocks {K : Nat} {v : Nat → Nat → BitVec 8} {f : Nat → BitVec 8}
    (h : ∀ b, ∀ i < 16, v b i = f (16 * b + i)) :
    (((List.range (K / 16)).flatMap fun b => (List.range 16).map fun i => (16 * b + i, v b i)) ++
      (List.range' (16 * (K / 16)) (K - 16 * (K / 16))).map fun k => (k, f k)) = (List.range K).map fun k => (k, f k) := by
  have hblock : ∀ b, ((List.range 16).map fun i => (16 * b + i, v b i)) =
      (List.range' (0 + 16 * b) 16).flatMap fun k => [(k, f k)] := by
    intro b
    rw [Nat.zero_add, ← List.map_eq_flatMap, List.range'_eq_map_range, List.map_map]
    apply List.map_congr_left
    intro i hi
    rw [h b i (List.mem_range.mp hi)]
    rfl
  have hall : ((List.range K).map fun k => (k, f k)) = (List.range' 0 K).flatMap fun k => [(k, f k)] := by
    rw [List.range_eq_range', List.map_eq_flatMap]
  rw [hall, ← flatMap_blocks (fun k => [(k, f k)]) 0 16 K, List.flatMap_congr fun b _ => hblock b, List.map_eq_flatMap,
    Nat.zero_add]

theorem orkiI4ExpandChanToI8_eq (nib : Bytes) (K : Nat) : orkiI4ExpandChanToI8 nib K =
    (List.range K).map fun k => (k, (I4.orkiI4ExpandChanToI8 nib k).toBitVec) := by
  apply expand_blocks
  intro b i hi
  unfold I4.orkiI4ExpandChanToI8
  rw [interleave_lanes _ _ hi, chanNibble_lane]
  split_ifs <;> rfl

theorem orkiNf4InflateChanToI8_eq (nib : Bytes) (K : Nat) (lut : List Int8) : orkiNf4InflateChanToI8 nib K lut =
    (List.range K).map fun k => (k, (I4.orkiNf4InflateChanToI8 lut nib k).toBitVec) := by
  apply expand_blocks
  intro b i hi
  have hlane : vcombine (vzip (vandq (vld1q nib (8 * b)) (vdupq 0x0f)) (vshrqU (vld1q nib (8 * b)) 4)).1
      (vzip (vandq (vld1q nib (8 * b)) (vdupq 0x0f)) (vshrqU (vld1q nib (8 * b)) 4)).2 i =
      I4.chanNibble nib (16 * b + i) := by
    rw [interleave_lanes _ _ hi, chanNibble_lane]
  unfold vqtbl1q I4.orkiNf4InflateChanToI8
  rw [hlane, if_pos (chanNibble_lt nib _)]

/-! ### Packed weights -/

section

variable {F : Type}

/-- The int8 code weight `k` of channel `n` stands for. -/
def quantised (fmt : OrkCpuFmt) (u : Quantiser F) (n k : Nat) : Int :=
  if fmt = .nf4 then (I4.nf4Lut.getD (nearest u n k) 0).toInt else cpuCode fmt u n k

/-- The weight on the planes `ork_cpu_pack` leaves. -/
def packed (fmt : OrkCpuFmt) (K N : Nat) (u : Quantiser F) (p : Planes) (bscale : Nat → F) : OrkCpuW F :=
  { (orkCpuPack fmt K N u p).2 with fmt := fmt, bscale := bscale, K := K }

variable {fmt : OrkCpuFmt} {K N n : Nat} {u : Quantiser F} {p : Planes} {bscale : Nat → F}

theorem packed_nibble (hK : 32 ∣ K) (hn : n < N) (hf : fmt = .i4 ∨ fmt = .nf4) : ∀ j < K / 2,
    ptr (packed fmt K N u p bscale).nibble (n * (K / 2)) j =
      nibblePair (cpuCode fmt u n (2 * j)) (cpuCode fmt u n (2 * j + 1)) := by
  intro j hj
  have hmod : ¬ K % 32 ≠ 0 := not_not_intro (Nat.mod_eq_zero_of_dvd hK)
  unfold ptr packed orkCpuPack
  rw [if_neg hmod]
  rcases hf with rfl | rfl <;> exact pairStores_at _ _ hn hj

theorem packed_i8 (hK : 32 ∣ K) (hn : n < N) : ∀ k < K,
    ptr (packed .i8 K N u p bscale).i8 (n * K) k = BitVec.ofInt 8 (cpuCode .i8 u n k) := by
  intro k hk
  have hmod : ¬ K % 32 ≠ 0 := not_not_intro (Nat.mod_eq_zero_of_dvd hK)
  unfold ptr packed orkCpuPack
  rw [if_neg hmod]
  refine stores.of_mem ⟨_, List.mem_flatMap.mpr ⟨n, List.mem_range.mpr hn,
    List.mem_map_of_mem (List.mem_range.mpr hk)⟩, rfl⟩ fun w hw heq => ?_
  obtain ⟨n', -, hw⟩ := List.mem_flatMap.mp hw
  obtain ⟨k', hk', rfl⟩ := List.mem_map.mp hw
  obtain ⟨rfl, rfl⟩ := digits_inj (List.mem_range.mp hk') hk heq
  rfl

/-- The plane of bit `s`. -/
def OrkCpuW.plane (w : OrkCpuW F) (s : Nat) : Bytes := if s = 4 then w.bit4 else if s = 5 then w.bit5 else w.bit6

theorem packed_lean (hK : 32 ∣ K) (hn : n < N) (hf : fmt = .i5 ∨ fmt = .i6 ∨ fmt = .i7) {b i : Nat} (hb : b < K / 32)
    (hi : i < 16) : ptr (packed fmt K N u p bscale).nibble (n * (K / 2)) (16 * b + i) =
      nibblePair (cpuCode fmt u n (32 * b + i)) (cpuCode fmt u n (32 * b + 16 + i)) := by
  have hmod : ¬ K % 32 ≠ 0 := not_not_intro (Nat.mod_eq_zero_of_dvd hK)
  unfold ptr packed orkCpuPack
  rw [if_neg hmod]
  rcases hf with rfl | rfl | rfl <;> exact leanStores_at hK _ _ hn hb hi

theorem packed_plane (hK : 32 ∣ K) (hn : n < N) (hf : fmt = .i5 ∨ fmt = .i6 ∨ fmt = .i7) {s b i : Nat}
    (hs : s = 4 ∨ s = 5 ∨ s = 6) (hb : b < K / 32) (hi : i < 16) :
    (ptr ((packed fmt K N u p bscale).plane s) (n * (K / 8)) (4 * b + i / 8)).getLsbD (i % 8) =
        bitOf (cpuCode fmt u n (32 * b + i)) s ∧
      (ptr ((packed fmt K N u p bscale).plane s) (n * (K / 8)) (4 * b + 2 + i / 8)).getLsbD (i % 8) =
        bitOf (cpuCode fmt u n (32 * b + 16 + i)) s := by
  have hmod : ¬ K % 32 ≠ 0 := not_not_intro (Nat.mod_eq_zero_of_dvd hK)
  unfold ptr OrkCpuW.plane packed orkCpuPack
  rw [if_neg hmod]
  rcases hf with rfl | rfl | rfl <;> rcases hs with rfl | rfl | rfl <;> exact packPlane_at hK _ _ _ hn hb hi

theorem index_range (u : Quantiser F) (n k : Nat) : 0 ≤ cpuCode .nf4 u n k ∧ cpuCode .nf4 u n k < 16 :=
  ⟨Int.natCast_nonneg _, Int.ofNat_lt.mpr (nearest_lt u n k)⟩

theorem packed_lut (hK : 32 ∣ K) {i : Nat} (hi : i < 16) :
    (packed .nf4 K N u p bscale).nf4Lut i = (I4.nf4Lut.getD i 0).toBitVec := by
  have hmod : ¬ K % 32 ≠ 0 := not_not_intro (Nat.mod_eq_zero_of_dvd hK)
  unfold packed orkCpuPack
  rw [if_neg hmod]
  refine stores.of_mem ⟨_, List.mem_map_of_mem (List.mem_range.mpr hi), rfl⟩ fun w hw heq => ?_
  obtain ⟨i', -, rfl⟩ := List.mem_map.mp hw
  obtain rfl : i' = i := heq
  rfl

/-- The bits of a code above its nibble, with the planes they are in, and the shift that extends the sign. -/
def OrkCpuFmt.signBits : OrkCpuFmt → Nat × List (Nat × BitVec 8)
  | .i5 => (3, [(4, 0x10)])
  | .i6 => (2, [(4, 0x10), (5, 0x20)])
  | _ => (1, [(4, 0x10), (5, 0x20), (6, 0x40)])

theorem OrkCpuW.dot_planes (w : OrkCpuW F) (hf : w.fmt = .i5 ∨ w.fmt = .i6 ∨ w.fmt = .i7) (a : Bytes) (n : Nat) :
    w.dot a n = dotPlanes w.fmt.signBits.1 (w.fmt.signBits.2.map fun q => (ptr (w.plane q.1) (n * (w.K / 8)), q.2)) a
      (ptr w.nibble (n * (w.K / 2))) w.K := by
  unfold dot
  rcases hf with h | h | h <;> rw [h] <;> rfl

theorem packed_dot_planes (hK : 32 ∣ K) (hn : n < N) (hf : fmt = .i5 ∨ fmt = .i6 ∨ fmt = .i7)
    (hext : ∀ k, (extend fmt.signBits.1 fmt.signBits.2 (cpuCode fmt u n k)).toInt = cpuCode fmt u n k) (a : Bytes) :
    (packed fmt K N u p bscale).dot a n = dot32 K a (cpuCode fmt u n) := by
  have hplanes : ∀ q ∈ fmt.signBits.2, q.1 = 4 ∨ q.1 = 5 ∨ q.1 = 6 := by
    rcases hf with rfl | rfl | rfl <;> decide
  rw [OrkCpuW.dot_planes _ hf]
  refine @dotPlanes_eq K a (cpuCode fmt u n) hK _ _ _ (fun s => ptr ((packed fmt K N u p bscale).plane s) (n * (K / 8)))
    (fun k _ => hext k) ?_ ?_
  · exact fun b hb i hi => packed_lean hK hn hf hb hi
  · exact fun q hq b hb i hi => packed_plane hK hn hf (hplanes q hq) hb hi


theorem quantised_eq (hf : fmt ≠ .nf4) : quantised fmt u n = cpuCode fmt u n := by
  funext k
  exact if_neg hf

/-- One kernel for each format, all of them the dot product with the codes. -/
theorem packed_dot (hK : 32 ∣ K) (hn : n < N) (a : Bytes) :
    (packed fmt K N u p bscale).dot a n = dot32 K a (quantised fmt u n) := by
  by_cases hf : fmt = .nf4
  · subst hf
    refine (orkDotNf4_eq hK _ (fun k _ => index_range u n k) (packed_nibble hK hn (.inr rfl))).trans ?_
    congr 1
    funext k
    exact congrArg BitVec.toInt (packed_lut hK (nearest_lt u n k))
  · have hrange := cpuCode_range hf u n
    rw [quantised_eq hf]
    cases fmt with
    | i4 =>
        refine orkDotI4_eq hK (fun k _ => ?_) (packed_nibble hK hn (.inl rfl))
        exact ⟨Int.le_trans (by decide) (hrange k).1, (hrange k).2⟩
    | nf4 => exact absurd rfl hf
    | i5 => exact packed_dot_planes hK hn (.inl rfl) (fun k => extend_i5 (hrange k)) a
    | i6 => exact packed_dot_planes hK hn (.inr (.inl rfl)) (fun k => extend_i6 (hrange k)) a
    | i7 => exact packed_dot_planes hK hn (.inr (.inr rfl)) (fun k => extend_i7 (hrange k)) a
    | i8 => exact orkDotI8_eq (Nat.dvd_trans (by decide) hK) (fun k _ => hrange k) (packed_i8 hK hn)

theorem quantised_range (fmt : OrkCpuFmt) (u : Quantiser F) (n k : Nat) :
    -127 ≤ quantised fmt u n k ∧ quantised fmt u n k ≤ 127 := by
  have hlim : fmt.lim ≤ 127 := by cases fmt <;> decide
  have hlut : ∀ i < 16, -127 ≤ (I4.nf4Lut.getD i 0).toInt ∧ (I4.nf4Lut.getD i 0).toInt ≤ 127 := by decide
  unfold quantised
  split_ifs with hf
  · exact hlut _ (nearest_lt u n k)
  · have := cpuCode_range hf u n k
    omega

/-- The lanes do not wrap below 132097 weights. -/
theorem dot_bounds (fmt : OrkCpuFmt) (u : Quantiser F) (a : Bytes) (n : Nat) (hK : K ≤ 132096) :
    -2 ^ 31 ≤ ∑ k ∈ range K, (a k).toInt * quantised fmt u n k ∧
      ∑ k ∈ range K, (a k).toInt * quantised fmt u n k < 2 ^ 31 := by
  have hterm : ∀ k ∈ range K, |(a k).toInt * quantised fmt u n k| ≤ 16256 := by
    intro k _
    have hcode := quantised_range fmt u n k
    have hlo := (a k).le_toInt
    have hhi := (a k).toInt_lt
    rw [abs_mul]
    calc |(a k).toInt| * |quantised fmt u n k| ≤ 128 * 127 := by
          apply mul_le_mul
          · rw [abs_le]; omega
          · rw [abs_le]; omega
          · exact abs_nonneg _
          · decide
      _ = 16256 := by decide
  have hsum := (abs_sum_le_sum_abs _ _).trans (sum_le_sum hterm)
  rw [sum_const, card_range, nsmul_eq_mul, abs_le] at hsum
  omega

theorem toInt_dot32 {a : Bytes} {c : Nat → Int} (hlo : -2 ^ 31 ≤ ∑ k ∈ range K, (a k).toInt * c k)
    (hhi : ∑ k ∈ range K, (a k).toInt * c k < 2 ^ 31) : (dot32 K a c).toInt = ∑ k ∈ range K, (a k).toInt * c k :=
  BitVec.toInt_ofInt_eq_self (by decide) hlo hhi

/-- The expanders see the code of a packed nibble. -/
theorem chanNibble_packed (hK : 32 ∣ K) (hn : n < N) (hf : fmt = .i4 ∨ fmt = .nf4) {k : Nat} (hk : k < K) :
    I4.chanNibble (ptr (packed fmt K N u p bscale).nibble (n * (K / 2))) k =
      (BitVec.ofInt 4 (cpuCode fmt u n k)).setWidth 8 := by
  unfold I4.chanNibble
  rw [packed_nibble hK hn hf _ (by omega)]
  split_ifs with hodd
  · rw [(nibblePair_lanes _ _).2, show 2 * (k / 2) + 1 = k by omega]
  · rw [(nibblePair_lanes _ _).1, show 2 * (k / 2) = k by omega]

theorem expand_packed (hK : 32 ∣ K) (hn : n < N) :
    orkiI4ExpandChanToI8 (ptr (packed .i4 K N u p bscale).nibble (n * (K / 2))) K =
      (List.range K).map fun k => (k, BitVec.ofInt 8 (quantised .i4 u n k)) := by
  rw [orkiI4ExpandChanToI8_eq]
  apply List.map_congr_left
  intro k hk
  have hcode : -8 ≤ cpuCode .i4 u n k ∧ cpuCode .i4 u n k ≤ 7 := by
    have := @cpuCode_range F .i4 nofun u n k
    exact ⟨Int.le_trans (by decide) this.1, this.2⟩
  have hbits : (I4.orkiI4ExpandChanToI8 (ptr (packed .i4 K N u p bscale).nibble (n * (K / 2))) k).toBitVec =
      BitVec.ofInt 8 (cpuCode .i4 u n k) := by
    unfold I4.orkiI4ExpandChanToI8
    rw [chanNibble_packed hK hn (.inl rfl) (List.mem_range.mp hk)]
    exact BitVec.ofInt_toInt.symm.trans (congrArg _ (signed_nibble hcode))
  rw [hbits]
  rfl

theorem inflate_packed (hK : 32 ∣ K) (hn : n < N) :
    orkiNf4InflateChanToI8 (ptr (packed .nf4 K N u p bscale).nibble (n * (K / 2))) K I4.nf4Lut =
      (List.range K).map fun k => (k, BitVec.ofInt 8 (quantised .nf4 u n k)) := by
  rw [orkiNf4InflateChanToI8_eq]
  apply List.map_congr_left
  intro k hk
  unfold I4.orkiNf4InflateChanToI8
  rw [chanNibble_packed hK hn (.inr rfl) (List.mem_range.mp hk), index_nibble (index_range u n k)]
  exact congrArg (Prod.mk k) (BitVec.ofInt_toInt).symm

variable [Mul F]

/-- The kernels, the drivers and the expanders agree on every packed weight. -/
theorem cpu_formats_agree (fmt : OrkCpuFmt) {K : Nat} (hK : 32 ∣ K) (N : Nat) (u : Quantiser F) (p : Planes)
    (bscale : Nat → F) (cast : BitVec 32 → F) :
    (∀ n < N, ∀ a, (packed fmt K N u p bscale).dot a n = dot32 K a (quantised fmt u n) ∧
      (-2 ^ 31 ≤ ∑ k ∈ range K, (a k).toInt * quantised fmt u n k →
        ∑ k ∈ range K, (a k).toInt * quantised fmt u n k < 2 ^ 31 →
        ((packed fmt K N u p bscale).dot a n).toInt = ∑ k ∈ range K, (a k).toInt * quantised fmt u n k) ∧
      (K ≤ 132096 → ((packed fmt K N u p bscale).dot a n).toInt = ∑ k ∈ range K, (a k).toInt * quantised fmt u n k)) ∧
    (∀ (w : OrkCpuW F) A ascale n0 n1, orkCpuGemvM1 cast w A ascale n0 n1 =
      (List.range' n0 (n1 - n0)).map (w.cell cast A ascale)) ∧
    (∀ (w : OrkCpuW F) A lda ascale ldo M n0 n1,
      (w.fmt = .i4 → (orkCpuGemmI4 cast w A lda ascale ldo M n0 n1).Perm (w.gemm cast A lda ascale ldo M n0 n1) ∧
        (n1 ≤ n0 + ldo → ∀ out, stores out (orkCpuGemmI4 cast w A lda ascale ldo M n0 n1) =
          stores out (w.gemm cast A lda ascale ldo M n0 n1))) ∧
      (w.fmt = .nf4 → (orkCpuGemmNf4 cast w A lda ascale ldo M n0 n1).Perm (w.gemm cast A lda ascale ldo M n0 n1) ∧
        (n1 ≤ n0 + ldo → ∀ out, stores out (orkCpuGemmNf4 cast w A lda ascale ldo M n0 n1) =
          stores out (w.gemm cast A lda ascale ldo M n0 n1)))) ∧
    (∀ n < N, orkiI4ExpandChanToI8 (ptr (packed .i4 K N u p bscale).nibble (n * (K / 2))) K =
        (List.range K).map (fun k => (k, BitVec.ofInt 8 (quantised .i4 u n k))) ∧
      orkiNf4InflateChanToI8 (ptr (packed .nf4 K N u p bscale).nibble (n * (K / 2))) K I4.nf4Lut =
        (List.range K).map fun k => (k, BitVec.ofInt 8 (quantised .nf4 u n k))) := by
  refine ⟨fun n hn a => ?_, fun w A ascale n0 n1 => ?_, fun w A lda ascale ldo M n0 n1 => ⟨fun hf => ?_, fun hf => ?_⟩,
    fun n hn => ⟨expand_packed hK hn, inflate_packed hK hn⟩⟩
  · have hdot : (packed fmt K N u p bscale).dot a n = dot32 K a (quantised fmt u n) := packed_dot hK hn a
    rw [hdot]
    refine ⟨rfl, toInt_dot32, fun hle => ?_⟩
    obtain ⟨hlo, hhi⟩ := dot_bounds fmt u a n hle
    exact toInt_dot32 hlo hhi
  · rw [orkCpuGemvM1_eq, List.map_eq_flatMap]
  · have hperm := orkCpuGemmI4_perm cast hf A lda ascale ldo M n0 n1
    exact ⟨hperm, fun h out => stores_gemm cast h hperm out⟩
  · have hperm := orkCpuGemmNf4_perm cast hf A lda ascale ldo M n0 n1
    exact ⟨hperm, fun h out => stores_gemm cast h hperm out⟩

end

/-- Weights that rise by one from -16. -/
def ramp : Quantiser Int := ⟨fun _ k => k - 16, fun _ _ _ => 0, 1, fun x y => decide (x < y)⟩

def blank : Planes := ⟨fun _ => 0, fun _ => 0, fun _ => 0, fun _ => 0, fun _ => 0, fun _ => 0⟩

theorem cpu_formats_agree_ramp : ((packed .i5 32 1 ramp blank fun _ => 1).dot (fun _ => 1) 0).toInt = -15 := by
  refine (((cpu_formats_agree .i5 (by decide) 1 ramp blank (fun _ => 1) BitVec.toInt).1 0 Nat.one_pos
    fun _ => 1).2.2 (by decide)).trans ?_
  decide

/-- The sum of 262144 products 127*127 is not an `int32_t`. -/
theorem cpu_formats_wrap : ¬ ∀ (fmt : OrkCpuFmt) (K N : Nat) (u : Quantiser Int) (p : Planes) (bscale : Nat → Int),
    32 ∣ K → ∀ n < N, ∀ a, ((packed fmt K N u p bscale).dot a n).toInt =
      ∑ k ∈ range K, (a k).toInt * quantised fmt u n k := by
  intro h
  have hsum := h .i8 262144 1 ⟨fun _ _ => 127, fun _ _ _ => 0, 1, fun x y => decide (x < y)⟩ blank (fun _ => 1)
    (by decide) 0 Nat.one_pos fun _ => 127
  rw [packed_dot (by decide) Nat.one_pos] at hsum
  have hterm : ∀ k ∈ range 262144, (127 : BitVec 8).toInt * quantised .i8
      (⟨fun _ _ => 127, fun _ _ _ => 0, 1, fun x y => decide (x < y)⟩ : Quantiser Int) 0 k = 16129 := fun _ _ => rfl
  unfold dot32 at hsum
  rw [sum_congr rfl hterm, sum_const, card_range] at hsum
  exact absurd hsum (by decide)

end OrkDriver.Cpu
