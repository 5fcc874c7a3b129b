import OrkDriver.I4.Expand
import OrkDriver.Lib.Loops
import OrkDriver.Lib.Neon
import OrkDriver.Lib.Stores

/-!
The tiered CPU formats of `ork_native_cpu.h`: the codes of a weight, and the planes `ork_cpu_pack` lays them out in.
-/

namespace OrkDriver.Cpu

open OrkDriver.Lib OrkDriver.Lib.Neon

/-- `ork_cpu_fmt`. -/
inductive OrkCpuFmt
  | i4
  | nf4
  | i5
  | i6
  | i7
  | i8
  deriving DecidableEq

/-- What the float arithmetic makes of weight `k` of channel `n`: `lrintf(fr[k]*inv)`, and how far its normalised value
is from the level `q` of the codebook; `far` is where the search for the nearest level starts. -/
structure Quantiser (F : Type) where
  rint : Nat → Nat → Int
  dist : Nat → Nat → Nat → F
  far : F
  lt : F → F → Bool

/-- The bit planes and the codes; `nf4Lut` is what `nf4_lut_out` gets. -/
structure Planes where
  nibble : Bytes
  bit4 : Bytes
  bit5 : Bytes
  bit6 : Bytes
  i8 : Bytes
  nf4Lut : Bytes

section

variable {F : Type}

/-- The largest code of a format. -/
def OrkCpuFmt.lim : OrkCpuFmt → Int
  | .i4 => 7
  | .i5 => 15
  | .i6 => 31
  | .i7 => 63
  | _ => 127

/-- `if(c>lim)c=lim; if(c<-lim)c=-lim;` -/
def clampTo (lim c : Int) : Int :=
  let c := if lim < c then lim else c
  if c < -lim then -lim else c

/-- `for(int q=0;q<16;q++){ float a=..; if(a<dl){dl=a;il=q;} }` -/
def nearest (u : Quantiser F) (n k : Nat) : Nat :=
  ((List.range 16).foldl (fun s q => if u.lt (u.dist n k q) s.2 = true then (q, u.dist n k q) else s) (0, u.far)).1

/-- The code that is stored for weight `k` of channel `n`; of NF4 it is an index. -/
def cpuCode (fmt : OrkCpuFmt) (u : Quantiser F) (n k : Nat) : Int :=
  if fmt = .nf4 then nearest u n k else clampTo fmt.lim (u.rint n k)

/-- `(uint8_t)((c0&0xf)|((c1&0xf)<<4))`. -/
def nibblePair (c0 c1 : Int) : BitVec 8 := (BitVec.ofInt 8 c0 &&& 0xf#8) ||| (BitVec.ofInt 8 c1 &&& 0xf#8) <<< 4

/-- `(c>>s)&1` of an `int`. -/
def bitOf (c : Int) (s : Nat) : Bool := (BitVec.ofInt 32 c).getLsbD s

/-! ### The packer -/

/-- Consecutive pairs, channel after channel. -/
def pairStores (K N : Nat) (code : Nat → Nat → Int) : List (Nat × BitVec 8) :=
  (List.range N).flatMap fun n => (List.range (K / 2)).map fun j =>
    (n * (K / 2) + j, nibblePair (code n (2 * j)) (code n (2 * j + 1)))

/-- The lower and the upper half of every 32 weights. -/
def leanStores (K N : Nat) (code : Nat → Nat → Int) : List (Nat × BitVec 8) :=
  (List.range N).flatMap fun n => (List.range (K / 32)).flatMap fun b => (List.range 16).map fun i =>
    (n * (K / 2) + (16 * b + i), nibblePair (code n (32 * b + i)) (code n (32 * b + 16 + i)))

/-- The bits a channel sets in plane `s`, in the order it sets them. -/
def planeBits (K : Nat) (code : Nat → Nat → Int) (s n : Nat) : List (Nat × Nat) :=
  (List.range (K / 32)).flatMap fun b => (List.range 16).flatMap fun i =>
    (if bitOf (code n (32 * b + i)) s = true then [(n * (K / 8) + (4 * b + i / 8), i % 8)] else []) ++
      if bitOf (code n (32 * b + 16 + i)) s = true then [(n * (K / 8) + (4 * b + 2 + i / 8), i % 8)] else []

/-- A channel of plane `s`: cleared, then its bits. -/
def planeChannel (K : Nat) (code : Nat → Nat → Int) (s : Nat) (m : Bytes) (n : Nat) : Bytes :=
  orBits (fun p => if n * (K / 8) ≤ p ∧ p < n * (K / 8) + K / 8 then 0 else m p) (planeBits K code s n)

def packPlane (K N : Nat) (code : Nat → Nat → Int) (s : Nat) (m : Bytes) : Bytes :=
  (List.range N).foldl (planeChannel K code s) m

/-- `ork_cpu_pack` with all the pointers its format uses; the scales are left to the caller. -/
def orkCpuPack (fmt : OrkCpuFmt) (K N : Nat) (u : Quantiser F) (p : Planes) : Int × Planes :=
  if K % 32 ≠ 0 then (-1, p)
  else
    let code := cpuCode fmt u
    (0, match fmt with
      | .i8 => { p with i8 := stores p.i8 ((List.range N).flatMap fun n => (List.range K).map fun k =>
          (n * K + k, BitVec.ofInt 8 (code n k))) }
      | .i4 => { p with nibble := stores p.nibble (pairStores K N code) }
      | .nf4 => { p with
          nibble := stores p.nibble (pairStores K N code)
          nf4Lut := stores p.nf4Lut ((List.range 16).map fun i => (i, (I4.nf4Lut.getD i 0).toBitVec)) }
      | _ => { p with
          nibble := stores p.nibble (leanStores K N code)
          bit4 := packPlane K N code 4 p.bit4
          bit5 := packPlane K N code 5 p.bit5
          bit6 := packPlane K N code 6 p.bit6 })

/-! ### The codes -/

theorem clampTo_range {lim : Int} (h : 0 ≤ lim) (c : Int) : -lim ≤ clampTo lim c ∧ clampTo lim c ≤ lim := by
  unfold clampTo
  dsimp only
  split_ifs <;> omega

theorem lim_nonneg (fmt : OrkCpuFmt) : 0 ≤ fmt.lim := by
  cases fmt <;> decide

theorem cpuCode_range {fmt : OrkCpuFmt} (hf : fmt ≠ .nf4) (u : Quantiser F) (n k : Nat) :
    -fmt.lim ≤ cpuCode fmt u n k ∧ cpuCode fmt u n k ≤ fmt.lim := by
  unfold cpuCode
  rw [if_neg hf]
  exact clampTo_range (lim_nonneg fmt) _

theorem nearest_lt (u : Quantiser F) (n k : Nat) : nearest u n k < 16 := by
  unfold nearest
  have hfold : ∀ (l : List Nat) (s : Nat × F), s.1 < 16 → (∀ q ∈ l, q < 16) →
      (l.foldl (fun s q => if u.lt (u.dist n k q) s.2 = true then (q, u.dist n k q) else s) s).1 < 16 := by
    intro l
    induction l with
    | nil => exact fun s hs _ => hs
    | cons q l ih =>
        intro s hs hl
        refine ih _ ?_ fun x hx => hl x (List.mem_cons_of_mem q hx)
        dsimp only
        split_ifs
        · exact hl q List.mem_cons_self
        · exact hs
  exact hfold _ (0, u.far) (Nat.zero_lt_succ 15) fun q hq => List.mem_range.mp hq

/-! ### The planes -/

theorem pairStores_at {K N : Nat} (code : Nat → Nat → Int) (m : Bytes) {n j : Nat} (hn : n < N) (hj : j < K / 2) :
    stores m (pairStores K N code) (n * (K / 2) + j) = nibblePair (code n (2 * j)) (code n (2 * j + 1)) := by
  unfold pairStores
  refine stores.of_mem ⟨_, List.mem_flatMap.mpr ⟨n, List.mem_range.mpr hn,
    List.mem_map_of_mem (List.mem_range.mpr hj)⟩, rfl⟩ fun w hw heq => ?_
  obtain ⟨n', -, hw⟩ := List.mem_flatMap.mp hw
  obtain ⟨j', hj', rfl⟩ := List.mem_map.mp hw
  obtain ⟨rfl, rfl⟩ := digits_inj (List.mem_range.mp hj') hj heq
  rfl

theorem leanStores_at {K N : Nat} (hK : 32 ∣ K) (code : Nat → Nat → Int) (m : Bytes) {n b i : Nat} (hn : n < N)
    (hb : b < K / 32) (hi : i < 16) : stores m (leanStores K N code) (n * (K / 2) + (16 * b + i)) =
      nibblePair (code n (32 * b + i)) (code n (32 * b + 16 + i)) := by
  have hlt : ∀ {b i : Nat}, b < K / 32 → i < 16 → 16 * b + i < K / 2 := by
    intro b i hb hi
    omega
  unfold leanStores
  refine stores.of_mem ⟨_, List.mem_flatMap.mpr ⟨n, List.mem_range.mpr hn, List.mem_flatMap.mpr ⟨b, List.mem_range.mpr hb,
    List.mem_map_of_mem (List.mem_range.mpr hi)⟩⟩, rfl⟩ fun w hw heq => ?_
  obtain ⟨n', -, hw⟩ := List.mem_flatMap.mp hw
  obtain ⟨b', hb', hw⟩ := List.mem_flatMap.mp hw
  obtain ⟨i', hi', rfl⟩ := List.mem_map.mp hw
  have hi' := List.mem_range.mp hi'
  obtain ⟨rfl, hcell⟩ := digits_inj (hlt (List.mem_range.mp hb') hi') (hlt hb hi) heq
  obtain rfl : b' = b := by omega
  obtain rfl : i' = i := by omega
  rfl

theorem mem_planeBits {K : Nat} {code : Nat → Nat → Int} {s n : Nat} {w : Nat × Nat} : w ∈ planeBits K code s n ↔
    ∃ b < K / 32, ∃ i < 16, (bitOf (code n (32 * b + i)) s = true ∧ w = (n * (K / 8) + (4 * b + i / 8), i % 8)) ∨
      (bitOf (code n (32 * b + 16 + i)) s = true ∧ w = (n * (K / 8) + (4 * b + 2 + i / 8), i % 8)) := by
  unfold planeBits
  simp only [List.mem_flatMap, List.mem_range, List.mem_append, List.mem_ite_nil_right, List.mem_singleton]

theorem packPlane_bit {K N : Nat} (hK : 32 ∣ K) (code : Nat → Nat → Int) (s : Nat) (m : Bytes) {n x j : Nat}
    (hn : n < N) (hx : x < K / 8) (hj : j < 8) : (packPlane K N code s m (n * (K / 8) + x)).getLsbD j =
      decide ((n * (K / 8) + x, j) ∈ planeBits K code s n) := by
  have hown : ∀ n', ∀ w ∈ planeBits K code s n', ∃ y < K / 8, w.1 = n' * (K / 8) + y := by
    intro n' w hw
    obtain ⟨b, hb, i, hi, ⟨-, rfl⟩ | ⟨-, rfl⟩⟩ := mem_planeBits.mp hw
    · exact ⟨4 * b + i / 8, by omega, rfl⟩
    · exact ⟨4 * b + 2 + i / 8, by omega, rfl⟩
  refine Lib.foldl_of_mem (fun m : Bytes => (m (n * (K / 8) + x)).getLsbD j) (T := fun n' => n' = n)
    ⟨n, List.mem_range.mpr hn, rfl⟩ (fun n' _ hself m => ?_) (fun n' _ hne m => ?_) m
  · rw [hself]
    unfold planeChannel
    rw [getLsbD_orBits _ _ hj, if_pos ⟨Nat.le_add_right _ _, Nat.add_lt_add_left hx _⟩]
    simp
  · unfold planeChannel
    rw [orBits_of_ne, if_neg]
    · rintro ⟨hle, hlt⟩
      obtain ⟨y, hy, heq⟩ : ∃ y < K / 8, n' * (K / 8) + y = n * (K / 8) + x :=
        ⟨n * (K / 8) + x - n' * (K / 8), by omega, by omega⟩
      exact hne (digits_inj hy hx heq).1
    · intro w hw heq
      obtain ⟨y, hy, hw⟩ := hown n' w hw
      exact hne (digits_inj hy hx (hw.symm.trans heq)).1

/-- Bit `i%8` of byte `i/8` of a half is the bit of its weight `i`. -/
theorem packPlane_at {K N : Nat} (hK : 32 ∣ K) (code : Nat → Nat → Int) (s : Nat) (m : Bytes) {n b i : Nat} (hn : n < N)
    (hb : b < K / 32) (hi : i < 16) :
    (packPlane K N code s m (n * (K / 8) + (4 * b + i / 8))).getLsbD (i % 8) = bitOf (code n (32 * b + i)) s ∧
      (packPlane K N code s m (n * (K / 8) + (4 * b + 2 + i / 8))).getLsbD (i % 8) =
        bitOf (code n (32 * b + 16 + i)) s := by
  have hmod : i % 8 < 8 := Nat.mod_lt i (by decide)
  rw [packPlane_bit hK code s m hn (by omega) hmod, packPlane_bit hK code s m hn (by omega) hmod]
  have hsame : ∀ {b' i'}, i' < 16 → 4 * b' + i' / 8 = 4 * b + i / 8 → i' % 8 = i % 8 → b' = b ∧ i' = i := by
    intro b' i' hi' hbyte hbit
    omega
  constructor
  · rw [Bool.eq_iff_iff, decide_eq_true_iff, mem_planeBits]
    constructor
    · rintro ⟨b', -, i', hi', ⟨hset, heq⟩ | ⟨-, heq⟩⟩
      · rw [Prod.mk.injEq] at heq
        obtain ⟨rfl, rfl⟩ := @hsame b' i' hi' (by omega) heq.2.symm
        exact hset
      · rw [Prod.mk.injEq] at heq
        omega
    · exact fun hset => ⟨b, hb, i, hi, .inl ⟨hset, rfl⟩⟩
  · rw [Bool.eq_iff_iff, decide_eq_true_iff, mem_planeBits]
    constructor
    · rintro ⟨b', -, i', hi', ⟨-, heq⟩ | ⟨hset, heq⟩⟩
      · rw [Prod.mk.injEq] at heq
        omega
      · rw [Prod.mk.injEq] at heq
        obtain ⟨rfl, rfl⟩ := @hsame b' i' hi' (by omega) heq.2.symm
        exact hset
    · exact fun hset => ⟨b, hb, i, hi, .inr ⟨hset, rfl⟩⟩

end

end OrkDriver.Cpu
