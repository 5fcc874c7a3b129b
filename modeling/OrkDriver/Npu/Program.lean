import Mathlib.Tactic.Ring
import OrkDriver.Lib.Block
import OrkDriver.Lib.Dot

/-!
Weight tiles as the NPU reads them, and what one matmul program does. The elements are those of a semiring: the int32
accumulators for int8, exact numbers for fp16.
-/

namespace OrkDriver.Npu

open OrkDriver.Lib

variable {R : Type*}

/-- Place of element `(k, n)` in a tile of `Kp` rows: blocks of 32 rows and `nb` columns, block column by block column,
each block column by column. -/
def wIndex (nb Kp k n : Nat) : Nat := (n / nb * (Kp / 32) + k / 32) * (nb * 32) + (n % nb * 32 + k % 32)

/-- `orki_i8_tile_range` over all `NN` block columns. -/
def i8TileRange (NN KT k0 n0 N : Nat) (B : Nat → R) : List (Nat × R) :=
  (List.range NN).flatMap fun nt => (List.range KT).flatMap fun kt => (List.range 32).flatMap fun nl =>
    (List.range 32).map fun kk =>
      (nt * KT * 1024 + kt * 1024 + nl * 32 + kk, B ((k0 + kt * 32 + kk) * N + (n0 + nt * 32 + nl)))

/-- `f16_tile_range` over all `NN` block columns. -/
def f16TileRange (NN KT k0 n0 N : Nat) (B : Nat → R) : List (Nat × R) :=
  (List.range NN).flatMap fun nt => (List.range KT).flatMap fun kt => (List.range 32).flatMap fun kk =>
    (List.range 16).map fun nl =>
      (nt * KT * 16 * 32 + kt * 16 * 32 + (nl * 32 + kk), B ((k0 + kt * 32 + kk) * N + n0 + nt * 16 + nl))

/-- The stores of a tiler, in any order: one for each block `(nt, kt)` and place `(nl, kk)` in it. -/
def TileStores (nb NN KT k0 n0 N : Nat) (B : Nat → R) (l : List (Nat × R)) : Prop :=
  ∀ w, w ∈ l ↔ ∃ nt kt nl kk, nt < NN ∧ kt < KT ∧ nl < nb ∧ kk < 32 ∧
    w = ((nt * KT + kt) * (nb * 32) + (nl * 32 + kk), B ((k0 + (kt * 32 + kk)) * N + (n0 + (nt * nb + nl))))

theorem i8TileRange_stores (NN KT k0 n0 N : Nat) (B : Nat → R) :
    TileStores 32 NN KT k0 n0 N B (i8TileRange NN KT k0 n0 N B) := by
  intro w
  simp only [i8TileRange, List.mem_flatMap, List.mem_map, List.mem_range]
  have hidx : ∀ nt kt nl kk : Nat, nt * KT * 1024 + kt * 1024 + nl * 32 + kk =
      (nt * KT + kt) * (32 * 32) + (nl * 32 + kk) := fun nt kt nl kk => by rw [Nat.add_mul, Nat.add_assoc]
  constructor
  · rintro ⟨nt, hnt, kt, hkt, nl, hnl, kk, hkk, rfl⟩
    exact ⟨nt, kt, nl, kk, hnt, hkt, hnl, hkk, by rw [hidx, Nat.add_assoc k0, Nat.add_assoc n0]⟩
  · rintro ⟨nt, kt, nl, kk, hnt, hkt, hnl, hkk, rfl⟩
    exact ⟨nt, hnt, kt, hkt, nl, hnl, kk, hkk, by rw [hidx, Nat.add_assoc k0, Nat.add_assoc n0]⟩

theorem f16TileRange_stores (NN KT k0 n0 N : Nat) (B : Nat → R) :
    TileStores 16 NN KT k0 n0 N B (f16TileRange NN KT k0 n0 N B) := by
  intro w
  simp only [f16TileRange, List.mem_flatMap, List.mem_map, List.mem_range]
  have hidx : ∀ nt kt nl kk : Nat, nt * KT * 16 * 32 + kt * 16 * 32 + (nl * 32 + kk) =
      (nt * KT + kt) * (16 * 32) + (nl * 32 + kk) := fun nt kt nl kk => by
    rw [Nat.add_mul, Nat.mul_assoc (nt * KT), Nat.mul_assoc kt]
  have hel : ∀ nt kt nl kk : Nat, (k0 + kt * 32 + kk) * N + n0 + nt * 16 + nl =
      (k0 + (kt * 32 + kk)) * N + (n0 + (nt * 16 + nl)) := fun nt kt nl kk => by
    rw [Nat.add_assoc k0, Nat.add_assoc _ n0, Nat.add_assoc _ (n0 + _), Nat.add_assoc n0]
  constructor
  · rintro ⟨nt, hnt, kt, hkt, kk, hkk, nl, hnl, rfl⟩
    exact ⟨nt, kt, nl, kk, hnt, hkt, hnl, hkk, by rw [hidx, hel]⟩
  · rintro ⟨nt, kt, nl, kk, hnt, hkt, hnl, hkk, rfl⟩
    exact ⟨nt, hnt, kt, hkt, kk, hkk, nl, hnl, by rw [hidx, hel]⟩

/-- After the stores of a tiler the tile holds the block of `B` at `(k0, n0)`. -/
theorem TileStores.holds {nb NN KT k0 n0 N : Nat} {B : Nat → R} {l : List (Nat × R)}
    (h : TileStores nb NN KT k0 n0 N B l) (hnb : 0 < nb) (m : Nat → R) {k n : Nat} (hk : k < KT * 32)
    (hn : n < NN * nb) : stores m l (wIndex nb (KT * 32) k n) = B ((k0 + k) * N + (n0 + n)) := by
  have hK := Nat.div_add_mod' k 32
  have hN := Nat.div_add_mod' n nb
  have hKT : KT * 32 / 32 = KT := Nat.mul_div_cancel KT (by decide)
  have hkk : k % 32 < 32 := Nat.mod_lt _ (by decide)
  have hnl : n % nb < nb := Nat.mod_lt _ hnb
  have hin : n % nb * 32 + k % 32 < nb * 32 := digits_lt hnl hkk
  refine stores.of_mem ⟨_, (h _).mpr ⟨n / nb, k / 32, n % nb, k % 32, Nat.div_lt_of_lt_mul (by rwa [Nat.mul_comm]),
    by omega, hnl, hkk, rfl⟩, by rw [wIndex, hKT]⟩ fun w hw hidx => ?_
  obtain ⟨nt, kt, nl, kk, hnt, hkt, hnl', hkk', rfl⟩ := (h w).mp hw
  have hin' : nl * 32 + kk < nb * 32 := digits_lt hnl' hkk'
  rw [wIndex, hKT] at hidx
  obtain ⟨hblock, hplace⟩ := digits_inj hin' hin hidx
  obtain ⟨rfl, rfl⟩ := digits_inj hkt (by omega) hblock
  obtain ⟨rfl, rfl⟩ := digits_inj hkk' hkk hplace
  dsimp only
  rw [hK, hN]

/-- A column block that starts at a block boundary is a tile of its own, further on in the same memory. -/
theorem wIndex_add {nb n0 : Nat} (hnb : 0 < nb) (h : nb ∣ n0) (Kp k n : Nat) :
    wIndex nb Kp k (n0 + n) = n0 / nb * (Kp / 32) * (nb * 32) + wIndex nb Kp k n := by
  obtain ⟨q, rfl⟩ := h
  have hdiv : (nb * q + n) / nb = q + n / nb := Nat.mul_add_div hnb q n
  have hmod : (nb * q + n) % nb = n % nb := Nat.mul_add_mod nb q n
  rw [wIndex, wIndex, hdiv, hmod, Nat.mul_div_cancel_left q hnb]
  ring

theorem wIndex_lt {nb Kp Nc k n : Nat} (hnb : 0 < nb) (hK : 32 ∣ Kp) (hN : nb ∣ Nc) (hk : k < Kp) (hn : n < Nc) :
    wIndex nb Kp k n < Kp * Nc := by
  obtain ⟨a, rfl⟩ := hK
  obtain ⟨b, rfl⟩ := hN
  have hplace : n % nb * 32 + k % 32 < nb * 32 := digits_lt (Nat.mod_lt _ hnb) (Nat.mod_lt _ (by decide))
  have hblock : n / nb * a + k / 32 < b * a :=
    digits_lt (Nat.div_lt_of_lt_mul hn) (Nat.div_lt_of_lt_mul hk)
  calc wIndex nb (32 * a) k n = (n / nb * a + k / 32) * (nb * 32) + (n % nb * 32 + k % 32) := by
        rw [wIndex, Nat.mul_div_cancel_left a (by decide)]
    _ < b * a * (nb * 32) := digits_lt hblock hplace
    _ = 32 * a * (nb * b) := by ring

theorem wIndex_inj {nb Kp k n k' n' : Nat} (hnb : 0 < nb) (hK : 32 ∣ Kp) (hk : k < Kp) (hk' : k' < Kp)
    (h : wIndex nb Kp k n = wIndex nb Kp k' n') : k = k' ∧ n = n' := by
  have hplace : ∀ k n : Nat, n % nb * 32 + k % 32 < nb * 32 :=
    fun k n => digits_lt (Nat.mod_lt _ hnb) (Nat.mod_lt _ (by decide))
  obtain ⟨hblock, hin⟩ := digits_inj (hplace k n) (hplace k' n') h
  obtain ⟨hn, hrow⟩ := digits_inj (by omega) (by omega) hblock
  obtain ⟨hnl, hkk⟩ := digits_inj (Nat.mod_lt _ (by decide)) (Nat.mod_lt _ (by decide)) hin
  refine ⟨by omega, ?_⟩
  rw [← Nat.div_add_mod n nb, ← Nat.div_add_mod n' nb, hn, hnl]

/-! ### Programs -/

/-- What the registers of a matmul program describe: `mc` rows of `Kp` activations from `a` on, a weight tile of `Kp`
rows and `Nc` columns from `w` on, and `mc` rows of results from `c` on, `stride` apart. -/
structure Program where
  mc : Nat
  Kp : Nat
  Nc : Nat
  a : Nat
  w : Nat
  c : Nat
  stride : Nat
  deriving DecidableEq

/-- The arguments of `orki_i8_synth`; stride 0 is the row length. -/
def orkiI8Synth (mc K N aA aB aC stride : Nat) : Program := ⟨mc, K, N, aA, aB, aC, if 0 < stride then stride else N⟩

/-- The arguments of `orki_f16_synth`. -/
def orkiF16Synth (mc K N aA aB aC : Nat) : Program := ⟨mc, K, N, aA, aB, aC, N⟩

namespace Program

variable [NonUnitalNonAssocSemiring R]

/-- The partial product in row `r` and column `n`. -/
def value (nb : Nat) (p : Program) (A W : Nat → R) (r n : Nat) : R :=
  dot p.Kp (fun k => A (p.a + r * p.Kp + k)) fun k => W (p.w + wIndex nb p.Kp k n)

def outputs (nb : Nat) (p : Program) (A W : Nat → R) : List (Nat × R) :=
  block p.c p.stride p.mc p.Nc (p.value nb A W)

/-- The output memory after the program has run. -/
def run (nb : Nat) (p : Program) (A W C : Nat → R) : Nat → R := stores C (p.outputs nb A W)

/-- Everything the registers describe lies within `a` activations, `w` weights and `c` results. -/
def Inside (p : Program) (a w c : Nat) : Prop :=
  p.a + p.mc * p.Kp ≤ a ∧ p.w + p.Kp * p.Nc ≤ w ∧ p.c + (p.mc - 1) * p.stride + p.Nc ≤ c

variable {nb : Nat} {p : Program} {A W : Nat → R}

variable (nb) in
theorem run_cell (h : p.Nc ≤ p.stride) (C : Nat → R) {r n : Nat} (hr : r < p.mc) (hn : n < p.Nc) :
    p.run nb A W C (p.c + r * p.stride + n) = p.value nb A W r n :=
  stores_block h C hr hn

/-- A program leaves alone what its registers do not describe. -/
theorem run_frame (C : Nat → R) {x : Nat} (h : ∀ r n, r < p.mc → n < p.Nc → p.c + r * p.stride + n ≠ x) :
    p.run nb A W C x = C x :=
  stores_block_frame C h

end Program

end OrkDriver.Npu
