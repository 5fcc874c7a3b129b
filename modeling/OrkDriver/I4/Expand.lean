import OrkDriver.Lib.Nibbles
import OrkDriver.Run.Weight

/-!
From nibbles to int8 codes and int8 tiles: the expanders of `npu/i4/quant.c` and `npu/i8/pack.c`, and the tilers that
read codes channel by channel.
-/

namespace OrkDriver.I4

open OrkDriver.Lib OrkDriver.Npu OrkDriver.Pack OrkDriver.Run

/-- `(k&1) ? (nib[k>>1]>>4) : (nib[k>>1]&0xf)`. -/
def chanNibble (nib : Nat → BitVec 8) (k : Nat) : BitVec 8 :=
  if k % 2 = 1 then nib (k / 2) >>> 4 else nib (k / 2) &&& 0xf

/-- `(int8_t)(nb << 4) >> 4`. -/
def shiftExtend (nb : BitVec 8) : Int8 := ⟨⟨(nb <<< 4).sshiftRight 4⟩⟩

/-- `ix >= 8 ? ix - 16 : ix`. -/
def wrapExtend (ix : BitVec 8) : Int8 := Int8.ofInt (if 8 ≤ ix.toNat then (ix.toNat : Int) - 16 else ix.toNat)

/-- `lrintf(ORKI_NF4_LEVELS[i]*127.0f)`. -/
def nf4Lut : List Int8 := [-127, -88, -67, -50, -36, -23, -12, 0, 10, 20, 31, 43, 56, 71, 92, 127]

/-- `orki_i4_expand_chan_to_i8`. -/
def orkiI4ExpandChanToI8 (nib : Nat → BitVec 8) (k : Nat) : Int8 := shiftExtend (chanNibble nib k)

/-- `orki_i4_expand_chan_f32`; the floats are whole numbers. -/
def orkiI4ExpandChanF32 (nib : Nat → BitVec 8) (k : Nat) : Int := (shiftExtend (chanNibble nib k)).toInt

/-- `orki_nf4_inflate_chan_to_i8`. -/
def orkiNf4InflateChanToI8 (lut : List Int8) (nib : Nat → BitVec 8) (k : Nat) : Int8 :=
  lut.getD (chanNibble nib k).toNat 0

/-- `quant32_f32_i8` of a whole number times 1. -/
def quantF32I8 (q : Int) : Int8 := Int8.ofInt (if 127 < q then 127 else if q < -127 then -127 else q)

/-! ### One code -/

/-- `ORK_QK_UNIFORM` and `ORK_QK_CODEBOOK_NF4`. -/
def orkQkUniform : UInt32 := 0

def orkQkCodebookNf4 : UInt32 := 1

/-- What a nibble stands for. -/
def expand (kind : UInt32) (v : BitVec 4) : Int8 := if kind = orkQkCodebookNf4 then nf4Lut.getD v.toNat 0 else signExtend4 v

theorem chanNibble_eq (nib : Nat → BitVec 8) (k : Nat) : chanNibble nib k = (nibbleAt nib k).setWidth 8 := by
  have key : ∀ b : BitVec 8, b >>> 4 = ((b >>> 4).setWidth 4).setWidth 8 ∧ b &&& 0xf = ((b >>> 0).setWidth 4).setWidth 8 := by
    decide
  unfold chanNibble nibbleAt nibbleShift
  split
  · exact (key _).1
  · exact (key _).2

theorem extends_nibble : ∀ v : BitVec 4, shiftExtend (v.setWidth 8) = signExtend4 v ∧
    wrapExtend (v.setWidth 8) = signExtend4 v ∧ (v.setWidth 8).toNat = v.toNat := by
  decide

theorem quantF32I8_expand : ∀ v : BitVec 4, quantF32I8 (signExtend4 v).toInt = signExtend4 v ∧
    quantF32I8 (nf4Lut.getD v.toNat 0).toInt = nf4Lut.getD v.toNat 0 := by
  decide

variable (nib : Nat → BitVec 8) (k : Nat)

theorem orkiI4ExpandChanToI8_eq : orkiI4ExpandChanToI8 nib k = signExtend4 (nibbleAt nib k) := by
  unfold orkiI4ExpandChanToI8
  rw [chanNibble_eq]
  exact (extends_nibble _).1

theorem orkiNf4InflateChanToI8_eq : orkiNf4InflateChanToI8 nf4Lut nib k = nf4Lut.getD (nibbleAt nib k).toNat 0 := by
  unfold orkiNf4InflateChanToI8
  rw [chanNibble_eq, (extends_nibble _).2.2]

/-- The way through floats ends at the same code. -/
theorem quantF32I8_expandChan : quantF32I8 (orkiI4ExpandChanF32 nib k) = orkiI4ExpandChanToI8 nib k := by
  have h := orkiI4ExpandChanToI8_eq nib k
  unfold orkiI4ExpandChanF32
  change quantF32I8 (orkiI4ExpandChanToI8 nib k).toInt = _
  rw [h]
  generalize nibbleAt nib k = v
  exact (quantF32I8_expand v).1

theorem quantF32I8_inflateChan :
    quantF32I8 (nf4Lut.getD (chanNibble nib k).toNat 0).toInt = orkiNf4InflateChanToI8 nf4Lut nib k := by
  have h := orkiNf4InflateChanToI8_eq nib k
  change quantF32I8 (orkiNf4InflateChanToI8 nf4Lut nib k).toInt = _
  rw [h]
  generalize nibbleAt nib k = v
  exact (quantF32I8_expand v).2

/-! ### Tiles from channels -/

/-- The loops of `orki_i8_tile_f32`, `orki_i8_tile_to_tiles` and `orki_i8_tile_to_import_tiles` over one tile; channel `n`
has its `K` codes at `src + n*K`. -/
def chanTileRange (NN KT k0 n0 K : Nat) (src : Nat → Int8) : List (Nat × Int8) :=
  (List.range NN).flatMap fun nt => (List.range 32).flatMap fun nl => (List.range KT).flatMap fun kt =>
    (List.range 32).map fun kk =>
      (nt * KT * 32 * 32 + kt * 32 * 32 + nl * 32 + kk, src ((n0 + nt * 32 + nl) * K + k0 + kt * 32 + kk))

/-- A matrix stored channel by channel, read row by row. -/
def transpose (K N : Nat) (src : Nat → Int8) (x : Nat) : Int8 := src (x % N * K + x / N)

theorem chanTileRange_stores {NN n0 N : Nat} (h : n0 + NN * 32 ≤ N) (KT k0 K : Nat) (src : Nat → Int8) :
    TileStores 32 NN KT k0 n0 N (transpose K N src) (chanTileRange NN KT k0 n0 K src) := by
  have hval : ∀ nt kt nl kk : Nat, nt < NN → nl < 32 →
      (nt * KT * 32 * 32 + kt * 32 * 32 + nl * 32 + kk, src ((n0 + nt * 32 + nl) * K + k0 + kt * 32 + kk)) =
      ((nt * KT + kt) * (32 * 32) + (nl * 32 + kk),
        transpose K N src ((k0 + (kt * 32 + kk)) * N + (n0 + (nt * 32 + nl)))) := by
    intro nt kt nl kk hnt hnl
    have hn : n0 + (nt * 32 + nl) < N := by omega
    obtain ⟨hdiv, hmod⟩ := digits_div_mod hn (k0 + (kt * 32 + kk))
    unfold transpose
    rw [hdiv, hmod]
    refine Prod.ext ?_ (congrArg src ?_)
    · dsimp only
      ring
    · ring
  intro w
  unfold chanTileRange
  simp only [List.mem_flatMap, List.mem_map, List.mem_range]
  constructor
  · rintro ⟨nt, hnt, nl, hnl, kt, hkt, kk, hkk, rfl⟩
    exact ⟨nt, kt, nl, kk, hnt, hkt, hnl, hkk, hval nt kt nl kk hnt hnl⟩
  · rintro ⟨nt, kt, nl, kk, hnt, hkt, hnl, hkk, rfl⟩
    exact ⟨nt, hnt, nl, hnl, kt, hkt, kk, hkk, hval nt kt nl kk hnt hnl⟩

end OrkDriver.I4
