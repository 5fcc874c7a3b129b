import Mathlib.Data.Finset.Prod
import Mathlib.Data.Finset.Card
import Mathlib.Data.Set.Function
import OrkDriver.Lib.Grid
import OrkDriver.Run.F16Copies

/-!
The fp16 tilers against each other: which cell of the matrix each of them puts at which byte of a tile.
-/

namespace OrkDriver.Run

open OrkDriver.Lib OrkDriver.Npu OrkDriver.Pack

variable {R : Type*}

/-! ### One tile -/

section

variable {Kp Nc : Nat} {v v' : Nat → Nat → R} {l : List (Nat × R)}

/-- `l` stores every cell of the tile once, cell `(k, n)` at `wIndex 16 Kp k n` with the value `v k n`. -/
def Places (Kp Nc : Nat) (v : Nat → Nat → R) (l : List (Nat × R)) : Prop :=
  l.Perm (grid Kp Nc fun k n => (wIndex 16 Kp k n, v k n))

theorem Places.of_mem (hK : 32 ∣ Kp) (hlen : l.length = Kp * Nc)
    (hmem : ∀ k n, k < Kp → n < Nc → (wIndex 16 Kp k n, v k n) ∈ l) : Places Kp Nc v l :=
  perm_grid (fun _ _ _ _ hk _ hk' _ heq => wIndex_inj (by decide) hK hk hk' (Prod.ext_iff.mp heq).1) hlen hmem

theorem Places.congr (h : Places Kp Nc v l) (hv : ∀ k n, k < Kp → n < Nc → v k n = v' k n) : Places Kp Nc v' l :=
  h.trans (List.Perm.of_eq (grid_congr fun k n hk hn => by rw [hv k n hk hn]))

theorem TileStores.places {NN KT k0 n0 N : Nat} {B : Nat → R} (h : TileStores 16 NN KT k0 n0 N B l)
    (hlen : l.length = NN * KT * 512) :
    Places (KT * 32) (NN * 16) (fun k n => B ((k0 + k) * N + (n0 + n))) l := by
  refine Places.of_mem (Nat.dvd_mul_left 32 KT) (by rw [hlen]; ring) fun k n hk hn => ?_
  refine (h _).mpr ⟨n / 16, k / 32, n % 16, k % 32, by omega, by omega, by omega, by omega, ?_⟩
  rw [wIndex, Nat.mul_div_cancel KT (by decide), Nat.div_add_mod' k 32, Nat.div_add_mod' n 16]

theorem length_f16TileRange (NN KT k0 n0 N : Nat) (B : Nat → R) :
    (f16TileRange NN KT k0 n0 N B).length = NN * KT * 512 := by
  simp only [f16TileRange, List.length_flatMap, List.length_map, List.length_range, List.map_const', List.sum_replicate,
    nsmul_eq_mul, Nat.cast_id]
  ring

theorem length_f16TileSRange (NN KT k0 n0 : Nat) (src : Int → R) (sk sn : Int) :
    (f16TileSRange NN KT k0 n0 src sk sn).length = NN * KT * 512 := by
  simp only [f16TileSRange, List.length_flatMap, List.length_map, List.length_range, List.map_const', List.sum_replicate,
    nsmul_eq_mul, Nat.cast_id]
  ring

/-- `f16_tile_range` over a whole tile. -/
theorem f16TileRange_places {t : Tile} (hK : 32 ∣ t.Kp) (hN : 16 ∣ t.Nc) (N : Nat) (B : Nat → R) :
    Places t.Kp t.Nc (fun k n => B ((t.k0 + k) * N + (t.n0 + n))) (f16TileRange (t.Nc / 16) t.KT t.k0 t.n0 N B) := by
  have h := TileStores.places (f16TileRange_stores (t.Nc / 16) t.KT t.k0 t.n0 N B) (length_f16TileRange ..)
  rwa [Tile.KT, Nat.div_mul_cancel hK, Nat.div_mul_cancel hN] at h

/-- `f16_tile_s_range` over a whole tile: the source is a view with strides. -/
theorem f16TileSRange_places {t : Tile} (hK : 32 ∣ t.Kp) (hN : 16 ∣ t.Nc) (src : Int → R) (sk sn : Int) :
    Places t.Kp t.Nc (fun k n => src (((t.k0 + k : Nat) : Int) * sk + ((t.n0 + n : Nat) : Int) * sn))
      (f16TileSRange (t.Nc / 16) t.KT t.k0 t.n0 src sk sn) := by
  have hNN : t.n0 + t.Nc / 16 * 16 ≤ t.n0 + t.Nc := by rw [Nat.div_mul_cancel hN]
  have h := TileStores.places (f16TileSRange_stores hNN src sk sn) (length_f16TileSRange _ t.KT t.k0 _ src sk sn)
  rw [Tile.KT, Nat.div_mul_cancel hK, Nat.div_mul_cancel hN] at h
  refine h.congr fun k n _ hn => ?_
  obtain ⟨hdiv, hmod⟩ := digits_div_mod (show t.n0 + n < t.n0 + t.Nc by omega) (t.k0 + k)
  rw [hdiv, hmod]

/-! ### The bytes of a tile -/

/-- Byte `b` of the element at `(k, n)`. -/
def tileByte (Kp : Nat) (p : (Nat × Nat) × Nat) : Nat := wIndex 16 Kp p.1.1 p.1.2 * 2 + p.2

/-- The bytes of the elements of a `K` x `N` matrix. -/
def matrixBytes (K N : Nat) : Set ((Nat × Nat) × Nat) := {p | (p.1.1 < K ∧ p.1.2 < N) ∧ p.2 < 2}

theorem mem_matrixBytes {K N k n b : Nat} : ((k, n), b) ∈ matrixBytes K N ↔ (k < K ∧ n < N) ∧ b < 2 := Iff.rfl

theorem wIndex_image (hK : 32 ∣ Kp) (hN : 16 ∣ Nc) :
    ((Finset.range Kp ×ˢ Finset.range Nc).image fun p => wIndex 16 Kp p.1 p.2) = Finset.range (Kp * Nc) := by
  refine Finset.eq_of_subset_of_card_le ?_ ?_
  · intro x hx
    obtain ⟨⟨k, n⟩, hp, rfl⟩ := Finset.mem_image.mp hx
    rw [Finset.mem_product, Finset.mem_range, Finset.mem_range] at hp
    exact Finset.mem_range.mpr (wIndex_lt (by decide) hK hN hp.1 hp.2)
  · rw [Finset.card_image_of_injOn, Finset.card_product, Finset.card_range, Finset.card_range, Finset.card_range]
    rintro ⟨k, n⟩ hp ⟨k', n'⟩ hp' heq
    rw [Finset.mem_coe, Finset.mem_product, Finset.mem_range] at hp hp'
    obtain ⟨rfl, rfl⟩ := wIndex_inj (by decide) hK hp.1 hp'.1 heq
    rfl

/-- The bytes of the elements and the bytes of the tile correspond. -/
theorem tileByte_bijOn (hK : 32 ∣ Kp) (hN : 16 ∣ Nc) :
    Set.BijOn (tileByte Kp) (matrixBytes Kp Nc) (Set.Iio (Kp * Nc * 2)) := by
  refine ⟨?_, ?_, ?_⟩
  · rintro ⟨⟨k, n⟩, b⟩ ⟨⟨hk, hn⟩, hb⟩
    exact digits_lt (wIndex_lt (by decide) hK hN hk hn) hb
  · rintro ⟨⟨k, n⟩, b⟩ ⟨⟨hk, hn⟩, hb⟩ ⟨⟨k', n'⟩, b'⟩ ⟨⟨hk', hn'⟩, hb'⟩ heq
    obtain ⟨hw, rfl⟩ := digits_inj hb hb' heq
    obtain ⟨rfl, rfl⟩ := wIndex_inj (by decide) hK hk hk' hw
    rfl
  · intro x hx
    have hx' : x / 2 ∈ Finset.range (Kp * Nc) := Finset.mem_range.mpr (Nat.div_lt_of_lt_mul (by rwa [Nat.mul_comm]))
    rw [← wIndex_image hK hN] at hx'
    obtain ⟨⟨k, n⟩, hp, hw⟩ := Finset.mem_image.mp hx'
    rw [Finset.mem_product, Finset.mem_range, Finset.mem_range] at hp
    refine ⟨((k, n), x % 2), ⟨hp, Nat.mod_lt _ (by decide)⟩, ?_⟩
    rw [tileByte, hw, Nat.div_add_mod']

end

/-! ### A whole weight -/

section

variable {g : Geom}

/-- Where packing puts byte `b` of the element at `(k, n)`: in which tile, and where in it. -/
def packedByte (g : Geom) (p : (Nat × Nat) × Nat) : Nat × Nat :=
  (p.1.2 / g.NMAX * g.Sk + p.1.1 / g.KS,
    tileByte (pieceLen g.K g.KS (p.1.1 / g.KS)) ((p.1.1 % g.KS, p.1.2 % g.NMAX), p.2))

/-- The bytes of the tiles of a weight. -/
def weightBytes (g : Geom) : Set (Nat × Nat) :=
  {q | q.1 < g.Sn * g.Sk ∧ q.2 < pieceLen g.K g.KS (q.1 % g.Sk) * pieceLen g.N g.NMAX (q.1 / g.Sk) * 2}

theorem packedByte_bijOn (hg : Blocks g 16) (hK : 32 ∣ g.K) (hN : 16 ∣ g.N) :
    Set.BijOn (packedByte g) (matrixBytes g.K g.N) (weightBytes g) := by
  have tile (ns ks : Nat) := tileByte_bijOn (dvd_pieceLen (i := ks) hK hg.KS) (dvd_pieceLen (i := ns) hN hg.NMAX)
  refine ⟨?_, ?_, ?_⟩
  · rintro ⟨⟨k, n⟩, b⟩ ⟨⟨hk, hn⟩, hb⟩
    have hks : k / g.KS < g.Sk := div_lt_pieces hg.KS_pos hk
    have hns : n / g.NMAX < g.Sn := div_lt_pieces hg.NMAX_pos hn
    obtain ⟨hdiv, hmod⟩ := digits_div_mod hks (n / g.NMAX)
    refine ⟨digits_lt hns hks, ?_⟩
    dsimp only [packedByte]
    rw [hdiv, hmod]
    exact (tile _ _).mapsTo ⟨⟨mod_lt_pieceLen hg.KS_pos hk, mod_lt_pieceLen hg.NMAX_pos hn⟩, hb⟩
  · rintro ⟨⟨k, n⟩, b⟩ ⟨⟨hk, hn⟩, hb⟩ ⟨⟨k', n'⟩, b'⟩ ⟨⟨hk', hn'⟩, hb'⟩ heq
    obtain ⟨htile, hbyte⟩ := Prod.ext_iff.mp heq
    obtain ⟨hns, hks⟩ := digits_inj (div_lt_pieces hg.KS_pos hk) (div_lt_pieces hg.KS_pos hk') htile
    dsimp only [packedByte] at hbyte
    rw [← hks] at hbyte
    have inner : ((k % g.KS, n % g.NMAX), b) = ((k' % g.KS, n' % g.NMAX), b') := by
      refine (tile (n / g.NMAX) (k / g.KS)).injOn
        (mem_matrixBytes.mpr ⟨⟨mod_lt_pieceLen hg.KS_pos hk, mod_lt_pieceLen hg.NMAX_pos hn⟩, hb⟩)
        (mem_matrixBytes.mpr ⟨⟨?_, ?_⟩, hb'⟩) hbyte
      · exact lt_of_lt_of_eq (mod_lt_pieceLen hg.KS_pos hk') (by rw [hks])
      · exact lt_of_lt_of_eq (mod_lt_pieceLen hg.NMAX_pos hn') (by rw [hns])
    simp only [Prod.mk.injEq] at inner
    obtain ⟨⟨hkm, hnm⟩, rfl⟩ := inner
    have hk'd := Nat.div_add_mod k' g.KS
    have hn'd := Nat.div_add_mod n' g.NMAX
    rw [← hks, ← hkm, Nat.div_add_mod] at hk'd
    rw [← hns, ← hnm, Nat.div_add_mod] at hn'd
    exact congrArg₂ (fun k n => ((k, n), b)) hk'd hn'd
  · rintro ⟨i, x⟩ ⟨hi, hx⟩
    have hSk : 0 < g.Sk := Nat.pos_of_ne_zero fun h => by simp [h] at hi
    have hks : i % g.Sk < g.Sk := Nat.mod_lt _ hSk
    have hns : i / g.Sk < g.Sn := Nat.div_lt_of_lt_mul (by rwa [Nat.mul_comm])
    obtain ⟨⟨⟨k, n⟩, b⟩, ⟨⟨hk, hn⟩, hb⟩, rfl⟩ := (tile (i / g.Sk) (i % g.Sk)).surjOn hx
    dsimp only at hk hn hb
    obtain ⟨hkd, hkm⟩ := piece_unique hk
    obtain ⟨hnd, hnm⟩ := piece_unique hn
    have hkK := piece_le hg.KS_pos hks
    have hnN := piece_le hg.NMAX_pos hns
    refine ⟨((i % g.Sk * g.KS + k, i / g.Sk * g.NMAX + n), b),
      mem_matrixBytes.mpr ⟨⟨by omega, by omega⟩, hb⟩, ?_⟩
    dsimp only [packedByte]
    rw [hkd, hkm, hnd, hnm, Nat.div_add_mod']

/-! ### The full-K cube -/

theorem length_bfullStores (h : OneSlice g) (Bb : Nat → Nat → R) : (bfullStores g Bb).length = g.K * g.N := by
  have hks : ((List.range g.Sk).map fun ks => pieceLen g.K g.KS ks / 32 * 16 * 32).sum = g.K * 16 := by
    have heq : (fun ks => pieceLen g.K g.KS ks / 32 * 16 * 32) = fun ks => pieceLen g.K g.KS ks * 16 := by
      funext ks
      have := Nat.div_mul_cancel (dvd_pieceLen (i := ks) h.K h.blocks.KS)
      omega
    rw [heq, List.sum_map_mul_right]
    exact congrArg (· * 16) (sum_pieceLen h.blocks.KS_pos)
  have hN := Nat.div_mul_cancel h.N
  simp only [bfullStores, List.length_flatMap, List.length_map, List.length_range, List.map_const', List.sum_replicate,
    hks, nsmul_eq_mul]
  rw [Nat.cast_id, Nat.mul_left_comm, hN]

/-- The full-K build puts cell `(k, n)` where a tile of all `K` rows has it. -/
theorem bfullStores_places (h : OneSlice g) (Bb : Nat → Nat → R) : Places g.K g.N
    (fun k n => Bb (k / g.KS) (wIndex 16 (pieceLen g.K g.KS (k / g.KS)) (k % g.KS) n)) (bfullStores g Bb) :=
  Places.of_mem h.K (length_bfullStores h Bb) fun _ _ hk hn => mem_bfullStores h Bb hk hn

/-- From the tiles that packing left. -/
theorem bfullStores_packed_places (h : OneSlice g) (fresh : Nat → Nat → R) (B : Nat → R) :
    Places g.K g.N (fun k n => B (k * g.N + n))
      (bfullStores g fun ks => stores (fresh ks) (tileStores .f16 (g.tile 0 ks) g.N B)) := by
  refine (bfullStores_places h _).congr fun k n hk hn => ?_
  have hK : 32 ∣ (g.tile 0 (k / g.KS)).Kp := dvd_pieceLen h.K h.blocks.KS
  have hN : 16 ∣ (g.tile 0 (k / g.KS)).Nc := dvd_pieceLen h.N h.blocks.NMAX
  have hNc : (g.tile 0 (k / g.KS)).Nc = g.N := pieceLen_of_le h.le
  have hcell := @tiled_tileStores _ .f16 _ hK hN g.N B (fresh (k / g.KS)) (k % g.KS) n
    (mod_lt_pieceLen h.blocks.KS_pos hk) (by rwa [hNc])
  refine hcell.trans (congrArg B ?_)
  dsimp only [Geom.tile]
  rw [Nat.div_add_mod', Nat.zero_mul, Nat.zero_add]

/-- For every cut into whole blocks: packing and writing again, from a matrix or from a view with strides, put cell
`(k, n)` of a tile at the same place, the full-K build puts it where packing would in a tile of all rows, and the places
are a bijection, of the matrix with the bytes of the tiles and with those of the cube. -/
theorem f16Tilers_agree (hg : Blocks g 16) (hK : 32 ∣ g.K) (hN : 16 ∣ g.N) (B : Nat → R) (src : Int → R) (sk sn : Int) :
    (∀ ns ks, ns < g.Sn → ks < g.Sk → ∀ t, t = g.tile ns ks →
      Places t.Kp t.Nc (fun k n => B ((t.k0 + k) * g.N + (t.n0 + n))) (tileStores .f16 t g.N B) ∧
      Places t.Kp t.Nc (fun k n => B ((t.k0 + k) * g.N + (t.n0 + n))) (f16TileRange (t.Nc / 16) t.KT t.k0 t.n0 g.N B) ∧
      Places t.Kp t.Nc (fun k n => src (((t.k0 + k : Nat) : Int) * sk + ((t.n0 + n : Nat) : Int) * sn))
        (f16TileSRange (t.Nc / 16) t.KT t.k0 t.n0 src sk sn)) ∧
    (g.Sn = 1 → ∀ fresh : Nat → Nat → R, Places g.K g.N (fun k n => B (k * g.N + n))
      (bfullStores g fun ks => stores (fresh ks) (tileStores .f16 (g.tile 0 ks) g.N B))) ∧
    Set.BijOn (packedByte g) (matrixBytes g.K g.N) (weightBytes g) ∧
    Set.BijOn (tileByte g.K) (matrixBytes g.K g.N) (Set.Iio (g.K * g.N * 2)) := by
  refine ⟨?_, fun hSn fresh => ?_, packedByte_bijOn hg hK hN, tileByte_bijOn hK hN⟩
  · rintro ns ks - - t rfl
    have hKp : 32 ∣ (g.tile ns ks).Kp := dvd_pieceLen hK hg.KS
    have hNc : 16 ∣ (g.tile ns ks).Nc := dvd_pieceLen hN hg.NMAX
    have hpack := f16TileRange_places hKp hNc g.N B
    exact ⟨hpack, hpack, f16TileSRange_places hKp hNc src sk sn⟩
  · exact bfullStores_packed_places ⟨hg, hK, hN, le_of_pieces_eq_one hg.NMAX_pos hSn⟩ fresh B

theorem f16Tilers_agree_small : Places 64 32 (fun k n => k * 32 + n)
    (bfullStores ⟨32, 8192, 64, 32⟩ fun ks =>
      stores (fun _ => 0) (tileStores .f16 (Geom.tile ⟨32, 8192, 64, 32⟩ 0 ks) 32 fun x => x)) :=
  (f16Tilers_agree (g := ⟨32, 8192, 64, 32⟩) ⟨by decide, by decide, by decide, by decide⟩ (by decide) (by decide)
    (fun x => x) (fun _ => 0) 0 0).2.1 (by decide) fun _ _ => 0

end

end OrkDriver.Run
