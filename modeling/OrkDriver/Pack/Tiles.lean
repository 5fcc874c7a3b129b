import Mathlib.Tactic.Ring
import OrkDriver.Lib.Cut
import OrkDriver.Lib.Stores

/-!
The int8 tile layout of `npu/i8/pack.c`: a weight is cut into N-slices and K-slices, each a page-padded run of
32x32 blocks, and the tiles follow each other N-slice by N-slice.
-/

namespace OrkDriver.Pack

open OrkDriver.Lib

/-- `orki_pgup`. -/
def pgup (s : Nat) : Nat := (s + 4095) / 4096 * 4096

theorem le_pgup (s : Nat) : s ≤ pgup s := by
  unfold pgup
  omega

theorem dvd_pgup (s : Nat) : 4096 ∣ pgup s := Dvd.intro_left _ rfl

theorem pgup_lt (s : Nat) : pgup s < s + 4096 := by
  unfold pgup
  omega

theorem pgup_of_dvd {s : Nat} (h : 4096 ∣ s) : pgup s = s := by
  unfold pgup
  omega

/-! ### One tile -/

/-- The variables of the two outer loops: columns `[n0, n0 + Nc)` and rows `[k0, k0 + Kp)` of the weight. -/
structure Tile where
  n0 : Nat
  Nc : Nat
  k0 : Nat
  Kp : Nat
  deriving DecidableEq

/-- The variables of the four inner loops. -/
structure Cell where
  nt : Nat
  kt : Nat
  nl : Nat
  kk : Nat
  deriving DecidableEq

/-- `[nt*KT*1024 + kt*1024 + nl*32 + kk]`. -/
def Cell.tileIndex (v : Cell) (KT : Nat) : Nat := v.nt * KT * 1024 + v.kt * 1024 + v.nl * 32 + v.kk

namespace Tile

def NN (t : Tile) : Nat := t.Nc / 32

def KT (t : Tile) : Nat := t.Kp / 32

/-- Bytes of the tile with its page padding. -/
def tsz (t : Tile) : Nat := pgup (t.Kp * t.Nc)

/-- The inner loops, in the order they run. -/
def cells (t : Tile) : List Cell :=
  (List.range t.NN).flatMap fun nt => (List.range t.KT).flatMap fun kt => (List.range 32).flatMap fun nl =>
    (List.range 32).map fun kk => ⟨nt, kt, nl, kk⟩

/-- `[(k0+kt*32+kk)*N + (n0+nt*32+nl)]`. -/
def elemIndex (t : Tile) (N : Nat) (v : Cell) : Nat :=
  (t.k0 + v.kt * 32 + v.kk) * N + (t.n0 + v.nt * 32 + v.nl)

/-- Whole 32x32 blocks. -/
structure Blocked (t : Tile) : Prop where
  Kp : 32 ∣ t.Kp
  Nc : 32 ∣ t.Nc

variable {t : Tile} {v w : Cell}

theorem mem_cells : v ∈ t.cells ↔ v.nt < t.NN ∧ v.kt < t.KT ∧ v.nl < 32 ∧ v.kk < 32 := by
  cases v
  simp only [cells, List.mem_flatMap, List.mem_map, List.mem_range, Cell.mk.injEq]
  constructor
  · rintro ⟨nt, hnt, kt, hkt, nl, hnl, kk, hkk, rfl, rfl, rfl, rfl⟩
    exact ⟨hnt, hkt, hnl, hkk⟩
  · rintro ⟨hnt, hkt, hnl, hkk⟩
    exact ⟨_, hnt, _, hkt, _, hnl, _, hkk, rfl, rfl, rfl, rfl⟩

theorem tileIndex_eq (v : Cell) (KT : Nat) : v.tileIndex KT = (v.nt * KT + v.kt) * 1024 + (v.nl * 32 + v.kk) := by
  unfold Cell.tileIndex
  ring

theorem Blocked.size_eq (h : t.Blocked) : t.NN * t.KT * 1024 = t.Kp * t.Nc := by
  obtain ⟨a, ha⟩ := h.Kp
  obtain ⟨b, hb⟩ := h.Nc
  simp only [NN, KT, ha, hb, Nat.mul_div_cancel_left _ (by decide : 0 < 32)]
  ring

/-- No cell is outside its tile. -/
theorem tileIndex_lt (h : t.Blocked) (hv : v ∈ t.cells) : v.tileIndex t.KT < t.Kp * t.Nc := by
  obtain ⟨hnt, hkt, hnl, hkk⟩ := mem_cells.mp hv
  rw [tileIndex_eq, ← h.size_eq]
  exact digits_lt (digits_lt hnt hkt) (by omega)

theorem tileIndex_lt_tsz (h : t.Blocked) (hv : v ∈ t.cells) : v.tileIndex t.KT < t.tsz :=
  lt_of_lt_of_le (tileIndex_lt h hv) (le_pgup _)

theorem tileIndex_inj (hv : v ∈ t.cells) (hw : w ∈ t.cells) (h : v.tileIndex t.KT = w.tileIndex t.KT) : v = w := by
  obtain ⟨-, hkt, hnl, hkk⟩ := mem_cells.mp hv
  obtain ⟨-, hkt', hnl', hkk'⟩ := mem_cells.mp hw
  rw [tileIndex_eq, tileIndex_eq] at h
  obtain ⟨ha, hr⟩ := digits_inj (by omega) (by omega) h
  obtain ⟨hnt, hk⟩ := digits_inj hkt hkt' ha
  obtain ⟨hn, hkk⟩ := digits_inj hkk hkk' hr
  cases v
  cases w
  simp_all only

/-- Every byte before the padding is the byte of a cell. -/
theorem exists_cell (h : t.Blocked) {j : Nat} (hj : j < t.Kp * t.Nc) : ∃ v ∈ t.cells, v.tileIndex t.KT = j := by
  rw [← h.size_eq] at hj
  have hKT : 0 < t.KT := by
    rcases Nat.eq_zero_or_pos t.KT with h0 | h0
    · rw [h0, Nat.mul_zero, Nat.zero_mul] at hj
      exact absurd hj (Nat.not_lt_zero _)
    · exact h0
  have hblock : j / 1024 < t.NN * t.KT := Nat.div_lt_of_lt_mul (by omega)
  refine ⟨⟨j / 1024 / t.KT, j / 1024 % t.KT, j / 32 % 32, j % 32⟩, mem_cells.mpr ⟨?_, ?_, ?_, ?_⟩, ?_⟩
  · exact Nat.div_lt_of_lt_mul (by rwa [Nat.mul_comm])
  · exact Nat.mod_lt _ hKT
  · exact Nat.mod_lt _ (by decide)
  · exact Nat.mod_lt _ (by decide)
  · rw [tileIndex_eq]
    dsimp only
    rw [Nat.div_add_mod']
    omega

end Tile

/-! ### The walk over the tiles -/

/-- What the walk of a K x N weight depends on. -/
structure Geom where
  KS : Nat
  NMAX : Nat
  K : Nat
  N : Nat

/-- Dimensions and slice sizes in whole blocks. -/
structure Geom.Aligned (g : Geom) : Prop where
  KS_pos : 0 < g.KS
  KS : 32 ∣ g.KS
  NMAX_pos : 0 < g.NMAX
  NMAX : 32 ∣ g.NMAX
  K : 32 ∣ g.K
  N : 32 ∣ g.N

namespace Geom

variable (g : Geom)

def Sk : Nat := pieces g.K g.KS

def Sn : Nat := pieces g.N g.NMAX

/-- K-slice `ks` of N-slice `ns`. -/
def tile (ns ks : Nat) : Tile := ⟨ns * g.NMAX, pieceLen g.N g.NMAX ns, ks * g.KS, pieceLen g.K g.KS ks⟩

def tileRow (ns : Nat) : List Tile := (List.range g.Sk).map (g.tile ns)

/-- The two outer loops, in the order they run. -/
def tiles : List Tile := (List.range g.Sn).flatMap g.tileRow

variable {g}

theorem mem_tiles {t : Tile} : t ∈ g.tiles ↔ ∃ ns ks, ns < g.Sn ∧ ks < g.Sk ∧ t = g.tile ns ks := by
  simp only [tiles, tileRow, List.mem_flatMap, List.mem_map, List.mem_range]
  constructor
  · rintro ⟨ns, hns, ks, hks, rfl⟩
    exact ⟨ns, ks, hns, hks, rfl⟩
  · rintro ⟨ns, ks, hns, hks, rfl⟩
    exact ⟨ns, hns, ks, hks, rfl⟩

theorem Aligned.blocked (h : g.Aligned) (ns ks : Nat) : (g.tile ns ks).Blocked :=
  ⟨dvd_pieceLen h.K h.KS, dvd_pieceLen h.N h.NMAX⟩

theorem Aligned.blocked_of_mem (h : g.Aligned) {t : Tile} (ht : t ∈ g.tiles) : t.Blocked := by
  obtain ⟨ns, ks, -, -, rfl⟩ := mem_tiles.mp ht
  exact h.blocked ns ks

/-- The cell of element `(k, n)` inside its tile. -/
def cellAt (g : Geom) (k n : Nat) : Cell := ⟨n % g.NMAX / 32, k % g.KS / 32, n % g.NMAX % 32, k % g.KS % 32⟩

variable {k n : Nat}

theorem Aligned.cellAt_mem (h : g.Aligned) (hk : k < g.K) (hn : n < g.N) :
    g.cellAt k n ∈ (g.tile (n / g.NMAX) (k / g.KS)).cells := by
  obtain ⟨hKp, hNc⟩ := h.blocked (n / g.NMAX) (k / g.KS)
  have hk' : k % g.KS < (g.tile (n / g.NMAX) (k / g.KS)).Kp := mod_lt_pieceLen h.KS_pos hk
  have hn' : n % g.NMAX < (g.tile (n / g.NMAX) (k / g.KS)).Nc := mod_lt_pieceLen h.NMAX_pos hn
  refine Tile.mem_cells.mpr ⟨?_, ?_, Nat.mod_lt _ (by decide), Nat.mod_lt _ (by decide)⟩
  · simp only [cellAt, Tile.NN]
    omega
  · simp only [cellAt, Tile.KT]
    omega

theorem elemIndex_cellAt (g : Geom) (k n : Nat) :
    (g.tile (n / g.NMAX) (k / g.KS)).elemIndex g.N (g.cellAt k n) = k * g.N + n := by
  have hk := Nat.div_add_mod' k g.KS
  have hn := Nat.div_add_mod' n g.NMAX
  have hrow : k / g.KS * g.KS + k % g.KS / 32 * 32 + k % g.KS % 32 = k := by omega
  have hcol : n / g.NMAX * g.NMAX + n % g.NMAX / 32 * 32 + n % g.NMAX % 32 = n := by omega
  simp only [Tile.elemIndex, tile, cellAt, hrow, hcol]

/-- Rows and columns of a cell are rows and columns of the weight, and they name tile and cell. -/
theorem Aligned.elem_unique (h : g.Aligned) {ns ks : Nat} (hns : ns < g.Sn) (hks : ks < g.Sk) {v : Cell}
    (hv : v ∈ (g.tile ns ks).cells) : ∃ k n, k < g.K ∧ n < g.N ∧ (g.tile ns ks).elemIndex g.N v = k * g.N + n ∧
      ns = n / g.NMAX ∧ ks = k / g.KS ∧ v = g.cellAt k n := by
  obtain ⟨hnt, hkt, hnl, hkk⟩ := Tile.mem_cells.mp hv
  have hr : v.kt * 32 + v.kk < pieceLen g.K g.KS ks := by
    have := (h.blocked ns ks).Kp
    simp only [Tile.KT, tile] at hkt this
    omega
  have hc : v.nt * 32 + v.nl < pieceLen g.N g.NMAX ns := by
    have := (h.blocked ns ks).Nc
    simp only [Tile.NN, tile] at hnt this
    omega
  have hK := piece_le h.KS_pos hks
  have hN := piece_le h.NMAX_pos hns
  obtain ⟨hkq, hkr⟩ := piece_unique hr
  obtain ⟨hnq, hnr⟩ := piece_unique hc
  refine ⟨ks * g.KS + (v.kt * 32 + v.kk), ns * g.NMAX + (v.nt * 32 + v.nl), by omega, by omega, ?_, hnq.symm, hkq.symm, ?_⟩
  · simp only [Tile.elemIndex, tile, Nat.add_assoc]
  · cases v
    simp only [cellAt, hkr, hnr, Cell.mk.injEq] at *
    omega

end Geom

end OrkDriver.Pack
