import OrkDriver.Npu.Heights
import OrkDriver.Npu.Program
import OrkDriver.Pack.Sound

/-!
Resident weights: `ork_w` and `orki_pack` (`npu.c`). A weight carries its K-sliced tiles, and for int8 a full-K copy of
every N-slice where there is room for it.
-/

namespace OrkDriver.Run

open OrkDriver.Lib OrkDriver.Npu OrkDriver.Pack

variable {R : Type*}

/-- Columns of a weight block. -/
def ntSz (dt : Dt) : Nat := if dt = .f16 then 16 else 32

/-- Bytes of an element of A or B. -/
def esz (dt : Dt) : Nat := if dt = .f16 then 2 else 1

theorem ntSz_pos (dt : Dt) : 0 < ntSz dt := by
  unfold ntSz
  split <;> decide

theorem esz_pos (dt : Dt) : 0 < esz dt := by
  unfold esz
  split <;> decide

/-- The fields of `ork_w` that a run reads. -/
structure OrkW (R : Type*) where
  dt : Dt
  K : Nat
  N : Nat
  Sk : Nat
  Sn : Nat
  Bb : Nat → Nat → R
  Bf : Option (Nat → Nat → R)

/-- How a weight is cut. -/
def weightGeom (c : OrkNpu) (e : F16Knobs) (dt : Dt) (K N : Nat) : Geom :=
  ⟨if dt = .f16 then e.ks else c.int8Ks, c.soc.nmax, K, N⟩

/-- What packing finds: which buffers `orki_bcreate` grants and what a new one holds, `ORK_NO_BF`, and whether
`ORK_KTILE` is set. -/
structure PackEnv (R : Type*) where
  bb : Nat → Bool
  bf : Nat → Bool
  freshBb : Nat → Nat → R
  freshBf : Nat → Nat → R
  noBf : Bool
  ktileSet : Bool

/-- The stores of the tiler for one tile. -/
def tileStores (dt : Dt) (t : Tile) (N : Nat) (B : Nat → R) : List (Nat × R) :=
  if dt = .f16 then f16TileRange (t.Nc / ntSz dt) t.KT t.k0 t.n0 N B else i8TileRange (t.Nc / ntSz dt) t.KT t.k0 t.n0 N B

/-- The whole of an N-slice. -/
def fullTile (g : Geom) (ns : Nat) : Tile := ⟨ns * g.NMAX, pieceLen g.N g.NMAX ns, 0, g.K⟩

/-- Whether `orki_pack` tries to build the full-K copy. -/
def wantsBf (c : OrkNpu) (p : PackEnv R) (dt : Dt) (K : Nat) : Bool :=
  dt = .i8 ∧ K ≤ 10752 ∧ p.noBf = false ∧ ¬ (c.int8Ks < K ∧ p.ktileSet = true)

/-- `orki_pack`. -/
def orkiPack (c : OrkNpu) (e : F16Knobs) (p : PackEnv R) (dt : Dt) (K N : Nat) (B : Nat → R) : Option (OrkW R) :=
  if K % 32 ≠ 0 ∨ N % ntSz dt ≠ 0 then none
  else
    let g := weightGeom c e dt K N
    if (List.range (g.Sn * g.Sk)).all p.bb then
      some {
        dt, K, N
        Sk := g.Sk
        Sn := g.Sn
        Bb := fun i => stores (p.freshBb i) (tileStores dt (g.tile (i / g.Sk) (i % g.Sk)) N B)
        Bf := if wantsBf c p dt K && (List.range g.Sn).all p.bf then
            some fun ns => stores (p.freshBf ns) (tileStores dt (fullTile g ns) N B)
          else none }
    else none

/-! ### What a packed weight holds -/

/-- A tile in memory holds its part of `B`. -/
def Tiled (nb : Nat) (B : Nat → R) (N : Nat) (t : Tile) (m : Nat → R) : Prop :=
  ∀ k n, k < t.Kp → n < t.Nc → m (wIndex nb t.Kp k n) = B ((t.k0 + k) * N + (t.n0 + n))

theorem tiled_tileStores {dt : Dt} {t : Tile} (hK : 32 ∣ t.Kp) (hN : ntSz dt ∣ t.Nc) (N : Nat) (B m : Nat → R) :
    Tiled (ntSz dt) B N t (stores m (tileStores dt t N B)) := by
  intro k n hk hn
  have hKT : t.KT * 32 = t.Kp := Nat.div_mul_cancel hK
  have hNN : t.Nc / ntSz dt * ntSz dt = t.Nc := Nat.div_mul_cancel hN
  have hstores : TileStores (ntSz dt) (t.Nc / ntSz dt) t.KT t.k0 t.n0 N B (tileStores dt t N B) := by
    unfold tileStores
    split
    · next h =>
        have hnb : ntSz dt = 16 := if_pos h
        rw [hnb]
        exact f16TileRange_stores _ _ _ _ _ _
    · next h =>
        have hnb : ntSz dt = 32 := if_neg h
        rw [hnb]
        exact i8TileRange_stores _ _ _ _ _ _
  have := hstores.holds (ntSz_pos dt) m (k := k) (n := n) (by rwa [hKT]) (by rwa [hNN])
  rwa [hKT] at this

/-- The slice sizes are whole blocks. -/
structure Blocks (g : Geom) (nb : Nat) : Prop where
  KS_pos : 0 < g.KS
  KS : 32 ∣ g.KS
  NMAX_pos : 0 < g.NMAX
  NMAX : nb ∣ g.NMAX

theorem ntSz_dvd (dt : Dt) {n : Nat} (h : 32 ∣ n) : ntSz dt ∣ n := by
  unfold ntSz
  split
  · exact Nat.dvd_trans (by decide) h
  · exact h

theorem weightGeom_blocks {c : OrkNpu} (hc : c.soc ∈ socTable) (e : F16Knobs) (dt : Dt) (K N : Nat) :
    Blocks (weightGeom c e dt K N) (ntSz dt) := by
  have hn : c.soc.nmax = 8192 := socTable_nmax hc
  have hks : 0 < (weightGeom c e dt K N).KS ∧ 32 ∣ (weightGeom c e dt K N).KS := by
    simp only [weightGeom]
    split
    · exact e.ks_spec
    · exact c.int8Ks_spec
  refine ⟨hks.1, hks.2, ?_, ntSz_dvd dt ?_⟩
  · simp only [weightGeom, hn]
    decide
  · simp only [weightGeom, hn]
    decide

/-- The weight holds `B`, cut as `g`. -/
structure Holds (g : Geom) (B : Nat → R) (w : OrkW R) : Prop where
  K : w.K = g.K
  N : w.N = g.N
  Sk : w.Sk = g.Sk
  Sn : w.Sn = g.Sn
  K32 : 32 ∣ g.K
  Nnb : ntSz w.dt ∣ g.N
  Bb : ∀ ns ks, ns < g.Sn → ks < g.Sk → Tiled (ntSz w.dt) B g.N (g.tile ns ks) (w.Bb (ns * g.Sk + ks))
  Bf : ∀ f, w.Bf = some f → ∀ ns, ns < g.Sn → Tiled (ntSz w.dt) B g.N (fullTile g ns) (f ns)

theorem orkiPack_holds {c : OrkNpu} {e : F16Knobs} {p : PackEnv R} {dt : Dt} {K N : Nat} {B : Nat → R} {w : OrkW R}
    (hc : c.soc ∈ socTable) (h : orkiPack c e p dt K N B = some w) :
    Holds (weightGeom c e dt K N) B w ∧ w.dt = dt ∧ (w.Bf.isSome → wantsBf c p dt K = true) := by
  have hg := weightGeom_blocks hc e dt K N
  unfold orkiPack at h
  split at h
  · cases h
  · next hdims =>
      have hK : 32 ∣ K := by omega
      have hN : ntSz dt ∣ N := Nat.dvd_of_mod_eq_zero (by omega)
      dsimp only at h
      split at h
      · obtain rfl := Option.some.inj h
        refine ⟨⟨rfl, rfl, rfl, rfl, hK, hN, ?_, ?_⟩, rfl, ?_⟩
        · intro ns ks hns hks
          obtain ⟨hdiv, hmod⟩ := digits_div_mod hks ns
          dsimp only
          rw [hdiv, hmod]
          exact tiled_tileStores (dvd_pieceLen hK hg.KS) (dvd_pieceLen hN hg.NMAX) _ _ _
        · intro f hf ns hns
          dsimp only at hf
          split at hf
          · obtain rfl := Option.some.inj hf
            exact tiled_tileStores hK (dvd_pieceLen hN hg.NMAX) _ _ _
          · cases hf
        · intro hf
          dsimp only at hf
          split at hf
          · next hb => exact (Bool.and_eq_true_iff.mp hb).1
          · cases hf
      · cases h

/-- An environment that grants every buffer, new ones holding `x`. -/
def granted (x : R) : PackEnv R := ⟨fun _ => true, fun _ => true, fun _ _ => x, fun _ _ => x, false, false⟩

theorem exists_orkiPack (c : OrkNpu) (e : F16Knobs) (x : R) (dt : Dt) {K N : Nat} (hK : K % 32 = 0)
    (hN : N % ntSz dt = 0) (B : Nat → R) : ∃ w, orkiPack c e (granted x) dt K N B = some w ∧
      w.Bf.isSome = wantsBf c (granted x) dt K := by
  have hbb : ∀ n, (List.range n).all (granted x).bb = true := fun n => List.all_eq_true.mpr fun _ _ => rfl
  have hbf : ∀ n, (List.range n).all (granted x).bf = true := fun n => List.all_eq_true.mpr fun _ _ => rfl
  unfold orkiPack
  rw [if_neg (by omega)]
  dsimp only
  rw [if_pos (hbb _)]
  refine ⟨_, rfl, ?_⟩
  dsimp only
  rw [hbf, Bool.and_true]
  cases wantsBf c (granted x) dt K <;> rfl

end OrkDriver.Run
