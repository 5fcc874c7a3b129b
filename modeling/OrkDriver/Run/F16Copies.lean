import OrkDriver.Lib.Transition
import OrkDriver.Run.Weight

/-!
The derived copies of an fp16 weight (`npu/f16/run.c`, and the lazy builds of `npu/core/colsplit.c` and `npu.c`): the
K-slices one after another, which the column split reads, and the full-K cube, which the fused programs read.
-/

namespace OrkDriver.Run

open OrkDriver.Lib OrkDriver.Npu OrkDriver.Pack Transition

variable {R S : Type*}

/-- A device buffer: its size in bytes, and the elements in it. -/
structure Buf (R : Type*) where
  size : Nat
  cpu : Nat → R

/-- An fp16 weight with its copies, `none` where the `_valid` latch is clear. -/
structure F16W (R : Type*) extends OrkW R where
  Bbc : Option (Buf R)
  BbcNs : Option (Nat → Buf R)
  Bfull : Option (Nat → R)

/-! ### The tilers -/

/-- `f16_tile_s_range` over all `NN` block columns. -/
def f16TileSRange (NN KT k0 n0 : Nat) (src : Int → R) (sk sn : Int) : List (Nat × R) :=
  (List.range NN).flatMap fun nt => (List.range 16).flatMap fun nl => (List.range KT).flatMap fun kt =>
    (List.range 32).map fun kk =>
      (nt * KT * 16 * 32 + nl * 32 + kt * 16 * 32 + kk,
        src (((n0 + nt * 16 + nl : Nat) : Int) * sn + (k0 : Int) * sk + ((kt * 32 : Nat) : Int) * sk + (kk : Int) * sk))

/-- `tile_i8_to_f16_range` over all `NN` block columns; `toF16 q s` is `(f16)((float)q*s)`. -/
def tileI8ToF16Range (toF16 : Int → S → R) (NN KT k0 n0 N : Nat) (Bi : Nat → Int) (bscale : Nat → S) : List (Nat × R) :=
  (List.range NN).flatMap fun nt => (List.range KT).flatMap fun kt => (List.range 16).flatMap fun nl =>
    (List.range 32).map fun kk =>
      (nt * KT * 16 * 32 + kt * 16 * 32 + nl * 32 + kk,
        toF16 (Bi ((k0 + kt * 32) * N + (n0 + nt * 16 + nl) + kk * N)) (bscale (n0 + nt * 16 + nl)))

/-! ### Copying and writing -/

/-- `off` at K-slice `ks`, in elements. -/
def contigOff (g : Geom) (width ks : Nat) : Nat := ((List.range ks).map fun j => pieceLen g.K g.KS j * width).sum

/-- The concatenation loop: K-slice after K-slice, each of `width` columns. -/
def contigStores (g : Geom) (width : Nat) (slice : Nat → Nat → R) : List (Nat × R) :=
  (List.range g.Sk).flatMap fun ks =>
    (List.range (pieceLen g.K g.KS ks * width)).map fun i => (contigOff g width ks + i, slice ks i)

/-- Whether the refresh finds room for every slice. -/
def contigFits (g : Geom) (width size : Nat) : Bool :=
  (List.range g.Sk).all fun ks => contigOff g width ks * 2 + pieceLen g.K g.KS ks * width * 2 ≤ size

/-- `f16_derived_refresh`: a copy that has no room is dropped, and with one N-slice all of them. -/
def f16DerivedRefresh (g : Geom) (w : F16W R) : F16W R :=
  { w with
    Bbc := w.Bbc.bind fun b =>
      if contigFits g g.N b.size = true then some ⟨b.size, stores b.cpu (contigStores g g.N w.Bb)⟩ else none
    BbcNs := w.BbcNs.bind fun b =>
      if (List.range g.Sn).all (fun ns => contigFits g (pieceLen g.N g.NMAX ns) (b ns).size) = true then
        some fun ns => ⟨(b ns).size, stores (b ns).cpu
          (contigStores g (pieceLen g.N g.NMAX ns) fun ks => w.Bb (ns * w.Sk + ks))⟩
      else none }

/-- Every tile is written again. -/
def retile (g : Geom) (tiler : Tile → List (Nat × R)) (w : F16W R) : F16W R :=
  { w with Bb := fun i => stores (w.Bb i) (tiler (g.tile (i / w.Sk) (i % w.Sk))) }

variable (c : OrkNpu) (e : F16Knobs)

/-- `ork_f16_mm_repack`. -/
def orkF16MmRepack (w : F16W R) (K N : Nat) (B : Nat → R) : Int × F16W R :=
  if w.dt ≠ .f16 then (-1, w)
  else if w.K ≠ K ∨ w.N ≠ N then (-2, w)
  else
    let g := weightGeom c e .f16 K N
    (0, f16DerivedRefresh g (retile g (fun t => f16TileRange (t.Nc / 16) t.KT t.k0 t.n0 N B) w))

/-- `ork_f16_mm_repack_strided`, from a source already read as fp16. -/
def orkF16MmRepackStrided (w : F16W R) (K N : Nat) (src : Int → R) (sk sn : Int) : Int × F16W R :=
  if w.dt ≠ .f16 then (-1, w)
  else if w.K ≠ K ∨ w.N ≠ N then (-2, w)
  else
    let g := weightGeom c e .f16 K N
    (0, f16DerivedRefresh g (retile g (fun t => f16TileSRange (t.Nc / 16) t.KT t.k0 t.n0 src sk sn) w))

/-- `ork_i8_mm_inflate_to_f16`. -/
def orkI8MmInflateToF16 (toF16 : Int → S → R) (w : F16W R) (K N : Nat) (i8 : Nat → Int) (bscale : Nat → S) :
    Int × F16W R :=
  if w.dt ≠ .f16 then (-1, w)
  else if w.K ≠ K ∨ w.N ≠ N then (-2, w)
  else
    let g := weightGeom c e .f16 K N
    (0, retile g (fun t => tileI8ToF16Range toF16 (t.Nc / 16) t.KT t.k0 t.n0 N i8 bscale) w)

/-! ### The lazy builds -/

/-- A new buffer with the concatenation in it; what it held before is `fresh`. -/
def contigBuild (g : Geom) (width : Nat) (fresh : Nat → R) (slice : Nat → Nat → R) : Buf R :=
  ⟨pgup (contigOff g width g.Sk * 2), stores fresh (contigStores g width slice)⟩

/-- The build in `ork_dyn_begin_colsplit`, where the concatenation is wanted: one N-slice. -/
def colsplitContig (granted : Bool) (fresh : Nat → R) (w : F16W R) : F16W R :=
  if w.Sn = 1 ∧ w.Bbc.isNone ∧ granted = true then
    { w with Bbc := some (contigBuild (weightGeom c e .f16 w.K w.N) w.N fresh w.Bb) }
  else w

/-- The build in `run_multicore` for several N-slices: one buffer not granted leaves the latch clear. -/
def widenContig (granted : Nat → Bool) (fresh : Nat → Nat → R) (w : F16W R) : F16W R :=
  let g := weightGeom c e .f16 w.K w.N
  if 1 < w.Sn ∧ w.BbcNs.isNone ∧ (List.range w.Sn).all granted = true then
    { w with BbcNs := some fun ns => contigBuild g (pieceLen g.N g.NMAX ns) (fresh ns) fun ks => w.Bb (ns * w.Sk + ks) }
  else w

/-- `ktoff` at K-slice `ks`. -/
def ktOff (g : Geom) (ks : Nat) : Nat := ((List.range ks).map fun j => pieceLen g.K g.KS j / 32).sum

/-- The copies of `orki_f16_bfull`. -/
def bfullStores (g : Geom) (Bb : Nat → Nat → R) : List (Nat × R) :=
  (List.range (g.N / 16)).flatMap fun nt => (List.range g.Sk).flatMap fun ks =>
    (List.range (pieceLen g.K g.KS ks / 32 * 16 * 32)).map fun i =>
      ((nt * (g.K / 32) + ktOff g ks) * 16 * 32 + i, Bb ks (nt * (pieceLen g.K g.KS ks / 32) * 16 * 32 + i))

/-- `orki_f16_bfull`. -/
def orkiF16Bfull (granted : Bool) (fresh : Nat → R) (w : F16W R) : F16W R :=
  if w.Bfull.isNone ∧ w.Sn = 1 ∧ granted = true then
    { w with Bfull := some (stores fresh (bfullStores (weightGeom c e .f16 w.K w.N) w.Bb)) }
  else w

/-! ### Runs -/

/-- What is done with a weight after it was packed. -/
inductive F16Op (R S : Type*)
  | repack (K N : Nat) (B : Nat → R)
  | repackStrided (K N : Nat) (src : Int → R) (sk sn : Int)
  | inflate (K N : Nat) (i8 : Nat → Int) (bscale : Nat → S)
  | colsplit (granted : Bool) (fresh : Nat → R)
  | widen (granted : Nat → Bool) (fresh : Nat → Nat → R)
  | bfull (granted : Bool) (fresh : Nat → R)

/-- The weight and the matrix most recently written to it. -/
structure F16State (R : Type*) where
  w : F16W R
  B : Nat → R

variable (toF16 : Int → S → R)

namespace F16Op

/-- The matrix the call is given, if it is one for a K x N weight. -/
def source : F16Op R S → Option (Nat × Nat × (Nat → R))
  | .repack K N B => some (K, N, B)
  | .repackStrided K N src sk sn => some (K, N, fun x => src (((x / N : Nat) : Int) * sk + ((x % N : Nat) : Int) * sn))
  | .inflate K N i8 bscale => some (K, N, fun x => toF16 (i8 x) (bscale (x % N)))
  | _ => none

/-- The weight after the call. -/
def apply (w : F16W R) : F16Op R S → F16W R
  | .repack K N B => (orkF16MmRepack c e w K N B).2
  | .repackStrided K N src sk sn => (orkF16MmRepackStrided c e w K N src sk sn).2
  | .inflate K N i8 bscale => (orkI8MmInflateToF16 c e toF16 w K N i8 bscale).2
  | .colsplit granted fresh => colsplitContig c e granted fresh w
  | .widen granted fresh => widenContig c e granted fresh w
  | .bfull granted fresh => orkiF16Bfull c e granted fresh w

/-- The matrix written, if the call is accepted. -/
def written (w : F16W R) (op : F16Op R S) : Option (Nat → R) :=
  (op.source toF16).bind fun s => if w.dt = .f16 ∧ w.K = s.1 ∧ w.N = s.2.1 then some s.2.2 else none

/-- Whether the call refreshes the concatenated copies. -/
def refreshes : F16Op R S → Bool
  | .inflate .. => false
  | _ => true

def next (s : F16State R) (op : F16Op R S) : F16State R :=
  ⟨op.apply c e toF16 s.w, (op.written toF16 s.w).getD s.B⟩

end F16Op

/-- A packed weight, nothing derived from it yet. -/
def F16State.packed (w : OrkW R) (B : Nat → R) : F16State R := ⟨{ w with Bbc := none, BbcNs := none, Bfull := none }, B⟩

/-- A concatenation of slices of `width` columns holds the tiles of N-slice `ns`. -/
def Slices (g : Geom) (B : Nat → R) (width ns : Nat) (m : Nat → R) : Prop :=
  ∀ ks, ks < g.Sk → Tiled 16 B g.N (g.tile ns ks) fun i => m (contigOff g width ks + i)

/-- The geometry of an fp16 weight. -/
def F16W.geom (w : F16W R) : Geom := weightGeom c e .f16 w.K w.N

/-- The copies in use hold the matrix most recently written, tiled. -/
structure Coherent (s : F16State R) : Prop where
  Bbc : ∀ b, s.w.Bbc = some b → Slices (s.w.geom c e) s.B s.w.N 0 b.cpu
  BbcNs : ∀ b, s.w.BbcNs = some b → ∀ ns, ns < (s.w.geom c e).Sn →
    Slices (s.w.geom c e) s.B (pieceLen s.w.N c.soc.nmax ns) ns (b ns).cpu
  Bfull : ∀ b, s.w.Bfull = some b → Tiled 16 s.B s.w.N (fullTile (s.w.geom c e) 0) b

/-- A call writes the matrix the weight already has, or leaves no copy behind: not the full-K cube, which no call
writes again, and after an inflate none at all. -/
def Kept (s : F16State R) (op : F16Op R S) : Prop :=
  ∀ B, op.written toF16 s.w = some B →
    (∀ k n, k < s.w.K → n < s.w.N → B (k * s.w.N + n) = s.B (k * s.w.N + n)) ∨
      s.w.Bfull = none ∧ (op.refreshes = false → s.w.Bbc = none ∧ s.w.BbcNs = none)

/-! ### The tilers write the matrix -/

section

variable {NN KT k0 n0 N : Nat}

theorem column_lt {nt nl : Nat} (h : n0 + NN * 16 ≤ N) (hnt : nt < NN) (hnl : nl < 16) : n0 + (nt * 16 + nl) < N :=
  lt_of_lt_of_le (Nat.add_lt_add_left (digits_lt hnt hnl) n0) h

theorem f16TileSRange_stores (h : n0 + NN * 16 ≤ N) (src : Int → R) (sk sn : Int) :
    TileStores 16 NN KT k0 n0 N (fun x => src (((x / N : Nat) : Int) * sk + ((x % N : Nat) : Int) * sn))
      (f16TileSRange NN KT k0 n0 src sk sn) := by
  have hcell : ∀ nt kt nl kk, nt < NN → nl < 16 →
      (nt * KT * 16 * 32 + nl * 32 + kt * 16 * 32 + kk,
        src (((n0 + nt * 16 + nl : Nat) : Int) * sn + (k0 : Int) * sk + ((kt * 32 : Nat) : Int) * sk + (kk : Int) * sk)) =
      ((nt * KT + kt) * (16 * 32) + (nl * 32 + kk),
        src (((((k0 + (kt * 32 + kk)) * N + (n0 + (nt * 16 + nl))) / N : Nat) : Int) * sk +
          ((((k0 + (kt * 32 + kk)) * N + (n0 + (nt * 16 + nl))) % N : Nat) : Int) * sn)) := by
    intro nt kt nl kk hnt hnl
    obtain ⟨hdiv, hmod⟩ := digits_div_mod (column_lt h hnt hnl) (k0 + (kt * 32 + kk))
    rw [hdiv, hmod]
    refine Prod.ext ?_ (congrArg src ?_)
    · ring
    · push_cast
      ring
  intro w
  simp only [f16TileSRange, List.mem_flatMap, List.mem_map, List.mem_range]
  constructor
  · rintro ⟨nt, hnt, nl, hnl, kt, hkt, kk, hkk, rfl⟩
    exact ⟨nt, kt, nl, kk, hnt, hkt, hnl, hkk, hcell nt kt nl kk hnt hnl⟩
  · rintro ⟨nt, kt, nl, kk, hnt, hkt, hnl, hkk, rfl⟩
    exact ⟨nt, hnt, nl, hnl, kt, hkt, kk, hkk, hcell nt kt nl kk hnt hnl⟩

theorem tileI8ToF16Range_stores (h : n0 + NN * 16 ≤ N) (toF16 : Int → S → R) (Bi : Nat → Int) (bscale : Nat → S) :
    TileStores 16 NN KT k0 n0 N (fun x => toF16 (Bi x) (bscale (x % N)))
      (tileI8ToF16Range toF16 NN KT k0 n0 N Bi bscale) := by
  have hcell : ∀ nt kt nl kk, nt < NN → nl < 16 →
      (nt * KT * 16 * 32 + kt * 16 * 32 + nl * 32 + kk,
        toF16 (Bi ((k0 + kt * 32) * N + (n0 + nt * 16 + nl) + kk * N)) (bscale (n0 + nt * 16 + nl))) =
      ((nt * KT + kt) * (16 * 32) + (nl * 32 + kk),
        toF16 (Bi ((k0 + (kt * 32 + kk)) * N + (n0 + (nt * 16 + nl))))
          (bscale (((k0 + (kt * 32 + kk)) * N + (n0 + (nt * 16 + nl))) % N))) := by
    intro nt kt nl kk hnt hnl
    obtain ⟨-, hmod⟩ := digits_div_mod (column_lt h hnt hnl) (k0 + (kt * 32 + kk))
    rw [hmod, ← Nat.add_assoc n0]
    refine Prod.ext ?_ (congrArg (fun x => toF16 (Bi x) (bscale (n0 + nt * 16 + nl))) ?_)
    · ring
    · ring
  intro w
  simp only [tileI8ToF16Range, List.mem_flatMap, List.mem_map, List.mem_range]
  constructor
  · rintro ⟨nt, hnt, kt, hkt, nl, hnl, kk, hkk, rfl⟩
    exact ⟨nt, kt, nl, kk, hnt, hkt, hnl, hkk, hcell nt kt nl kk hnt hnl⟩
  · rintro ⟨nt, kt, nl, kk, hnt, hkt, hnl, hkk, rfl⟩
    exact ⟨nt, hnt, kt, hkt, nl, hnl, kk, hkk, hcell nt kt nl kk hnt hnl⟩

end

/-! ### What a copy holds -/

section

variable {g : Geom} {width ks : Nat} {slice : Nat → Nat → R}

theorem contigOff_succ (g : Geom) (width ks : Nat) :
    contigOff g width (ks + 1) = contigOff g width ks + pieceLen g.K g.KS ks * width := by
  rw [contigOff, List.range_succ, List.map_append, List.sum_append, List.map_cons, List.map_nil, List.sum_cons,
    List.sum_nil, Nat.add_zero, contigOff]

theorem contigOff_mono (g : Geom) (width : Nat) : Monotone (contigOff g width) :=
  monotone_nat_of_le_succ fun ks => by
    rw [contigOff_succ]
    exact Nat.le_add_right _ _

theorem contigStores_cell (m : Nat → R) (hks : ks < g.Sk) {i : Nat} (hi : i < pieceLen g.K g.KS ks * width) :
    stores m (contigStores g width slice) (contigOff g width ks + i) = slice ks i := by
  refine stores.of_mem ⟨(contigOff g width ks + i, slice ks i), ?_, rfl⟩ fun w hw hidx => ?_
  · simp only [contigStores, List.mem_flatMap, List.mem_map, List.mem_range]
    exact ⟨ks, hks, i, hi, rfl⟩
  · simp only [contigStores, List.mem_flatMap, List.mem_map, List.mem_range] at hw
    obtain ⟨ks', -, i', hi', rfl⟩ := hw
    have hsucc := contigOff_succ g width ks
    have hsucc' := contigOff_succ g width ks'
    dsimp only at hidx ⊢
    obtain rfl : ks' = ks := between_unique (contigOff_mono g width)
      (x := contigOff g width ks + i) ⟨by omega, by omega⟩ ⟨by omega, by omega⟩
    rw [Nat.add_left_cancel hidx]

theorem contigStores_tiled {B : Nat → R} {N : Nat} {t : Tile} (hK : 32 ∣ t.Kp) (hN : 16 ∣ t.Nc)
    (hKp : t.Kp = pieceLen g.K g.KS ks) (hNc : t.Nc = width) (hks : ks < g.Sk) (h : Tiled 16 B N t (slice ks))
    (m : Nat → R) : Tiled 16 B N t fun i => stores m (contigStores g width slice) (contigOff g width ks + i) := by
  intro k n hk hn
  have hlt := wIndex_lt (by decide) hK hN hk hn
  dsimp only
  rw [contigStores_cell m hks (by rwa [← hKp, ← hNc]), h k n hk hn]

theorem ktOff_succ (g : Geom) (ks : Nat) : ktOff g (ks + 1) = ktOff g ks + pieceLen g.K g.KS ks / 32 := by
  rw [ktOff, List.range_succ, List.map_append, List.sum_append, List.map_cons, List.map_nil, List.sum_cons,
    List.sum_nil, Nat.add_zero, ktOff]

theorem ktOff_mono (g : Geom) : Monotone (ktOff g) :=
  monotone_nat_of_le_succ fun ks => by
    rw [ktOff_succ]
    exact Nat.le_add_right _ _

/-- Slice sizes and dimensions in whole blocks, and the columns in one N-slice. -/
structure OneSlice (g : Geom) : Prop where
  blocks : Blocks g 16
  K : 32 ∣ g.K
  N : 16 ∣ g.N
  le : g.N ≤ g.NMAX

theorem OneSlice.ktOff (h : OneSlice g) (hks : ks < g.Sk) : ktOff g ks * 32 = ks * g.KS := by
  have hsum := pieceLen_sum hks h.blocks.KS_pos
  rw [← hsum]
  clear hsum hks
  induction ks with
  | zero => rfl
  | succ ks ih =>
      rw [ktOff_succ, Nat.add_mul, ih, Nat.div_mul_cancel (dvd_pieceLen h.K h.blocks.KS), List.range_succ,
        List.map_append, List.sum_append, List.map_cons, List.map_nil, List.sum_cons, List.sum_nil, Nat.add_zero]

/-- Row blocks of K-slice `ks` are row blocks of the matrix. -/
theorem OneSlice.ktOff_succ_le (h : OneSlice g) (hks : ks < g.Sk) : Run.ktOff g (ks + 1) ≤ g.K / 32 := by
  have hoff := h.ktOff hks
  have hle := piece_le h.blocks.KS_pos hks
  have hd := dvd_pieceLen (i := ks) h.K h.blocks.KS
  rw [ktOff_succ]
  omega

/-- Cell `(k, n)` is copied from its place in the slice that holds row `k` to its place in the full-K cube. -/
theorem mem_bfullStores (h : OneSlice g) (Bb : Nat → Nat → R) {k n : Nat} (hk : k < g.K) (hn : n < g.N) :
    (wIndex 16 g.K k n, Bb (k / g.KS) (wIndex 16 (pieceLen g.K g.KS (k / g.KS)) (k % g.KS) n)) ∈ bfullStores g Bb := by
  have hks : k / g.KS < g.Sk := div_lt_pieces h.blocks.KS_pos hk
  have hr := mod_lt_pieceLen h.blocks.KS_pos hk
  have hkr := Nat.div_add_mod' k g.KS
  have hoff := h.ktOff hks
  have hlen : 32 ∣ pieceLen g.K g.KS (k / g.KS) := dvd_pieceLen h.K h.blocks.KS
  have hplace : n % 16 * 32 + k % g.KS % 32 < 16 * 32 := by omega
  have hi : k % g.KS / 32 * (16 * 32) + (n % 16 * 32 + k % g.KS % 32) <
      pieceLen g.K g.KS (k / g.KS) / 32 * (16 * 32) := digits_lt (by omega) hplace
  have hrow : k / 32 = Run.ktOff g (k / g.KS) + k % g.KS / 32 ∧ k % 32 = k % g.KS % 32 := by omega
  have hN := h.N
  simp only [bfullStores, List.mem_flatMap, List.mem_map, List.mem_range]
  refine ⟨n / 16, by omega, k / g.KS, hks, _, by rwa [Nat.mul_assoc], Prod.ext ?_ (congrArg (Bb _) ?_)⟩
  · rw [wIndex, hrow.1, hrow.2]
    ring
  · rw [wIndex]
    ring

theorem bfullStores_tiled {B : Nat → R} {Bb : Nat → Nat → R} (h : OneSlice g)
    (hBb : ∀ ks, ks < g.Sk → Tiled 16 B g.N (g.tile 0 ks) (Bb ks)) (m : Nat → R) :
    Tiled 16 B g.N (fullTile g 0) (stores m (bfullStores g Bb)) := by
  intro k n hk hn
  have hNc : pieceLen g.N g.NMAX 0 = g.N := pieceLen_of_le h.le
  change k < g.K at hk
  change n < pieceLen g.N g.NMAX 0 at hn
  have hks : k / g.KS < g.Sk := div_lt_pieces h.blocks.KS_pos hk
  have hr := mod_lt_pieceLen h.blocks.KS_pos hk
  have hkr := Nat.div_add_mod' k g.KS
  have hoff := h.ktOff hks
  have hend := h.ktOff_succ_le hks
  have hlen : 32 ∣ pieceLen g.K g.KS (k / g.KS) := dvd_pieceLen h.K h.blocks.KS
  have hplace : n % 16 * 32 + k % g.KS % 32 < 16 * 32 := by omega
  have hrow : k / 32 = Run.ktOff g (k / g.KS) + k % g.KS / 32 ∧ k % 32 = k % g.KS % 32 := by omega
  refine stores.of_mem ⟨_, mem_bfullStores h Bb hk (by rwa [← hNc]), rfl⟩ fun w hw hidx => ?_
  -- the row block is in one slice only
  simp only [bfullStores, List.mem_flatMap, List.mem_map, List.mem_range] at hw
  obtain ⟨nt, -, ks, hks', i, hi', rfl⟩ := hw
  have hdiv := Nat.div_add_mod' i (16 * 32)
  have hmod : i % (16 * 32) < 16 * 32 := Nat.mod_lt _ (by decide)
  have hkt : i / (16 * 32) < pieceLen g.K g.KS ks / 32 := Nat.div_lt_of_lt_mul (by
    rw [Nat.mul_comm, ← Nat.mul_assoc]
    exact hi')
  have hend' := h.ktOff_succ_le hks'
  have hsucc := ktOff_succ g ks
  have hsucc' := ktOff_succ g (k / g.KS)
  dsimp only [fullTile] at hidx ⊢
  have hidx' : (nt * (g.K / 32) + (Run.ktOff g ks + i / (16 * 32))) * (16 * 32) + i % (16 * 32) =
      (n / 16 * (g.K / 32) + (Run.ktOff g (k / g.KS) + k % g.KS / 32)) * (16 * 32) +
        (n % 16 * 32 + k % g.KS % 32) := by
    rw [wIndex, hrow.1, hrow.2] at hidx
    rw [← hidx, ← Nat.add_assoc, Nat.add_mul _ (i / (16 * 32)), Nat.add_assoc, hdiv, Nat.mul_assoc]
  obtain ⟨hblock, hpl⟩ := digits_inj hmod hplace hidx'
  obtain ⟨rfl, hkb⟩ := digits_inj (by omega) (by omega) hblock
  obtain rfl : ks = k / g.KS := between_unique (ktOff_mono g) (x := k / 32) (by omega) (by omega)
  have hiq : i / (16 * 32) = k % g.KS / 32 := Nat.add_left_cancel hkb
  have hread := hBb _ hks' (k % g.KS) n hr hn
  dsimp only [Geom.tile, fullTile] at hread ⊢
  rw [hkr] at hread
  rw [Nat.zero_add, ← hread, wIndex, ← hdiv, hiq, hpl]
  congr 1
  ring

end

end OrkDriver.Run
