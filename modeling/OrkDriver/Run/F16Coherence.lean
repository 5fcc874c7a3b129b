import OrkDriver.Run.F16Copies

/-!
When the derived copies of an fp16 weight hold the matrix most recently written to it.
-/

namespace OrkDriver.Run

open OrkDriver.Lib OrkDriver.Npu OrkDriver.Pack Transition

variable {R S : Type*} (c : OrkNpu) (e : F16Knobs) (toF16 : Int → S → R)

/-! ### A copy and its matrix -/

section

variable {B B' : Nat → R} {N : Nat} {t : Tile} {m : Nat → R}

theorem Tiled.agree (h : Tiled 16 B N t m) (h' : Tiled 16 B' N t m) {k n : Nat} (hk : k < t.Kp) (hn : n < t.Nc) :
    B' ((t.k0 + k) * N + (t.n0 + n)) = B ((t.k0 + k) * N + (t.n0 + n)) :=
  (h' k n hk hn).symm.trans (h k n hk hn)

theorem Tiled.congr (h : Tiled 16 B N t m)
    (hB : ∀ k n, k < t.Kp → n < t.Nc → B' ((t.k0 + k) * N + (t.n0 + n)) = B ((t.k0 + k) * N + (t.n0 + n))) :
    Tiled 16 B' N t m := fun k n hk hn => (h k n hk hn).trans (hB k n hk hn).symm

/-- Two matrices with the same elements. -/
def Agree (K N : Nat) (B B' : Nat → R) : Prop := ∀ k n, k < K → n < N → B' (k * N + n) = B (k * N + n)

variable {g : Geom} {ns width : Nat}

theorem Slices.agree (hg : Blocks g 16) (h : Slices g B width ns m) (h' : Slices g B' width ns m) {k n : Nat}
    (hk : k < g.K) (hn : n < g.N) (hns : ns = n / g.NMAX) : B' (k * g.N + n) = B (k * g.N + n) := by
  subst hns
  have hks := div_lt_pieces hg.KS_pos hk
  have := (h _ hks).agree (h' _ hks) (mod_lt_pieceLen hg.KS_pos hk) (mod_lt_pieceLen hg.NMAX_pos hn)
  dsimp only [Geom.tile] at this
  rwa [Nat.div_add_mod', Nat.div_add_mod'] at this

theorem Slices.congr (hg : Blocks g 16) (h : Slices g B width ns m) (hns : ns < g.Sn) (hB : Agree g.K g.N B B') :
    Slices g B' width ns m := by
  intro ks hks
  have hKle := piece_le hg.KS_pos hks
  have hNle := piece_le hg.NMAX_pos hns
  refine (h ks hks).congr fun k n hk hn => ?_
  change k < pieceLen g.K g.KS ks at hk
  change n < pieceLen g.N g.NMAX ns at hn
  dsimp only [Geom.tile]
  exact hB _ _ (by omega) (by omega)

theorem contigStores_slices (hg : Blocks g 16) (hK : 32 ∣ g.K) (hN : 16 ∣ g.N) {slice : Nat → Nat → R}
    (hw : width = pieceLen g.N g.NMAX ns) (h : ∀ ks, ks < g.Sk → Tiled 16 B g.N (g.tile ns ks) (slice ks))
    (m : Nat → R) : Slices g B width ns (stores m (contigStores g width slice)) := fun ks hks =>
  contigStores_tiled (dvd_pieceLen hK hg.KS) (dvd_pieceLen hN hg.NMAX) rfl hw.symm hks (h ks hks) m

end

/-! ### One step -/

/-- A tiler that writes `B`. -/
def Tiler (g : Geom) (B : Nat → R) (tiler : Tile → List (Nat × R)) : Prop :=
  ∀ ns ks, ns < g.Sn → ks < g.Sk → TileStores 16 ((g.tile ns ks).Nc / 16) (g.tile ns ks).KT (g.tile ns ks).k0
    (g.tile ns ks).n0 g.N B (tiler (g.tile ns ks))

/-- An fp16 weight whose tiles hold the matrix most recently written, with no copy that its shape excludes. -/
structure Sound (s : F16State R) : Prop where
  holds : Holds (s.w.geom c e) s.B s.w.toOrkW
  dt : s.w.dt = .f16
  Bf : s.w.Bf = none
  Bbc : s.w.Bbc ≠ none → s.w.Sn = 1
  Bfull : s.w.Bfull ≠ none → s.w.Sn = 1

section

variable {c e} {g : Geom}

theorem tile_columns (hg : Blocks g 16) (hN : 16 ∣ g.N) {ns : Nat} (ks : Nat) (hns : ns < g.Sn) :
    (g.tile ns ks).n0 + (g.tile ns ks).Nc / 16 * 16 ≤ g.N := by
  have hd : 16 ∣ (g.tile ns ks).Nc := dvd_pieceLen hN hg.NMAX
  rw [Nat.div_mul_cancel hd]
  exact piece_le hg.NMAX_pos hns

theorem tiler_f16 (g : Geom) (B : Nat → R) :
    Tiler g B fun t => f16TileRange (t.Nc / 16) t.KT t.k0 t.n0 g.N B := fun _ _ _ _ => f16TileRange_stores _ _ _ _ _ _

theorem tiler_strided (hg : Blocks g 16) (hN : 16 ∣ g.N) (src : Int → R) (sk sn : Int) :
    Tiler g (fun x => src (((x / g.N : Nat) : Int) * sk + ((x % g.N : Nat) : Int) * sn))
      fun t => f16TileSRange (t.Nc / 16) t.KT t.k0 t.n0 src sk sn :=
  fun _ ks hns _ => f16TileSRange_stores (tile_columns hg hN ks hns) src sk sn

theorem tiler_inflate (hg : Blocks g 16) (hN : 16 ∣ g.N) (toF16 : Int → S → R) (i8 : Nat → Int) (bscale : Nat → S) :
    Tiler g (fun x => toF16 (i8 x) (bscale (x % g.N)))
      fun t => tileI8ToF16Range toF16 (t.Nc / 16) t.KT t.k0 t.n0 g.N i8 bscale :=
  fun _ ks hns _ => tileI8ToF16Range_stores (tile_columns hg hN ks hns) toF16 i8 bscale

variable {s : F16State R}

theorem Sound.blocks (hc : c.soc ∈ socTable) (s : F16State R) : Blocks (s.w.geom c e) 16 := weightGeom_blocks hc e .f16 _ _

theorem Sound.N16 (h : Sound c e s) : 16 ∣ s.w.N := by
  have := h.holds.Nnb
  rwa [h.dt] at this

theorem Sound.Bb (h : Sound c e s) {ns ks : Nat} (hns : ns < (s.w.geom c e).Sn) (hks : ks < (s.w.geom c e).Sk) :
    Tiled 16 s.B s.w.N ((s.w.geom c e).tile ns ks) (s.w.Bb (ns * s.w.Sk + ks)) := by
  have := h.holds.Bb ns ks hns hks
  rwa [h.dt, ← h.holds.Sk] at this

theorem Sound.le_of_Sn (hc : c.soc ∈ socTable) (h : Sound c e s) (h1 : s.w.Sn = 1) : s.w.N ≤ c.soc.nmax := by
  rw [h.holds.Sn] at h1
  refine Nat.not_lt.mp fun hlt => ?_
  have : 1 < (s.w.geom c e).Sn := by
    refine (lt_pieces_iff (Sound.blocks hc s).NMAX_pos).mpr ?_
    rw [Nat.one_mul]
    exact hlt
  omega

/-- Writing every tile again makes the tiles hold the new matrix. -/
theorem retile_holds (hc : c.soc ∈ socTable) (h : Sound c e s) {B : Nat → R} {tiler : Tile → List (Nat × R)}
    (ht : Tiler (s.w.geom c e) B tiler) : Holds (s.w.geom c e) B (retile (s.w.geom c e) tiler s.w).toOrkW := by
  have hg : Blocks (s.w.geom c e) 16 := Sound.blocks hc s
  refine ⟨h.holds.K, h.holds.N, h.holds.Sk, h.holds.Sn, h.holds.K32, h.holds.Nnb, ?_, ?_⟩
  · intro ns ks hns hks
    have hSk : s.w.Sk = (s.w.geom c e).Sk := h.holds.Sk
    obtain ⟨hdiv, hmod⟩ := digits_div_mod hks ns
    have hnb : ntSz (retile (s.w.geom c e) tiler s.w).dt = 16 := congrArg ntSz h.dt
    dsimp only [retile] at hnb ⊢
    rw [hSk, hdiv, hmod, hnb]
    intro k n hk hn
    have hKp : 32 ∣ ((s.w.geom c e).tile ns ks).Kp := dvd_pieceLen h.holds.K32 hg.KS
    have hK := Nat.div_mul_cancel hKp
    have hN := Nat.div_mul_cancel (dvd_pieceLen (i := ns) h.N16 hg.NMAX)
    have := (ht ns ks hns hks).holds (by decide) (s.w.Bb (ns * (s.w.geom c e).Sk + ks)) (k := k) (n := n)
      (by rw [Tile.KT, hK]; exact hk) (by
        change n < pieceLen s.w.N _ ns / 16 * 16
        rw [hN]
        exact hn)
    rwa [Tile.KT, hK] at this
  · intro f hf
    have hnone : (retile (s.w.geom c e) tiler s.w).Bf = none := h.Bf
    rw [hnone] at hf
    cases hf

variable {toF16} {op : F16Op R S} {B : Nat → R}

/-- An accepted write goes over every tile, and refreshes the concatenated copies unless it is an inflate. -/
theorem F16Op.apply_of_written (hc : c.soc ∈ socTable) (h : Sound c e s) (hop : op.written toF16 s.w = some B) :
    ∃ tiler, Tiler (s.w.geom c e) B tiler ∧ op.apply c e toF16 s.w =
      if op.refreshes = true then f16DerivedRefresh (s.w.geom c e) (retile (s.w.geom c e) tiler s.w)
      else retile (s.w.geom c e) tiler s.w := by
  have hg : Blocks (s.w.geom c e) 16 := Sound.blocks hc s
  have hN : 16 ∣ (s.w.geom c e).N := h.N16
  obtain ⟨src, hsrc, hif⟩ := Option.bind_eq_some_iff.mp hop
  split at hif
  · next hdims =>
      obtain ⟨hdt, hK, hNeq⟩ := hdims
      have hB := Option.some.inj hif
      have hguard : ¬ s.w.dt ≠ .f16 := not_not.mpr hdt
      cases op with
      | repack K N B₀ =>
          obtain rfl := Option.some.inj hsrc
          obtain rfl : s.w.K = K := hK
          obtain rfl : s.w.N = N := hNeq
          subst hB
          refine ⟨_, tiler_f16 (s.w.geom c e) B₀, ?_⟩
          simp only [F16Op.apply, orkF16MmRepack, if_neg hguard, not_true_eq_false, or_self, if_false, ne_eq,
            F16Op.refreshes, if_true]
          rfl
      | repackStrided K N src₀ sk sn =>
          obtain rfl := Option.some.inj hsrc
          obtain rfl : s.w.K = K := hK
          obtain rfl : s.w.N = N := hNeq
          subst hB
          refine ⟨_, tiler_strided hg hN src₀ sk sn, ?_⟩
          simp only [F16Op.apply, orkF16MmRepackStrided, if_neg hguard, not_true_eq_false, or_self, if_false, ne_eq,
            F16Op.refreshes, if_true]
          rfl
      | inflate K N i8 bscale =>
          obtain rfl := Option.some.inj hsrc
          obtain rfl : s.w.K = K := hK
          obtain rfl : s.w.N = N := hNeq
          subst hB
          refine ⟨_, tiler_inflate hg hN toF16 i8 bscale, ?_⟩
          simp only [F16Op.apply, orkI8MmInflateToF16, if_neg hguard, not_true_eq_false, or_self, if_false, ne_eq,
            F16Op.refreshes, Bool.false_eq_true]
          rfl
      | colsplit granted fresh => cases hsrc
      | widen granted fresh => cases hsrc
      | bfull granted fresh => cases hsrc
  · cases hif

/-- A call that writes nothing leaves the weight alone, or builds a copy. -/
theorem F16Op.apply_of_unwritten (hdt : s.w.dt = .f16) (hop : op.written toF16 s.w = none) :
    op.apply c e toF16 s.w = s.w ∨ (∃ granted fresh, op.apply c e toF16 s.w = colsplitContig c e granted fresh s.w) ∨
      (∃ granted fresh, op.apply c e toF16 s.w = widenContig c e granted fresh s.w) ∨
      ∃ granted fresh, op.apply c e toF16 s.w = orkiF16Bfull c e granted fresh s.w := by
  have hdims : ∀ K N B₀, op.source toF16 = some (K, N, B₀) → s.w.K ≠ K ∨ s.w.N ≠ N := by
    intro K N B₀ hsrc
    by_contra hne
    have hboth : s.w.dt = .f16 ∧ s.w.K = K ∧ s.w.N = N := ⟨hdt, by omega, by omega⟩
    simp only [F16Op.written, hsrc, Option.bind_some, if_pos hboth, reduceCtorEq] at hop
  cases op with
  | repack K N B₀ =>
      refine .inl ?_
      simp only [F16Op.apply, orkF16MmRepack, if_neg (not_not.mpr hdt), if_pos (hdims K N _ rfl)]
  | repackStrided K N src₀ sk sn =>
      refine .inl ?_
      simp only [F16Op.apply, orkF16MmRepackStrided, if_neg (not_not.mpr hdt), if_pos (hdims K N _ rfl)]
  | inflate K N i8 bscale =>
      refine .inl ?_
      simp only [F16Op.apply, orkI8MmInflateToF16, if_neg (not_not.mpr hdt), if_pos (hdims K N _ rfl)]
  | colsplit granted fresh => exact .inr (.inl ⟨granted, fresh, rfl⟩)
  | widen granted fresh => exact .inr (.inr (.inl ⟨granted, fresh, rfl⟩))
  | bfull granted fresh => exact .inr (.inr (.inr ⟨granted, fresh, rfl⟩))

theorem Sound.retile (hc : c.soc ∈ socTable) (h : Sound c e s) {tiler : Tile → List (Nat × R)}
    (ht : Tiler (s.w.geom c e) B tiler) : Sound c e ⟨Run.retile (s.w.geom c e) tiler s.w, B⟩ :=
  ⟨retile_holds hc h ht, h.dt, h.Bf, h.Bbc, h.Bfull⟩

theorem Sound.refresh (h : Sound c e s) : Sound c e ⟨f16DerivedRefresh (s.w.geom c e) s.w, s.B⟩ := by
  refine ⟨h.holds, h.dt, h.Bf, fun hne => h.Bbc fun hnone => hne ?_, h.Bfull⟩
  dsimp only [f16DerivedRefresh]
  rw [hnone]
  rfl

/-- A refreshed concatenation holds what the tiles hold. -/
theorem refresh_Bbc (hc : c.soc ∈ socTable) (h : Sound c e s) {b : Buf R}
    (hb : (f16DerivedRefresh (s.w.geom c e) s.w).Bbc = some b) : Slices (s.w.geom c e) s.B s.w.N 0 b.cpu := by
  obtain ⟨b₀, hb₀, hif⟩ := Option.bind_eq_some_iff.mp hb
  have hSn := h.Bbc (by rw [hb₀]; exact Option.some_ne_none b₀)
  have hpos : 0 < (s.w.geom c e).Sn := by
    have : s.w.Sn = (s.w.geom c e).Sn := h.holds.Sn
    omega
  split at hif
  · obtain rfl := Option.some.inj hif
    refine contigStores_slices (Sound.blocks hc s) h.holds.K32 h.N16 ?_ (fun ks hks => ?_) b₀.cpu
    · exact (pieceLen_of_le (h.le_of_Sn hc hSn)).symm
    · have := h.Bb hpos hks
      rwa [Nat.zero_mul, Nat.zero_add] at this
  · cases hif

theorem refresh_BbcNs (hc : c.soc ∈ socTable) (h : Sound c e s) {b : Nat → Buf R}
    (hb : (f16DerivedRefresh (s.w.geom c e) s.w).BbcNs = some b) {ns : Nat} (hns : ns < (s.w.geom c e).Sn) :
    Slices (s.w.geom c e) s.B (pieceLen s.w.N c.soc.nmax ns) ns (b ns).cpu := by
  obtain ⟨b₀, -, hif⟩ := Option.bind_eq_some_iff.mp hb
  split at hif
  · obtain rfl := Option.some.inj hif
    exact contigStores_slices (Sound.blocks hc s) h.holds.K32 h.N16 rfl (fun ks hks => h.Bb hns hks) (b₀ ns).cpu
  · cases hif

/-- After a refresh all depends on the full-K cube. -/
theorem coherent_refresh_iff (hc : c.soc ∈ socTable) (h : Sound c e s) :
    Coherent c e ⟨f16DerivedRefresh (s.w.geom c e) s.w, s.B⟩ ↔
      ∀ b, s.w.Bfull = some b → Tiled 16 s.B s.w.N (fullTile (s.w.geom c e) 0) b :=
  ⟨fun hco => hco.Bfull, fun hfull =>
    ⟨fun _ hb => refresh_Bbc hc h hb, fun _ hb _ hns => refresh_BbcNs hc h hb hns, hfull⟩⟩

/-- The full-K cube holds another matrix only if that is the same one. -/
theorem bfull_iff (hc : c.soc ∈ socTable) (h : Sound c e s) (hco : Coherent c e s) :
    (∀ b, s.w.Bfull = some b → Tiled 16 B s.w.N (fullTile (s.w.geom c e) 0) b) ↔
      Agree s.w.K s.w.N s.B B ∨ s.w.Bfull = none := by
  cases hb : s.w.Bfull with
  | none => exact ⟨fun _ => .inr rfl, fun _ b hb => by cases hb⟩
  | some b =>
      have hNc : pieceLen s.w.N c.soc.nmax 0 = s.w.N :=
        pieceLen_of_le (h.le_of_Sn hc (h.Bfull (by rw [hb]; exact Option.some_ne_none b)))
      have hold := hco.Bfull b hb
      constructor
      · intro hnew
        refine .inl fun k n hk hn => ?_
        have := hold.agree (hnew b rfl) (k := k) (n := n) hk (lt_of_lt_of_eq hn hNc.symm)
        dsimp only [fullTile] at this
        rwa [Nat.zero_add, Nat.zero_mul, Nat.zero_add] at this
      · rintro (hag | hnone) b' hb'
        · obtain rfl := Option.some.inj hb'
          refine hold.congr fun k n hk hn => ?_
          dsimp only [fullTile]
          rw [Nat.zero_add, Nat.zero_mul, Nat.zero_add]
          exact hag k n hk (lt_of_lt_of_eq hn hNc)
        · cases hnone

theorem bbc_iff (hc : c.soc ∈ socTable) (h : Sound c e s) (hco : Coherent c e s) :
    (∀ b, s.w.Bbc = some b → Slices (s.w.geom c e) B s.w.N 0 b.cpu) ↔ Agree s.w.K s.w.N s.B B ∨ s.w.Bbc = none := by
  have hg : Blocks (s.w.geom c e) 16 := Sound.blocks hc s
  cases hb : s.w.Bbc with
  | none => exact ⟨fun _ => .inr rfl, fun _ b hb => by cases hb⟩
  | some b =>
      have hSn := h.Bbc (by rw [hb]; exact Option.some_ne_none b)
      have hle := h.le_of_Sn hc hSn
      have hpos : 0 < (s.w.geom c e).Sn := by
        have : s.w.Sn = (s.w.geom c e).Sn := h.holds.Sn
        omega
      have hold := hco.Bbc b hb
      constructor
      · intro hnew
        refine .inl fun k n hk hn => hold.agree hg (hnew b rfl) hk hn ?_
        exact (Nat.div_eq_of_lt (lt_of_lt_of_le hn hle)).symm
      · rintro (hag | hnone) b' hb'
        · obtain rfl := Option.some.inj hb'
          exact hold.congr hg hpos hag
        · cases hnone

theorem bbcNs_iff (hc : c.soc ∈ socTable) (hco : Coherent c e s) :
    (∀ b, s.w.BbcNs = some b → ∀ ns, ns < (s.w.geom c e).Sn →
      Slices (s.w.geom c e) B (pieceLen s.w.N c.soc.nmax ns) ns (b ns).cpu) ↔
        Agree s.w.K s.w.N s.B B ∨ s.w.BbcNs = none := by
  have hg : Blocks (s.w.geom c e) 16 := Sound.blocks hc s
  cases hb : s.w.BbcNs with
  | none => exact ⟨fun _ => .inr rfl, fun _ b hb => by cases hb⟩
  | some b =>
      have hold := hco.BbcNs b hb
      constructor
      · intro hnew
        refine .inl fun k n hk hn => ?_
        have hns := div_lt_pieces hg.NMAX_pos hn
        exact (hold _ hns).agree hg (hnew b rfl _ hns) hk hn rfl
      · rintro (hag | hnone) b' hb' ns hns
        · obtain rfl := Option.some.inj hb'
          exact (hold ns hns).congr hg hns hag
        · cases hnone

theorem colsplitContig_sound (hc : c.soc ∈ socTable) (h : Sound c e s) (hco : Coherent c e s) (granted : Bool)
    (fresh : Nat → R) : Sound c e ⟨colsplitContig c e granted fresh s.w, s.B⟩ ∧
      Coherent c e ⟨colsplitContig c e granted fresh s.w, s.B⟩ := by
  unfold colsplitContig
  split
  · next hif =>
      have hpos : 0 < (s.w.geom c e).Sn := by
        have : s.w.Sn = (s.w.geom c e).Sn := h.holds.Sn
        omega
      refine ⟨⟨h.holds, h.dt, h.Bf, fun _ => hif.1, h.Bfull⟩, ⟨fun b hb => ?_, hco.BbcNs, hco.Bfull⟩⟩
      obtain rfl := Option.some.inj hb
      refine contigStores_slices (Sound.blocks hc s) h.holds.K32 h.N16 ?_ (fun ks hks => ?_) fresh
      · exact (pieceLen_of_le (h.le_of_Sn hc hif.1)).symm
      · have := h.Bb hpos hks
        rwa [Nat.zero_mul, Nat.zero_add] at this
  · exact ⟨h, hco⟩

theorem widenContig_sound (hc : c.soc ∈ socTable) (h : Sound c e s) (hco : Coherent c e s) (granted : Nat → Bool)
    (fresh : Nat → Nat → R) : Sound c e ⟨widenContig c e granted fresh s.w, s.B⟩ ∧
      Coherent c e ⟨widenContig c e granted fresh s.w, s.B⟩ := by
  unfold widenContig
  dsimp only
  split
  · refine ⟨⟨h.holds, h.dt, h.Bf, h.Bbc, h.Bfull⟩, ⟨hco.Bbc, fun b hb ns hns => ?_, hco.Bfull⟩⟩
    obtain rfl := Option.some.inj hb
    exact contigStores_slices (Sound.blocks hc s) h.holds.K32 h.N16 rfl (fun ks hks => h.Bb hns hks) (fresh ns)
  · exact ⟨h, hco⟩

theorem orkiF16Bfull_sound (hc : c.soc ∈ socTable) (h : Sound c e s) (hco : Coherent c e s) (granted : Bool)
    (fresh : Nat → R) : Sound c e ⟨orkiF16Bfull c e granted fresh s.w, s.B⟩ ∧
      Coherent c e ⟨orkiF16Bfull c e granted fresh s.w, s.B⟩ := by
  unfold orkiF16Bfull
  split
  · next hif =>
      have hpos : 0 < (s.w.geom c e).Sn := by
        have : s.w.Sn = (s.w.geom c e).Sn := h.holds.Sn
        omega
      refine ⟨⟨h.holds, h.dt, h.Bf, h.Bbc, fun _ => hif.2.1⟩, ⟨hco.Bbc, hco.BbcNs, fun b hb => ?_⟩⟩
      obtain rfl := Option.some.inj hb
      refine bfullStores_tiled ⟨Sound.blocks hc s, h.holds.K32, h.N16, h.le_of_Sn hc hif.2.1⟩ (fun ks hks => ?_) fresh
      have := h.Bb hpos hks
      rwa [Nat.zero_mul, Nat.zero_add] at this
  · exact ⟨h, hco⟩

/-- The tiles hold the matrix most recently written, whatever is called. -/
theorem Sound.next (hc : c.soc ∈ socTable) (h : Sound c e s) (hco : Coherent c e s) (op : F16Op R S) :
    Sound c e (op.next c e toF16 s) := by
  unfold F16Op.next
  cases hop : op.written toF16 s.w with
  | none =>
      rw [Option.getD_none]
      rcases F16Op.apply_of_unwritten (c := c) (e := e) h.dt hop with
        heq | ⟨granted, fresh, heq⟩ | ⟨granted, fresh, heq⟩ | ⟨granted, fresh, heq⟩
      · rw [heq]
        exact h
      · rw [heq]
        exact (colsplitContig_sound hc h hco granted fresh).1
      · rw [heq]
        exact (widenContig_sound hc h hco granted fresh).1
      · rw [heq]
        exact (orkiF16Bfull_sound hc h hco granted fresh).1
  | some B =>
      obtain ⟨tiler, ht, heq⟩ := F16Op.apply_of_written hc h hop
      rw [heq, Option.getD_some]
      split
      · exact (h.retile hc ht).refresh
      · exact h.retile hc ht

/-- A call keeps the copies coherent exactly under the condition. -/
theorem coherent_next_iff (hc : c.soc ∈ socTable) (h : Sound c e s) (hco : Coherent c e s) (op : F16Op R S) :
    Coherent c e (op.next c e toF16 s) ↔ Kept toF16 s op := by
  unfold F16Op.next Kept
  cases hop : op.written toF16 s.w with
  | none =>
      rw [Option.getD_none]
      refine ⟨fun _ B hB => (nomatch hB), fun _ => ?_⟩
      rcases F16Op.apply_of_unwritten (c := c) (e := e) h.dt hop with
        heq | ⟨granted, fresh, heq⟩ | ⟨granted, fresh, heq⟩ | ⟨granted, fresh, heq⟩
      · rw [heq]
        exact hco
      · rw [heq]
        exact (colsplitContig_sound hc h hco granted fresh).2
      · rw [heq]
        exact (widenContig_sound hc h hco granted fresh).2
      · rw [heq]
        exact (orkiF16Bfull_sound hc h hco granted fresh).2
  | some B =>
      obtain ⟨tiler, ht, heq⟩ := F16Op.apply_of_written hc h hop
      have hfull := bfull_iff (B := B) hc h hco
      have hbbc := bbc_iff (B := B) hc h hco
      have hns := bbcNs_iff (B := B) hc hco
      simp only [Option.some.injEq, forall_eq']
      rw [heq, Option.getD_some]
      split
      · next href =>
          refine (coherent_refresh_iff hc (h.retile hc ht)).trans (hfull.trans (or_congr Iff.rfl ?_))
          refine ⟨fun hnone => ⟨hnone, fun hf => ?_⟩, fun hand => hand.1⟩
          rw [href] at hf
          cases hf
      · next href =>
          constructor
          · intro hco'
            rcases hfull.mp hco'.Bfull with hag | hnone
            · exact .inl hag
            · rcases hbbc.mp hco'.Bbc with hag | hnone'
              · exact .inl hag
              · exact (hns.mp hco'.BbcNs).imp id fun hnone'' => ⟨hnone, fun _ => ⟨hnone', hnone''⟩⟩
          · rintro (hag | ⟨hnone, himp⟩)
            · exact ⟨hbbc.mpr (.inl hag), hns.mpr (.inl hag), hfull.mpr (.inl hag)⟩
            · obtain ⟨hnone', hnone''⟩ := himp (Bool.eq_false_iff.mpr href)
              exact ⟨hbbc.mpr (.inr hnone'), hns.mpr (.inr hnone''), hfull.mpr (.inr hnone)⟩

end

/-! ### Whole runs -/

section

variable {c e} {p : PackEnv R} {K N : Nat} {B : Nat → R} {w : OrkW R}

theorem packed_sound (hc : c.soc ∈ socTable) (h : orkiPack c e p .f16 K N B = some w) :
    Sound c e (.packed w B) ∧ Coherent c e (.packed w B) := by
  obtain ⟨hB, hdt, hBf⟩ := orkiPack_holds hc h
  have hgeom : (F16State.packed w B).w.geom c e = weightGeom c e .f16 K N :=
    congrArg₂ (weightGeom c e .f16) hB.K hB.N
  refine ⟨⟨by rw [hgeom]; exact hB, hdt, ?_, fun h => absurd rfl h, fun h => absurd rfl h⟩,
    ⟨fun b hb => (nomatch hb), fun b hb => (nomatch hb), fun b hb => nomatch hb⟩⟩
  have hnot : wantsBf c p .f16 K = false := decide_eq_false fun h => Dt.noConfusion h.1
  change w.Bf = none
  rw [hnot] at hBf
  cases hw : w.Bf with
  | none => rfl
  | some f =>
      rw [hw] at hBf
      exact absurd (hBf rfl) Bool.false_ne_true

/-- The copies of a weight are coherent throughout a run exactly if every call of the run finds them so that it keeps
them. -/
theorem f16_copies_coherent_iff (hc : c.soc ∈ socTable) (h : orkiPack c e p .f16 K N B = some w)
    (ops : List (F16Op R S)) :
    (∀ l, l <+: ops → Coherent c e (l.foldl (F16Op.next c e toF16) (.packed w B))) ↔
      System.Runs (Kept toF16) (fun _ _ => True) (F16Op.next c e toF16) (.packed w B) ops := by
  obtain ⟨hsound, hco⟩ := packed_sound (B := B) hc h
  exact System.Runs.iff_forall_prefix (I := Sound c e) (fun s op hs hg => hs.next hc hg op)
    (fun s op hs hg => coherent_next_iff hc hs hg op) hsound hco ops

end

/-- Two rewrites before any copy exists, then the two lazy builds. -/
theorem f16_copies_coherent_built : ∃ w : OrkW Int,
    orkiPack ⟨3, socRk3588, 0⟩ ⟨0, 0⟩ (granted 0) .f16 2048 16 (fun _ => 0) = some w ∧
    Coherent ⟨3, socRk3588, 0⟩ ⟨0, 0⟩
      ([.inflate 2048 16 (fun _ => 1) fun _ => (2 : Int), .colsplit true fun _ => 0, .bfull true fun _ => 0].foldl
        (F16Op.next ⟨3, socRk3588, 0⟩ ⟨0, 0⟩ fun q x => q * x) (.packed w fun _ => 0)) := by
  obtain ⟨w, hw, -⟩ := exists_orkiPack ⟨3, socRk3588, 0⟩ ⟨0, 0⟩ (0 : Int) .f16 (K := 2048) (N := 16) (by decide)
    (by decide) (fun _ => 0)
  refine ⟨w, hw, (f16_copies_coherent_iff (fun q x => q * x) (by decide) hw _).mpr ?_ _ (List.prefix_refl _)⟩
  refine ⟨⟨fun B _ => .inr ⟨rfl, fun _ => ⟨rfl, rfl⟩⟩, trivial⟩, ⟨fun B hB => ?_, trivial⟩, ⟨fun B hB => ?_, trivial⟩,
    trivial⟩
  · cases hB
  · cases hB

/-- An inflate after the concatenation was built leaves it stale, and so does a repack after the full-K cube was. -/
theorem f16_copies_stale : ∃ w : OrkW Int,
    orkiPack ⟨3, socRk3588, 0⟩ ⟨0, 0⟩ (granted 0) .f16 2048 16 (fun _ => 0) = some w ∧
    ¬ Coherent ⟨3, socRk3588, 0⟩ ⟨0, 0⟩ ([.colsplit true fun _ => 0, .inflate 2048 16 (fun _ => 1) fun _ => (2 : Int)].foldl
      (F16Op.next ⟨3, socRk3588, 0⟩ ⟨0, 0⟩ fun q x => q * x) (.packed w fun _ => 0)) ∧
    ¬ Coherent ⟨3, socRk3588, 0⟩ ⟨0, 0⟩ ([.bfull true fun _ => 0, .repack 2048 16 fun _ => (1 : Int)].foldl
      (F16Op.next ⟨3, socRk3588, 0⟩ ⟨0, 0⟩ fun q (x : Int) => q * x) (.packed w fun _ => 0)) := by
  have hsoc : socRk3588 ∈ socTable := by decide
  obtain ⟨w, hw, -⟩ := exists_orkiPack ⟨3, socRk3588, 0⟩ ⟨0, 0⟩ (0 : Int) .f16 (K := 2048) (N := 16) (by decide)
    (by decide) (fun _ => 0)
  obtain ⟨hsound, hco⟩ := packed_sound (c := ⟨3, socRk3588, 0⟩) hsoc hw
  obtain ⟨hB, hdt, -⟩ := orkiPack_holds (c := ⟨3, socRk3588, 0⟩) hsoc hw
  have hSn : w.Sn = 1 := hB.Sn
  have hK : w.K = 2048 := hB.K
  have hN : w.N = 16 := hB.N
  have hwritten : ∀ B : Nat → Int, (if w.dt = .f16 ∧ w.K = 2048 ∧ w.N = 16 then some B else none) = some B :=
    fun B => if_pos ⟨hdt, hK, hN⟩
  refine ⟨w, hw, fun hstale => ?_, fun hstale => ?_⟩
  · have hif : colsplitContig ⟨3, socRk3588, 0⟩ ⟨0, 0⟩ true (fun _ => 0) (F16State.packed w fun _ => 0).w = _ :=
      if_pos ⟨hSn, rfl, rfl⟩
    obtain ⟨hsound', hco'⟩ := colsplitContig_sound hsoc hsound hco true fun _ => 0
    rw [hif] at hsound' hco'
    rw [List.foldl_cons, F16Op.next, F16Op.apply, hif] at hstale
    rcases (coherent_next_iff hsoc hsound' hco' _).mp hstale _ (hwritten _) with hag | ⟨-, hnone⟩
    · exact absurd (show (2 : Int) = 0 from hag 0 0 (show 0 < w.K by omega) (show 0 < w.N by omega)) (by decide)
    · cases (hnone rfl).1
  · have hif : orkiF16Bfull ⟨3, socRk3588, 0⟩ ⟨0, 0⟩ true (fun _ => 0) (F16State.packed w fun _ => 0).w = _ :=
      if_pos ⟨rfl, hSn, rfl⟩
    obtain ⟨hsound', hco'⟩ := orkiF16Bfull_sound hsoc hsound hco true fun _ => 0
    rw [hif] at hsound' hco'
    rw [List.foldl_cons, F16Op.next, F16Op.apply, hif] at hstale
    rcases (coherent_next_iff hsoc hsound' hco' _).mp hstale _ (hwritten _) with hag | ⟨hnone, -⟩
    · exact absurd (show (1 : Int) = 0 from hag 0 0 (show 0 < w.K by omega) (show 0 < w.N by omega)) (by decide)
    · cases hnone

end OrkDriver.Run
