import OrkDriver.Weights.Budget

/-!
Which weights take more than what `ork_w_resident_bytes` says of them, under a kernel that grants what they ask for.
-/

namespace OrkDriver.Weights

open OrkDriver.Lib (Prog Yields Triple pieces pieceLen)
open OrkDriver.Mem (Session orkDom orkiPgup)
open OrkDriver.Npu (socTable)
open OrkDriver.Pack (Geom)

variable {p : Packer} {D : Int} {asks : Requests} {n K N : Nat}

/-- A process that has asked for nothing yet makes a weight of `n` bytes. -/
def Spends (m : Prog Session (Option OrkW)) (n : Nat) : Prop := ∃ w, (m unused).1 = some w ∧ bytes w.claims = n

theorem ready_unused (asks : Requests) : Ready asks (asks ++ []) unused := (List.append_nil asks).symm

theorem Makes.spends {P : Tiles → Prop} {m : Prog Session (Option Tiles)} (h : Makes asks asks P m) (hP : ∀ t, P t → Whole n t) :
    Spends (whole m) n := by
  obtain ⟨⟨t, ht, hp⟩, -⟩ := h [] unused (ready_unused asks)
  obtain ⟨hlocal, hn⟩ := hP t hp
  refine ⟨⟨t, none⟩, congrArg (Option.map _) ht, ?_⟩
  rw [claims_whole, hlocal.claims_eq, hn]

theorem Makes.spends_plain {m : Prog Session (Option Tiles)} (h : Makes asks asks (Plain n) m) : Spends (whole m) n :=
  h.spends fun _ ht => ht.whole

theorem rescue_spends {reqs subs : Requests} {m : Prog Session (Option Tiles)} {want : Tiles → Bool} {k : Nat}
    {pack : Prog Session (Option (List Tiles))} {resc : Prop} [Decidable resc]
    (hm : Makes reqs asks (fun t => Whole n t ∧ (want t = true ∧ 0 < K ∧ 0 < N ↔ resc)) m)
    (hpack : resc → ∀ rest, Triple (Ready reqs (subs ++ rest)) pack fun o s =>
      (∃ l, o = some l ∧ bytes (l.flatMap Tiles.claims) = k) ∧ Ready reqs rest s)
    (hreqs : reqs = asks ++ if resc then subs else []) : Spends (rescue m want K N pack) (n + if resc then k else 0) :=
  rescue_makes hm hpack unused hreqs

/-- What a granted weight takes is within the estimate, where every weight is. -/
theorem NeverUnderCounts.spent_le {c : Ctor} (h : NeverUnderCounts p c) (asks : Requests)
    (ha : AccountsAt (p.granted asks) D (c.build (p.granted asks)) OrkW.claims OrkW.ids unused)
    (hm : Spends (c.build (p.granted asks)) n) :
    n ≤ orkWResidentBytes p.k.noBf (some p.npu) c.dims.1 c.dims.2 c.wbits (-1) := by
  obtain ⟨w, hw, rfl⟩ := hm
  rw [← taken_of_accounts ha hw]
  exact h roomy (obliging asks) unused w hw

theorem NeverUnderCounts.tiles_le {c : Ctor} {m : Prog Session (Option Tiles)} (h : NeverUnderCounts p c)
    (hc : c.build (p.granted asks) = whole m) (ha : AccountsAt (p.granted asks) D m Tiles.claims Tiles.ids unused)
    (hm : Spends (whole m) n) : n ≤ orkWResidentBytes p.k.noBf (some p.npu) c.dims.1 c.dims.2 c.wbits (-1) := by
  refine h.spent_le (D := D) asks ?_ ?_
  · rw [hc]
    exact whole_accounts ha
  · rw [hc]
    exact hm

/-! ### Packed weights -/

/-- What the rescue tiles are asked for with. -/
def rescueAsks (p : Packer) (K N : Nat) : Requests := (i8Slices p K N).flatMap fun d => wholeAsks p d.1 d.2

theorem i8SliceNs_dvd (p : Packer) (N : Nat) : 32 ∣ i8SliceNs p N := by
  unfold i8SliceNs
  dsimp only
  omega

theorem i8Slices_dims {d : Nat × Nat} (hN : N % 32 = 0) (hd : d ∈ i8Slices p K N) :
    d.1 < 2 ^ 31 ∧ d.2 < 2 ^ 31 ∧ d.1 % 32 = 0 ∧ d.2 % 32 = 0 := by
  obtain ⟨ki, -, ni, -, rfl⟩ := mem_slices hd
  have hrows : 32 ∣ pieceLen ((K + 511) / 512 * 512) 4096 ki := Lib.dvd_pieceLen (by omega) (by decide)
  have hcols : 32 ∣ pieceLen N (i8SliceNs p N) ni := Lib.dvd_pieceLen (Nat.dvd_of_mod_eq_zero hN) (i8SliceNs_dvd p N)
  have hk : pieceLen ((K + 511) / 512 * 512) 4096 ki ≤ 4096 := Lib.pieceLen_le_size
  have hn : pieceLen N (i8SliceNs p N) ni ≤ i8SliceNs p N := Lib.pieceLen_le_size
  have hns : i8SliceNs p N ≤ 8192 := by
    unfold i8SliceNs
    dsimp only
    omega
  dsimp only
  omega

theorem orkiI8SlicePack_makes {reqs : Requests} (hsoc : p.npu.soc ∈ socTable) (hN : N % 32 = 0) (rest : Requests) :
    Triple (Ready reqs (rescueAsks p K N ++ rest)) (orkiI8SlicePack (p.granted reqs) K N) fun o s =>
      (∃ l, o = some l ∧ bytes (l.flatMap Tiles.claims) = i8Rescue p K N) ∧ Ready reqs rest s := by
  unfold orkiI8SlicePack
  rw [if_neg (by omega)]
  have hsub : ∀ d ∈ i8Slices p K N,
      Makes reqs (wholeAsks p d.1 d.2) (Whole (packAll p .i8 d.1 d.2)) (orkiPackTiles (p.granted reqs) .i8 d.1 d.2) := by
    intro d hd
    obtain ⟨hk, hn, hrows, hcols⟩ := i8Slices_dims hN hd
    exact (orkiPackTiles_makes hsoc hk hn hrows hcols).mono fun _ ht => ht.1
  exact slicePack_makes hsub rest

/-- Whether `orki_pack` goes on to the rescue tiles is as `i8Rescues` says. -/
theorem wants_rescue {t : Tiles} {bf : Bool} (ht : t.Bf.isSome = bf) :
    (decide (Pack.Dt.i8 = .i8 ∧ p.k.noSliceRescue = false ∧ (1 < (Run.weightGeom p.npu p.f16 .i8 K N).Sn ∧
      (4096 < K ∨ t.Bf.isNone = true) ∨ p.k.sliceAll = true)) = true ∧ 0 < K ∧ 0 < N) ↔ i8Rescues p K N bf = true := by
  have hnone : t.Bf.isNone = true ↔ bf = false := by
    rw [← ht]
    cases t.Bf <;> simp
  unfold i8Rescues
  rw [decide_eq_true_eq, decide_eq_true_eq, hnone]
  exact and_congr_left fun _ => ⟨fun h => h.2, fun h => ⟨rfl, h⟩⟩

/-- A packed int8 weight whose tiles and full-K copy are made as `bf` says. -/
theorem orkiPack_made {bf : Bool} (hcols : N % 32 = 0) (hsoc : p.npu.soc ∈ socTable)
    (hm : ∀ reqs, Makes reqs asks (fun t => Whole (packTiled p .i8 K N + if bf then full8 p K N else 0) t ∧ t.Bf.isSome = bf)
      (orkiPackTiles (p.granted reqs) .i8 K N)) : ∃ asks, Spends (orkiPack (p.granted asks) .i8 K N) (packed8 p K N bf) := by
  refine ⟨asks ++ if i8Rescues p K N bf = true then rescueAsks p K N else [], ?_⟩
  unfold orkiPack
  refine rescue_spends ((hm _).mono fun t ht => ⟨ht.1, wants_rescue ht.2⟩) (fun _ => ?_) rfl
  exact orkiI8SlicePack_makes hsoc hcols

/-- With the full-K copy it wants, or refused it. -/
theorem orkiPack_spends (hsoc : p.npu.soc ∈ socTable) (hK : K < 2 ^ 31) (hN : N < 2 ^ 31) (hrows : K % 32 = 0)
    (hcols : N % 32 = 0) (hpos : 0 < N) {bf : Bool} (hbf : bf = true → wantsBf p .i8 K = true) :
    ∃ asks, Spends (orkiPack (p.granted asks) .i8 K N) (packed8 p K N bf) := by
  by_cases hsame : bf = wantsBf p .i8 K
  · subst hsame
    exact orkiPack_made hcols hsoc fun _ => orkiPackTiles_makes hsoc hK hN hrows hcols
  · have hno : bf = false := Bool.eq_false_iff.mpr fun h => hsame (h.trans (hbf h).symm)
    have hwant : wantsBf p .i8 K = true := by
      subst hno
      exact Bool.eq_true_of_not_eq_false fun h => hsame h.symm
    subst hno
    exact orkiPack_made hcols hsoc fun _ => orkiPackTiles_refused hsoc hK hN hrows hcols hpos hwant

/-- An empty weight takes nothing. -/
theorem packed8_empty (h : K = 0 ∨ N = 0) (bf : Bool) : packed8 p K N bf = 0 := by
  have htiled : packTiled p .i8 K N = 0 := paged_zero (tileBytes_empty h)
  have hfull : full8 p K N = 0 := paged_zero (bfBytes_empty h)
  have hno : ¬ i8Rescues p K N bf = true := by
    unfold i8Rescues
    rw [decide_eq_true_eq]
    omega
  unfold packed8
  rw [htiled, hfull, if_neg hno, ite_self]

/-- The two constructors that come down to `ork_i8_mm_pack`. -/
theorem packFits_of {c : Ctor} (h : NeverUnderCounts p c) (hc : ∀ q : Packer, c.build q = orkI8MmPack q K N)
    (he : c.dims = (K, N) ∧ c.wbits = 8) (hsoc : p.npu.soc ∈ socTable) (hK : K < 2 ^ 31) (hN : N < 2 ^ 31) :
    p.npu.fd < 0 ∨ p.daemon = true ∨ K % 32 ≠ 0 ∨ N % 32 ≠ 0 ∨ PackFits p K N := by
  by_contra hno
  rw [not_or, not_or, not_or, not_or, not_not, not_not] at hno
  obtain ⟨hfd, hd, hrows, hcols, hfits⟩ := hno
  refine hfits ((packFits_iff hsoc hrows).mpr fun bf hbf => ?_)
  by_cases hpos : 0 < N
  · obtain ⟨asks, hm⟩ := orkiPack_spends hsoc hK hN hrows hcols hpos hbf
    have hb : c.build (p.granted asks) = orkiPack (p.granted asks) .i8 K N := by
      have hfd' : ¬ (p.granted asks).npu.fd < 0 := hfd
      have hd' : ¬ (p.granted asks).daemon = true := hd
      rw [hc]
      unfold orkI8MmPack
      rw [if_neg hfd', if_neg hd']
    have ha : AccountsAt (p.granted asks) 0 (c.build (p.granted asks)) OrkW.claims OrkW.ids unused := by
      rw [hb]
      exact fun s₀ l r hs => (orkiPack_owes rfl .i8 K N unused hs).1
    have hle := h.spent_le asks ha (by rw [hb]; exact hm)
    rw [he.1, he.2] at hle
    exact hle.trans resident8_eq.le
  · rw [packed8_empty (by omega)]
    exact Nat.zero_le _

theorem i4Slices_dims {d : Nat × Nat} (hN : N % 64 = 0) (hd : d ∈ i4Slices K N) : d.1 % 32 = 0 ∧ d.2 % 64 = 0 := by
  obtain ⟨ki, -, ni, -, rfl⟩ := mem_slices hd
  have hrows : 32 ∣ pieceLen ((K + 31) / 32 * 32) 8192 ki := Lib.dvd_pieceLen (Nat.dvd_mul_left _ _) (by decide)
  have hcols : 64 ∣ pieceLen N 8192 ni := Lib.dvd_pieceLen (Nat.dvd_of_mod_eq_zero hN) (by decide)
  exact ⟨Nat.mod_eq_zero_of_dvd hrows, Nat.mod_eq_zero_of_dvd hcols⟩

/-- What an int4 weight and its rescue tiles are asked for with. -/
def i4Asks (p : Packer) (K N : Nat) : Requests := (tileBytes (i4Geom p K N) 1 2).map some

def i4RescueAsks (p : Packer) (K N : Nat) : Requests := (i4Slices K N).flatMap fun d => i4Asks p d.1 d.2

theorem orkiI4SlicePack_makes {reqs : Requests} (hN : N % 64 = 0) (rest : Requests) :
    Triple (Ready reqs (i4RescueAsks p K N ++ rest)) (orkiI4SlicePack (p.granted reqs) K N) fun o s =>
      (∃ l, o = some l ∧ bytes (l.flatMap Tiles.claims) = i4Rescue p K N) ∧ Ready reqs rest s := by
  unfold orkiI4SlicePack
  rw [if_neg (not_not.mpr hN)]
  have hsub : ∀ d ∈ i4Slices K N,
      Makes reqs (i4Asks p d.1 d.2) (Whole (tiled4 p d.1 d.2)) (orkI4MmPackTiles (p.granted reqs) d.1 d.2) := by
    intro d hd
    obtain ⟨hrows, hcols⟩ := i4Slices_dims hN hd
    exact orkI4MmPackTiles_makes hrows hcols
  exact slicePack_makes hsub rest

theorem four_ne_eight : 4 ≠ 8 := by decide

theorem i4MmPack_fits (h : NeverUnderCounts p (.i4MmPack K N)) (hsoc : p.npu.soc ∈ socTable) : Ctor.Fits p (.i4MmPack K N) := by
  by_contra hno
  have hno' := hno
  unfold Ctor.Fits at hno'
  rw [not_or, not_or, not_or, not_or, not_not, not_not] at hno'
  obtain ⟨hrows, hcols, hfd, hd, hrest⟩ := hno'
  have hb : Ctor.build (p.granted (i4Asks p K N ++ if i4Rescues p K N = true then i4RescueAsks p K N else [])) (.i4MmPack K N) =
      rescue (orkI4MmPackTiles (p.granted (i4Asks p K N ++ if i4Rescues p K N = true then i4RescueAsks p K N else [])) K N)
        (fun _ => p.k.noSliceRescue = false ∧ (1 < (i4Geom p K N).Sn ∨ 8192 < K ∨ p.k.sliceAll = true))
        K N (orkiI4SlicePack (p.granted (i4Asks p K N ++ if i4Rescues p K N = true then i4RescueAsks p K N else [])) K N) := by
    change orkI4MmPack _ K N = _
    unfold orkI4MmPack
    rw [if_neg (by omega)]
    exact (if_neg hfd).trans (if_neg hd)
  have hle := h.spent_le (D := 0) (n := packed4 p K N) (i4Asks p K N ++ if i4Rescues p K N = true then i4RescueAsks p K N else [])
    (by
      rw [hb]
      exact fun s₀ l r hs =>
        (rescue_owes (orkI4MmPackTiles_builds rfl K N) (fun _ _ _ => orkiI4SlicePack_owes rfl K N) unused hs).1)
    (by
      rw [hb]
      refine rescue_spends ((orkI4MmPackTiles_makes hrows hcols).mono fun t ht => ⟨ht, ?_⟩)
        (fun _ => orkiI4SlicePack_makes hcols) rfl
      unfold i4Rescues
      rw [decide_eq_true_eq, decide_eq_true_eq]
      exact Iff.rfl)
  exact hrest ((packed4_le_iff hsoc).mp (hle.trans (resident4_eq four_ne_eight).le))

/-! ### Imported weights -/

theorem orkI8MmPackImport_makes {reqs : Requests} (hrows : K % 32 = 0) (hcols : N % 32 = 0) (hheap : p.k.dmaHeap = true)
    (hno : p.k.noConsolidateImport = false) :
    Makes reqs ((chunkSizes (i8Chunk p) (tiled8 p K N) none ((tileBytes (i8Geom p K N) 1 1).map orkiPgup)).map some ++
        bfAsks (K % 512 = 0 ∧ K ≤ 4096 ∧ p.k.noBf = false) (i8Geom p K N))
      (Whole (chunkBytes (i8Chunk p) (tileBytes (i8Geom p K N) 1 1) + loadFull p K N)) (orkI8MmPackImport (p.granted reqs) K N) := by
  unfold orkI8MmPackImport
  have hgo : ¬ (K % 32 ≠ 0 ∨ N % 32 ≠ 0 ∨ (p.granted reqs).k.dmaHeap = false) := by
    rw [not_or, not_or, not_not, not_not]
    exact ⟨hrows, hcols, fun h => Bool.false_ne_true (h.symm.trans hheap)⟩
  rw [if_neg hgo]
  refine primed_makes (Makes.andThen (placeImported_makes _ hno) fun t ht => ?_)
  refine (attach_makes given_imported ht).mono fun u hu => ?_
  have hfull : (if decide (K % 512 = 0 ∧ K ≤ 4096 ∧ p.k.noBf = false) = true then paged (bfBytes (i8Geom p K N)) else 0) =
      loadFull p K N := if_congr (by rw [decide_eq_true_eq]) rfl rfl
  rw [← hfull]
  exact hu.1

theorem importFits_of {c : Ctor} (h : NeverUnderCounts p c) (hc : ∀ q, c.build q = whole (orkI8MmPackImport q K N))
    (he : c.dims = (K, N) ∧ c.wbits = 8) : K % 32 ≠ 0 ∨ N % 32 ≠ 0 ∨ p.k.dmaHeap = false ∨ ImportFits p K N := by
  by_contra hno
  rw [not_or, not_or, not_or, not_not, not_not, Bool.not_eq_false] at hno
  obtain ⟨hrows, hcols, hheap, hfits⟩ := hno
  by_cases hcons : p.k.noConsolidateImport = true
  · exact hfits (Or.inl hcons)
  have hcons' : p.k.noConsolidateImport = false := Bool.eq_false_iff.mpr hcons
  have hm := (orkI8MmPackImport_makes hrows hcols hheap hcons').spends fun _ ht => ht
  have hle := h.tiles_le (D := 0) (hc _) ((orkI8MmPackImport_builds rfl).accounts _) hm
  rw [he.1, he.2] at hle
  refine hfits (importFits_iff.mpr ?_)
  rw [if_neg hcons, ← max_add_add_right, max_le_iff]
  exact ⟨Nat.add_le_add_left (loadFull_le K N) _, hle.trans resident8_eq.le⟩

theorem i4MmLoadImport_fits {blob : Bool} (h : NeverUnderCounts p (.i4MmLoadImport K N blob)) :
    Ctor.Fits p (.i4MmLoadImport K N blob) := by
  by_contra hno
  have hno' := hno
  unfold Ctor.Fits at hno'
  simp only [not_or, not_not] at hno'
  obtain ⟨hblob, hrows, hcols, hheap, hcons, hbytes⟩ := hno'
  refine hbytes ?_
  have hm : ∀ reqs, Makes reqs
      ((chunkSizes (i4Chunk p) (tiled4 p K N) none ((tileBytes (i4Geom p K N) 1 2).map orkiPgup)).map some)
      (Plain (chunkBytes (i4Chunk p) (tileBytes (i4Geom p K N) 1 2))) (orkI4MmLoadImport (p.granted reqs) K N blob) := by
    intro reqs
    unfold orkI4MmLoadImport
    rw [if_neg (by
      rw [not_or, not_or, not_or, not_not, not_not]
      exact ⟨hblob, hrows, hcols, hheap⟩)]
    exact primed_makes (placeImported_makes _ (Bool.eq_false_iff.mpr hcons))
  have hle := h.tiles_le (D := 0) rfl ((orkI4MmLoadImport_builds rfl blob).accounts _) (hm _).spends_plain
  exact hle.trans (resident4_eq four_ne_eight).le

/-! ### Grouped weights -/

theorem i4a8MmLoadTiled_fits {G : Nat} {blob : Bool} (h : NeverUnderCounts p (.i4a8MmLoadTiled K N G blob)) :
    Ctor.Fits p (.i4a8MmLoadTiled K N G blob) := by
  by_contra hno
  have hno' := hno
  unfold Ctor.Fits at hno'
  simp only [not_or, not_not] at hno'
  obtain ⟨hblob, hrows, hcols, hfd, hG, hdvd, hbytes⟩ := hno'
  refine hbytes ?_
  have hm : ∀ reqs, Makes reqs ((tileBytes ⟨G, p.npu.soc.nmax, K, N⟩ 1 1).map some)
      (Whole (paged (tileBytes ⟨G, p.npu.soc.nmax, K, N⟩ 1 1))) (orkI4a8MmLoadTiled (p.granted reqs) K N G blob) := by
    intro reqs
    have hgo : ¬ (blob = false ∨ K % 32 ≠ 0 ∨ N % 64 ≠ 0) := by
      rw [not_or, not_or, not_not, not_not]
      exact ⟨hblob, hrows, hcols⟩
    have hfd' : ¬ (p.granted reqs).npu.fd < 0 := hfd
    unfold orkI4a8MmLoadTiled
    rw [if_neg hgo, if_neg hfd', if_pos ⟨Nat.pos_of_ne_zero hG, hdvd⟩]
    refine hosted_makes ?_
    rw [← List.append_nil (List.map some _)]
    refine Makes.andThen (placeTiles_makes (given_created _)) fun t ht => ?_
    have hmade := @attach_makes p reqs (.created false) (p.granted reqs).dom ⟨G, p.npu.soc.nmax, K, N⟩ t false _ (given_created false) ht
    exact hmade.mono fun _ hu => hu.1
  have hle := h.tiles_le (D := 0) rfl (orkI4a8MmLoadTiled_accounts rfl G blob _) ((hm _).spends fun _ ht => ht)
  exact hle.trans resident8_eq.le

theorem i4MmPackGrouped_fits {G : Nat} (h : NeverUnderCounts p (.i4MmPackGrouped K N G)) (hsoc : p.npu.soc ∈ socTable)
    (hK : K < 2 ^ 31) (hN : N < 2 ^ 31) : Ctor.Fits p (.i4MmPackGrouped K N G) := by
  by_contra hno
  have hno' := hno
  unfold Ctor.Fits at hno'
  simp only [not_or, not_not] at hno'
  obtain ⟨hfd, hrows, hcols, hG, hdvd, hks, hbytes⟩ := hno'
  refine hbytes ?_
  by_cases hempty : K = 0
  · rw [paged_zero (tileBytes_empty (g := ⟨G, p.npu.soc.nmax, K, N⟩) (Or.inl hempty))]
    exact Nat.zero_le _
  have hpos : 0 < G := by
    refine Nat.pos_of_ne_zero fun hzero => hempty ?_
    rw [hzero, Nat.mod_zero] at hdvd
    exact hdvd
  have hm : ∀ reqs, Makes reqs [some (paged (tileBytes ⟨G, p.npu.soc.nmax, K, N⟩ 1 2))]
      (Plain (paged (tileBytes ⟨G, p.npu.soc.nmax, K, N⟩ 1 2))) (orkI4MmPackGrouped (p.granted reqs) K N G) := by
    intro reqs
    have hfd' : ¬ (p.granted reqs).npu.fd < 0 := hfd
    unfold orkI4MmPackGrouped
    rw [if_neg hfd', if_neg (by omega)]
    exact placeOwn_makes (paged_fits hpos (Pack.socTable_nmax hsoc) hK hN)
  have hle := h.tiles_le (D := 0) rfl (orkI4MmPackGrouped_accounts rfl G _) (hm _).spends_plain
  exact hle.trans (resident4_eq four_ne_eight).le

/-! ### Adopted weights -/

theorem adoptBf_makes {reqs : Requests} {h : Handed} {t : Tiles} (ht : t.Adopted) :
    Makes reqs (if Adopts p K N h then [some h.bfBytes] else [])
      (fun u => u.Local ∧ bytes u.reclaims = bytes t.reclaims + if Adopts p K N h then orkiPgup h.bfBytes else 0)
      (adoptBf (p.granted reqs) K N h t) := by
  have hgo : (h.bfFd < 0 ∨ h.bfBytes = 0 ∨ h.bfBytes < ((bfBytes (i8Geom p K N)).map orkiPgup).sum) ↔ ¬ Adopts p K N h := by
    change _ ↔ ¬ (0 ≤ h.bfFd ∧ h.bfBytes ≠ 0 ∧ ((bfBytes (i8Geom p K N)).map orkiPgup).sum ≤ h.bfBytes)
    omega
  unfold adoptBf
  by_cases had : Adopts p K N h
  · have hgo' : ¬ (h.bfFd < 0 ∨ h.bfBytes = 0 ∨ h.bfBytes < ((bfBytes (i8Geom (p.granted reqs) K N)).map orkiPgup).sum) :=
      fun hc => hgo.mp hc had
    rw [if_pos had, if_pos had]
    dsimp only
    rw [if_neg hgo']
    intro rest
    have hgiven : Given (.adopted h.bfFd) := had.1
    refine ((create_ready hgiven).yields (create_size _)).bind fun imp => Triple.ite (fun hcpu => ?_) fun hcpu => fun s hs =>
      absurd hs.1.1 hcpu
    rintro s ⟨⟨-, hs⟩, hsize⟩
    refine ⟨⟨_, rfl, ?_, ?_⟩, hs⟩
    · exact { ht.toLocal with }
    · have hviews := ht.reclaims_views imp (some ((bfBytes (i8Geom p K N)).map fun n => view imp (orkiPgup n)))
      rw [Option.map_some, List.map_map] at hviews
      refine (congrArg bytes hviews).trans ?_
      rw [bytes_append, ht.reclaims_eq, bytes_singleton, hsize hcpu]
  · have hgo' : h.bfFd < 0 ∨ h.bfBytes = 0 ∨ h.bfBytes < ((bfBytes (i8Geom (p.granted reqs) K N)).map orkiPgup).sum := hgo.mpr had
    rw [if_neg had, if_neg had]
    dsimp only
    rw [if_pos hgo', Nat.add_zero]
    exact makes_some ⟨ht.toLocal, rfl⟩

theorem i8MmAdoptImported_fits {hd : Handed} {mapped blob : Bool} (h : NeverUnderCounts p (.i8MmAdoptImported K N hd mapped blob)) :
    Ctor.Fits p (.i8MmAdoptImported K N hd mapped blob) := by
  by_contra hno
  have hno' := hno
  unfold Ctor.Fits at hno'
  simp only [not_or, not_not] at hno'
  obtain ⟨hrows, hcols, hfd, hzc, hsize, hbytes⟩ := hno'
  refine hbytes ?_
  have hm : ∀ reqs, Makes reqs (some hd.bbBytes :: if Adopts p K N hd then [some hd.bfBytes] else [])
      (Whole (adopted p K N hd)) (orkI8MmAdoptImported (p.granted reqs) K N hd mapped blob) := by
    intro reqs
    have hgo : ¬ (K % 32 ≠ 0 ∨ N % 32 ≠ 0 ∨ hd.bbFd < 0) := by omega
    have hzc' : ¬ (p.granted reqs).k.adoptZc = false := hzc
    have hsize' : ¬ hd.bbBytes < ((tileBytes (i8Geom (p.granted reqs) K N) 1 1).map orkiPgup).sum := hsize
    unfold orkI8MmAdoptImported
    dsimp only
    rw [if_neg hgo, if_neg hzc', if_neg hsize']
    refine primed_makes fun rest => ?_
    have hgiven : Given (.adopted hd.bbFd) := Int.not_lt.mp hfd
    refine ((create_ready hgiven).yields (create_size _)).bind fun imp => Triple.ite (fun hcpu => ?_) fun hcpu => fun s hs =>
      absurd hs.1.1 hcpu
    rintro s ⟨⟨-, hs⟩, himp⟩
    have hAd : ({ Tiles.blank false (p.granted reqs).dom with ownBufs := [imp] } : Tiles).Adopted := ⟨⟨rfl, rfl, rfl⟩, rfl, rfl, rfl, rfl⟩
    have hrest : Makes reqs (if Adopts p K N hd then [some hd.bfBytes] else []) (Whole (adopted p K N hd)) (do
        let ok ← hostGroups (p.granted reqs) [1, 1]
        if ok then
          andThen (finish (p.granted reqs) [1] (orkMmFreeTiles (p.granted reqs))
              { Tiles.blank false (p.granted reqs).dom with ownBufs := [imp] }) fun t =>
            adoptBf (p.granted reqs) K N hd { t with Bb := (tileBytes (i8Geom p K N) 1 1).map fun n => view imp (orkiPgup n) }
        else do
          Mem.destroy (p.granted reqs).v (p.granted reqs).a imp
          pure none) := by
      refine Makes.after (R := fun ok => ok = true) (fun rest => hostGroups_ready _) fun ok hok => ?_
      subst hok
      rw [← List.nil_append (if Adopts p K N hd then [some hd.bfBytes] else [])]
      refine Makes.andThen (P := fun t => t.Adopted ∧ t.ownBufs = [imp]) (finish_makes ⟨hAd, rfl⟩) fun t ht => ?_
      have hBb : ({ t with Bb := (tileBytes (i8Geom p K N) 1 1).map fun n => view imp (orkiPgup n) } : Tiles).Adopted :=
        { ht.1 with }
      refine (adoptBf_makes hBb).mono fun u hu => ⟨hu.1, hu.2.trans ?_⟩
      rw [hBb.reclaims_eq]
      unfold adopted
      rw [← himp hcpu, ← bytes_singleton imp]
      exact congrArg (fun l => bytes l + _) ht.2
    exact hrest rest s hs
  have hle := h.tiles_le (D := 0) rfl (orkI8MmAdoptImported_accounts rfl hd mapped blob _) ((hm _).spends fun _ ht => ht)
  exact hle.trans resident8_eq.le

/-! ### fp16 weights -/

/-- What an fp16 weight is asked for with. -/
def f16Asks (p : Packer) (K N : Nat) : Requests := (tileBytes (Run.weightGeom p.npu p.f16 .f16 K N) 2 1).map some

theorem andThen_some_pure {m : Prog Session (Option Tiles)} : andThen m (fun t => pure (some t)) = m := by
  funext s
  rcases hm : m s with ⟨_ | t, s'⟩
  · exact andThen_none hm
  · exact andThen_some hm

/-- An fp16 weight is its tiles. -/
theorem orkiPack_f16_eq (hrows : K % 32 = 0) (hcols : N % 16 = 0) : orkiPack p .f16 K N =
    whole (placeTiles p (if p.k.f16ImportW = true then .imported else .created p.k.weightSram) true p.dom
      (tileBytes (Run.weightGeom p.npu p.f16 .f16 K N) 2 1)) := by
  have hok : ¬ (K % 32 ≠ 0 ∨ N % Run.ntSz .f16 ≠ 0) := by
    have hnt : Run.ntSz .f16 = 16 := rfl
    rw [hnt]
    omega
  have hsrc : (if Pack.Dt.f16 = .f16 ∧ p.k.f16ImportW = true then Mem.Source.imported else .created p.k.weightSram) =
      if p.k.f16ImportW = true then .imported else .created p.k.weightSram :=
    if_congr ⟨fun h => h.2, fun h => ⟨rfl, h⟩⟩ rfl rfl
  have htiles : orkiPackTiles p .f16 K N = placeTiles p (if p.k.f16ImportW = true then .imported else .created p.k.weightSram) true
      p.dom (tileBytes (Run.weightGeom p.npu p.f16 .f16 K N) 2 1) := by
    unfold orkiPackTiles
    rw [if_neg hok]
    dsimp only
    rw [if_neg (by simp), hsrc]
    exact andThen_some_pure
  unfold orkiPack rescue whole
  rw [htiles]
  refine congrArg (_ >>= ·) (funext fun o => ?_)
  cases o with
  | none => rfl
  | some t => exact if_neg (by simp)

theorem given_f16 {q : Packer} : Given (if q.k.f16ImportW = true then .imported else .created q.k.weightSram) := by
  split
  · exact trivial
  · exact trivial

theorem f16Tiles_makes {reqs : Requests} {src : Mem.Source} {dom : Int} (hsrc : Given src) :
    Makes reqs (f16Asks p K N) (Plain (packTiled p .f16 K N))
      (placeTiles (p.granted reqs) src true dom (tileBytes (Run.weightGeom p.npu p.f16 .f16 K N) 2 1)) :=
  placeTiles_makes hsrc

/-- A constructor that can be brought to make an fp16 weight. -/
theorem NeverUnderCounts.singlePage {c : Ctor} (h : NeverUnderCounts p c) (he : c.dims = (K, N) ∧ c.wbits = 16)
    (hsoc : p.npu.soc ∈ socTable) (hK : K < 2 ^ 31) (hrows : K % 32 = 0) (hcols : N % 16 = 0)
    (asks : Requests) (ha : AccountsAt (p.granted asks) D (c.build (p.granted asks)) OrkW.claims OrkW.ids unused)
    (hm : Spends (c.build (p.granted asks)) (packTiled p .f16 K N)) : SinglePage p K N := by
  have hle := h.spent_le asks ha hm
  rw [he.1, he.2] at hle
  exact (packTiled_f16_le_iff hsoc hrows hcols hK).mp (hle.trans (resident4_eq (by decide)).le)

theorem NeverUnderCounts.singlePage_of_tiles {c : Ctor} {m : Packer → Prog Session (Option Tiles)} (h : NeverUnderCounts p c)
    (he : c.dims = (K, N) ∧ c.wbits = 16) (hc : ∀ q, c.build q = whole (m q)) (hsoc : p.npu.soc ∈ socTable) (hK : K < 2 ^ 31)
    (hrows : K % 32 = 0) (hcols : N % 16 = 0) (hb : ∀ q : Packer, Builds q (orkDom q.v q.dom) Tiles.Local (m q))
    (hm : ∀ reqs, Makes reqs (f16Asks p K N) (Plain (packTiled p .f16 K N)) (m (p.granted reqs))) : SinglePage p K N := by
  refine h.singlePage he hsoc hK hrows hcols (D := orkDom roomy (p.granted (f16Asks p K N)).dom) (f16Asks p K N) ?_ ?_
  · rw [hc]
    exact whole_accounts ((hb _).accounts _)
  · rw [hc]
    exact (hm _).spends_plain

theorem f16MmPack_fits (h : NeverUnderCounts p (.f16MmPack K N)) (hsoc : p.npu.soc ∈ socTable) (hK : K < 2 ^ 31) :
    Ctor.Fits p (.f16MmPack K N) := by
  by_contra hno
  have hno' := hno
  unfold Ctor.Fits at hno'
  simp only [not_or, not_not] at hno'
  obtain ⟨hd, hrows, hcols, hone⟩ := hno'
  have hd' : ¬ (p.granted (f16Asks p K N)).daemon = true := hd
  refine hone (h.singlePage (D := 0) ⟨rfl, rfl⟩ hsoc hK hrows hcols (f16Asks p K N) (orkF16MmPack_accounts rfl fun hc => hd' hc.1) ?_)
  change Spends (orkF16MmPack _ K N) _
  unfold orkF16MmPack
  rw [if_neg hd', orkiPack_f16_eq hrows hcols]
  exact (f16Tiles_makes given_f16).spends_plain

theorem f16LoadCommon_makes {reqs : Requests} {useImport : Bool} (hfd : ¬ p.npu.fd < 0) (hK : K ≠ 0) (hN : N ≠ 0)
    (hrows : K % 32 = 0) (hcols : N % 16 = 0) (himp : useImport = true → p.k.dmaHeap = true) :
    Makes reqs (f16Asks p K N) (Plain (packTiled p .f16 K N)) (f16LoadCommon (p.granted reqs) K N true useImport) := by
  have hgo : ¬ ((p.granted reqs).npu.fd < 0 ∨ K = 0 ∨ N = 0 ∨ K % 32 ≠ 0 ∨ N % 16 ≠ 0 ∨ true = false) := by
    simp only [not_or, not_not]
    exact ⟨hfd, hK, hN, hrows, hcols, Bool.noConfusion⟩
  have hheap : ¬ (useImport = true ∧ (p.granted reqs).k.dmaHeap = false) := fun h =>
    Bool.false_ne_true (h.2.symm.trans (himp h.1))
  unfold f16LoadCommon
  rw [if_neg hgo, if_neg hheap]
  refine hosted_makes ?_
  cases useImport with
  | false => exact f16Tiles_makes (given_created false)
  | true => exact primed_makes (f16Tiles_makes given_imported)

theorem not_singlePage (h : ¬ SinglePage p K N) : K ≠ 0 ∧ N ≠ 0 :=
  ⟨fun hK => h (Or.inl hK), fun hN => h (Or.inr (Or.inl hN))⟩

theorem f16MmLoad_fits {blob : Bool} (h : NeverUnderCounts p (.f16MmLoad K N blob)) (hsoc : p.npu.soc ∈ socTable)
    (hK : K < 2 ^ 31) : Ctor.Fits p (.f16MmLoad K N blob) := by
  by_contra hno
  have hno' := hno
  unfold Ctor.Fits at hno'
  simp only [not_or, not_not, Bool.not_eq_false] at hno'
  obtain ⟨hfd, rfl, hrows, hcols, hone⟩ := hno'
  obtain ⟨hK0, hN0⟩ := not_singlePage hone
  refine hone (h.singlePage_of_tiles ⟨rfl, rfl⟩ (fun _ => rfl) hsoc hK hrows hcols (fun _ => f16LoadCommon_builds rfl true false)
    fun reqs => ?_)
  exact f16LoadCommon_makes hfd hK0 hN0 hrows hcols fun hc => absurd hc Bool.false_ne_true

theorem f16MmLoadImport_fits {blob : Bool} (h : NeverUnderCounts p (.f16MmLoadImport K N blob)) (hsoc : p.npu.soc ∈ socTable)
    (hK : K < 2 ^ 31) : Ctor.Fits p (.f16MmLoadImport K N blob) := by
  by_contra hno
  have hno' := hno
  unfold Ctor.Fits at hno'
  simp only [not_or, not_not, Bool.not_eq_false] at hno'
  obtain ⟨hfd, rfl, hheap, hrows, hcols, hone⟩ := hno'
  obtain ⟨hK0, hN0⟩ := not_singlePage hone
  refine hone (h.singlePage_of_tiles ⟨rfl, rfl⟩ (fun _ => rfl) hsoc hK hrows hcols (fun _ => f16LoadCommon_builds rfl true true)
    fun reqs => ?_)
  exact f16LoadCommon_makes hfd hK0 hN0 hrows hcols fun _ => hheap

theorem f16MmScratch_fits (h : NeverUnderCounts p (.f16MmScratch K N)) (hsoc : p.npu.soc ∈ socTable) (hK : K < 2 ^ 31) :
    Ctor.Fits p (.f16MmScratch K N) := by
  by_contra hno
  have hno' := hno
  unfold Ctor.Fits at hno'
  simp only [not_or, not_not] at hno'
  obtain ⟨hrows, hcols, hone⟩ := hno'
  refine hone (h.singlePage_of_tiles ⟨rfl, rfl⟩ (fun _ => rfl) hsoc hK hrows hcols (fun _ => orkF16MmScratch_builds rfl)
    fun reqs => ?_)
  unfold orkF16MmScratch
  rw [if_neg (by omega)]
  exact hosted_makes (f16Tiles_makes (given_created false))

/-! ### The calibration weight of a fused activation -/

section

variable {reqs rest : Requests} {bs : List Mem.Buf} {sizes : List Nat} {src : Mem.Source} {dom : Int}

theorem createTiles_mapped (hsrc : Given src) :
    Triple (Ready reqs (sizes.map some ++ rest)) (Mem.createTiles roomy (obliging reqs) src dom sizes) fun r s =>
      (r.2 = true ∧ (∀ b ∈ r.1, b.cpu = true) ∧ r.1.length = sizes.length) ∧ Ready reqs rest s := by
  induction sizes with
  | nil => exact Triple.pure fun _ h => ⟨⟨rfl, fun _ hb => absurd hb List.not_mem_nil, rfl⟩, h⟩
  | cons n ns ih =>
      refine (create_ready hsrc).bind fun b => Triple.ite (fun hb => ?_) fun hb => fun s hs => absurd hs.1 hb
      refine (ih.pre fun s hs => hs.2).bind fun o => Triple.pure fun s hs => ⟨⟨hs.1.1, ?_, ?_⟩, hs.2⟩
      · intro c hc
        rcases List.mem_cons.mp hc with rfl | hc
        · exact hb
        · exact hs.1.2.1 c hc
      · rw [List.length_cons, List.length_cons, hs.1.2.2]

/-- A weight of nothing but `n` tiles, each with a buffer of its own. -/
def Bare (dom : Int) (n : Nat) (t : Tiles) : Prop :=
  ∃ Bb, t = { Tiles.blank true dom with Bb := Bb } ∧ (∀ b ∈ Bb, b.cpu = true) ∧ Bb.length = n

theorem placeTiles_bare (hsrc : Given src) :
    Makes reqs (sizes.map some) (Bare dom sizes.length) (placeTiles (p.granted reqs) src true dom sizes) := by
  intro rest
  have hsome : Triple (Ready reqs (sizes.map some ++ rest)) (Mem.createOrNone roomy (obliging reqs) src dom sizes) fun o s =>
      (∃ Bb, o = some Bb ∧ (∀ b ∈ Bb, b.cpu = true) ∧ Bb.length = sizes.length) ∧ Ready reqs rest s := by
    refine (createTiles_mapped hsrc).bind fun r => Triple.ite (fun _ => ?_) fun hr => fun s hs => absurd hs.1.1 hr
    exact Triple.pure fun s hs => ⟨⟨r.1, rfl, hs.1.2⟩, hs.2⟩
  refine hsome.bind fun o => ?_
  rintro s ⟨⟨Bb, rfl, hBb⟩, hs⟩
  exact ⟨⟨_, rfl, Bb, rfl, hBb⟩, hs⟩

/-- Giving buffers back passes over as many requests. -/
theorem destroyAll_ready (h : ∀ b ∈ bs, b.cpu = true) :
    Triple (Ready reqs (List.replicate bs.length none ++ rest)) (Mem.destroyAll roomy (obliging reqs) bs) fun _ => Ready reqs rest := by
  induction bs with
  | nil => exact Triple.pure fun _ hs => hs
  | cons b bs ih =>
      refine Triple.bind (Q := fun _ => Ready reqs (List.replicate bs.length none ++ rest)) (fun s hs => ?_) fun _ =>
        ih fun c hc => h c (List.mem_cons_of_mem b hc)
      have hb : b.cpu = true := h b List.mem_cons_self
      have hcalls : (Mem.destroy roomy (obliging reqs) b s).2.calls = s.calls + 1 := by
        unfold Mem.destroy Prog.modify
        simp only [hb]
        rfl
      change reqs.drop (Mem.destroy roomy (obliging reqs) b s).2.calls = _
      rw [hcalls]
      exact hs.next

theorem orkMmFree_ready {Bb : List Mem.Buf} {o : Option Mem.Buf} (hBb : ∀ b ∈ Bb, b.cpu = true) (ho : ∀ b ∈ o, b.cpu = true) :
    Triple (Ready reqs (List.replicate Bb.length none ++ (List.replicate o.toList.length none ++ rest)))
      (orkMmFree (p.granted reqs) ⟨{ Tiles.blank true dom with Bb := Bb, Bfull := o }, none⟩) fun _ => Ready reqs rest := by
  have hfull : ∀ b ∈ o.toList, b.cpu = true := fun b hb => ho b (Option.mem_toList.mp hb)
  refine Triple.bind (Q := fun _ => Ready reqs rest) ?_ fun _ => Triple.pure fun _ hs => hs
  refine (destroyAll_ready hBb).bind fun _ => ?_
  refine Triple.bind (Q := fun _ => Ready reqs (List.replicate o.toList.length none ++ rest)) (fun _ hs => hs) fun _ => ?_
  refine Triple.bind (Q := fun _ => Ready reqs (List.replicate o.toList.length none ++ rest)) (fun _ hs => hs) fun _ => ?_
  exact (destroyAll_ready hfull).bind fun _ => fun _ hs => hs

/-- What the full copy of the calibration weight is asked for with. -/
def bfullAsks (p : Packer) : List Nat := if (Run.weightGeom p.npu p.f16 .f16 512 64).Sk = 1 then [] else [65536]

theorem orkiF16Bfull_ready {Bb : List Mem.Buf} :
    Triple (Ready reqs ((bfullAsks p).map some ++ rest))
      (orkiF16Bfull (p.granted reqs) 512 64 ⟨{ Tiles.blank true dom with Bb := Bb }, none⟩) fun r s =>
      (∃ o : Option Mem.Buf, r = (true, ⟨{ Tiles.blank true dom with Bb := Bb, Bfull := o }, none⟩) ∧ (∀ b ∈ o, b.cpu = true) ∧
        o.toList.length = (bfullAsks p).length) ∧ Ready reqs rest s := by
  unfold orkiF16Bfull bfullAsks
  by_cases h : (Run.weightGeom p.npu p.f16 .f16 512 64).Sk = 1
  · have h' : (Run.weightGeom (p.granted reqs).npu (p.granted reqs).f16 .f16 512 64).Sk = 1 := h
    rw [if_pos h, if_pos h']
    have hnone : ∀ b ∈ (none : Option Mem.Buf), b.cpu = true := fun _ hb => nomatch hb
    exact Triple.pure fun s hs => ⟨⟨none, rfl, hnone, rfl⟩, hs⟩
  · have h' : ¬ (Run.weightGeom (p.granted reqs).npu (p.granted reqs).f16 .f16 512 64).Sk = 1 := h
    rw [if_neg h, if_neg h']
    refine (create_ready (given_created false)).bind fun b => Triple.ite (fun hb => ?_) fun hb => fun s hs => absurd hs.1 hb
    exact Triple.pure fun s hs => ⟨⟨some b, rfl, fun c hc => Option.some.inj hc ▸ hb, rfl⟩, hs.2⟩

/-- Everything `ork_f16_mm_build_lut` asks for, with a place for each buffer it gives back. -/
def lutAsks (p : Packer) : Requests :=
  f16Asks p 512 64 ++ ((bfullAsks p).map some ++
    (List.replicate (f16Asks p 512 64).length none ++ List.replicate (bfullAsks p).length none))

theorem orkF16MmBuildLut_ready (hd : p.daemon = false) :
    Triple (Ready reqs (lutAsks p ++ rest)) (orkF16MmBuildLut (p.granted reqs) true) fun ok s => ok = true ∧ Ready reqs rest s := by
  have hd' : ¬ (p.granted reqs).daemon = true := Bool.eq_false_iff.mp hd
  unfold orkF16MmBuildLut
  refine (hostAllocs_ready 3).bind fun ok => Triple.ite (fun _ => ?_) fun hok => fun s hs => absurd hs.1 hok
  have hpack : orkF16MmPack (p.granted reqs) 512 64 = whole (placeTiles (p.granted reqs)
      (if p.k.f16ImportW = true then .imported else .created p.k.weightSram) true (p.granted reqs).dom
      (tileBytes (Run.weightGeom p.npu p.f16 .f16 512 64) 2 1)) := by
    unfold orkF16MmPack
    rw [if_neg hd']
    exact orkiPack_f16_eq (by decide) (by decide)
  rw [hpack]
  unfold lutAsks
  rw [List.append_assoc, List.append_assoc, List.append_assoc]
  have hbare : Makes reqs (f16Asks p 512 64) (Bare (p.granted reqs).dom (f16Asks p 512 64).length)
      (placeTiles (p.granted reqs) (if p.k.f16ImportW = true then .imported else .created p.k.weightSram) true (p.granted reqs).dom
        (tileBytes (Run.weightGeom p.npu p.f16 .f16 512 64) 2 1)) := by
    unfold f16Asks
    rw [List.length_map]
    exact placeTiles_bare given_f16
  intro s hs
  obtain ⟨⟨t, ht, Bb, rfl, hBb, hlen⟩, hrest⟩ := hbare _ s hs.2
  have hrun : Triple (Ready reqs ((bfullAsks p).map some ++
      (List.replicate (f16Asks p 512 64).length none ++ (List.replicate (bfullAsks p).length none ++ rest))))
      (do
        let r ← orkiF16Bfull (p.granted reqs) 512 64 ⟨{ Tiles.blank true (p.granted reqs).dom with Bb := Bb }, none⟩
        orkMmFree (p.granted reqs) r.2
        pure (r.1 && true)) fun ok s => ok = true ∧ Ready reqs rest s := by
    refine orkiF16Bfull_ready.bind fun r => ?_
    rintro s ⟨⟨o, rfl, ho, hone⟩, hs⟩
    rw [← hlen, ← hone] at hs
    have hfree : Triple _ (orkMmFree (p.granted reqs) ⟨{ Tiles.blank true (p.granted reqs).dom with Bb := Bb, Bfull := o }, none⟩ >>=
        fun _ => pure (true && true)) fun ok s => ok = true ∧ Ready reqs rest s :=
      (orkMmFree_ready hBb ho).bind fun _ => Triple.pure fun s hs => ⟨rfl, hs⟩
    exact hfree s hs
  have hmade := whole_eq (show placeTiles (p.granted reqs) (if p.k.f16ImportW = true then .imported else .created p.k.weightSram) true
    (p.granted reqs).dom (tileBytes (Run.weightGeom p.npu p.f16 .f16 512 64) 2 1) s = (_, _) from Prod.ext ht rfl)
  change (fun r : Bool × Session => r.1 = true ∧ Ready reqs rest r.2) _
  rw [Prog.bind_eq hmade]
  exact hrun _ hrest

end

theorem hostAlloc_ready {reqs rest : Requests} :
    Triple (Ready reqs rest) (Mem.hostAlloc (obliging reqs)) fun ok s => ok = true ∧ Ready reqs rest s :=
  fun _ hs => ⟨rfl, hs⟩

theorem f16MmPackFusedAct_fits {fits runs : Bool} (h : NeverUnderCounts p (.f16MmPackFusedAct K N fits runs))
    (hsoc : p.npu.soc ∈ socTable) (hK : K < 2 ^ 31) : Ctor.Fits p (.f16MmPackFusedAct K N fits runs) := by
  by_contra hno
  have hno' := hno
  unfold Ctor.Fits at hno'
  simp only [not_or, not_not, Bool.not_eq_false, Bool.not_eq_true] at hno'
  obtain ⟨rfl, rfl, hd, hrows, hcols, hone⟩ := hno'
  have hm : Triple (Ready (lutAsks p ++ f16Asks p K N) (lutAsks p ++ f16Asks p K N))
      (orkF16MmPackFusedAct (p.granted (lutAsks p ++ f16Asks p K N)) K N true true) fun o _ =>
        ∃ w, o = some w ∧ bytes w.claims = packTiled p .f16 K N := by
    have hd' : ¬ (p.granted (lutAsks p ++ f16Asks p K N)).daemon = true := Bool.eq_false_iff.mp hd
    have hgo : ¬ (true = false ∨ K % 32 ≠ 0 ∨ N % 16 ≠ 0) := by simp [hrows, hcols]
    unfold orkF16MmPackFusedAct
    rw [if_neg hgo]
    refine hostAlloc_ready.bind fun ok => Triple.ite (fun _ => ?_) fun hok => fun s hs => absurd hs.1 hok
    refine ((orkF16MmBuildLut_ready hd).pre fun s hs => hs.2).bind fun ok => Triple.ite (fun _ => ?_) fun hok => fun s hs =>
      absurd hs.1 hok
    refine (hostAlloc_ready.pre fun s hs => hs.2).bind fun ok => Triple.ite (fun _ => ?_) fun hok => fun s hs => absurd hs.1 hok
    unfold orkF16MmPack
    rw [if_neg hd', orkiPack_f16_eq hrows hcols]
    intro s hs
    have hready : Ready (lutAsks p ++ f16Asks p K N) (f16Asks p K N ++ []) s := by
      rw [List.append_nil]
      exact hs.2
    obtain ⟨⟨t, ht, hlocal, hn⟩, -⟩ := f16Tiles_makes given_f16 _ s hready
    refine ⟨⟨t, none⟩, congrArg (Option.map _) ht, ?_⟩
    rw [claims_whole, hlocal.toLocal.claims_eq, hn]
  refine hone (h.singlePage (D := 0) ⟨rfl, rfl⟩ hsoc hK hrows hcols _ (orkF16MmPackFusedAct_accounts rfl fun hc => ?_)
    (hm unused rfl))
  exact Bool.false_ne_true (hd.symm.trans hc.2.2.2.1)

/-! ### Every constructor -/

/-- A constructor whose weights are never under-counted fits. -/
theorem Ctor.fits_of_neverUnderCounts {c : Ctor} (hsoc : p.npu.soc ∈ socTable) (hK : c.dims.1 < 2 ^ 31) (hN : c.dims.2 < 2 ^ 31)
    (h : NeverUnderCounts p c) : c.Fits p := by
  cases c with
  | i8MmPack K N => exact packFits_of h (fun _ => rfl) ⟨rfl, rfl⟩ hsoc hK hN
  | i8MmPackImport K N => exact importFits_of h (fun _ => rfl) ⟨rfl, rfl⟩
  | i8MmLoadImport K N blob =>
      cases blob with
      | false => exact Or.inl rfl
      | true => exact Or.inr (importFits_of h (fun _ => rfl) ⟨rfl, rfl⟩)
  | i8MmAdoptImported K N hd mapped blob => exact i8MmAdoptImported_fits h
  | i4a8MmLoadTiled K N G blob => exact i4a8MmLoadTiled_fits h
  | i4MmPack K N => exact i4MmPack_fits h hsoc
  | i4MmPackToI8 K N => exact packFits_of h (fun _ => rfl) ⟨rfl, rfl⟩ hsoc hK hN
  | i4MmLoadImport K N blob => exact i4MmLoadImport_fits h
  | i4MmPackGrouped K N G => exact i4MmPackGrouped_fits h hsoc hK hN
  | f16MmPack K N => exact f16MmPack_fits h hsoc hK
  | f16MmLoad K N blob => exact f16MmLoad_fits h hsoc hK
  | f16MmLoadImport K N blob => exact f16MmLoadImport_fits h hsoc hK
  | f16MmScratch K N => exact f16MmScratch_fits h hsoc hK
  | f16MmPackFusedAct K N fits runs => exact f16MmPackFusedAct_fits h hsoc hK
  | i8MmLoad | i8MmLoadFlags | i8MmImport | i8MmPackF32 | i8MmPackDequant | i8MmLoadFold | i4a8MmPackIm | i4a8MmPack
  | i4a8MmLoad | i4a8MmLoadImport | i4MmLoad | i4MmLoadArena => trivial

/-- Whether a constructor fits does not depend on the process, the kernel or the C library. -/
theorem Ctor.fits_under (c : Ctor) (v : Mem.BufEnv) (a : Mem.Answers) : c.Fits (p.under v a) ↔ c.Fits p := by
  cases c <;> exact Iff.rfl

/-- The default chunk of an import. -/
def importing : Packer := { granting with k := { granting.k with importChunk := 16777216 } }

end OrkDriver.Weights
