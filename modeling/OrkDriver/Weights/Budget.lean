import OrkDriver.Weights.Granted

/-!
Which weights stay within what `ork_w_resident_bytes` says of them.
-/

namespace OrkDriver.Weights

open OrkDriver.Lib (Prog Yields Triple pieces pieceLen)
open OrkDriver.Mem (BufEnv Buf Source Answers Session Owes orkDom orkiPgup)
open OrkDriver.Npu (socTable)
open OrkDriver.Pack (Dt Geom)

/-! ### The property -/

/-- Rows and columns of the weight a constructor makes. -/
def Ctor.dims : Ctor → Nat × Nat
  | .i8MmPack K N => (K, N)
  | .i8MmLoad K N _ => (K, N)
  | .i8MmPackImport K N => (K, N)
  | .i8MmLoadImport K N _ => (K, N)
  | .i8MmLoadFlags K N _ _ => (K, N)
  | .i8MmAdoptImported K N _ _ _ => (K, N)
  | .i8MmImport K N _ _ => (K, N)
  | .i8MmPackF32 K N => (K, N)
  | .i8MmPackDequant K N => (K, N)
  | .i8MmLoadFold K N _ => (K, N)
  | .i4a8MmPackIm K N _ => (K, N)
  | .i4a8MmPack K N => (K, N)
  | .i4a8MmLoad K N _ => (K, N)
  | .i4a8MmLoadTiled K N _ _ => (K, N)
  | .i4a8MmLoadImport K N _ => (K, N)
  | .i4MmPack K N => (K, N)
  | .i4MmPackToI8 K N => (K, N)
  | .i4MmLoad K N _ => (K, N)
  | .i4MmLoadImport K N _ => (K, N)
  | .i4MmLoadArena K N _ => (K, N)
  | .i4MmPackGrouped K N _ => (K, N)
  | .f16MmPack K N => (K, N)
  | .f16MmLoad K N _ => (K, N)
  | .f16MmLoadImport K N _ => (K, N)
  | .f16MmScratch K N => (K, N)
  | .f16MmPackFusedAct K N _ _ => (K, N)

/-- The width it is resident at. -/
def Ctor.wbits : Ctor → Nat
  | .i4MmPack .. | .i4MmLoad .. | .i4MmLoadImport .. | .i4MmLoadArena .. | .i4MmPackGrouped .. => 4
  | .f16MmPack .. | .f16MmLoad .. | .f16MmLoadImport .. | .f16MmScratch .. | .f16MmPackFusedAct .. => 16
  | _ => 8

/-- The packer in another process, with another kernel and C library. -/
def Packer.under (p : Packer) (v : BufEnv) (a : Answers) : Packer := { p with v := v, a := a }

/-- Whatever the kernel, the guard and the C library answer, a weight takes no more than what `ork_w_resident_bytes` says of
it under the same environment variables. -/
def NeverUnderCounts (p : Packer) (c : Ctor) : Prop :=
  ∀ v a s w, (c.build (p.under v a) s).1 = some w → taken s (c.build (p.under v a) s).2 ≤
    orkWResidentBytes p.k.noBf (some p.npu) c.dims.1 c.dims.2 c.wbits (-1)

section

variable (p : Packer) (K N : Nat)

/-- Without `ORK_KTILE`: no rescue tiles. With it the tiles are cut elsewhere than `ork_w_resident_bytes` cuts them, and the
full-K copy it counts may be left out: tiles, copy and rescue tiles together make no more. -/
def PackFits : Prop :=
  if p.npu.int8Ks = 1024 ∧ p.k.ktileSet = false then
    p.k.noSliceRescue = true ∨ K = 0 ∨ N = 0 ∨ N ≤ p.npu.soc.nmax ∧ p.k.sliceAll = false
  else ∀ bf : Bool, (bf = true → wantsBf p .i8 K = true) → packed8 p K N bf ≤ tiled8 p K N + counted p K N

/-- The chunks are larger than the tiles in them by no more than a full-K copy that is counted and that no loader builds. -/
def ImportFits : Prop :=
  p.k.noConsolidateImport = true ∨ chunkBytes (i8Chunk p) (tileBytes (i8Geom p K N) 1 1) ≤
    tiled8 p K N + if K ≤ 10752 ∧ ¬ (K % 512 = 0 ∧ K ≤ 4096) ∧ p.k.noBf = false then full8 p K N else 0

/-- Whether the full-K copy a client hands over is adopted. -/
def Adopts (h : Handed) : Prop := 0 ≤ h.bfFd ∧ h.bfBytes ≠ 0 ∧ full8 p K N ≤ h.bfBytes

instance (h : Handed) : Decidable (Adopts p K N h) := inferInstanceAs (Decidable (_ ∧ _ ∧ _))

/-- The bytes of the dma-bufs that are adopted. -/
def adopted (h : Handed) : Nat := orkiPgup h.bbBytes + if Adopts p K N h then orkiPgup h.bfBytes else 0

/-- An fp16 weight of a single page. -/
def SinglePage : Prop := K = 0 ∨ N = 0 ∨ K * N ≤ 2048 ∧ K ≤ p.f16.ks

end

/-- When the estimate covers what a constructor makes: it takes nothing or refuses, or the amounts fit. -/
def Ctor.Fits (p : Packer) : Ctor → Prop
  | .i8MmPack K N | .i4MmPackToI8 K N => p.npu.fd < 0 ∨ p.daemon = true ∨ K % 32 ≠ 0 ∨ N % 32 ≠ 0 ∨ PackFits p K N
  | .i8MmPackImport K N => K % 32 ≠ 0 ∨ N % 32 ≠ 0 ∨ p.k.dmaHeap = false ∨ ImportFits p K N
  | .i8MmLoadImport K N blob => blob = false ∨ K % 32 ≠ 0 ∨ N % 32 ≠ 0 ∨ p.k.dmaHeap = false ∨ ImportFits p K N
  | .i8MmAdoptImported K N h _ _ =>
    K % 32 ≠ 0 ∨ N % 32 ≠ 0 ∨ h.bbFd < 0 ∨ p.k.adoptZc = false ∨ h.bbBytes < tiled8 p K N ∨
      adopted p K N h ≤ tiled8 p K N + counted p K N
  | .i4a8MmLoadTiled K N G blob =>
    blob = false ∨ K % 32 ≠ 0 ∨ N % 64 ≠ 0 ∨ p.npu.fd < 0 ∨ G = 0 ∨ K % G ≠ 0 ∨
      paged (tileBytes ⟨G, p.npu.soc.nmax, K, N⟩ 1 1) ≤ tiled8 p K N + counted p K N
  | .i4MmPack K N =>
    K % 32 ≠ 0 ∨ N % 64 ≠ 0 ∨ p.npu.fd < 0 ∨ p.daemon = true ∨ p.k.noSliceRescue = true ∨ K = 0 ∨ N = 0 ∨
      N ≤ p.npu.soc.nmax ∧ K ≤ 8192 ∧ p.k.sliceAll = false
  | .i4MmLoadImport K N blob =>
    blob = false ∨ K % 32 ≠ 0 ∨ N % 64 ≠ 0 ∨ p.k.dmaHeap = false ∨ p.k.noConsolidateImport = true ∨
      chunkBytes (i4Chunk p) (tileBytes (i4Geom p K N) 1 2) ≤ tiled4 p K N
  | .i4MmPackGrouped K N G =>
    p.npu.fd < 0 ∨ K % 32 ≠ 0 ∨ N % 64 ≠ 0 ∨ G % 32 ≠ 0 ∨ K % G ≠ 0 ∨ Core.orkI4Ks < G ∨
      paged (tileBytes ⟨G, p.npu.soc.nmax, K, N⟩ 1 2) ≤ tiled4 p K N
  | .f16MmPack K N => p.daemon = true ∨ K % 32 ≠ 0 ∨ N % 16 ≠ 0 ∨ SinglePage p K N
  | .f16MmLoad K N blob => p.npu.fd < 0 ∨ blob = false ∨ K % 32 ≠ 0 ∨ N % 16 ≠ 0 ∨ SinglePage p K N
  | .f16MmLoadImport K N blob =>
    p.npu.fd < 0 ∨ blob = false ∨ p.k.dmaHeap = false ∨ K % 32 ≠ 0 ∨ N % 16 ≠ 0 ∨ SinglePage p K N
  | .f16MmScratch K N => K % 32 ≠ 0 ∨ N % 16 ≠ 0 ∨ SinglePage p K N
  | .f16MmPackFusedAct K N fits runs =>
    fits = false ∨ runs = false ∨ p.daemon = true ∨ K % 32 ≠ 0 ∨ N % 16 ≠ 0 ∨ SinglePage p K N
  | _ => True

variable {p : Packer} {s : Session} {K N : Nat} {w : OrkW}

/-! ### Within the estimate -/

theorem weighs_import (K N : Nat) : Weighs Tiles.Local
    ((if p.k.noConsolidateImport then tiled8 p K N else max (tiled8 p K N) (chunkBytes (i8Chunk p) (tileBytes (i8Geom p K N) 1 1))) +
      loadFull p K N) (orkI8MmPackImport p K N) := by
  refine Weighs.ite (fun _ => weighs_none) fun _ => Yields.after fun _ => ?_
  exact (placeImported_weighs _ _).andThen fun _ ht => loadBf_weighs ht

/-- The largest import is covered exactly if the chunks are. -/
theorem importFits_iff : ImportFits p K N ↔
    (if p.k.noConsolidateImport then tiled8 p K N else max (tiled8 p K N) (chunkBytes (i8Chunk p) (tileBytes (i8Geom p K N) 1 1))) +
      loadFull p K N ≤ tiled8 p K N + counted p K N := by
  have hload := loadFull_le (p := p) K N
  unfold ImportFits
  by_cases hno : p.k.noConsolidateImport = true
  · rw [if_pos hno]
    exact iff_of_true (Or.inl hno) (Nat.add_le_add_left hload _)
  · rw [if_neg hno, or_iff_right hno]
    have hspare : loadFull p K N + (if K ≤ 10752 ∧ ¬ (K % 512 = 0 ∧ K ≤ 4096) ∧ p.k.noBf = false then full8 p K N else 0) =
        counted p K N := by
      unfold loadFull counted
      by_cases h : K % 512 = 0 ∧ K ≤ 4096 ∧ p.k.noBf = false
      · rw [if_pos h, if_neg fun h' => h'.2.1 ⟨h.1, h.2.1⟩, if_pos ⟨by omega, h.2.2⟩]
        rfl
      · rw [if_neg h, Nat.zero_add]
        exact if_congr ⟨fun h => ⟨h.1, h.2.2⟩, fun h' => ⟨h'.1, fun h'' => h ⟨h''.1, h''.2, h'.2⟩, h'.2⟩⟩ rfl rfl
    rw [← hspare]
    omega

theorem packFits_iff (hsoc : p.npu.soc ∈ socTable) (hK : K % 32 = 0) : PackFits p K N ↔
    ∀ bf : Bool, (bf = true → wantsBf p .i8 K = true) → packed8 p K N bf ≤ tiled8 p K N + counted p K N := by
  unfold PackFits
  by_cases h : p.npu.int8Ks = 1024 ∧ p.k.ktileSet = false
  · rw [if_pos h]
    exact (packed8_le_iff hsoc h.1 h.2 hK).symm
  · rw [if_neg h]

theorem adoptBf_weighs {h : Handed} {t : Tiles} (ht : t.Adopted) :
    Weighs (fun _ => True) (bytes t.reclaims + if Adopts p K N h then orkiPgup h.bfBytes else 0) (adoptBf p K N h t) := by
  have hsame : ∀ n, Weighs (fun _ => True) (bytes t.reclaims + n) (pure (some t)) := fun n =>
    Yields.pure fun u hu => by
      cases hu
      exact ⟨trivial, Nat.le_add_right _ _⟩
  refine Yields.ite (fun _ => hsame _) fun hgo => ?_
  have had : Adopts p K N h := by
    rw [not_or, not_or] at hgo
    exact ⟨Int.not_lt.mp hgo.1, hgo.2.1, Nat.not_lt.mp hgo.2.2⟩
  rw [if_pos had]
  refine (create_size _).bind fun imp himp => Yields.ite (fun hcpu => ?_) fun _ => hsame _
  have hsize : ∀ o : Option (List Buf), bytes ({ t with ownBufs := t.ownBufs ++ [imp], Bf := o.map fun bs => bs.map fun b => ⟨b, false⟩ } : Tiles).reclaims =
      bytes t.reclaims + orkiPgup h.bfBytes := by
    intro o
    rw [ht.reclaims_views imp o, bytes_append, ht.reclaims_eq, bytes_singleton, himp hcpu]
  refine Yields.after fun ok => Yields.ite (fun _ => ?_) fun _ => ?_
  · refine Yields.pure fun u hu => ?_
    cases hu
    have hviews := hsize (some ((bfBytes (i8Geom p K N)).map fun n => view imp (orkiPgup n)))
    rw [Option.map_some, List.map_map] at hviews
    exact ⟨trivial, hviews.le⟩
  · refine Yields.pure fun u hu => ?_
    cases hu
    have hviews := hsize none
    rw [Option.map_none, ← ht.noBf] at hviews
    exact ⟨trivial, hviews.le⟩

/-- The part of `ork_i8_mm_adopt_imported` that follows its checks. -/
theorem adopt_weighs {h : Handed} {sizes : List Nat} : Weighs (fun _ => True) (adopted p K N h) (do
    Mem.orkDomPrime p.v p.a p.k.bimportDom p.dom
    let imp ← Mem.create p.v p.a (.adopted h.bbFd) p.dom h.bbBytes
    if imp.cpu then do
      let ok ← hostGroups p [1, 1]
      if ok then do
        let t : Tiles := { Tiles.blank false p.dom with ownBufs := [imp] }
        andThen (finish p [1] (orkMmFreeTiles p) t) fun t =>
          adoptBf p K N h { t with Bb := sizes.map fun n => view imp (orkiPgup n) }
      else do
        Mem.destroy p.v p.a imp
        pure none
    else pure none) := by
  refine Yields.after fun _ => (create_size _).bind fun imp himp => Yields.ite (fun hcpu => ?_) fun _ => weighs_none
  refine Yields.after fun ok => Yields.ite (fun _ => ?_) fun _ => Yields.after fun _ => weighs_none
  have hAd : ({ Tiles.blank false p.dom with ownBufs := [imp] } : Tiles).Adopted := ⟨⟨rfl, rfl, rfl⟩, rfl, rfl, rfl, rfl⟩
  have hone : bytes ({ Tiles.blank false p.dom with ownBufs := [imp] } : Tiles).reclaims = orkiPgup h.bbBytes := by
    rw [hAd.reclaims_eq, bytes_singleton, himp hcpu]
  have hfin : Weighs Tiles.Adopted (orkiPgup h.bbBytes)
      (finish p [1] (orkMmFreeTiles p) { Tiles.blank false p.dom with ownBufs := [imp] }) := by
    refine (finish_weighs hAd).mono ?_
    rw [Nat.add_zero, hone]
  refine Weighs.andThen hfin fun t ht => ?_
  have hBb : ({ t with Bb := sizes.map fun n => view imp (orkiPgup n) } : Tiles).Adopted := { ht with }
  refine (adoptBf_weighs hBb).mono (Nat.add_le_add_right (le_of_eq ?_) _)
  rw [hBb.reclaims_eq, ht.reclaims_eq]

/-- A shape that is refused. -/
theorem rescue_refused {want : Tiles → Bool} {pack : Prog Session (Option (List Tiles))} {m : Prog Session (Option Tiles)}
    (hm : m = pure none) : (rescue m want K N pack s).1 = none := by
  subst hm
  rfl

theorem i8MmPack_covered (hsoc : p.npu.soc ∈ socTable)
    (h : p.npu.fd < 0 ∨ p.daemon = true ∨ K % 32 ≠ 0 ∨ N % 32 ≠ 0 ∨ PackFits p K N)
    (hw : (orkI8MmPack p K N s).1 = some w) : taken s (orkI8MmPack p K N s).2 ≤ tiled8 p K N + counted p K N := by
  unfold orkI8MmPack at hw ⊢
  by_cases hfd : p.npu.fd < 0
  · rw [if_pos hfd] at hw ⊢
    exact (taken_whole_le (offline_accounts (D := 0) _) (offline_weighs _ 0) hw).trans (Nat.zero_le _)
  rw [if_neg hfd] at hw ⊢
  by_cases hd : p.daemon = true
  · rw [if_pos hd] at hw ⊢
    exact (taken_client hw).le.trans (Nat.zero_le _)
  rw [if_neg hd] at hw ⊢
  by_cases hdims : K % 32 ≠ 0 ∨ N % 32 ≠ 0
  · have hnone : (orkiPack p .i8 K N s).1 = none := rescue_refused (if_pos hdims)
    rw [hnone] at hw
    cases hw
  · have hfits : PackFits p K N := by
      rw [not_or] at hdims
      exact (((h.resolve_left hfd).resolve_left hd).resolve_left hdims.1).resolve_left hdims.2
    obtain ⟨bf, hbf, hle⟩ := orkiPack_bytes K N s w hw
    have haccounts : AccountsAt p (orkDom p.v p.dom) (orkiPack p .i8 K N) OrkW.claims OrkW.ids s :=
      fun s₀ l r hs => (orkiPack_owes rfl .i8 K N s hs).1
    rw [taken_of_accounts haccounts hw]
    exact hle.trans ((packFits_iff hsoc (by omega)).mp hfits bf hbf)

theorem i8Import_covered (h : K % 32 ≠ 0 ∨ N % 32 ≠ 0 ∨ p.k.dmaHeap = false ∨ ImportFits p K N)
    (hw : (whole (orkI8MmPackImport p K N) s).1 = some w) :
    taken s (whole (orkI8MmPackImport p K N) s).2 ≤ tiled8 p K N + counted p K N := by
  by_cases hdims : K % 32 ≠ 0 ∨ N % 32 ≠ 0 ∨ p.k.dmaHeap = false
  · have hnone : orkI8MmPackImport p K N = pure none := if_pos hdims
    rw [hnone] at hw
    cases hw
  · have hfits : ImportFits p K N := by
      rw [not_or, not_or] at hdims
      exact ((h.resolve_left hdims.1).resolve_left hdims.2.1).resolve_left hdims.2.2
    refine (taken_builds_le (orkI8MmPackImport_builds rfl) (weighs_import K N) hw).trans ?_
    exact importFits_iff.mp hfits

theorem i8Load_weighs (K N : Nat) (blob : Bool) :
    Weighs (fun _ => True) (tiled8 p K N + counted p K N) (orkI8MmLoad p K N blob) := by
  refine Weighs.ite (fun _ => weighs_none) fun _ => Weighs.ite (fun _ => offline_weighs _ _) fun _ => ?_
  refine Weighs.ite (fun _ => weighs_none) fun _ => ?_
  have htiles : Weighs Tiles.Local (tiled8 p K N + loadFull p K N)
      (andThen (placeTiles p (.created false) true p.dom (tileBytes (i8Geom p K N) 1 1)) (loadBf p (.created false) K N)) :=
    (placeTiles_weighs _).andThen fun _ ht => loadBf_weighs ht
  exact (htiles.mono (Nat.add_le_add_left (loadFull_le K N) _)).weaken fun _ _ => trivial

/-- Tiles and a full-K copy under the condition the estimate counts one. -/
theorem i8Tiles_counted {src : Source} : Weighs Tiles.Local (tiled8 p K N + counted p K N)
    (i8Tiles p src true p.dom (K ≤ 10752 ∧ p.k.noBf = false) (i8Geom p K N)) := by
  refine i8Tiles_weighs.mono (Nat.add_le_add_left (le_of_eq ?_) _)
  exact if_congr (by rw [decide_eq_true_eq]) rfl rfl

theorem i8Tiles_load {src : Source} : Weighs Tiles.Local (tiled8 p K N + counted p K N)
    (i8Tiles p src true p.dom (K % 512 = 0 ∧ K ≤ 4096 ∧ p.k.noBf = false) (i8Geom p K N)) := by
  refine i8Tiles_weighs.mono (Nat.add_le_add_left (le_trans (le_of_eq ?_) (loadFull_le K N)) _)
  exact if_congr (by rw [decide_eq_true_eq]) rfl rfl

theorem i4a8Load_weighs (K N : Nat) (blob : Bool) :
    Weighs (fun _ => True) (tiled8 p K N + counted p K N) (orkI4a8MmLoad p K N blob) := by
  refine Weighs.ite (fun _ => weighs_none) fun _ => Weighs.ite (fun _ => offline_weighs _ _) fun _ => hosted_weighs ?_
  have hrun : Weighs Tiles.Local (tiled8 p K N + counted p K N + 0)
      (andThen (i8Tiles p (.created false) true p.dom (K ≤ 10752 ∧ p.k.noBf = false) (i8Geom p K N))
        (finish p [2, if p.k.directI4 then 1 else 2] (orkMmFreeTiles p))) :=
    i8Tiles_counted.andThen fun _ ht => finish_weighs ht
  exact hrun.weaken fun _ _ => trivial

theorem i4a8LoadImport_weighs (K N : Nat) (blob : Bool) :
    Weighs Tiles.Local (tiled8 p K N + counted p K N) (orkI4a8MmLoadImport p K N blob) := by
  refine Weighs.ite (fun _ => weighs_none) fun _ => Yields.after fun _ => Weighs.ite (fun _ => ?_) fun _ => weighs_none
  refine Yields.after fun _ => Yields.after fun _ => Weighs.ite (fun _ => ?_) fun _ => weighs_none
  have hrun : Weighs Tiles.Local (tiled8 p K N + counted p K N + 0)
      (andThen (i8Tiles p .imported true p.dom (K % 512 = 0 ∧ K ≤ 4096 ∧ p.k.noBf = false) (i8Geom p K N))
        (finish p [2, 1] (orkMmFreeTiles p))) :=
    i8Tiles_load.andThen fun _ ht => finish_weighs ht
  exact hrun

theorem i4a8LoadTiled_weighs {G : Nat} {blob : Bool} (h : Ctor.Fits p (.i4a8MmLoadTiled K N G blob)) :
    Weighs (fun _ => True) (tiled8 p K N + counted p K N) (orkI4a8MmLoadTiled p K N G blob) := by
  refine Weighs.ite (fun _ => weighs_none) fun hdims => Weighs.ite (fun _ => offline_weighs _ _) fun hfd => hosted_weighs ?_
  refine Weighs.ite (fun hG => ?_) fun _ => i8Tiles_counted.weaken fun _ _ => trivial
  have hle : paged (tileBytes ⟨G, p.npu.soc.nmax, K, N⟩ 1 1) ≤ tiled8 p K N + counted p K N := by
    rw [not_or, not_or] at hdims
    have h := ((((h.resolve_left hdims.1).resolve_left hdims.2.1).resolve_left hdims.2.2).resolve_left hfd)
    exact (h.resolve_left (Nat.ne_of_gt hG.1)).resolve_left (not_not.mpr hG.2)
  exact (i8Tiles_weighs.mono hle).weaken fun _ _ => trivial

theorem fold_weighs (hsoc : p.npu.soc ∈ socTable) (K N : Nat) (blob : Bool) :
    Weighs (fun _ => True) (tiled8 p K N + counted p K N) (orkI8MmLoadFold p K N blob) := by
  refine Weighs.ite (fun _ => weighs_none) fun hdims => Yields.after fun _ => Weighs.ite (fun _ => ?_) fun _ => weighs_none
  have hK : K = foldRefK := by omega
  have hN : N % 32 = 0 := by omega
  subst hK
  refine (createOrNone_bytes _).bind fun o ho => ?_
  cases o with
  | none => exact weighs_none
  | some bs =>
      refine Yields.pure fun t ht => ?_
      cases ht
      refine ⟨trivial, ?_⟩
      have hrec : ({ Tiles.blank true p.dom with Bfold := bs } : Tiles).reclaims = bs := List.append_nil bs
      rw [hrec, ho bs rfl]
      exact (fold_le_tiled8 hsoc hN).trans (Nat.le_add_right _ _)

theorem adoptImported_weighs {h : Handed} {mapped blob : Bool} (hfits : Ctor.Fits p (.i8MmAdoptImported K N h mapped blob)) :
    Weighs (fun _ => True) (tiled8 p K N + counted p K N) (orkI8MmAdoptImported p K N h mapped blob) := by
  refine Weighs.ite (fun _ => weighs_none) fun hdims => Weighs.ite (fun _ => ?_) fun hzc => ?_
  · exact Weighs.ite (fun _ => i8Load_weighs K N blob) fun _ => weighs_none
  · refine Weighs.ite (fun _ => weighs_none) fun hbytes => adopt_weighs.mono ?_
    rw [not_or, not_or] at hdims
    have h := ((hfits.resolve_left hdims.1).resolve_left hdims.2.1).resolve_left hdims.2.2
    exact (h.resolve_left hzc).resolve_left hbytes

theorem i4MmPack_covered (hsoc : p.npu.soc ∈ socTable) (h : Ctor.Fits p (.i4MmPack K N))
    (hw : (orkI4MmPack p K N s).1 = some w) : taken s (orkI4MmPack p K N s).2 ≤ tiled4 p K N := by
  unfold orkI4MmPack at hw ⊢
  by_cases hdims : K % 32 ≠ 0 ∨ N % 64 ≠ 0
  · rw [if_pos hdims] at hw
    cases hw
  rw [if_neg hdims] at hw ⊢
  by_cases hfd : p.npu.fd < 0
  · rw [if_pos hfd] at hw ⊢
    exact (taken_whole_le (offline_accounts (D := 0) _) (offline_weighs _ 0) hw).trans (Nat.zero_le _)
  rw [if_neg hfd] at hw ⊢
  by_cases hd : p.daemon = true
  · rw [if_pos hd] at hw ⊢
    exact (taken_client hw).le.trans (Nat.zero_le _)
  rw [if_neg hd] at hw ⊢
  rw [not_or] at hdims
  have hfits := (((h.resolve_left hdims.1).resolve_left hdims.2).resolve_left hfd).resolve_left hd
  refine (taken_le (p := p) (D := orkDom p.v p.dom) ?_ ?_ hw).trans ((packed4_le_iff hsoc).mpr hfits)
  · exact fun s₀ l r hs => (rescue_owes (orkI4MmPackTiles_builds rfl K N) (fun _ _ _ => orkiI4SlicePack_owes rfl K N) s hs).1
  · refine orkI4MmPack_bytes _ fun t ht => ?_
    have hwant := of_decide_eq_true ht.1
    exact decide_eq_true ⟨⟨hwant.1, hwant.2⟩, ht.2⟩

theorem i4Load_weighs (K N : Nat) (blob : Bool) : Weighs (fun _ => True) (tiled4 p K N) (orkI4MmLoad p K N blob) := by
  refine Weighs.ite (fun _ => weighs_none) fun _ => Weighs.ite (fun _ => offline_weighs _ _) fun _ => ?_
  exact (placeTiles_weighs _).weaken fun _ _ => trivial

theorem i4LoadImport_weighs {blob : Bool} (h : Ctor.Fits p (.i4MmLoadImport K N blob)) :
    Weighs Tiles.Fresh (tiled4 p K N) (orkI4MmLoadImport p K N blob) := by
  refine Weighs.ite (fun _ => weighs_none) fun hdims => Yields.after fun _ => (placeImported_weighs _ _).mono ?_
  rw [not_or, not_or, not_or] at hdims
  have hfits := (((h.resolve_left hdims.1).resolve_left hdims.2.1).resolve_left hdims.2.2.1).resolve_left hdims.2.2.2
  by_cases hno : p.k.noConsolidateImport = true
  · rw [if_pos hno]
    rfl
  · rw [if_neg hno]
    exact max_le le_rfl (hfits.resolve_left hno)

theorem i4LoadArena_weighs (K N : Nat) (blob : Bool) : Weighs (fun _ => True) (tiled4 p K N) (orkI4MmLoadArena p K N blob) := by
  refine Weighs.ite (fun _ => weighs_none) fun _ => Yields.after fun _ => Weighs.ite (fun _ => ?_) fun _ => weighs_none
  refine Yields.after fun _ => Yields.after fun c => ?_
  cases c with
  | none => exact weighs_none
  | some c =>
      refine Yields.after fun _ => Yields.pure fun t ht => ?_
      cases ht
      exact ⟨trivial, Nat.zero_le _⟩

theorem i4Grouped_weighs {G : Nat} (h : Ctor.Fits p (.i4MmPackGrouped K N G)) :
    Weighs (fun _ => True) (tiled4 p K N) (orkI4MmPackGrouped p K N G) := by
  refine Weighs.ite (fun _ => offline_weighs _ _) fun hfd => Weighs.ite (fun _ => weighs_none) fun hdims => ?_
  rw [not_or, not_or, not_or, not_or] at hdims
  have hle := (((((h.resolve_left hfd).resolve_left hdims.1).resolve_left hdims.2.1).resolve_left
    hdims.2.2.1).resolve_left hdims.2.2.2.1).resolve_left hdims.2.2.2.2
  exact ((placeOwn_weighs (placeTiles_weighs _)).mono hle).weaken fun _ _ => trivial

/-! ### fp16 -/

theorem f16LoadCommon_weighs (K N : Nat) (blob useImport : Bool) :
    Weighs Tiles.Fresh (packTiled p .f16 K N) (f16LoadCommon p K N blob useImport) := by
  refine Weighs.ite (fun _ => weighs_none) fun _ => Weighs.ite (fun _ => weighs_none) fun _ => hosted_weighs ?_
  cases useImport with
  | false => exact placeTiles_weighs _
  | true => exact Yields.after fun _ => placeTiles_weighs _

theorem f16LoadCommon_some {blob useImport : Bool} (h : (f16LoadCommon p K N blob useImport s).1.isSome = true) :
    ¬ p.npu.fd < 0 ∧ K % 32 = 0 ∧ N % 16 = 0 ∧ ¬ blob = false ∧ (useImport = true → ¬ p.k.dmaHeap = false) := by
  unfold f16LoadCommon at h
  by_cases hdims : p.npu.fd < 0 ∨ K = 0 ∨ N = 0 ∨ K % 32 ≠ 0 ∨ N % 16 ≠ 0 ∨ blob = false
  · rw [if_pos hdims] at h
    exact absurd h Bool.false_ne_true
  · rw [if_neg hdims] at h
    by_cases himp : useImport = true ∧ p.k.dmaHeap = false
    · rw [if_pos himp] at h
      exact absurd h Bool.false_ne_true
    · simp only [not_or, not_not] at hdims
      exact ⟨hdims.1, hdims.2.2.2.1, hdims.2.2.2.2.1, hdims.2.2.2.2.2, fun hu hheap => himp ⟨hu, hheap⟩⟩

theorem f16Scratch_weighs (K N : Nat) : Weighs Tiles.Fresh (packTiled p .f16 K N) (orkF16MmScratch p K N) :=
  Weighs.ite (fun _ => weighs_none) fun _ => hosted_weighs (placeTiles_weighs _)

/-- An fp16 weight of which nothing is known but that it fits. -/
theorem f16_le (hsoc : p.npu.soc ∈ socTable) (hK : K % 32 = 0) (hN : N % 16 = 0) (hfit : K < 2 ^ 31) (h : SinglePage p K N) :
    packTiled p .f16 K N ≤ tiled4 p K N := (packTiled_f16_le_iff hsoc hK hN hfit).mpr h

theorem orkF16MmPack_bytes (hd : p.daemon = false) (K N : Nat) : Yields (orkF16MmPack p K N) fun o => ∀ w ∈ o,
    K % 32 = 0 ∧ N % 16 = 0 ∧ bytes w.claims ≤ packTiled p .f16 K N := by
  unfold orkF16MmPack
  rw [hd, if_neg Bool.false_ne_true]
  by_cases hdims : K % 32 ≠ 0 ∨ N % 16 ≠ 0
  · intro s w hw
    have hnone : (orkiPack p .f16 K N s).1 = none := rescue_refused (if_pos hdims)
    rw [hnone] at hw
    cases hw
  · exact (orkiPack_f16_bytes K N).mono fun _ ho w hw => ⟨by omega, by omega, ho w hw⟩

/-- A table is built on the device only, and only by runs that go well. -/
theorem orkF16MmBuildLut_yields (runs : Bool) :
    Yields (orkF16MmBuildLut p runs) fun ok => ok = true → p.daemon = false ∧ runs = true := by
  refine Yields.after fun _ => Yields.ite (fun _ => ?_) fun _ => Yields.pure nofun
  have hremote : Yields (orkF16MmPack p 512 64) fun o => ∀ w ∈ o, p.daemon = true → w.orkd.isSome = true := by
    intro s w hw hd
    unfold orkF16MmPack at hw
    rw [if_pos hd] at hw
    obtain ⟨t, ht, rfl⟩ := Option.map_eq_some_iff.mp hw
    exact client_remote ht
  refine hremote.bind fun o ho => ?_
  cases o with
  | none => exact Yields.pure nofun
  | some w =>
      refine Yields.ite (fun _ => Yields.after fun _ => Yields.pure nofun) fun hlocal => ?_
      refine Yields.after fun r => Yields.after fun _ => Yields.pure fun h => ?_
      rw [Bool.and_eq_true] at h
      exact ⟨Bool.eq_false_iff.mpr fun hd => hlocal (ho w rfl hd), h.2⟩

theorem orkF16MmPackFusedAct_bytes (K N : Nat) (fits runs : Bool) :
    Yields (orkF16MmPackFusedAct p K N fits runs) fun o => ∀ w ∈ o, fits = true ∧ runs = true ∧ p.daemon = false ∧
      K % 32 = 0 ∧ N % 16 = 0 ∧ bytes w.claims ≤ packTiled p .f16 K N := by
  have hnone : Yields (pure none : Prog Session (Option OrkW)) fun o => ∀ w ∈ o, fits = true ∧ runs = true ∧ p.daemon = false ∧
      K % 32 = 0 ∧ N % 16 = 0 ∧ bytes w.claims ≤ packTiled p .f16 K N := Yields.pure fun _ h => nomatch h
  refine Yields.ite (fun _ => hnone) fun hgo => Yields.after fun _ => Yields.ite (fun _ => ?_) fun _ => hnone
  refine (orkF16MmBuildLut_yields runs).bind fun ok hok => Yields.ite (fun h => ?_) fun _ => hnone
  obtain ⟨hd, hruns⟩ := hok h
  refine Yields.after fun _ => Yields.ite (fun _ => ?_) fun _ => hnone
  refine (orkF16MmPack_bytes hd K N).mono fun o ho w hw => ⟨?_, hruns, hd, ho w hw⟩
  rw [not_or, Bool.not_eq_false] at hgo
  exact hgo.1

/-- A weight that its constructor took from a program that accounts for it. -/
theorem f16_covered {m : Prog Session (Option Tiles)} (hsoc : p.npu.soc ∈ socTable) (hfit : K < 2 ^ 31)
    (hb : Builds p (orkDom p.v p.dom) Tiles.Local m) (hm : Weighs Tiles.Fresh (packTiled p .f16 K N) m)
    (hsome : (m s).1.isSome = true → K % 32 = 0 ∧ N % 16 = 0 ∧ SinglePage p K N) (hw : (whole m s).1 = some w) :
    taken s (whole m s).2 ≤ tiled4 p K N := by
  obtain ⟨t, ht, -⟩ := Option.map_eq_some_iff.mp hw
  obtain ⟨hK, hN, hone⟩ := hsome (by rw [ht]; rfl)
  exact (taken_builds_le hb hm hw).trans (f16_le hsoc hK hN hfit hone)

/-- A constructor that fits takes no more than the estimate. -/
theorem Ctor.Fits.covered {c : Ctor} (hsoc : p.npu.soc ∈ socTable) (hK : c.dims.1 < 2 ^ 31) (h : c.Fits p)
    (hw : (c.build p s).1 = some w) :
    taken s (c.build p s).2 ≤ orkWResidentBytes p.k.noBf (some p.npu) c.dims.1 c.dims.2 c.wbits (-1) := by
  have h8 : ∀ K N, tiled8 p K N + counted p K N ≤ orkWResidentBytes p.k.noBf (some p.npu) K N 8 (-1) :=
    fun K N => resident8_eq.ge
  have h4 : ∀ K N, tiled4 p K N ≤ orkWResidentBytes p.k.noBf (some p.npu) K N 4 (-1) :=
    fun K N => (resident4_eq (by decide)).ge
  have h16 : ∀ K N, tiled4 p K N ≤ orkWResidentBytes p.k.noBf (some p.npu) K N 16 (-1) :=
    fun K N => (resident4_eq (by decide)).ge
  cases c with
  | i8MmPack K N => exact (i8MmPack_covered hsoc h hw).trans (h8 K N)
  | i8MmLoad K N blob =>
      exact (taken_whole_le (orkI8MmLoad_accounts rfl blob s) (i8Load_weighs K N blob) hw).trans (h8 K N)
  | i8MmPackImport K N => exact (i8Import_covered h hw).trans (h8 K N)
  | i8MmLoadImport K N blob =>
      cases blob with
      | false => cases hw
      | true => exact (i8Import_covered (h.resolve_left Bool.true_eq_false.mp) hw).trans (h8 K N)
  | i8MmLoadFlags K N blob sram =>
      have hweighs : Weighs Tiles.Fresh (tiled8 p K N) (orkI8MmLoadFlags p K N blob sram) :=
        Weighs.ite (fun _ => weighs_none) fun _ => placeTiles_weighs _
      exact (taken_builds_le (orkI8MmLoadFlags_builds rfl blob sram) hweighs hw).trans
        ((Nat.le_add_right _ _).trans (h8 K N))
  | i8MmAdoptImported K N hd mapped blob =>
      exact (taken_whole_le (orkI8MmAdoptImported_accounts rfl hd mapped blob s) (adoptImported_weighs h) hw).trans (h8 K N)
  | i8MmImport K N blob bufs =>
      change (whole (orkI8MmImport p K N blob bufs) s).1 = some w at hw
      change taken s (whole (orkI8MmImport p K N blob bufs) s).2 ≤ _
      unfold orkI8MmImport at hw ⊢
      split at hw
      · cases hw
      · next hgo =>
          rw [if_neg hgo]
          exact (taken_client hw).le.trans (Nat.zero_le _)
  | i8MmPackF32 K N => exact (taken_quantised_le hw).trans (h8 K N)
  | i8MmPackDequant K N => exact (taken_quantised_le hw).trans (h8 K N)
  | i8MmLoadFold K N blob =>
      exact (taken_whole_le ((orkI8MmLoadFold_builds rfl blob).accounts s) (fold_weighs hsoc K N blob) hw).trans (h8 K N)
  | i4a8MmPackIm K N imatrix => exact (taken_quantised_le hw).trans (h8 K N)
  | i4a8MmPack K N => exact (taken_quantised_le hw).trans (h8 K N)
  | i4a8MmLoad K N blob =>
      exact (taken_whole_le (orkI4a8MmLoad_accounts rfl blob s) (i4a8Load_weighs K N blob) hw).trans (h8 K N)
  | i4a8MmLoadTiled K N G blob =>
      exact (taken_whole_le (orkI4a8MmLoadTiled_accounts rfl G blob s) (i4a8LoadTiled_weighs h) hw).trans (h8 K N)
  | i4a8MmLoadImport K N blob =>
      exact (taken_builds_le (orkI4a8MmLoadImport_builds rfl blob) (i4a8LoadImport_weighs K N blob) hw).trans (h8 K N)
  | i4MmPack K N => exact (i4MmPack_covered hsoc h hw).trans (h4 K N)
  | i4MmPackToI8 K N => exact (i8MmPack_covered hsoc h hw).trans (h8 K N)
  | i4MmLoad K N blob =>
      exact (taken_whole_le (orkI4MmLoad_accounts rfl blob s) (i4Load_weighs K N blob) hw).trans (h4 K N)
  | i4MmLoadImport K N blob =>
      exact (taken_builds_le (orkI4MmLoadImport_builds rfl blob) (i4LoadImport_weighs h) hw).trans (h4 K N)
  | i4MmLoadArena K N blob =>
      exact (taken_builds_le (orkI4MmLoadArena_builds rfl blob) (i4LoadArena_weighs K N blob) hw).trans (h4 K N)
  | i4MmPackGrouped K N G =>
      exact (taken_whole_le (orkI4MmPackGrouped_accounts rfl G s) (i4Grouped_weighs h) hw).trans (h4 K N)
  | f16MmPack K N =>
      change (orkF16MmPack p K N s).1 = some w at hw
      change taken s (orkF16MmPack p K N s).2 ≤ _
      by_cases hd : p.daemon = true
      · unfold orkF16MmPack at hw ⊢
        rw [if_pos hd] at hw ⊢
        exact (taken_client hw).le.trans (Nat.zero_le _)
      · obtain ⟨hrows, hcols, hbytes⟩ := orkF16MmPack_bytes (Bool.eq_false_iff.mpr hd) K N s w hw
        have ha : AccountsAt p (orkDom p.v p.dom) (orkF16MmPack p K N) OrkW.claims OrkW.ids s :=
          orkF16MmPack_accounts rfl fun h => hd h.1
        have hone := ((h.resolve_left hd).resolve_left (not_not.mpr hrows)).resolve_left (not_not.mpr hcols)
        exact (taken_of_accounts ha hw).le.trans (hbytes.trans ((f16_le hsoc hrows hcols hK hone).trans (h16 K N)))
  | f16MmLoad K N blob =>
      refine (f16_covered hsoc hK (f16LoadCommon_builds rfl blob false) (f16LoadCommon_weighs K N blob false) (fun ho => ?_) hw).trans (h16 K N)
      obtain ⟨hfd, hrows, hcols, hblob, -⟩ := f16LoadCommon_some ho
      exact ⟨hrows, hcols, (((h.resolve_left hfd).resolve_left hblob).resolve_left (not_not.mpr hrows)).resolve_left (not_not.mpr hcols)⟩
  | f16MmLoadImport K N blob =>
      refine (f16_covered hsoc hK (f16LoadCommon_builds rfl blob true) (f16LoadCommon_weighs K N blob true) (fun ho => ?_) hw).trans (h16 K N)
      obtain ⟨hfd, hrows, hcols, hblob, himp⟩ := f16LoadCommon_some ho
      exact ⟨hrows, hcols, ((((h.resolve_left hfd).resolve_left hblob).resolve_left (himp rfl)).resolve_left
        (not_not.mpr hrows)).resolve_left (not_not.mpr hcols)⟩
  | f16MmScratch K N =>
      refine (f16_covered hsoc hK (orkF16MmScratch_builds rfl) (f16Scratch_weighs K N) (fun ho => ?_) hw).trans (h16 K N)
      have hdims : ¬ (K % 32 ≠ 0 ∨ N % 16 ≠ 0) := fun hdims => by
        have hnone : orkF16MmScratch p K N = pure none := if_pos hdims
        rw [hnone] at ho
        exact Bool.false_ne_true ho
      rw [not_or] at hdims
      exact ⟨not_not.mp hdims.1, not_not.mp hdims.2, (h.resolve_left hdims.1).resolve_left hdims.2⟩
  | f16MmPackFusedAct K N fits runs =>
      obtain ⟨hfits, hruns, hd, hrows, hcols, hbytes⟩ := orkF16MmPackFusedAct_bytes K N fits runs s w hw
      have ha : AccountsAt p (orkDom p.v p.dom) (orkF16MmPackFusedAct p K N fits runs) OrkW.claims OrkW.ids s :=
        orkF16MmPackFusedAct_accounts rfl fun h => Bool.false_ne_true (hd.symm.trans h.2.2.2.1)
      have hone : SinglePage p K N := by
        have h1 := h.resolve_left (by rw [hfits]; exact Bool.true_eq_false.mp)
        have h2 := h1.resolve_left (by rw [hruns]; exact Bool.true_eq_false.mp)
        have h3 := h2.resolve_left (by rw [hd]; exact Bool.false_ne_true)
        exact (h3.resolve_left (not_not.mpr hrows)).resolve_left (not_not.mpr hcols)
      exact (taken_of_accounts ha hw).le.trans (hbytes.trans ((f16_le hsoc hrows hcols hK hone).trans (h16 K N)))

end OrkDriver.Weights
