import Mathlib.Data.Finset.Card
import OrkDriver.Pack.Import

/-!
When the daemon's import is the weight that was dumped: never by default, where the body is loaded as if it had a header.
-/

namespace OrkDriver.Pack

open OrkDriver.Lib OrkDriver.Npu
open OrkDriver.Orkd (orkdMaxBytes)

/-! ### Reading one page too far -/

/-- Places that are read one to one, all of them in `T`, cover `T` if `T` is no larger. -/
theorem covered_of_injOn {α β : Type*} [DecidableEq β] {A : Finset α} {T : Finset β} {f g : α → β}
    (hf : ∀ a ∈ A, f a ∈ T) (hinj : Set.InjOn f A) (hg : ∀ t ∈ T, ∃ a ∈ A, g a = t) : ∀ t ∈ T, ∃ a ∈ A, f a = t := by
  have hcard : T.card ≤ (A.image f).card := by
    have hsub : T ⊆ A.image g := fun t ht => Finset.mem_image.mpr (hg t ht)
    calc T.card ≤ (A.image g).card := Finset.card_le_card hsub
      _ ≤ A.card := Finset.card_image_le
      _ = (A.image f).card := (Finset.card_image_of_injOn hinj).symm
  have hsub : A.image f ⊆ T := fun t ht => by
    obtain ⟨a, ha, rfl⟩ := Finset.mem_image.mp ht
    exact hf a ha
  intro t ht
  rw [← Finset.eq_of_subset_of_card_le hsub hcard] at ht
  exact Finset.mem_image.mp ht

theorem offsets_apart {off x x' o o' : Nat} {t t' : Tile} {ts : List Tile} (hx : (offsets off ts)[x]? = some (o, t))
    (hx' : (offsets off ts)[x']? = some (o', t')) (hlt : x < x') : o + t.tsz ≤ o' := by
  induction ts generalizing off x x' with
  | nil => simp [offsets] at hx
  | cons u ts ih =>
      cases x' with
      | zero => exact absurd hlt (Nat.not_lt_zero x)
      | succ x' =>
          rw [offsets, List.getElem?_cons_succ] at hx'
          cases x with
          | zero =>
              rw [offsets, List.getElem?_cons_zero, Option.some.injEq, Prod.mk.injEq] at hx
              obtain ⟨rfl, rfl⟩ := hx
              exact (bounds_of_mem_offsets (List.mem_of_getElem? hx')).1
          | succ x =>
              rw [offsets, List.getElem?_cons_succ] at hx
              exact ih hx hx' (Nat.lt_of_succ_lt_succ hlt)

section

variable {c d : OrkNpu} {K N : Nat}

/-- The run reads element `(k, n)` inside the tile it was loaded to. -/
def Inside (g r : Geom) (k n : Nat) : Prop :=
  n / r.NMAX < g.Sn ∧ k / r.KS < g.Sk ∧
    (r.cellAt k n).tileIndex (r.tile (n / r.NMAX) (k / r.KS)).KT < (g.tile (n / r.NMAX) (k / r.KS)).tsz

theorem readIndex_inj {g r : Geom} (hr : r.Aligned) {k n k' n' : Nat} (hk : k < r.K) (hn : n < r.N) (hk' : k' < r.K)
    (hn' : n' < r.N) (hin : Inside g r k n) (hin' : Inside g r k' n') (h : g.readIndex r k n = g.readIndex r k' n') :
    k * r.N + n = k' * r.N + n' := by
  have hx : ∀ {ns ks}, ns < g.Sn → ks < g.Sk →
      (offsets 0 g.tiles)[ns * g.Sk + ks]? = some (g.tileOffset ns ks, g.tile ns ks) := by
    intro ns ks hns hks
    rw [Geom.offsets_tiles, getElem?_rows _ g.Sk hns hks, Nat.zero_add]
  have hone := hx hin.1 hin.2.1
  have htwo := hx hin'.1 hin'.2.1
  unfold Geom.readIndex at h
  have hplace : n / r.NMAX * g.Sk + k / r.KS = n' / r.NMAX * g.Sk + k' / r.KS := by
    rcases Nat.lt_trichotomy (n / r.NMAX * g.Sk + k / r.KS) (n' / r.NMAX * g.Sk + k' / r.KS) with hlt | heq | hlt
    · have hapart := offsets_apart hone htwo hlt
      have hinside := hin.2.2
      omega
    · exact heq
    · have hapart := offsets_apart htwo hone hlt
      have hinside := hin'.2.2
      omega
  obtain ⟨hns, hks⟩ := digits_inj hin.2.1 hin'.2.1 hplace
  have hcell := hr.cellAt_mem hk' hn'
  rw [← hns, ← hks] at h hcell
  have hv := Tile.tileIndex_inj (hr.cellAt_mem hk hn) hcell (Nat.add_left_cancel h)
  rw [← r.elemIndex_cellAt k n, ← r.elemIndex_cellAt k' n', hv, hns, hks]

/-- What `ork_i8_mm_load` makes of a blob, with zeroed buffers, reads every non-zero element from a byte of its own. -/
theorem Decodes.reads (hd : d.soc ∈ socTable) (ht : Dumper.bb.Takes K N) {b : Blob} {n : Nat} {w : Loaded} {B : Mem}
    (hw : i8MmLoad d .good K N b n = some w) (hdec : Decodes d K N B w) : ∃ g : Geom,
      bytes g.tiles = n - orkPackHdrBytes ∧ ∀ k n, k < K → n < N → B (k * N + n) ≠ 0 →
        Inside g (geom d K N) k n ∧ b.body (g.readIndex (geom d K N) k n) = B (k * N + n) := by
  have hr := geom_aligned_of_takes hd ht
  have hrun : Loader.load.run d .good K N b n = some w := hw
  obtain ⟨-, hsize, ⟨codes, -, hfd, rfl⟩ | ⟨Bb, honline, rfl, hload⟩⟩ := Loader.run_some hrun
  · refine ⟨geom d K N, ?_, fun k n hk hn _ => ⟨⟨?_, ?_, ?_⟩, ?_⟩⟩
    · rw [hsize]
      exact congrArg (fun g : Geom => bytes g.tiles) (if_pos ⟨rfl, hfd⟩).symm
    · exact div_lt_pieces hr.NMAX_pos hn
    · exact div_lt_pieces hr.KS_pos hk
    · exact Tile.tileIndex_lt_tsz (hr.blocked _ _) (hr.cellAt_mem hk hn)
    · have hread := hr.gathered b.body codes hk hn
      exact hread.symm.trans (hdec _ (digits_lt hk hn))
  · refine ⟨loadGeom d K N, ?_, fun k n hk hn hne => ?_⟩
    · rw [hsize]
      exact congrArg (fun g : Geom => bytes g.tiles) (if_neg honline).symm
    · have hns : n / (geom d K N).NMAX < (loadGeom d K N).Sn := div_lt_pieces hr.NMAX_pos hn
      obtain ⟨hSk, hcells⟩ := hdec.2 _ hns
      have hks : k / (geom d K N).KS < (loadGeom d K N).Sk := by
        rw [hSk]
        exact div_lt_pieces hr.KS_pos hk
      obtain ⟨mt, hmt, hbyte⟩ := hcells _ hks _ (hr.cellAt_mem hk hn)
      obtain ⟨fresh, hfresh, hBb⟩ := loaded_tile hload hns hks
      rw [hBb, Option.some.injEq] at hmt
      have hel : ((geom d K N).tile (n / (geom d K N).NMAX) (k / (geom d K N).KS)).elemIndex N ((geom d K N).cellAt k n) =
          k * N + n := (geom d K N).elemIndex_cellAt k n
      rw [← hmt, hel] at hbyte
      cases hfresh
      have hlt := ne_of_eq_of_ne hbyte hne
      rw [ne_eq, ite_eq_right_iff, Classical.not_imp] at hlt
      exact ⟨⟨hns, hks, hlt.1⟩, (if_pos hlt.1).symm.trans hbyte⟩

theorem readHdr_magic {m : Mem} (h : (readHdr m).magic = orkPackMagic) : ∃ p < 4, m p ≠ 0 := by
  by_contra hne
  have hzero : ∀ p < 4, m p = 0 := fun p hp => by
    by_contra hm
    exact hne ⟨p, hp, hm⟩
  have hword : (readHdr m).magic = 0 := by
    change pageWord m 0 = 0
    unfold pageWord
    simp only [List.foldl_cons, List.foldl_nil, Nat.mul_zero, Nat.zero_add, hzero 0 (by decide), hzero 1 (by decide),
      hzero 2 (by decide), hzero 3 (by decide)]
    decide
  rw [hword] at h
  exact absurd h (by decide)

variable {cc : OrkNpu} {bf : Bool} {n bfOff : Nat} {B : Mem} {b : Blob} {m : ImportMsg}

theorem orkiPackCheck_magic {h : PackHdr} {dt : Dt} (hchk : orkiPackCheck c h n dt K N = none) :
    h.magic = orkPackMagic := by
  unfold orkiPackCheck at hchk
  split_ifs at hchk with _ hmagic
  exact not_not.mp hmagic

theorem orkdHandleImport_default {v : ImportEnv} (hzc : v.zc = false) {r : Resident}
    (hr : orkdHandleImport d v m = some r) :
    ∃ w, i8MmLoad d v.load m.K m.N ⟨readHdr m.bb, m.bb⟩ m.bbBytes = some w ∧ r = ⟨w, none⟩ := by
  unfold orkdHandleImport at hr
  split_ifs at hr
  have hadopt := Option.eq_some_of_filter_eq_some hr
  unfold orkI8MmAdoptImported at hadopt
  split_ifs at hadopt
  obtain ⟨w, hw, rfl⟩ := Option.map_eq_some_iff.mp hadopt
  exact ⟨w, hw, rfl⟩

/-- By default no blob at all is imported as the weight that was dumped: the loader wants a header, takes the first page
of the tiles for it, and reads every element one page too far. -/
theorem import_default_never (hc : c.soc ∈ socTable) (hd : d.soc ∈ socTable) (h : Carries c K N B bf b n bfOff)
    {alloc : Nat → Bool} (hm : orkI8MmImport cc alloc K N b n bfOff = some m) {v : ImportEnv} (hzc : v.zc = false)
    (hload : v.load = .good) {r : Resident} (hr : orkdHandleImport d v m = some r) : ¬ r.Serves d K N B := by
  intro hserves
  obtain ⟨⟨hK, hN⟩, -, rfl⟩ := orkI8MmImport_some hm
  obtain ⟨ht, -, hb, -⟩ := h.holds hc hK
  have hg := geom_aligned_of_takes hc ht
  have hgd := geom_aligned_of_takes hd ht
  rw [h.imported_eq hc hK hN] at hr
  obtain ⟨w, hw, rfl⟩ := orkdHandleImport_default hzc hr
  rw [hload] at hw
  obtain ⟨hchk, -, -⟩ := Loader.run_some (l := .load) hw
  obtain ⟨g, -, hreads⟩ := Decodes.reads hd ht hw hserves.1
  -- the non-zero bytes of the body, and the elements they belong to
  let bb := copied (bytes (geom c K N).tiles) b.body
  let T := (Finset.range (bytes (geom c K N).tiles)).filter fun p => bb p ≠ 0
  let A := (Finset.range (K * N)).filter fun e => B e ≠ 0
  have hT : ∀ {p}, bb p ≠ 0 → p ∈ T := fun hp => Finset.mem_filter.mpr ⟨Finset.mem_range.mpr (lt_of_copied_ne hp), hp⟩
  have hmod : ∀ e, e / N * N + e % N = e := fun e => Nat.div_add_mod' e N
  have hA : ∀ e ∈ A, e / N < K ∧ e % N < N ∧ B (e / N * N + e % N) ≠ 0 := by
    intro e he
    obtain ⟨hlt, hne⟩ := Finset.mem_filter.mp he
    refine ⟨Nat.div_lt_of_lt_mul ?_, Nat.mod_lt _ hN, by rwa [hmod]⟩
    rw [Nat.mul_comm]
    exact Finset.mem_range.mp hlt
  have hcover : ∀ p ∈ T, ∃ e ∈ A, orkPackHdrBytes + g.readIndex (geom d K N) (e / N) (e % N) = p := by
    refine covered_of_injOn (g := fun e => (geom c K N).position (e / N) (e % N)) (fun e he => ?_) (fun e he e' he' heq => ?_)
      fun p hp => ?_
    · obtain ⟨hk, hn, hne⟩ := hA e he
      have hread := (hreads _ _ hk hn hne).2
      exact hT (ne_of_eq_of_ne hread hne)
    · obtain ⟨hk, hn, hne⟩ := hA e he
      obtain ⟨hk', hn', hne'⟩ := hA e' he'
      have hinj := readIndex_inj hgd hk hn hk' hn' (hreads _ _ hk hn hne).1 (hreads _ _ hk' hn' hne').1
        (Nat.add_left_cancel heq)
      have hinj' : e / N * N + e % N = e' / N * N + e' % N := hinj
      rwa [hmod, hmod] at hinj'
    · obtain ⟨hlt, hne⟩ := Finset.mem_filter.mp hp
      have hlt' := Finset.mem_range.mp hlt
      have hbody : b.body (0 + p) ≠ 0 := by
        rw [Nat.zero_add, ← copied_of_lt b.body hlt']
        exact hne
      obtain ⟨k, n', hk, hn', hpos, hBne⟩ := hb.exists_element hg hlt' hbody
      have hN' : n' < N := hn'
      refine ⟨k * N + n', Finset.mem_filter.mpr ⟨Finset.mem_range.mpr (digits_lt hk hn'), hBne⟩, ?_⟩
      rw [hpos, Nat.mul_comm k N, Nat.mul_add_div hN, Nat.div_eq_of_lt hN', Nat.add_zero, Nat.mul_add_mod,
        Nat.mod_eq_of_lt hN']
  -- but the header lies before everything that is read
  obtain ⟨p, hp, hne⟩ := readHdr_magic (orkiPackCheck_magic hchk)
  obtain ⟨e, -, heq⟩ := hcover p (hT hne)
  have hpage : orkPackHdrBytes = 4096 := rfl
  omega

/-! ### Serving -/

variable {zc owned room : Bool}

theorem orkdHandleImport_zc {v : ImportEnv} (hzc : v.zc = true) (hown : v.owned = true) (hroom : v.room = true)
    (hmap : v.mapped = true) (hdims : m.K % 32 = 0 ∧ m.N % 32 = 0) (hpos : m.bbBytes ≠ 0) (hbb : m.bbBytes ≤ orkdMaxBytes)
    (hbf : m.bfBytes ≤ orkdMaxBytes) (hfull : bytes (loadGeom d m.K m.N).tiles ≤ m.bbBytes) : orkdHandleImport d v m =
      some ⟨.tiles (loadGeom d m.K m.N).Sk (loadGeom d m.K m.N).Sn (viewsOf m.bb (loadGeom d m.K m.N).tiles),
        (m.bf.filter fun _ => v.bfMapped && decide (bytes (bfTiles d m.K m.N) ≤ m.bfBytes)).map fun m' =>
          viewsOf m' (bfTiles d m.K m.N)⟩ := by
  unfold orkdHandleImport orkI8MmAdoptImported
  dsimp only
  rw [if_neg (by omega), if_neg (by rw [hown]; decide), if_neg (by omega), if_neg (by rw [hmap]; decide),
    if_neg (by rw [hzc]; decide), if_neg (Nat.not_lt.mpr hfull), hroom]
  rfl

theorem serves_of_adoptable (hc : c.soc ∈ socTable) (hd : d.soc ∈ socTable) (ha : Adoptable c d zc owned room bf K N) :
    ImportServes c cc d zc owned room bf K N := by
  intro B b n bfOff hcar alloc m hm v hzc hown hroom hgr
  obtain ⟨⟨hK, hN⟩, -, rfl⟩ := orkI8MmImport_some hm
  obtain ⟨ht, -, hb, hrest⟩ := hcar.holds hc hK
  have hdims : K % 32 = 0 ∧ N % 32 = 0 := ⟨Nat.mod_eq_zero_of_dvd ht.1, Nat.mod_eq_zero_of_dvd ht.2⟩
  have hS := bytes_pos hc ht hK hN
  rw [hcar.imported_eq hc hK hN]
  have hbfBytes : (if bf = true then bytes (bfTiles c K N) else 0) ≤ orkdMaxBytes := by
    split_ifs with hbf
    · exact ha.bfSize hbf
    · exact Nat.zero_le _
  refine ⟨_, orkdHandleImport_zc (hzc.trans ha.zc) (hown.trans ha.owned) (hroom.trans ha.room) hgr.1 hdims
    (Nat.ne_of_gt hS) ha.size hbfBytes ha.full, decodes_views hc hd ht hb ha.agree ha.offsets, ?_⟩
  intro Bf hBf ns hns
  obtain ⟨src, hsrc, rfl⟩ := Option.map_eq_some_iff.mp hBf
  have hsrc' := Option.eq_some_of_filter_eq_some hsrc
  cases bf with
  | false => exact nomatch hsrc'
  | true =>
      obtain rfl := Option.some.inj hsrc'
      rw [if_pos rfl] at hrest
      obtain ⟨-, hoff, hfull⟩ := hrest
      refine full_views hc hd ht hK (fun ns ks hns hks j hj => ?_) hns
      rw [← hfull ns ks hns hks j hj, hoff, Nat.zero_add]
      unfold Blob.body
      simp only [Nat.add_assoc]

/-- A blob the client sends on. -/
theorem exists_import (hc : c.soc ∈ socTable) (ht : Dumper.bb.Takes K N) (hK : 0 < K) (hN : 0 < N)
    (hcap : orkiPackCapid c.soc = orkiPackCapid cc.soc) (bf : Bool) (B : Mem) : ∃ b n bfOff, Carries c K N B bf b n bfOff ∧
      orkI8MmImport cc (fun _ => true) K N b n bfOff = some (imported K N b n bfOff) := by
  obtain ⟨b, n, bfOff, hcar⟩ := exists_carries hc ht hK bf B
  refine ⟨b, n, bfOff, hcar, ?_⟩
  obtain ⟨-, hhdr, -, hrest⟩ := hcar.holds hc hK
  have hS := bytes_pos hc ht hK hN
  have hpage : orkPackHdrBytes = 4096 := rfl
  have hn : orkPackHdrBytes ≤ n ∧ ¬ (bfOff ≠ 0 ∧ bfOff ≤ orkPackHdrBytes) := by
    split_ifs at hrest
    · obtain ⟨rfl, rfl, -⟩ := hrest
      omega
    · obtain ⟨rfl, rfl⟩ := hrest
      omega
  have hchk : orkiPackCheck cc b.hdr n .i8 K N = none := by
    rw [hhdr]
    exact (orkiPackCheck_stamp c cc .i8 K N n hn.1).mpr hcap
  unfold orkI8MmImport
  dsimp only
  rw [if_neg (by omega), if_neg (not_not.mpr hchk), if_neg hn.2, if_neg (by simp)]

/-- An environment in which nothing fails. -/
def ImportEnv.good (zc owned room : Bool) : ImportEnv := ⟨zc, owned, room, true, true, .good⟩

theorem ImportEnv.good_granted : (ImportEnv.good zc owned room).Granted := ⟨rfl, rfl, fun _ => rfl⟩

theorem ImportServes.served (hc : c.soc ∈ socTable) (ht : Dumper.bb.Takes K N) (hK : 0 < K) (hN : 0 < N)
    (hcap : orkiPackCapid c.soc = orkiPackCapid cc.soc) (h : ImportServes c cc d zc owned room bf K N) (B : Mem) :
    ∃ b n bfOff r, Carries c K N B bf b n bfOff ∧
      orkI8MmImport cc (fun _ => true) K N b n bfOff = some (imported K N b n bfOff) ∧
      orkdHandleImport d (.good zc owned room) (imported K N b n bfOff) = some r ∧ r.Serves d K N B := by
  obtain ⟨b, n, bfOff, hcar, hm⟩ := exists_import hc ht hK hN hcap bf B
  obtain ⟨r, hr, hserves⟩ := h B b n bfOff hcar _ _ hm (.good zc owned room) rfl rfl rfl ImportEnv.good_granted
  exact ⟨b, n, bfOff, r, hcar, hm, hr, hserves⟩

theorem orkdHandleImport_some {v : ImportEnv} {r : Resident} (hr : orkdHandleImport d v m = some r) :
    m.bbBytes ≤ orkdMaxBytes ∧ m.bfBytes ≤ orkdMaxBytes ∧ v.owned = true ∧ v.room = true ∧
      orkI8MmAdoptImported d v m = some r := by
  unfold orkdHandleImport at hr
  split_ifs at hr with hsize howned
  obtain ⟨hadopt, hroom⟩ := Option.filter_eq_some_iff.mp hr
  exact ⟨by omega, by omega, Bool.eq_true_of_not_eq_false howned, hroom, hadopt⟩

theorem orkI8MmAdoptImported_zc {v : ImportEnv} (hzc : v.zc = true) {r : Resident}
    (hr : orkI8MmAdoptImported d v m = some r) : bytes (loadGeom d m.K m.N).tiles ≤ m.bbBytes ∧
      r.Bb = .tiles (loadGeom d m.K m.N).Sk (loadGeom d m.K m.N).Sn (viewsOf m.bb (loadGeom d m.K m.N).tiles) := by
  unfold orkI8MmAdoptImported at hr
  rw [hzc] at hr
  dsimp only at hr
  split_ifs at hr with hdims hmap hzc' hfull
  · exact absurd hzc' (by decide)
  · obtain rfl := Option.some.inj hr
    exact ⟨Nat.not_lt.mp hfull, rfl⟩

/-- Walks that read every element where the dump put it start their tiles at the same places. -/
theorem cuts_of_reads (hc : c.soc ∈ socTable) (hd : d.soc ∈ socTable) (ht : Dumper.bb.Takes K N) (hK : 0 < K)
    (hN : 0 < N) (hSk : (loadGeom d K N).Sk = (geom d K N).Sk) (hread : ∀ k n, k < K → n < N →
      (loadGeom d K N).readIndex (geom d K N) k n = (geom c K N).position k n) :
    Agree K N c.soc.nmax c.int8Ks d.int8Ks ∧ SameOffsets (loadGeom d K N) (geom d K N) := by
  have hnm : c.soc.nmax = d.soc.nmax := (socTable_nmax hc).trans (socTable_nmax hd).symm
  have hg := geom_aligned_of_takes hc ht
  have hr := geom_aligned_of_takes hd ht
  have hR : geom d K N = (geom c K N).withKS d.int8Ks := geom_eq_withKS (d := .bb) hnm
  have hL : loadGeom d K N = (geom c K N).withKS 1024 := loadGeom_eq_withKS (d := .bb) hnm
  have hl : (loadGeom d K N).Aligned :=
    ⟨Nat.zero_lt_succ 1023, ⟨32, rfl⟩, hr.NMAX_pos, hr.NMAX, ht.1, ht.2⟩
  have hKS : 0 < d.int8Ks := d.int8Ks_spec.1
  by_cases hcut : SameCut K 1024 d.int8Ks
  · have hoffset : ∀ ns ks, ks < (loadGeom d K N).Sk → (loadGeom d K N).tileOffset ns ks = (geom d K N).tileOffset ns ks :=
      fun ns ks hks => (Geom.sameCut_tileOffset (g := loadGeom d K N) hcut hl.KS_pos hKS ns hks).symm
    refine ⟨hg.agree (hR ▸ hr) hN hK fun k n hk hn => ?_, hSk, fun ns ks _ hks => hoffset ns ks hks⟩
    rw [← hR, ← hread k n hk hn]
    exact (congrArg (· + _) (hoffset _ _ (lt_of_lt_of_eq (div_lt_pieces hr.KS_pos hk) hSk.symm))).symm
  · have hs : SameCut K c.int8Ks d.int8Ks := by
      refine hg.sameCut_of_readIndex (L := 1024) (hL ▸ hl) (hR ▸ hr) hN hK (by decide) ?_ hcut ?_
      · rw [← hL, ← hR]
        exact hSk
      · rw [← hL, ← hR]
        exact hread
    refine ⟨.inl hs, hSk, fun ns ks hns hks => ?_⟩
    have hks' : ks < (geom d K N).Sk := lt_of_lt_of_eq hks hSk
    have hk : ks * d.int8Ks < K := (lt_pieces_iff hKS).mp hks'
    have hn : ns * d.soc.nmax < N := (lt_pieces_iff hr.NMAX_pos).mp hns
    have hat := hread _ _ hk hn
    have hpos : (geom d K N).position (ks * d.int8Ks) (ns * d.soc.nmax) =
        (geom c K N).position (ks * d.int8Ks) (ns * d.soc.nmax) := by
      rw [hR]
      exact Geom.sameCut_position hs hg hKS hk
    rw [← hpos] at hat
    have hdivK : ks * d.int8Ks / (geom d K N).KS = ks := Nat.mul_div_cancel _ hKS
    have hdivN : ns * d.soc.nmax / (geom d K N).NMAX = ns := Nat.mul_div_cancel _ hr.NMAX_pos
    unfold Geom.readIndex Geom.position at hat
    rw [hdivK, hdivN] at hat
    exact Nat.add_right_cancel hat

theorem ImportServes.adoptable (hc : c.soc ∈ socTable) (hd : d.soc ∈ socTable) (ht : Dumper.bb.Takes K N) (hK : 0 < K)
    (hN : 0 < N) (hcap : orkiPackCapid c.soc = orkiPackCapid cc.soc) (h : ImportServes c cc d zc owned room bf K N) :
    Adoptable c d zc owned room bf K N := by
  have hg := geom_aligned_of_takes hc ht
  have hr := geom_aligned_of_takes hd ht
  obtain ⟨b, n, bfOff, r, hcar, hm, hhandle, hserves⟩ := h.served hc ht hK hN hcap fun _ => 0
  have hzc : zc = true := by
    by_contra hne
    exact import_default_never hc hd hcar hm (Bool.eq_false_of_not_eq_true hne) rfl hhandle hserves
  obtain ⟨hbb, hbf, howned, hroom, hadopt⟩ := orkdHandleImport_some hhandle
  rw [hcar.imported_eq hc hK hN] at hbb hbf hadopt
  obtain ⟨hfull, hviews⟩ := orkI8MmAdoptImported_zc hzc hadopt
  have hSk : (loadGeom d K N).Sk = (geom d K N).Sk := by
    have hdec := hserves.1
    rw [hviews] at hdec
    exact (hdec.2 0 ((lt_pieces_iff hr.NMAX_pos).mpr (by rwa [Nat.zero_mul]))).1
  have hread : ∀ k n, k < K → n < N → (loadGeom d K N).readIndex (geom d K N) k n = (geom c K N).position k n := by
    intro k n hk hn
    obtain ⟨b, _, _, r, hcar, -, hhandle, hserves⟩ := h.served hc ht hK hN hcap (Geom.single (k * N + n))
    obtain ⟨-, -, -, -, hadopt⟩ := orkdHandleImport_some hhandle
    obtain ⟨-, -, hb, -⟩ := hcar.holds hc hK
    rw [hcar.imported_eq hc hK hN] at hadopt
    obtain ⟨-, hviews⟩ := orkI8MmAdoptImported_zc hzc hadopt
    have hdec := hserves.1
    rw [hviews] at hdec
    have hns : n / d.soc.nmax < (loadGeom d K N).Sn := div_lt_pieces hr.NMAX_pos hn
    have hks : k / d.int8Ks < (loadGeom d K N).Sk := by
      rw [hSk]
      exact div_lt_pieces hr.KS_pos hk
    obtain ⟨mt, hmt, hone⟩ := (hdec.2 _ hns).2 _ hks _ (hr.cellAt_mem hk hn)
    rw [viewsOf_tile _ hns hks] at hmt
    have hel : ((geom d K N).tile (n / d.soc.nmax) (k / d.int8Ks)).elemIndex N ((geom d K N).cellAt k n) =
        k * N + n := (geom d K N).elemIndex_cellAt k n
    rw [hel, ← Option.some.inj hmt] at hone
    have hne := ne_of_eq_of_ne hone Geom.single_ne
    refine hb.eq_position hg hn (lt_of_copied_ne hne) ?_
    rw [Nat.zero_add]
    exact ne_of_eq_of_ne (copied_of_lt b.body (lt_of_copied_ne hne)).symm hne
  obtain ⟨hagree, hoffsets⟩ := cuts_of_reads hc hd ht hK hN hSk hread
  exact {
    zc := hzc
    owned := howned
    room := hroom
    size := hbb
    bfSize := fun hset => by
      rw [if_pos hset] at hbf
      exact hbf
    full := hfull
    agree := hagree
    offsets := hoffsets }

theorem Carries.capid (hc : c.soc ∈ socTable) (hK : 0 < K) (h : Carries c K N B bf b n bfOff)
    (hchk : orkiPackCheck cc b.hdr n .i8 K N = none) : orkiPackCapid c.soc = orkiPackCapid cc.soc := by
  obtain ⟨-, hhdr, -, hrest⟩ := h.holds hc hK
  have hn : orkPackHdrBytes ≤ n := by
    split_ifs at hrest
    · rw [hrest.1, Nat.add_assoc]
      exact Nat.le_add_right _ _
    · rw [hrest.1]
      exact Nat.le_add_right _ _
  rw [hhdr] at hchk
  exact (orkiPackCheck_stamp c cc .i8 K N n hn).mp hchk

/-- The client refuses the dimensions or the chip, or the daemon serves under exactly the conditions of `Adoptable`. -/
theorem import_serves_iff (c cc d : OrkNpu) (hc : c.soc ∈ socTable) (hd : d.soc ∈ socTable) (zc owned room bf : Bool)
    (K N : Nat) : ImportServes c cc d zc owned room bf K N ↔
      (¬ (32 ∣ K ∧ 32 ∣ N) ∨ (K = 0 ∨ N = 0) ∨ orkiPackCapid c.soc ≠ orkiPackCapid cc.soc) ∨
        Adoptable c d zc owned room bf K N := by
  constructor
  · intro h
    by_cases hpass : ¬ (32 ∣ K ∧ 32 ∣ N) ∨ (K = 0 ∨ N = 0) ∨ orkiPackCapid c.soc ≠ orkiPackCapid cc.soc
    · exact .inl hpass
    · rw [not_or, not_or, not_not, not_not, not_or] at hpass
      obtain ⟨ht, ⟨hK, hN⟩, hcap⟩ := hpass
      exact .inr (h.adoptable hc hd ht (Nat.pos_of_ne_zero hK) (Nat.pos_of_ne_zero hN) hcap)
  · rintro (hrefused | ha)
    · intro B b n bfOff hcar alloc m hm
      obtain ⟨⟨hK, hN⟩, hchk, -⟩ := orkI8MmImport_some hm
      obtain ⟨ht, -⟩ := hcar.holds hc hK
      rcases hrefused with hdims | hempty | hcap
      · exact absurd ht hdims
      · omega
      · exact absurd (hcar.capid hc hK hchk) hcap
    · exact serves_of_adoptable hc hd ha

/-- A 512 x 64 weight with its full-K tiles, on a daemon with `ORK_ADOPT_ZC`. -/
theorem import_serves_zc : ImportServes ⟨3, socRk3588, 0⟩ ⟨3, socRk3588, 0⟩ ⟨3, socRk3588, 0⟩ true true true true 512 64 := by
  refine (import_serves_iff _ _ _ (by decide) (by decide) true true true true 512 64).mpr (.inr ?_)
  exact ⟨rfl, rfl, rfl, by decide, fun _ => by decide, by decide, .inl (.inl rfl), rfl, fun _ _ _ _ => rfl⟩

/-- A 32 x 32 weight on a daemon without it. -/
theorem import_serves_default_fails : ¬ ImportServes ⟨3, socRk3588, 0⟩ ⟨3, socRk3588, 0⟩ ⟨3, socRk3588, 0⟩ false true true false 32 32 := by
  intro h
  obtain ⟨b, n, bfOff, r, hcar, hm, hr, hserves⟩ := h.served (by decide) (by decide) (by decide) (by decide) rfl fun _ => 0
  exact import_default_never (by decide) (by decide) hcar hm rfl rfl hr hserves

end

end OrkDriver.Pack
