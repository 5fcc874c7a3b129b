import OrkDriver.Run.Consolidated

/-!
The two ways to allot a weight's tiles leave the same bytes, and the attempt at one buffer leaves nothing behind when it
fails, unless it fails with a kernel object in hand.
-/

namespace OrkDriver.Run

open OrkDriver.Lib OrkDriver.Npu OrkDriver.Pack OrkDriver.Mem

/-- Every tile has whole pages, its codes first and zeros behind them. -/
def Paged (N : Nat) (B : Nat → Int8) (ts : List Tile) (Bb : List (View Int8)) : Prop :=
  List.Forall₂ (fun t b => b.size = t.tsz ∧ ∀ j < t.tsz, b.cpu j = t.image N B j) ts Bb

/-- The kernel zeroes what it hands out. -/
def TileEnv.Zeroed (a : TileEnv Int8) : Prop := ∀ h j, a.fresh h j = 0

/-- The attempt at one buffer ends with it, or before a kernel object is made. -/
def CleanAttempt (v : BufEnv) (d : Device) (dom : Int) (need : Nat) (f : Fate) : Prop :=
  d.orkIovaReserve v dom need ≠ none → f = .made ∨ f = .refused ∧ NoWrap d dom need

section

variable {v : BufEnv} {a : TileEnv Int8} {c : Npu.OrkNpu} {e : F16Knobs} {domain : Int} {K N : Nat} {B : Nat → Int8}
  {d : Device} {ts : List Tile}

/-! ### The bytes -/

theorem paged_ownViews (ha : a.Zeroed) (hts : ∀ t ∈ ts, t.Blocked) (own : Buf) :
    Paged N B ts (ownViews own (ownMem N B ts (a.fresh own.handle)) ts) := by
  have hmem := (ownMem_spec (N := N) (B := B) hts (fun p (_ : 0 ≤ p) => ha own.handle p)).1
  have hall : List.Forall₂ (fun t (b : View Int8) => b.size = t.tsz ∧ ∀ j < t.tsz, b.cpu j = t.image N B j)
      ((placed Tile.tsz 0 ts).map Prod.snd) (ownViews own (ownMem N B ts (a.fresh own.handle)) ts) := by
    rw [ownViews, List.forall₂_map_left_iff, List.forall₂_map_right_iff, List.forall₂_same]
    exact fun p hp => ⟨rfl, hmem p hp⟩
  rwa [map_snd_placed] at hall

theorem perTile_paged (ha : a.Zeroed) (hfit : ∀ t ∈ ts, t.Kp * t.Nc + 4095 < 2 ^ 64) {made l : List (Buf × (Nat → Int8))}
    (h : (perTile v a domain .i8 N B ts made d).1 = some l) :
    ∃ l', l = made ++ l' ∧ List.Forall₂ (fun t b => b.1.size = t.tsz ∧ b.2 = t.image N B) ts l' := by
  induction ts generalizing made d with
  | nil => exact ⟨[], by rw [List.append_nil]; exact (Option.some.inj h).symm, .nil⟩
  | cons t ts ih =>
    have hi8 : ¬ (Dt.i8 = .f16 ∧ a.f16ImportW = true) := fun h => absurd h.1 (by decide)
    have hsize : t.Kp * t.Nc * esz .i8 = t.Kp * t.Nc := Nat.mul_one _
    have hfresh : ∀ h, a.fresh h = fun _ => 0 := fun h => funext (ha h)
    rw [perTile, if_neg hi8, hsize] at h
    by_cases hcpu : (orkiBcreate v d (t.Kp * t.Nc) a.weightSram domain (a.tile made.length)).1.cpu = true
    · rw [if_neg (by rw [hcpu]; decide)] at h
      obtain ⟨l', rfl, hl'⟩ := ih (fun u hu => hfit u (List.mem_cons_of_mem _ hu)) h
      refine ⟨_, List.append_assoc _ _ _, .cons ⟨?_, ?_⟩ hl'⟩
      · exact (orkiBcreate_made hcpu).trans (orkiPgup_eq (hfit t List.mem_cons_self))
      · rw [hfresh, tileStores_i8]
    · rw [if_pos (Bool.eq_false_iff.mpr hcpu)] at h
      exact absurd h (by simp)

theorem separateTiles_paged (ha : a.Zeroed) (hfit : ∀ t ∈ ts, t.Kp * t.Nc + 4095 < 2 ^ 64) {w : PackedTiles Int8}
    (h : (separateTiles v a domain .i8 N B ts d).1 = some w) : Paged N B ts w.Bb ∧ w.ownBuf = none := by
  obtain ⟨made, hmade, rfl⟩ := Option.map_eq_some_iff.mp h
  obtain ⟨l, rfl, hl⟩ := perTile_paged ha hfit hmade
  refine ⟨?_, rfl⟩
  unfold Paged
  rw [List.forall₂_map_right_iff]
  exact hl.imp fun t b hb => ⟨hb.1, fun j _ => congrFun hb.2 j⟩

theorem weightGeom_i8 (c : Npu.OrkNpu) (e : F16Knobs) (K N : Nat) : weightGeom c e .i8 K N = Pack.geom c K N := rfl

theorem weightGeom_aligned (hc : c.soc ∈ socTable) (hK : K % 32 = 0) (hN : N % 32 = 0) : (Pack.geom c K N).Aligned := by
  have hn : c.soc.nmax = 8192 := socTable_nmax hc
  exact Pack.geom_aligned (by rw [hn]; decide) (by rw [hn]; decide) (Nat.dvd_of_mod_eq_zero hK)
    (Nat.dvd_of_mod_eq_zero hN)

/-- However the tiles are allotted, they hold the same pages. -/
theorem orkiPackTiles_paged (hc : c.soc ∈ socTable) (hK : K < 2 ^ 31) (hN : N < 2 ^ 31) (ha : a.Zeroed)
    {way : Bool} {w : PackedTiles Int8} (h : (orkiPackTiles v way a c e domain .i8 K N B d).1 = some w) :
    (Pack.geom c K N).Aligned ∧ Paged N B (Pack.geom c K N).tiles w.Bb ∧ ∀ own, w.ownBuf = some own →
      own.size = orkiPgup (total Tile.tsz (Pack.geom c K N).tiles) ∧
      ∃ m, w.Bb = ownViews own m (Pack.geom c K N).tiles := by
  unfold orkiPackTiles at h
  by_cases hdims : K % 32 ≠ 0 ∨ N % ntSz .i8 ≠ 0
  · rw [if_pos hdims] at h
    exact absurd h (by simp)
  · have h32 : ntSz .i8 = 32 := rfl
    rw [h32] at hdims
    have hg := weightGeom_aligned hc (K := K) (N := N) (by omega) (by omega)
    have hfit := (sizes_fit hg hK hN).2
    rw [h32, if_neg hdims] at h
    dsimp only at h
    rw [weightGeom_i8] at h
    refine ⟨hg, ?_⟩
    split at h
    · split at h
      · next hcpu =>
        obtain rfl := Option.some.inj h
        refine ⟨paged_ownViews ha (fun t ht => hg.blocked_of_mem ht) _, fun own hown => ?_⟩
        obtain rfl := Option.some.inj hown
        exact ⟨orkiBcreate_made hcpu, _, rfl⟩
      · obtain ⟨hp, hown⟩ := separateTiles_paged ha hfit h
        exact ⟨hp, fun own h => by rw [hown] at h; cases h⟩
    · obtain ⟨hp, hown⟩ := separateTiles_paged ha hfit h
      exact ⟨hp, fun own h => by rw [hown] at h; cases h⟩

theorem Paged.agree {l l' : List (View Int8)} (h : Paged N B ts l) (h' : Paged N B ts l') :
    List.Forall₂ (fun b b' => b.size = b'.size ∧ ∀ j < b.size, b.cpu j = b'.cpu j) l l' := by
  unfold Paged at h h'
  induction h generalizing l' with
  | nil =>
    cases h'
    exact .nil
  | cons hb _ ih =>
    cases h' with
    | cons hb' hrest' =>
      refine .cons ⟨hb.1.trans hb'.1.symm, fun j hj => ?_⟩ (ih hrest')
      rw [hb.1] at hj
      rw [hb.2 j hj, hb'.2 j hj]

/-- The dump of such tiles is the dump that tiles into its buffer. -/
theorem Paged.dumpViews_eq {l : List (View Int8)} (h : Paged N B ts l) (hts : ∀ t ∈ ts, t.Blocked) (cap off : Nat)
    (out : Pack.Mem) : dumpViews cap l off out = dumpTiles cap N B ts off out := by
  unfold Paged at h
  induction h generalizing off out with
  | nil => rfl
  | @cons t b ts l hb _ ih =>
    obtain ⟨hsize, hpage⟩ := hb
    have ht := hts t List.mem_cons_self
    have hwrite : (fun p => if off ≤ p ∧ p < off + b.size then b.cpu (p - off) else out p) = t.write N off B out := by
      funext p
      rw [hsize]
      by_cases hp : off ≤ p ∧ p < off + t.tsz
      · have hin := @Tile.write_in t ht N off B out (p - off) (by omega)
        rw [Nat.add_sub_cancel' hp.1] at hin
        rw [if_pos hp, hpage _ (by omega), hin]
      · rw [if_neg hp, Tile.write_out ht N off B out (by omega)]
    rw [dumpViews, dumpTiles, hwrite, hsize, ih fun u hu => hts u (List.mem_cons_of_mem _ hu)]

/-! ### The views -/

theorem ownViews_apart (own : Buf) (m : Nat → Int8) (ts : List Tile) :
    (∀ b ∈ ownViews own m ts, b.handle = own.handle ∧ b.off + b.size ≤ total Tile.tsz ts) ∧
    (ownViews own m ts).Pairwise fun b b' => b.off + b.size ≤ b'.off := by
  constructor
  · intro b hb
    obtain ⟨p, hp, rfl⟩ := List.mem_map.mp hb
    have hle := (bounds_of_mem_placed hp).2
    exact ⟨rfl, by rwa [Nat.zero_add] at hle⟩
  · rw [ownViews, List.pairwise_map]
    exact @pairwise_placed _ Tile.tsz 0 ts

/-! ### A failed attempt -/

/-- A creation that fails leaves the device as it was exactly if it fails cleanly. -/
theorem orkiBcreate_clean_iff (hwidth : ∀ dom, d.iovaBytes dom < 2 ^ 64) (size : Nat) (o : CreateOutcome) :
    ((orkiBcreate v d size false domain o).1.cpu = false →
      (orkiBcreate v d size false domain o).2.opened = d.opened ∧
      ∀ dom, (orkiBcreate v d size false domain o).2.iovaBytes dom = d.iovaBytes dom) ↔
    CleanAttempt v d (orkDom v domain) (orkiPgup size) (createFate v (orkiPgup size) false o) := by
  unfold orkiBcreate CleanAttempt
  generalize hneed : orkiPgup size = need
  have hlt : need < 2 ^ 64 := hneed ▸ orkiPgup_lt size
  generalize orkDom v domain = dom
  cases hr : d.orkIovaReserve v dom need with
  | none => exact ⟨fun _ h => absurd rfl h, fun _ _ => ⟨rfl, fun _ => rfl⟩⟩
  | some d' =>
    have hr' : (⟨d, [], []⟩ : Process).dev.orkIovaReserve v dom need = some d' := hr
    obtain ⟨hopened, -, -, -, hself⟩ := reserve_eq_some hr'
    have hsome : (some d' : Option Device) ≠ none := Option.some_ne_none d'
    dsimp only
    cases createFate v need false o with
    | made => exact ⟨fun _ _ => .inl rfl, fun _ h => absurd h Bool.true_eq_false.mp⟩
    | refused =>
      constructor
      · intro h _
        refine .inr ⟨rfl, fun ht => ?_⟩
        have hsame := (h rfl).2 dom
        change (d'.orkIovaRelease dom need).iovaBytes dom = d.iovaBytes dom at hsame
        have hdom := hwidth dom
        rw [((release_spec d' dom need).2.2.2.1 ht).1, hself ht] at hsame
        change (d.iovaBytes dom + need) % 2 ^ 64 - need = d.iovaBytes dom at hsame
        by_contra hwrap
        rw [Nat.mod_eq_sub_mod (Nat.le_of_not_lt hwrap), Nat.mod_eq_of_lt (by omega)] at hsame
        omega
      · intro h _
        obtain hbad | ⟨-, hw⟩ := h hsome
        · cases hbad
        · exact ⟨(release_spec d' dom need).1.trans hopened, fun dom' => (reserve_release hr' hw dom').1⟩
    | stray =>
      refine ⟨fun h _ => absurd (h rfl).1 ?_, fun h => absurd (h hsome) (by simp)⟩
      change (d'.opens.orkIovaRelease dom need).opened ≠ d.opened
      rw [(release_spec d'.opens dom need).1]
      change d'.next :: d'.opened ≠ d.opened
      rw [hopened]
      exact List.cons_ne_self _ _
    | strayHeld =>
      refine ⟨fun h _ => absurd (h rfl).1 ?_, fun h => absurd (h hsome) (by simp)⟩
      change d'.next :: d'.opened ≠ d.opened
      rw [hopened]
      exact List.cons_ne_self _ _

end

/-! ### The two ways -/

/-- What is asked of the two ways: the same pages, views apart and inside their buffer, the dump of the matrix, and a failed
attempt at one buffer that leaves the device as it was and goes on tile by tile. -/
structure TilesAgree (v : BufEnv) (a : TileEnv Int8) (c : Npu.OrkNpu) (e : F16Knobs) (domain : Int) (K N : Nat)
    (B : Nat → Int8) (d : Device) : Prop where
  pages : ∀ w w', (orkiPackTiles v true a c e domain .i8 K N B d).1 = some w →
    (orkiPackTiles v false a c e domain .i8 K N B d).1 = some w' →
    List.Forall₂ (fun b b' => b.size = b'.size ∧ ∀ j < b.size, b.cpu j = b'.cpu j) w.Bb w'.Bb
  apart : ∀ w own, (orkiPackTiles v true a c e domain .i8 K N B d).1 = some w →
    w.ownBuf = some own → (∀ b ∈ w.Bb, b.handle = own.handle ∧ b.off + b.size ≤ own.size) ∧
      w.Bb.Pairwise fun b b' => b.off + b.size ≤ b'.off
  dump : ∀ way w, (orkiPackTiles v way a c e domain .i8 K N B d).1 = some w →
    ∀ out cap, orkWDump c K N w out cap = i8WDumpCpu c K N B out cap
  fallback : K % 32 = 0 → N % 32 = 0 →
    let r := orkiBcreate v d (total Tile.tsz (weightGeom c e .i8 K N).tiles) false domain a.own
    r.1.cpu = false → (r.2.opened = d.opened ∧ ∀ dom, r.2.iovaBytes dom = d.iovaBytes dom) ∧
      orkiPackTiles v true a c e domain .i8 K N B d =
        orkiPackTiles v false a c e domain .i8 K N B r.2

/-- The variable changes nothing but for int8; and for int8 the two ways agree exactly if the attempt at one buffer does
not fail with a kernel object in hand. -/
theorem tilesAgree_iff (v : BufEnv) (a : TileEnv Int8) {c : Npu.OrkNpu} (hc : c.soc ∈ socTable) (e : F16Knobs) (domain : Int)
    {K N : Nat} (hK : K < 2 ^ 31) (hN : N < 2 ^ 31) (B : Nat → Int8) (d : Device) (ha : a.Zeroed)
    (hwidth : ∀ dom, d.iovaBytes dom < 2 ^ 64) :
    (∀ (R : Type) (a : TileEnv R) (dt : Dt) (B : Nat → R), dt ≠ .i8 →
      orkiPackTiles v true a c e domain dt K N B d =
        orkiPackTiles v false a c e domain dt K N B d) ∧
    (TilesAgree v a c e domain K N B d ↔ (K % 32 = 0 → N % 32 = 0 →
      CleanAttempt v d (orkDom v domain) (orkiPgup (total Tile.tsz (weightGeom c e .i8 K N).tiles))
        (createFate v (orkiPgup (total Tile.tsz (weightGeom c e .i8 K N).tiles)) false a.own))) := by
  constructor
  · intro R a dt B hdt
    unfold orkiPackTiles
    by_cases hdims : K % 32 ≠ 0 ∨ N % ntSz dt ≠ 0
    · rw [if_pos hdims, if_pos hdims]
    · rw [if_neg hdims, if_neg hdims]
      dsimp only
      rw [if_neg fun h => hdt h.1, if_neg fun h => hdt h.1]
  · constructor
    · intro h hK32 hN32
      exact (orkiBcreate_clean_iff hwidth _ a.own).mp fun hcpu => (h.fallback hK32 hN32 hcpu).1
    · intro hclean
      refine ⟨fun w w' hw hw' => ?_, fun w own hw hown => ?_, fun way w hw out cap => ?_, fun hK32 hN32 => ?_⟩
      · obtain ⟨-, hp, -⟩ := orkiPackTiles_paged hc hK hN ha hw
        obtain ⟨-, hp', -⟩ := orkiPackTiles_paged hc hK hN ha hw'
        exact hp.agree hp'
      · obtain ⟨hg, -, hviews⟩ := orkiPackTiles_paged hc hK hN ha hw
        obtain ⟨hsize, m, hBb⟩ := hviews own hown
        obtain ⟨hin, hpair⟩ := ownViews_apart own m (Pack.geom c K N).tiles
        have hpage : total Tile.tsz (Pack.geom c K N).tiles ≤ own.size := by
          rw [hsize, orkiPgup_eq (sizes_fit hg hK hN).1]
          exact le_pgup _
        rw [hBb]
        exact ⟨fun b hb => ⟨(hin b hb).1, (hin b hb).2.trans hpage⟩, hpair⟩
      · obtain ⟨hg, hp, -⟩ := orkiPackTiles_paged hc hK hN ha hw
        have hdims : ¬ (K % 32 ≠ 0 ∨ N % 32 ≠ 0) := by
          have hK32 : 32 ∣ K := hg.K
          have hN32 : 32 ∣ N := hg.N
          omega
        unfold orkWDump i8WDumpCpu
        rw [if_neg hdims, hp.dumpViews_eq fun t ht => hg.blocked_of_mem ht]
      · intro r hcpu
        refine ⟨(orkiBcreate_clean_iff hwidth _ a.own).mpr (hclean hK32 hN32) hcpu, ?_⟩
        have hdims : ¬ (K % 32 ≠ 0 ∨ N % ntSz .i8 ≠ 0) := by
          have h32 : ntSz .i8 = 32 := rfl
          rw [h32]
          omega
        have hfailed : ¬ (orkiBcreate v d (total Tile.tsz (weightGeom c e .i8 K N).tiles) false domain a.own).1.cpu = true := by
          rw [show (orkiBcreate v d (total Tile.tsz (weightGeom c e .i8 K N).tiles) false domain a.own).1.cpu = false from hcpu]
          decide
        unfold orkiPackTiles
        rw [if_neg hdims, if_neg hdims]
        dsimp only
        rw [if_pos ⟨rfl, rfl⟩, if_neg hfailed, if_neg fun h => Bool.false_ne_true h.2]

/-- A device with nothing on it, a ceiling of 4 GiB, and a kernel that grants every buffer; of the one buffer it may refuse
the mapping. -/
def idle : Device := ⟨fun _ => 0, [], 0, false⟩

def plainEnv : BufEnv := ⟨2 ^ 32, 0, -1, 0, 0⟩

def granting (mapped : Bool) : TileEnv Int8 :=
  ⟨false, false, ⟨true, false, true, mapped, 0⟩, fun _ => ⟨true, false, true, true, 0⟩,
    fun _ => ⟨true, true, true, true, true, true, 0⟩, fun _ => true, fun _ _ => 0⟩

theorem tilesAgree_iff_granting : (∀ (R : Type) (a : TileEnv R) (dt : Dt) (B : Nat → R), dt ≠ .i8 →
      orkiPackTiles plainEnv true a ⟨3, socRk3588, 0⟩ ⟨0, 0⟩ 0 dt 64 64 B idle =
        orkiPackTiles plainEnv false a ⟨3, socRk3588, 0⟩ ⟨0, 0⟩ 0 dt 64 64 B idle) ∧
    (TilesAgree plainEnv (granting true) ⟨3, socRk3588, 0⟩ ⟨0, 0⟩ 0 64 64 (fun i => Int8.ofNat i) idle ↔
      (64 % 32 = 0 → 64 % 32 = 0 → CleanAttempt plainEnv idle (orkDom plainEnv 0)
        (orkiPgup (total Tile.tsz (weightGeom ⟨3, socRk3588, 0⟩ ⟨0, 0⟩ .i8 64 64).tiles))
        (createFate plainEnv (orkiPgup (total Tile.tsz (weightGeom ⟨3, socRk3588, 0⟩ ⟨0, 0⟩ .i8 64 64).tiles)) false
          (granting true).own))) :=
  tilesAgree_iff plainEnv (granting true) (by decide) ⟨0, 0⟩ 0 (by decide) (by decide) (fun i => Int8.ofNat i) idle
    (fun _ _ => rfl) fun _ => Nat.two_pow_pos 64

/-- The mapping refused, the kernel object of the attempt stays open. -/
theorem not_tilesAgree_unmapped :
    ¬ TilesAgree plainEnv (granting false) ⟨3, socRk3588, 0⟩ ⟨0, 0⟩ 0 64 64 (fun i => Int8.ofNat i) idle := by
  intro h
  have hneed : orkiPgup (total Tile.tsz (weightGeom ⟨3, socRk3588, 0⟩ ⟨0, 0⟩ .i8 64 64).tiles) = 4096 := by decide
  have hclean := (@orkiBcreate_clean_iff plainEnv 0 idle (fun _ => Nat.two_pow_pos 64)
    (total Tile.tsz (weightGeom ⟨3, socRk3588, 0⟩ ⟨0, 0⟩ .i8 64 64).tiles) (granting false).own).mp
    fun hcpu => (h.fallback rfl rfl hcpu).1
  rw [hneed] at hclean
  obtain hbad | ⟨hbad, -⟩ := hclean (by decide)
  · exact absurd hbad (by decide)
  · exact absurd hbad (by decide)

end OrkDriver.Run
