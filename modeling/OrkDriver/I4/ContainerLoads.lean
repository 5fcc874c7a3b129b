import OrkDriver.I4.Container

/-!
What the int4 container keeps: the un-tilers give back the codes that were dumped, the loaders onto the device get the
tiles of those codes, and which blobs each of them takes.
-/

namespace OrkDriver.I4.Container

open OrkDriver.Lib OrkDriver.Npu OrkDriver.Pack

variable {c d : OrkNpu} {K N n cap : Nat} {B : Nat → Int8} {blob : Blob4}

/-! ### The walk -/

theorem soc_nmax (hc : c.soc ∈ socTable) : 0 < c.soc.nmax ∧ 64 ∣ c.soc.nmax := by
  rcases List.mem_cons.mp hc with h | h
  · rw [h]
    decide
  · obtain h := List.mem_singleton.mp h
    rw [h]
    decide

theorem pieces_zero {size : Nat} (h : 0 < size) : pieces 0 size = 0 := Nat.div_eq_of_lt (by omega)

theorem orkI4Ks_spec : 0 < Core.orkI4Ks ∧ 32 ∣ Core.orkI4Ks := by decide

/-- The shapes all of the functions take. -/
structure Shape (K N : Nat) : Prop where
  K : 32 ∣ K
  N : 64 ∣ N

theorem shape_iff : Shape K N ↔ ¬ (K % 32 ≠ 0 ∨ N % 64 ≠ 0) := by
  constructor
  · rintro ⟨hK, hN⟩
    omega
  · intro h
    exact ⟨Nat.dvd_of_mod_eq_zero (by omega), Nat.dvd_of_mod_eq_zero (by omega)⟩

theorem Shape.blocked (hs : Shape K N) (hc : c.soc ∈ socTable) {t : Tile} (ht : t ∈ (geom c K N).tiles) : Blocked4 t := by
  obtain ⟨ns, ks, -, -, rfl⟩ := Geom.mem_tiles.mp ht
  exact ⟨dvd_pieceLen hs.K orkI4Ks_spec.2, dvd_pieceLen hs.N (soc_nmax hc).2⟩

/-- Codes of a tile are codes of the matrix. -/
theorem Shape.elem_lt (hs : Shape K N) (hc : c.soc ∈ socTable) {t : Tile} (ht : t ∈ (geom c K N).tiles) {x : Nat × Nat}
    (hx : x ∈ nibbles t N) : x.2 < K * N := by
  have hb := hs.blocked hc ht
  obtain ⟨k, hk, m, hm, rfl⟩ := hb.mem_nibbles.mp hx
  obtain ⟨ns, ks, hns, hks, rfl⟩ := Geom.mem_tiles.mp ht
  have hK : ks * Core.orkI4Ks + pieceLen K Core.orkI4Ks ks ≤ K := piece_le orkI4Ks_spec.1 hks
  have hN : ns * c.soc.nmax + pieceLen N c.soc.nmax ns ≤ N := piece_le (soc_nmax hc).1 hns
  exact digits_lt (lt_of_lt_of_le (Nat.add_lt_add_left hk _) hK) (lt_of_lt_of_le (Nat.add_lt_add_left hm _) hN)

/-- Every code of the matrix is in a tile. -/
theorem Shape.exists_nibble (hs : Shape K N) (hc : c.soc ∈ socTable) {x : Nat} (hx : x < K * N) :
    ∃ t ∈ (geom c K N).tiles, ∃ i, (i, x) ∈ nibbles t N := by
  have hn0 : 0 < N := by
    rcases Nat.eq_zero_or_pos N with h | h
    · rw [h, Nat.mul_zero] at hx
      exact absurd hx (Nat.not_lt_zero _)
    · exact h
  have hk : x / N < K := Nat.div_lt_of_lt_mul (by rwa [Nat.mul_comm])
  have hn : x % N < N := Nat.mod_lt _ hn0
  have ht : (geom c K N).tile (x % N / c.soc.nmax) (x / N / Core.orkI4Ks) ∈ (geom c K N).tiles :=
    Geom.mem_tiles.mpr ⟨_, _, div_lt_pieces (soc_nmax hc).1 hn, div_lt_pieces orkI4Ks_spec.1 hk, rfl⟩
  refine ⟨_, ht, _, (hs.blocked hc ht).mem_nibbles.mpr ⟨x / N % Core.orkI4Ks, mod_lt_pieceLen orkI4Ks_spec.1 hk,
    x % N % c.soc.nmax, mod_lt_pieceLen (soc_nmax hc).1 hn, Prod.ext rfl ?_⟩⟩
  change x = (x / N / Core.orkI4Ks * Core.orkI4Ks + x / N % Core.orkI4Ks) * N +
    (x % N / c.soc.nmax * c.soc.nmax + x % N % c.soc.nmax)
  rw [Nat.div_add_mod', Nat.div_add_mod', Nat.div_add_mod']

theorem need_pos (hc : c.soc ∈ socTable) (hs : Shape K N) (hK : 0 < K) (hN : 0 < N) : 0 < need c K N := by
  obtain ⟨t, ht, i, hi⟩ := hs.exists_nibble hc (Nat.mul_pos hK hN)
  obtain ⟨o, ho⟩ := exists_mem_placed tsz ht 0
  have hlt := (hs.blocked hc ht).idx_lt hi
  have hle := (bounds_of_mem_placed ho).2
  have hraw := raw_le_tsz t
  unfold need
  omega

theorem need_eq_zero (hc : c.soc ∈ socTable) (h : K = 0 ∨ N = 0) : need c K N = 0 := by
  unfold need Geom.tiles Geom.tileRow Geom.Sn Geom.Sk
  rcases h with rfl | rfl
  · have h0 : pieces (geom c 0 N).K (geom c 0 N).KS = 0 := pieces_zero orkI4Ks_spec.1
    rw [h0]
    induction List.range (pieces (geom c 0 N).N (geom c 0 N).NMAX) with
    | nil => rfl
    | cons a l ih => exact ih
  · have h0 : pieces (geom c K 0).N (geom c K 0).NMAX = 0 := pieces_zero (soc_nmax hc).1
    rw [h0]
    rfl

/-! ### The dump -/

/-- The codes have four bits. -/
def Coded (K N : Nat) (B : Nat → Int8) : Prop := ∀ x < K * N, -8 ≤ (B x).toInt ∧ (B x).toInt ≤ 7

/-- The tiles of `B` lie at `src + off`, one after the other. -/
def Holds (c : OrkNpu) (K N : Nat) (B : Nat → Int8) (src : Bytes) (off : Nat) : Prop :=
  ∀ o t, (o, t) ∈ placed tsz off (geom c K N).tiles → ∀ j < tsz t, src (o + j) = image N B t j

theorem orkI4WDumpCpu_eq_some (hc : c.soc ∈ socTable) {out : Bytes} (h : orkI4WDumpCpu c K N B out cap = some (n, blob)) :
    Shape K N ∧ n = orkPackHdrBytes + need c K N ∧ n ≠ orkPackHdrBytes ∧ blob.hdr = orkiPackStamp c .i4 K N ∧
      Holds c K N B blob.mem orkPackHdrBytes := by
  unfold orkI4WDumpCpu at h
  split at h
  · cases h
  · split at h
    · cases h
    · rename_i hcap hdims
      have hs := shape_iff.mpr hdims
      rw [walkRecords_eq _ _ _ (Nat.not_lt.mp hcap)] at h
      split at h
      · have hne : ¬ orkPackHdrBytes + total tsz (geom c K N).tiles = orkPackHdrBytes := fun h0 => by
          rw [Option.bind_eq_bind, Option.bind_some, if_pos h0] at h
          cases h
        rw [Option.bind_eq_bind, Option.bind_some, if_neg hne] at h
        obtain ⟨rfl, rfl⟩ := Prod.mk.inj (Option.some.inj h)
        refine ⟨hs, rfl, hne, rfl, fun o t ho j hj => ?_⟩
        have hin : ∀ t ∈ (geom c K N).tiles, ∀ o m j, j < tsz t →
            tileI4Bslice N B o t (memset m o (tsz t)) (o + j) = image N B t j := fun t _ o m j hj => tileI4Bslice_in o m hj
        have hout : ∀ t ∈ (geom c K N).tiles, ∀ o m p, p < o ∨ o + tsz t ≤ p →
            tileI4Bslice N B o t (memset m o (tsz t)) p = m p :=
          fun t ht o m p hp => (hs.blocked hc ht).tileI4Bslice_out o m hp
        exact (foldl_placed (fun _ _ => le_rfl) hin hout out).1 o t ho j hj
      · cases h

/-! ### The un-tilers -/

theorem Holds.body {src : Bytes} (h : Holds c K N B src orkPackHdrBytes) :
    Holds c K N B (fun j => src (orkPackHdrBytes + j)) 0 := by
  intro o t ho j hj
  have hmem : (orkPackHdrBytes + o, t) ∈ placed tsz orkPackHdrBytes (geom c K N).tiles := by
    have hadd := placed_add tsz orkPackHdrBytes 0 (geom c K N).tiles
    rw [Nat.add_zero] at hadd
    rw [hadd]
    exact List.mem_map.mpr ⟨_, ho, rfl⟩
  exact (congrArg src (Nat.add_assoc _ o j).symm).trans (h _ t hmem j hj)

/-- What a un-tiler stores is what was dumped. -/
theorem Holds.untileSlice_eq (hc : c.soc ∈ socTable) (hs : Shape K N) (hB : Coded K N B) {src : Bytes} {off o : Nat} {t : Tile}
    (h : Holds c K N B src off) (ho : (o, t) ∈ placed tsz off (geom c K N).tiles) {w : Nat × Int8}
    (hw : w ∈ untileSlice N src o t) : w.2 = B w.1 := by
  obtain ⟨x, hx, rfl⟩ := List.mem_map.mp hw
  have ht := mem_of_mem_placed ho
  have hb := hs.blocked hc ht
  have hraw := raw_le_tsz t
  have hlt := hb.idx_lt hx
  have hbyte : src (o + x.1 / 2) = image N B t (x.1 / 2) := h o t ho _ (by omega)
  have hnib : nibbleAt src (2 * o + x.1) = nibbleAt (image N B t) x.1 := by
    rw [nibbleAt_add]
    exact congrArg (fun b : BitVec 8 => (b >>> nibbleShift x.1).setWidth 4) hbyte
  change signExtend4 (nibbleAt src (2 * o + x.1)) = B x.2
  rw [hnib, hb.image_nibble hx]
  exact signExtend4_low4 (hB x.2 (hs.elem_lt hc ht hx))

/-- After the loops of a un-tiler all the codes are back. -/
theorem Holds.untiled (hc : c.soc ∈ socTable) (hs : Shape K N) (hB : Coded K N B) {src : Bytes} {off : Nat}
    (h : Holds c K N B src off) (codes : Nat → Int8) {x : Nat} (hx : x < K * N) :
    (placed tsz off (geom c K N).tiles).foldl (fun codes p => stores codes (untileSlice N src p.1 p.2)) codes x = B x := by
  rw [foldl_stores off _ fun o t => untileSlice N src o t]
  refine stores.of_mem ?_ fun w hw hidx => ?_
  · obtain ⟨t, ht, i, hi⟩ := hs.exists_nibble hc hx
    obtain ⟨o, ho⟩ := exists_mem_placed tsz ht off
    exact ⟨_, List.mem_flatMap.mpr ⟨(o, t), ho, List.mem_map.mpr ⟨_, hi, rfl⟩⟩, rfl⟩
  · obtain ⟨⟨o, t⟩, ho, hw⟩ := List.mem_flatMap.mp hw
    rw [h.untileSlice_eq hc hs hB ho hw, hidx]

theorem orkiI4UntileBlob_spec (hc : c.soc ∈ socTable) (hs : Shape K N) (hB : Coded K N B) {src : Bytes}
    (h : Holds c K N B src 0) (codes : Nat → Int8) : ∃ l, orkiI4UntileBlob c K N src (need c K N) codes = some l ∧
      ∀ x < K * N, l x = B x := by
  unfold orkiI4UntileBlob
  have hend : 0 + total tsz (geom c K N).tiles = need c K N := Nat.zero_add _
  rw [if_neg (shape_iff.mp hs), walkRecords_eq _ _ _ (Nat.zero_le _), hend, if_pos le_rfl, Option.bind_eq_bind,
    Option.bind_some, if_pos rfl]
  exact ⟨_, rfl, fun x hx => h.untiled hc hs hB codes hx⟩

/-- `orki_pack_check` returned 0. -/
abbrev Stamped (c : OrkNpu) (K N : Nat) (blob : Blob4) (n : Nat) : Prop := orkiPackCheck c blob.hdr n .i4 K N = none

theorem Stamped.hdr_le (h : Stamped c K N blob n) : orkPackHdrBytes ≤ n := by
  unfold Stamped orkiPackCheck at h
  split at h
  · cases h
  · exact Nat.not_lt.mp ‹_›

/-- The codes the loader has without a device. -/
def offlineCodes (c : OrkNpu) (K N : Nat) (src : Bytes) : Nat → Int8 :=
  (placed tsz orkPackHdrBytes (geom c K N).tiles).foldl (fun codes p => stores codes (untileSlice N src p.1 p.2)) fun _ => 0

/-- Without a device the tiles must fit into the blob, and what follows them is not looked at. -/
theorem orkI4MmLoad_offline (hfd : c.fd < 0) (buf : Nat → Option Bytes) {w : Weight4} :
    orkI4MmLoad c buf K N blob n = some w ↔ Stamped c K N blob n ∧ Shape K N ∧ orkPackHdrBytes + need c K N ≤ n ∧
      w = .codes (offlineCodes c K N blob.mem) := by
  unfold orkI4MmLoad
  by_cases hst : Stamped c K N blob n
  · rw [if_neg (not_not_intro hst), if_pos hfd]
    by_cases hs : Shape K N
    · have hend : orkPackHdrBytes + total tsz (geom c K N).tiles = orkPackHdrBytes + need c K N := rfl
      rw [if_neg (shape_iff.mp hs), walkRecords_eq _ _ _ hst.hdr_le, hend]
      by_cases hn : orkPackHdrBytes + need c K N ≤ n
      · rw [if_pos hn]
        exact ⟨fun h => ⟨hst, hs, hn, (Option.some.inj h).symm⟩, fun h => congrArg some h.2.2.2.symm⟩
      · rw [if_neg hn]
        exact ⟨nofun, fun h => absurd h.2.2.1 hn⟩
    · rw [if_pos (not_not.mp fun h => hs (shape_iff.mpr h))]
      exact ⟨nofun, fun h => absurd h.2.1 hs⟩
  · rw [if_pos hst]
    exact ⟨nofun, fun h => absurd h.1 hst⟩

/-! ### The loaders onto the device -/

theorem deviceAccepts_iff : deviceAccepts c K N blob n = true ↔
    Stamped c K N blob n ∧ Shape K N ∧ n = orkPackHdrBytes + need c K N := by
  unfold deviceAccepts
  rw [decide_eq_true_iff, ← shape_iff]
  constructor
  · rintro ⟨hst, hs, hn⟩
    have := Stamped.hdr_le hst
    exact ⟨hst, hs, by omega⟩
  · rintro ⟨hst, hs, rfl⟩
    exact ⟨hst, hs, Nat.add_sub_cancel_left _ _⟩

/-- Each tile of the weight has the bytes of its place in the blob. -/
def Copied (c : OrkNpu) (K N : Nat) (src : Bytes) (l : List Bytes) : Prop :=
  List.Forall₂ (fun p b => ∀ j < raw p.2, b j = src (p.1 + j)) (placed tsz orkPackHdrBytes (geom c K N).tiles) l

/-- The tiles are those of the codes `B`. -/
def Tiled (c : OrkNpu) (K N : Nat) (B : Nat → Int8) (l : List Bytes) : Prop :=
  List.Forall₂ (fun t b => ∀ j < raw t, b j = image N B t j) (geom c K N).tiles l

theorem Holds.tiled {src : Bytes} (h : Holds c K N B src orkPackHdrBytes) {l : List Bytes} (hl : Copied c K N src l) :
    Tiled c K N B l := by
  unfold Tiled
  rw [← map_snd_placed tsz orkPackHdrBytes (geom c K N).tiles, List.forall₂_map_left_iff]
  have hall := (List.forall₂_and_left _ _).mpr ⟨fun p hp => h p.1 p.2 hp, hl⟩
  refine hall.imp fun p b hpb j hj => ?_
  exact (hpb.2 j hj).trans (hpb.1 j (lt_of_lt_of_le hj (raw_le_tsz p.2)))

theorem copied_of_copyRecords {len : Tile → Nat} (hlen : ∀ t, raw t ≤ len t) {src : Bytes} {buf : Nat → Option Bytes}
    {l : List Bytes} (h : copyRecords tsz len src buf 0 orkPackHdrBytes (geom c K N).tiles = some l) :
    Copied c K N src l := by
  refine (copyRecords_spec h).imp fun p b hpb j hj => ?_
  exact hpb j (lt_of_lt_of_le hj (hlen p.2))

theorem orkI4MmLoad_device (hfd : ¬ c.fd < 0) {buf : Nat → Option Bytes} (hbuf : ∀ i, (buf i).isSome) :
    ((orkI4MmLoad c buf K N blob n).isSome ↔ deviceAccepts c K N blob n = true) ∧
      ∀ w, orkI4MmLoad c buf K N blob n = some w → ∃ l, w = .tiles l ∧ Copied c K N blob.mem l := by
  unfold orkI4MmLoad
  by_cases hst : Stamped c K N blob n
  · rw [if_neg (not_not_intro hst), if_neg hfd]
    by_cases ha : deviceAccepts c K N blob n = true
    · obtain ⟨l, hl⟩ := exists_copyRecords tsz blob.mem hbuf (geom c K N).tiles 0 orkPackHdrBytes
      rw [if_neg (by rw [ha]; nofun), hl]
      refine ⟨⟨fun _ => ha, fun _ => rfl⟩, fun w hw => ⟨l, (Option.some.inj hw).symm, ?_⟩⟩
      exact copied_of_copyRecords raw_le_tsz hl
    · rw [if_pos (Bool.not_eq_true _ ▸ ha)]
      exact ⟨⟨nofun, fun h => absurd h ha⟩, nofun⟩
  · rw [if_pos hst]
    exact ⟨⟨nofun, fun h => absurd (deviceAccepts_iff.mp h).1 hst⟩, nofun⟩

/-! ### The arena -/

/-- The tiles of an arena load are copies, and what the chunk held elsewhere stays. -/
theorem arenaFill_spec (src : Bytes) (tiles : List Tile) (off : Nat) (m : Bytes) :
    (∀ o t, (o, t) ∈ placed tsz 0 tiles → ∀ j < raw t,
      arenaFill src tiles off m (off + o + j) = src (orkPackHdrBytes + o + j)) ∧
    ∀ p, p < off ∨ off + total tsz tiles ≤ p → arenaFill src tiles off m p = m p := by
  have hin : ∀ t ∈ tiles, ∀ o m j, j < raw t →
      memcpy m o (fun j => src (orkPackHdrBytes + (o - off) + j)) (raw t) (o + j) = src (orkPackHdrBytes + (o - off) + j) := by
    intro t _ o m j hj
    unfold memcpy
    rw [if_pos ⟨Nat.le_add_right o j, Nat.add_lt_add_left hj o⟩, Nat.add_sub_cancel_left]
  have hout : ∀ t ∈ tiles, ∀ o m p, p < o ∨ o + tsz t ≤ p →
      memcpy m o (fun j => src (orkPackHdrBytes + (o - off) + j)) (raw t) p = m p := by
    intro t _ o m p hp
    have hraw := raw_le_tsz t
    unfold memcpy
    exact if_neg (by omega)
  obtain ⟨h1, h2⟩ := foldl_placed (fun t _ => raw_le_tsz t) hin hout m
  refine ⟨fun o t ho j hj => ?_, h2⟩
  have hmem : (off + o, t) ∈ placed tsz off tiles := by
    have hadd := placed_add tsz off 0 tiles
    rw [Nat.add_zero] at hadd
    rw [hadd]
    exact List.mem_map.mpr ⟨_, ho, rfl⟩
  have h := h1 (off + o) t hmem j hj
  rw [Nat.add_sub_cancel_left] at h
  exact h

theorem orkI4MmLoadArena_spec {dom : Int} (hdom : 0 ≤ dom ∧ dom < 64) {chunkCap : Nat} {a : Arena} (fresh : Bytes) :
    ((orkI4MmLoadArena c true dom chunkCap a (some fresh) K N blob n).isSome ↔ deviceAccepts c K N blob n = true) ∧
      ∀ r, orkI4MmLoadArena c true dom chunkCap a (some fresh) K N blob n = some r →
        Copied c K N blob.mem (r.2.2.map fun o j => r.1.cpu (o + j)) := by
  unfold orkI4MmLoadArena
  by_cases ha : deviceAccepts c K N blob n = true
  · rw [if_neg (by rw [ha]; rintro (h | h | h | h) <;> first | cases h | omega)]
    obtain ⟨q, hq⟩ : ∃ q, a.place (some fresh) (need c K N) chunkCap = some q := by
      unfold Arena.place
      split
      · split <;> exact ⟨_, rfl⟩
      · exact ⟨_, rfl⟩
    rw [hq, Option.bind_eq_bind, Option.bind_some]
    refine ⟨⟨fun _ => ha, fun _ => rfl⟩, fun r hr => ?_⟩
    obtain rfl := Option.some.inj hr
    unfold Copied
    have hfrom := placed_add tsz orkPackHdrBytes 0 (geom c K N).tiles
    have hto := placed_add tsz q.2 0 (geom c K N).tiles
    rw [Nat.add_zero] at hfrom hto
    dsimp only
    rw [hfrom, hto, List.map_map, List.map_map, List.forall₂_map_left_iff, List.forall₂_map_right_iff, List.forall₂_same]
    intro p hp j hj
    exact (arenaFill_spec blob.mem (geom c K N).tiles q.2 q.1.cpu).1 p.1 p.2 hp j hj
  · rw [if_pos (.inl (Bool.not_eq_true _ ▸ ha))]
    exact ⟨⟨nofun, fun h => absurd h ha⟩, nofun⟩

/-! ### The import -/

/-- The tiles `done` are where `Bb` says, and the last chunk is used up to `coff` only. -/
structure Filling.Filled (s : Filling) (src : Bytes) (done : List (Nat × Tile)) : Prop where
  tiles : List.Forall₂ (fun p v => v.1 < s.nOwn ∧ (v.1 + 1 = s.nOwn → v.2 + tsz p.2 ≤ s.coff) ∧
    ∀ j < raw p.2, s.mem v.1 (v.2 + j) = src (p.1 + j)) done s.Bb

theorem Filling.Filled.room {s s' : Filling} {src : Bytes} {done : List (Nat × Tile)} (h : s.Filled src done)
    {chunk : Nat → Option Bytes} {need chunkCap ts : Nat} (hr : s.room chunk need chunkCap ts = some s') :
    s'.Filled src done ∧ 0 < s'.nOwn ∧ s'.boff = s.boff := by
  unfold Filling.room at hr
  split at hr
  · obtain ⟨b, -, rfl⟩ := Option.map_eq_some_iff.mp hr
    refine ⟨⟨h.tiles.imp fun p v hv => ⟨Nat.lt_succ_of_lt hv.1, fun heq => ?_, fun j hj => ?_⟩⟩, Nat.succ_pos _, rfl⟩
    · exact absurd (Nat.succ.inj heq) (Nat.ne_of_lt hv.1)
    · -- the new chunk is none of the old ones
      have hother : Function.update s.mem s.nOwn b v.1 = s.mem v.1 := Function.update_of_ne (Nat.ne_of_lt hv.1) _ _
      exact (congrFun hother _).trans (hv.2.2 j hj)
  · rename_i hfit
    obtain rfl := Option.some.inj hr
    exact ⟨h, by omega, rfl⟩

theorem Filling.Filled.put {s : Filling} {src : Bytes} {done : List (Nat × Tile)} (h : s.Filled src done)
    (h0 : 0 < s.nOwn) (t : Tile) : (s.put src t).Filled src (done ++ [(orkPackHdrBytes + s.boff, t)]) := by
  have hold : List.Forall₂ (fun p v => v.1 < s.nOwn ∧ (v.1 + 1 = s.nOwn → v.2 + tsz p.2 ≤ s.coff + tsz t) ∧
      ∀ j < raw p.2, (s.put src t).mem v.1 (v.2 + j) = src (p.1 + j)) done s.Bb := by
    refine h.tiles.imp fun p v hv => ⟨hv.1, fun heq => ?_, fun j hj => ?_⟩
    · exact le_trans (hv.2.1 heq) (Nat.le_add_right _ _)
    · -- a tile before this one: in another chunk, or further down in this one
      refine Eq.trans ?_ (hv.2.2 j hj)
      change Function.update s.mem (s.nOwn - 1) _ v.1 (v.2 + j) = s.mem v.1 (v.2 + j)
      by_cases hlast : v.1 = s.nOwn - 1
      · have hend := hv.2.1 (by omega)
        have hlen := raw_le_tsz p.2
        rw [hlast, Function.update_self]
        unfold memcpy
        exact if_neg (by omega)
      · rw [Function.update_of_ne hlast]
  have hnew : ∀ j < raw t, (s.put src t).mem (s.nOwn - 1) (s.coff + j) = src (orkPackHdrBytes + s.boff + j) := by
    intro j hj
    change Function.update s.mem (s.nOwn - 1) _ (s.nOwn - 1) (s.coff + j) = _
    rw [Function.update_self]
    unfold memcpy
    rw [if_pos ⟨Nat.le_add_right _ j, Nat.add_lt_add_left hj _⟩, Nat.add_sub_cancel_left]
  exact ⟨List.rel_append hold (.cons ⟨Nat.sub_lt h0 Nat.one_pos, fun _ => le_rfl, hnew⟩ .nil)⟩

theorem consolidate_filled {chunk : Nat → Option Bytes} {need chunkCap : Nat} {src : Bytes} {ts : List Tile}
    {s s' : Filling} {done : List (Nat × Tile)} (h : s.Filled src done)
    (hs : consolidate chunk need chunkCap src ts s = some s') :
    s'.Filled src (done ++ placed tsz (orkPackHdrBytes + s.boff) ts) := by
  induction ts generalizing s done with
  | nil =>
      obtain rfl := Option.some.inj hs
      rw [placed, List.append_nil]
      exact h
  | cons t ts ih =>
      obtain ⟨r, hr, hs⟩ := Option.bind_eq_some_iff.mp hs
      obtain ⟨hfilled, h0, hboff⟩ := h.room hr
      have hput := ih (hfilled.put h0 t) hs
      have hend : (r.put src t).boff = s.boff + tsz t := congrArg (· + tsz t) hboff
      rw [List.append_assoc, hboff, hend, ← Nat.add_assoc] at hput
      exact hput

theorem orkI4MmLoadImport_spec {e : ImportEnv} (hheap : e.heap = true) (hbuf : ∀ i, (e.buf i).isSome) :
    ((orkI4MmLoadImport c e K N blob n).isSome ↔ deviceAccepts c K N blob n = true) ∧
      ∀ l, orkI4MmLoadImport c e K N blob n = some l → Copied c K N blob.mem l := by
  unfold orkI4MmLoadImport
  by_cases ha : deviceAccepts c K N blob n = true
  · rw [if_neg (by rw [ha, hheap]; rintro (h | h) <;> cases h)]
    dsimp only
    generalize hf : (if e.consolidate = true then _ else none : Option Filling) = filled
    cases filled with
    | none =>
        obtain ⟨l, hl⟩ := exists_copyRecords raw blob.mem hbuf (geom c K N).tiles 0 orkPackHdrBytes
        dsimp only
        rw [hl]
        refine ⟨⟨fun _ => ha, fun _ => rfl⟩, fun l' hl' => ?_⟩
        obtain rfl := Option.some.inj hl'
        exact copied_of_copyRecords (fun _ => le_rfl) hl
    | some s =>
        refine ⟨⟨fun _ => ha, fun _ => rfl⟩, fun l hl => ?_⟩
        obtain rfl := Option.some.inj hl
        split at hf
        · have hfilled := (consolidate_filled ⟨.nil⟩ hf).tiles
          unfold Copied
          rw [List.forall₂_map_right_iff]
          exact hfilled.imp fun p v hv => hv.2.2
        · cases hf
  · rw [if_pos (.inl (Bool.not_eq_true _ ▸ ha))]
    exact ⟨⟨nofun, fun h => absurd h ha⟩, nofun⟩

/-! ### All the loaders -/

/-- What the host and the kernel have for the loads onto the device. -/
structure DeviceEnv where
  buf : Nat → Option Bytes
  dom : Int
  chunkCap : Nat
  arena : Arena
  fresh : Option Bytes
  imp : ImportEnv

/-- Nothing a loader asks for is denied. -/
structure DeviceEnv.Granted (e : DeviceEnv) : Prop where
  buf : ∀ i, (e.buf i).isSome
  heap : e.imp.heap = true
  dom : 0 ≤ e.dom ∧ e.dom < 64
  fresh : e.fresh.isSome
  imp : ∀ i, (e.imp.buf i).isSome

/-- The ways onto the device. -/
inductive Route
  | load | arena | load_import

/-- The bytes of the tiles after a load. -/
def deviceLoad (c : OrkNpu) (e : DeviceEnv) (K N : Nat) (blob : Blob4) (n : Nat) : Route → Option (List Bytes)
  | .load =>
    match orkI4MmLoad c e.buf K N blob n with
    | some (.tiles l) => some l
    | _ => none
  | .arena => (orkI4MmLoadArena c e.imp.heap e.dom e.chunkCap e.arena e.fresh K N blob n).map fun r =>
      r.2.2.map fun o j => r.1.cpu (o + j)
  | .load_import => orkI4MmLoadImport c e.imp K N blob n

variable {e : DeviceEnv}

theorem deviceLoad_spec (hfd : ¬ c.fd < 0) (he : e.Granted) (r : Route) :
    ((deviceLoad c e K N blob n r).isSome ↔ deviceAccepts c K N blob n = true) ∧
      ∀ l, deviceLoad c e K N blob n r = some l → Copied c K N blob.mem l := by
  cases r with
  | load =>
      obtain ⟨hsome, hcopied⟩ := @orkI4MmLoad_device c K N n blob hfd e.buf he.buf
      unfold deviceLoad
      cases hw : orkI4MmLoad c e.buf K N blob n with
      | none => exact ⟨⟨nofun, fun h => by rw [hw] at hsome; exact absurd (hsome.mpr h) (by decide)⟩, nofun⟩
      | some w =>
          obtain ⟨l, rfl, hl⟩ := hcopied w hw
          rw [hw] at hsome
          refine ⟨⟨fun _ => hsome.mp rfl, fun _ => rfl⟩, fun l' hl' => ?_⟩
          obtain rfl := Option.some.inj hl'
          exact hl
  | arena =>
      obtain ⟨fresh, hfresh⟩ := Option.isSome_iff_exists.mp he.fresh
      obtain ⟨hsome, hcopied⟩ := @orkI4MmLoadArena_spec c K N n blob e.dom he.dom e.chunkCap e.arena fresh
      unfold deviceLoad
      rw [he.heap, hfresh, Option.isSome_map]
      refine ⟨hsome, fun l hl => ?_⟩
      obtain ⟨r, hr, rfl⟩ := Option.map_eq_some_iff.mp hl
      exact hcopied r hr
  | load_import => exact orkI4MmLoadImport_spec he.heap he.imp

/-- The dump takes exactly the shapes that have a body. -/
theorem orkI4WDumpCpu_isSome (hc : c.soc ∈ socTable) (K N : Nat) (B : Nat → Int8) (out : Bytes) (cap : Nat) :
    (orkI4WDumpCpu c K N B out cap).isSome ↔
      Shape K N ∧ 0 < K ∧ 0 < N ∧ orkPackHdrBytes + need c K N ≤ cap := by
  constructor
  · intro h
    obtain ⟨⟨n, blob⟩, hr⟩ := Option.isSome_iff_exists.mp h
    obtain ⟨hs, hn, hne, -, -⟩ := orkI4WDumpCpu_eq_some hc hr
    have hpos : ¬ (K = 0 ∨ N = 0) := fun h0 => hne (by rw [hn, need_eq_zero hc h0, Nat.add_zero])
    refine ⟨hs, by omega, by omega, Nat.not_lt.mp fun hlt => ?_⟩
    unfold orkI4WDumpCpu at h
    split at h
    · cases h
    · rename_i hcap
      have hend : orkPackHdrBytes + total tsz (geom c K N).tiles = orkPackHdrBytes + need c K N := rfl
      rw [if_neg (shape_iff.mp hs), walkRecords_eq _ _ _ (Nat.not_lt.mp hcap), hend, if_neg (Nat.not_le.mpr hlt)] at h
      cases h
  · rintro ⟨hs, hK, hN, hcap⟩
    have hpos := need_pos hc hs hK hN
    have hend : orkPackHdrBytes + total tsz (geom c K N).tiles = orkPackHdrBytes + need c K N := rfl
    unfold orkI4WDumpCpu
    rw [if_neg (by omega), if_neg (shape_iff.mp hs), walkRecords_eq _ _ _ (by omega), hend, if_pos hcap,
      Option.bind_eq_bind, Option.bind_some, if_neg (by dsimp only; omega)]
    rfl

/-- A dump read back: the codes where there is no device, their tiles where there is one. -/
structure RoundTrips (c d : OrkNpu) (e : DeviceEnv) (K N : Nat) (B : Nat → Int8) (blob : Blob4) (n : Nat) : Prop where
  codes : ∃ w, orkI4MmLoad c e.buf K N blob n = some (.codes w) ∧ ∀ x < K * N, w x = B x
  untiled : ∀ codes, ∃ w, orkiI4UntileBlob c K N (fun j => blob.mem (orkPackHdrBytes + j)) (n - orkPackHdrBytes) codes =
    some w ∧ ∀ x < K * N, w x = B x
  tiles : ∀ r, ∃ l, deviceLoad d e K N blob n r = some l ∧ Tiled d K N B l

/-- A blob that passes the header check and goes on behind its last tile. -/
def Overlong (c : OrkNpu) (K N : Nat) (blob : Blob4) (n : Nat) : Prop :=
  Stamped c K N blob n ∧ Shape K N ∧ orkPackHdrBytes + need c K N < n

theorem roundTrips (hc : c.soc ∈ socTable) (hfd : c.fd < 0) (hd : ¬ d.fd < 0) (hsoc : d.soc = c.soc) (he : e.Granted)
    (hB : Coded K N B) {out : Bytes} (h : orkI4WDumpCpu c K N B out cap = some (n, blob)) : RoundTrips c d e K N B blob n := by
  obtain ⟨hs, rfl, -, hhdr, hholds⟩ := orkI4WDumpCpu_eq_some hc h
  have hst : Stamped c K N blob (orkPackHdrBytes + need c K N) := by
    unfold Stamped
    rw [hhdr, orkiPackCheck_stamp c c .i4 K N _ (Nat.le_add_right _ _)]
  have hgeom : geom d K N = geom c K N := by
    unfold geom
    rw [hsoc]
  have haccepts : deviceAccepts d K N blob (orkPackHdrBytes + need c K N) = true := by
    refine deviceAccepts_iff.mpr ⟨?_, hs, ?_⟩
    · unfold Stamped
      rw [hhdr, orkiPackCheck_stamp c d .i4 K N _ (Nat.le_add_right _ _), hsoc]
    · unfold need
      rw [hgeom]
  refine ⟨⟨_, (orkI4MmLoad_offline hfd e.buf).mpr ⟨hst, hs, le_rfl, rfl⟩, fun x hx => ?_⟩, fun codes => ?_, fun r => ?_⟩
  · exact hholds.untiled hc hs hB _ hx
  · rw [Nat.add_sub_cancel_left]
    exact orkiI4UntileBlob_spec hc hs hB hholds.body codes
  · obtain ⟨hsome, hcopied⟩ := @deviceLoad_spec d K N _ blob e hd he r
    obtain ⟨l, hl⟩ := Option.isSome_iff_exists.mp (hsome.mpr haccepts)
    have hholds' : Holds d K N B blob.mem orkPackHdrBytes := by
      unfold Holds
      rw [hgeom]
      exact hholds
    exact ⟨l, hl, hholds'.tiled (hcopied l hl)⟩

/-- Every dump comes back through every loader; the loader without a device and those with one take the same blobs, but
for a blob that goes on behind its last tile. -/
theorem loaders_agree_iff (hc : c.soc ∈ socTable) (hfd : c.fd < 0) (hd : ¬ d.fd < 0) (hsoc : d.soc = c.soc) (he : e.Granted)
    (K N : Nat) :
    (∀ B out cap, (orkI4WDumpCpu c K N B out cap).isSome ↔
      Shape K N ∧ 0 < K ∧ 0 < N ∧ orkPackHdrBytes + need c K N ≤ cap) ∧
    (∀ B out cap blob n, Coded K N B → orkI4WDumpCpu c K N B out cap = some (n, blob) → RoundTrips c d e K N B blob n) ∧
    ∀ blob n, (∀ r, (orkI4MmLoad c e.buf K N blob n).isSome ↔ (deviceLoad d e K N blob n r).isSome) ↔
      ¬ Overlong c K N blob n := by
  refine ⟨fun B out cap => orkI4WDumpCpu_isSome hc K N B out cap, fun B out cap blob n hB h => ?_, fun blob n => ?_⟩
  · exact roundTrips hc hfd hd hsoc he hB h
  · have hoff : (orkI4MmLoad c e.buf K N blob n).isSome ↔
        Stamped c K N blob n ∧ Shape K N ∧ orkPackHdrBytes + need c K N ≤ n := by
      rw [Option.isSome_iff_exists]
      constructor
      · rintro ⟨w, hw⟩
        obtain ⟨h1, h2, h3, -⟩ := (orkI4MmLoad_offline hfd e.buf).mp hw
        exact ⟨h1, h2, h3⟩
      · rintro ⟨h1, h2, h3⟩
        exact ⟨_, (orkI4MmLoad_offline hfd e.buf).mpr ⟨h1, h2, h3, rfl⟩⟩
    have hdev : ∀ r, (deviceLoad d e K N blob n r).isSome ↔
        Stamped c K N blob n ∧ Shape K N ∧ n = orkPackHdrBytes + need c K N := by
      intro r
      refine (deviceLoad_spec hd he r).1.trans (deviceAccepts_iff.trans ?_)
      unfold Stamped need geom orkiPackCheck
      rw [hsoc]
    constructor
    · rintro h ⟨h1, h2, h3⟩
      have := (hdev .load).mp ((h .load).mp (hoff.mpr ⟨h1, h2, Nat.le_of_lt h3⟩))
      omega
    · intro h r
      rw [hoff, hdev r]
      constructor
      · rintro ⟨h1, h2, h3⟩
        have hnot : ¬ orkPackHdrBytes + need c K N < n := fun hlt => h ⟨h1, h2, hlt⟩
        exact ⟨h1, h2, by omega⟩
      · rintro ⟨h1, h2, h3⟩
        exact ⟨h1, h2, Nat.le_of_eq h3.symm⟩

/-- A host with everything. -/
def plentyEnv : DeviceEnv :=
  ⟨fun _ => some fun _ => 0, 0, 2 ^ 24, ⟨none, 0⟩, some fun _ => 0,
    ⟨true, true, 2 ^ 24, fun _ => some fun _ => 0, fun _ => some fun _ => 0⟩⟩

theorem plentyEnv_granted : plentyEnv.Granted := ⟨fun _ => rfl, rfl, by decide, rfl, fun _ => rfl⟩

theorem loaders_agree_rk3588 :
    (∀ B out cap, (orkI4WDumpCpu ⟨-1, socRk3588, 0⟩ 64 128 B out cap).isSome ↔
      Shape 64 128 ∧ 0 < 64 ∧ 0 < 128 ∧ orkPackHdrBytes + need ⟨-1, socRk3588, 0⟩ 64 128 ≤ cap) ∧
    (∀ B out cap blob n, Coded 64 128 B → orkI4WDumpCpu ⟨-1, socRk3588, 0⟩ 64 128 B out cap = some (n, blob) →
      RoundTrips ⟨-1, socRk3588, 0⟩ ⟨3, socRk3588, 0⟩ plentyEnv 64 128 B blob n) ∧
    ∀ blob n, (∀ r, (orkI4MmLoad ⟨-1, socRk3588, 0⟩ plentyEnv.buf 64 128 blob n).isSome ↔
      (deviceLoad ⟨3, socRk3588, 0⟩ plentyEnv 64 128 blob n r).isSome) ↔ ¬ Overlong ⟨-1, socRk3588, 0⟩ 64 128 blob n :=
  @loaders_agree_iff ⟨-1, socRk3588, 0⟩ ⟨3, socRk3588, 0⟩ plentyEnv (by decide) (by decide) (by decide) rfl
    plentyEnv_granted 64 128

/-- One byte behind the tiles: taken without a device, refused by the loader onto the device. -/
theorem loaders_disagree : ¬ ∀ (c d : OrkNpu) (e : DeviceEnv) (K N : Nat) (blob : Blob4) (n : Nat), c.soc ∈ socTable →
    c.fd < 0 → ¬ d.fd < 0 → d.soc = c.soc → e.Granted →
    ∀ r, (orkI4MmLoad c e.buf K N blob n).isSome ↔ (deviceLoad d e K N blob n r).isSome := by
  intro h
  let c : OrkNpu := ⟨-1, socRk3588, 0⟩
  let d : OrkNpu := ⟨3, socRk3588, 0⟩
  let blob : Blob4 := ⟨orkiPackStamp c .i4 32 64, fun _ => 0⟩
  have hoff : orkI4MmLoad c plentyEnv.buf 32 64 blob 8193 = some (.codes (offlineCodes c 32 64 blob.mem)) :=
    (orkI4MmLoad_offline (by decide) _).mpr ⟨by decide +kernel, by constructor <;> decide, by decide, rfl⟩
  have hdev : deviceAccepts d 32 64 blob 8193 = false := by decide +kernel
  have hall := h c d plentyEnv 32 64 blob 8193 (by decide) (by decide) (by decide) rfl plentyEnv_granted .load
  have hsome := (deviceLoad_spec (by decide) plentyEnv_granted .load).1.mp (hall.mp (by rw [hoff]; rfl))
  rw [hdev] at hsome
  cases hsome

end OrkDriver.I4.Container
