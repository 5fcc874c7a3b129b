import OrkDriver.Orkd.Wire
import OrkDriver.Pack.Acceptance

/-!
The int8 import through the daemon (`npu/i8/pack.c`, `orkd_handlers.c`): what the client sends of a blob, what the daemon
makes of it, and when that is the weight that was dumped.
-/

namespace OrkDriver.Pack

open OrkDriver.Lib OrkDriver.Npu
open OrkDriver.Orkd (orkdMaxBytes)

/-! ### The client -/

/-- Word `i` of a page, low byte first. -/
def pageWord (m : Mem) (i : Nat) : UInt32 :=
  ([3, 2, 1, 0] : List Nat).foldl (fun w j => w * 256 + (m (4 * i + j)).toUInt8.toUInt32) 0

/-- The first page of a buffer, taken for a header. -/
def readHdr (m : Mem) : PackHdr where
  magic := pageWord m 0
  fmt := pageWord m 1
  capid := pageWord m 2
  dtype := pageWord m 3
  K := (pageWord m 4).toNat
  N := (pageWord m 5).toNat
  hdrBytes := (pageWord m 6).toNat
  flags := pageWord m 7
  soc := ((List.range 16).map fun i => Char.ofNat (m (32 + i)).toUInt8.toNat).takeWhile (· ≠ Char.ofNat 0)

/-- The `ORKD_IMPORT` message with the dma-bufs that ride on it. -/
structure ImportMsg where
  K : Nat
  N : Nat
  bbBytes : Nat
  bfBytes : Nat
  bb : Mem
  bf : Option Mem

/-- `n` bytes copied into a new dma-buf. -/
def copied (n : Nat) (src : Mem) : Mem := fun p => if p < n then src p else 0

/-- The two bodies behind the header; a Bf body starts at `bfOff` of the blob. -/
def imported (K N : Nat) (b : Blob) (n bfOff : Nat) : ImportMsg :=
  let n := n - orkPackHdrBytes
  let off := bfOff - orkPackHdrBytes
  let bbBytes := if off = 0 then n else off
  let bfBytes := if off = 0 then 0 else n - off
  ⟨K, N, bbBytes, bfBytes, copied bbBytes b.body, if bfBytes = 0 then none else some (copied bfBytes fun p => b.body (off + p))⟩

/-- `ork_i8_mm_import` up to the message. -/
def orkI8MmImport (c : OrkNpu) (alloc : Nat → Bool) (K N : Nat) (b : Blob) (n bfOff : Nat) : Option ImportMsg :=
  if K = 0 ∨ N = 0 ∨ n = 0 then none
  else if orkiPackCheck c b.hdr n .i8 K N ≠ none then none
  else if bfOff ≠ 0 ∧ bfOff ≤ orkPackHdrBytes then none
  else
    let m := imported K N b n bfOff
    if alloc m.bbBytes = false ∨ (m.bfBytes ≠ 0 ∧ alloc m.bfBytes = false) then none else some m

/-! ### The daemon -/

/-- What the daemon finds: `ORK_ADOPT_ZC`, whether the client owns the domain it names and whether its weight table has
room, whether the dma-bufs can be mapped, and what `ork_i8_mm_load` gets. -/
structure ImportEnv where
  zc : Bool
  owned : Bool
  room : Bool
  mapped : Bool
  bfMapped : Bool
  load : LoadEnv

/-- A resident weight. The Bf that `ork_i8_mm_load` copies together from its own Bb is left out. -/
structure Resident where
  Bb : Loaded
  Bf : Option (List Mem)

/-- Views into one buffer, tile after tile. -/
def viewsOf (src : Mem) (ts : List Tile) : List Mem := (offsets 0 ts).map fun p => fun j => src (p.1 + j)

/-- `ork_i8_mm_adopt_imported`: the default is to load the body as a blob. -/
def orkI8MmAdoptImported (c : OrkNpu) (v : ImportEnv) (m : ImportMsg) : Option Resident :=
  if m.K % 32 ≠ 0 ∨ m.N % 32 ≠ 0 then none
  else if v.mapped = false then none
  else if v.zc = false then
    (i8MmLoad c v.load m.K m.N ⟨readHdr m.bb, m.bb⟩ m.bbBytes).map fun w => ⟨w, none⟩
  else
    let g := loadGeom c m.K m.N
    let bf := m.bf.filter fun _ => v.bfMapped && decide (bytes (bfTiles c m.K m.N) ≤ m.bfBytes)
    if m.bbBytes < bytes g.tiles then none
    else some ⟨.tiles g.Sk g.Sn (viewsOf m.bb g.tiles), bf.map fun m' => viewsOf m' (bfTiles c m.K m.N)⟩

/-- `orkd_handle_import`, behind the checks of the message's descriptor and dtype. -/
def orkdHandleImport (c : OrkNpu) (v : ImportEnv) (m : ImportMsg) : Option Resident :=
  if m.bbBytes = 0 ∨ orkdMaxBytes < m.bbBytes ∨ orkdMaxBytes < m.bfBytes then none
  else if v.owned = false then none
  else (orkI8MmAdoptImported c v m).filter fun _ => v.room

/-! ### What is promised -/

/-- The weight is `B`, in the slices and, where it has them, in the full-K tiles. -/
def Resident.Serves (c : OrkNpu) (K N : Nat) (B : Mem) (r : Resident) : Prop :=
  Decodes c K N B r.Bb ∧ ∀ Bf ∈ r.Bf, ∀ ns < pieces N c.soc.nmax, ∃ m, Bf[ns]? = some m ∧
    ∀ v ∈ (bfTile c K N ns).cells, m (v.tileIndex (bfTile c K N ns).KT) = B ((bfTile c K N ns).elemIndex N v)

/-- The first `n` bytes of `b` are a dump of `B`, followed from `bfOff` on by its full-K tiles if `bf` is set. -/
def Carries (c : OrkNpu) (K N : Nat) (B : Mem) (bf : Bool) (b : Blob) (n bfOff : Nat) : Prop :=
  ∃ (out : Blob) (cap size : Nat) (blob : Blob), i8WDumpCpu c K N B out cap = (size, blob) ∧ size ≠ 0 ∧
    b.hdr = blob.hdr ∧ (∀ p < size, b.mem p = blob.mem p) ∧
    if bf = true then n = size + bytes (bfTiles c K N) ∧ bfOff = size ∧ (Dumper.bf.geom c K N).Holds b.mem size B
    else n = size ∧ bfOff = 0

/-- Everything the daemon asks the system for is granted. -/
def ImportEnv.Granted (v : ImportEnv) : Prop :=
  v.mapped = true ∧ v.load.codes.isSome = true ∧ ∀ i, (v.load.buf i).isSome = true

/-- Whatever `c` dumps and the client `cc` sends, the daemon `d` makes the weight of. -/
def ImportServes (c cc d : OrkNpu) (zc owned room bf : Bool) (K N : Nat) : Prop :=
  ∀ (B : Mem) (b : Blob) (n bfOff : Nat), Carries c K N B bf b n bfOff →
    ∀ (alloc : Nat → Bool) (m : ImportMsg), orkI8MmImport cc alloc K N b n bfOff = some m →
      ∀ v : ImportEnv, v.zc = zc → v.owned = owned → v.room = room → v.Granted →
        ∃ r, orkdHandleImport d v m = some r ∧ r.Serves d K N B

/-- Tile by tile, the two walks start at the same offsets. -/
def SameOffsets (g r : Geom) : Prop :=
  g.Sk = r.Sk ∧ ∀ ns ks, ns < g.Sn → ks < g.Sk → g.tileOffset ns ks = r.tileOffset ns ks

/-- What the daemon needs: the zero-copy path, its own checks, and slices that the dump, the views and the runs cut
alike. -/
structure Adoptable (c d : OrkNpu) (zc owned room bf : Bool) (K N : Nat) : Prop where
  zc : zc = true
  owned : owned = true
  room : room = true
  size : bytes (geom c K N).tiles ≤ orkdMaxBytes
  bfSize : bf = true → bytes (bfTiles c K N) ≤ orkdMaxBytes
  full : bytes (loadGeom d K N).tiles ≤ bytes (geom c K N).tiles
  agree : Agree K N c.soc.nmax c.int8Ks d.int8Ks
  offsets : SameOffsets (loadGeom d K N) (geom d K N)

/-! ### What the client sends -/

section

variable {c cc d : OrkNpu} {zc owned room bf : Bool} {K N n bfOff : Nat} {B : Mem} {b : Blob} {m : ImportMsg}

theorem orkI8MmImport_some {alloc : Nat → Bool} (h : orkI8MmImport cc alloc K N b n bfOff = some m) :
    (0 < K ∧ 0 < N) ∧ orkiPackCheck cc b.hdr n .i8 K N = none ∧ m = imported K N b n bfOff := by
  unfold orkI8MmImport at h
  dsimp only at h
  split_ifs at h with hdims hchk hoff halloc
  have hm := Option.some.inj h
  exact ⟨by omega, not_not.mp hchk, hm.symm⟩

theorem geom_aligned_of_takes (hc : c.soc ∈ socTable) (ht : Dumper.bb.Takes K N) : (geom c K N).Aligned := by
  have hn := socTable_nmax hc
  exact geom_aligned (by omega) (by omega) ht.1 ht.2

theorem bytes_pos (hc : c.soc ∈ socTable) (ht : Dumper.bb.Takes K N) (hK : 0 < K) (hN : 0 < N) :
    0 < bytes (geom c K N).tiles :=
  Nat.zero_lt_of_lt ((geom_aligned_of_takes hc ht).position_lt hK hN)

theorem bfGeom_aligned (hc : c.soc ∈ socTable) (ht : Dumper.bb.Takes K N) (hK : 0 < K) :
    (Dumper.bf.geom c K N).Aligned := by
  have hn := socTable_nmax hc
  exact ⟨hK, ht.1, by simp [Dumper.geom, hn], by simp [Dumper.geom, hn], ht.1, ht.2⟩

theorem bf_bytes_pos (hc : c.soc ∈ socTable) (ht : Dumper.bb.Takes K N) (hK : 0 < K) (hN : 0 < N) :
    0 < bytes (bfTiles c K N) := by
  rw [bfTiles_eq hK]
  exact Nat.zero_lt_of_lt ((bfGeom_aligned hc ht hK).position_lt hK hN)

/-- What a dump leaves in the first part of the blob. -/
theorem Carries.holds (hc : c.soc ∈ socTable) (hK : 0 < K) (h : Carries c K N B bf b n bfOff) :
    Dumper.bb.Takes K N ∧ b.hdr = orkiPackStamp c .i8 K N ∧ (geom c K N).Holds b.body 0 B ∧
      if bf = true then n = orkPackHdrBytes + bytes (geom c K N).tiles + bytes (bfTiles c K N) ∧
        bfOff = orkPackHdrBytes + bytes (geom c K N).tiles ∧ (Dumper.bf.geom c K N).Holds b.mem bfOff B
      else n = orkPackHdrBytes + bytes (geom c K N).tiles ∧ bfOff = 0 := by
  obtain ⟨out, cap, size, blob, hdump, hne, hhdr, hmem, hrest⟩ := h
  have hrun : Dumper.bb.run c K N B out cap = (size, blob) := hdump
  obtain ⟨ht, hcap⟩ := @Dumper.run_ne_zero .bb c K N B out cap (by rw [hrun]; exact hne)
  obtain ⟨blob', hdump', hhdr', hholds⟩ := Dumper.run_holds hc ht B out hcap
  rw [hrun, Prod.mk.injEq] at hdump'
  obtain ⟨hsize, rfl⟩ := hdump'
  have hsize' : size = orkPackHdrBytes + bytes (geom c K N).tiles := hsize
  refine ⟨ht, hhdr.trans hhdr', ?_, ?_⟩
  · intro ns ks hns hks j hj
    have hin := bounds_of_mem_offsets (@Geom.mem_offsets (geom c K N) 0 _ |>.mpr ⟨ns, ks, hns, hks, rfl⟩)
    refine (hmem _ ?_).trans (hholds hK ns ks hns hks j hj)
    rw [hsize']
    omega
  · cases bf with
    | true =>
        rw [if_pos rfl] at hrest ⊢
        rw [hsize'] at hrest
        exact ⟨hrest.1, hrest.2.1, hrest.2.1 ▸ hrest.2.2⟩
    | false =>
        rw [if_neg (by decide)] at hrest ⊢
        rw [hsize'] at hrest
        exact hrest

/-- Every weight has a blob, with and without full-K tiles. -/
theorem exists_carries (hc : c.soc ∈ socTable) (ht : Dumper.bb.Takes K N) (hK : 0 < K) (bf : Bool) (B : Mem) :
    ∃ b n bfOff, Carries c K N B bf b n bfOff := by
  obtain ⟨blob, hdump, -, -⟩ := Dumper.run_holds hc ht B ⟨orkiPackStamp c .i8 K N, fun _ => 0⟩ (Nat.le_refl _)
  have hne : orkPackHdrBytes + bytes (Dumper.bb.tiles c K N) ≠ 0 := by
    unfold orkPackHdrBytes
    omega
  cases bf with
  | false => exact ⟨blob, _, 0, _, _, _, blob, hdump, hne, rfl, fun _ _ => rfl, rfl, rfl⟩
  | true =>
      have hblocked : ∀ t ∈ (Dumper.bf.geom c K N).tiles, t.Blocked := fun t ht' =>
        (bfGeom_aligned hc ht hK).blocked_of_mem ht'
      obtain ⟨m, -, hin, hout⟩ := dumpTiles_spec (N := N) (B := B) hblocked blob.mem
        (Nat.le_refl (orkPackHdrBytes + bytes (Dumper.bb.tiles c K N) + _))
      exact ⟨⟨blob.hdr, m⟩, _, _, _, _, _, blob, hdump, hne, rfl, fun p hp => hout p (Or.inl hp), rfl, rfl,
        Geom.Holds.of_offsets hin⟩

/-- The message: the sliced tiles without their header, and the full-K tiles. -/
theorem Carries.imported_eq (hc : c.soc ∈ socTable) (hK : 0 < K) (hN : 0 < N) (h : Carries c K N B bf b n bfOff) :
    imported K N b n bfOff = ⟨K, N, bytes (geom c K N).tiles, if bf = true then bytes (bfTiles c K N) else 0,
      copied (bytes (geom c K N).tiles) b.body, if bf = true then
        some (copied (bytes (bfTiles c K N)) fun p => b.body (bytes (geom c K N).tiles + p)) else none⟩ := by
  obtain ⟨ht, -, -, hrest⟩ := h.holds hc hK
  have hS := bytes_pos hc ht hK hN
  have hF := bf_bytes_pos hc ht hK hN
  cases bf with
  | false =>
      rw [if_neg (by decide)] at hrest
      obtain ⟨rfl, rfl⟩ := hrest
      unfold imported
      simp
  | true =>
      rw [if_pos rfl] at hrest
      obtain ⟨rfl, rfl, -⟩ := hrest
      unfold imported
      simp only [Nat.add_assoc, Nat.add_sub_cancel_left, if_neg (Nat.ne_of_gt hS), if_neg (Nat.ne_of_gt hF), if_true]

/-! ### What the daemon makes of it -/

theorem viewsOf_tile {g : Geom} (src : Mem) {ns ks : Nat} (hns : ns < g.Sn) (hks : ks < g.Sk) :
    (viewsOf src g.tiles)[ns * g.Sk + ks]? = some fun j => src (g.tileOffset ns ks + j) := by
  have hx : (offsets 0 g.tiles)[ns * g.Sk + ks]? = some (g.tileOffset ns ks, g.tile ns ks) := by
    rw [Geom.offsets_tiles, getElem?_rows _ g.Sk hns hks, Nat.zero_add]
  unfold viewsOf
  rw [List.getElem?_map, hx, Option.map_some]

theorem copied_of_lt {N p : Nat} (src : Mem) (hp : p < N) : copied N src p = src p := if_pos hp

theorem lt_of_copied_ne {N p : Nat} {src : Mem} (h : copied N src p ≠ 0) : p < N := by
  by_contra hp
  exact h (if_neg hp)

/-- Views at the offsets of the tiles a run reads are its tiles. -/
theorem decodes_views (hc : c.soc ∈ socTable) (hd : d.soc ∈ socTable) (ht : Dumper.bb.Takes K N)
    (hb : (geom c K N).Holds b.body 0 B) (hagree : Agree K N c.soc.nmax c.int8Ks d.int8Ks)
    (hoff : SameOffsets (loadGeom d K N) (geom d K N)) : Decodes d K N B (.tiles (loadGeom d K N).Sk (loadGeom d K N).Sn
      (viewsOf (copied (bytes (geom c K N).tiles) b.body) (loadGeom d K N).tiles)) := by
  have hg := geom_aligned_of_takes hc ht
  have hr := geom_aligned_of_takes hd ht
  have hnm : c.soc.nmax = d.soc.nmax := (socTable_nmax hc).trans (socTable_nmax hd).symm
  have hR : geom d K N = (geom c K N).withKS d.int8Ks := geom_eq_withKS (d := .bb) hnm
  refine ⟨rfl, fun ns hns => ⟨hoff.1, fun ks hks v hv => ?_⟩⟩
  have hks' : ks < (geom d K N).Sk := lt_of_lt_of_eq hks hoff.1
  refine ⟨_, viewsOf_tile _ hns hks, ?_⟩
  obtain ⟨k, n, hk, hn, hel, rfl, rfl, rfl⟩ := hr.elem_unique hns hks' hv
  have hpos : (geom d K N).position k n = (geom c K N).position k n := by
    rw [hR]
    exact Geom.Agree.position_eq hagree hg (hR ▸ hr) hk hn
  have hidx : (loadGeom d K N).tileOffset (n / (geom d K N).NMAX) (k / (geom d K N).KS) +
      ((geom d K N).cellAt k n).tileIndex ((geom d K N).tile (n / (geom d K N).NMAX) (k / (geom d K N).KS)).KT =
      (geom c K N).position k n := by
    rw [hoff.2 _ _ hns hks]
    exact hpos
  have hbyte := hb.position hg hk hn
  rw [Nat.zero_add] at hbyte
  rw [hidx, copied_of_lt _ (hg.position_lt hk hn), hbyte]
  exact congrArg B hel.symm

theorem pieces_self (hK : 0 < K) : pieces K K = 1 := by
  have hdiv : K + K - 1 = K - 1 + K := by omega
  unfold pieces
  rw [hdiv, Nat.add_div_right _ hK, Nat.div_eq_of_lt (Nat.sub_lt hK Nat.zero_lt_one)]

/-- The full-K tiles are the same for everyone. -/
theorem full_views (hc : c.soc ∈ socTable) (hd : d.soc ∈ socTable) (ht : Dumper.bb.Takes K N) (hK : 0 < K)
    {src : Mem} (hb : (Dumper.bf.geom c K N).Holds src 0 B) {ns : Nat} (hns : ns < pieces N d.soc.nmax) :
    ∃ m, (viewsOf (copied (bytes (bfTiles c K N)) src) (bfTiles d K N))[ns]? = some m ∧
      ∀ v ∈ (bfTile d K N ns).cells, m (v.tileIndex (bfTile d K N ns).KT) = B ((bfTile d K N ns).elemIndex N v) := by
  have hnm : d.soc.nmax = c.soc.nmax := (socTable_nmax hd).trans (socTable_nmax hc).symm
  have hg := bfGeom_aligned hc ht hK
  have hSk : (Dumper.bf.geom c K N).Sk = 1 := pieces_self hK
  have htile : bfTile d K N ns = (Dumper.bf.geom c K N).tile ns 0 := by
    unfold bfTile
    rw [hnm]
    change _ = (⟨ns * c.soc.nmax, pieceLen N c.soc.nmax ns, 0 * K, pieceLen K K 0⟩ : Tile)
    rw [Nat.zero_mul, pieceLen_of_le (Nat.le_refl K)]
  have htiles : bfTiles d K N = (Dumper.bf.geom c K N).tiles := by
    rw [bfTiles_eq hK, hnm]
    rfl
  have hns' : ns < (Dumper.bf.geom c K N).Sn := by
    rw [hnm] at hns
    exact hns
  have h0 : 0 < (Dumper.bf.geom c K N).Sk := by rw [hSk]; exact Nat.zero_lt_one
  have hview := viewsOf_tile (copied (bytes (bfTiles c K N)) src) hns' h0
  rw [hSk, Nat.mul_one, Nat.add_zero, ← htiles] at hview
  refine ⟨_, hview, ?_⟩
  rw [htile]
  intro v hv
  have hin := bounds_of_mem_offsets (@Geom.mem_offsets (Dumper.bf.geom c K N) 0 _ |>.mpr ⟨ns, 0, hns', h0, rfl⟩)
  have hlt := Tile.tileIndex_lt_tsz (hg.blocked ns 0) hv
  rw [Nat.zero_add, Nat.zero_add] at hin
  have hcell := hb ns 0 hns' h0 _ hlt
  rw [Nat.zero_add] at hcell
  rw [copied_of_lt, hcell, Tile.image_cell hv]
  · rfl
  · rw [bfTiles_eq hK]
    exact lt_of_lt_of_le (Nat.add_lt_add_left hlt _) hin.2

end

end OrkDriver.Pack
