import OrkDriver.Pack.Header
import OrkDriver.Pack.Tiles

/-!
The pure-CPU int8 dumps and the un-tiler of `npu/i8/pack.c`, and that they invert each other.
-/

namespace OrkDriver.Pack

open OrkDriver.Lib OrkDriver.Npu

/-- A buffer of int8 elements. -/
abbrev Mem := Nat → Int8

def memset (m : Mem) (off n : Nat) : Mem := fun p => if off ≤ p ∧ p < off + n then 0 else m p

/-- The bytes of a tile list. -/
def bytes (ts : List Tile) : Nat := (ts.map Tile.tsz).sum

namespace Tile

/-- `memset` of the tile, then `orki_i8_tile_range` over all its columns. -/
def write (t : Tile) (N off : Nat) (B out : Mem) : Mem :=
  stores (memset out off t.tsz) (t.cells.map fun v => (off + v.tileIndex t.KT, B (t.elemIndex N v)))

/-- The stores of the inner loops of `orki_i8_untile_blob`. -/
def gathers (t : Tile) (N off : Nat) (src : Mem) : List (Nat × Int8) :=
  t.cells.map fun v => (t.elemIndex N v, src (off + v.tileIndex t.KT))

end Tile

/-- The outer loops of a dump into a buffer of `cap` bytes, from offset `off`; size 0 is a refusal. -/
def dumpTiles (cap N : Nat) (B : Mem) : List Tile → Nat → Mem → Nat × Mem
  | [], off, out => (off, out)
  | t :: ts, off, out => if cap < off + t.tsz then (0, out) else dumpTiles cap N B ts (off + t.tsz) (t.write N off B out)

/-- The outer loops of the un-tiler over a body of `n` bytes. -/
def untileTiles (n N : Nat) (src : Mem) : List Tile → Nat → Mem → Int × Mem
  | [], off, codes => (if off = n then 0 else -1, codes)
  | t :: ts, off, codes =>
    if n < off + t.tsz then (-1, codes) else untileTiles n N src ts (off + t.tsz) (stores codes (t.gathers N off src))

def geom (c : OrkNpu) (K N : Nat) : Geom := ⟨c.int8Ks, c.soc.nmax, K, N⟩

/-- A persisted weight: its first page read as a header, and its bytes from there on. -/
structure Blob where
  hdr : PackHdr
  mem : Mem

/-- `ork_i8_w_dump_cpu` into a buffer. -/
def i8WDumpCpu (c : OrkNpu) (K N : Nat) (B : Mem) (out : Blob) (cap : Nat) : Nat × Blob :=
  if K % 32 ≠ 0 ∨ N % 32 ≠ 0 then (0, out)
  else if cap < orkPackHdrBytes then (0, out)
  else
    let r := dumpTiles cap N B (geom c K N).tiles orkPackHdrBytes out.mem
    (r.1, ⟨orkiPackStamp c .i8 K N, r.2⟩)

/-- `ork_i8_w_dump_cpu` with `out = NULL`: the size. -/
def i8WDumpCpuSize (c : OrkNpu) (K N : Nat) : Nat :=
  if K % 32 ≠ 0 ∨ N % 32 ≠ 0 then 0 else orkPackHdrBytes + bytes (geom c K N).tiles

/-- `orki_i8_untile_blob` on the `n` bytes of a body. -/
def orkiI8UntileBlob (c : OrkNpu) (K N : Nat) (src : Mem) (n : Nat) (codes : Mem) : Int × Mem :=
  if K % 32 ≠ 0 ∨ N % 32 ≠ 0 then (-1, codes) else untileTiles n N src (geom c K N).tiles 0 codes

/-- The tile of `ork_i8_w_dump_bf_cpu` for N-slice `ns`: all of K. -/
def bfTile (c : OrkNpu) (K N ns : Nat) : Tile := ⟨ns * c.soc.nmax, pieceLen N c.soc.nmax ns, 0, K⟩

def bfTiles (c : OrkNpu) (K N : Nat) : List Tile := (List.range (pieces N c.soc.nmax)).map (bfTile c K N)

/-- `ork_i8_w_dump_bf_cpu` into a buffer. -/
def i8WDumpBfCpu (c : OrkNpu) (K N : Nat) (B : Mem) (out : Blob) (cap : Nat) : Nat × Blob :=
  if K % 512 ≠ 0 ∨ 4096 < K ∨ N % 32 ≠ 0 then (0, out)
  else if cap < orkPackHdrBytes then (0, out)
  else
    let r := dumpTiles cap N B (bfTiles c K N) orkPackHdrBytes out.mem
    (r.1, ⟨orkiPackStamp c .i8 K N, r.2⟩)

/-! ### Where each tile lies -/

/-- The tiles of a walk with the offsets they get. -/
def offsets : Nat → List Tile → List (Nat × Tile)
  | _, [] => []
  | off, t :: ts => (off, t) :: offsets (off + t.tsz) ts

@[simp] theorem bytes_nil : bytes [] = 0 := rfl

@[simp] theorem bytes_cons (t : Tile) (ts : List Tile) : bytes (t :: ts) = t.tsz + bytes ts := rfl

theorem bytes_append (ts us : List Tile) : bytes (ts ++ us) = bytes ts + bytes us := by
  simp only [bytes, List.map_append, List.sum_append]

theorem offsets_append (off : Nat) (ts us : List Tile) :
    offsets off (ts ++ us) = offsets off ts ++ offsets (off + bytes ts) us := by
  induction ts generalizing off with
  | nil => rfl
  | cons t ts ih => simp only [List.cons_append, offsets, ih, bytes_cons, Nat.add_assoc]

theorem bounds_of_mem_offsets {off o : Nat} {t : Tile} {ts : List Tile} (h : (o, t) ∈ offsets off ts) :
    off ≤ o ∧ o + t.tsz ≤ off + bytes ts := by
  induction ts generalizing off with
  | nil => cases h
  | cons u ts ih =>
      rw [bytes_cons]
      rcases List.mem_cons.mp h with heq | h
      · cases heq
        omega
      · have := ih h
        omega

theorem mem_of_mem_offsets {off o : Nat} {t : Tile} {ts : List Tile} (h : (o, t) ∈ offsets off ts) : t ∈ ts := by
  induction ts generalizing off with
  | nil => cases h
  | cons u ts ih =>
      rcases List.mem_cons.mp h with heq | h
      · cases heq
        exact List.mem_cons_self
      · exact List.mem_cons_of_mem _ (ih h)

/-- Every byte of a walk lies in one of its tiles. -/
theorem exists_offset {off p : Nat} {ts : List Tile} (h0 : off ≤ p) (h : p < off + bytes ts) :
    ∃ o t, (o, t) ∈ offsets off ts ∧ o ≤ p ∧ p < o + t.tsz := by
  induction ts generalizing off with
  | nil =>
      rw [bytes_nil] at h
      omega
  | cons t ts ih =>
      rw [bytes_cons] at h
      by_cases hp : p < off + t.tsz
      · exact ⟨off, t, List.mem_cons_self, h0, hp⟩
      · obtain ⟨o, u, hmem, hu⟩ := @ih (off + t.tsz) (by omega) (by omega)
        exact ⟨o, u, List.mem_cons_of_mem _ hmem, hu⟩

theorem offsets_map (off : Nat) (f : Nat → Tile) (m : Nat) : offsets off ((List.range m).map f) =
    (List.range m).map fun i => (off + bytes ((List.range i).map f), f i) := by
  induction m with
  | zero => rfl
  | succ m ih => simp only [List.range_succ, List.map_append, offsets_append, ih, List.map_cons, List.map_nil, offsets]

theorem offsets_flatMap (off : Nat) (g : Nat → List Tile) (m : Nat) : offsets off ((List.range m).flatMap g) =
    (List.range m).flatMap fun i => offsets (off + bytes ((List.range i).flatMap g)) (g i) := by
  induction m with
  | zero => rfl
  | succ m ih =>
      simp only [List.range_succ, List.flatMap_append, offsets_append, ih, List.flatMap_cons, List.flatMap_nil,
        List.append_nil]

namespace Geom

variable (g : Geom)

/-- Offset of tile `(ns, ks)` in the body. -/
def tileOffset (ns ks : Nat) : Nat :=
  bytes ((List.range ns).flatMap g.tileRow) + bytes ((List.range ks).map (g.tile ns))

theorem offsets_tiles (off : Nat) : offsets off g.tiles = (List.range g.Sn).flatMap fun ns =>
    (List.range g.Sk).map fun ks => (off + g.tileOffset ns ks, g.tile ns ks) := by
  simp only [tiles, offsets_flatMap, tileRow, offsets_map, tileOffset, Nat.add_assoc]

theorem mem_offsets {off : Nat} {p : Nat × Tile} :
    p ∈ offsets off g.tiles ↔ ∃ ns ks, ns < g.Sn ∧ ks < g.Sk ∧ p = (off + g.tileOffset ns ks, g.tile ns ks) := by
  rw [offsets_tiles]
  simp only [List.mem_flatMap, List.mem_map, List.mem_range]
  constructor
  · rintro ⟨ns, hns, ks, hks, rfl⟩
    exact ⟨ns, ks, hns, hks, rfl⟩
  · rintro ⟨ns, ks, hns, hks, rfl⟩
    exact ⟨ns, hns, ks, hks, rfl⟩

end Geom

/-! ### What the loops leave -/

/-- A tile as the dump leaves it: its cells, zero behind them. -/
def Tile.image (t : Tile) (N : Nat) (B : Mem) : Mem :=
  stores (fun _ => 0) (t.cells.map fun v => (v.tileIndex t.KT, B (t.elemIndex N v)))

namespace Tile

variable {t : Tile}

theorem image_cell {v : Cell} (hv : v ∈ t.cells) (N : Nat) (B : Mem) :
    t.image N B (v.tileIndex t.KT) = B (t.elemIndex N v) := by
  refine stores.of_mem ⟨_, List.mem_map_of_mem hv, rfl⟩ fun w hw hidx => ?_
  obtain ⟨u, hu, rfl⟩ := List.mem_map.mp hw
  rw [tileIndex_inj hu hv hidx]

theorem image_pad (h : t.Blocked) {j : Nat} (hj : t.Kp * t.Nc ≤ j) (N : Nat) (B : Mem) : t.image N B j = 0 := by
  refine stores.of_forall_ne fun w hw => ?_
  obtain ⟨u, hu, rfl⟩ := List.mem_map.mp hw
  exact Nat.ne_of_lt (lt_of_lt_of_le (tileIndex_lt h hu) hj)

theorem write_in (h : t.Blocked) (N off : Nat) (B out : Mem) {j : Nat} (hj : j < t.tsz) :
    t.write N off B out (off + j) = t.image N B j := by
  by_cases hcell : j < t.Kp * t.Nc
  · obtain ⟨v, hv, rfl⟩ := exists_cell h hcell
    rw [image_cell hv]
    refine stores.of_mem ⟨_, List.mem_map_of_mem hv, rfl⟩ fun w hw hidx => ?_
    obtain ⟨u, hu, rfl⟩ := List.mem_map.mp hw
    rw [tileIndex_inj hu hv (Nat.add_left_cancel hidx)]
  · have hle := not_lt.mp hcell
    rw [image_pad h hle]
    have hset : memset out off t.tsz (off + j) = 0 := by
      unfold memset
      rw [if_pos ⟨Nat.le_add_right _ _, Nat.add_lt_add_left hj _⟩]
    rw [← hset]
    refine stores.of_forall_ne fun w hw => ?_
    obtain ⟨u, hu, rfl⟩ := List.mem_map.mp hw
    have := tileIndex_lt h hu
    dsimp only
    omega

/-- Writing a tile touches its own bytes only. -/
theorem write_out (h : t.Blocked) (N off : Nat) (B out : Mem) {p : Nat} (hp : p < off ∨ off + t.tsz ≤ p) :
    t.write N off B out p = out p := by
  have hset : memset out off t.tsz p = out p := by
    unfold memset
    rw [if_neg (by omega)]
  rw [← hset]
  refine stores.of_forall_ne fun w hw => ?_
  obtain ⟨u, hu, rfl⟩ := List.mem_map.mp hw
  have := tileIndex_lt_tsz h hu
  dsimp only
  omega

end Tile

/-- A dump that fits writes every tile's image at its offset, and nothing else. -/
theorem dumpTiles_spec {cap N : Nat} {B : Mem} {ts : List Tile} (hb : ∀ t ∈ ts, t.Blocked) {off : Nat} (out : Mem)
    (hcap : off + bytes ts ≤ cap) : ∃ out', dumpTiles cap N B ts off out = (off + bytes ts, out') ∧
      (∀ o t, (o, t) ∈ offsets off ts → ∀ j, j < t.tsz → out' (o + j) = t.image N B j) ∧
      ∀ p, p < off ∨ off + bytes ts ≤ p → out' p = out p := by
  induction ts generalizing off out with
  | nil => exact ⟨out, rfl, fun o t h => absurd h List.not_mem_nil, fun _ _ => rfl⟩
  | cons t ts ih =>
      rw [bytes_cons] at hcap ⊢
      obtain ⟨out', hrun, hin, hout⟩ := @ih (fun u hu => hb u (List.mem_cons_of_mem _ hu)) (off + t.tsz)
        (t.write N off B out) (by omega)
      have ht := hb t List.mem_cons_self
      refine ⟨out', ?_, ?_, ?_⟩
      · rw [dumpTiles, if_neg (by omega), hrun, Nat.add_assoc]
      · intro o u hmem j hj
        rcases List.mem_cons.mp hmem with heq | hmem
        · cases heq
          rw [hout _ (.inl (by omega)), t.write_in ht N off B out hj]
        · exact hin o u hmem j hj
      · intro p hp
        rw [hout p (by omega), t.write_out ht N off B out (by omega)]

theorem dumpTiles_refuses {cap N : Nat} {B : Mem} {ts : List Tile} {off : Nat} (out : Mem) (h0 : off ≤ cap)
    (hcap : cap < off + bytes ts) : (dumpTiles cap N B ts off out).1 = 0 := by
  induction ts generalizing off out with
  | nil =>
      rw [bytes_nil] at hcap
      omega
  | cons t ts ih =>
      rw [bytes_cons] at hcap
      rw [dumpTiles]
      split
      · rfl
      · exact ih _ (by omega) (by omega)

/-- The un-tiler accepts exactly the bodies of the right size, and has then stored every tile's cells. -/
theorem untileTiles_spec (n N : Nat) (src : Mem) (ts : List Tile) (off : Nat) (codes : Mem) :
    ((untileTiles n N src ts off codes).1 = 0 ↔ off + bytes ts = n) ∧ (off + bytes ts = n →
      untileTiles n N src ts off codes = (0, stores codes ((offsets off ts).flatMap fun p => p.2.gathers N p.1 src))) := by
  induction ts generalizing off codes with
  | nil =>
      simp only [untileTiles, bytes_nil, Nat.add_zero, offsets, List.flatMap_nil, stores, List.foldl_nil]
      constructor
      · split <;> simp_all
      · intro h
        rw [if_pos h]
  | cons t ts ih =>
      obtain ⟨hiff, hrun⟩ := ih (off + t.tsz) (stores codes (t.gathers N off src))
      rw [untileTiles, bytes_cons, ← Nat.add_assoc]
      split
      · have hne : off + t.tsz + bytes ts ≠ n := by omega
        exact ⟨⟨fun h => absurd (show (-1 : Int) = 0 from h) (by decide), fun h => absurd h hne⟩, fun h => absurd h hne⟩
      · refine ⟨hiff, fun h => ?_⟩
        rw [hrun h, offsets, List.flatMap_cons, stores.append]

end OrkDriver.Pack
