import OrkDriver.Core.DynBegin
import OrkDriver.Lib.Nibbles
import OrkDriver.Lib.Records
import OrkDriver.Pack.Header

/-!
The container of a native int4 weight (`npu/i4/pack.c`): a header page, then page-padded tiles of nibbles. The CPU dump,
the un-tiler, and the loaders with and without a device.
-/

namespace OrkDriver.I4.Container

open OrkDriver.Lib OrkDriver.Npu OrkDriver.Pack

abbrev Bytes := Nat → BitVec 8

/-- A persisted weight: its first page read as a header, and its bytes from there on. -/
structure Blob4 where
  hdr : PackHdr
  mem : Bytes

def memset (m : Bytes) (off n : Nat) : Bytes := fun p => if off ≤ p ∧ p < off + n then 0 else m p

def memcpy (m : Bytes) (off : Nat) (src : Bytes) (n : Nat) : Bytes :=
  fun p => if off ≤ p ∧ p < off + n then src (p - off) else m p

def geom (c : OrkNpu) (K N : Nat) : Geom := ⟨Core.orkI4Ks, c.soc.nmax, K, N⟩

/-! ### One tile -/

/-- `(size_t)Kp*Nc/2`: half a byte per weight. -/
def raw (t : Tile) : Nat := t.Kp * t.Nc / 2

/-- Bytes of the tile with its page padding. -/
def tsz (t : Tile) : Nat := pgup (raw t)

/-- The loops of the tiler and the un-tilers: `idx`, and where the code is in the matrix. -/
def nibbles (t : Tile) (N : Nat) : List (Nat × Nat) :=
  (List.range (t.Nc / 64)).flatMap fun nb => (List.range (t.Kp / 32)).flatMap fun kt =>
    (List.range 64).flatMap fun nl => (List.range 32).map fun kk =>
      (((nb * (t.Kp / 32) + kt) * 64 + nl) * 32 + kk, (t.k0 + kt * 32 + kk) * N + (t.n0 + nb * 64 + nl))

/-- `tile_i4_Bslice`, to `dst + off`. -/
def tileI4Bslice (N : Nat) (B : Nat → Int8) (off : Nat) (t : Tile) (dst : Bytes) : Bytes :=
  orNibbles (memset dst off (raw t)) ((nibbles t N).map fun p => (2 * off + p.1, low4 (B p.2)))

/-- The stores of the inner loops of the un-tilers. -/
def untileSlice (N : Nat) (src : Bytes) (off : Nat) (t : Tile) : List (Nat × Int8) :=
  (nibbles t N).map fun p => (p.2, signExtend4 (nibbleAt src (2 * off + p.1)))

/-! ### Dump and un-tiler -/

/-- `ork_i4_w_dump_cpu` into a buffer of `cap` bytes, and the size; `none` is 0. -/
def orkI4WDumpCpu (c : OrkNpu) (K N : Nat) (B : Nat → Int8) (out : Bytes) (cap : Nat) : Option (Nat × Blob4) :=
  if cap < orkPackHdrBytes then none
  else if K % 32 ≠ 0 ∨ N % 64 ≠ 0 then none
  else do
    let r ← walkRecords tsz cap (fun off t bb => tileI4Bslice N B off t (memset bb off (tsz t))) (geom c K N).tiles
      orkPackHdrBytes out
    -- `body_ ? body_+hdr_ : 0`
    if r.1 = orkPackHdrBytes then none else some (r.1, ⟨orkiPackStamp c .i4 K N, r.2⟩)

/-- `ork_i4_w_dump_cpu` with `out = NULL`: the size. -/
def orkI4WDumpCpuSize (c : OrkNpu) (K N : Nat) : Nat :=
  let body := if K % 32 ≠ 0 ∨ N % 64 ≠ 0 then 0 else total tsz (geom c K N).tiles
  if body = 0 then 0 else body + orkPackHdrBytes

/-- `orki_i4_untile_blob` on the `n` bytes of a body; `none` is -1. -/
def orkiI4UntileBlob (c : OrkNpu) (K N : Nat) (src : Bytes) (n : Nat) (codes : Nat → Int8) : Option (Nat → Int8) :=
  if K % 32 ≠ 0 ∨ N % 64 ≠ 0 then none
  else do
    let r ← walkRecords tsz n (fun off t codes => stores codes (untileSlice N src off t)) (geom c K N).tiles 0 codes
    if r.1 = n then some r.2 else none

/-! ### Loaders -/

/-- A loaded weight: its codes without a device, else the bytes of its tiles. -/
inductive Weight4
  | codes (cpuCodes : Nat → Int8)
  | tiles (Bb : List Bytes)

/-- `need`. -/
def need (c : OrkNpu) (K N : Nat) : Nat := total tsz (geom c K N).tiles

/-- What the loaders with a device all check. -/
def deviceAccepts (c : OrkNpu) (K N : Nat) (blob : Blob4) (n : Nat) : Bool :=
  decide (orkiPackCheck c blob.hdr n .i4 K N = none ∧ ¬ (K % 32 ≠ 0 ∨ N % 64 ≠ 0) ∧ n - orkPackHdrBytes = need c K N)

/-- `ork_i4_mm_load`; `buf i` is the memory of the `i`-th buffer, if the kernel grants one. -/
def orkI4MmLoad (c : OrkNpu) (buf : Nat → Option Bytes) (K N : Nat) (blob : Blob4) (n : Nat) : Option Weight4 :=
  if orkiPackCheck c blob.hdr n .i4 K N ≠ none then none
  else if c.fd < 0 then
    if K % 32 ≠ 0 ∨ N % 64 ≠ 0 then none
    else do
      let r ← walkRecords tsz n (fun off t codes => stores codes (untileSlice N blob.mem off t)) (geom c K N).tiles
        orkPackHdrBytes fun _ => 0
      some (.codes r.2)
  else if deviceAccepts c K N blob n = false then none
  else (copyRecords tsz tsz blob.mem buf 0 orkPackHdrBytes (geom c K N).tiles).map .tiles

/-- A chunk of mapped device memory. -/
structure Chunk where
  size : Nat
  cpu : Bytes

/-- `i4arena_cur` and `i4arena_off` of a domain. -/
structure Arena where
  cur : Option Chunk
  off : Nat

/-- The chunk the weight goes to, and where: a new one if the current one has no room. -/
def Arena.place (a : Arena) (fresh : Option Bytes) (need chunkCap : Nat) : Option (Chunk × Nat) :=
  match a.cur with
  | some b =>
    if b.size < a.off + need then fresh.map fun m => (⟨pgup (max need chunkCap), m⟩, 0) else some (b, a.off)
  | none => fresh.map fun m => (⟨pgup (max need chunkCap), m⟩, 0)

/-- The copies of `ork_i4_mm_load_arena`: tile after tile from the body to the chunk. -/
def arenaFill (src : Bytes) (tiles : List Tile) (off : Nat) (m : Bytes) : Bytes :=
  (placed tsz off tiles).foldl
    (fun m p => memcpy m p.1 (fun j => src (orkPackHdrBytes + (p.1 - off) + j)) (raw p.2)) m

/-- `ork_i4_mm_load_arena`: the arena after it, and where in the chunk the tiles are. -/
def orkI4MmLoadArena (c : OrkNpu) (heap : Bool) (dom : Int) (chunkCap : Nat) (a : Arena) (fresh : Option Bytes)
    (K N : Nat) (blob : Blob4) (n : Nat) : Option (Chunk × Nat × List Nat) :=
  if deviceAccepts c K N blob n = false ∨ heap = false ∨ dom < 0 ∨ 64 ≤ dom then none
  else do
    let r ← a.place fresh (need c K N) chunkCap
    let tiles := (geom c K N).tiles
    some (⟨r.1.size, arenaFill blob.mem tiles r.2 r.1.cpu⟩, r.2 + need c K N, (placed tsz r.2 tiles).map Prod.fst)

/-- The loop state of a consolidating import: the memories of the `nOwn` chunks, size and fill of the last of them, and
chunk and place of the tiles so far. -/
structure Filling where
  nOwn : Nat
  mem : Nat → Bytes
  csz : Nat
  coff : Nat
  boff : Nat
  Bb : List (Nat × Nat)

/-- A new chunk where the tile does not fit into the last one. -/
def Filling.room (s : Filling) (chunk : Nat → Option Bytes) (need chunkCap ts : Nat) : Option Filling :=
  if s.nOwn = 0 ∨ s.csz < s.coff + ts then
    (chunk s.nOwn).map fun b =>
      { s with
        nOwn := s.nOwn + 1
        mem := Function.update s.mem s.nOwn b
        csz := max (min (need - s.boff) chunkCap) ts
        coff := 0 }
  else some s

/-- The tile is copied to the last chunk. -/
def Filling.put (s : Filling) (src : Bytes) (t : Tile) : Filling :=
  { s with
    mem := Function.update s.mem (s.nOwn - 1)
      (memcpy (s.mem (s.nOwn - 1)) s.coff (fun j => src (orkPackHdrBytes + s.boff + j)) (raw t))
    coff := s.coff + tsz t
    boff := s.boff + tsz t
    Bb := s.Bb ++ [(s.nOwn - 1, s.coff)] }

def consolidate (chunk : Nat → Option Bytes) (need chunkCap : Nat) (src : Bytes) : List Tile → Filling → Option Filling
  | [], s => some s
  | t :: ts, s => do
    let s ← s.room chunk need chunkCap (tsz t)
    consolidate chunk need chunkCap src ts (s.put src t)

/-- What the kernel and the host have for an import. -/
structure ImportEnv where
  heap : Bool
  consolidate : Bool
  chunkCap : Nat
  chunk : Nat → Option Bytes
  buf : Nat → Option Bytes

/-- `ork_i4_mm_load_import`: the bytes of the tiles. Where a chunk is not granted, each tile gets a buffer of its own. -/
def orkI4MmLoadImport (c : OrkNpu) (e : ImportEnv) (K N : Nat) (blob : Blob4) (n : Nat) : Option (List Bytes) :=
  if deviceAccepts c K N blob n = false ∨ e.heap = false then none
  else
    let filled := if e.consolidate then
        consolidate e.chunk (need c K N) e.chunkCap blob.mem (geom c K N).tiles ⟨0, fun _ _ => 0, 0, 0, 0, []⟩
      else none
    match filled with
    | some s => some (s.Bb.map fun v j => s.mem v.1 (v.2 + j))
    | none => copyRecords tsz raw blob.mem e.buf 0 orkPackHdrBytes (geom c K N).tiles

/-! ### What a tile holds -/

/-- A tile as the dump and the packer leave it. -/
def image (N : Nat) (B : Nat → Int8) (t : Tile) : Bytes := tileI4Bslice N B 0 t fun _ => 0

/-- Whole blocks of 32 rows and 64 columns. -/
structure Blocked4 (t : Tile) : Prop where
  Kp : 32 ∣ t.Kp
  Nc : 64 ∣ t.Nc

section

variable {N : Nat} {B : Nat → Int8} {t : Tile}

theorem raw_le_tsz (t : Tile) : raw t ≤ tsz t := le_pgup _

theorem Blocked4.two_mul_raw (h : Blocked4 t) : 2 * raw t = t.Kp * t.Nc := by
  have h2 : 2 ∣ t.Kp * t.Nc := dvd_mul_of_dvd_left (dvd_trans (by decide) h.Kp) t.Nc
  exact Nat.mul_div_cancel' h2

theorem Blocked4.mem_nibbles (h : Blocked4 t) {x : Nat × Nat} : x ∈ nibbles t N ↔ ∃ k < t.Kp, ∃ n < t.Nc,
    x = (wIndex 64 t.Kp k n, (t.k0 + k) * N + (t.n0 + n)) := by
  obtain ⟨hKp, hNc⟩ := h
  unfold nibbles wIndex
  simp only [List.mem_flatMap, List.mem_map, List.mem_range]
  constructor
  · rintro ⟨nb, hnb, kt, hkt, nl, hnl, kk, hkk, rfl⟩
    refine ⟨kt * 32 + kk, by omega, nb * 64 + nl, by omega, ?_⟩
    obtain ⟨hk, hk'⟩ := digits_div_mod hkk kt
    obtain ⟨hn, hn'⟩ := digits_div_mod hnl nb
    rw [hk, hk', hn, hn', Nat.add_assoc t.k0, Nat.add_assoc t.n0]
    refine Prod.ext ?_ rfl
    dsimp only
    ring
  · rintro ⟨k, hk, n, hn, rfl⟩
    refine ⟨n / 64, by omega, k / 32, by omega, n % 64, by omega, k % 32, by omega, ?_⟩
    rw [Nat.add_assoc t.k0, Nat.add_assoc t.n0, Nat.div_add_mod', Nat.div_add_mod']
    refine Prod.ext ?_ rfl
    dsimp only
    ring

theorem Blocked4.idx_lt (h : Blocked4 t) {x : Nat × Nat} (hx : x ∈ nibbles t N) : x.1 < 2 * raw t := by
  obtain ⟨k, hk, n, hn, rfl⟩ := h.mem_nibbles.mp hx
  rw [h.two_mul_raw]
  exact wIndex_lt (by decide) h.Kp h.Nc hk hn

theorem Blocked4.idx_inj (h : Blocked4 t) {x y : Nat × Nat} (hx : x ∈ nibbles t N) (hy : y ∈ nibbles t N)
    (hidx : x.1 = y.1) : x = y := by
  obtain ⟨k, hk, n, hn, rfl⟩ := h.mem_nibbles.mp hx
  obtain ⟨k', hk', n', hn', rfl⟩ := h.mem_nibbles.mp hy
  obtain ⟨rfl, rfl⟩ := wIndex_inj (by decide) h.Kp hk hk' hidx
  rfl

/-- Nibble `idx` of a tile is the code the un-tiler puts it back to. -/
theorem Blocked4.image_nibble (h : Blocked4 t) {x : Nat × Nat} (hx : x ∈ nibbles t N) :
    nibbleAt (image N B t) x.1 = low4 (B x.2) := by
  refine orNibbles.of_mem (.inl ?_) (List.mem_map.mpr ⟨x, hx, ?_⟩) fun w hw hidx => ?_
  · have hzero : memset (fun _ => 0) 0 (raw t) = fun _ => 0 := funext fun p => ite_self _
    rw [hzero]
    exact nibbleAt_zero _
  · rw [Nat.mul_zero, Nat.zero_add]
  · obtain ⟨y, hy, rfl⟩ := List.mem_map.mp hw
    have hxy : y.1 = x.1 := by
      dsimp only at hidx
      omega
    rw [h.idx_inj hy hx hxy]

/-- The tile stands where the dump wrote it, with zeros up to the end of its page. -/
theorem tileI4Bslice_in (off : Nat) (m : Bytes) {j : Nat} (hj : j < tsz t) :
    tileI4Bslice N B off t (memset m off (tsz t)) (off + j) = image N B t j := by
  have hshift := congrFun (orNibbles.shift (memset (memset m off (tsz t)) off (raw t)) off
    ((nibbles t N).map fun p => (p.1, low4 (B p.2)))) j
  rw [List.map_map] at hshift
  refine hshift.trans ?_
  unfold image tileI4Bslice
  simp only [Nat.mul_zero, Nat.zero_add]
  refine orNibbles.byte_congr ?_
  unfold memset
  split
  · split <;> rfl
  · rw [if_pos (by omega), ite_self]

/-- Nothing else is written. -/
theorem Blocked4.tileI4Bslice_out (h : Blocked4 t) (off : Nat) (m : Bytes) {p : Nat} (hp : p < off ∨ off + tsz t ≤ p) :
    tileI4Bslice N B off t (memset m off (tsz t)) p = m p := by
  have hraw := raw_le_tsz t
  refine (orNibbles.of_byte_ne fun w hw => ?_).trans ?_
  · obtain ⟨x, hx, rfl⟩ := List.mem_map.mp hw
    have := h.idx_lt hx
    dsimp only
    omega
  · unfold memset
    rw [if_neg (by omega), if_neg (by omega)]

end

end OrkDriver.I4.Container
