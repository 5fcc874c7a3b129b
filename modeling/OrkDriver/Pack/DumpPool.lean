import OrkDriver.Core.ParallelFor
import OrkDriver.Pack.Import

/-!
The two int8 CPU dumps of `npu/i8/pack.c` byte by byte: the one whose tile rows the worker pool writes, and the
single-threaded one.
-/

namespace OrkDriver.Pack

open OrkDriver.Lib OrkDriver.Npu OrkDriver.Core

/-! ### The header page -/

/-- The words of `ork_pack_hdr`. -/
def PackHdr.words (h : PackHdr) : List UInt32 :=
  [h.magic, h.fmt, h.capid, h.dtype, .ofNat h.K, .ofNat h.N, .ofNat h.hdrBytes, h.flags]

/-- Byte `p` of the page `orki_pack_stamp` writes: the words, low byte first, up to 15 characters of the id, zeros. -/
def PackHdr.byte (h : PackHdr) (p : Nat) : Int8 :=
  if p < 32 then (UInt8.ofNat ((h.words.getD (p / 4) 0).toNat / 256 ^ (p % 4))).toInt8
  else if p < 47 then (UInt8.ofNat (h.soc.getD (p - 32) (Char.ofNat 0)).toNat).toInt8
  else 0

/-- `orki_pack_stamp` on a buffer. -/
def orkiPackStampMem (c : OrkNpu) (dt : Dt) (K N : Nat) (out : Mem) : Mem := fun p =>
  if p < orkPackHdrBytes then (orkiPackStamp c dt K N).byte p else out p

/-! ### The dumps -/

namespace Tile

/-- The cells of one block of columns. -/
def rowCells (t : Tile) (nt : Nat) : List Cell :=
  (List.range t.KT).flatMap fun kt => (List.range 32).flatMap fun nl => (List.range 32).map fun kk => ⟨nt, kt, nl, kk⟩

/-- The stores of `orki_i8_tile_range` over `[lo, hi)`. -/
def rangeStores (t : Tile) (N off : Nat) (B : Mem) (lo hi : Nat) : List (Nat × Int8) :=
  ((List.range' lo (hi - lo)).flatMap t.rowCells).map fun v => (off + v.tileIndex t.KT, B (t.elemIndex N v))

/-- `memset` of the tile, then the stores of the workers, in the order they reach memory. -/
def writePool (t : Tile) (pool : Nat) (order : List (Nat × Int8) → List (Nat × Int8)) (N off : Nat) (B out : Mem) : Mem :=
  stores (memset out off t.tsz)
    (order ((orkParallelFor pool t.NN).flatMap fun r => t.rangeStores N off B r.1 r.2))

end Tile

/-- The outer loops, with a pool. -/
def dumpTilesPool (pool : Nat) (order : Nat → List (Nat × Int8) → List (Nat × Int8)) (cap N : Nat) (B : Mem) :
    List Tile → Nat → Mem → Nat × Mem
  | [], off, out => (off, out)
  | t :: ts, off, out =>
    if cap < off + t.tsz then (0, out)
    else dumpTilesPool pool order cap N B ts (off + t.tsz) (t.writePool pool (order off) N off B out)

/-- `ork_i8_w_dump_cpu`: what it returns, and the buffer afterwards. -/
def orkI8WDumpCpu (c : OrkNpu) (pool : Nat) (order : Nat → List (Nat × Int8) → List (Nat × Int8)) (K N : Nat) (B : Mem)
    (out : Option Mem) (cap : Nat) : Nat × Option Mem :=
  if K % 32 ≠ 0 ∨ N % 32 ≠ 0 then (0, out)
  else match out with
    | none => (orkPackHdrBytes + bytes (geom c K N).tiles, none)
    | some m =>
        if cap < orkPackHdrBytes then (0, some m)
        else
          let r := dumpTilesPool pool order cap N B (geom c K N).tiles orkPackHdrBytes (orkiPackStampMem c .i8 K N m)
          (r.1, some r.2)

/-- `ork_i8_w_dump_cpu_st`. -/
def orkI8WDumpCpuSt (c : OrkNpu) (K N : Nat) (B : Mem) (out : Option Mem) (cap : Nat) : Nat × Option Mem :=
  if K % 32 ≠ 0 ∨ N % 32 ≠ 0 then (0, out)
  else match out with
    | none => (bytes (geom c K N).tiles, none)
    | some m =>
        let r := dumpTiles cap N B (geom c K N).tiles 0 m
        (r.1, some r.2)

/-! ### The header read back -/

theorem byte_toNat (h : PackHdr) {i j : Nat} (hi : i < 8) (hj : j < 4) :
    (h.byte (4 * i + j)).toUInt8.toUInt32.toNat = (h.words.getD i 0).toNat / 256 ^ j % 256 := by
  unfold PackHdr.byte
  rw [if_pos (by omega), show (4 * i + j) / 4 = i by omega, show (4 * i + j) % 4 = j by omega]
  simp

/-- The bytes of a word, put together again. -/
theorem pageWord_eq {m : Mem} {h : PackHdr} {i : Nat} (hi : i < 8) (hm : ∀ j < 4, m (4 * i + j) = h.byte (4 * i + j)) :
    pageWord m i = h.words.getD i 0 := by
  have hbyte : ∀ j < 4, (m (4 * i + j)).toUInt8.toUInt32.toNat = (h.words.getD i 0).toNat / 256 ^ j % 256 := by
    intro j hj
    rw [hm j hj, byte_toNat h hi hj]
  have hlt := UInt32.toNat_lt (h.words.getD i 0)
  have h0 := hbyte 0 (by decide)
  have h1 := hbyte 1 (by decide)
  have h2 := hbyte 2 (by decide)
  have h3 := hbyte 3 (by decide)
  unfold pageWord
  apply UInt32.toNat_inj.mp
  simp only [List.foldl_cons, List.foldl_nil, UInt32.toNat_add, UInt32.toNat_mul, h0, h1, h2, h3]
  simp only [UInt32.reduceToNat]
  omega

/-- A page that was stamped reads as the header. -/
theorem readHdr_stamp {c : OrkNpu} (hc : c.soc ∈ socTable) (dt : Dt) {K N : Nat} (hK : K < 2 ^ 31) (hN : N < 2 ^ 31)
    {m : Mem} (hm : ∀ p < orkPackHdrBytes, m p = (orkiPackStamp c dt K N).byte p) :
    readHdr m = orkiPackStamp c dt K N := by
  have hword : ∀ i < 8, pageWord m i = (orkiPackStamp c dt K N).words.getD i 0 := fun i hi =>
    pageWord_eq hi fun j hj => hm _ (by unfold orkPackHdrBytes; omega)
  have hsoc : (List.range 16).map (fun i => Char.ofNat (m (32 + i)).toUInt8.toNat) =
      (List.range 16).map fun i => if i < 15 then c.soc.id.getD i (Char.ofNat 0) else Char.ofNat 0 := by
    refine List.map_congr_left fun i hi => ?_
    rw [List.mem_range] at hi
    rw [hm _ (by unfold orkPackHdrBytes; omega)]
    unfold PackHdr.byte
    rw [if_neg (by omega), Nat.add_sub_cancel_left]
    by_cases h15 : i < 15
    · rw [if_pos (by omega), if_pos h15]
      have hchars : ∀ s ∈ socTable, ∀ i < 15, Char.ofNat
          (UInt8.ofNat (s.id.getD i (Char.ofNat 0)).toNat).toInt8.toUInt8.toNat = s.id.getD i (Char.ofNat 0) := by
        decide
      exact hchars _ hc i h15
    · rw [if_neg (by omega), if_neg h15]
      decide
  have hid : ∀ s ∈ socTable, ((List.range 16).map fun i => if i < 15 then s.id.getD i (Char.ofNat 0)
      else Char.ofNat 0).takeWhile (· ≠ Char.ofNat 0) = s.id := by decide
  unfold readHdr
  rw [hword 0 (by decide), hword 1 (by decide), hword 2 (by decide), hword 3 (by decide), hword 4 (by decide),
    hword 5 (by decide), hword 6 (by decide), hword 7 (by decide), hsoc, hid c.soc hc]
  have hnat : ∀ {x : Nat}, x < 2 ^ 31 → (UInt32.ofNat x).toNat = x := by
    intro x hx
    rw [UInt32.toNat_ofNat', Nat.mod_eq_of_lt (by omega)]
  unfold orkiPackStamp
  simp only [PackHdr.words, List.getD_cons_zero, List.getD_cons_succ, hnat hK, hnat hN]
  rfl

/-! ### The pool -/

namespace Tile

/-- Together the workers run the loops of the whole tile. -/
theorem workers_cells (t : Tile) (N off : Nat) (B : Mem) (pool : Nat) :
    ((orkParallelFor pool t.NN).flatMap fun r => t.rangeStores N off B r.1 r.2) =
      t.cells.map fun v => (off + v.tileIndex t.KT, B (t.elemIndex N v)) := by
  have hrows : t.cells = (workerRows pool t.NN).flatMap t.rowCells := by
    rw [workerRows_eq]
    rfl
  rw [hrows]
  unfold workerRows rangeStores
  rw [List.flatMap_assoc, List.map_flatMap]

/-- No two workers write one byte, so what a tile holds does not depend on the pool or on the order of the stores. -/
theorem writePool_eq (t : Tile) (pool : Nat) {order : List (Nat × Int8) → List (Nat × Int8)}
    (horder : ∀ l, (order l).Perm l) (N off : Nat) (B out : Mem) : t.writePool pool order N off B out = t.write N off B out := by
  unfold writePool write
  rw [workers_cells]
  refine (stores.perm _ (horder _).symm fun w hw v hv heq => ?_).symm
  obtain ⟨a, ha, rfl⟩ := List.mem_map.mp hw
  obtain ⟨b, hb, rfl⟩ := List.mem_map.mp hv
  rw [tileIndex_inj hb ha (Nat.add_left_cancel heq)]

end Tile

theorem dumpTilesPool_eq (pool : Nat) {order : Nat → List (Nat × Int8) → List (Nat × Int8)}
    (horder : ∀ i l, (order i l).Perm l) (cap N : Nat) (B : Mem) (ts : List Tile) (off : Nat) (out : Mem) :
    dumpTilesPool pool order cap N B ts off out = dumpTiles cap N B ts off out := by
  induction ts generalizing off out with
  | nil => rfl
  | cons t ts ih => rw [dumpTilesPool, dumpTiles, t.writePool_eq pool (horder off), ih]

/-! ### The dumps compared -/

/-- A dump writes nothing before the offset it starts at. -/
theorem dumpTiles_before {cap N : Nat} {B : Mem} {ts : List Tile} {off : Nat} (out : Mem) {p : Nat} (hp : p < off) :
    (dumpTiles cap N B ts off out).2 p = out p := by
  induction ts generalizing off out with
  | nil => rfl
  | cons t ts ih =>
      rw [dumpTiles]
      split_ifs with hfull
      · rfl
      · have hwrite : t.write N off B out p = out p := by
          have hset : memset out off t.tsz p = out p := by
            unfold memset
            rw [if_neg (by omega)]
          rw [← hset]
          refine stores.of_forall_ne fun w hw => ?_
          obtain ⟨u, -, rfl⟩ := List.mem_map.mp hw
          dsimp only
          omega
        rw [ih _ (by omega), hwrite]

/-- Behind `a` a dump depends on what was behind `a`. -/
theorem dumpTiles_congr {cap N a : Nat} {B : Mem} {ts : List Tile} {off : Nat} {out out' : Mem}
    (h : ∀ p, a ≤ p → out p = out' p) : (dumpTiles cap N B ts off out).1 = (dumpTiles cap N B ts off out').1 ∧
      ∀ p, a ≤ p → (dumpTiles cap N B ts off out).2 p = (dumpTiles cap N B ts off out').2 p := by
  induction ts generalizing off out out' with
  | nil => exact ⟨rfl, h⟩
  | cons t ts ih =>
      rw [dumpTiles, dumpTiles]
      split_ifs with hfull
      · exact ⟨rfl, h⟩
      · refine ih fun p hp => stores.congr ?_
        unfold memset
        rw [h p hp]

/-- The buffer the pooled dump leaves is the blob of `i8WDumpCpu`. -/
theorem orkI8WDumpCpu_blob {c : OrkNpu} (hc : c.soc ∈ socTable) {K N : Nat} (hK : K < 2 ^ 31) (hN : N < 2 ^ 31)
    (pool : Nat) {order : Nat → List (Nat × Int8) → List (Nat × Int8)} (horder : ∀ i l, (order i l).Perm l) (B m : Mem)
    (hdr : PackHdr) {cap : Nat} (hcap : orkPackHdrBytes ≤ cap) (hdims : 32 ∣ K ∧ 32 ∣ N) :
    ∃ m', orkI8WDumpCpu c pool order K N B (some m) cap = ((i8WDumpCpu c K N B ⟨hdr, m⟩ cap).1, some m') ∧
      readHdr m' = (i8WDumpCpu c K N B ⟨hdr, m⟩ cap).2.hdr ∧
      ∀ p, orkPackHdrBytes ≤ p → m' p = (i8WDumpCpu c K N B ⟨hdr, m⟩ cap).2.mem p := by
  have hshape : ¬ (K % 32 ≠ 0 ∨ N % 32 ≠ 0) := by omega
  have hstamp : ∀ p, orkPackHdrBytes ≤ p → orkiPackStampMem c .i8 K N m p = m p := fun p hp => if_neg (Nat.not_lt.mpr hp)
  obtain ⟨hsize, hbody⟩ := @dumpTiles_congr cap N _ B (geom c K N).tiles orkPackHdrBytes _ m hstamp
  unfold orkI8WDumpCpu i8WDumpCpu
  rw [if_neg hshape, if_neg hshape]
  dsimp only
  rw [if_neg (Nat.not_lt.mpr hcap), if_neg (Nat.not_lt.mpr hcap), dumpTilesPool_eq pool horder]
  refine ⟨_, by rw [hsize], readHdr_stamp hc .i8 hK hN fun p hp => ?_, hbody⟩
  rw [dumpTiles_before _ hp]
  unfold orkiPackStampMem
  rw [if_pos hp]

/-- The zero weight leaves a zero buffer. -/
theorem dumpTiles_zero (cap N : Nat) (ts : List Tile) (off : Nat) :
    (dumpTiles cap N (fun _ => 0) ts off fun _ => 0).2 = fun _ => 0 := by
  induction ts generalizing off with
  | nil => rfl
  | cons t ts ih =>
      rw [dumpTiles]
      split_ifs with hfull
      · rfl
      · have hwrite : t.write N off (fun _ => 0) (fun _ => 0) = fun _ => 0 := by
          have hset : memset (fun _ => 0) off t.tsz = fun _ => 0 := by
            funext p
            unfold memset
            split_ifs <;> rfl
          unfold Tile.write
          rw [hset]
          funext p
          by_cases hp : ∃ w ∈ t.cells.map fun v => (off + v.tileIndex t.KT, (0 : Int8)), w.1 = p
          · refine stores.of_mem hp fun w hw _ => ?_
            obtain ⟨u, -, rfl⟩ := List.mem_map.mp hw
            rfl
          · exact stores.of_forall_ne fun w hw heq => hp ⟨w, hw, heq⟩
        rw [hwrite]
        exact ih _

/-- A tile has a page at least. -/
theorem Geom.page_le_tsz {g : Geom} (hKS : 0 < g.KS) {t : Tile} (ht : t ∈ g.tiles) : 4096 ≤ t.tsz := by
  obtain ⟨ns, ks, hns, hks, rfl⟩ := mem_tiles.mp ht
  have hNMAX : 0 < g.NMAX := by
    rcases Nat.eq_zero_or_pos g.NMAX with h0 | h0
    · unfold Sn pieces at hns
      rw [h0, Nat.div_zero] at hns
      exact absurd hns (Nat.not_lt_zero ns)
    · exact h0
  have hpos : 0 < (g.tile ns ks).Kp * (g.tile ns ks).Nc :=
    Nat.mul_pos (pieceLen_pos hKS hks) (pieceLen_pos hNMAX hns)
  exact Nat.le_of_dvd (hpos.trans_le (le_pgup _)) (dvd_pgup _)

/-- A buffer of less than a page stays as it was. -/
theorem dumpTiles_short {g : Geom} (hKS : 0 < g.KS) {cap : Nat} (hcap : cap < 4096) (N : Nat) (B out : Mem) :
    dumpTiles cap N B g.tiles 0 out = (0, out) := by
  have hpage : ∀ t ∈ g.tiles, 4096 ≤ t.tsz := fun t ht => Geom.page_le_tsz hKS ht
  cases hts : g.tiles with
  | nil => rfl
  | cons t ts =>
      have := hpage t (hts ▸ List.mem_cons_self)
      rw [dumpTiles, if_pos (by omega)]

/-- The single-threaded dump is the pooled one: same size, same bytes, whatever the pool does. -/
def SameDump (c : OrkNpu) (K N cap : Nat) (null : Bool) : Prop :=
  ∀ (pool : Nat) (order : Nat → List (Nat × Int8) → List (Nat × Int8)), (∀ i l, (order i l).Perm l) →
    ∀ (B : Mem) (out : Option Mem), out.isNone = null →
      orkI8WDumpCpuSt c K N B out cap = orkI8WDumpCpu c pool order K N B out cap

/-- The pooled dump does not depend on the pool. -/
theorem orkI8WDumpCpu_pool (c : OrkNpu) (pool pool' : Nat) {order order' : Nat → List (Nat × Int8) → List (Nat × Int8)}
    (horder : ∀ i l, (order i l).Perm l) (horder' : ∀ i l, (order' i l).Perm l) (K N : Nat) (B : Mem) (out : Option Mem)
    (cap : Nat) : orkI8WDumpCpu c pool order K N B out cap = orkI8WDumpCpu c pool' order' K N B out cap := by
  unfold orkI8WDumpCpu
  simp only [dumpTilesPool_eq _ horder, dumpTilesPool_eq _ horder']

theorem sameDump_buffer_iff (c : OrkNpu) (K N cap : Nat) :
    SameDump c K N cap false ↔ K % 32 ≠ 0 ∨ N % 32 ≠ 0 ∨ cap < orkPackHdrBytes := by
  by_cases hdims : K % 32 ≠ 0 ∨ N % 32 ≠ 0
  · refine iff_of_true (fun pool order _ B out _ => ?_) (hdims.imp_right Or.inl)
    unfold orkI8WDumpCpuSt orkI8WDumpCpu
    rw [if_pos hdims, if_pos hdims]
  have hcond : (K % 32 ≠ 0 ∨ N % 32 ≠ 0 ∨ cap < orkPackHdrBytes) ↔ cap < orkPackHdrBytes := by
    rw [← or_assoc]
    exact or_iff_right hdims
  rw [hcond]
  constructor
  · intro h
    by_contra hcap
    -- the first byte of the header, against a zero
    have hfirst := h 1 (fun _ l => l) (fun _ _ => .refl _) (fun _ => 0) (some fun _ => 0) rfl
    unfold orkI8WDumpCpuSt orkI8WDumpCpu at hfirst
    rw [if_neg hdims, if_neg hdims] at hfirst
    dsimp only at hfirst
    rw [if_neg hcap, dumpTilesPool_eq 1 fun _ _ => .refl _] at hfirst
    have hbyte := congrFun (Option.some.inj (Prod.mk.inj hfirst).2) 0
    rw [dumpTiles_zero, dumpTiles_before _ (by decide)] at hbyte
    revert hbyte
    unfold orkiPackStampMem
    rw [if_pos (by decide)]
    change ¬ (0 : Int8) = (UInt8.ofNat (orkPackMagic.toNat / 256 ^ (0 % 4))).toInt8
    decide
  · intro hcap pool order horder B out hout
    cases out with
    | none => cases hout
    | some m =>
        unfold orkI8WDumpCpuSt orkI8WDumpCpu
        rw [if_neg hdims, if_neg hdims]
        dsimp only
        rw [if_pos hcap, dumpTiles_short c.int8Ks_spec.1 hcap]

theorem sameDump_null_iff (c : OrkNpu) (K N cap : Nat) : SameDump c K N cap true ↔ K % 32 ≠ 0 ∨ N % 32 ≠ 0 := by
  by_cases hdims : K % 32 ≠ 0 ∨ N % 32 ≠ 0
  · refine iff_of_true (fun pool order _ B out _ => ?_) hdims
    unfold orkI8WDumpCpuSt orkI8WDumpCpu
    rw [if_pos hdims, if_pos hdims]
  · refine iff_of_false (fun h => ?_) hdims
    have hsize := h 1 (fun _ l => l) (fun _ _ => .refl _) (fun _ => 0) none rfl
    unfold orkI8WDumpCpuSt orkI8WDumpCpu at hsize
    rw [if_neg hdims, if_neg hdims] at hsize
    have hbytes := (Prod.mk.inj hsize).1
    unfold orkPackHdrBytes at hbytes
    omega

/-- What a pool leaves is what any other leaves, and the single-threaded dump is the pooled one exactly where both refuse
the shape, or the buffer is smaller than the header page that only the pooled one writes. -/
theorem dump_cpu_st_iff (c : OrkNpu) (K N cap : Nat) :
    (SameDump c K N cap false ↔ K % 32 ≠ 0 ∨ N % 32 ≠ 0 ∨ cap < orkPackHdrBytes) ∧
    (SameDump c K N cap true ↔ K % 32 ≠ 0 ∨ N % 32 ≠ 0) ∧
    ∀ (pool pool' : Nat) (order order' : Nat → List (Nat × Int8) → List (Nat × Int8)), (∀ i l, (order i l).Perm l) →
      (∀ i l, (order' i l).Perm l) → ∀ (B : Mem) (out : Option Mem),
        orkI8WDumpCpu c pool order K N B out cap = orkI8WDumpCpu c pool' order' K N B out cap :=
  ⟨sameDump_buffer_iff c K N cap, sameDump_null_iff c K N cap, fun pool pool' _ _ horder horder' B out =>
    orkI8WDumpCpu_pool c pool pool' horder horder' K N B out cap⟩

/-- One worker, and three whose stores arrive in reverse. -/
theorem dump_cpu_st_reversed : orkI8WDumpCpu ⟨-1, socRk3588, 0⟩ 3 (fun _ l => l.reverse) 64 96 (fun i => i.toInt8)
    (some fun _ => 0) 16384 = orkI8WDumpCpu ⟨-1, socRk3588, 0⟩ 1 (fun _ l => l) 64 96 (fun i => i.toInt8)
    (some fun _ => 0) 16384 :=
  (dump_cpu_st_iff ⟨-1, socRk3588, 0⟩ 64 96 16384).2.2 3 1 (fun _ l => l.reverse) (fun _ l => l)
    (fun _ l => l.reverse_perm) (fun _ _ => .refl _) _ _

/-- 32 by 32 into two pages: 4096 bytes without a header, 8192 with it. -/
theorem dump_cpu_st_short : ¬ SameDump ⟨-1, socRk3588, 0⟩ 32 32 8192 false := by
  intro h
  have hsize := congrArg Prod.fst (h 1 (fun _ l => l) (fun _ _ => .refl _) (fun _ => 0) (some fun _ => 0) rfl)
  revert hsize
  decide

end OrkDriver.Pack
