import OrkDriver.Lib.Records
import OrkDriver.Mem.Buffers
import OrkDriver.Run.Weight

/-!
The two ways `orki_pack` (`npu.c`) allots the K-sliced tiles of a weight: every tile a buffer of its own, or
(`ORK_CONSOLIDATE_I8`) all of them views of one; and `ork_w_dump` of what comes of it.
-/

namespace OrkDriver.Run

open OrkDriver.Lib OrkDriver.Npu OrkDriver.Pack OrkDriver.Mem

variable {R : Type*}

/-! ### The tiles of a weight -/

/-- What the pack finds: `ORK_WEIGHT_SRAM` and `ORK_F16_IMPORT_W`, the kernel's answers for the one buffer and for the
`i`-th tile's, the answers to MEM_DESTROY, and what a new buffer holds. -/
structure TileEnv (R : Type*) where
  weightSram : Bool
  f16ImportW : Bool
  own : CreateOutcome
  tile : Nat → CreateOutcome
  imp : Nat → ImportOutcome
  destroyed : Nat → Bool
  fresh : Nat → Nat → R

/-- `struct buf` of a tile, with the memory from `cpu` on. -/
structure View (R : Type*) where
  handle : Nat
  off : Nat
  size : Nat
  cpu : Nat → R

/-- The K-sliced tiles of a packed weight, and `own_buf` where `own_buf_valid`. -/
structure PackedTiles (R : Type*) where
  Bb : List (View R)
  ownBuf : Option Buf

/-- The loops that tile into the one buffer, from what it holds. -/
def ownMem (N : Nat) (B : Nat → R) (ts : List Tile) (m : Nat → R) : Nat → R :=
  (placed Tile.tsz 0 ts).foldl (fun m p =>
    stores m ((i8TileRange p.2.NN p.2.KT p.2.k0 p.2.n0 N B).map fun w => (p.1 + w.1, w.2))) m

/-- The views of the one buffer. -/
def ownViews (own : Buf) (m : Nat → R) (ts : List Tile) : List (View R) :=
  (placed Tile.tsz 0 ts).map fun p => ⟨own.handle, p.1, p.2.tsz, fun j => m (p.1 + j)⟩

/-- The loops that allot and fill every tile; when one is not granted, those before it are destroyed. -/
def perTile (v : BufEnv) (a : TileEnv R) (domain : Int) (dt : Dt) (N : Nat) (B : Nat → R) :
    List Tile → List (Buf × (Nat → R)) → Device → Option (List (Buf × (Nat → R))) × Device
  | [], made, d => (some made, d)
  | t :: ts, made, d =>
    let size := t.Kp * t.Nc * esz dt
    let r := if dt = .f16 ∧ a.f16ImportW = true then orkiBimportF v d size domain (a.imp made.length)
      else orkiBcreate v d size a.weightSram domain (a.tile made.length)
    if r.1.cpu = false then (none, made.foldl (fun d b => (orkiBdestroy d b.1 (a.destroyed b.1.handle)).2) r.2)
    else perTile v a domain dt N B ts (made ++ [(r.1, stores (a.fresh r.1.handle) (tileStores dt t N B))]) r.2

/-- The tiles as buffers of their own. -/
def separateTiles (v : BufEnv) (a : TileEnv R) (domain : Int) (dt : Dt) (N : Nat) (B : Nat → R) (ts : List Tile)
    (d : Device) : Option (PackedTiles R) × Device :=
  let r := perTile v a domain dt N B ts [] d
  (r.1.map fun made => ⟨made.map fun b => ⟨b.1.handle, 0, b.1.size, b.2⟩, none⟩, r.2)

/-- The K-sliced tiles of `orki_pack`, with or without `ORK_CONSOLIDATE_I8`. -/
def orkiPackTiles (v : BufEnv) (consolidateI8 : Bool) (a : TileEnv R) (c : Npu.OrkNpu) (e : F16Knobs) (domain : Int) (dt : Dt) (K N : Nat)
    (B : Nat → R) (d : Device) : Option (PackedTiles R) × Device :=
  if K % 32 ≠ 0 ∨ N % ntSz dt ≠ 0 then (none, d)
  else
    let ts := (weightGeom c e dt K N).tiles
    if dt = .i8 ∧ consolidateI8 = true then
      let r := orkiBcreate v d (total Tile.tsz ts) false domain a.own
      if r.1.cpu then
        let m := ownMem N B ts (a.fresh r.1.handle)
        (some ⟨ownViews r.1 m ts, some r.1⟩, r.2)
      else separateTiles v a domain dt N B ts r.2
    else separateTiles v a domain dt N B ts d

/-! ### The dump -/

/-- The loop of `ork_w_dump` from offset `off`; size 0 is a refusal. -/
def dumpViews (cap : Nat) : List (View Int8) → Nat → Mem → Nat × Mem
  | [], off, out => (off, out)
  | b :: bs, off, out =>
    if cap < off + b.size then (0, out)
    else dumpViews cap bs (off + b.size) fun p => if off ≤ p ∧ p < off + b.size then b.cpu (p - off) else out p

/-- `ork_w_dump` of a packed int8 weight; the chip it stamps is the one detected, that of the context. -/
def orkWDump (c : Npu.OrkNpu) (K N : Nat) (w : PackedTiles Int8) (out : Blob) (cap : Nat) : Nat × Blob :=
  if cap < orkPackHdrBytes then (0, out)
  else
    let r := dumpViews cap w.Bb orkPackHdrBytes out.mem
    (r.1, ⟨orkiPackStamp c .i8 K N, r.2⟩)

/-! ### What a tile's pages hold -/

/-- The loops of the two tilers are the same. -/
theorem i8TileRange_cells (t : Tile) (N : Nat) (B : Nat → R) :
    i8TileRange t.NN t.KT t.k0 t.n0 N B = t.cells.map fun v => (v.tileIndex t.KT, B (t.elemIndex N v)) := by
  unfold i8TileRange Tile.cells
  simp only [List.map_flatMap, List.map_map]
  rfl

theorem tileStores_i8 (t : Tile) (N : Nat) (B : Nat → Int8) : stores (fun _ => 0) (tileStores .i8 t N B) = t.image N B := by
  have hcells : tileStores .i8 t N B = i8TileRange t.NN t.KT t.k0 t.n0 N B := rfl
  rw [hcells, i8TileRange_cells]
  rfl

/-- Stores moved by an offset. -/
theorem stores_shift (m : Nat → R) (l : List (Nat × R)) (off j : Nat) :
    stores m (l.map fun w => (off + w.1, w.2)) (off + j) = stores (fun j => m (off + j)) l j := by
  induction l generalizing m with
  | nil => rfl
  | cons w l ih =>
    change stores (Function.update m (off + w.1) w.2) (l.map fun w => (off + w.1, w.2)) (off + j) =
      stores (Function.update (fun j => m (off + j)) w.1 w.2) l j
    rw [ih]
    congr 1
    funext i
    by_cases hi : i = w.1
    · rw [hi, Function.update_self, Function.update_self]
    · rw [Function.update_of_ne hi, Function.update_of_ne fun h => hi (Nat.add_left_cancel h)]

/-- The one buffer holds the pages of all tiles, one after the other. -/
theorem ownMem_spec {N : Nat} {B : Nat → Int8} {ts : List Tile} (hts : ∀ t ∈ ts, t.Blocked) {off : Nat} {m : Nat → Int8}
    (hzero : ∀ p, off ≤ p → m p = 0) :
    let m' := (placed Tile.tsz off ts).foldl (fun m p =>
      stores m ((i8TileRange p.2.NN p.2.KT p.2.k0 p.2.n0 N B).map fun w => (p.1 + w.1, w.2))) m
    (∀ p ∈ placed Tile.tsz off ts, ∀ j < p.2.tsz, m' (p.1 + j) = p.2.image N B j) ∧ ∀ p < off, m' p = m p := by
  induction ts generalizing off m with
  | nil => exact ⟨fun p h => absurd h List.not_mem_nil, fun _ _ => rfl⟩
  | cons t ts ih =>
    have ht := hts t List.mem_cons_self
    have hcells := i8TileRange_cells t N B
    have hinside : ∀ w ∈ (i8TileRange t.NN t.KT t.k0 t.n0 N B).map (fun w => (off + w.1, w.2)),
        off ≤ w.1 ∧ w.1 < off + t.tsz := by
      intro w hw
      obtain ⟨x, hx, rfl⟩ := List.mem_map.mp hw
      rw [hcells] at hx
      obtain ⟨u, hu, rfl⟩ := List.mem_map.mp hx
      have := Tile.tileIndex_lt_tsz ht hu
      dsimp only
      omega
    have hbehind : ∀ p, off + t.tsz ≤ p →
        stores m ((i8TileRange t.NN t.KT t.k0 t.n0 N B).map fun w => (off + w.1, w.2)) p = 0 := by
      intro p hp
      rw [stores.of_forall_ne fun w hw heq => by have := hinside w hw; omega]
      exact hzero p (by omega)
    obtain ⟨hin, hout⟩ := ih (fun u hu => hts u (List.mem_cons_of_mem _ hu)) hbehind
    refine ⟨fun p hp j hj => ?_, fun p hp => ?_⟩
    · rcases List.mem_cons.mp hp with rfl | hp
      · refine (hout (off + j) (Nat.add_lt_add_left hj off)).trans ?_
        have hpage : (fun j => m (off + j)) = fun _ => 0 := funext fun j => hzero _ (Nat.le_add_right _ _)
        rw [stores_shift, hpage, hcells]
        rfl
      · exact hin p hp j hj
    · refine (hout p (by omega)).trans (stores.of_forall_ne fun w hw heq => ?_)
      have := hinside w hw
      omega

/-! ### What a created buffer is -/

theorem orkiBcreate_made {v : BufEnv} {d : Device} {size : Nat} {sram : Bool} {domain : Int} {o : CreateOutcome}
    (h : (orkiBcreate v d size sram domain o).1.cpu = true) :
    (orkiBcreate v d size sram domain o).1.size = orkiPgup size := by
  revert h
  unfold orkiBcreate
  cases d.orkIovaReserve v (orkDom v domain) (orkiPgup size) with
  | none => exact fun h => absurd h Bool.false_ne_true
  | some d =>
    dsimp only
    cases createFate v (orkiPgup size) sram o with
    | refused => exact fun h => absurd h Bool.false_ne_true
    | stray => exact fun h => absurd h Bool.false_ne_true
    | strayHeld => exact fun h => absurd h Bool.false_ne_true
    | made => exact fun _ => rfl

/-- `size_t` does not wrap. -/
theorem orkiPgup_eq {n : Nat} (h : n + 4095 < 2 ^ 64) : orkiPgup n = pgup n := by
  unfold orkiPgup pgup
  rw [Nat.mod_eq_of_lt h]

/-- The elements of all tiles are those of the matrix. -/
theorem total_area {g : Geom} (hKS : 0 < g.KS) (hNMAX : 0 < g.NMAX) : total (fun t => t.Kp * t.Nc) g.tiles = g.K * g.N := by
  have hrow : ∀ ns, total (fun t => t.Kp * t.Nc) (g.tileRow ns) = g.K * pieceLen g.N g.NMAX ns := by
    intro ns
    have harea : (g.tileRow ns).map (fun t => t.Kp * t.Nc) =
        (List.range g.Sk).map fun ks => pieceLen g.N g.NMAX ns * pieceLen g.K g.KS ks := by
      unfold Geom.tileRow
      rw [List.map_map]
      exact List.map_congr_left fun ks _ => Nat.mul_comm _ _
    unfold total
    rw [harea, List.sum_map_mul_left, Nat.mul_comm]
    exact congrArg (· * pieceLen g.N g.NMAX ns) (sum_pieceLen hKS)
  have hall : ∀ l : List Nat, total (fun t => t.Kp * t.Nc) (l.flatMap g.tileRow) =
      (l.map fun ns => g.K * pieceLen g.N g.NMAX ns).sum := by
    intro l
    induction l with
    | nil => rfl
    | cons ns l ih => rw [List.flatMap_cons, total_append, hrow, ih, List.map_cons, List.sum_cons]
  unfold Geom.tiles
  rw [hall, List.sum_map_mul_left]
  exact congrArg (g.K * ·) (sum_pieceLen hNMAX)

/-- Padding at most quadruples a tile of whole blocks. -/
theorem tsz_le {t : Tile} (ht : t.Blocked) : t.tsz ≤ 4 * (t.Kp * t.Nc) := by
  have hsize := ht.size_eq
  unfold Tile.tsz pgup
  omega

theorem total_tsz_le {g : Geom} (hg : g.Aligned) : total Tile.tsz g.tiles ≤ 4 * (g.K * g.N) := by
  have hall : ∀ ts : List Tile, (∀ t ∈ ts, t.Blocked) → total Tile.tsz ts ≤ 4 * total (fun t => t.Kp * t.Nc) ts := by
    intro ts
    induction ts with
    | nil => exact fun _ => le_rfl
    | cons t ts ih =>
      intro hts
      have ht := tsz_le (hts t List.mem_cons_self)
      have hrest := ih fun u hu => hts u (List.mem_cons_of_mem _ hu)
      rw [total_cons, total_cons]
      omega
  rw [← total_area hg.KS_pos hg.NMAX_pos]
  exact hall g.tiles fun t ht => hg.blocked_of_mem ht

/-- `int` dimensions are small enough for `size_t`. -/
theorem sizes_fit {g : Geom} (hg : g.Aligned) (hK : g.K < 2 ^ 31) (hN : g.N < 2 ^ 31) :
    total Tile.tsz g.tiles + 4095 < 2 ^ 64 ∧ ∀ t ∈ g.tiles, t.Kp * t.Nc + 4095 < 2 ^ 64 := by
  have hmul : g.K * g.N ≤ (2 ^ 31 - 1) * (2 ^ 31 - 1) := Nat.mul_le_mul (by omega) (by omega)
  have htotal := total_tsz_le hg
  refine ⟨by omega, fun t ht => ?_⟩
  obtain ⟨o, ho⟩ := exists_mem_placed Tile.tsz ht 0
  have hle := (bounds_of_mem_placed ho).2
  have hpage : t.Kp * t.Nc ≤ t.tsz := le_pgup _
  omega

end OrkDriver.Run
