import OrkDriver.I4.Container
import OrkDriver.Lib.Bump
import OrkDriver.Run.Consolidated

/-!
The two arenas of a context: `orki_warena_reserve` (`npu/core/buf.c`), which bumps through a pool of large chunks, and the
arena of `ork_i4_mm_load_arena` (`npu/i4/pack.c`), with a chunk of its own open in each domain.
-/

namespace OrkDriver.Weights

open OrkDriver.Lib OrkDriver.Npu
open OrkDriver.Pack (Tile)
open OrkDriver.Mem (orkiPgup)
open OrkDriver.I4.Container (Blob4 deviceAccepts need tsz geom)

/-! ### The code -/

/-- What a context keeps of its arenas. `sizes` are the buffers made for them, in the order they were made; `wchunk` and
`i4arena` list those of each arena, and `i4arenaCur` the one open in a domain. -/
structure Arenas where
  sizes : List Nat
  wchunk : List Nat
  wchunkOff : Nat
  i4arena : List Nat
  i4arenaCap : Nat
  i4arenaCur : Nat → Option Nat
  i4arenaOff : Nat → Nat

def Arenas.empty : Arenas :=
  { sizes := [], wchunk := [], wchunkOff := 0, i4arena := [], i4arenaCap := 0, i4arenaCur := fun _ => none,
    i4arenaOff := fun _ => 0 }

/-- A served reservation: the bytes it took of its chunk, and the views handed out. -/
structure Reservation where
  chunk : Nat
  base : Nat
  len : Nat
  views : List View

/-- `size_t` addition. -/
def addSize (a b : Nat) : Nat := (a + b) % 2 ^ 64

/-- The kernel's answer to the request for a chunk of `size` bytes, as far as the 32-bit addresses take it. -/
def granted (dma : Option Nat) (size : Nat) : Bool := dma.any fun d => d + size ≤ 2 ^ 32

/-- The test for room in the open chunk `cur`. -/
def roomIn (s : Arenas) (cur : Option Nat) (off len : Nat) : Option Nat :=
  cur.filter fun k => addSize off len ≤ s.sizes.getD k 0

/-- `orki_warena_reserve` with `ORK_WARENA_CHUNK_MB` at `mb`. -/
def orkiWarenaReserve (mb : Int) (s : Arenas) (need : Nat) (dma : Option Nat) : Option Reservation × Arenas :=
  let a := orkiPgup need
  match roomIn s s.wchunk.getLast? s.wchunkOff a with
  | some k =>
    (some { chunk := k, base := s.wchunkOff, len := a, views := [⟨k, s.wchunkOff, need⟩] },
      { s with wchunkOff := addSize s.wchunkOff a })
  | none =>
    if 64 ≤ s.wchunk.length ∨ mb ≤ 0 then (none, s)
    else
      let csz := max a (mb.toNat * 2 ^ 20 % 2 ^ 64)
      if granted dma (orkiPgup csz) then
        (some { chunk := s.sizes.length, base := 0, len := a, views := [⟨s.sizes.length, 0, need⟩] },
          { s with sizes := s.sizes ++ [orkiPgup csz], wchunk := s.wchunk ++ [s.sizes.length], wchunkOff := a })
      else (none, s)

/-- What a load finds: the dma heap, host memory for the weight, the chunk, and the growth of the chunk list. -/
structure ArenaEnv where
  heap : Bool
  host : Bool
  dma : Option Nat
  list : Bool

/-- The views of the tiles of a weight from `base` of chunk `k`. -/
def tileViews (k base : Nat) (tiles : List Tile) : List View := (placed tsz base tiles).map fun p => ⟨k, p.1, tsz p.2⟩

/-- `ork_i4_mm_load_arena` into domain `dom`, without its copies. -/
def orkI4MmLoadArenaViews (chunkCap : Nat) (s : Arenas) (v : ArenaEnv) (c : OrkNpu) (dom : Int) (K N : Nat) (blob : Blob4)
    (n : Nat) : Option Reservation × Arenas :=
  if deviceAccepts c K N blob n = false ∨ v.heap = false ∨ dom < 0 ∨ 64 ≤ dom ∨ v.host = false then (none, s)
  else
    let need := need c K N
    let d := dom.toNat
    match roomIn s (s.i4arenaCur d) (s.i4arenaOff d) need with
    | some k =>
      let off := s.i4arenaOff d
      (some { chunk := k, base := off, len := need, views := tileViews k off (geom c K N).tiles },
        { s with i4arenaOff := Function.update s.i4arenaOff d (off + need) })
    | none =>
      let csz := max need chunkCap
      if granted v.dma (orkiPgup csz) = false then (none, s)
      -- without room in the list the chunk is given back
      else if s.i4arenaCap ≤ s.i4arena.length ∧ v.list = false then (none, s)
      else
        let k := s.sizes.length
        (some { chunk := k, base := 0, len := need, views := tileViews k 0 (geom c K N).tiles },
          { s with
            sizes := s.sizes ++ [orkiPgup csz]
            i4arena := s.i4arena ++ [k]
            i4arenaCap :=
              if s.i4arenaCap ≤ s.i4arena.length then if s.i4arenaCap = 0 then 64 else s.i4arenaCap * 2 else s.i4arenaCap
            i4arenaCur := Function.update s.i4arenaCur d (some k)
            i4arenaOff := Function.update s.i4arenaOff d need })

/-! ### Runs -/

/-- The chunk sizes a process asks for: `ORK_WARENA_CHUNK_MB`, and the bytes from `ORK_IMPORT_CHUNK_MB`. -/
structure ChunkSizes where
  mb : Int
  chunkMb : Nat

/-- `chunk_mb<<20`. -/
def ChunkSizes.chunkCap (z : ChunkSizes) : Nat := z.chunkMb * 2 ^ 20 % 2 ^ 64

/-- A request to one of the arenas. The sizes are those a `size_t` and an `int` can have. -/
inductive ArenaCall
  | weight (need : Fin (2 ^ 64)) (dma : Option Nat)
  | int4 (v : ArenaEnv) (dom : Int) (K N : Fin (2 ^ 31)) (blob : Blob4) (n : Nat)

def ArenaCall.serve (z : ChunkSizes) (c : OrkNpu) (s : Arenas) : ArenaCall → Option Reservation × Arenas
  | .weight need dma => orkiWarenaReserve z.mb s need dma
  | .int4 v dom K N blob n => orkI4MmLoadArenaViews z.chunkCap s v c dom K N blob n

/-- The arenas after a list of requests, and the reservations served, oldest first. -/
def serveAll (z : ChunkSizes) (c : OrkNpu) : Arenas → List ArenaCall → List Reservation × Arenas
  | s, [] => ([], s)
  | s, e :: es =>
    let r := e.serve z c s
    let rest := serveAll z c r.2 es
    (r.1.toList ++ rest.1, rest.2)

/-- The request does not overflow a `size_t` where it stands. -/
def ArenaCall.Fits (s : Arenas) : ArenaCall → Prop
  | .weight need _ => s.wchunkOff + need + 4095 < 2 ^ 64
  | .int4 .. => True

instance (s : Arenas) : (e : ArenaCall) → Decidable (e.Fits s)
  | .weight need _ => inferInstanceAs (Decidable (s.wchunkOff + need + 4095 < 2 ^ 64))
  | .int4 .. => inferInstanceAs (Decidable True)

def FitsAll (z : ChunkSizes) (c : OrkNpu) : Arenas → List ArenaCall → Prop
  | _, [] => True
  | s, e :: es => e.Fits s ∧ FitsAll z c (e.serve z c s).2 es

/-- The chunk size of the arena a request goes to. -/
def ArenaCall.cap (z : ChunkSizes) : ArenaCall → Nat
  | .weight _ _ => z.mb.toNat * 2 ^ 20 % 2 ^ 64
  | .int4 .. => z.chunkCap

/-! ### The bump pointers behind both -/

/-- The weight arena is the pointer `none`, and the int4 arena of domain `d` the pointer `some d`. -/
def Arenas.bump (s : Arenas) (views : List View) : Bump (Option Nat) :=
  { sizes := s.sizes, cur := fun i => i.elim s.wchunk.getLast? s.i4arenaCur,
    off := fun i => i.elim s.wchunkOff s.i4arenaOff, views }

/-- What a run keeps; `capW` and `cap4` are the chunk sizes. A pointer never has more room left than those. -/
structure Arenas.Ok (capW cap4 : Nat) (s : Arenas) (views : List View) : Prop where
  bump : (s.bump views).Ok 4096
  roomW : ∀ k x, s.wchunk.getLast? = some k → s.sizes[k]? = some x → x ≤ s.wchunkOff + capW
  room4 : ∀ d k x, s.i4arenaCur d = some k → s.sizes[k]? = some x → x ≤ s.i4arenaOff d + cap4
  size_le : ∀ x ∈ s.sizes, x ≤ 2 ^ 32

theorem Arenas.ok_empty (capW cap4 : Nat) : Arenas.empty.Ok capW cap4 [] where
  bump :=
    have h : Arenas.empty.bump [] = Bump.empty := congrArg₂ (fun c o => Bump.mk [] c o [])
      (funext fun i => by cases i <;> rfl) (funext fun i => by cases i <;> rfl)
    h ▸ Bump.ok_empty
  roomW := nofun
  room4 := nofun
  size_le := nofun

theorem addSize_eq {a b : Nat} (h : a + b < 2 ^ 64) : addSize a b = a + b := Nat.mod_eq_of_lt h

theorem roomIn_eq_some {s : Arenas} {cur : Option Nat} {off len k : Nat} (h : roomIn s cur off len = some k)
    (hfit : off + len < 2 ^ 64) : cur = some k ∧ off + len ≤ s.sizes.getD k 0 := by
  obtain ⟨hc, hle⟩ := Option.filter_eq_some_iff.mp h
  exact ⟨hc, addSize_eq hfit ▸ of_decide_eq_true hle⟩

theorem le_of_granted {dma : Option Nat} {size : Nat} (h : granted dma size = true) : size ≤ 2 ^ 32 := by
  cases dma with
  | none => exact absurd h Bool.false_ne_true
  | some d => exact Nat.le_trans (Nat.le_add_left size d) (of_decide_eq_true h)

theorem dvd_orkiPgup (n : Nat) : 4096 ∣ orkiPgup n := Nat.dvd_mul_left _ _

theorem orkiPgup_pages {n : Nat} (h : 4096 ∣ n) (hn : n < 2 ^ 64) : orkiPgup n = n := by
  unfold orkiPgup
  omega

theorem orkiPgup_bounds {n : Nat} (h : n + 4095 < 2 ^ 64) : n ≤ orkiPgup n ∧ orkiPgup n ≤ n + 4095 := by
  unfold orkiPgup
  omega

section
variable {capW cap4 : Nat} {s : Arenas} {vs : List View}

/-- The open chunk of a pointer has its size in the list. -/
theorem Arenas.Ok.size (h : s.Ok capW cap4 vs) {i : Option Nat} {k : Nat} (hk : (s.bump vs).cur i = some k) :
    s.sizes[k]? = some (s.sizes.getD k 0) := by
  obtain ⟨x, hx, -⟩ := h.bump.off_le i k hk
  rw [List.getD_eq_getElem?_getD, show s.sizes[k]? = some x from hx]
  rfl

theorem update_elim_none {α : Type*} (w x : α) (f : Nat → α) :
    Function.update (fun i : Option Nat => i.elim w f) none x = fun i => i.elim x f := by
  funext i
  cases i <;> rfl

theorem update_elim_some {α : Type*} (w x : α) (f : Nat → α) (d : Nat) :
    Function.update (fun i : Option Nat => i.elim w f) (some d) x = fun i => i.elim w (Function.update f d x) := by
  funext i
  cases i with
  | none => rfl
  | some d' => simp [Function.update_apply]

/-- Only the sizes of new chunks are added. -/
theorem Arenas.Ok.size_old (h : s.Ok capW cap4 vs) {i : Option Nat} {k x y : Nat} (hk : (s.bump vs).cur i = some k)
    (hx : (s.sizes ++ [y])[k]? = some x) : s.sizes[k]? = some x := by
  obtain ⟨z, hz, -⟩ := h.bump.off_le i k hk
  have hlt : k < s.sizes.length := (List.getElem?_eq_some_iff.mp hz).1
  rwa [List.getElem?_append_left hlt] at hx

/-- The weight arena serves from its open chunk. -/
theorem bump_moveW (s : Arenas) (vs : List View) (k need a : Nat) :
    ({ s with wchunkOff := s.wchunkOff + a } : Arenas).bump (vs ++ [⟨k, s.wchunkOff, need⟩]) =
      (s.bump vs).take none k need a := by
  unfold Bump.take Arenas.bump
  rw [update_elim_none]
  rfl

/-- The weight arena serves from a new chunk. -/
theorem bump_openW (s : Arenas) (vs : List View) (size need a : Nat) :
    ({ s with sizes := s.sizes ++ [size], wchunk := s.wchunk ++ [s.sizes.length], wchunkOff := a } : Arenas).bump
        (vs ++ [⟨s.sizes.length, 0, need⟩]) =
      ((s.bump vs).openChunk none size).take none s.sizes.length need a := by
  unfold Bump.take
  rw [Bump.openChunk_off, Nat.zero_add]
  unfold Bump.openChunk Arenas.bump
  dsimp only
  rw [Function.update_idem, update_elim_none, update_elim_none, List.getLast?_concat]

/-- The int4 arena of domain `d` serves from its open chunk. -/
theorem bump_move4 (s : Arenas) (vs : List View) (d k : Nat) (tiles : List Tile) :
    ({ s with i4arenaOff := Function.update s.i4arenaOff d (s.i4arenaOff d + total tsz tiles) } : Arenas).bump
        (vs ++ tileViews k (s.i4arenaOff d) tiles) =
      (s.bump vs).takeAll (some d) k (tiles.map tsz) := by
  have hviews := Bump.takeAll_views (s.bump vs) (some d) k tsz tiles
  have hoff := Bump.takeAll_off (s.bump vs) (some d) k (tiles.map tsz)
  have hcur := Bump.takeAll_cur (s.bump vs) (some d) k (tiles.map tsz)
  have hsizes := Bump.takeAll_sizes (s.bump vs) (some d) k (tiles.map tsz)
  generalize (s.bump vs).takeAll (some d) k (tiles.map tsz) = b at hviews hoff hcur hsizes ⊢
  obtain ⟨sizes, cur, off, views⟩ := b
  dsimp only at hviews hoff hcur hsizes
  subst hviews hoff hcur hsizes
  unfold Arenas.bump
  rw [update_elim_some]
  rfl

/-- The int4 arena of domain `d` serves from a new chunk; `i4arena` and its room do not matter. -/
theorem bump_open4 (s : Arenas) (vs : List View) (d size : Nat) (tiles : List Tile) (listed : List Nat) (cap : Nat) :
    ({ s with
        sizes := s.sizes ++ [size]
        i4arena := listed
        i4arenaCap := cap
        i4arenaCur := Function.update s.i4arenaCur d (some s.sizes.length)
        i4arenaOff := Function.update s.i4arenaOff d (total tsz tiles) } : Arenas).bump
        (vs ++ tileViews s.sizes.length 0 tiles) =
      ((s.bump vs).openChunk (some d) size).takeAll (some d) s.sizes.length (tiles.map tsz) := by
  have hviews := Bump.takeAll_views ((s.bump vs).openChunk (some d) size) (some d) s.sizes.length tsz tiles
  have hoff := Bump.takeAll_off ((s.bump vs).openChunk (some d) size) (some d) s.sizes.length (tiles.map tsz)
  have hcur := Bump.takeAll_cur ((s.bump vs).openChunk (some d) size) (some d) s.sizes.length (tiles.map tsz)
  have hsizes := Bump.takeAll_sizes ((s.bump vs).openChunk (some d) size) (some d) s.sizes.length (tiles.map tsz)
  rw [Bump.openChunk_off] at hviews hoff
  rw [Nat.zero_add] at hoff
  generalize ((s.bump vs).openChunk (some d) size).takeAll (some d) s.sizes.length (tiles.map tsz) = b at *
  obtain ⟨sizes, cur, off, views⟩ := b
  dsimp only at hviews hoff hcur hsizes
  subst hviews hoff hcur hsizes
  unfold Bump.openChunk Arenas.bump
  dsimp only
  rw [Function.update_idem, update_elim_some, update_elim_some]
  rfl

end

/-! ### One request -/

/-- A request that fails leaves the arenas as they are, and one larger than the chunks of its arena gets a chunk that it
fills. -/
def ArenaCall.Proper (z : ChunkSizes) (c : OrkNpu) (s : Arenas) (e : ArenaCall) : Prop :=
  ((e.serve z c s).1 = none → (e.serve z c s).2 = s) ∧
    ∀ q, (e.serve z c s).1 = some q → e.cap z < q.len →
      q.base = 0 ∧ q.chunk = s.sizes.length ∧ (e.serve z c s).2.sizes[q.chunk]? = some q.len

/-- What is to be shown of one request. -/
def Keeps (capW cap4 cap : Nat) (s : Arenas) (vs : List View) (r : Option Reservation × Arenas) : Prop :=
  (r.1 = none → r.2 = s) ∧
    (∀ q, r.1 = some q → cap < q.len →
      q.base = 0 ∧ q.chunk = s.sizes.length ∧ r.2.sizes[q.chunk]? = some q.len) ∧
    r.2.Ok capW cap4 (vs ++ r.1.elim [] Reservation.views)

theorem keeps_none {capW cap4 cap : Nat} {s : Arenas} {vs : List View} (h : s.Ok capW cap4 vs) :
    Keeps capW cap4 cap s vs (none, s) :=
  ⟨fun _ => rfl, nofun, (List.append_nil vs).symm ▸ h⟩

theorem orkiWarenaReserve_keeps {cap4 : Nat} {s : Arenas} {vs : List View} {mb : Int} {need : Nat}
    (h : s.Ok (mb.toNat * 2 ^ 20 % 2 ^ 64) cap4 vs) (hfit : s.wchunkOff + need + 4095 < 2 ^ 64) (dma : Option Nat) :
    Keeps (mb.toNat * 2 ^ 20 % 2 ^ 64) cap4 (mb.toNat * 2 ^ 20 % 2 ^ 64) s vs (orkiWarenaReserve mb s need dma) := by
  have hcap : 4096 ∣ mb.toNat * 2 ^ 20 % 2 ^ 64 := (Nat.dvd_mod_iff (by decide)).mpr ⟨mb.toNat * 256, by omega⟩
  have hlt : mb.toNat * 2 ^ 20 % 2 ^ 64 < 2 ^ 64 := Nat.mod_lt _ (by decide)
  obtain ⟨hlen, hle⟩ := orkiPgup_bounds (n := need) (by omega)
  have hpage := dvd_orkiPgup need
  have hoff : 4096 ∣ s.wchunkOff := h.bump.aligned none
  unfold orkiWarenaReserve
  generalize mb.toNat * 2 ^ 20 % 2 ^ 64 = capW at h hcap hlt ⊢
  generalize orkiPgup need = a at hlen hle hpage ⊢
  have hfita : s.wchunkOff + a < 2 ^ 64 := by omega
  dsimp only
  cases hroom : roomIn s s.wchunk.getLast? s.wchunkOff a with
  | some k =>
    obtain ⟨hk, hin⟩ := roomIn_eq_some hroom hfita
    have hsize := h.size (i := none) hk
    have hspare := h.roomW k _ hk hsize
    dsimp only
    rw [addSize_eq hfita]
    refine ⟨nofun, fun q hq hbig => ?_, ?_⟩
    · rw [← Option.some.inj hq] at hbig
      dsimp only at hbig
      omega
    · refine { bump := ?_, roomW := fun k' x hk' hx => ?_, room4 := h.room4, size_le := h.size_le }
      · exact bump_moveW s vs k need a ▸ h.bump.take (i := none) hk hsize hlen hin hpage
      · exact Nat.le_trans (h.roomW k' x hk' hx) (Nat.add_le_add_right (Nat.le_add_right _ _) _)
  | none =>
    dsimp only
    split_ifs with hfull hgrant
    · exact keeps_none h
    · have hcsz : orkiPgup (max a capW) = max a capW := orkiPgup_pages (by omega) (by omega)
      rw [hcsz] at hgrant ⊢
      refine ⟨nofun, fun q hq hbig => ?_, ?_⟩
      · rw [← Option.some.inj hq] at hbig ⊢
        refine ⟨rfl, rfl, List.getElem?_concat_length.trans (congrArg some ?_)⟩
        exact Nat.max_eq_left (Nat.le_of_lt hbig)
      · refine { bump := ?_, roomW := fun k x hk hx => ?_, room4 := fun d k x hk hx => ?_, size_le := fun x hx => ?_ }
        · have hopen := h.bump.openChunk none (max a capW)
          exact bump_openW s vs (max a capW) need a ▸
            hopen.take (Bump.openChunk_cur _ _ _) (Bump.openChunk_size _ _ _) hlen (by
              rw [Bump.openChunk_off, Nat.zero_add]
              exact Nat.le_max_left a capW) hpage
        · rw [List.getLast?_concat] at hk
          rw [← Option.some.inj hk, List.getElem?_concat_length] at hx
          rw [← Option.some.inj hx]
          exact max_le (Nat.le_add_right _ _) (Nat.le_add_left _ _)
        · exact h.room4 d k x hk (h.size_old (i := some d) hk hx)
        · rcases List.mem_append.mp hx with hx | hx
          · exact h.size_le x hx
          · exact List.mem_singleton.mp hx ▸ le_of_granted hgrant
    · exact keeps_none h

/-! ### The size of an int4 weight -/

/-- Padding a tile of 32 by 64 weights at most to two pages and a half for each 2048 weights. -/
theorem two_tsz_le {t : Tile} (hK : 32 ∣ t.Kp) (hN : 64 ∣ t.Nc) : 2 * tsz t ≤ 5 * (t.Kp * t.Nc) := by
  obtain ⟨k, hk⟩ := hK
  obtain ⟨n, hn⟩ := hN
  have harea : t.Kp * t.Nc = 2048 * (k * n) := by rw [hk, hn, Nat.mul_mul_mul_comm]
  unfold tsz I4.Container.raw Pack.pgup
  rw [harea]
  omega

theorem need4_lt {c : OrkNpu} (hnmax : c.soc.nmax = 8192) {K N : Nat} (hK : 32 ∣ K) (hN : 64 ∣ N) (hK31 : K < 2 ^ 31)
    (hN31 : N < 2 ^ 31) : 2 * need c K N < 5 * 2 ^ 62 := by
  have htiles : ∀ t ∈ (geom c K N).tiles, 2 * tsz t ≤ 5 * (t.Kp * t.Nc) := by
    intro t ht
    obtain ⟨ns, ks, -, -, rfl⟩ := Pack.Geom.mem_tiles.mp ht
    apply two_tsz_le
    · refine dvd_pieceLen hK ?_
      change 32 ∣ Core.orkI4Ks
      decide
    · refine dvd_pieceLen hN ?_
      change 64 ∣ c.soc.nmax
      rw [hnmax]
      decide
  have hsum : 2 * total tsz (geom c K N).tiles ≤ 5 * total (fun t => t.Kp * t.Nc) (geom c K N).tiles := by
    generalize (geom c K N).tiles = tiles at htiles ⊢
    induction tiles with
    | nil => exact Nat.le_refl 0
    | cons t ts ih =>
      have h1 := htiles t List.mem_cons_self
      have h2 := ih fun u hu => htiles u (List.mem_cons_of_mem _ hu)
      rw [total_cons, total_cons]
      omega
  have harea : total (fun t => t.Kp * t.Nc) (geom c K N).tiles = K * N :=
    Run.total_area (Nat.zero_lt_succ 10751) (by change 0 < c.soc.nmax; omega)
  rw [harea] at hsum
  have hKN : K * N < 2 ^ 31 * 2 ^ 31 := Nat.mul_lt_mul'' hK31 hN31
  change 2 * total tsz (geom c K N).tiles < _
  omega

theorem orkI4MmLoadArenaViews_keeps {capW : Nat} {s : Arenas} {vs : List View} {chunkCap : Nat}
    (h : s.Ok capW chunkCap vs) (hcap : 4096 ∣ chunkCap) (hlt : chunkCap < 2 ^ 64) {c : OrkNpu} (hnmax : c.soc.nmax = 8192)
    (v : ArenaEnv) (dom : Int) {K N : Nat} (hK : K < 2 ^ 31) (hN : N < 2 ^ 31) (blob : Blob4) (n : Nat) :
    Keeps capW chunkCap chunkCap s vs (orkI4MmLoadArenaViews chunkCap s v c dom K N blob n) := by
  unfold orkI4MmLoadArenaViews
  by_cases hrefused : deviceAccepts c K N blob n = false ∨ v.heap = false ∨ dom < 0 ∨ 64 ≤ dom ∨ v.host = false
  · rw [if_pos hrefused]
    exact keeps_none h
  · rw [if_neg hrefused]
    have hacc : deviceAccepts c K N blob n = true := by
      rw [← Bool.not_eq_false]
      exact fun e => hrefused (.inl e)
    obtain ⟨-, hshape, -⟩ := of_decide_eq_true hacc
    have hneed := need4_lt hnmax (Nat.dvd_of_mod_eq_zero (by omega)) (Nat.dvd_of_mod_eq_zero (by omega)) hK hN
    have hsum : ((geom c K N).tiles.map tsz).sum = need c K N := rfl
    have hpages : ∀ len ∈ (geom c K N).tiles.map tsz, 4096 ∣ len := by
      intro len hlen
      obtain ⟨t, -, rfl⟩ := List.mem_map.mp hlen
      exact Nat.dvd_mul_left _ _
    have hneedpage : 4096 ∣ need c K N := List.dvd_sum hpages
    dsimp only
    generalize dom.toNat = d
    have hoff : s.i4arenaOff d ≤ 2 ^ 32 ∨ s.i4arenaCur d = none := by
      cases hc : s.i4arenaCur d with
      | none => exact .inr rfl
      | some k =>
        obtain ⟨x, hx, hle⟩ := h.bump.off_le (some d) k hc
        exact .inl (Nat.le_trans hle (h.size_le x (List.mem_of_getElem? hx)))
    cases hroom : roomIn s (s.i4arenaCur d) (s.i4arenaOff d) (need c K N) with
    | some k =>
      have hfit : s.i4arenaOff d + need c K N < 2 ^ 64 := by
        rcases hoff with hoff | hoff
        · omega
        · rw [hoff] at hroom
          cases hroom
      obtain ⟨hk, hin⟩ := roomIn_eq_some hroom hfit
      have hsize := h.size (i := some d) hk
      have hspare := h.room4 d k _ hk hsize
      dsimp only
      refine ⟨nofun, fun q hq hbig => ?_, ?_⟩
      · rw [← Option.some.inj hq] at hbig
        dsimp only at hbig
        omega
      · have htake := h.bump.takeAll (i := some d) hk hsize (hsum ▸ hin) hpages
        rw [← bump_move4 s vs d k (geom c K N).tiles] at htake
        refine { bump := htake, roomW := h.roomW, room4 := fun d' k' x hk' hx => ?_, size_le := h.size_le }
        have hold := h.room4 d' k' x hk' hx
        dsimp only
        rw [Function.update_apply]
        split_ifs with hd
        · subst hd
          omega
        · exact hold
    | none =>
      dsimp only
      generalize (if s.i4arenaCap ≤ s.i4arena.length then if s.i4arenaCap = 0 then 64 else s.i4arenaCap * 2
        else s.i4arenaCap) = grown
      have hcsz : orkiPgup (max (need c K N) chunkCap) = max (need c K N) chunkCap :=
        orkiPgup_pages (by omega) (by omega)
      rw [hcsz]
      split_ifs with hgrant hlist
      · exact keeps_none h
      · exact keeps_none h
      · refine ⟨nofun, fun q hq hbig => ?_, ?_⟩
        · rw [← Option.some.inj hq] at hbig ⊢
          refine ⟨rfl, rfl, List.getElem?_concat_length.trans (congrArg some ?_)⟩
          exact Nat.max_eq_left (Nat.le_of_lt hbig)
        · have hopen := h.bump.openChunk (some d) (max (need c K N) chunkCap)
          have htake : (((s.bump vs).openChunk (some d) (max (need c K N) chunkCap)).takeAll (some d) s.sizes.length
              ((geom c K N).tiles.map tsz)).Ok 4096 :=
            hopen.takeAll (Bump.openChunk_cur _ _ _) (Bump.openChunk_size _ _ _)
              (by rw [Bump.openChunk_off, Nat.zero_add, hsum]; exact Nat.le_max_left _ _) hpages
          have hbump := bump_open4 s vs d (max (need c K N) chunkCap) (geom c K N).tiles (s.i4arena ++ [s.sizes.length]) grown
          rw [← hbump] at htake
          refine { bump := htake, roomW := fun k x hk hx => ?_, room4 := fun d' k x hk hx => ?_,
                   size_le := fun x hx => ?_ }
          · exact h.roomW k x hk (h.size_old (i := none) hk hx)
          · dsimp only at hk hx ⊢
            rw [Function.update_apply] at hk ⊢
            split_ifs at hk ⊢ with hd
            · rw [← Option.some.inj hk, List.getElem?_concat_length] at hx
              rw [← Option.some.inj hx]
              exact max_le (Nat.le_add_right _ _) (Nat.le_add_left _ _)
            · exact h.room4 d' k x hk (h.size_old (i := some d') hk hx)
          · rcases List.mem_append.mp hx with hx | hx
            · exact h.size_le x hx
            · rw [List.mem_singleton.mp hx]
              exact le_of_granted (by rwa [Bool.not_eq_false] at hgrant)

/-! ### Runs -/

theorem dvd_chunkCap (z : ChunkSizes) : 4096 ∣ z.chunkCap :=
  (Nat.dvd_mod_iff (by decide)).mpr ⟨z.chunkMb * 256, by omega⟩

theorem serve_keeps {z : ChunkSizes} {c : OrkNpu} (hnmax : c.soc.nmax = 8192) {s : Arenas} {vs : List View} {e : ArenaCall}
    (h : s.Ok (z.mb.toNat * 2 ^ 20 % 2 ^ 64) z.chunkCap vs) (hfit : e.Fits s) :
    Keeps (z.mb.toNat * 2 ^ 20 % 2 ^ 64) z.chunkCap (e.cap z) s vs (e.serve z c s) := by
  cases e with
  | weight need dma => exact orkiWarenaReserve_keeps h hfit dma
  | int4 v dom K N blob n =>
    exact orkI4MmLoadArenaViews_keeps h (dvd_chunkCap z) (Nat.mod_lt _ (by decide)) hnmax v dom K.isLt N.isLt blob n

/-- The arenas keep their views apart along a run. -/
theorem serveAll_ok {z : ChunkSizes} {c : OrkNpu} (hnmax : c.soc.nmax = 8192) {es : List ArenaCall} {s : Arenas}
    {vs : List View} (h : s.Ok (z.mb.toNat * 2 ^ 20 % 2 ^ 64) z.chunkCap vs) (hfit : FitsAll z c s es) :
    (serveAll z c s es).2.Ok (z.mb.toNat * 2 ^ 20 % 2 ^ 64) z.chunkCap
      (vs ++ (serveAll z c s es).1.flatMap Reservation.views) := by
  induction es generalizing s vs with
  | nil => exact (List.append_nil vs).symm ▸ h
  | cons e es ih =>
    have hrest := ih (serve_keeps hnmax h hfit.1).2.2 hfit.2
    unfold serveAll
    dsimp only
    generalize e.serve z c s = r at hrest ⊢
    obtain ⟨_ | q, s'⟩ := r
    · rw [Option.elim_none, List.append_nil] at hrest
      exact hrest
    · rw [Option.toList_some, List.singleton_append, List.flatMap_cons, ← List.append_assoc]
      exact hrest

/-- Every request of a run is served properly where it stands. -/
def ProperAll (z : ChunkSizes) (c : OrkNpu) : Arenas → List ArenaCall → Prop
  | _, [] => True
  | s, e :: es => e.Proper z c s ∧ ProperAll z c (e.serve z c s).2 es

theorem serveAll_proper {z : ChunkSizes} {c : OrkNpu} (hnmax : c.soc.nmax = 8192) {es : List ArenaCall} {s : Arenas}
    {vs : List View} (h : s.Ok (z.mb.toNat * 2 ^ 20 % 2 ^ 64) z.chunkCap vs) (hfit : FitsAll z c s es) :
    ProperAll z c s es := by
  induction es generalizing s vs with
  | nil => trivial
  | cons e es ih =>
    obtain ⟨hfail, hbig, hok⟩ := serve_keeps hnmax h hfit.1
    exact ⟨⟨hfail, hbig⟩, ih hok hfit.2⟩

/-- The views handed out are aligned, inside their chunks and apart, and every request is served properly. -/
def ArenasSound (z : ChunkSizes) (c : OrkNpu) (es : List ArenaCall) : Prop :=
  let r := serveAll z c Arenas.empty es
  (∀ v ∈ r.1.flatMap Reservation.views, 4096 ∣ v.base ∧ ∃ x, r.2.sizes[v.chunk]? = some x ∧ v.base + v.len ≤ x) ∧
    (r.1.flatMap Reservation.views).Pairwise View.Apart ∧ ProperAll z c Arenas.empty es

/-- A run of requests none of which overflows a `size_t` where it stands. -/
theorem arenas_sound {z : ChunkSizes} {c : OrkNpu} (hc : c.soc ∈ socTable) {es : List ArenaCall}
    (hfit : FitsAll z c Arenas.empty es) : ArenasSound z c es := by
  have hnmax := Pack.socTable_nmax hc
  have hempty := Arenas.ok_empty (z.mb.toNat * 2 ^ 20 % 2 ^ 64) z.chunkCap
  have hok := (serveAll_ok hnmax hempty hfit).bump
  rw [List.nil_append] at hok
  refine ⟨fun v hv => ⟨hok.views_aligned v hv, hok.inside v hv⟩, hok.apart, ?_⟩
  exact serveAll_proper hnmax hempty hfit

theorem arenas_sound_two : ArenasSound ⟨1024, 16⟩ ⟨3, socRk3588, 0⟩
    [.weight ⟨5000, by decide⟩ (some 0x10000000), .weight ⟨5000, by decide⟩ none] :=
  arenas_sound (by decide) ⟨by decide, by decide, trivial⟩

/-- The request of `SIZE_MAX` bytes is rounded up to none, and served from the open chunk. -/
theorem arenas_not_sound : ¬ ArenasSound ⟨1024, 16⟩ ⟨3, socRk3588, 0⟩
    [.weight ⟨4096, by decide⟩ (some 0x10000000), .weight ⟨2 ^ 64 - 1, by decide⟩ none] := by
  intro h
  obtain ⟨-, x, hx, hle⟩ := h.1 ⟨0, 4096, 2 ^ 64 - 1⟩ (by decide)
  have hsize : x = 2 ^ 30 := Option.some.inj (hx.symm.trans (by decide))
  rw [hsize] at hle
  exact absurd hle (by decide)

end OrkDriver.Weights
