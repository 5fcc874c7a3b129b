import OrkDriver.Run.Weight

/-!
The resident KV cache of `npu/i8/pack.c`: two int8 weights packed once from zeros, K^T with a column and V with a row for
every key, and `ork_kv_append`, which writes one key into the tiles of both.
-/

namespace OrkDriver.Run

open OrkDriver.Lib OrkDriver.Npu OrkDriver.Pack

/-! ### Model -/

/-- `ork_kv_resident` of a context of its own. A weight that was packed without a device is host codes only: `none`. -/
structure KvResident where
  wkt : Option (OrkW Int8)
  wv : Option (OrkW Int8)
  HD : Nat
  Lmax : Nat
  Kp : Nat

/-- `ork_i8_mm_pack`. -/
def orkI8MmPack (c : OrkNpu) (e : F16Knobs) (p : PackEnv Int8) (K N : Nat) (B : Nat → Int8) : Option (Option (OrkW Int8)) :=
  if c.fd < 0 then some none else (orkiPack c e p .i8 K N B).map some

/-- `ork_kv_resident_alloc`; `pk` and `pv` are what the two packs find. -/
def orkKvResidentAlloc (c : OrkNpu) (e : F16Knobs) (pk pv : PackEnv Int8) (HD Lmax : Nat) : Option KvResident :=
  if HD % 32 ≠ 0 ∨ Lmax % 32 ≠ 0 ∨ Lmax < 32 ∨ c.soc.nmax < Lmax then none
  else do
    let wkt ← orkI8MmPack c e pk 512 Lmax fun _ => 0
    let wv ← orkI8MmPack c e pv Lmax HD fun _ => 0
    pure ⟨wkt, wv, HD, Lmax, 512⟩

/-- Stores into buffer `i` of `count`, which are `size` bytes long; nothing where there is no such buffer or a store lies
behind its end. -/
def storeInto (count : Nat) (size : Nat → Nat) (bufs : Nat → Nat → Int8) (i : Nat) (l : List (Nat × Int8)) :
    Option (Nat → Nat → Int8) :=
  if i < count ∧ ∀ w ∈ l, w.1 < size i then some (Function.update bufs i (stores (bufs i) l)) else none

section

variable (c : OrkNpu) (e : F16Knobs) (w : OrkW Int8)

/-- The bytes of a K-sliced tile and of a full-K copy. -/
def bbSize (i : Nat) : Nat :=
  let t := (weightGeom c e .i8 w.K w.N).tile (i / w.Sk) (i % w.Sk)
  pgup (t.Kp * t.Nc)

def bfSize (i : Nat) : Nat := pgup (w.K * pieceLen w.N c.soc.nmax i)

def storeBb (i : Nat) (l : List (Nat × Int8)) : Option (OrkW Int8) :=
  (storeInto (w.Sk * w.Sn) (bbSize c e w) w.Bb i l).map fun Bb => { w with Bb }

/-- The full-K copy is written only where there is one. -/
def storeBf (i : Nat) (l : List (Nat × Int8)) : Option (OrkW Int8) :=
  match w.Bf with
  | none => some w
  | some f => (storeInto w.Sn (bfSize c w) f i l).map fun f => { w with Bf := some f }

/-- The loop over the rows of a K^T column. -/
def colStores (HD KTf key : Nat) (kcol : Nat → Int8) : List (Nat × Int8) :=
  (List.range HD).map fun k => (key / 32 * KTf * 1024 + k / 32 * 1024 + key % 32 * 32 + k % 32, kcol k)

/-- The loop over the columns of a V row. -/
def rowStores (HD KT kt kk : Nat) (vrow : Nat → Int8) : List (Nat × Int8) :=
  (List.range HD).map fun n => (n / 32 * KT * 1024 + kt * 1024 + n % 32 * 32 + kk, vrow n)

/-- The K^T half of `ork_kv_append`. -/
def appendKt (HD Kp key : Nat) (kcol : Nat → Int8) : Option (OrkW Int8) := do
  let w ← storeBf c w 0 (colStores HD (Kp / 32) key kcol)
  storeBb c e w 0 (colStores HD (Kp / 32) key kcol)

/-- The V half. -/
def appendV (HD Lmax key : Nat) (vrow : Nat → Int8) : Option (OrkW Int8) := do
  let w ← storeBf c w 0 (rowStores HD (Lmax / 32) (key / 32) (key % 32) vrow)
  let KS := c.int8Ks
  let k0 := key / KS * KS
  let Kp := if Lmax - k0 < KS then Lmax - k0 else KS
  storeBb c e w (key / KS) (rowStores HD (Kp / 32) ((key - k0) / 32) ((key - k0) % 32) vrow)

end

/-- One call of `ork_kv_append`. -/
structure KvAppend where
  key : Int
  kcol : Nat → Int8
  vrow : Nat → Int8

/-- `ork_kv_append`; nothing where it touches memory that is not there. -/
def orkKvAppend (c : OrkNpu) (e : F16Knobs) (kv : KvResident) (a : KvAppend) : Option (Int × KvResident) :=
  if a.key < 0 ∨ (kv.Lmax : Int) ≤ a.key then some (-2, kv)
  else do
    let wkt ← kv.wkt
    let wkt ← appendKt c e wkt kv.HD kv.Kp a.key.toNat a.kcol
    let wv ← kv.wv
    let wv ← appendV c e wv kv.HD kv.Lmax a.key.toNat a.vrow
    pure (0, { kv with wkt := some wkt, wv := some wv })

/-- Calls one after another. -/
def orkKvAppends (c : OrkNpu) (e : F16Knobs) : KvResident → List KvAppend → Option KvResident
  | kv, [] => some kv
  | kv, a :: as => (orkKvAppend c e kv a).bind fun r => orkKvAppends c e r.2 as

/-! ### What it is for -/

/-- The logical matrices, K^T by row and key, V by key and column. -/
structure KvCache where
  kt : Nat → Nat → Int8
  v : Nat → Nat → Int8

def KvCache.zero : KvCache := ⟨fun _ _ => 0, fun _ _ => 0⟩

/-- One key is replaced; the rows of K^T from `HD` on stay. -/
def KvCache.append (HD Lmax : Nat) (l : KvCache) (a : KvAppend) : KvCache :=
  if a.key < 0 ∨ (Lmax : Int) ≤ a.key then l
  else
    { kt := fun k n => if n = a.key.toNat ∧ k < HD then a.kcol k else l.kt k n
      v := fun k n => if k = a.key.toNat then a.vrow n else l.v k n }

theorem KvCache.append_kt {HD Lmax : Nat} {a : KvAppend} (h : ¬ (a.key < 0 ∨ (Lmax : Int) ≤ a.key)) (l : KvCache) :
    (l.append HD Lmax a).kt = fun k n => if n = a.key.toNat ∧ k < HD then a.kcol k else l.kt k n := by
  unfold append
  rw [if_neg h]

/-- A tile of a matrix. -/
def HoldsTile (f : Nat → Nat → Int8) (t : Tile) (m : Nat → Int8) : Prop :=
  ∀ k n, k < t.Kp → n < t.Nc → m (wIndex 32 t.Kp k n) = f (t.k0 + k) (t.n0 + n)

/-- Both layouts of a weight hold the matrix `f`. -/
structure Layouts (g : Geom) (f : Nat → Nat → Int8) (w : OrkW Int8) : Prop where
  K : w.K = g.K
  N : w.N = g.N
  Sk : w.Sk = g.Sk
  Sn : w.Sn = g.Sn
  Bb : ∀ ns ks, ns < g.Sn → ks < g.Sk → HoldsTile f (g.tile ns ks) (w.Bb (ns * g.Sk + ks))
  Bf : ∀ b, w.Bf = some b → ∀ ns, ns < g.Sn → HoldsTile f (fullTile g ns) (b ns)

/-- Both weights hold their matrix in both layouts. -/
structure KvResident.Stored (c : OrkNpu) (e : F16Knobs) (kv : KvResident) (l : KvCache) : Prop where
  wkt : ∃ w, kv.wkt = some w ∧ Layouts (weightGeom c e .i8 512 kv.Lmax) l.kt w
  wv : ∃ w, kv.wv = some w ∧ Layouts (weightGeom c e .i8 kv.Lmax kv.HD) l.v w

/-! ### Stores into a tile -/

variable {c : OrkNpu} {e : F16Knobs} {g : Geom} {f f' : Nat → Nat → Int8} {w : OrkW Int8} {t : Tile} {m : Nat → Int8}
  {l : List (Nat × Int8)}

/-- The elements of a tile that are replaced, in the tile's rows and columns, and the stores that do so. -/
structure Replaces (t : Tile) (f f' : Nat → Nat → Int8) (l : List (Nat × Int8)) : Prop where
  inside : ∀ p ∈ l, ∃ k n, k < t.Kp ∧ n < t.Nc ∧ p = (wIndex 32 t.Kp k n, f' (t.k0 + k) (t.n0 + n))
  rest : ∀ k n, k < t.Kp → n < t.Nc → (∀ p ∈ l, p.1 ≠ wIndex 32 t.Kp k n) → f' (t.k0 + k) (t.n0 + n) = f (t.k0 + k) (t.n0 + n)

theorem HoldsTile.stores (hK : 32 ∣ t.Kp) (hm : HoldsTile f t m) (hl : Replaces t f f' l) : HoldsTile f' t (stores m l) := by
  intro k n hk hn
  by_cases hmem : ∃ p ∈ l, p.1 = wIndex 32 t.Kp k n
  · refine stores.of_mem hmem fun p hp hidx => ?_
    obtain ⟨k', n', hk', -, rfl⟩ := hl.inside p hp
    obtain ⟨rfl, rfl⟩ := wIndex_inj (by decide) hK hk' hk hidx
    rfl
  · have hne : ∀ p ∈ l, p.1 ≠ wIndex 32 t.Kp k n := fun p hp heq => hmem ⟨p, hp, heq⟩
    rw [stores.of_forall_ne hne, hm k n hk hn, hl.rest k n hk hn hne]

theorem HoldsTile.congr (hm : HoldsTile f t m) (h : ∀ k n, k < t.Kp → n < t.Nc → f' (t.k0 + k) (t.n0 + n) = f (t.k0 + k) (t.n0 + n)) :
    HoldsTile f' t m := by
  intro k n hk hn
  rw [hm k n hk hn, h k n hk hn]

theorem Replaces.bounded (hK : 32 ∣ t.Kp) (hN : 32 ∣ t.Nc) (hl : Replaces t f f' l) : ∀ p ∈ l, p.1 < pgup (t.Kp * t.Nc) := by
  intro p hp
  obtain ⟨k, n, hk, hn, rfl⟩ := hl.inside p hp
  exact lt_of_lt_of_le (wIndex_lt (by decide) hK hN hk hn) (le_pgup _)

theorem storeInto_eq {count i : Nat} {size : Nat → Nat} {bufs : Nat → Nat → Int8} (hi : i < count)
    (hl : ∀ p ∈ l, p.1 < size i) : storeInto count size bufs i l = some (Function.update bufs i (stores (bufs i) l)) :=
  if_pos ⟨hi, hl⟩

/-- The stores of a loop over the rows of column `key`. -/
theorem colStores_replaces {HD KTf key : Nat} {kcol : Nat → Int8} (hk0 : t.k0 = 0) (hn0 : t.n0 = 0) (hHD : HD ≤ t.Kp)
    (hkey : key < t.Nc) (hKT : key / 32 = 0 ∨ KTf = t.Kp / 32) :
    Replaces t f (fun k n => if n = key ∧ k < HD then kcol k else f k n) (colStores HD KTf key kcol) := by
  have hidx : ∀ k, key / 32 * KTf * 1024 + k / 32 * 1024 + key % 32 * 32 + k % 32 = wIndex 32 t.Kp k key := by
    intro k
    have hblock : key / 32 * KTf = key / 32 * (t.Kp / 32) := by
      rcases hKT with h | h
      · rw [h, Nat.zero_mul, Nat.zero_mul]
      · rw [h]
    unfold wIndex
    rw [hblock]
    omega
  constructor
  · intro p hp
    obtain ⟨k, hk, rfl⟩ := List.mem_map.mp hp
    have hlt := List.mem_range.mp hk
    refine ⟨k, key, by omega, hkey, ?_⟩
    rw [hk0, hn0, Nat.zero_add, Nat.zero_add, if_pos ⟨rfl, hlt⟩, ← hidx]
  · intro k n _ _ hne
    rw [hk0, hn0, Nat.zero_add, Nat.zero_add]
    refine if_neg ?_
    rintro ⟨rfl, hlt⟩
    exact hne _ (List.mem_map_of_mem (List.mem_range.mpr hlt)) (hidx k)

/-- The stores of a loop over the columns of row `key`. -/
theorem rowStores_replaces {HD key : Nat} {vrow : Nat → Int8} (hn0 : t.n0 = 0) (hHD : t.Nc = HD)
    (hkey : t.k0 ≤ key ∧ key - t.k0 < t.Kp) :
    Replaces t f (fun k n => if k = key then vrow n else f k n)
      (rowStores HD (t.Kp / 32) ((key - t.k0) / 32) ((key - t.k0) % 32) vrow) := by
  have hidx : ∀ n, n / 32 * (t.Kp / 32) * 1024 + (key - t.k0) / 32 * 1024 + n % 32 * 32 + (key - t.k0) % 32 =
      wIndex 32 t.Kp (key - t.k0) n := by
    intro n
    unfold wIndex
    omega
  constructor
  · intro p hp
    obtain ⟨n, hn, rfl⟩ := List.mem_map.mp hp
    refine ⟨key - t.k0, n, hkey.2, by rw [hHD]; exact List.mem_range.mp hn, ?_⟩
    rw [Nat.add_sub_cancel' hkey.1, if_pos rfl, hn0, Nat.zero_add, ← hidx]
  · intro k n _ hn hne
    refine if_neg fun heq => ?_
    have hk : key - t.k0 = k := by omega
    rw [hHD] at hn
    exact hne _ (List.mem_map_of_mem (List.mem_range.mpr hn)) (hk ▸ hidx n)

/-- A full-K copy with elements replaced. -/
theorem storeBf_spec (hg : weightGeom c e .i8 g.K g.N = g) (hK : 32 ∣ g.K) (hN : 32 ∣ pieceLen g.N g.NMAX 0)
    (hSn : g.Sn = 1) (h : Layouts g f w) (hl : Replaces (fullTile g 0) f f' l) :
    ∃ w', storeBf c w 0 l = some w' ∧ w'.K = w.K ∧ w'.N = w.N ∧ w'.Sk = w.Sk ∧ w'.Sn = w.Sn ∧ w'.Bb = w.Bb ∧
      ∀ b, w'.Bf = some b → HoldsTile f' (fullTile g 0) (b 0) := by
  unfold storeBf
  cases hBf : w.Bf with
  | none => exact ⟨w, rfl, rfl, rfl, rfl, rfl, rfl, fun b hb => absurd (hBf.symm.trans hb) nofun⟩
  | some b =>
      have hnmax : c.soc.nmax = g.NMAX := congrArg Geom.NMAX hg
      have hin : ∀ p ∈ l, p.1 < bfSize c w 0 := by
        have hb : ∀ p ∈ l, p.1 < pgup (g.K * pieceLen g.N g.NMAX 0) := hl.bounded (t := fullTile g 0) hK hN
        unfold bfSize
        rwa [h.K, h.N, hnmax]
      have hSn0 : 0 < w.Sn := by
        rw [h.Sn, hSn]
        exact Nat.one_pos
      dsimp only
      rw [storeInto_eq hSn0 hin]
      refine ⟨_, rfl, rfl, rfl, rfl, rfl, rfl, fun b' hb' => ?_⟩
      obtain rfl := Option.some.inj hb'
      rw [Function.update_self]
      exact (h.Bf b hBf 0 (by omega)).stores hK hl

/-- Elements replaced in both layouts of a weight of one N-slice; those in the K-sliced layout lie in tile `ks`. -/
theorem Layouts.replace (hg : weightGeom c e .i8 g.K g.N = g) (hB : Blocks g 32) (hK : 32 ∣ g.K) (hN : 32 ∣ g.N)
    (hSn : g.Sn = 1) (h : Layouts g f w) {ks : Nat} (hks : ks < g.Sk) {lf lb : List (Nat × Int8)}
    (hf : Replaces (fullTile g 0) f f' lf) (hb : Replaces (g.tile 0 ks) f f' lb)
    (hrest : ∀ i, i < g.Sk → i ≠ ks → ∀ k n, k < (g.tile 0 i).Kp → n < (g.tile 0 i).Nc →
      f' ((g.tile 0 i).k0 + k) ((g.tile 0 i).n0 + n) = f ((g.tile 0 i).k0 + k) ((g.tile 0 i).n0 + n)) :
    ∃ w', ((storeBf c w 0 lf).bind fun w => storeBb c e w ks lb) = some w' ∧ Layouts g f' w' := by
  have hdvdK : ∀ i, 32 ∣ (g.tile 0 i).Kp := fun i => dvd_pieceLen hK hB.KS
  have hdvdN : 32 ∣ pieceLen g.N g.NMAX 0 := dvd_pieceLen hN hB.NMAX
  obtain ⟨w₁, hw₁, hK₁, hN₁, hSk₁, hSn₁, hBb₁, hBf₁⟩ := storeBf_spec hg hK hdvdN hSn h hf
  have hi : ks < w₁.Sk * w₁.Sn := by
    rw [hSk₁, hSn₁, h.Sk, h.Sn, hSn, Nat.mul_one]
    exact hks
  have hin : ∀ p ∈ lb, p.1 < bbSize c e w₁ ks := by
    unfold bbSize
    rw [hK₁, hN₁, h.K, h.N, hg, hSk₁, h.Sk, Nat.div_eq_of_lt hks, Nat.mod_eq_of_lt hks]
    exact hb.bounded (hdvdK ks) hdvdN
  have hrun : storeBb c e w₁ ks lb = some { w₁ with Bb := Function.update w₁.Bb ks (stores (w₁.Bb ks) lb) } := by
    unfold storeBb
    rw [storeInto_eq hi hin]
    rfl
  refine ⟨{ w₁ with Bb := Function.update w₁.Bb ks (stores (w₁.Bb ks) lb) }, ?_,
    ⟨hK₁.trans h.K, hN₁.trans h.N, hSk₁.trans h.Sk, hSn₁.trans h.Sn, ?_, ?_⟩⟩
  · rw [hw₁, Option.bind_some, hrun]
  · intro ns i hns hi
    obtain rfl : ns = 0 := by omega
    dsimp only
    rw [Nat.zero_mul, Nat.zero_add, hBb₁]
    have hold := h.Bb 0 i hns hi
    rw [Nat.zero_mul, Nat.zero_add] at hold
    by_cases heq : i = ks
    · subst heq
      rw [Function.update_self]
      exact hold.stores (hdvdK i) hb
    · rw [Function.update_of_ne heq]
      exact hold.congr (hrest i hi heq)
  · intro b hb' ns hns
    obtain rfl : ns = 0 := by omega
    exact hBf₁ b hb'

/-! ### One call -/

theorem kt_geom (c : OrkNpu) (e : F16Knobs) (K N : Nat) :
    weightGeom c e .i8 (weightGeom c e .i8 K N).K (weightGeom c e .i8 K N).N = weightGeom c e .i8 K N := rfl

theorem sn_one {N nmax : Nat} (h0 : 0 < N) (h : N ≤ nmax) : pieces N nmax = 1 := by
  have hpos : 0 < nmax := by omega
  have h1 : 0 < pieces N nmax := (lt_pieces_iff hpos).mpr (by omega)
  have h2 : ¬ 1 < pieces N nmax := fun hlt => by
    have := (lt_pieces_iff hpos).mp hlt
    omega
  omega

/-- When a cache of these dimensions is written where its tiles are. -/
structure Fits (c : OrkNpu) (HD Lmax : Nat) : Prop where
  device : 0 ≤ c.fd
  pos : 0 < HD
  le : HD ≤ 512
  slice : 512 ≤ c.int8Ks ∨ HD ≤ c.int8Ks ∧ Lmax = 32

/-- What `ork_kv_resident_alloc` checks. -/
structure Accepted (c : OrkNpu) (HD Lmax : Nat) : Prop where
  columns : HD % 32 = 0
  keys : Lmax % 32 = 0
  ge : 32 ≤ Lmax
  le : Lmax ≤ c.soc.nmax

theorem appendKt_layouts {HD Lmax key : Nat} {kcol : Nat → Int8} (hc : c.soc ∈ socTable) (ha : Accepted c HD Lmax)
    (hfit : Fits c HD Lmax) (h : Layouts (weightGeom c e .i8 512 Lmax) f w) (hkey : key < Lmax) :
    ∃ w', appendKt c e w HD 512 key kcol = some w' ∧
      Layouts (weightGeom c e .i8 512 Lmax) (fun k n => if n = key ∧ k < HD then kcol k else f k n) w' := by
  have hB := weightGeom_blocks hc e .i8 512 Lmax
  have hpos := hfit.pos
  have hle := hfit.le
  have hnc : pieceLen Lmax c.soc.nmax 0 = Lmax := pieceLen_of_le ha.le
  have hkp : HD ≤ pieceLen 512 c.int8Ks 0 := by
    have := hfit.slice
    unfold pieceLen
    split <;> omega
  have hks : 0 < (weightGeom c e .i8 512 Lmax).Sk := by
    refine (lt_pieces_iff hB.KS_pos).mpr ?_
    rw [Nat.zero_mul]
    exact Nat.succ_pos 511
  have hL : 0 < Lmax := by
    have := ha.ge
    omega
  refine h.replace (kt_geom c e 512 Lmax) hB (by decide : 32 ∣ 512) (Nat.dvd_of_mod_eq_zero ha.keys)
    (sn_one hL ha.le) hks ?_ ?_ ?_
  · exact colStores_replaces rfl (Nat.zero_mul _) hle (by rw [← hnc] at hkey; exact hkey) (Or.inr rfl)
  · refine colStores_replaces (Nat.zero_mul _) (Nat.zero_mul _) hkp (by rw [← hnc] at hkey; exact hkey) ?_
    rcases hfit.slice with hs | ⟨-, hL⟩
    · right
      have : pieceLen 512 c.int8Ks 0 = 512 := pieceLen_of_le hs
      change 16 = pieceLen 512 c.int8Ks 0 / 32
      rw [this]
    · left
      omega
  · intro i hi hne k n _ _
    refine if_neg ?_
    rintro ⟨-, hlt⟩
    have hstart : c.int8Ks ≤ i * c.int8Ks := Nat.le_mul_of_pos_left _ (Nat.pos_of_ne_zero hne)
    change i * c.int8Ks + k < HD at hlt
    have hi' : i * c.int8Ks < 512 := (lt_pieces_iff hB.KS_pos).mp hi
    have := hfit.slice
    omega

theorem appendV_layouts {HD Lmax key : Nat} {vrow : Nat → Int8} (hc : c.soc ∈ socTable) (ha : Accepted c HD Lmax)
    (hfit : Fits c HD Lmax) (h : Layouts (weightGeom c e .i8 Lmax HD) f w) (hkey : key < Lmax) :
    ∃ w', appendV c e w HD Lmax key vrow = some w' ∧
      Layouts (weightGeom c e .i8 Lmax HD) (fun k n => if k = key then vrow n else f k n) w' := by
  have hB := weightGeom_blocks hc e .i8 Lmax HD
  have hpos := hfit.pos
  have hle := hfit.le
  have hnmax : c.soc.nmax = 8192 := socTable_nmax hc
  have hwide : HD ≤ c.soc.nmax := by
    rw [hnmax]
    omega
  have hnc : pieceLen HD c.soc.nmax 0 = HD := pieceLen_of_le hwide
  have hks : key / c.int8Ks < (weightGeom c e .i8 Lmax HD).Sk := div_lt_pieces hB.KS_pos hkey
  have hdiv := Nat.div_add_mod' key c.int8Ks
  have hmod : key % c.int8Ks < pieceLen Lmax c.int8Ks (key / c.int8Ks) := mod_lt_pieceLen hB.KS_pos hkey
  refine h.replace (kt_geom c e Lmax HD) hB (Nat.dvd_of_mod_eq_zero ha.keys) (Nat.dvd_of_mod_eq_zero ha.columns)
    (sn_one hpos hwide) hks ?_ ?_ ?_
  · exact rowStores_replaces (t := fullTile (weightGeom c e .i8 Lmax HD) 0) (Nat.zero_mul _) hnc ⟨Nat.zero_le _, hkey⟩
  · have hk0 : key / c.int8Ks * c.int8Ks ≤ key := Nat.div_mul_le_self key c.int8Ks
    exact rowStores_replaces (t := (weightGeom c e .i8 Lmax HD).tile 0 (key / c.int8Ks)) (Nat.zero_mul _) hnc
      ⟨hk0, by change key - key / c.int8Ks * c.int8Ks < pieceLen Lmax c.int8Ks (key / c.int8Ks); omega⟩
  · intro i hi hne k n hk _
    refine if_neg fun heq => hne ?_
    have hu := (piece_unique hk).1
    change i * c.int8Ks + k = key at heq
    exact hu.symm.trans (congrArg (· / c.int8Ks) heq)

/-! ### Runs -/

variable {pk pv : PackEnv Int8} {HD Lmax : Nat} {kv kv' : KvResident} {cache : KvCache}

theorem packed_zero (hc : c.soc ∈ socTable) {p : PackEnv Int8} {K N : Nat}
    (h : orkiPack c e p .i8 K N (fun _ => 0) = some w) : Layouts (weightGeom c e .i8 K N) (fun _ _ => 0) w := by
  obtain ⟨hh, hdt, -⟩ := orkiPack_holds hc h
  have hnb : ntSz w.dt = 32 := by
    rw [hdt]
    rfl
  refine ⟨hh.K, hh.N, hh.Sk, hh.Sn, fun ns ks hns hks k n hk hn => ?_, fun b hb ns hns k n hk hn => ?_⟩
  · have := hh.Bb ns ks hns hks k n hk hn
    rwa [hnb] at this
  · have := hh.Bf b hb ns hns k n hk hn
    rwa [hnb] at this

/-- What `ork_kv_resident_alloc` leaves. -/
structure Fresh (c : OrkNpu) (e : F16Knobs) (HD Lmax : Nat) (kv : KvResident) : Prop where
  accepted : Accepted c HD Lmax
  HD : kv.HD = HD
  Lmax : kv.Lmax = Lmax
  Kp : kv.Kp = 512
  offline : c.fd < 0 → kv.wkt = none
  stored : 0 ≤ c.fd → kv.Stored c e .zero

theorem orkKvResidentAlloc_spec (hc : c.soc ∈ socTable) (h : orkKvResidentAlloc c e pk pv HD Lmax = some kv) :
    Fresh c e HD Lmax kv := by
  unfold orkKvResidentAlloc at h
  split at h
  · cases h
  · next hdims =>
      have ha : Accepted c HD Lmax := ⟨by omega, by omega, by omega, by omega⟩
      obtain ⟨wkt, hwkt, h⟩ := Option.bind_eq_some_iff.mp h
      obtain ⟨wv, hwv, h⟩ := Option.bind_eq_some_iff.mp h
      obtain rfl := Option.some.inj h
      unfold orkI8MmPack at hwkt hwv
      by_cases hfd : c.fd < 0
      · rw [if_pos hfd] at hwkt
        refine ⟨ha, rfl, rfl, rfl, fun _ => (Option.some.inj hwkt).symm, fun h => absurd hfd (by omega)⟩
      · rw [if_neg hfd] at hwkt hwv
        obtain ⟨wk, hk, rfl⟩ := Option.map_eq_some_iff.mp hwkt
        obtain ⟨wv, hv, rfl⟩ := Option.map_eq_some_iff.mp hwv
        exact ⟨ha, rfl, rfl, rfl, fun h => absurd h hfd, fun _ => ⟨⟨wk, rfl, packed_zero hc hk⟩, ⟨wv, rfl, packed_zero hc hv⟩⟩⟩

/-- One call on a cache that fits. -/
theorem orkKvAppend_stored (hc : c.soc ∈ socTable) (ha : Accepted c HD Lmax) (hfit : Fits c HD Lmax)
    (hHD : kv.HD = HD) (hL : kv.Lmax = Lmax) (hKp : kv.Kp = 512) (hs : kv.Stored c e cache) (a : KvAppend) :
    ∃ rc kv', orkKvAppend c e kv a = some (rc, kv') ∧ kv'.HD = HD ∧ kv'.Lmax = Lmax ∧ kv'.Kp = 512 ∧
      kv'.Stored c e (cache.append HD Lmax a) := by
  unfold orkKvAppend KvCache.append
  rw [hL]
  by_cases hkey : a.key < 0 ∨ (Lmax : Int) ≤ a.key
  · rw [if_pos hkey, if_pos hkey]
    exact ⟨-2, kv, rfl, hHD, hL, hKp, hs⟩
  · rw [if_neg hkey, if_neg hkey]
    have hlt : a.key.toNat < Lmax := by omega
    obtain ⟨⟨wkt, hwkt, hkt⟩, ⟨wv, hwv, hv⟩⟩ := hs
    rw [hL] at hkt hv
    rw [hHD] at hv
    obtain ⟨wkt', hrunk, hkt'⟩ : ∃ w', appendKt c e wkt HD 512 a.key.toNat a.kcol = some w' ∧ _ :=
      appendKt_layouts hc ha hfit hkt hlt
    obtain ⟨wv', hrunv, hv'⟩ : ∃ w', appendV c e wv HD Lmax a.key.toNat a.vrow = some w' ∧ _ :=
      appendV_layouts hc ha hfit hv hlt
    rw [hHD, hKp, hwkt, hwv]
    refine ⟨0, { kv with wkt := some wkt', wv := some wv' }, ?_, hHD, hL, hKp, ⟨wkt', rfl, ?_⟩, ⟨wv', rfl, ?_⟩⟩
    · dsimp only [Option.bind_eq_bind, Option.bind_some]
      rw [hrunk, Option.bind_some, hrunv, Option.bind_some, hHD, hL, hKp]
      rfl
    · dsimp only
      rw [hL]
      exact hkt'
    · dsimp only
      rw [hL, hHD]
      exact hv'

theorem orkKvAppends_stored (hc : c.soc ∈ socTable) (ha : Accepted c HD Lmax) (hfit : Fits c HD Lmax)
    (hHD : kv.HD = HD) (hL : kv.Lmax = Lmax) (hKp : kv.Kp = 512) (hs : kv.Stored c e cache) (calls : List KvAppend) :
    ∃ kv', orkKvAppends c e kv calls = some kv' ∧ kv'.Stored c e (calls.foldl (KvCache.append HD Lmax) cache) := by
  induction calls generalizing kv cache with
  | nil => exact ⟨kv, rfl, hs⟩
  | cons a as ih =>
      obtain ⟨rc, kv', hrun, hHD', hL', hKp', hs'⟩ := orkKvAppend_stored hc ha hfit hHD hL hKp hs a
      obtain ⟨kv'', hruns, hs''⟩ := ih hHD' hL' hKp' hs'
      refine ⟨kv'', ?_, hs''⟩
      unfold orkKvAppends
      rw [hrun]
      exact hruns

/-! ### Caches that do not fit -/

theorem storeBf_dims {w' : OrkW Int8} {i : Nat} (h : storeBf c w i l = some w') :
    w'.K = w.K ∧ w'.N = w.N ∧ w'.Sk = w.Sk ∧ w'.Sn = w.Sn ∧ w'.Bb = w.Bb := by
  unfold storeBf at h
  split at h
  · obtain rfl := Option.some.inj h
    exact ⟨rfl, rfl, rfl, rfl, rfl⟩
  · obtain ⟨b, -, rfl⟩ := Option.map_eq_some_iff.mp h
    exact ⟨rfl, rfl, rfl, rfl, rfl⟩

/-- A call that goes through has stored into an existing K-sliced tile, inside it, and into no other. -/
theorem storeBb_dims {w' : OrkW Int8} {i : Nat} (h : storeBb c e w i l = some w') :
    i < w.Sk * w.Sn ∧ (∀ p ∈ l, p.1 < bbSize c e w i) ∧ w'.Bb = Function.update w.Bb i (stores (w.Bb i) l) := by
  unfold storeBb storeInto at h
  split at h
  · next hin =>
      obtain rfl := Option.some.inj h
      exact ⟨hin.1, hin.2, rfl⟩
  · cases h

theorem appendKt_inv {w' : OrkW Int8} {key : Nat} {kcol : Nat → Int8} (h : Layouts (weightGeom c e .i8 512 Lmax) f w)
    (hrun : appendKt c e w HD 512 key kcol = some w') :
    (∀ p ∈ colStores HD 16 key kcol, p.1 < pgup (pieceLen 512 c.int8Ks 0 * pieceLen Lmax c.soc.nmax 0)) ∧
      w'.Bb = Function.update w.Bb 0 (stores (w.Bb 0) (colStores HD 16 key kcol)) := by
  obtain ⟨w₁, hw₁, hrun⟩ := Option.bind_eq_some_iff.mp hrun
  obtain ⟨hK, hN, hSk, -, hBb⟩ := storeBf_dims hw₁
  obtain ⟨-, hin, hBb'⟩ := storeBb_dims hrun
  unfold bbSize at hin
  rw [hK, hN, h.K, h.N, Nat.zero_div, Nat.zero_mod] at hin
  rw [hBb] at hBb'
  exact ⟨hin, hBb'⟩

theorem orkKvAppends_one {a : KvAppend} (hkey : ¬ (a.key < 0 ∨ (kv.Lmax : Int) ≤ a.key))
    (h : orkKvAppends c e kv [a] = some kv') : ∃ wkt wkt' wv wv', kv.wkt = some wkt ∧ kv.wv = some wv ∧
      appendKt c e wkt kv.HD kv.Kp a.key.toNat a.kcol = some wkt' ∧
      appendV c e wv kv.HD kv.Lmax a.key.toNat a.vrow = some wv' ∧ kv' = { kv with wkt := some wkt', wv := some wv' } := by
  unfold orkKvAppends orkKvAppend at h
  rw [if_neg hkey] at h
  obtain ⟨r, hr, h⟩ := Option.bind_eq_some_iff.mp h
  obtain ⟨wkt, hwkt, hr⟩ := Option.bind_eq_some_iff.mp hr
  obtain ⟨wkt', hwkt', hr⟩ := Option.bind_eq_some_iff.mp hr
  obtain ⟨wv, hwv, hr⟩ := Option.bind_eq_some_iff.mp hr
  obtain ⟨wv', hwv', hr⟩ := Option.bind_eq_some_iff.mp hr
  obtain rfl := Option.some.inj hr
  obtain rfl := Option.some.inj h
  exact ⟨wkt, wkt', wv, wv', hwkt, hwv, hwkt', hwv', rfl⟩

/-- After the call for `a` the cache stores what it should. -/
def GoodCall (c : OrkNpu) (e : F16Knobs) (HD Lmax : Nat) (kv : KvResident) (a : KvAppend) : Prop :=
  ∃ kv', orkKvAppends c e kv [a] = some kv' ∧ kv'.Stored c e (KvCache.zero.append HD Lmax a)

/-- No columns: V has no tile to write to. -/
theorem not_goodCall_empty (hk : Fresh c e HD Lmax kv) (hs : kv.Stored c e .zero) (h0 : HD = 0) :
    ¬ GoodCall c e HD Lmax kv ⟨0, fun _ => 0, fun _ => 0⟩ := by
  rintro ⟨kv', hrun, -⟩
  have hge := hk.accepted.ge
  have hkey : ¬ ((0 : Int) < 0 ∨ (kv.Lmax : Int) ≤ 0) := by
    rw [hk.Lmax]
    omega
  obtain ⟨wkt, wkt', wv, wv', -, hwv, -, hrunv, -⟩ := orkKvAppends_one hkey hrun
  obtain ⟨v, hv, hlay⟩ := hs.wv
  obtain rfl := Option.some.inj (hwv.symm.trans hv)
  obtain ⟨w₁, hw₁, hrunv⟩ := Option.bind_eq_some_iff.mp hrunv
  have hSn : w₁.Sn = 0 := by
    rw [(storeBf_dims hw₁).2.2.2.1, hlay.Sn, hk.HD, h0]
    exact Nat.div_eq_of_lt (by have := hk.accepted.le; change 0 + c.soc.nmax - 1 < c.soc.nmax; omega)
  have hlt := (storeBb_dims hrunv).1
  rw [hSn, Nat.mul_zero] at hlt
  exact Nat.not_lt_zero _ hlt

/-- More than 512 columns: the last key's rows run past the end of the tile. -/
theorem not_goodCall_deep (hk : Fresh c e HD Lmax kv) (hs : kv.Stored c e .zero) (hgt : 512 < HD) :
    ¬ GoodCall c e HD Lmax kv ⟨(Lmax : Int) - 1, fun _ => 0, fun _ => 0⟩ := by
  rintro ⟨kv', hrun, -⟩
  have hge := hk.accepted.ge
  have hmod := hk.accepted.keys
  have hkey : ¬ ((Lmax : Int) - 1 < 0 ∨ (kv.Lmax : Int) ≤ (Lmax : Int) - 1) := by
    rw [hk.Lmax]
    omega
  obtain ⟨wkt, wkt', wv, wv', hwkt, -, hrunk, -, -⟩ := orkKvAppends_one hkey hrun
  obtain ⟨v, hv, hlay⟩ := hs.wkt
  obtain rfl := Option.some.inj (hwkt.symm.trans hv)
  rw [hk.Lmax] at hlay
  rw [hk.HD, hk.Kp] at hrunk
  obtain ⟨hin, -⟩ := appendKt_inv hlay hrunk
  have hlast : ((Lmax : Int) - 1).toNat = Lmax - 1 := by omega
  rw [hlast, pieceLen_of_le hk.accepted.le] at hin
  have hbound := hin _ (List.mem_map_of_mem (List.mem_range.mpr hgt))
  have hsize : pgup (pieceLen 512 c.int8Ks 0 * Lmax) ≤ 512 * Lmax := by
    have hle : pieceLen 512 c.int8Ks 0 * Lmax ≤ 512 * Lmax := by
      refine Nat.mul_le_mul_right _ ?_
      unfold pieceLen
      split <;> omega
    unfold pgup
    omega
  dsimp only at hbound
  omega

/-- Fewer rows in a K-slice than columns: the other slices are not written. -/
theorem not_goodCall_sliced (hk : Fresh c e HD Lmax kv) (hs : kv.Stored c e .zero)
    (hKS : c.int8Ks < 512) (hlt : c.int8Ks < HD) : ¬ GoodCall c e HD Lmax kv ⟨0, fun _ => 1, fun _ => 0⟩ := by
  rintro ⟨kv', hrun, hs'⟩
  have hge := hk.accepted.ge
  have hkey : ¬ ((0 : Int) < 0 ∨ (kv.Lmax : Int) ≤ 0) := by
    rw [hk.Lmax]
    omega
  obtain ⟨wkt, wkt', wv, wv', hwkt, -, hrunk, -, rfl⟩ := orkKvAppends_one hkey hrun
  obtain ⟨v, hv, hlay⟩ := hs.wkt
  obtain rfl := Option.some.inj (hwkt.symm.trans hv)
  obtain ⟨v, hv, hlay'⟩ := hs'.wkt
  obtain rfl := Option.some.inj hv
  rw [hk.Lmax] at hlay
  dsimp only at hlay'
  rw [hk.Lmax] at hlay'
  rw [hk.HD, hk.Kp] at hrunk
  obtain ⟨-, hBb⟩ := appendKt_inv hlay hrunk
  have hpos := c.int8Ks_spec.1
  have hSn : 0 < (weightGeom c e .i8 512 Lmax).Sn :=
    (lt_pieces_iff (by have := hk.accepted.le; change 0 < c.soc.nmax; omega)).mpr (by change 0 * _ < Lmax; omega)
  have hSk : 1 < (weightGeom c e .i8 512 Lmax).Sk := (lt_pieces_iff hpos).mpr (by change 1 * c.int8Ks < 512; omega)
  have hrow : 0 < ((weightGeom c e .i8 512 Lmax).tile 0 1).Kp := pieceLen_pos hpos hSk
  have hcol : 0 < ((weightGeom c e .i8 512 Lmax).tile 0 1).Nc := by
    change 0 < pieceLen Lmax c.soc.nmax 0
    rw [pieceLen_of_le hk.accepted.le]
    omega
  have hold := hlay.Bb 0 1 hSn hSk 0 0 hrow hcol
  have hnew := hlay'.Bb 0 1 hSn hSk 0 0 hrow hcol
  rw [hBb, Nat.zero_mul, Nat.zero_add, Function.update_of_ne Nat.one_ne_zero] at hnew
  rw [Nat.zero_mul, Nat.zero_add] at hold
  rw [hold] at hnew
  have hval : (KvCache.zero.append HD Lmax ⟨0, fun _ => 1, fun _ => 0⟩).kt (1 * c.int8Ks + 0) (0 * c.soc.nmax + 0) = 1 := by
    rw [KvCache.append_kt (by rwa [hk.Lmax] at hkey)]
    exact if_pos ⟨Nat.zero_mul _, by omega⟩
  exact absurd (show (0 : Int8) = 1 from hnew.trans hval) (by decide)

/-- Narrow K-slices and more than one block of keys: a key of the second block is written behind its place. -/
theorem not_goodCall_wide (hk : Fresh c e HD Lmax kv) (hs : kv.Stored c e .zero)
    (hpos : 0 < HD) (hKS : c.int8Ks < 512) (hne : Lmax ≠ 32) :
    ¬ GoodCall c e HD Lmax kv ⟨32, fun k => if k = 0 then 1 else 0, fun _ => 0⟩ := by
  rintro ⟨kv', hrun, hs'⟩
  have hge := hk.accepted.ge
  have hmod := hk.accepted.keys
  have hkey : ¬ ((32 : Int) < 0 ∨ (kv.Lmax : Int) ≤ 32) := by
    rw [hk.Lmax]
    omega
  obtain ⟨wkt, wkt', wv, wv', hwkt, -, hrunk, -, rfl⟩ := orkKvAppends_one hkey hrun
  obtain ⟨v, hv, hlay⟩ := hs.wkt
  obtain rfl := Option.some.inj (hwkt.symm.trans hv)
  obtain ⟨v, hv, hlay'⟩ := hs'.wkt
  obtain rfl := Option.some.inj hv
  rw [hk.Lmax] at hlay
  dsimp only at hlay'
  rw [hk.Lmax] at hlay'
  rw [hk.HD, hk.Kp] at hrunk
  obtain ⟨-, hBb⟩ := appendKt_inv hlay hrunk
  have hKpos := c.int8Ks_spec.1
  have hSn : 0 < (weightGeom c e .i8 512 Lmax).Sn :=
    (lt_pieces_iff (by have := hk.accepted.le; change 0 < c.soc.nmax; omega)).mpr (by change 0 * _ < Lmax; omega)
  have hSk : 0 < (weightGeom c e .i8 512 Lmax).Sk := (lt_pieces_iff hKpos).mpr (by change 0 * c.int8Ks < 512; omega)
  have hrow : 0 < ((weightGeom c e .i8 512 Lmax).tile 0 0).Kp := pieceLen_pos hKpos hSk
  have hcol : 32 < ((weightGeom c e .i8 512 Lmax).tile 0 0).Nc := by
    change 32 < pieceLen Lmax c.soc.nmax 0
    rw [pieceLen_of_le hk.accepted.le]
    omega
  have hKp : ((weightGeom c e .i8 512 Lmax).tile 0 0).Kp = c.int8Ks := pieceLen_eq_size (by change (0 + 1) * c.int8Ks ≤ 512; omega)
  have hold := hlay.Bb 0 0 hSn hSk 0 32 hrow hcol
  have hnew := hlay'.Bb 0 0 hSn hSk 0 32 hrow hcol
  rw [Nat.zero_mul, Nat.zero_add] at hold hnew
  rw [hBb, Function.update_self, stores.of_forall_ne, hold] at hnew
  · have hval : (KvCache.zero.append HD Lmax ⟨32, fun k => if k = 0 then 1 else 0, fun _ => 0⟩).kt (0 * c.int8Ks + 0)
        (0 * c.soc.nmax + 32) = 1 := by
      rw [KvCache.append_kt (by rwa [hk.Lmax] at hkey), Nat.zero_mul, Nat.zero_mul]
      exact if_pos ⟨rfl, hpos⟩
    exact absurd (show (0 : Int8) = 1 from hnew.trans hval) (by decide)
  · intro p hp
    obtain ⟨k, -, rfl⟩ := List.mem_map.mp hp
    rw [hKp]
    unfold wIndex
    dsimp only
    have : (32 : Int).toNat = 32 := rfl
    omega

/-- The tiles of a cache are written where they are, for all calls, exactly if the cache fits. -/
theorem kvResident_stored_iff (hc : c.soc ∈ socTable) (h : orkKvResidentAlloc c e pk pv HD Lmax = some kv) :
    (∀ calls, ∃ kv', orkKvAppends c e kv calls = some kv' ∧
      kv'.Stored c e (calls.foldl (KvCache.append HD Lmax) .zero)) ↔ Fits c HD Lmax := by
  have hk := orkKvResidentAlloc_spec hc h
  constructor
  · intro hall
    obtain ⟨kv', hnil, hs⟩ := hall []
    obtain rfl := Option.some.inj hnil
    have hgood : ∀ a, GoodCall c e HD Lmax kv a := fun a => hall [a]
    have hdev : 0 ≤ c.fd := by
      by_contra hfd
      obtain ⟨w, hw, -⟩ := hs.wkt
      rw [hk.offline (by omega)] at hw
      cases hw
    have hpos : 0 < HD := Nat.pos_of_ne_zero fun h0 => not_goodCall_empty hk hs h0 (hgood _)
    have hle : HD ≤ 512 := Nat.not_lt.mp fun hgt => not_goodCall_deep hk hs hgt (hgood _)
    refine ⟨hdev, hpos, hle, ?_⟩
    by_contra hno
    by_cases hslice : c.int8Ks < HD
    · exact not_goodCall_sliced hk hs (by omega) hslice (hgood _)
    · exact not_goodCall_wide hk hs hpos (by omega) (by omega) (hgood _)
  · intro hfit calls
    exact orkKvAppends_stored hc hk.accepted hfit hk.HD hk.Lmax hk.Kp (hk.stored hfit.device) calls

/-- With every buffer granted a cache is made. -/
theorem exists_orkKvResidentAlloc (hfd : 0 ≤ c.fd) (ha : Accepted c HD Lmax) :
    ∃ kv, orkKvResidentAlloc c e (granted 0) (granted 0) HD Lmax = some kv := by
  have hpack : ∀ K N, K % 32 = 0 → N % 32 = 0 → ∃ w, orkI8MmPack c e (granted 0) K N (fun _ => 0) = some w := by
    intro K N hK hN
    obtain ⟨w, hw, -⟩ := exists_orkiPack c e (0 : Int8) .i8 hK hN fun _ => 0
    refine ⟨some w, ?_⟩
    unfold orkI8MmPack
    rw [if_neg (by omega), hw]
    rfl
  obtain ⟨wkt, hkt⟩ := hpack 512 Lmax rfl ha.keys
  obtain ⟨wv, hv⟩ := hpack Lmax HD ha.keys ha.columns
  have hge := ha.ge
  have hle := ha.le
  have hkeys := ha.keys
  have hcols := ha.columns
  refine ⟨⟨wkt, wv, HD, Lmax, 512⟩, ?_⟩
  unfold orkKvResidentAlloc
  rw [if_neg (by omega), hkt, hv]
  rfl

/-- 128 columns and 1024 keys. -/
theorem kvResident_stored_128 : ∃ kv,
    orkKvResidentAlloc ⟨3, socRk3588, 0⟩ ⟨0, 0⟩ (granted 0) (granted 0) 128 1024 = some kv ∧
      ((∀ calls, ∃ kv', orkKvAppends ⟨3, socRk3588, 0⟩ ⟨0, 0⟩ kv calls = some kv' ∧
        kv'.Stored ⟨3, socRk3588, 0⟩ ⟨0, 0⟩ (calls.foldl (KvCache.append 128 1024) .zero)) ↔
        Fits ⟨3, socRk3588, 0⟩ 128 1024) := by
  obtain ⟨kv, h⟩ := @exists_orkKvResidentAlloc ⟨3, socRk3588, 0⟩ ⟨0, 0⟩ 128 1024 (by decide)
    ⟨rfl, rfl, by decide, by decide⟩
  exact ⟨kv, h, kvResident_stored_iff (by decide) h⟩

/-- 576 columns are accepted, and the first call already breaks the cache. -/
theorem kvResident_not_stored : ∃ kv,
    orkKvResidentAlloc ⟨3, socRk3588, 0⟩ ⟨0, 0⟩ (granted 0) (granted 0) 576 32 = some kv ∧
      ¬ ∃ kv', orkKvAppends ⟨3, socRk3588, 0⟩ ⟨0, 0⟩ kv [⟨31, fun _ => 0, fun _ => 0⟩] = some kv' ∧
        kv'.Stored ⟨3, socRk3588, 0⟩ ⟨0, 0⟩ (KvCache.zero.append 576 32 ⟨31, fun _ => 0, fun _ => 0⟩) := by
  obtain ⟨kv, h⟩ := @exists_orkKvResidentAlloc ⟨3, socRk3588, 0⟩ ⟨0, 0⟩ 576 32 (by decide)
    ⟨rfl, rfl, by decide, by decide⟩
  have hk := orkKvResidentAlloc_spec (by decide) h
  exact ⟨kv, h, not_goodCall_deep hk (hk.stored (by decide)) (by decide)⟩

end OrkDriver.Run
