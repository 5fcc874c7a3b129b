import OrkDriver.Lib.Dot
import OrkDriver.Lib.Loops
import Mathlib.Algebra.BigOperators.Group.Finset.Sigma
import Mathlib.Data.List.GetD
import Mathlib.Order.Interval.Finset.Nat

/-!
The slicer of `ork_slice.h`: a matmul of any aligned shape as tiles the doorbell can run.
-/

namespace OrkDriver.Slice

open Finset
open OrkDriver.Lib

/-- `ork_tile`: half-open ranges. -/
structure OrkTile where
  k0 : Nat
  k1 : Nat
  n0 : Nat
  n1 : Nat
  m0 : Nat
  m1 : Nat
  deriving DecidableEq

/-- `ork_slice_caps`. -/
structure OrkSliceCaps where
  kmax : Nat
  kmul : Nat
  nmax : Nat
  nmul : Nat
  mmax : Nat

/-- `ork__slice_step`. -/
def orkSliceStep (cap mul : Nat) : Nat :=
  let s := cap / mul * mul
  if s < mul then mul else s

/-- `x0 + s < X ? x0 + s : X`. -/
def sliceEnd (X s x0 : Nat) : Nat := if x0 + s < X then x0 + s else X

/-- What one turn of the loops writes. -/
def tile (K N M ks ns ms i j l : Nat) : OrkTile :=
  ⟨l * ks, sliceEnd K ks (l * ks), j * ns, sliceEnd N ns (j * ns), i * ms, sliceEnd M ms (i * ms)⟩

/-- The turns of the loops over M, N and K. -/
def turns (K N M ks ns ms : Nat) : List OrkTile :=
  (List.range (pieces M ms)).flatMap fun i => (List.range (pieces N ns)).flatMap fun j =>
    (List.range (pieces K ks)).map fun l => tile K N M ks ns ms i j l

/-- `if (n >= max) return -1; out[n] = ..; n++;` -/
def put (max : Int) (s : Nat × (Nat → OrkTile)) (t : OrkTile) : Except (Nat × (Nat → OrkTile)) (Nat × (Nat → OrkTile)) :=
  if max ≤ s.1 then .error s else .ok (s.1 + 1, Function.update s.2 s.1 t)

/-- `ork_slice_matmul`: what it returns and what `out` holds afterwards. -/
def orkSliceMatmul (K N M : Int) (c : OrkSliceCaps) (out : Nat → OrkTile) (max : Int) : Int × (Nat → OrkTile) :=
  if K ≤ 0 ∨ N ≤ 0 ∨ M ≤ 0 then (-2, out)
  else if K % c.kmul ≠ 0 ∨ N % c.nmul ≠ 0 then (-2, out)
  else
    let ks := orkSliceStep c.kmax c.kmul
    let ns := orkSliceStep c.nmax c.nmul
    match (turns K.toNat N.toNat M.toNat ks ns c.mmax).foldlM (put max) (0, out) with
    | .error s => (-1, s.2)
    | .ok s => (s.1, s.2)

/-- `ork_slice_kparts`. -/
def orkSliceKparts (K : Nat) (c : OrkSliceCaps) : Nat :=
  let ks := orkSliceStep c.kmax c.kmul
  (K + ks - 1) / ks

/-! ### Steps -/

theorem orkSliceStep_spec {cap mul : Nat} (h : 0 < mul) (hle : mul ≤ cap) :
    0 < orkSliceStep cap mul ∧ orkSliceStep cap mul ≤ cap ∧ mul ∣ orkSliceStep cap mul := by
  have hone : 0 < cap / mul := Nat.div_pos hle h
  have hs : mul ≤ cap / mul * mul := Nat.le_mul_of_pos_left mul hone
  unfold orkSliceStep
  rw [if_neg (Nat.not_lt.mpr hs)]
  exact ⟨Nat.lt_of_lt_of_le h hs, Nat.div_mul_le_self cap mul, Nat.dvd_mul_left mul _⟩

theorem sliceEnd_eq {X s i : Nat} (h : 0 < s) (hi : i < pieces X s) : sliceEnd X s (i * s) = i * s + pieceLen X s i := by
  rw [lt_pieces_iff h] at hi
  unfold sliceEnd pieceLen
  split_ifs <;> omega

/-! ### What the loops leave -/

/-- `out` with `l` from slot `n` on. -/
def fill (out : Nat → OrkTile) (n : Nat) (l : List OrkTile) (x : Nat) : OrkTile :=
  if n ≤ x then l.getD (x - n) (out x) else out x

theorem fill_nil (out : Nat → OrkTile) (n : Nat) : fill out n [] = out := by
  funext x
  unfold fill
  split_ifs <;> rfl

theorem fill_cons (out : Nat → OrkTile) (n : Nat) (t : OrkTile) (l : List OrkTile) :
    fill (Function.update out n t) (n + 1) l = fill out n (t :: l) := by
  funext x
  unfold fill
  rcases Nat.lt_trichotomy x n with hlt | rfl | hgt
  · rw [if_neg (by omega), if_neg (by omega), Function.update_of_ne (by omega)]
  · rw [if_neg (by omega), if_pos (Nat.le_refl x), Function.update_self, Nat.sub_self, List.getD_cons_zero]
  · obtain ⟨d, rfl⟩ := Nat.exists_eq_add_of_lt hgt
    rw [if_pos (by omega), if_pos (by omega), Function.update_of_ne (by omega), show n + d + 1 - n = d + 1 by omega,
      show n + d + 1 - (n + 1) = d by omega, List.getD_cons_succ]

theorem fill_of_length_le {l : List OrkTile} {x : Nat} (out : Nat → OrkTile) (h : l.length ≤ x) : fill out 0 l x = out x := by
  unfold fill
  rw [if_pos (Nat.zero_le x), Nat.sub_zero, List.getD_eq_default l _ h]

theorem fill_take {l : List OrkTile} {m x : Nat} (out : Nat → OrkTile) (h : x < m) : fill out 0 (l.take m) x = fill out 0 l x := by
  unfold fill
  rw [if_pos (Nat.zero_le x), if_pos (Nat.zero_le x), Nat.sub_zero, List.getD_eq_getElem?_getD,
    List.getD_eq_getElem?_getD, List.getElem?_take_of_lt h]

theorem foldlM_put {max : Int} {n : Nat} (h : n ≤ max.toNat) (out : Nat → OrkTile) (l : List OrkTile) :
    l.foldlM (put max) (n, out) = if n + l.length ≤ max.toNat then .ok (n + l.length, fill out n l)
      else .error (max.toNat, fill out n (l.take (max.toNat - n))) := by
  induction l generalizing n out with
  | nil =>
      rw [List.length_nil, Nat.add_zero, if_pos h, fill_nil]
      rfl
  | cons t l ih =>
      rw [List.foldlM_cons]
      unfold put
      by_cases hfull : max ≤ n
      · have hn : max.toNat = n := by omega
        have hlen : ¬ n + (t :: l).length ≤ max.toNat := by
          rw [List.length_cons]
          omega
        rw [if_pos hfull, if_neg hlen, hn, Nat.sub_self, List.take_zero, fill_nil]
        rfl
      · have hroom : n + 1 ≤ max.toNat := by omega
        rw [if_neg hfull]
        refine (ih hroom (Function.update out n t)).trans ?_
        have hleft : max.toNat - n = max.toNat - (n + 1) + 1 := by omega
        rw [fill_cons, hleft, List.take_succ_cons, fill_cons, List.length_cons, Nat.add_assoc n 1, Nat.add_comm 1]

/-! ### The tiles -/

/-- The multiplication `A[m][k]*B[k][n]` is one of the tile's. -/
def OrkTile.Has (t : OrkTile) (m n k : Nat) : Prop :=
  (t.m0 ≤ m ∧ m < t.m1) ∧ (t.n0 ≤ n ∧ n < t.n1) ∧ t.k0 ≤ k ∧ k < t.k1

instance (t : OrkTile) (m n k : Nat) : Decidable (t.Has m n k) := inferInstanceAs (Decidable (_ ∧ _))

/-- The first `count` slots of `t` cut the product of an `M×K` by a `K×N` matrix into tiles. -/
structure Partition (K N M : Nat) (c : OrkSliceCaps) (count : Nat) (t : Nat → OrkTile) : Prop where
  once : ∀ m < M, ∀ n < N, ∀ k < K, ∃! x, x < count ∧ (t x).Has m n k
  inside : ∀ x < count, ((t x).m0 < (t x).m1 ∧ (t x).m1 ≤ M) ∧ ((t x).n0 < (t x).n1 ∧ (t x).n1 ≤ N) ∧
    (t x).k0 < (t x).k1 ∧ (t x).k1 ≤ K
  extents : ∀ x < count, (t x).m1 - (t x).m0 ≤ c.mmax ∧ (t x).n1 - (t x).n0 ≤ c.nmax ∧ (t x).k1 - (t x).k0 ≤ c.kmax
  aligned : ∀ x < count, c.nmul ∣ (t x).n1 - (t x).n0 ∧ c.kmul ∣ (t x).k1 - (t x).k0
  blocks : ∃ b, count = b * orkSliceKparts K c ∧ ∀ y < b, ∀ l < orkSliceKparts K c,
    (t (y * orkSliceKparts K c + l)).m0 = (t (y * orkSliceKparts K c)).m0 ∧
      (t (y * orkSliceKparts K c + l)).n0 = (t (y * orkSliceKparts K c)).n0 ∧
      (t (y * orkSliceKparts K c)).k0 = 0 ∧
      (t (y * orkSliceKparts K c + l)).k1 =
        if l + 1 = orkSliceKparts K c then K else (t (y * orkSliceKparts K c + (l + 1))).k0
  block_unique : ∀ x < count, ∀ y < count, (t x).m0 = (t y).m0 → (t x).n0 = (t y).n0 →
    x / orkSliceKparts K c = y / orkSliceKparts K c

section

variable {K N M ks ns ms : Nat}

theorem turns_eq (K N M ks ns ms : Nat) : turns K N M ks ns ms =
    (List.range (pieces M ms * pieces N ns * pieces K ks)).map fun x =>
      tile K N M ks ns ms (x / pieces K ks / pieces N ns) (x / pieces K ks % pieces N ns) (x % pieces K ks) := by
  have hinner : ∀ i, ((List.range (pieces N ns)).flatMap fun j => (List.range (pieces K ks)).map fun l =>
      tile K N M ks ns ms i j l) = (List.range (pieces N ns * pieces K ks)).map fun y =>
        tile K N M ks ns ms i (y / pieces K ks) (y % pieces K ks) :=
    fun i => flatMap_range_map (tile K N M ks ns ms i) _ _
  unfold turns
  rw [List.flatMap_congr fun i _ => hinner i, flatMap_range_map, Nat.mul_assoc]
  apply List.map_congr_left
  intro x _
  rw [Nat.mod_mul_left_div_self, Nat.mod_mul_left_mod, Nat.mul_comm (pieces N ns), Nat.div_div_eq_div_mul]

/-- One direction of a tile: it lies inside, has a point, and no more than a step of them. -/
theorem slice_bounds {X s i : Nat} (h : 0 < s) (hi : i < pieces X s) :
    (i * s < sliceEnd X s (i * s) ∧ sliceEnd X s (i * s) ≤ X) ∧ sliceEnd X s (i * s) - i * s ≤ s := by
  have hpos := pieceLen_pos h hi
  have hend := piece_le h hi
  have hsize := @pieceLen_le_size X s i
  rw [sliceEnd_eq h hi]
  omega

theorem slice_aligned {X s d i : Nat} (h : 0 < s) (hi : i < pieces X s) (hX : d ∣ X) (hs : d ∣ s) :
    d ∣ sliceEnd X s (i * s) - i * s := by
  rw [sliceEnd_eq h hi, Nat.add_sub_cancel_left]
  exact dvd_pieceLen hX hs

/-- The slice of a point. -/
theorem mem_slice_iff {X s x i : Nat} (h : 0 < s) (hi : i < pieces X s) (hx : x < X) :
    (i * s ≤ x ∧ x < sliceEnd X s (i * s)) ↔ i = x / s := by
  rw [sliceEnd_eq h hi]
  exact mem_piece_iff h hx

theorem slice_next {X s i : Nat} (h : 0 < s) (hi : i < pieces X s) :
    sliceEnd X s (i * s) = if i + 1 = pieces X s then X else (i + 1) * s := by
  rw [lt_pieces_iff h] at hi
  have hlast : i + 1 < pieces X s ↔ (i + 1) * s < X := lt_pieces_iff h
  rw [Nat.succ_mul] at hlast ⊢
  have hle : i + 1 ≤ pieces X s := (lt_pieces_iff h).mpr hi
  unfold sliceEnd
  split_ifs <;> omega

/-- Slot `x` names a block of M and N and a slice of K. -/
theorem indices_lt {pm pn pk x : Nat} (h : x < pm * pn * pk) : x / pk / pn < pm ∧ x / pk % pn < pn ∧ x % pk < pk := by
  have hpk : 0 < pk := Nat.pos_of_mul_pos_left (Nat.zero_lt_of_lt h)
  have hblock : x / pk < pm * pn := Nat.div_lt_of_lt_mul (by rwa [Nat.mul_comm])
  have hpn : 0 < pn := Nat.pos_of_mul_pos_left (Nat.zero_lt_of_lt hblock)
  exact ⟨Nat.div_lt_of_lt_mul (by rwa [Nat.mul_comm]), Nat.mod_lt _ hpn, Nat.mod_lt _ hpk⟩

theorem partition_of_tiles {c : OrkSliceCaps} (hk : 0 < c.kmul) (hkmax : c.kmul ≤ c.kmax) (hn : 0 < c.nmul)
    (hnmax : c.nmul ≤ c.nmax) (hm : 0 < c.mmax) (hK : c.kmul ∣ K) (hN : c.nmul ∣ N)
    (hks : orkSliceStep c.kmax c.kmul = ks) (hns : orkSliceStep c.nmax c.nmul = ns) {t : Nat → OrkTile}
    (ht : ∀ x < pieces M c.mmax * pieces N ns * pieces K ks, t x =
      tile K N M ks ns c.mmax (x / pieces K ks / pieces N ns) (x / pieces K ks % pieces N ns) (x % pieces K ks)) :
    Partition K N M c (pieces M c.mmax * pieces N ns * pieces K ks) t := by
  obtain ⟨hks0, hksmax, hksmul⟩ := orkSliceStep_spec hk hkmax
  obtain ⟨hns0, hnsmax, hnsmul⟩ := orkSliceStep_spec hn hnmax
  have hparts : orkSliceKparts K c = pieces K ks := by
    unfold orkSliceKparts pieces
    rw [hks]
  rw [hks] at hks0 hksmax hksmul
  rw [hns] at hns0 hnsmax hnsmul
  have hhas : ∀ x < pieces M c.mmax * pieces N ns * pieces K ks, ∀ m < M, ∀ n < N, ∀ k < K, (t x).Has m n k ↔
      x / pieces K ks / pieces N ns = m / c.mmax ∧ x / pieces K ks % pieces N ns = n / ns ∧
        x % pieces K ks = k / ks := by
    intro x hx m hm' n hn' k hk'
    obtain ⟨hi, hj, hl⟩ := indices_lt hx
    rw [ht x hx]
    exact and_congr (mem_slice_iff hm hi hm') (and_congr (mem_slice_iff hns0 hj hn') (mem_slice_iff hks0 hl hk'))
  refine ⟨fun m hm' n hn' k hk' => ?_, fun x hx => ?_, fun x hx => ?_, fun x hx => ?_, ?_, fun x hx y hy h0 h1 => ?_⟩
  · have hi := div_lt_pieces hm hm'
    have hj := div_lt_pieces hns0 hn'
    have hl := div_lt_pieces hks0 hk'
    have hblock := digits_lt hi hj
    have hx := digits_lt hblock hl
    obtain ⟨hdiv, hmod⟩ := digits_div_mod hl (m / c.mmax * pieces N ns + n / ns)
    obtain ⟨hdiv', hmod'⟩ := digits_div_mod hj (m / c.mmax)
    refine ⟨(m / c.mmax * pieces N ns + n / ns) * pieces K ks + k / ks, ⟨hx, ?_⟩, ?_⟩
    · rw [hhas _ hx m hm' n hn' k hk', hdiv, hmod, hdiv', hmod']
      exact ⟨rfl, rfl, rfl⟩
    · rintro y ⟨hy, hmem⟩
      obtain ⟨h1, h2, h3⟩ := (hhas y hy m hm' n hn' k hk').mp hmem
      rw [← h1, ← h2, ← h3, Nat.div_add_mod', Nat.div_add_mod']
  · obtain ⟨hi, hj, hl⟩ := indices_lt hx
    rw [ht x hx]
    exact ⟨(slice_bounds hm hi).1, (slice_bounds hns0 hj).1, (slice_bounds hks0 hl).1⟩
  · obtain ⟨hi, hj, hl⟩ := indices_lt hx
    rw [ht x hx]
    exact ⟨(slice_bounds hm hi).2, Nat.le_trans (slice_bounds hns0 hj).2 hnsmax,
      Nat.le_trans (slice_bounds hks0 hl).2 hksmax⟩
  · obtain ⟨-, hj, hl⟩ := indices_lt hx
    rw [ht x hx]
    exact ⟨slice_aligned hns0 hj hN hnsmul, slice_aligned hks0 hl hK hksmul⟩
  · refine ⟨pieces M c.mmax * pieces N ns, by rw [hparts], fun y hy l hl => ?_⟩
    rw [hparts] at hl ⊢
    have h0 : 0 < pieces K ks := Nat.zero_lt_of_lt hl
    have hslot : ∀ l < pieces K ks, t (y * pieces K ks + l) =
        tile K N M ks ns c.mmax (y / pieces N ns) (y % pieces N ns) l := by
      intro l hl
      obtain ⟨hdiv, hmod⟩ := digits_div_mod hl y
      rw [ht _ (digits_lt hy hl), hdiv, hmod]
    have hfirst : t (y * pieces K ks) = tile K N M ks ns c.mmax (y / pieces N ns) (y % pieces N ns) 0 := hslot 0 h0
    rw [hslot l hl, hfirst]
    refine ⟨rfl, rfl, Nat.zero_mul ks, ?_⟩
    refine (slice_next hks0 hl).trans ?_
    split_ifs with hlast
    · rfl
    · rw [hslot (l + 1) (by omega)]
      rfl
  · rw [hparts]
    obtain ⟨hi, hj, -⟩ := indices_lt hx
    obtain ⟨hi', hj', -⟩ := indices_lt hy
    rw [ht x hx, ht y hy] at h0 h1
    have hm0 := Nat.eq_of_mul_eq_mul_right hm h0
    have hn0 := Nat.eq_of_mul_eq_mul_right hns0 h1
    rw [← Nat.div_add_mod' (x / pieces K ks) (pieces N ns), hm0, hn0, Nat.div_add_mod']

/-- Tiles that cut the product add up to it. -/
theorem Partition.accumulate {c : OrkSliceCaps} {count : Nat} {t : Nat → OrkTile} (h : Partition K N M c count t)
    {R : Type*} [NonUnitalNonAssocSemiring R] (A B : Nat → Nat → R) {m n : Nat} (hm : m < M) (hn : n < N) :
    (∑ x ∈ range count, if ((t x).m0 ≤ m ∧ m < (t x).m1) ∧ (t x).n0 ≤ n ∧ n < (t x).n1 then
      ∑ k ∈ Ico (t x).k0 (t x).k1, A m k * B k n else 0) = ∑ k ∈ range K, A m k * B k n := by
  have htile : ∀ x ∈ range count, (if ((t x).m0 ≤ m ∧ m < (t x).m1) ∧ (t x).n0 ≤ n ∧ n < (t x).n1 then
      ∑ k ∈ Ico (t x).k0 (t x).k1, A m k * B k n else 0) =
      ∑ k ∈ range K, if (t x).Has m n k then A m k * B k n else 0 := by
    intro x hx
    obtain ⟨-, -, -, hend⟩ := h.inside x (mem_range.mp hx)
    have hIco : Ico (t x).k0 (t x).k1 = (range K).filter fun k => (t x).k0 ≤ k ∧ k < (t x).k1 := by
      ext k
      rw [mem_Ico, mem_filter, mem_range]
      exact ⟨fun hk => ⟨Nat.lt_of_lt_of_le hk.2 hend, hk⟩, fun hk => hk.2⟩
    split_ifs with hblock
    · rw [hIco, sum_filter]
      refine sum_congr rfl fun k _ => if_congr ?_ rfl rfl
      exact ⟨fun hk => ⟨hblock.1, hblock.2, hk⟩, fun hk => hk.2.2⟩
    · refine (sum_eq_zero fun k _ => if_neg fun hk => hblock ⟨hk.1, hk.2.1⟩).symm
  rw [sum_congr rfl htile, sum_comm]
  refine sum_congr rfl fun k hk => ?_
  obtain ⟨x, ⟨hx, hmem⟩, hunique⟩ := h.once m hm n hn k (mem_range.mp hk)
  rw [sum_eq_single x]
  · rw [if_pos hmem]
  · exact fun y hy hne => if_neg fun hy' => hne (hunique y ⟨mem_range.mp hy, hy'⟩)
  · exact fun hx' => absurd (mem_range.mpr hx) hx'

end

/-- A shape the slicer takes. -/
def Aligned (K N M : Int) (c : OrkSliceCaps) : Prop :=
  (0 < K ∧ 0 < N ∧ 0 < M) ∧ (c.kmul : Int) ∣ K ∧ (c.nmul : Int) ∣ N

/-- How many tiles the partition has. -/
def tileCount (K N M : Nat) (c : OrkSliceCaps) : Nat :=
  pieces M c.mmax * pieces N (orkSliceStep c.nmax c.nmul) * orkSliceKparts K c

theorem length_turns (K N M : Nat) (c : OrkSliceCaps) :
    (turns K N M (orkSliceStep c.kmax c.kmul) (orkSliceStep c.nmax c.nmul) c.mmax).length = tileCount K N M c := by
  rw [turns_eq, List.length_map, List.length_range]
  rfl

theorem orkSliceMatmul_refused {K N M : Int} {c : OrkSliceCaps} (h : ¬ Aligned K N M c) (out : Nat → OrkTile)
    (max : Int) : orkSliceMatmul K N M c out max = (-2, out) := by
  unfold orkSliceMatmul
  by_cases hpos : K ≤ 0 ∨ N ≤ 0 ∨ M ≤ 0
  · rw [if_pos hpos]
  · have hmul : K % c.kmul ≠ 0 ∨ N % c.nmul ≠ 0 := by
      by_contra hno
      rw [not_or, not_not, not_not] at hno
      exact h ⟨by omega, Int.dvd_of_emod_eq_zero hno.1, Int.dvd_of_emod_eq_zero hno.2⟩
    rw [if_neg hpos, if_pos hmul]

theorem orkSliceMatmul_aligned {K N M : Int} {c : OrkSliceCaps} (h : Aligned K N M c) (out : Nat → OrkTile)
    (max : Int) :
    let ks := orkSliceStep c.kmax c.kmul
    let ns := orkSliceStep c.nmax c.nmul
    let l := turns K.toNat N.toNat M.toNat ks ns c.mmax
    orkSliceMatmul K N M c out max = if tileCount K.toNat N.toNat M.toNat c ≤ max.toNat
      then ((tileCount K.toNat N.toNat M.toNat c : Int), fill out 0 l) else (-1, fill out 0 (l.take max.toNat)) := by
  obtain ⟨⟨hK, hN, hM⟩, hkmul, hnmul⟩ := h
  have hpos : ¬ (K ≤ 0 ∨ N ≤ 0 ∨ M ≤ 0) := by omega
  have hmul : ¬ (K % c.kmul ≠ 0 ∨ N % c.nmul ≠ 0) := by
    rw [Int.emod_eq_zero_of_dvd hkmul, Int.emod_eq_zero_of_dvd hnmul]
    exact fun hor => hor.elim (fun h => h rfl) fun h => h rfl
  unfold orkSliceMatmul
  dsimp only
  rw [if_neg hpos, if_neg hmul, foldlM_put (Nat.zero_le _), length_turns, Nat.zero_add, Nat.sub_zero]
  by_cases hfit : tileCount K.toNat N.toNat M.toNat c ≤ max.toNat
  · rw [if_pos hfit, if_pos hfit]
  · rw [if_neg hfit, if_neg hfit]

theorem tileCount_pos {K N M : Nat} {c : OrkSliceCaps} (hk : 0 < c.kmul) (hkmax : c.kmul ≤ c.kmax) (hn : 0 < c.nmul)
    (hnmax : c.nmul ≤ c.nmax) (hm : 0 < c.mmax) (hK : 0 < K) (hN : 0 < N) (hM : 0 < M) : 0 < tileCount K N M c := by
  have hpos : ∀ {X s : Nat}, 0 < s → 0 < X → 0 < pieces X s := by
    intro X s hs hX
    rw [lt_pieces_iff hs, Nat.zero_mul]
    exact hX
  exact Nat.mul_pos (Nat.mul_pos (hpos hm hM) (hpos (orkSliceStep_spec hn hnmax).1 hN))
    (hpos (orkSliceStep_spec hk hkmax).1 hK)

/-- Of aligned shapes the tiles partition the product if they fit `out`; else as many of them as fit are written. -/
theorem orkSliceMatmul_partition {c : OrkSliceCaps} (hk : 0 < c.kmul) (hkmax : c.kmul ≤ c.kmax) (hn : 0 < c.nmul)
    (hnmax : c.nmul ≤ c.nmax) (hm : 0 < c.mmax) (K N M : Int) (out : Nat → OrkTile) (max : Int) {R : Type*}
    [NonUnitalNonAssocSemiring R] (A B : Nat → Nat → R) :
    let r := orkSliceMatmul K N M c out max
    let count := tileCount K.toNat N.toNat M.toNat c
    (0 ≤ r.1 → r.1 = count ∧ Partition K.toNat N.toNat M.toNat c count r.2 ∧ (∀ x, count ≤ x → r.2 x = out x) ∧
      ∀ m < M.toNat, ∀ n < N.toNat,
        (∑ x ∈ range count, if ((r.2 x).m0 ≤ m ∧ m < (r.2 x).m1) ∧ (r.2 x).n0 ≤ n ∧ n < (r.2 x).n1 then
          ∑ k ∈ Ico (r.2 x).k0 (r.2 x).k1, A m k * B k n else 0) = ∑ k ∈ range K.toNat, A m k * B k n) ∧
    (r.1 = -1 ↔ Aligned K N M c ∧ max < count) ∧
    (r.1 = -1 → (∀ x, max.toNat ≤ x → r.2 x = out x) ∧
      ∃ t, Partition K.toNat N.toNat M.toNat c count t ∧ ∀ x < max.toNat, r.2 x = t x) := by
  intro r count
  by_cases h : Aligned K N M c
  · have hr : r = _ := orkSliceMatmul_aligned h out max
    obtain ⟨⟨hK, hN, hM⟩, hkmul, hnmul⟩ := id h
    have hcount : 0 < count := tileCount_pos hk hkmax hn hnmax hm (by omega) (by omega) (by omega)
    have hturns := turns_eq K.toNat N.toNat M.toNat (orkSliceStep c.kmax c.kmul) (orkSliceStep c.nmax c.nmul) c.mmax
    have hpart : Partition K.toNat N.toNat M.toNat c count (fill out 0 (turns K.toNat N.toNat M.toNat
        (orkSliceStep c.kmax c.kmul) (orkSliceStep c.nmax c.nmul) c.mmax)) := by
      have hK' : c.kmul ∣ K.toNat := Int.natCast_dvd_natCast.mp (by rwa [Int.toNat_of_nonneg hK.le])
      have hN' : c.nmul ∣ N.toNat := Int.natCast_dvd_natCast.mp (by rwa [Int.toNat_of_nonneg hN.le])
      refine partition_of_tiles hk hkmax hn hnmax hm hK' hN' rfl rfl fun x hx => ?_
      unfold fill
      rw [if_pos (Nat.zero_le x), Nat.sub_zero, hturns, List.getD_eq_getElem?_getD, List.getElem?_map,
        List.getElem?_range hx]
      rfl
    have hlen := length_turns K.toNat N.toNat M.toNat c
    by_cases hfit : count ≤ max.toNat
    · rw [if_pos hfit] at hr
      have hret : r.1 ≠ -1 := by
        rw [hr]
        dsimp only
        omega
      refine ⟨fun _ => ?_, ⟨fun hneg => absurd hneg hret, fun hlt => by omega⟩, fun hneg => absurd hneg hret⟩
      rw [hr]
      exact ⟨rfl, hpart, fun x hx => fill_of_length_le out (hlen.trans_le hx),
        fun m hm' n hn' => hpart.accumulate A B hm' hn'⟩
    · rw [if_neg hfit] at hr
      have hret : r.1 = -1 := by rw [hr]
      refine ⟨fun hpos => by omega, iff_of_true hret ⟨h, by omega⟩, fun _ => ?_⟩
      rw [hr]
      exact ⟨fun x hx => fill_of_length_le out (Nat.le_trans (List.length_take_le _ _) hx), _, hpart,
        fun x hx => fill_take out hx⟩
  · have hr : r = _ := orkSliceMatmul_refused h out max
    have hret : r.1 = -2 := by rw [hr]
    exact ⟨fun hpos => by omega, iff_of_false (by omega) fun hor => h hor.1, fun hneg => by omega⟩

/-- Two K-slices and two row tiles. -/
theorem orkSliceMatmul_partition_two : (orkSliceMatmul 8192 16 65 ⟨4096, 512, 8192, 16, 64⟩ (fun _ => ⟨0, 0, 0, 0, 0, 0⟩) 8).1 = 4 := by
  have h := orkSliceMatmul_partition (c := ⟨4096, 512, 8192, 16, 64⟩) (by decide) (by decide) (by decide) (by decide)
    (by decide) 8192 16 65 (fun _ => ⟨0, 0, 0, 0, 0, 0⟩) 8 (fun _ _ => (1 : Int)) fun _ _ => 1
  refine (h.1 ?_).1.trans (by decide)
  decide

end OrkDriver.Slice
