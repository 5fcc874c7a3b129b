import OrkDriver.Run.SingleCore

/-!
The loops of `orki_run` visit every element of the product once, and what the turns of a cell leave in it.
-/

namespace OrkDriver.Run

open OrkDriver.Lib OrkDriver.Npu OrkDriver.Pack

variable {R : Type*} {Sn Sk M : Nat} {tile : Nat → Nat → Tile} {chunk : Tile → Nat}

namespace Turn

/-- Cell `(m, n)` of the product lies in the row block and the columns of the turn. -/
def Touches (m n : Nat) (s : Turn) : Prop := (s.m0 ≤ m ∧ m < s.m0 + s.mc) ∧ s.t.n0 ≤ n ∧ n < s.t.n0 + s.t.Nc

instance (m n : Nat) (s : Turn) : Decidable (s.Touches m n) := inferInstanceAs (Decidable (_ ∧ _))

/-- Product `A[m, k] * B[k, n]` is one of those the turn sums up. -/
def Covers (m n k : Nat) (s : Turn) : Prop := s.Touches m n ∧ s.t.k0 ≤ k ∧ k < s.t.k0 + s.t.Kp

instance (m n k : Nat) (s : Turn) : Decidable (s.Covers m n k) := inferInstanceAs (Decidable (_ ∧ _))

end Turn

/-- The turn of slice `(ns, ks)` and row `m`. -/
def turnAt (M : Nat) (tile : Nat → Nat → Tile) (chunk : Tile → Nat) (m ns ks : Nat) : Turn :=
  let size := chunk (tile ns ks)
  ⟨ns, ks, tile ns ks, m / size * size, pieceLen M size (m / size)⟩

theorem mem_turns {s : Turn} : s ∈ turns Sn Sk tile chunk M ↔ ∃ ns ks i, ns < Sn ∧ ks < Sk ∧
    i < pieces M (chunk (tile ns ks)) ∧
    s = ⟨ns, ks, tile ns ks, i * chunk (tile ns ks), pieceLen M (chunk (tile ns ks)) i⟩ := by
  simp only [turns, List.mem_flatMap, List.mem_map, List.mem_range]
  constructor
  · rintro ⟨ns, hns, ks, hks, i, hi, rfl⟩
    exact ⟨ns, ks, i, hns, hks, hi, rfl⟩
  · rintro ⟨ns, ks, i, hns, hks, hi, rfl⟩
    exact ⟨ns, hns, ks, hks, i, hi, rfl⟩

theorem turns_rows (hchunk : ∀ t, 0 < chunk t) {s : Turn} (hs : s ∈ turns Sn Sk tile chunk M) :
    0 < s.mc ∧ s.m0 + s.mc ≤ M := by
  obtain ⟨ns, ks, i, -, -, hi, rfl⟩ := mem_turns.mp hs
  exact ⟨pieceLen_pos (hchunk _) hi, piece_le (hchunk _) hi⟩

/-- The turns that touch a cell: one for each K-slice. -/
theorem filter_touches (hchunk : ∀ t, 0 < chunk t) {m n a : Nat} (hm : m < M) (ha : a < Sn)
    (htile : ∀ ns ks, (tile ns ks).n0 ≤ n ∧ n < (tile ns ks).n0 + (tile ns ks).Nc ↔ ns = a) :
    (turns Sn Sk tile chunk M).filter (fun s => decide (s.Touches m n)) =
      (List.range Sk).map (turnAt M tile chunk m a) := by
  rw [turns, List.filter_flatMap, flatMap_range_of_unique ha]
  · rw [List.filter_flatMap, List.map_eq_flatMap]
    refine List.flatMap_congr fun ks _ => ?_
    rw [List.filter_map, filter_range_of_unique (div_lt_pieces (hchunk (tile a ks)) hm)]
    · rfl
    · exact decide_eq_true ⟨(mem_piece_iff (hchunk _) hm).mpr rfl, (htile a ks).mpr rfl⟩
    · intro i _ hi
      exact (mem_piece_iff (hchunk _) hm).mp (of_decide_eq_true hi).1
  · intro ns _ hne
    rw [List.filter_eq_nil_iff]
    intro s hs htouch
    obtain ⟨ks, -, hs⟩ := List.mem_flatMap.mp hs
    obtain ⟨i, -, rfl⟩ := List.mem_map.mp hs
    exact hne ((htile ns ks).mp (of_decide_eq_true htouch).2)

/-- Every triple is in one turn. -/
theorem filter_covers (hchunk : ∀ t, 0 < chunk t) {m n k a b : Nat} (hm : m < M) (ha : a < Sn) (hb : b < Sk)
    (htile : ∀ ns ks, (tile ns ks).n0 ≤ n ∧ n < (tile ns ks).n0 + (tile ns ks).Nc ↔ ns = a)
    (hslice : ∀ ks, ks < Sk → ((tile a ks).k0 ≤ k ∧ k < (tile a ks).k0 + (tile a ks).Kp ↔ ks = b)) :
    (turns Sn Sk tile chunk M).filter (fun s => decide (s.Covers m n k)) = [turnAt M tile chunk m a b] := by
  have hand : (fun s : Turn => decide (s.Covers m n k)) =
      fun s => decide (s.t.k0 ≤ k ∧ k < s.t.k0 + s.t.Kp) && decide (s.Touches m n) := by
    funext s
    rw [← Bool.decide_and]
    exact decide_eq_decide.mpr And.comm
  rw [hand, ← List.filter_filter, filter_touches hchunk hm ha htile, List.filter_map, filter_range_of_unique hb]
  · rfl
  · exact decide_eq_true ((hslice b hb).mpr rfl)
  · intro ks hlt hks
    exact (hslice ks hlt).mp (of_decide_eq_true hks)

/-- Turns that store on the first K-slice of a cell and add on the others leave the sum over the K-slices. -/
theorem foldl_turns [AddCommMonoid R] {σ : Type*} (read : σ → R) (val : Turn → R) {f : σ → Turn → σ}
    {m n a : Nat}
    (hchunk : ∀ t, 0 < chunk t) (hm : m < M) (ha : a < Sn)
    (htile : ∀ ns ks, (tile ns ks).n0 ≤ n ∧ n < (tile ns ks).n0 + (tile ns ks).Nc ↔ ns = a)
    (hin : ∀ s ∈ turns Sn Sk tile chunk M, s.Touches m n → ∀ st,
      read (f st s) = if s.ks = 0 then val s else read st + val s)
    (hout : ∀ s ∈ turns Sn Sk tile chunk M, ¬ s.Touches m n → ∀ st, read (f st s) = read st) (st : σ) :
    read ((turns Sn Sk tile chunk M).foldl f st) =
      if Sk = 0 then read st else ∑ ks ∈ Finset.range Sk, val (turnAt M tile chunk m a ks) := by
  rw [foldl_cell read (g := fun s v => if s.ks = 0 then val s else v + val s)
      (t := fun s => decide (s.Touches m n)) (fun s hs ht => hin s hs (of_decide_eq_true ht))
      (fun s hs ht => hout s hs (of_decide_eq_false ht)),
    filter_touches hchunk hm ha htile, List.foldl_map]
  exact foldl_store_add (fun ks => val (turnAt M tile chunk m a ks)) Sk (read st)

end OrkDriver.Run
