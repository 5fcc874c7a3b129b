import Mathlib.Algebra.Order.BigOperators.Group.List
import OrkDriver.I4.Chain

/-!
The geometry of the batched int4 chain: each element is computed by one program, no two programs of a core write to the
same place, and the de-tile reads what the program of the element wrote.
-/

namespace OrkDriver.I4

open OrkDriver.Lib OrkDriver.Npu OrkDriver.Pack OrkDriver.Core

namespace Emit4

/-- The program computes element `(m, n)` of expert `e`. -/
def Covers (e m n : Nat) (x : Emit4) : Prop :=
  x.e = e ∧ (x.m0 ≤ m ∧ m < x.m0 + x.p.rows) ∧ x.n0 ≤ n ∧ n < x.n0 + x.p.N

/-- Where it puts it. -/
def cell (m n : Nat) (x : Emit4) : Nat := x.p.cell (m - x.m0) (n - x.n0)

/-- Two programs write to different places. -/
def Apart (x y : Emit4) : Prop :=
  x.p.aC / 2 + x.p.surface ≤ y.p.aC / 2 ∨ y.p.aC / 2 + y.p.surface ≤ x.p.aC / 2

end Emit4

/-- What a geometry has to get right. Every expert has one K-slice, so one program and one cell for each element. -/
structure Exact (P : Plan) (ex : Nat → Task4) (ntask : Nat) : Prop where
  /-- The buffers are sized for the programs that are emitted. -/
  sized : ∀ i, (P.emits i).length = P.count i
  /-- A program stays in its task, takes the whole depth, and reads and writes inside the buffers of its core. -/
  inside : ∀ i < P.nc, ∀ x ∈ P.emits i, x.e < ntask ∧ x.m0 + x.p.rows ≤ (ex x.e).M ∧ x.n0 + x.p.N ≤ P.G.N ∧
    x.p.K = P.G.K ∧ x.p.aC / 2 + x.p.surface ≤ P.outWords i ∧ 2 * x.p.aA + x.p.rows * x.p.line ≤ 2 * P.actBytes i
  once : ∀ e m n, e < ntask → m < (ex e).M → n < P.G.N → ∃ i < P.nc, ∃ x ∈ P.emits i, x.Covers e m n ∧
    ∀ i' < P.nc, ∀ x' ∈ P.emits i', x'.Covers e m n → i' = i ∧ x' = x
  apart : ∀ i < P.nc, (P.emits i).Pairwise Emit4.Apart
  /-- A program reads its rows of A, and the columns of its weight that it is for. -/
  feeds : ∀ i < P.nc, ∀ x ∈ P.emits i, ∀ k < P.G.K,
    (∀ r < x.p.rows, P.staged i ex (2 * x.p.aA + r * x.p.line + k) = nibble ((ex x.e).A ((x.m0 + r) * P.G.K + k))) ∧
    ∀ n < x.p.N, 2 * x.p.aB + wIndex 64 P.G.K k n = wIndex 64 P.G.K k (x.n0 + n)
  /-- The de-tile moves to an element the one cell that its program wrote. -/
  fetches : ∀ i < P.nc, ∀ e m n s, e < ntask → m < (ex e).M → n < P.G.N →
    ((m * P.G.N + n, s) ∈ P.detile i e ↔ ∃ x ∈ P.emits i, x.Covers e m n ∧ s = [x.cell m n])
  within : ∀ i < P.nc, ∀ e < ntask, ∀ q ∈ P.detile i e, ∃ m n, m < (ex e).M ∧ n < P.G.N ∧ q.1 = m * P.G.N + n

/-- A shape the hardware can be given. -/
structure ChainGeom.Fits (G : ChainGeom) : Prop where
  H_pos : 0 < G.H
  Wb_pos : 0 < G.Wb
  Wb64 : 64 ∣ G.Wb
  N64 : 64 ∣ G.N
  K32 : 32 ∣ G.K

namespace ChainGeom

variable {G : ChainGeom} {j : Job} {b g r c k : Nat}

theorem mem_emits {x : Emit4} : x ∈ G.emits j ↔ ∃ b < j.c1 - j.c0, ∃ g < G.NG j.M, x = G.emit j b g := by
  simp only [emits, List.mem_flatMap, List.mem_map, List.mem_range]
  constructor
  · rintro ⟨b, hb, g, hg, rfl⟩
    exact ⟨b, hb, g, hg, rfl⟩
  · rintro ⟨b, hb, g, hg, rfl⟩
    exact ⟨b, hb, g, hg, rfl⟩

theorem length_emits (G : ChainGeom) (j : Job) : (G.emits j).length = G.count j := by
  rw [emits, List.length_flatMap, count]
  simp only [List.length_map, List.length_range, List.map_const', List.sum_replicate, nsmul_eq_mul, Nat.cast_id]

theorem emit_rows (G : ChainGeom) (j : Job) (b g : Nat) : (G.emit j b g).p.rows = pieceLen j.M G.H g :=
  Program4.rows_batch rfl

/-- A program starts at its slot. -/
theorem emit_slot (G : ChainGeom) (j : Job) (b g : Nat) :
    (G.emit j b g).p.aC / 2 = (j.tk + (b * G.NG j.M + g)) * G.slot := by
  rw [slot, ← Nat.mul_assoc]
  exact Nat.mul_div_cancel _ (by decide)

namespace Fits

variable (h : G.Fits)

include h

theorem Wmax : G.Wmax * 64 = G.Wb := Nat.div_mul_cancel h.Wb64

theorem Wc64 (b : Nat) : 64 ∣ pieceLen G.N G.Wb b := dvd_pieceLen h.N64 h.Wb64

/-- And stays in it. -/
theorem surface_le (j : Job) (b g : Nat) : (G.emit j b g).p.surface ≤ G.slot := by
  rw [Program4.surface_batch (H := pieceLen j.M G.H g) rfl, slot, Nat.mul_assoc (4 * G.H), h.Wmax]
  exact Nat.mul_le_mul (Nat.mul_le_mul_left 4 pieceLen_le_size) pieceLen_le_size

theorem end_le (j : Job) (b g : Nat) : (G.emit j b g).p.aC / 2 + (G.emit j b g).p.surface ≤
    (j.tk + (b * G.NG j.M + g) + 1) * G.slot := by
  rw [emit_slot, Nat.succ_mul]
  exact Nat.add_le_add_left (h.surface_le j b g) _

theorem apart_of_lt {j j' : Job} {b g b' g' : Nat}
    (hlt : j.tk + (b * G.NG j.M + g) < j'.tk + (b' * G.NG j'.M + g')) :
    Emit4.Apart (G.emit j b g) (G.emit j' b' g') := by
  left
  rw [emit_slot G j']
  exact le_trans (h.end_le j b g) (Nat.mul_le_mul_right _ hlt)

/-- The programs of one job. -/
theorem emits_apart (j : Job) : (G.emits j).Pairwise Emit4.Apart := by
  rw [emits, List.pairwise_flatMap]
  constructor
  · intro b _
    rw [List.pairwise_map]
    exact List.pairwise_lt_range.imp fun hlt => h.apart_of_lt (by omega)
  · refine List.pairwise_lt_range.imp fun {b b'} hlt x hx y hy => ?_
    obtain ⟨g, hg, rfl⟩ := List.mem_map.mp hx
    obtain ⟨g', -, rfl⟩ := List.mem_map.mp hy
    refine h.apart_of_lt (Nat.add_lt_add_left ?_ _)
    exact lt_of_lt_of_le (digits_lt hlt (List.mem_range.mp hg)) (Nat.le_add_right _ _)

end Fits

/-- A move of the de-tile of a job, by the program, row and column it is for. -/
theorem Fits.mem_detile (h : G.Fits) {q : Move} : q ∈ G.detile j ↔ ∃ b < j.c1 - j.c0, ∃ g < G.NG j.M,
    ∃ r < pieceLen j.M G.H g, ∃ c < pieceLen G.N G.Wb (j.c0 + b),
      q = ((g * G.H + r) * G.N + ((j.c0 + b) * G.Wb + c), [(G.emit j b g).p.cell r c]) := by
  have hcell : ∀ b g r c, (j.tk + (b * G.NG j.M + g)) * (4 * G.H * G.Wmax * 64) +
      ((4 * r + 4 * pieceLen j.M G.H g * (c / 64)) * 64 + c % 64) = (G.emit j b g).p.cell r c := by
    intro b g r c
    rw [Program4.cell_batch (H := pieceLen j.M G.H g) rfl, emit_slot]
    rfl
  simp only [detile, List.mem_flatMap, List.mem_map, List.mem_range]
  constructor
  · rintro ⟨b, hb, g, hg, r, hr, nb, hnb, cc, hcc, rfl⟩
    obtain ⟨hdiv, hmod⟩ := digits_div_mod hcc nb
    refine ⟨b, hb, g, hg, r, hr, nb * 64 + cc, ?_, ?_⟩
    · exact lt_of_lt_of_le (digits_lt hnb hcc) (Nat.div_mul_le_self _ 64)
    · rw [← hcell, hdiv, hmod]
      simp only [Nat.add_assoc]
  · rintro ⟨b, hb, g, hg, r, hr, c, hc, rfl⟩
    refine ⟨b, hb, g, hg, r, hr, c / 64, ?_, c % 64, Nat.mod_lt _ (by decide), ?_⟩
    · exact Nat.div_lt_of_lt_mul (by rwa [Nat.mul_div_cancel' (h.Wc64 _)])
    · rw [hcell, Nat.add_assoc, Nat.add_assoc, Nat.div_add_mod']

end ChainGeom

/-! ### The jobs of a core -/

/-- The jobs lie one behind the other, their programs as well as their activations. -/
def Stacked (G : ChainGeom) : Nat → Nat → List Job → Prop
  | _, _, [] => True
  | tk, aoff, j :: js => j.tk = tk ∧ j.aoff = aoff ∧ Stacked G (tk + G.count j) (aoff + G.bytes j) js

namespace Stacked

variable {G : ChainGeom} {tk aoff : Nat} {js : List Job} {j : Job}

theorem mem (h : Stacked G tk aoff js) (hj : j ∈ js) :
    (tk ≤ j.tk ∧ j.tk + G.count j ≤ tk + (js.map G.count).sum) ∧
      aoff ≤ j.aoff ∧ j.aoff + G.bytes j ≤ aoff + (js.map G.bytes).sum := by
  induction js generalizing tk aoff with
  | nil => cases hj
  | cons j' js ih =>
      obtain ⟨htk, hoff, hrest⟩ := h
      rw [List.map_cons, List.map_cons, List.sum_cons, List.sum_cons]
      rcases List.mem_cons.mp hj with rfl | hj
      · omega
      · obtain ⟨⟨h1, h2⟩, h3, h4⟩ := ih hrest hj
        omega

/-- A later job starts where an earlier one has ended, or behind it. -/
theorem pairwise (h : Stacked G tk aoff js) :
    js.Pairwise fun j j' => j.tk + G.count j ≤ j'.tk ∧ j.aoff + G.bytes j ≤ j'.aoff := by
  induction js generalizing tk aoff with
  | nil => exact .nil
  | cons j js ih =>
      obtain ⟨rfl, rfl, hrest⟩ := h
      refine .cons (fun j' hj' => ?_) (ih hrest)
      obtain ⟨⟨h1, -⟩, h2, -⟩ := hrest.mem hj'
      exact ⟨h1, h2⟩

/-- The activations of two jobs are the same, or lie apart. -/
theorem ordered (h : Stacked G tk aoff js) {j j' : Job} (hj : j ∈ js) (hj' : j' ∈ js) :
    j = j' ∨ j.aoff + G.bytes j ≤ j'.aoff ∨ j'.aoff + G.bytes j' ≤ j.aoff := by
  induction js generalizing tk aoff with
  | nil => cases hj
  | cons k js ih =>
      obtain ⟨-, rfl, hrest⟩ := h
      rcases List.mem_cons.mp hj with rfl | hjs
      · rcases List.mem_cons.mp hj' with rfl | hjs'
        · exact .inl rfl
        · exact .inr (.inl (hrest.mem hjs').2.1)
      · rcases List.mem_cons.mp hj' with rfl | hjs'
        · exact .inr (.inr (hrest.mem hjs).2.1)
        · exact ih hrest hjs hjs'

end Stacked

/-- The jobs share out the column blocks of all tasks. -/
structure Assigned (P : Plan) (ex : Nat → Task4) (ntask : Nat) : Prop where
  stacked : ∀ i, Stacked P.G 0 0 (P.jobs i)
  job : ∀ i < P.nc, ∀ j ∈ P.jobs i, j.e < ntask ∧ j.M = (ex j.e).M ∧ j.c1 ≤ P.G.NC
  once : ∀ e b, e < ntask → b < P.G.NC → ∃ i < P.nc, ∃ j ∈ P.jobs i, (j.e = e ∧ j.c0 ≤ b ∧ b < j.c1) ∧
    ∀ i' < P.nc, ∀ j' ∈ P.jobs i', j'.e = e → j'.c0 ≤ b → b < j'.c1 → i' = i ∧ j' = j

namespace Assigned

variable {P : Plan} {ex : Nat → Task4} {ntask i : Nat}

theorem mem_emits {x : Emit4} : x ∈ P.emits i ↔ ∃ j ∈ P.jobs i, x ∈ P.G.emits j := List.mem_flatMap

theorem length_emits (P : Plan) (i : Nat) : (P.emits i).length = P.count i := by
  rw [Plan.emits, List.length_flatMap, Plan.count]
  exact congrArg List.sum (List.map_congr_left fun j _ => P.G.length_emits j)

theorem mem_detile (hG : P.G.Fits) {e : Nat} {q : Move} : q ∈ P.detile i e ↔
    ∃ j ∈ P.jobs i, j.e = e ∧ ∃ b < j.c1 - j.c0, ∃ g < P.G.NG j.M, ∃ r < pieceLen j.M P.G.H g, ∃ c < pieceLen P.G.N P.G.Wb (j.c0 + b),
      q = ((g * P.G.H + r) * P.G.N + ((j.c0 + b) * P.G.Wb + c), [(P.G.emit j b g).p.cell r c]) := by
  rw [Plan.detile, List.mem_flatMap]
  constructor
  · rintro ⟨j, hj, hq⟩
    obtain ⟨hj, he⟩ := List.mem_filter.mp hj
    exact ⟨j, hj, of_decide_eq_true he, hG.mem_detile.mp hq⟩
  · rintro ⟨j, hj, he, hq⟩
    exact ⟨j, List.mem_filter.mpr ⟨hj, decide_eq_true he⟩, hG.mem_detile.mpr hq⟩

variable (h : Assigned P ex ntask) (hG : P.G.Fits)

include h hG

theorem apart (i : Nat) : (P.emits i).Pairwise Emit4.Apart := by
  rw [Plan.emits, List.pairwise_flatMap]
  refine ⟨fun j _ => hG.emits_apart j, (h.stacked i).pairwise.imp fun {j j'} hjj x hx y hy => ?_⟩
  obtain ⟨b, hb, g, hg, rfl⟩ := ChainGeom.mem_emits.mp hx
  obtain ⟨b', -, g', -, rfl⟩ := ChainGeom.mem_emits.mp hy
  have hslot : b * P.G.NG j.M + g < P.G.count j := digits_lt hb hg
  exact hG.apart_of_lt (by omega)

/-- The task, rows and columns of a program. -/
theorem emit_inside (hi : i < P.nc) {j : Job} (hj : j ∈ P.jobs i) {b g : Nat} (hb : b < j.c1 - j.c0)
    (hg : g < P.G.NG j.M) : j.e < ntask ∧ g * P.G.H + pieceLen j.M P.G.H g ≤ (ex j.e).M ∧
      (j.c0 + b) * P.G.Wb + pieceLen P.G.N P.G.Wb (j.c0 + b) ≤ P.G.N := by
  obtain ⟨he, hM, hc1⟩ := h.job i hi j hj
  refine ⟨he, hM ▸ piece_le hG.H_pos hg, piece_le hG.Wb_pos ?_⟩
  exact lt_of_lt_of_le (show j.c0 + b < j.c1 by omega) hc1

theorem end_le_outWords {j : Job} (hj : j ∈ P.jobs i) {b g : Nat} (hb : b < j.c1 - j.c0) (hg : g < P.G.NG j.M) :
    (P.G.emit j b g).p.aC / 2 + (P.G.emit j b g).p.surface ≤ P.outWords i := by
  have hslot : b * P.G.NG j.M + g < P.G.count j := digits_lt hb hg
  have hcount : j.tk + (b * P.G.NG j.M + g) + 1 ≤ P.count i := by
    have := ((h.stacked i).mem hj).1.2
    rw [Plan.count]
    omega
  calc (P.G.emit j b g).p.aC / 2 + (P.G.emit j b g).p.surface
      ≤ (j.tk + (b * P.G.NG j.M + g) + 1) * P.G.slot := hG.end_le j b g
    _ ≤ P.count i * P.G.slot := Nat.mul_le_mul_right _ hcount
    _ = P.outWords i := by rw [Plan.outWords, ChainGeom.slot, ← Nat.mul_assoc]

omit hG in
theorem bytes_le_actBytes {j : Job} (hj : j ∈ P.jobs i) : j.aoff + P.G.bytes j ≤ P.actBytes i := by
  have hsum : ((P.jobs i).map P.G.bytes).sum ≤ P.actBytes i := by
    refine List.sum_le_sum fun j _ => Nat.mul_le_mul_right _ (Nat.mul_le_mul_left _ ?_)
    rw [ChainGeom.LN, ChainGeom.PS]
    split <;> omega
  have := ((h.stacked i).mem hj).2.2
  omega

theorem once_emit {e m n : Nat} (he : e < ntask) (hm : m < (ex e).M) (hn : n < P.G.N) :
    ∃ i < P.nc, ∃ x ∈ P.emits i, x.Covers e m n ∧
      ∀ i' < P.nc, ∀ x' ∈ P.emits i', x'.Covers e m n → i' = i ∧ x' = x := by
  obtain ⟨i, hi, j, hj, ⟨rfl, hc0, hc1⟩, huniq⟩ := h.once e (n / P.G.Wb) he (div_lt_pieces hG.Wb_pos hn)
  have hM := (h.job i hi j hj).2.1
  rw [← hM] at hm
  have hb : j.c0 + (n / P.G.Wb - j.c0) = n / P.G.Wb := Nat.add_sub_cancel' hc0
  refine ⟨i, hi, P.G.emit j (n / P.G.Wb - j.c0) (m / P.G.H), mem_emits.mpr ⟨j, hj, ChainGeom.mem_emits.mpr
    ⟨_, by omega, _, div_lt_pieces hG.H_pos hm, rfl⟩⟩, ?_, fun i' hi' x' hx' hcov => ?_⟩
  · refine ⟨rfl, ?_, ?_⟩
    · rw [ChainGeom.emit_rows]
      exact (mem_piece_iff hG.H_pos hm).mpr rfl
    · dsimp only [ChainGeom.emit]
      rw [hb]
      exact (mem_piece_iff hG.Wb_pos hn).mpr rfl
  · obtain ⟨j', hj', hx'⟩ := mem_emits.mp hx'
    obtain ⟨b, hb', g, -, rfl⟩ := ChainGeom.mem_emits.mp hx'
    obtain ⟨hej, hrow, hcol⟩ := hcov
    rw [ChainGeom.emit_rows] at hrow
    have hblock : j'.c0 + b = n / P.G.Wb := (mem_piece_iff hG.Wb_pos hn).mp hcol
    obtain ⟨rfl, rfl⟩ := huniq i' hi' j' hj' hej (by omega) (by omega)
    have hgroup : g = m / P.G.H := (mem_piece_iff hG.H_pos hm).mp hrow
    have hcolumn : b = n / P.G.Wb - j'.c0 := by omega
    exact ⟨rfl, by rw [hgroup, hcolumn]⟩

theorem fetch (hi : i < P.nc) {e m n : Nat} {s : List Nat} (hn : n < P.G.N) :
    (m * P.G.N + n, s) ∈ P.detile i e ↔ ∃ x ∈ P.emits i, x.Covers e m n ∧ s = [x.cell m n] := by
  rw [mem_detile hG]
  constructor
  · rintro ⟨j, hj, rfl, b, hb, g, hg, r, hr, c, hc, hq⟩
    obtain ⟨haddr, rfl⟩ := Prod.mk.inj hq
    have hend := (h.emit_inside hG hi hj hb hg).2.2
    obtain ⟨rfl, rfl⟩ := digits_inj hn (show (j.c0 + b) * P.G.Wb + c < P.G.N by omega) haddr
    refine ⟨P.G.emit j b g, mem_emits.mpr ⟨j, hj, ChainGeom.mem_emits.mpr ⟨b, hb, g, hg, rfl⟩⟩, ⟨rfl, ?_, ?_⟩, ?_⟩
    · rw [ChainGeom.emit_rows]
      exact ⟨Nat.le_add_right _ _, Nat.add_lt_add_left hr _⟩
    · exact ⟨Nat.le_add_right _ _, Nat.add_lt_add_left hc _⟩
    · dsimp only [Emit4.cell, ChainGeom.emit]
      rw [Nat.add_sub_cancel_left, Nat.add_sub_cancel_left]
  · rintro ⟨x, hx, ⟨rfl, hrow, hcol⟩, rfl⟩
    obtain ⟨j, hj, hx⟩ := mem_emits.mp hx
    obtain ⟨b, hb, g, hg, rfl⟩ := ChainGeom.mem_emits.mp hx
    rw [ChainGeom.emit_rows] at hrow
    dsimp only [ChainGeom.emit] at hrow hcol
    refine ⟨j, hj, rfl, b, hb, g, hg, m - g * P.G.H, by omega, n - (j.c0 + b) * P.G.Wb, by omega, ?_⟩
    rw [Nat.add_sub_cancel' hrow.1, Nat.add_sub_cancel' hcol.1]
    rfl

theorem detile_within (hi : i < P.nc) {e : Nat} {q : Move} (hq : q ∈ P.detile i e) :
    ∃ m n, m < (ex e).M ∧ n < P.G.N ∧ q.1 = m * P.G.N + n := by
  obtain ⟨j, hj, rfl, b, hb, g, hg, r, hr, c, hc, rfl⟩ := (mem_detile hG).mp hq
  obtain ⟨-, hrow, hcol⟩ := h.emit_inside hG hi hj hb hg
  exact ⟨_, _, by omega, by omega, rfl⟩

/-- The end of a row of activations. -/
theorem line_end_le {j : Job} (hj : j ∈ P.jobs i) {b g : Nat} (hg : g < P.G.NG j.M) :
    2 * (P.G.emit j b g).p.aA + (P.G.emit j b g).p.rows * (P.G.emit j b g).p.line ≤ 2 * P.actBytes i := by
  have hK2 : 2 * (P.G.K / 2) = P.G.K := Nat.mul_div_cancel' (Nat.dvd_trans (by decide) hG.K32)
  have hgroup : (g + 1) * (P.G.LN * (P.G.K / 2)) ≤ P.G.bytes j := by
    rw [ChainGeom.bytes, Nat.mul_assoc]
    exact Nat.mul_le_mul_right _ hg
  have hrows : pieceLen j.M P.G.H g * (P.G.PS * P.G.K) ≤ 2 * (P.G.LN * (P.G.K / 2)) := by
    calc pieceLen j.M P.G.H g * (P.G.PS * P.G.K) ≤ P.G.H * (P.G.PS * P.G.K) := Nat.mul_le_mul_right _ pieceLen_le_size
      _ = P.G.LN * (2 * (P.G.K / 2)) := by rw [hK2, ChainGeom.LN, ← Nat.mul_assoc, Nat.mul_comm P.G.H]
      _ = 2 * (P.G.LN * (P.G.K / 2)) := Nat.mul_left_comm _ _ _
  have hbytes := h.bytes_le_actBytes hj
  have hline : (P.G.emit j b g).p.line = P.G.PS * P.G.K := Program4.line_eq hG.K32
  have haA : (P.G.emit j b g).p.aA = j.aoff + g * (P.G.LN * (P.G.K / 2)) := by rw [← Nat.mul_assoc]; rfl
  rw [Nat.succ_mul] at hgroup
  rw [ChainGeom.emit_rows, hline, haA]
  omega

/-- No two stores of the staging go to the same place but the same one. -/
theorem staged_row {j : Job} (hj : j ∈ P.jobs i) {b g : Nat} (hg : g < P.G.NG j.M) {r k : Nat}
    (hr : r < pieceLen j.M P.G.H g) (hk : k < P.G.K) :
    P.staged i ex (2 * (P.G.emit j b g).p.aA + r * (P.G.emit j b g).p.line + k) =
      nibble ((ex j.e).A ((g * P.G.H + r) * P.G.K + k)) := by
  have hK2 : 2 * (P.G.K / 2) = P.G.K := Nat.mul_div_cancel' (Nat.dvd_trans (by decide) hG.K32)
  have hstride : 2 * (P.G.PS * (P.G.K / 2)) = P.G.PS * P.G.K := by rw [Nat.mul_left_comm, hK2]
  have hline : (P.G.emit j b g).p.line = P.G.PS * P.G.K := Program4.line_eq hG.K32
  have hPS : 0 < P.G.PS := by
    unfold ChainGeom.PS
    split <;> decide
  -- a place of the staging of a job, and that it is in the job's part
  have hplace : ∀ (j : Job) (g r k : Nat), 2 * (j.aoff + g * P.G.LN * (P.G.K / 2)) + r * (P.G.PS * P.G.K) + k =
      2 * j.aoff + ((g * P.G.LN + r * P.G.PS) * P.G.K + k) := by
    intro j g r k
    rw [Nat.mul_add, Nat.mul_left_comm, hK2, Nat.add_mul, Nat.mul_assoc r]
    omega
  have hrow : ∀ (j : Job) (g r : Nat), r < pieceLen j.M P.G.H g → r * P.G.PS < P.G.LN := fun j g r hr => by
    rw [ChainGeom.LN, Nat.mul_comm]
    exact Nat.mul_lt_mul_of_pos_left (lt_of_lt_of_le hr pieceLen_le_size) hPS
  have hpart : ∀ (j : Job) (g r k : Nat), g < P.G.NG j.M → r < pieceLen j.M P.G.H g → k < P.G.K →
      (g * P.G.LN + r * P.G.PS) * P.G.K + k < 2 * P.G.bytes j := by
    intro j g r k hg hr hk
    have hlt := digits_lt (digits_lt hg (hrow j g r hr)) hk
    rwa [ChainGeom.bytes, Nat.mul_left_comm, hK2]
  rw [hline]
  refine stores.of_mem ?_ fun w hw hx => ?_
  · refine ⟨_, List.mem_flatMap.mpr ⟨j, hj, List.mem_flatMap.mpr ⟨g, List.mem_range.mpr hg,
      mem_block.mpr ⟨r, k, hr, hk, rfl⟩⟩⟩, ?_⟩
    rw [hstride]
    rfl
  · obtain ⟨j', hj', hw⟩ := List.mem_flatMap.mp hw
    obtain ⟨g', hg', hw⟩ := List.mem_flatMap.mp hw
    obtain ⟨r', k', hr', hk', rfl⟩ := mem_block.mp hw
    rw [List.mem_range] at hg'
    rw [hstride, hplace] at hx
    have hx' := hx.trans (hplace j g r k)
    have hin := hpart j g r k hg hr hk
    have hin' := hpart j' g' r' k' hg' hr' hk'
    have hjob : j' = j := by
      rcases (h.stacked i).ordered hj' hj with heq | hab | hba
      · exact heq
      · omega
      · omega
    subst hjob
    obtain ⟨hlines, rfl⟩ := digits_inj hk' hk (Nat.add_left_cancel hx')
    obtain ⟨rfl, hrr⟩ := digits_inj (hrow j' g' r' hr') (hrow j' g r hr) hlines
    rw [Nat.eq_of_mul_eq_mul_right hPS hrr]

omit h in
/-- The weight address is that of the first column. -/
theorem weight_column (j : Job) (b g k n : Nat) :
    2 * (P.G.emit j b g).p.aB + wIndex 64 P.G.K k n = wIndex 64 P.G.K k ((P.G.emit j b g).n0 + n) := by
  obtain ⟨d, hd⟩ := hG.K32
  have haddr : 2 * (P.G.emit j b g).p.aB = (P.G.emit j b g).n0 / 64 * (P.G.K / 32) * (64 * 32) := by
    show 2 * ((P.G.emit j b g).n0 / 64 * P.G.K * 32) = _
    rw [hd, Nat.mul_div_cancel_left d (by decide)]
    ring
  have h64 : 64 ∣ (P.G.emit j b g).n0 := Nat.dvd_mul_left_of_dvd hG.Wb64 _
  rw [wIndex_add (by decide) h64, haddr]

theorem exact : Exact P ex ntask where
  sized := length_emits P
  inside i hi x hx := by
    obtain ⟨j, hj, hx⟩ := mem_emits.mp hx
    obtain ⟨b, hb, g, hg, rfl⟩ := ChainGeom.mem_emits.mp hx
    obtain ⟨he, hrow, hcol⟩ := h.emit_inside hG hi hj hb hg
    rw [← ChainGeom.emit_rows P.G j b g] at hrow
    exact ⟨he, hrow, hcol, rfl, h.end_le_outWords hG hj hb hg, h.line_end_le hG hj hg⟩
  once e m n he hm hn := h.once_emit hG he hm hn
  apart i _ := h.apart hG i
  feeds i _ x hx k hk := by
    obtain ⟨j, hj, hx⟩ := mem_emits.mp hx
    obtain ⟨b, hb, g, hg, rfl⟩ := ChainGeom.mem_emits.mp hx
    refine ⟨fun r hr => ?_, fun n _ => weight_column hG j b g k n⟩
    rw [ChainGeom.emit_rows] at hr
    exact h.staged_row hG hj hg hr hk
  fetches i hi e m n s _ _ hn := h.fetch hG hi hn
  within i hi e _ q hq := h.detile_within hG hi hq

end Assigned

/-! ### Widths and heights -/

theorem dvd_bankWidth (K : Nat) : 64 ∣ bankWidth K := Nat.dvd_mul_left 64 _

theorem dvd_orkiI4Wbdef (v : ChainEnv) (K : Nat) {N : Nat} (hN : 64 ∣ N) : 64 ∣ orkiI4Wbdef v K N := by
  have := dvd_bankWidth K
  unfold orkiI4Wbdef
  dsimp only
  split_ifs <;> omega

theorem width_spec {v : ChainEnv} (hwb : 64 ∣ v.wb) {Wb N Wblim : Nat} (hWb : 64 ∣ Wb) (hN : 64 ∣ N) (hpos : 0 < N)
    (hlim : 64 ∣ Wblim) : 0 < v.width Wb N Wblim ∧ 64 ∣ v.width Wb N Wblim := by
  unfold ChainEnv.width
  dsimp only
  constructor <;> split_ifs <;> omega

theorem tailBalance_pos {M gam tcrit fuel h best bc : Nat} (hbest : 0 < best) :
    0 < tailBalance M gam tcrit fuel h best bc := by
  induction fuel generalizing h best bc with
  | zero => exact hbest
  | succ fuel ih =>
      unfold tailBalance
      dsimp only
      split
      · split
        · exact ih (by omega)
        · exact ih hbest
      · exact hbest

theorem clampCores_pos {c : OrkNpu} (hc : c.soc ∈ socTable) (nc : Int) {most : Nat} (hmost : 0 < most) :
    0 < clampCores c nc most := by
  have hcores : ∀ s ∈ socTable, 0 < s.cores := by decide
  have := hcores _ hc
  unfold clampCores orkMaxcore
  dsimp only
  split_ifs <;> omega

theorem coreBlock_mono (NC nc : Nat) : Monotone (coreBlock NC nc) := fun _ _ h =>
  Nat.div_le_div_right (Nat.mul_le_mul_right NC h)

/-! ### One weight -/

/-- Every column block is one core's. -/
theorem assigned_single {G : ChainGeom} {NC nc : Nat} (hnc : 0 < nc) (hNC : G.NC = NC) (t : Task4) :
    Assigned ⟨G, nc, fun i => [⟨0, t.M, coreBlock NC nc i, coreBlock NC nc (i + 1), 0, 0⟩]⟩ (fun _ => t) 1 where
  stacked _ := ⟨rfl, rfl, trivial⟩
  job i hi j hj := by
    obtain rfl := List.mem_singleton.mp hj
    refine ⟨Nat.one_pos, rfl, ?_⟩
    have hlast : coreBlock NC nc nc = NC := Nat.mul_div_cancel_left _ hnc
    exact le_trans (coreBlock_mono _ _ hi) (Nat.le_of_eq (hlast.trans hNC.symm))
  once e b he hb := by
    have hfirst : coreBlock NC nc 0 ≤ b := by
      rw [coreBlock, Nat.zero_mul, Nat.zero_div]
      exact Nat.zero_le b
    have hlast : b < coreBlock NC nc nc := by
      rw [coreBlock, Nat.mul_div_cancel_left _ hnc, ← hNC]
      exact hb
    obtain ⟨i, hi, hbi⟩ := exists_between hfirst hlast
    refine ⟨i, hi, _, List.mem_singleton_self _, ⟨(Nat.lt_one_iff.mp he).symm, hbi⟩, fun i' _ j' hj' _ h0 h1 => ?_⟩
    obtain rfl := List.mem_singleton.mp hj'
    obtain rfl := between_unique (coreBlock_mono NC nc) ⟨h0, h1⟩ hbi
    exact ⟨rfl, rfl⟩

/-! ### Experts -/

section

variable {cost : Nat → Nat} {ntask nc total : Nat}

theorem takeExperts_spec {target prior e0 fuel e : Nat} (h : e ≤ ntask) (acc : Nat) :
    e ≤ (takeExperts cost ntask target prior e0 fuel e acc).1 ∧
      (takeExperts cost ntask target prior e0 fuel e acc).1 ≤ ntask := by
  induction fuel generalizing e acc with
  | zero => exact ⟨Nat.le_refl e, h⟩
  | succ fuel ih =>
      unfold takeExperts
      split
      · next hmore =>
          obtain ⟨h1, h2⟩ := ih (show e + 1 ≤ ntask from hmore.1) (acc + cost e)
          exact ⟨by omega, h2⟩
      · exact ⟨Nat.le_refl e, h⟩

theorem share_le (cost : Nat → Nat) (ntask nc total i : Nat) : (share cost ntask nc total i).1 ≤ ntask := by
  induction i with
  | zero => exact Nat.zero_le _
  | succ i ih =>
      unfold share
      dsimp only
      split
      · exact Nat.le_refl _
      · exact (takeExperts_spec ih _).2

theorem share_mono (cost : Nat → Nat) (ntask nc total : Nat) : Monotone fun i => (share cost ntask nc total i).1 := by
  refine monotone_nat_of_le_succ fun i => ?_
  have hle := share_le cost ntask nc total i
  show _ ≤ (share cost ntask nc total (i + 1)).1
  rw [share]
  dsimp only
  split
  · exact hle
  · exact (takeExperts_spec hle _).1

theorem share_last (hnc : 0 < nc) : (share cost ntask nc total nc).1 = ntask := by
  obtain ⟨i, rfl⟩ := Nat.exists_eq_succ_of_ne_zero (Nat.ne_of_gt hnc)
  unfold share
  exact if_pos rfl

variable {G : ChainGeom} {M : Nat → Nat} {n e aoff tk : Nat}

theorem expertJobs_stacked : Stacked G tk aoff (expertJobs G M n e aoff tk) := by
  induction n generalizing e aoff tk with
  | zero => trivial
  | succ n ih => exact ⟨rfl, rfl, ih⟩

theorem mem_expertJobs {j : Job} (hj : j ∈ expertJobs G M n e aoff tk) :
    (e ≤ j.e ∧ j.e < e + n) ∧ j.M = M j.e ∧ j.c0 = 0 ∧ j.c1 = G.NC := by
  induction n generalizing e aoff tk with
  | zero => cases hj
  | succ n ih =>
      rcases List.mem_cons.mp hj with rfl | hj
      · exact ⟨⟨Nat.le_refl e, by dsimp only; omega⟩, rfl, rfl, rfl⟩
      · obtain ⟨h1, h2⟩ := ih hj
        exact ⟨by omega, h2⟩

/-- Every expert has a job, and one only. -/
theorem exists_expertJob (G : ChainGeom) (M : Nat → Nat) (aoff tk : Nat) {k : Nat} (h : e ≤ k) (hk : k < e + n) : ∃ j ∈ expertJobs G M n e aoff tk, j.e = k ∧
    ∀ j' ∈ expertJobs G M n e aoff tk, j'.e = k → j' = j := by
  induction n generalizing e aoff tk with
  | zero => omega
  | succ n ih =>
      rcases Nat.eq_or_lt_of_le h with rfl | hlt
      · refine ⟨_, List.mem_cons_self, rfl, fun j' hj' he => ?_⟩
        rcases List.mem_cons.mp hj' with rfl | hj'
        · rfl
        · have := (mem_expertJobs hj').1
          omega
      · obtain ⟨j, hj, he, huniq⟩ := ih (aoff + G.NG (M e) * G.LN * (G.K / 2)) (tk + G.NC * G.NG (M e)) hlt
          (by omega)
        refine ⟨j, List.mem_cons_of_mem _ hj, he, fun j' hj' he' => ?_⟩
        rcases List.mem_cons.mp hj' with rfl | hj'
        · exact absurd he' (Nat.ne_of_lt hlt)
        · exact huniq j' hj' he'

/-- Every expert is one core's. -/
theorem assigned_experts {ex : Nat → Task4} (hnc : 0 < nc) :
    Assigned ⟨G, nc, fun i => expertJobs G (fun e => (ex e).M)
      ((share cost ntask nc total (i + 1)).1 - (share cost ntask nc total i).1) (share cost ntask nc total i).1 0 0⟩
      ex ntask where
  stacked _ := expertJobs_stacked
  job i hi j hj := by
    obtain ⟨⟨-, hlt⟩, hM, -, hc1⟩ := mem_expertJobs hj
    have hle := share_le cost ntask nc total (i + 1)
    have hmono : (share cost ntask nc total i).1 ≤ (share cost ntask nc total (i + 1)).1 :=
      share_mono cost ntask nc total (Nat.le_succ i)
    exact ⟨by omega, hM, Nat.le_of_eq hc1⟩
  once e b he hb := by
    have hlast : e < (share cost ntask nc total nc).1 := by rwa [share_last hnc]
    obtain ⟨i, hi, h0, h1⟩ := exists_between (f := fun i => (share cost ntask nc total i).1) (Nat.zero_le e) hlast
    obtain ⟨j, hj, hje, huniq⟩ := exists_expertJob G (fun e => (ex e).M) 0 0 h0
      (show e < (share cost ntask nc total i).1 +
        ((share cost ntask nc total (i + 1)).1 - (share cost ntask nc total i).1) by omega)
    obtain ⟨-, -, hc0, hc1⟩ := mem_expertJobs hj
    refine ⟨i, hi, j, hj, ⟨hje, hc0 ▸ Nat.zero_le b, hc1 ▸ hb⟩, fun i' _ j' hj' hje' _ _ => ?_⟩
    obtain ⟨hle, hlt⟩ := (mem_expertJobs hj').1
    have hii : i' = i := between_unique (share_mono cost ntask nc total) ⟨by omega, by omega⟩ ⟨h0, h1⟩
    subst hii
    exact ⟨rfl, huniq j' hj' hje'⟩

end

/-! ### The chain -/

theorem bchainTry_exact {v : ChainEnv} {c : OrkNpu} (hc : c.soc ∈ socTable) (hwb : 64 ∣ v.wb) {w : OrkW4} {M : Nat}
    {nc : Int} {Hlim Wblim : Nat} (hlim : 64 ∣ Wblim) {P : Plan} (h : orkiI4BchainTry v c w M nc Hlim Wblim = .ok P)
    (A : Nat → Int) : Exact P (fun _ => ⟨w, M, A⟩) 1 := by
  unfold orkiI4BchainTry at h
  split at h
  · cases h
  · next hw =>
      dsimp only at h
      have hN64 : 64 ∣ w.N := by omega
      have hN : 0 < w.N := Nat.pos_of_ne_zero fun h0 => by
        have := w.Sn_zero h0
        omega
      obtain ⟨hWb, hWb64⟩ := width_spec hwb (dvd_orkiI4Wbdef v w.K hN64) hN64 hN hlim
      generalize v.width (orkiI4Wbdef v w.K w.N) w.N Wblim = Wb at h hWb hWb64
      generalize (if 0 < Hlim ∧ Hlim < v.height w.K then Hlim else v.height w.K) = H at h
      split at h
      · cases h
      · next hH =>
          split at h
          · obtain rfl := Except.ok.inj h
            have hnc := clampCores_pos hc nc ((lt_pieces_iff hWb).mpr ((Nat.zero_mul Wb).symm ▸ hN))
            apply Assigned.exact (assigned_single hnc rfl ⟨w, M, A⟩)
            refine ⟨?_, hWb, hWb64, hN64, w.K32⟩
            dsimp only
            split
            · exact tailBalance_pos (by omega)
            · omega
          · cases h

theorem experts_exact {v : ChainEnv} {c : OrkNpu} (hc : c.soc ∈ socTable) (hwb : 64 ∣ v.wb) {ex : Nat → Task4}
    {ntask : Nat} {nc : Int} {P : Plan} (h : orkI4MmRunExperts v c ex ntask nc = .ok P) : Exact P ex ntask := by
  unfold orkI4MmRunExperts at h
  split at h
  · cases h
  · next htask =>
      split at h
      · cases h
      · next hex =>
          have hw := not_exists.mp hex 0
          have hN64 : 64 ∣ (ex 0).w.N := by omega
          have hN : 0 < (ex 0).w.N := Nat.pos_of_ne_zero fun h0 => by
            have := (ex 0).w.Sn_zero h0
            omega
          unfold orkiI4RunExpertsBchainDb at h
          dsimp only at h
          obtain ⟨hWb, hWb64⟩ := width_spec hwb (dvd_bankWidth (ex 0).w.K) hN64 hN (Nat.dvd_zero 64)
          generalize v.width (bankWidth (ex 0).w.K) (ex 0).w.N 0 = Wb at h hWb hWb64
          split at h
          · cases h
          · next hH =>
              split at h
              · obtain rfl := Except.ok.inj h
                have hnc := clampCores_pos hc nc (show 0 < ntask by omega)
                apply Assigned.exact (assigned_experts hnc)
                exact ⟨by dsimp only; omega, hWb, hWb64, hN64, (ex 0).w.K32⟩
              · cases h

/-- Whatever the chain accepts it computes and reads back element by element: a list of experts, or one weight. A knob
or a caller that sets a width sets a multiple of 64. -/
theorem bchain_exact {v : ChainEnv} {c : OrkNpu} (hc : c.soc ∈ socTable) (hwb : 64 ∣ v.wb) :
    (∀ ex ntask nc P, orkI4MmRunExperts v c ex ntask nc = .ok P → Exact P ex ntask) ∧
      ∀ w M A nc Hlim Wblim P, 64 ∣ Wblim → orkiI4BchainTry v c w M nc Hlim Wblim = .ok P →
        Exact P (fun _ => ⟨w, M, A⟩) 1 :=
  ⟨fun _ _ _ _ h => experts_exact hc hwb h, fun _ _ A _ _ _ _ hlim h => bchainTry_exact hc hwb hlim h A⟩

/-- A weight of three column blocks, the last of them narrow. -/
def threeBlocks : OrkW4 := ⟨.i4, 512, 576, 1, 1, 0, fun _ _ => 0, by decide, by decide⟩

/-- Two experts over three cores, and the first of them alone: two groups of rows, the second of one row. -/
theorem bchain_exact_threeBlocks :
    (∃ P, orkI4MmRunExperts .quiet ⟨3, socRk3588, 0⟩ (fun e => ⟨threeBlocks, if e = 0 then 33 else 1, fun k => k⟩) 2 3 =
        .ok P ∧ Exact P (fun e => ⟨threeBlocks, if e = 0 then 33 else 1, fun k => k⟩) 2) ∧
      ∃ P, orkiI4BchainTry .quiet ⟨3, socRk3588, 0⟩ threeBlocks 33 3 4 64 = .ok P ∧
        Exact P (fun _ => ⟨threeBlocks, 33, fun k => k⟩) 1 := by
  have h := @bchain_exact .quiet ⟨3, socRk3588, 0⟩ (by decide) (by decide)
  exact ⟨⟨_, rfl, h.1 _ _ _ _ rfl⟩, _, rfl, h.2 _ _ _ _ 4 64 _ (by decide) rfl⟩

/-- What the de-tile leaves in C, if every program has written its results. -/
theorem Exact.detiled {P : Plan} {ex : Nat → Task4} {ntask : Nat} (h : Exact P ex ntask) {O : Nat → Nat → Int}
    (hO : ∀ i < P.nc, ∀ x ∈ P.emits i, ∀ r < x.p.rows, ∀ n < x.p.N,
      O i (x.p.cell r n) = x.p.value (P.staged i ex) ((ex x.e).w.Bb 0) r n)
    (C : Nat → Int) {e m n : Nat} (he : e < ntask) (hm : m < (ex e).M) (hn : n < P.G.N) :
    stores C ((List.range P.nc).flatMap fun i => moved (O i) (P.detile i e)) (m * P.G.N + n) =
      sat16 (dot P.G.K (fun k => nibble ((ex e).A (m * P.G.K + k))) fun k => (ex e).w.Bb 0 (wIndex 64 P.G.K k n)) := by
  have hval : ∀ i < P.nc, ∀ x ∈ P.emits i, x.Covers e m n → O i (x.cell m n) =
      sat16 (dot P.G.K (fun k => nibble ((ex e).A (m * P.G.K + k))) fun k => (ex e).w.Bb 0 (wIndex 64 P.G.K k n)) := by
    rintro i hi x hx ⟨rfl, hrow, hcol⟩
    have hK := (h.inside i hi x hx).2.2.2.1
    have hfeeds := h.feeds i hi x hx
    rw [Emit4.cell, hO i hi x hx _ (by omega) _ (by omega), Program4.value, hK]
    refine congrArg sat16 (dot_congr (fun k hk => ?_) fun k hk => ?_)
    · rw [(hfeeds k hk).1 _ (by omega), Nat.add_sub_cancel' hrow.1]
    · rw [(hfeeds k hk).2 _ (by omega), Nat.add_sub_cancel' hcol.1]
  obtain ⟨i, hi, x, hx, hcov, -⟩ := h.once e m n he hm hn
  refine stores.of_mem ?_ fun q hq haddr => ?_
  · exact ⟨_, List.mem_flatMap.mpr ⟨i, List.mem_range.mpr hi,
      List.mem_map_of_mem ((h.fetches i hi e m n _ he hm hn).mpr ⟨x, hx, hcov, rfl⟩)⟩, rfl⟩
  · obtain ⟨i', hi', hq⟩ := List.mem_flatMap.mp hq
    rw [List.mem_range] at hi'
    obtain ⟨⟨a, s⟩, hmove, rfl⟩ := List.mem_map.mp hq
    dsimp only at haddr ⊢
    rw [haddr] at hmove
    obtain ⟨y, hy, hycov, rfl⟩ := (h.fetches i' hi' e m n s he hm hn).mp hmove
    rw [List.map_singleton, List.sum_singleton]
    exact hval i' hi' y hy hycov

end OrkDriver.I4
