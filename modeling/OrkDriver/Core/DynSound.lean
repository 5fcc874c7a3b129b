import OrkDriver.Core.ColsplitCorrect
import OrkDriver.Core.DynEnd

/-!
What `ork_dyn_progress` and `ork_dyn_end` guarantee for a handle whose copy-back reads the cells its programs write.
-/

namespace OrkDriver.Core

open OrkDriver.Lib OrkDriver.Pack

variable {R : Type*}

theorem put_nil (C : Nat → Nat → R) (a : Nat) : put C a [] = C := Function.update_eq_self a C

namespace DynRun

variable {v : DynRun R} {r t t' i : Nat}

theorem landed_mono {x : Nat} (htt : t ≤ t') (h : v.landed r t i x = true) : v.landed r t' i x = true := by
  unfold landed at h ⊢
  cases hl : v.land r i x with
  | none =>
      rw [hl] at h
      cases h
  | some s =>
      rw [hl] at h
      exact decide_eq_true (Nat.le_trans (of_decide_eq_true h) htt)

theorem wrote_iff {o : Output} :
    v.wrote r t i o = true ↔ ∀ ks m n, o.Covers ks m n → v.landed r t i (o.cell m n) = true := by
  simp only [wrote, List.all_eq_true, List.mem_range]
  constructor
  · rintro h ks m n ⟨-, ⟨hm, hm'⟩, hn, hn'⟩
    have := h (m - o.m0) (by omega) (n - o.n0) (by omega)
    rwa [Nat.add_sub_cancel' hm, Nat.add_sub_cancel' hn] at this
  · intro h a ha b hb
    exact h o.ks _ _ ⟨rfl, ⟨Nat.le_add_right _ _, Nat.add_lt_add_left ha _⟩, Nat.le_add_right _ _, Nat.add_lt_add_left hb _⟩

end DynRun

namespace DynChain

variable {h : DynChain} {v : DynRun R} {r t t' i : Nat}

theorem done_iff : h.done v r t i = true ↔
    ∀ o ∈ (h.entry i).outs, ∀ ks m n, o.Covers ks m n → v.landed r t i (o.cell m n) = true := by
  simp only [done, List.all_eq_true, DynRun.wrote_iff]

theorem done_mono (htt : t ≤ t') (hd : h.done v r t i = true) : h.done v r t' i = true :=
  done_iff.mpr fun o ho ks m n hc => DynRun.landed_mono htt (done_iff.mp hd o ho ks m n hc)

/-! ### The frontier -/

/-- At moment `t` op `p` is the last of the ops that are done up to the first that is not. -/
def Frontier (h : DynChain) (v : DynRun R) (r t : Nat) (p : Int) : Prop :=
  ∃ n ≤ h.S, p = (n : Int) - 1 ∧ (∀ i < n, h.done v r t i = true) ∧ (n < h.S → h.done v r t n = false)

theorem progressFrom_spec {n : Nat} (hi : ∀ j < i, h.done v r t j = true) :
    t ≤ (h.progressFrom v r n i t).2 ∧ (h.progressFrom v r n i t).2 ≤ t + n ∧ (h.progressFrom v r n i t).1 ≤ i + n ∧
      (∀ j < (h.progressFrom v r n i t).1, h.done v r (h.progressFrom v r n i t).2 j = true) ∧
      ((h.progressFrom v r n i t).1 < i + n →
        h.done v r (h.progressFrom v r n i t).2 (h.progressFrom v r n i t).1 = false) := by
  induction n generalizing i t with
  | zero => exact ⟨Nat.le_refl t, Nat.le_refl t, Nat.le_refl i, hi, fun hlt => absurd hlt (Nat.lt_irrefl i)⟩
  | succ n ih =>
      unfold progressFrom
      cases hd : h.done v r t i with
      | true =>
          have hnext : ∀ j < i + 1, h.done v r (t + 1) j = true := by
            intro j hj
            rcases Nat.lt_succ_iff_lt_or_eq.mp hj with hlt | rfl
            · exact done_mono (Nat.le_succ t) (hi j hlt)
            · exact done_mono (Nat.le_succ t) hd
          obtain ⟨h1, h2, h3, h4, h5⟩ := ih hnext
          rw [if_pos rfl]
          exact ⟨by omega, by omega, by omega, h4, fun hlt => h5 (by omega)⟩
      | false =>
          rw [if_neg Bool.false_ne_true]
          exact ⟨Nat.le_refl t, by omega, by omega, hi, fun _ => hd⟩

/-- `ork_dyn_progress` returns the frontier at the moment of its last look. -/
theorem orkDynProgress_frontier (h : DynChain) (v : DynRun R) (r t : Nat) :
    ∃ t', t ≤ t' ∧ t' ≤ t + h.S ∧ h.Frontier v r t' (h.orkDynProgress v r t) := by
  obtain ⟨h1, h2, h3, h4, h5⟩ := progressFrom_spec (h := h) (v := v) (r := r) (t := t) (i := 0) (n := h.S)
    fun j hj => absurd hj (Nat.not_lt_zero j)
  rw [Nat.zero_add] at h3 h5
  exact ⟨_, h1, h2, _, h3, rfl, h4, h5⟩

/-! ### The copy-back -/

/-- What `ork_dyn_end` moves for an op, one way or the other. -/
def moves (h : DynChain) (i : Nat) : List Move :=
  if h.i4batch then (h.entry i).tiles
  else if h.direct then (h.entry i).inPlace
  else orkDynWriteback h.geom (h.entry i).op

/-- The C of an op. -/
def goal (h : DynChain) (i : Nat) : Target := h.target (h.entry i).arr

/-- `srcs` are the cells of element `(m, n)`, that of each K-slice written by a program that computes it. -/
def Partials (h : DynChain) (i m n : Nat) (srcs : List Nat) : Prop :=
  srcs.length = (h.goal i).slices ∧
    ∀ ks < (h.goal i).slices, ∃ o ∈ (h.entry i).outs, o.Covers ks m n ∧ srcs[ks]? = some (o.cell m n)

/-- The copy-back of an op reads, for each element of its own, the cells of that element; the ops for one C share no
element, and each element has one. -/
structure Sound (h : DynChain) (own : Nat → Nat → Nat → Prop) : Prop where
  stride : ∀ i < h.S, (h.goal i).N ≤ (h.goal i).stride
  cell : ∀ i < h.S, ∀ m n, m < (h.goal i).M → n < (h.goal i).N → own i m n →
    ∃ srcs, (∀ s, (m * (h.goal i).stride + n, s) ∈ h.moves i ↔ s = srcs) ∧ h.Partials i m n srcs
  covered : ∀ a < h.targets, ∀ m n, m < (h.target a).M → n < (h.target a).N → ∃ i < h.S, (h.entry i).arr = a ∧ own i m n
  apart : ∀ i < h.S, ∀ j < h.S, i ≠ j → (h.entry i).arr = (h.entry j).arr → ∀ p ∈ h.moves j, ∀ m n, m < (h.goal i).M →
    n < (h.goal i).N → own i m n → p.1 ≠ m * (h.goal i).stride + n
  null : h.i4batch = true ∨ h.direct = true → ∀ i < h.S, (h.entry i).op.dst = none
  kinds : h.i4batch = true → h.direct = false
  parallel : h.prepolled = true → h.i4batch = false ∧ h.direct = false
  worker : ∀ i < h.S, h.taken i = true → 0 < (h.goal i).M → ∃ lo Nc, (h.entry i).op.dst = some lo ∧
    (h.entry i).op.nout = (h.entry i).op.oSk * (h.entry i).op.oM * Nc ∧ 0 < (h.entry i).op.oM ∧ 0 < Nc ∧
    lo + Nc ≤ (h.entry i).op.ostride

variable [AddCommMonoid R] {own : Nat → Nat → Nat → Prop} {C : Nat → Nat → R}

/-- The elements of op `i` hold the sums of their cells. -/
def Placed (h : DynChain) (own : Nat → Nat → Nat → Prop) (v : DynRun R) (C : Nat → Nat → R) (i : Nat) : Prop :=
  ∀ m n, m < (h.goal i).M → n < (h.goal i).N → own i m n → ∃ srcs, h.Partials i m n srcs ∧
    C (h.entry i).arr (m * (h.goal i).stride + n) = (srcs.map (v.value i)).sum

/-- Every element of every C holds the sum of its cells. -/
def Filled (h : DynChain) (v : DynRun R) (C : Nat → Nat → R) : Prop :=
  ∀ a < h.targets, ∀ m n, m < (h.target a).M → n < (h.target a).N → ∃ i < h.S, (h.entry i).arr = a ∧
    ∃ srcs, h.Partials i m n srcs ∧ C a (m * (h.target a).stride + n) = (srcs.map (v.value i)).sum

theorem filled_of_placed (hs : h.Sound own) (hp : ∀ i < h.S, h.Placed own v C i) : h.Filled v C := by
  intro a ha m n hm hn
  obtain ⟨i, hi, rfl, hown⟩ := hs.covered a ha m n hm hn
  exact ⟨i, hi, rfl, hp i hi m n hm hn hown⟩

omit [AddCommMonoid R] in
/-- The cells of an op that is done read as they were written. -/
theorem content_eq (hd : h.done v r t i = true) {m n : Nat} {srcs : List Nat} (hp : h.Partials i m n srcs) :
    srcs.map (v.content r t i) = srcs.map (v.value i) := by
  refine List.map_congr_left fun x hx => ?_
  obtain ⟨ks, hks, rfl⟩ := List.getElem_of_mem hx
  obtain ⟨o, ho, hcov, hget⟩ := hp.2 ks (hp.1 ▸ hks)
  rw [List.getElem?_eq_getElem hks, Option.some_inj] at hget
  rw [hget]
  exact if_pos (done_iff.mp hd o ho ks m n hcov)

theorem placed_moveAt (hs : h.Sound own) (hi : i < h.S) (hd : h.done v r t i = true) :
    h.Placed own v (h.moveAt v r t C i (h.moves i)) i := by
  intro m n hm hn hown
  obtain ⟨srcs, hiff, hp⟩ := hs.cell i hi m n hm hn hown
  refine ⟨srcs, hp, ?_⟩
  rw [moveAt, put, Function.update_self, ← content_eq hd hp]
  refine stores.of_mem ⟨_, List.mem_map_of_mem ((hiff srcs).mpr rfl), rfl⟩ fun w hw hx => ?_
  obtain ⟨p, hp, rfl⟩ := List.mem_map.mp hw
  dsimp only at hx ⊢
  rw [(hiff p.2).mp (by rw [← hx]; exact hp)]

/-- What is moved for another op leaves it alone. -/
theorem placed_frame (hs : h.Sound own) {j : Nat} (hi : i < h.S) (hj : j < h.S) (hij : i ≠ j) {l : List Move}
    (hl : ∀ p ∈ l, p ∈ h.moves j) (hp : h.Placed own v C i) : h.Placed own v (h.moveAt v r t C j l) i := by
  intro m n hm hn hown
  obtain ⟨srcs, hsrcs, hC⟩ := hp m n hm hn hown
  refine ⟨srcs, hsrcs, ?_⟩
  rw [← hC, moveAt, put]
  by_cases harr : (h.entry i).arr = (h.entry j).arr
  · rw [← harr, Function.update_self]
    refine stores.of_forall_ne fun w hw => ?_
    obtain ⟨p, hp, rfl⟩ := List.mem_map.mp hw
    exact hs.apart i hi j hj hij harr p (hl p hp) m n hm hn hown
  · rw [Function.update_of_ne harr]

theorem writeback_null (hs : h.Sound own) (hk : h.i4batch = true ∨ h.direct = true) (hi : i < h.S) :
    orkDynWriteback h.geom (h.entry i).op = [] := by
  rw [orkDynWriteback, hs.null hk i hi]

theorem moveAt_nil : h.moveAt v r t C i [] = C := put_nil C _

end DynChain

/-- Of a K-split the worker stores what `ork_dyn_end` would. -/
theorem workerAccumulate_eq [AddCommMonoid R] {op : DynOp} {lo Nc : Nat} (g : DynGeom) (hdst : op.dst = some lo)
    (hSk : 1 < op.oSk) (hnout : op.nout = op.oSk * op.oM * Nc) (hM : 0 < op.oM) (hNc : 0 < Nc)
    (hle : lo + Nc ≤ op.ostride) (src C : Nat → R) :
    workerAccumulate op src C = stores C (moved src (orkDynWriteback g op)) := by
  have hstride : 0 < op.ostride := by omega
  have hpos : 0 < op.nout := by
    rw [hnout]
    exact Nat.mul_pos (Nat.mul_pos (by omega) hM) hNc
  have hback : moved src (orkDynWriteback g op) = block (0 * op.ostride + lo) op.ostride op.oM Nc fun m n =>
      (((List.range op.oSk).map fun ks => ks * op.oM * Nc + m * Nc + n).map src).sum := by
    unfold orkDynWriteback
    rw [hdst]
    dsimp only
    rw [if_neg (Nat.ne_of_gt hpos), if_neg (Nat.ne_of_gt hM), if_pos hSk, if_pos hstride, hnout,
      Nat.mul_div_cancel_left _ (Nat.mul_pos (by omega) hM)]
    simp only [ksplitMoves, moved, block, List.map_flatMap, List.map_map, Function.comp_def, Nat.zero_mul, Nat.zero_add,
      Nat.add_assoc]
  funext x
  have hx : x = x / op.ostride * op.ostride + x % op.ostride := (Nat.div_add_mod' x op.ostride).symm
  have hn : x % op.ostride < op.ostride := Nat.mod_lt x hstride
  rw [hback, hx, workerAccumulate_cell hdst hM rfl (by omega) rfl hnout hstride rfl hle src C hn,
    stores_block_cell hle C hn]
  simp only [Nat.zero_le, true_and, Nat.zero_add, Nat.sub_zero, List.map_map]
  rw [Finset.sum_eq_multiset_sum, Finset.range_val, Multiset.range, Multiset.map_coe, Multiset.sum_coe]
  rfl

namespace DynChain

variable {h : DynChain} {v : DynRun R} {r t i : Nat} [AddCommMonoid R] {own : Nat → Nat → Nat → Prop} {C : Nat → Nat → R}

theorem moves_writeback (hb : h.i4batch = false) (hd : h.direct = false) :
    h.moves i = orkDynWriteback h.geom (h.entry i).op := by
  rw [moves, hb, hd, if_neg Bool.false_ne_true, if_neg Bool.false_ne_true]

theorem not_taken (hs : h.Sound own) (hk : h.i4batch = true ∨ h.direct = true) (i : Nat) : h.taken i = false := by
  cases ht : h.taken i with
  | false => rfl
  | true =>
      have hpre : h.prepolled = true := (Bool.and_eq_true_iff.mp ht).1
      obtain ⟨hb, hd⟩ := hs.parallel hpre
      rw [hb, hd] at hk
      rcases hk with hk | hk <;> cases hk

/-- What the workers leave, if the blocking submit of each has done its job. -/
theorem workers_placed (hs : h.Sound own) (hd : ∀ i < h.S, h.done v 0 0 i = true) :
    ∀ i < h.S, h.taken i = true → h.Placed own v (h.workers v C) i := by
  have hstep : ∀ i < h.S, h.taken i = true → 0 < (h.goal i).M → ∀ C, Function.update C (h.entry i).arr
      (workerAccumulate (h.entry i).op (v.content 0 0 i) (C (h.entry i).arr)) = h.moveAt v 0 0 C i (h.moves i) := by
    intro i hi ht hM C
    obtain ⟨hpre, hSk⟩ := Bool.and_eq_true_iff.mp ht
    obtain ⟨hb, hdir⟩ := hs.parallel hpre
    obtain ⟨lo, Nc, hdst, hnout, hoM, hNc, hle⟩ := hs.worker i hi ht hM
    rw [moves_writeback hb hdir, moveAt, put,
      workerAccumulate_eq h.geom hdst (of_decide_eq_true hSk) hnout hoM hNc hle]
  refine foldl_range_all (P := fun i C => h.taken i = true → h.Placed own v C i) (fun i hi => Or.inr fun C ht => ?_) ?_
  · rw [if_pos ht]
    rcases Nat.eq_zero_or_pos (h.goal i).M with hM | hM
    · intro m n hm
      omega
    · rw [hstep i hi ht hM]
      exact placed_moveAt hs hi (hd i hi)
  · intro i hi j hj hij C hp ht
    by_cases htj : h.taken j = true
    · rw [if_pos htj]
      rcases Nat.eq_zero_or_pos (h.goal i).M with hM | hM
      · intro m n hm
        omega
      · by_cases harr : (h.entry i).arr = (h.entry j).arr
        · have hMj : 0 < (h.goal j).M := by
            rw [goal, ← harr]
            exact hM
          rw [hstep j hj htj hMj]
          exact placed_frame hs hi hj hij (fun p hp => hp) (hp ht)
        · intro m n hm hn hown
          obtain ⟨srcs, hsrcs, hC⟩ := hp ht m n hm hn hown
          exact ⟨srcs, hsrcs, by rw [Function.update_of_ne harr, hC]⟩
    · rw [if_neg htj]
      exact hp ht

/-- After the copy-back every element is in place, if every op was done before. -/
theorem copyBack_placed (hs : h.Sound own) {s : Poll R} (hd : ∀ i < h.S, h.done v r s.now i = true)
    (hfused : h.i4batch = true → h.S ≤ s.detiled → ∀ i < h.S, h.Placed own v s.C i)
    (htaken : ∀ i < h.S, h.taken i = true → h.Placed own v s.C i) :
    ∀ i < h.S, h.Placed own v (h.copyBack v r s) i := by
  have hlater : ∀ i < h.S, h.done v r (h.copyTime v s.now i) i = true := by
    intro i hi
    refine done_mono ?_ (hd i hi)
    unfold copyTime
    split <;> omega
  cases hb : h.i4batch with
  | true =>
      have hmoves : ∀ i, h.moves i = (h.entry i).tiles := fun i => by rw [moves, hb, if_pos rfl]
      have hdetiled : ∀ i < h.S, h.Placed own v (if h.i4batch = true ∧ s.detiled < h.S then
          (List.range h.S).foldl (fun C i => h.moveAt v r s.now C i (h.entry i).tiles) s.C else s.C) i := by
        split
        · refine foldl_range_all (P := fun i C => h.Placed own v C i) (fun i hi => Or.inr fun C => ?_) fun i hi j hj hij C hp => ?_
          · rw [← hmoves]
            exact placed_moveAt hs hi (hd i hi)
          · exact placed_frame hs hi hj hij (fun p hp => by rwa [hmoves]) hp
        · next hdet => exact hfused hb (Nat.not_lt.mp fun hlt => hdet ⟨hb, hlt⟩)
      unfold copyBack
      dsimp only
      rw [hs.kinds hb, if_neg Bool.false_ne_true]
      refine foldl_range_all (P := fun i C => h.Placed own v C i) (fun i hi => Or.inl ⟨hdetiled i hi, fun C hp => ?_⟩) fun i hi j hj _ C hp => ?_
      · rw [not_taken hs (Or.inl hb), if_neg Bool.false_ne_true, writeback_null hs (Or.inl hb) hi, moveAt_nil]
        exact hp
      · rw [not_taken hs (Or.inl hb), if_neg Bool.false_ne_true, writeback_null hs (Or.inl hb) hj, moveAt_nil]
        exact hp
  | false =>
      have hno : ¬ (h.i4batch = true ∧ s.detiled < h.S) := fun hand => Bool.false_ne_true (hb.symm.trans hand.1)
      unfold copyBack
      dsimp only
      rw [if_neg hno]
      cases hdir : h.direct with
      | true =>
          have hmoves : ∀ i, h.moves i = (h.entry i).inPlace := fun i => by
            rw [moves, hb, hdir, if_neg Bool.false_ne_true, if_pos rfl]
          rw [if_pos rfl]
          refine foldl_range_all (P := fun i C => h.Placed own v C i) (fun i hi => Or.inr fun C => ?_) fun i hi j hj hij C hp => ?_
          · rw [← hmoves]
            exact placed_moveAt hs hi (hd i hi)
          · exact placed_frame hs hi hj hij (fun p hp => by rwa [hmoves]) hp
      | false =>
          rw [if_neg Bool.false_ne_true]
          refine foldl_range_all (P := fun i C => h.Placed own v C i) (fun i hi => ?_) fun i hi j hj hij C hp => ?_
          · cases ht : h.taken i with
            | true => exact Or.inl ⟨htaken i hi ht, fun C hp => by rwa [if_pos rfl]⟩
            | false =>
                refine Or.inr fun C => ?_
                rw [if_neg Bool.false_ne_true, ← moves_writeback hb hdir]
                exact placed_moveAt hs hi (hlater i hi)
          · split
            · exact hp
            · exact placed_frame hs hi hj hij (fun p hp => by rwa [moves_writeback hb hdir]) hp

end DynChain

end OrkDriver.Core
