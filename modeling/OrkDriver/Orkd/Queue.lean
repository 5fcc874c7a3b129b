import Mathlib.Data.Fintype.Card
import Mathlib.Data.Fin.Basic
import OrkDriver.Orkd.Wire

/-!
The submit queue of `orkd.c`: the 256 slots of `g_q`, `wk_alloc`, `wk_free`, `wk_purge_fd` and `wk_pick`.
-/

namespace OrkDriver.Orkd

/-- `struct work` of a used slot. A and C are the buffers with their allocated byte counts. -/
structure Work where
  fd : Nat
  type : OrkdMsgType
  M : Int
  K : Int
  N : Int
  m0 : Int
  rc : Int
  dtype : OrkdDtype
  domain : Int
  prio : Nat
  tag : UInt64
  seq : Nat
  weightId : Nat
  A : Stream
  aLen : Nat
  C : Nat → UInt32
  cLen : Nat

/-- Slots in use. -/
def usedSlots (slot : Fin orkdQmax → Option Work) : Finset (Fin orkdQmax) :=
  Finset.univ.filter fun i => (slot i).isSome

/-- `g_q` with `g_qn` and `g_wseq`: the count is exact and the sequence numbers in use are distinct. -/
structure Queue where
  slot : Fin orkdQmax → Option Work
  qn : Nat
  wseq : Nat
  qn_eq : qn = (usedSlots slot).card
  seq_lt : ∀ i w, slot i = some w → w.seq < wseq
  seq_inj : ∀ i j w v, slot i = some w → slot j = some v → w.seq = v.seq → i = j

namespace Queue

def empty : Queue where
  slot _ := none
  qn := 0
  wseq := 0
  qn_eq := by simp [usedSlots]
  seq_lt := by simp
  seq_inj := by simp

/-- `w` is in the queue. -/
def Used (q : Queue) (w : Work) : Prop := ∃ i, q.slot i = some w

theorem used_seq_lt {q : Queue} {w : Work} (h : q.Used w) : w.seq < q.wseq := by
  obtain ⟨i, hi⟩ := h
  exact q.seq_lt i w hi

theorem used_seq_inj {q : Queue} {w v : Work} (hw : q.Used w) (hv : q.Used v) (h : w.seq = v.seq) : w = v := by
  obtain ⟨i, hi⟩ := hw
  obtain ⟨j, hj⟩ := hv
  have hij := q.seq_inj i j w v hi hj h
  subst hij
  exact Option.some.inj (hi.symm.trans hj)

theorem usedSlots_insert (slot : Fin orkdQmax → Option Work) (i : Fin orkdQmax) (w : Work)
    (h : slot i = none) : (usedSlots (Function.update slot i (some w))).card = (usedSlots slot).card + 1 := by
  have hi : i ∉ usedSlots slot := by simp [usedSlots, h]
  rw [← Finset.card_insert_of_notMem hi]
  congr 1
  ext j
  by_cases hj : j = i
  · subst hj; simp [usedSlots]
  · simp [usedSlots, hj]

theorem usedSlots_erase (slot : Fin orkdQmax → Option Work) (i : Fin orkdQmax) (w : Work)
    (h : slot i = some w) : (usedSlots (Function.update slot i none)).card = (usedSlots slot).card - 1 := by
  have hi : i ∈ usedSlots slot := by simp [usedSlots, h]
  rw [← Finset.card_erase_of_mem hi]
  congr 1
  ext j
  by_cases hj : j = i
  · subst hj; simp [usedSlots]
  · simp [usedSlots, hj]

/-- The slot `orkd_wk_alloc` hands out: the first one not in use. -/
def freeSlot (q : Queue) : Option (Fin orkdQmax) :=
  (List.finRange orkdQmax).find? fun i => (q.slot i).isNone

theorem freeSlot_none {q : Queue} {i : Fin orkdQmax} (h : q.freeSlot = some i) : q.slot i = none := by
  simpa using List.find?_some h

/-- `orkd_wk_alloc` at the free slot `i`, with the fields its caller fills in. -/
def allocAt (q : Queue) (i : Fin orkdQmax) (h : q.slot i = none) (w : Work) : Queue where
  slot := Function.update q.slot i (some { w with seq := q.wseq })
  qn := q.qn + 1
  wseq := q.wseq + 1
  qn_eq := by rw [usedSlots_insert q.slot i _ h, q.qn_eq]
  seq_lt := by
    intro j v hv
    by_cases hj : j = i
    · subst hj
      simp only [Function.update_self, Option.some.injEq] at hv
      subst hv
      exact Nat.lt_succ_self _
    · rw [Function.update_of_ne hj] at hv
      exact Nat.lt_succ_of_lt (q.seq_lt j v hv)
  seq_inj := by
    intro j k v u hv hu huv
    have hlt : ∀ l x, l ≠ i → Function.update q.slot i (some { w with seq := q.wseq }) l = some x →
        q.slot l = some x ∧ x.seq < q.wseq := by
      intro l x hl hx
      rw [Function.update_of_ne hl] at hx
      exact ⟨hx, q.seq_lt l x hx⟩
    have hat : ∀ x, Function.update q.slot i (some { w with seq := q.wseq }) i = some x → x.seq = q.wseq := by
      intro x hx
      simp only [Function.update_self, Option.some.injEq] at hx
      rw [← hx]
    by_cases hj : j = i <;> by_cases hk : k = i
    · rw [hj, hk]
    · subst hj
      have hv' := hat v hv
      have hu' := (hlt k u hk hu).2
      omega
    · subst hk
      have hu' := hat u hu
      have hv' := (hlt j v hj hv).2
      omega
    · exact q.seq_inj j k v u (hlt j v hj hv).1 (hlt k u hk hu).1 huv

/-- `orkd_wk_alloc`: `none` when every slot is in use. -/
def wkAlloc (q : Queue) (w : Work) : Option Queue :=
  match h : q.freeSlot with
  | none => none
  | some i => some (q.allocAt i (freeSlot_none h) w)

/-- `wk_free`. -/
def wkFree (q : Queue) (i : Fin orkdQmax) : Queue where
  slot := Function.update q.slot i none
  qn := if (q.slot i).isSome then q.qn - 1 else q.qn
  wseq := q.wseq
  qn_eq := by
    cases h : q.slot i with
    | none =>
        have hu : Function.update q.slot i none = q.slot := by rw [← h, Function.update_eq_self]
        simp [hu, q.qn_eq]
    | some w => simp [usedSlots_erase q.slot i w h, q.qn_eq]
  seq_lt := by
    intro j v hv
    by_cases hj : j = i
    · subst hj; simp at hv
    · rw [Function.update_of_ne hj] at hv
      exact q.seq_lt j v hv
  seq_inj := by
    intro j k v u hv hu huv
    by_cases hj : j = i
    · subst hj; simp at hv
    · by_cases hk : k = i
      · subst hk; simp at hu
      · rw [Function.update_of_ne hj] at hv
        rw [Function.update_of_ne hk] at hu
        exact q.seq_inj j k v u hv hu huv

/-- The used slots of one connection. -/
def fdSlots (slot : Fin orkdQmax → Option Work) (fd : Nat) : Finset (Fin orkdQmax) :=
  Finset.univ.filter fun i => (slot i).any (·.fd == fd)

/-- `wk_purge_fd`: `wk_free` every used slot of that connection. -/
def wkPurgeFd (q : Queue) (fd : Nat) : Queue where
  slot i := (q.slot i).filter (·.fd != fd)
  qn := q.qn - (fdSlots q.slot fd).card
  wseq := q.wseq
  qn_eq := by
    have hsub : fdSlots q.slot fd ⊆ usedSlots q.slot := by
      intro i hi
      cases h : q.slot i <;> simp_all [fdSlots, usedSlots]
    rw [q.qn_eq, ← Finset.card_sdiff_of_subset hsub]
    congr 1
    ext i
    cases h : q.slot i <;> simp [fdSlots, usedSlots, h]
  seq_lt := by
    intro i w hw
    rw [Option.filter_eq_some_iff] at hw
    exact q.seq_lt i w hw.1
  seq_inj := by
    intro i j w v hw hv
    rw [Option.filter_eq_some_iff] at hw hv
    exact q.seq_inj i j w v hw.1 hv.1

/-- Rewrite the item of a slot in place; its sequence number stays. -/
def modify (q : Queue) (i : Fin orkdQmax) (f : Work → Work) (hf : ∀ w, (f w).seq = w.seq) : Queue where
  slot := Function.update q.slot i ((q.slot i).map f)
  qn := q.qn
  wseq := q.wseq
  qn_eq := by
    rw [q.qn_eq]
    congr 1
    ext j
    by_cases hj : j = i
    · subst hj; simp [usedSlots]
    · simp [usedSlots, hj]
  seq_lt := by
    intro j v hv
    by_cases hj : j = i
    · subst hj
      rw [Function.update_self, Option.map_eq_some_iff] at hv
      obtain ⟨w, hw, rfl⟩ := hv
      rw [hf]
      exact q.seq_lt j w hw
    · rw [Function.update_of_ne hj] at hv
      exact q.seq_lt j v hv
  seq_inj := by
    have key : ∀ l x, Function.update q.slot i ((q.slot i).map f) l = some x →
        ∃ y, q.slot l = some y ∧ y.seq = x.seq := by
      intro l x hx
      by_cases hl : l = i
      · subst hl
        rw [Function.update_self, Option.map_eq_some_iff] at hx
        obtain ⟨y, hy, rfl⟩ := hx
        exact ⟨y, hy, (hf y).symm⟩
      · rw [Function.update_of_ne hl] at hx
        exact ⟨x, hx, rfl⟩
    intro j k v u hv hu huv
    obtain ⟨y, hy, hyv⟩ := key j v hv
    obtain ⟨z, hz, hzu⟩ := key k u hu
    exact q.seq_inj j k y z hy hz (by omega)

/-! What each operation does to the items in the queue. -/

theorem exists_wkAlloc {q : Queue} {i : Fin orkdQmax} (h : q.freeSlot = some i) (w : Work) :
    ∃ r, q.wkAlloc w = some r := by
  unfold wkAlloc
  split
  · rename_i hnone
    rw [h] at hnone
    cases hnone
  · exact ⟨_, rfl⟩

theorem wkAlloc_spec {q r : Queue} {w : Work} (h : q.wkAlloc w = some r) :
    r.wseq = q.wseq + 1 ∧ ∀ v, r.Used v ↔ q.Used v ∨ v = { w with seq := q.wseq } := by
  unfold wkAlloc at h
  split at h
  · cases h
  · rename_i i hfree
    obtain rfl := Option.some.inj h
    refine ⟨rfl, fun v => ?_⟩
    constructor
    · rintro ⟨j, hj⟩
      by_cases hji : j = i
      · simp only [allocAt, hji, Function.update_self, Option.some.injEq] at hj
        exact .inr hj.symm
      · simp only [allocAt, Function.update_of_ne hji] at hj
        exact .inl ⟨j, hj⟩
    · rintro (⟨j, hj⟩ | rfl)
      · have hji : j ≠ i := by
          rintro rfl
          rw [freeSlot_none hfree] at hj
          cases hj
        exact ⟨j, by simp only [allocAt, Function.update_of_ne hji, hj]⟩
      · exact ⟨i, by simp only [allocAt, Function.update_self]⟩

theorem used_wkFree {q : Queue} {i : Fin orkdQmax} {w : Work} (h : q.slot i = some w) (v : Work) :
    (q.wkFree i).Used v ↔ q.Used v ∧ v.seq ≠ w.seq := by
  constructor
  · rintro ⟨j, hj⟩
    by_cases hji : j = i
    · simp [wkFree, hji] at hj
    · simp only [wkFree, Function.update_of_ne hji] at hj
      exact ⟨⟨j, hj⟩, fun hseq => hji (q.seq_inj j i v w hj h hseq)⟩
  · rintro ⟨⟨j, hj⟩, hseq⟩
    have hji : j ≠ i := by
      rintro rfl
      rw [h] at hj
      cases hj
      exact hseq rfl
    exact ⟨j, by simp only [wkFree, Function.update_of_ne hji, hj]⟩

theorem used_wkPurgeFd {q : Queue} {fd : Nat} (v : Work) : (q.wkPurgeFd fd).Used v ↔ q.Used v ∧ v.fd ≠ fd := by
  simp [Used, wkPurgeFd, Option.filter_eq_some_iff]

theorem used_modify {q : Queue} {i : Fin orkdQmax} {w : Work} (h : q.slot i = some w) {f : Work → Work}
    (hf : ∀ w, (f w).seq = w.seq) (v : Work) : (q.modify i f hf).Used v ↔ v = f w ∨ q.Used v ∧ v.seq ≠ w.seq := by
  constructor
  · rintro ⟨j, hj⟩
    by_cases hji : j = i
    · simp only [modify, hji, Function.update_self, h, Option.map_some, Option.some.injEq] at hj
      exact .inl hj.symm
    · simp only [modify, Function.update_of_ne hji] at hj
      exact .inr ⟨⟨j, hj⟩, fun hseq => hji (q.seq_inj j i v w hj h hseq)⟩
  · rintro (rfl | ⟨⟨j, hj⟩, hseq⟩)
    · exact ⟨i, by simp only [modify, Function.update_self, h, Option.map_some]⟩
    · have hji : j ≠ i := by
        rintro rfl
        rw [h] at hj
        cases hj
        exact hseq rfl
      exact ⟨j, by simp only [modify, Function.update_of_ne hji, hj]⟩

/-- The comparison in `wk_pick`: does `w` replace `best`? -/
def beats (activeDom : Int) (w best : Work) : Bool :=
  if w.prio ≠ best.prio then best.prio < w.prio
  else if (w.domain = activeDom) ≠ (best.domain = activeDom) then w.domain = activeDom
  else w.seq < best.seq

/-- One slot of the loop in `wk_pick`. -/
def pickSlot (q : Queue) (activeDom : Int) (best : Option (Fin orkdQmax × Work)) (i : Fin orkdQmax) :
    Option (Fin orkdQmax × Work) :=
  match q.slot i with
  | none => best
  | some w =>
    match best with
    | none => some (i, w)
    | some b => if beats activeDom w b.2 then some (i, w) else some b

/-- `wk_pick`: the slot dispatched next, with its item. -/
def wkPick (q : Queue) (activeDom : Int) : Option (Fin orkdQmax × Work) :=
  (List.finRange orkdQmax).foldl (q.pickSlot activeDom) none

end Queue

end OrkDriver.Orkd
