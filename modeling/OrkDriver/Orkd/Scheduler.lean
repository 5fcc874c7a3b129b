import Mathlib.Data.List.MinMax
import Mathlib.Data.Prod.Lex
import OrkDriver.Orkd.Effects

/-!
`wk_pick` is the maximum of a linear order on the used items, and what `dispatch_one` does with it.
-/

namespace OrkDriver.Orkd

/-- Priority first, then the active domain, then the earliest sequence number. -/
def pickKey (activeDom : Int) (w : Work) : ℕ ×ₗ Bool ×ₗ ℕᵒᵈ :=
  toLex (w.prio, toLex (decide (w.domain = activeDom), OrderDual.toDual w.seq))

theorem pickKey_lt_iff (activeDom : Int) (v w : Work) : pickKey activeDom v < pickKey activeDom w ↔
    v.prio < w.prio ∨ v.prio = w.prio ∧ ((v.domain ≠ activeDom ∧ w.domain = activeDom) ∨
      ((v.domain = activeDom ↔ w.domain = activeDom) ∧ w.seq < v.seq)) := by
  simp only [pickKey, Prod.Lex.toLex_lt_toLex, OrderDual.toDual_lt_toDual, Bool.lt_iff, decide_eq_false_iff_not,
    decide_eq_true_eq, decide_eq_decide]

theorem pickKey_seq {activeDom : Int} {v w : Work} (h : pickKey activeDom v = pickKey activeDom w) : v.seq = w.seq := by
  have h2 := congrArg (fun k => (ofLex (ofLex k).2).2) h
  exact OrderDual.toDual_inj.mp h2

namespace Queue

/-- The comparison of the loop is the order of the keys. -/
theorem beats_iff (activeDom : Int) (w best : Work) :
    beats activeDom w best = true ↔ pickKey activeDom best < pickKey activeDom w := by
  rw [pickKey_lt_iff]
  unfold beats
  by_cases hp : w.prio = best.prio
  · by_cases hw : w.domain = activeDom <;> by_cases hb : best.domain = activeDom <;> simp [hp, hw, hb]
  · have hp' : best.prio ≠ w.prio := fun h => hp h.symm
    simp [hp, hp']

/-- The used slots with their items, in slot order. -/
def candidates (q : Queue) : List (Fin orkdQmax × Work) :=
  (List.finRange orkdQmax).filterMap fun i => (q.slot i).map fun w => (i, w)

theorem mem_candidates {q : Queue} {i : Fin orkdQmax} {w : Work} : (i, w) ∈ q.candidates ↔ q.slot i = some w := by
  refine List.mem_filterMap.trans ⟨?_, fun h => ⟨i, List.mem_finRange i, by rw [h]; rfl⟩⟩
  rintro ⟨j, -, hj⟩
  obtain ⟨v, hv, heq⟩ := Option.map_eq_some_iff.mp hj
  cases heq
  exact hv

theorem wkPick_eq_argmax (q : Queue) (activeDom : Int) :
    q.wkPick activeDom = q.candidates.argmax fun p => pickKey activeDom p.2 := by
  unfold wkPick candidates List.argmax
  rw [List.foldl_filterMap]
  congr 1
  funext best i
  unfold pickSlot List.argAux
  cases q.slot i with
  | none => rfl
  | some w =>
      cases best with
      | none => rfl
      | some b => simp only [beats_iff, Option.map_some]

theorem wkPick_slot {q : Queue} {activeDom : Int} {i : Fin orkdQmax} {w : Work}
    (h : q.wkPick activeDom = some (i, w)) : q.slot i = some w := by
  rw [wkPick_eq_argmax] at h
  exact mem_candidates.mp (List.argmax_mem h)

theorem wkPick_eq_none_iff {q : Queue} {activeDom : Int} : q.wkPick activeDom = none ↔ ∀ i, q.slot i = none := by
  rw [wkPick_eq_argmax, List.argmax_eq_none]
  constructor
  · intro h i
    cases hi : q.slot i with
    | none => rfl
    | some w =>
        have hmem : (i, w) ∈ q.candidates := mem_candidates.mpr hi
        rw [h] at hmem
        cases hmem
  · intro h
    apply List.eq_nil_iff_forall_not_mem.mpr
    rintro ⟨i, w⟩ hmem
    rw [mem_candidates, h i] at hmem
    cases hmem

/-- The pick is the item above every other one, wherever they sit. -/
theorem wkPick_eq_some_iff (q : Queue) (activeDom : Int) (i : Fin orkdQmax) (w : Work) :
    q.wkPick activeDom = some (i, w) ↔ q.slot i = some w ∧
      ∀ j v, q.slot j = some v → j ≠ i → pickKey activeDom v < pickKey activeDom w := by
  have hmax : ∀ {i w}, q.wkPick activeDom = some (i, w) → ∀ j v, q.slot j = some v → j ≠ i →
      pickKey activeDom v < pickKey activeDom w := by
    intro i w h j v hv hne
    have hw : q.slot i = some w := wkPick_slot h
    rw [wkPick_eq_argmax] at h
    have hle : pickKey activeDom v ≤ pickKey activeDom w :=
      List.le_of_mem_argmax (f := fun p : Fin orkdQmax × Work => pickKey activeDom p.2) (mem_candidates.mpr hv) h
    -- equal keys have equal sequence numbers, and those are distinct
    refine lt_of_le_of_ne hle fun heq => hne ?_
    exact q.seq_inj j i v w hv hw (pickKey_seq heq)
  constructor
  · exact fun h => ⟨wkPick_slot h, hmax h⟩
  · rintro ⟨hw, habove⟩
    cases hp : q.wkPick activeDom with
    | none =>
        rw [wkPick_eq_none_iff.mp hp i] at hw
        cases hw
    | some p =>
        obtain ⟨j, v⟩ := p
        have hv : q.slot j = some v := wkPick_slot hp
        by_cases hji : j = i
        · subst hji
          rw [hw] at hv
          cases hv
          rfl
        · exact absurd (habove j v hv hji) (lt_asymm (hmax hp i w hw fun h => hji h.symm))

/-- Two queues with the same items pick the same item, whatever the slots. -/
theorem wkPick_congr {q r : Queue} (h : ∀ w, q.Used w ↔ r.Used w) (activeDom : Int) :
    (q.wkPick activeDom).map (·.2) = (r.wkPick activeDom).map (·.2) := by
  cases hq : q.wkPick activeDom with
  | none =>
      have hempty := wkPick_eq_none_iff.mp hq
      have hr : r.wkPick activeDom = none := by
        apply wkPick_eq_none_iff.mpr
        intro i
        cases hi : r.slot i with
        | none => rfl
        | some w =>
            obtain ⟨j, hj⟩ := (h w).mpr ⟨i, hi⟩
            rw [hempty j] at hj
            cases hj
      rw [hr]
  | some p =>
      obtain ⟨i, w⟩ := p
      obtain ⟨hw, habove⟩ := (wkPick_eq_some_iff q activeDom i w).mp hq
      obtain ⟨j, hj⟩ := (h w).mp ⟨i, hw⟩
      have hr : r.wkPick activeDom = some (j, w) := by
        apply (wkPick_eq_some_iff r activeDom j w).mpr
        refine ⟨hj, fun k v hv hkj => ?_⟩
        obtain ⟨l, hl⟩ := (h v).mpr ⟨k, hv⟩
        refine habove l v hl ?_
        rintro rfl
        rw [hw] at hl
        cases hl
        exact hkj (r.seq_inj k j w w hv hj rfl)
      rw [hr]
      rfl

end Queue

theorem itemClient_eq_some {d : Daemon} {w : Work} {j : Nat} (h : itemClient d w = some j) :
    j < d.nc ∧ (d.cl j).fd = w.fd :=
  ⟨List.mem_range.mp (List.mem_of_find?_eq_some h), by simpa using List.find?_some h⟩

theorem itemClient_eq_none {d : Daemon} {w : Work} (h : itemClient d w = none) : ∀ j, j < d.nc → (d.cl j).fd ≠ w.fd := by
  intro j hj
  simpa using List.find?_eq_none.mp h j (List.mem_range.mpr hj)

/-- The five things a call of `dispatch_one` can do, with what it has looked up. -/
inductive Dispatched (s : Sys) (rc : Int) (out : Nat → UInt32) : Sys → Prop
  | idle : (∀ i, s.d.q.slot i = none) → Dispatched s rc out s
  | orphan {i : Fin orkdQmax} {w : Work} : s.d.q.slot i = some w → (∀ j, j < s.d.nc → (s.d.cl j).fd ≠ w.fd) →
      Dispatched s rc out { s with d := { s.d with q := s.d.q.wkFree i } }
  | stale {i : Fin orkdQmax} {w : Work} {j : Nat} : s.d.q.slot i = some w → j < s.d.nc → (s.d.cl j).fd = w.fd →
      (s.d.cl j).findWeight w.weightId = none →
      Dispatched s rc out (answerStep s i w (sendError w.tag .ebadh "weight freed"))
  | keep {i : Fin orkdQmax} {w : Work} {j : Nat} {cw : CWeight} : s.d.q.slot i = some w → j < s.d.nc →
      (s.d.cl j).fd = w.fd → (s.d.cl j).findWeight w.weightId = some cw → w.m0 + quantumRows s.d.q w < w.M →
      dispatchOne s.d = .quantum i w cw (quantumRows s.d.q w) →
      Dispatched s rc out (keepItem (beginQuantum s w (quantumRows s.d.q w)) i (quantumRows s.d.q w) rc out)
  | finish {i : Fin orkdQmax} {w : Work} {j : Nat} {cw : CWeight} : s.d.q.slot i = some w → j < s.d.nc →
      (s.d.cl j).fd = w.fd → (s.d.cl j).findWeight w.weightId = some cw → ¬ w.m0 + quantumRows s.d.q w < w.M →
      dispatchOne s.d = .quantum i w cw (quantumRows s.d.q w) →
      Dispatched s rc out (finishItem (beginQuantum s w (quantumRows s.d.q w)) i
        (runQuantum (quantumRows s.d.q w) rc out w))

theorem dispatchStep_cases (s : Sys) (rc : Int) (out : Nat → UInt32) : Dispatched s rc out (dispatchStep s rc out) := by
  unfold dispatchStep dispatchOne
  cases hp : s.d.q.wkPick s.d.activeDom with
  | none => exact .idle (Queue.wkPick_eq_none_iff.mp hp)
  | some p =>
      obtain ⟨i, w⟩ := p
      have hslot := Queue.wkPick_slot hp
      dsimp only
      cases hc : itemClient s.d w with
      | none => exact .orphan hslot (itemClient_eq_none hc)
      | some j =>
          obtain ⟨hj, hfd⟩ := itemClient_eq_some hc
          dsimp only
          cases hf : (s.d.cl j).findWeight w.weightId with
          | none => exact .stale hslot hj hfd hf
          | some cw =>
              have hone : dispatchOne s.d = .quantum i w cw (quantumRows s.d.q w) := by
                simp only [dispatchOne, hp, hc, hf]
              dsimp only [quantumStep]
              split
              · rename_i hlt
                exact .keep hslot hj hfd hf hlt hone
              · rename_i hge
                exact .finish hslot hj hfd hf hge hone

end OrkDriver.Orkd
