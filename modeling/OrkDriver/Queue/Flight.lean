import Mathlib.Data.List.GetD
import OrkDriver.Queue.Submit
import OrkDriver.Core.ColsplitCorrect

/-!
Chunks in flight: a handle with an op for each task, what the device can still run of it, and what `ork_dyn_end` counts.
-/

namespace OrkDriver.Queue

open OrkDriver.Lib OrkDriver.Npu OrkDriver.Pack OrkDriver.Run OrkDriver.I4 OrkDriver.Core

variable {R : Type*}

/-! ### The handles -/

/-- An op for each task, whose doorbell is the last word it writes. -/
structure Tasked (h : DynChain) (S : Nat) : Prop where
  S_eq : h.S = S
  polled : h.prepolled = false
  arr : ∀ i < S, (h.entry i).arr = i
  bell : ∀ f : Flight, f.h = h → ∀ i < S, f.no i = f.full i

variable {c : OrkNpu} {g : Grant R} {S : Nat} {ts : Nat → QTask R} {h : DynChain} {nc : Int}

theorem bell_of_mcNc (hmc : 0 < h.mcNc) (f : Flight) (hf : f.h = h) (i : Nat) : f.no i = f.full i := by
  have hm : f.mc = true := by
    subst hf
    exact decide_eq_true hmc
  rw [Flight.full, if_pos hm]

theorem QTask.width_asWide {t : QTask R} {d : DynTask R} (hw : t.isWide = true) : (t.asWide d).w.N = t.width := by
  cases t with
  | wide t => rfl
  | i4 t => exact absurd hw Bool.false_ne_true

/-- The doorbells of `ork_dyn_begin` lie at the width of the first task. -/
theorem beginOne_tasked (hb : beginOne c g S ts = some h) (hw : ∀ i < S, (ts i).width = (ts 0).width) : Tasked h S := by
  unfold beginOne at hb
  split at hb
  · next t0 h0 =>
      split at hb
      · next hall =>
          unfold orkDynBegin at hb
          split at hb
          · cases hb
          · cases hb
            refine ⟨rfl, rfl, fun _ _ => rfl, fun f hf i hi => ?_⟩
            have hpos : 0 < S := Nat.lt_of_le_of_lt (Nat.zero_le i) hi
            have hwidth : ((ts 0).asWide t0).w.N = ((ts i).asWide t0).w.N := by
              rw [QTask.width_asWide (hall.1 0 hpos), QTask.width_asWide (hall.1 i hi), hw i hi]
            have hone : f.mc = false := by
              unfold Flight.mc
              rw [hf]
              rfl
            rw [Flight.full, hone, if_neg Bool.false_ne_true, Flight.no, hf]
            simp only [dynEntry, Emit.output, orkiI8Synth, List.map_cons, List.map_nil, List.sum_cons, List.sum_nil,
              if_true, one_mul, add_zero]
            exact hwidth
      · cases hb
  · cases hb

theorem mcCores_pos (hnc : 1 < nc) (hle : nc ≤ c.soc.cores) : 0 < mcCores c nc := by
  unfold mcCores
  split <;> omega

theorem cores_pos {S n : Nat} (hS : 1 ≤ S) (hn : 0 < n) : 0 < if S < n then S else n := by
  split <;> omega

theorem orkI4DynBeginMc_tasked {granted fits : Bool} {tasks : Nat → Task4} (hnc : 1 < nc) (hle : nc ≤ c.soc.cores)
    (hb : orkI4DynBeginMc c granted fits S tasks nc = some h) : Tasked h S := by
  unfold orkI4DynBeginMc at hb
  split at hb
  · cases hb
  · next hS =>
      dsimp only at hb
      split at hb
      · cases hb
        exact ⟨rfl, rfl, fun _ _ => rfl, fun f hf i _ =>
          bell_of_mcNc (cores_pos (by omega) (mcCores_pos hnc hle)) f hf i⟩
      · cases hb

/-- A lone task that the column split takes over keeps one op only on one core. -/
theorem orkiDynBeginMcImpl_tasked {v : ColsplitEnv R} {tasks : Nat → DynTask R} (hnc : 1 < nc) (hle : nc ≤ c.soc.cores)
    (hlone : S = 1 → routesToColsplit (tasks 0).w = true → v.cores c ((tasks 0).w.N / 32) (mcCores c nc) = 1)
    (hb : orkiDynBeginMcImpl c v S tasks nc = some h) : Tasked h S := by
  unfold orkiDynBeginMcImpl at hb
  split at hb
  · cases hb
  · next hS =>
      dsimp only at hb
      split at hb
      · next hroute =>
          obtain ⟨p, hp, rfl⟩ := Option.map_eq_some_iff.mp hb
          have hone := hlone hroute.1 hroute.2.2
          have hpnc : p.nc = 1 := by
            unfold orkDynBeginColsplit at hp
            dsimp only at hp
            split at hp
            · cases hp
              exact hone
            · cases hp
          have hpos : 0 < p.nc := hpnc.symm ▸ Nat.one_pos
          refine ⟨hpnc.trans hroute.1.symm, ?_, fun i hi => ?_, fun f hf i _ => bell_of_mcNc hpos f hf i⟩
          · unfold Colsplit.chain
            rw [hpnc]
            rfl
          · have : i = 0 := by omega
            exact this.symm
      · have hn : 0 < if S < mcCores c nc then S else mcCores c nc := cores_pos (by omega) (mcCores_pos hnc hle)
        generalize (if S < mcCores c nc then S else mcCores c nc) = n at hb hn
        split at hb
        · cases hb
          exact ⟨rfl, rfl, fun _ _ => rfl, fun f hf i _ => bell_of_mcNc hn f hf i⟩
        · cases hb

/-- One condition for all tasks that `ork_dyn_begin_mc` takes. -/
theorem orkDynBeginMc_tasked (hnc : 1 < nc) (hle : nc ≤ c.soc.cores)
    (hlone : ∀ t, S = 1 → ts 0 = .wide t → routesToColsplit t.w = true → g.v.cores c (t.w.N / 32) (mcCores c nc) = 1)
    (hb : orkDynBeginMc c g S ts nc = some h) : Tasked h S := by
  unfold orkDynBeginMc at hb
  split at hb
  · next t0 h0 =>
      split at hb
      · refine orkiDynBeginMcImpl_tasked hnc hle (fun hS hroute => ?_) hb
        rw [h0] at hroute ⊢
        exact hlone t0 hS h0 hroute
      · cases hb
  · split at hb
    · exact orkI4DynBeginMc_tasked hnc hle hb
    · cases hb

/-! ### The chain in flight -/

namespace Flight

variable {f : Flight}

/-- Every task of the chunk has its op, and no link before the last program is cut that the sequencer still needs. -/
structure Good (f : Flight) : Prop where
  tasked : Tasked f.h f.cnt
  words_le : ∀ i < f.cnt, f.words i ≤ f.full i
  links : f.mc = false → ∀ p, f.live p = false → p < f.pc ∨ f.h.S ≤ p + 1

theorem good_start {base cnt spinEnd : Nat} (ht : Tasked h cnt) (hspin : spinEnd = 0 ∨ h.S ≤ spinEnd) :
    (start h base cnt spinEnd).Good := by
  refine ⟨ht, fun i _ => Nat.zero_le _, fun _ p hp => Or.inr ?_⟩
  have hlim := of_decide_eq_false hp
  change h.S ≤ p + 1
  split at hlim <;> omega

/-- A step of the device: nothing, the link from a program to the next, words within an output, or a new round. -/
theorem advance_cases (m : Progress) :
    f.advance m = f ∨ f.advance m = { f with pc := f.pc + 1 } ∨
      (∃ i k, k ≤ f.full i ∧ f.advance m = { f with words := Function.update f.words i k }) ∨
      f.advance m = { f with words := fun _ => 0 } := by
  cases m with
  | next =>
      by_cases hl : f.live f.pc = true
      · exact Or.inr (Or.inl (if_pos hl))
      · exact Or.inl (if_neg hl)
  | land i k =>
      by_cases hk : i < f.h.S ∧ (f.mc = true ∨ i ≤ f.pc) ∧ f.words i ≤ k ∧ k ≤ f.full i
      · exact Or.inr (Or.inr (Or.inl ⟨i, k, hk.2.2.2, if_pos hk⟩))
      · exact Or.inl (if_neg hk)
  | recover =>
      by_cases hmc : f.mc = true
      · exact Or.inr (Or.inr (Or.inr (if_pos hmc)))
      · exact Or.inl (if_neg hmc)

theorem advance_h (m : Progress) : (f.advance m).h = f.h ∧ (f.advance m).cnt = f.cnt ∧ (f.advance m).base = f.base := by
  rcases f.advance_cases m with he | he | ⟨i, k, -, he⟩ | he <;>
  · rw [he]
    exact ⟨rfl, rfl, rfl⟩

theorem Good.advance (hf : f.Good) (m : Progress) : (f.advance m).Good := by
  rcases f.advance_cases m with he | he | ⟨i, k, hk, he⟩ | he
  · rwa [he]
  · rw [he]
    refine ⟨hf.tasked, hf.words_le, fun hmc p hp => ?_⟩
    rcases hf.links hmc p hp with hlt | hle
    · exact Or.inl (Nat.lt_succ_of_lt hlt)
    · exact Or.inr hle
  · rw [he]
    refine ⟨hf.tasked, fun j hj => ?_, hf.links⟩
    change Function.update f.words i k j ≤ f.full j
    rcases eq_or_ne j i with rfl | hne
    · rw [Function.update_self]
      exact hk
    · rw [Function.update_of_ne hne]
      exact hf.words_le j hj
  · rw [he]
    exact ⟨hf.tasked, fun _ _ => Nat.zero_le _, hf.links⟩

theorem Good.advances (hf : f.Good) (ms : List Progress) : (f.advances ms).Good := by
  unfold Flight.advances
  induction ms generalizing f with
  | nil => exact hf
  | cons m ms ih => exact ih (hf.advance m)

theorem advances_h (ms : List Progress) :
    (f.advances ms).h = f.h ∧ (f.advances ms).cnt = f.cnt ∧ (f.advances ms).base = f.base := by
  unfold Flight.advances
  induction ms generalizing f with
  | nil => exact ⟨rfl, rfl, rfl⟩
  | cons m ms ih =>
      obtain ⟨h1, h2, h3⟩ := advance_h (f := f) m
      obtain ⟨i1, i2, i3⟩ := ih (f := f.advance m)
      exact ⟨i1.trans h1, i2.trans h2, i3.trans h3⟩

theorem advances_append (ms ms' : List Progress) : f.advances (ms ++ ms') = (f.advances ms).advances ms' :=
  List.foldl_append

theorem Good.teardown (hf : f.Good) : f.teardown.Good := by
  refine ⟨hf.tasked, hf.words_le, fun hmc p hp => ?_⟩
  rcases Bool.and_eq_false_iff.mp hp with hl | hd
  · exact hf.links hmc p hl
  · have := of_decide_eq_false hd
    exact Or.inr (show f.h.S ≤ p + 1 by omega)

/-- A halt behind the last task, or behind the sequencer. -/
theorem Good.halt (hf : f.Good) {p : Int} {f' : Flight} (hh : f.orkDynHalt p = some f')
    (hp : (f.h.S : Int) ≤ p + 1 ∨ p < f.pc) : f'.Good := by
  unfold orkDynHalt at hh
  split at hh
  · cases hh
  · cases hh
    refine ⟨hf.tasked, hf.words_le, fun hmc j hj => ?_⟩
    rcases eq_or_ne j p.toNat with rfl | hne
    · change p.toNat < f.pc ∨ f.h.S ≤ p.toNat + 1
      omega
    · refine hf.links hmc j ?_
      have : Function.update f.live p.toNat false j = false := hj
      rwa [Function.update_of_ne hne] at this

/-! ### Every task can run -/

/-- The links lead the sequencer to the last program. -/
theorem Good.reach (hf : f.Good) (hmc : f.mc = false) : ∃ ms, f.h.S ≤ (f.advances ms).pc + 1 := by
  induction hn : f.h.S - f.pc generalizing f with
  | zero => exact ⟨[], show f.h.S ≤ f.pc + 1 by omega⟩
  | succ n ih =>
      cases hl : f.live f.pc with
      | false =>
          rcases hf.links hmc f.pc hl with hlt | hle
          · exact absurd hlt (Nat.lt_irrefl _)
          · exact ⟨[], hle⟩
      | true =>
          have hnext : f.advance .next = { f with pc := f.pc + 1 } := if_pos hl
          have hg := hf.advance .next
          rw [hnext] at hg
          obtain ⟨ms, hms⟩ := ih hg hmc (show f.h.S - (f.pc + 1) = n by omega)
          refine ⟨.next :: ms, ?_⟩
          change f.h.S ≤ ((f.advance .next).advances ms).pc + 1
          rw [hnext]
          exact hms

/-- From there on all outputs can land. -/
theorem Good.fill (hf : f.Good) (hpc : f.mc = true ∨ f.h.S ≤ f.pc + 1) {k : Nat} (hk : k ≤ f.cnt) :
    ∃ ms, (f.advances ms).pc = f.pc ∧ ∀ i < k, f.full i ≤ (f.advances ms).words i := by
  induction k with
  | zero => exact ⟨[], rfl, fun i hi => absurd hi (Nat.not_lt_zero i)⟩
  | succ k ih =>
      obtain ⟨ms, hms, hfull⟩ := ih (Nat.le_of_succ_le hk)
      have hg := hf.advances ms
      obtain ⟨hh, hcnt, -⟩ := advances_h (f := f) ms
      have hS := hf.tasked.S_eq
      have hmc : (f.advances ms).mc = f.mc := by
        unfold Flight.mc
        rw [hh]
      have hfe : ∀ i, (f.advances ms).full i = f.full i := fun i => by
        unfold Flight.full Flight.no
        rw [hmc, hh]
      have hle := hg.words_le k (hcnt ▸ hk)
      have hland : (f.advances ms).advance (.land k (f.full k)) =
          { f.advances ms with words := Function.update (f.advances ms).words k (f.full k) } := by
        refine if_pos ⟨?_, ?_, hfe k ▸ hle, (hfe k).ge⟩
        · rw [hh]
          omega
        · rw [hmc, hms]
          rcases hpc with hmc' | hpc
          · exact Or.inl hmc'
          · exact Or.inr (by omega)
      refine ⟨ms ++ [.land k (f.full k)], ?_, fun i hi => ?_⟩
      · rw [advances_append]
        change ((f.advances ms).advance (.land k (f.full k))).pc = f.pc
        rw [hland]
        exact hms
      · rw [advances_append]
        change f.full i ≤ ((f.advances ms).advance (.land k (f.full k))).words i
        rw [hland]
        change f.full i ≤ Function.update (f.advances ms).words k (f.full k) i
        rcases eq_or_ne i k with rfl | hne
        · rw [Function.update_self]
        · rw [Function.update_of_ne hne]
          exact hfull i (by omega)

theorem Good.complete_iff (hf : f.Good) {t : Nat} (ht : t < f.cnt) : f.complete t = true ↔ f.full t ≤ f.words t := by
  have hS := hf.tasked.S_eq
  unfold Flight.complete
  simp only [List.all_eq_true, List.mem_range, decide_eq_true_eq]
  constructor
  · intro hall
    rcases hall t (hS ▸ ht) with hne | hle
    · exact absurd (hf.tasked.arr t ht) hne
    · exact hle
  · intro hle i hi
    rw [hf.tasked.arr i (hS ▸ hi)]
    rcases eq_or_ne i t with rfl | hne
    · exact Or.inr hle
    · exact Or.inl hne

/-- The device alone can bring the whole chunk to its end. -/
theorem Good.runs (hf : f.Good) : ∃ ms, ∀ t < f.cnt, (f.advances ms).complete t = true := by
  have hreach : ∃ ms, (f.advances ms).mc = true ∨ (f.advances ms).h.S ≤ (f.advances ms).pc + 1 := by
    cases hmc : f.mc with
    | true => exact ⟨[], Or.inl hmc⟩
    | false =>
        obtain ⟨ms, hms⟩ := hf.reach hmc
        exact ⟨ms, Or.inr ((advances_h ms).1.symm ▸ hms)⟩
  obtain ⟨ms, hms⟩ := hreach
  obtain ⟨hh, hcnt, -⟩ := advances_h (f := f) ms
  obtain ⟨ms', -, hfull⟩ := (hf.advances ms).fill hms le_rfl
  refine ⟨ms ++ ms', fun t ht => ?_⟩
  rw [advances_append]
  have hg := (hf.advances ms).advances ms'
  obtain ⟨hh', hcnt', -⟩ := advances_h (f := f.advances ms) ms'
  refine (hg.complete_iff (by rw [hcnt', hcnt]; exact ht)).mpr ?_
  have hfe : ((f.advances ms).advances ms').full t = (f.advances ms).full t := by
    unfold Flight.full Flight.no Flight.mc
    rw [hh']
  rw [hfe]
  exact hfull t (hcnt.symm ▸ ht)

/-- Behind a cut link that the sequencer has not passed nothing lands. -/
theorem advances_cut {p i : Nat} (hmc : f.mc = false) (hl : f.live p = false) (hpc : f.pc ≤ p) (hi : p < i)
    (hw : f.words i = 0) (ms : List Progress) : (f.advances ms).words i = 0 := by
  induction ms generalizing f with
  | nil => exact hw
  | cons m ms ih =>
      change ((f.advance m).advances ms).words i = 0
      cases m with
      | next =>
          by_cases hgo : f.live f.pc = true
          · rw [show f.advance .next = { f with pc := f.pc + 1 } from if_pos hgo]
            have hne : f.pc ≠ p := fun h => Bool.false_ne_true (hl.symm.trans (h ▸ hgo))
            exact ih hmc hl (Nat.lt_of_le_of_ne hpc hne) hw
          · rw [show f.advance .next = f from if_neg hgo]
            exact ih hmc hl hpc hw
      | land j k =>
          by_cases hk : j < f.h.S ∧ (f.mc = true ∨ j ≤ f.pc) ∧ f.words j ≤ k ∧ k ≤ f.full j
          · rw [show f.advance (.land j k) = { f with words := Function.update f.words j k } from if_pos hk]
            have hj : j ≤ f.pc := hk.2.1.resolve_left fun h => Bool.false_ne_true (hmc.symm.trans h)
            refine ih hmc hl hpc ?_
            exact (Function.update_of_ne (by omega) _ _).trans hw
          · rw [show f.advance (.land j k) = f from if_neg hk]
            exact ih hmc hl hpc hw
      | recover =>
          rw [show f.advance .recover = f from if_neg (by rw [hmc]; exact Bool.false_ne_true)]
          exact ih hmc hl hpc hw

/-! ### What `ork_dyn_end` counts -/

theorem frontierFrom_spec (n i : Nat) :
    (i ≤ f.frontierFrom n i ∧ f.frontierFrom n i ≤ i + n) ∧ (∀ j, i ≤ j → j < f.frontierFrom n i → f.done j = true) ∧
      (f.frontierFrom n i < i + n → f.done (f.frontierFrom n i) = false) := by
  induction n generalizing i with
  | zero => exact ⟨⟨le_rfl, le_rfl⟩, fun j hj hlt => absurd hlt (Nat.not_lt.mpr hj), fun h => absurd h (Nat.lt_irrefl _)⟩
  | succ n ih =>
      unfold frontierFrom
      split
      · next hd =>
          obtain ⟨⟨hle, hub⟩, hall, hstop⟩ := ih (i + 1)
          refine ⟨⟨Nat.le_of_succ_le hle, by omega⟩, fun j hj hlt => ?_, fun hlt => hstop (by omega)⟩
          rcases Nat.eq_or_lt_of_le hj with rfl | hj
          · exact hd
          · exact hall j hj hlt
      · next hd =>
          exact ⟨⟨le_rfl, Nat.le_add_right _ _⟩, fun j hj hlt => absurd hlt (Nat.not_lt.mpr hj),
            fun _ => Bool.eq_false_iff.mpr hd⟩

theorem Good.done_iff (hf : f.Good) {t : Nat} (ht : t < f.cnt) : f.done t = f.complete t := by
  have hbell := hf.tasked.bell f rfl t ht
  rw [Bool.eq_iff_iff, hf.complete_iff ht, ← hbell]
  exact decide_eq_true_iff

/-- `d + 1` tasks, and all of them exactly if all are complete. -/
theorem Good.orkDynEnd_spec (hf : f.Good) :
    ∃ r : Nat, f.orkDynEnd + 1 = r ∧ r ≤ f.cnt ∧ (r = f.cnt ↔ ∀ t < f.cnt, f.complete t = true) := by
  obtain ⟨⟨-, hub⟩, hall, hstop⟩ := frontierFrom_spec (f := f) f.h.S 0
  have hS := hf.tasked.S_eq
  rw [Nat.zero_add] at hub
  refine ⟨f.frontierFrom f.h.S 0, ?_, hS ▸ hub, ?_, fun hc => ?_⟩
  · rw [orkDynEnd, hf.tasked.polled, if_neg Bool.false_ne_true, orkDynProgress]
    omega
  · intro hr t ht
    rw [← hf.done_iff ht]
    exact hall t (Nat.zero_le t) (hr.symm ▸ ht)
  · by_contra hne
    have hlt : f.frontierFrom f.h.S 0 < f.cnt := by omega
    have hno := hstop (by omega)
    rw [hf.done_iff hlt, hc _ hlt] at hno
    exact absurd hno (by decide)

end Flight

end OrkDriver.Queue
