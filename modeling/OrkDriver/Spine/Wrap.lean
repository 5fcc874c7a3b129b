import Mathlib.Algebra.Ring.Nat
import Mathlib.Data.List.Range
import OrkDriver.Lib.Transition

/-!
One execution unit of `ork_spine.h` with its counters as the `int`s they are: what `ork_spine_unit_poll` can tell of a job
whose generation the counter has left behind.
-/

namespace OrkDriver.Spine

open Transition

/-- Where the worker thread is: before the test of its loop, inside the call of a job, or gone. A job is named by the
number of its dispatch. -/
inductive Thread
  | waiting
  | running (job : Nat) (g : BitVec 32)
  | exited
  deriving DecidableEq

/-- `ork_spine_unit`, less the scheduler's bookkeeping; `job` stands for `fn` and `arg`. -/
structure IntUnit where
  gen : BitVec 32
  doneGen : BitVec 32
  stop : Bool
  job : Nat
  thread : Thread
  deriving DecidableEq

namespace IntUnit

/-- `ork_spine_unit_start`. -/
def orkSpineUnitStart : IntUnit := ⟨0, 0, false, 0, .waiting⟩

/-- `ork_spine_unit_dispatch`; the generation handed back is the one left in the unit. -/
def orkSpineUnitDispatch (u : IntUnit) (job : Nat) : IntUnit := { u with job := job, gen := u.gen + 1 }

/-- `u->done_gen >= gen`, between `int`s. -/
def orkSpineUnitPoll (u : IntUnit) (gen : BitVec 32) : Bool := gen.sle u.doneGen

def orkSpineUnitStop (u : IntUnit) : IntUnit := { u with stop := true }

/-- The turn of `ork__spine_unit_loop` up to the call. -/
def take (u : IntUnit) : IntUnit :=
  if u.stop then { u with thread := .exited } else { u with thread := .running u.job u.gen }

/-- The turn after the call of a job taken at generation `g`. -/
def finish (u : IntUnit) (g : BitVec 32) : IntUnit := { u with doneGen := g, thread := .waiting }

/-- The worker has taken the job dispatched last. -/
def Taken (u : IntUnit) : Prop := u.gen = u.doneGen ∨ ∃ job, u.thread = .running job u.gen

end IntUnit

/-- A run of one unit: the generation each dispatch handed back, in order, and the jobs that have finished. -/
structure UnitRun where
  unit : IntUnit
  handed : List (BitVec 32)
  finished : List Nat

inductive UnitEvent
  | dispatch
  | take
  | finish
  | stop

inductive UnitStep : UnitRun → UnitEvent → UnitRun → Prop
  | dispatch (s : UnitRun) : UnitStep s .dispatch
      { s with unit := s.unit.orkSpineUnitDispatch s.handed.length, handed := s.handed ++ [s.unit.gen + 1] }
  | take (s : UnitRun) : s.unit.thread = .waiting → (s.unit.gen ≠ s.unit.doneGen ∨ s.unit.stop = true) →
      UnitStep s .take { s with unit := s.unit.take }
  | finish (s : UnitRun) (job : Nat) (g : BitVec 32) : s.unit.thread = .running job g →
      UnitStep s .finish { s with unit := s.unit.finish g, finished := s.finished ++ [job] }
  | stop (s : UnitRun) : UnitStep s .stop { s with unit := s.unit.orkSpineUnitStop }

def unitSystem : System UnitRun UnitEvent where
  init s := s = ⟨.orkSpineUnitStart, [], []⟩
  step := UnitStep

/-- Polling tells exactly whether a job has finished. -/
def PollExact (s : UnitRun) : Prop :=
  ∀ j g, s.handed[j]? = some g → (s.unit.orkSpineUnitPoll g = true ↔ j ∈ s.finished)

/-- A dispatch comes after the job before it has been taken, and among the first `2 ^ 31 - 1`. -/
def InTurn (s : UnitRun) : UnitEvent → Prop
  | .dispatch => s.unit.Taken ∧ s.handed.length < 2 ^ 31 - 1
  | _ => True

/-! ### Counting -/

/-- The generation of the `n`th dispatch. -/
def genOf (n : Nat) : BitVec 32 := BitVec.ofNat 32 n

theorem genOf_succ (n : Nat) : genOf n + 1 = genOf (n + 1) := (BitVec.ofNat_add n 1).symm

theorem toInt_genOf {n : Nat} (h : n < 2 ^ 31) : (genOf n).toInt = n := by
  rw [genOf, BitVec.toInt_eq_toNat_of_lt] <;> simp <;> omega

theorem genOf_sle {m n : Nat} (hm : m < 2 ^ 31) (hn : n < 2 ^ 31) : (genOf m).sle (genOf n) = decide (m ≤ n) := by
  simp [BitVec.sle, toInt_genOf hm, toInt_genOf hn]

theorem genOf_inj {m n : Nat} (hm : m < 2 ^ 31) (hn : n < 2 ^ 31) : genOf m = genOf n ↔ m = n := by
  constructor
  · intro h
    have := toInt_genOf hm
    rw [h, toInt_genOf hn] at this
    exact_mod_cast this.symm
  · rintro rfl
    rfl

/-- The state after `n` dispatches and `d` returned calls: at most one job waits, and the worker is inside the call of
job `d`, if it is in one. -/
structure Counted (n d : Nat) (s : UnitRun) : Prop where
  bound : n < 2 ^ 31
  handed : s.handed = (List.range n).map fun j => genOf (j + 1)
  finished : s.finished = List.range d
  gen : s.unit.gen = genOf n
  doneGen : s.unit.doneGen = genOf d
  job : s.unit.job = n - 1
  idle : (∀ job g, s.unit.thread ≠ .running job g) → d ≤ n ∧ n ≤ d + 1
  busy : ∀ job g, s.unit.thread = .running job g → job = d ∧ g = genOf (d + 1) ∧ d < n ∧ n ≤ d + 2

theorem counted_start : Counted 0 0 ⟨.orkSpineUnitStart, [], []⟩ where
  bound := by decide
  handed := rfl
  finished := rfl
  gen := rfl
  doneGen := rfl
  job := rfl
  idle _ := ⟨le_refl 0, Nat.zero_le 1⟩
  busy _ _ h := nomatch h

namespace Counted

variable {n d : Nat} {s : UnitRun}

theorem le (h : Counted n d s) : d ≤ n := by
  by_cases hr : ∃ job g, s.unit.thread = .running job g
  · obtain ⟨job, g, hr⟩ := hr
    exact (h.busy job g hr).2.2.1.le
  · exact (h.idle fun job g hg => hr ⟨job, g, hg⟩).1

theorem dispatch (h : Counted n d s) (ht : s.unit.Taken) (hn : n + 1 < 2 ^ 31) : Counted (n + 1) d
    { s with unit := s.unit.orkSpineUnitDispatch s.handed.length, handed := s.handed ++ [s.unit.gen + 1] } where
  bound := hn
  handed := by rw [h.handed, h.gen, genOf_succ, List.range_succ, List.map_append, List.map_singleton]
  finished := h.finished
  gen := (congrArg (· + 1) h.gen).trans (genOf_succ n)
  doneGen := h.doneGen
  job := by simp [IntUnit.orkSpineUnitDispatch, h.handed]
  idle hi := by
    have hd := h.idle hi
    rcases ht with heq | ⟨job, hr⟩
    · rw [h.gen, h.doneGen, genOf_inj h.bound (by omega)] at heq
      omega
    · exact absurd hr (hi job _)
  busy job g hr := by
    obtain ⟨rfl, rfl, hlt, hle⟩ := h.busy job g hr
    refine ⟨rfl, rfl, by omega, ?_⟩
    rcases ht with heq | ⟨job', hr'⟩
    · rw [h.gen, h.doneGen, genOf_inj h.bound (by omega)] at heq
      omega
    · have hg := (h.busy _ _ hr').2.1
      rw [h.gen, genOf_inj h.bound (by omega)] at hg
      omega

theorem take (h : Counted n d s) (hw : s.unit.thread = .waiting) (hg : s.unit.gen ≠ s.unit.doneGen ∨ s.unit.stop = true) :
    Counted n d { s with unit := s.unit.take } := by
  have hidle := h.idle fun job g hr => by simp [hw] at hr
  have hb := h.bound
  unfold IntUnit.take
  split_ifs with hs
  · exact { h with
      idle := fun _ => hidle
      busy := fun _ _ hr => nomatch hr }
  · have hne := hg.resolve_right (by simpa using hs)
    rw [h.gen, h.doneGen, ne_eq, genOf_inj h.bound (by omega)] at hne
    obtain rfl : n = d + 1 := by omega
    exact { h with
      idle := fun hi => absurd rfl (hi _ _)
      busy := fun job g hr => by
        cases hr
        exact ⟨h.job, h.gen, by omega, by omega⟩ }

theorem finish (h : Counted n d s) {job : Nat} {g : BitVec 32} (hr : s.unit.thread = .running job g) :
    Counted n (d + 1) { s with unit := s.unit.finish g, finished := s.finished ++ [job] } := by
  obtain ⟨rfl, rfl, hlt, hle⟩ := h.busy job g hr
  exact { h with
    finished := by rw [h.finished, List.range_succ]
    doneGen := rfl
    idle := fun _ => ⟨hlt, by omega⟩
    busy := fun _ _ hr => nomatch hr }

theorem stop (h : Counted n d s) : Counted n d { s with unit := s.unit.orkSpineUnitStop } := { h with }

/-- While the counter has not wrapped, the generations order the jobs. -/
theorem pollExact (h : Counted n d s) : PollExact s := by
  intro j g hj
  rw [h.handed, List.getElem?_map] at hj
  obtain ⟨i, hi, rfl⟩ := Option.map_eq_some_iff.mp hj
  obtain ⟨hlt, rfl⟩ := List.getElem?_eq_some_iff.mp hi
  rw [List.length_range] at hlt
  rw [List.getElem_range]
  have hb := h.bound
  have hle := h.le
  rw [IntUnit.orkSpineUnitPoll, h.doneGen, h.finished, List.mem_range, genOf_sle (by omega) (by omega), decide_eq_true_iff]
  exact Nat.succ_le_iff

end Counted

/-- One step of a run that keeps its turns. -/
theorem counted_step {n d : Nat} {s t : UnitRun} {e : UnitEvent} (h : Counted n d s) (he : InTurn s e)
    (hs : UnitStep s e t) : ∃ n d, Counted n d t := by
  cases hs with
  | dispatch =>
      have hlen : s.handed.length = n := by simp [h.handed]
      exact ⟨n + 1, d, h.dispatch he.1 (by have := he.2; omega)⟩
  | take hw hg => exact ⟨n, d, h.take hw hg⟩
  | finish job g hr => exact ⟨n, d + 1, h.finish hr⟩
  | stop => exact ⟨n, d, h.stop⟩

theorem counted_of_reachableOn {s : UnitRun} (h : unitSystem.ReachableOn InTurn s) : ∃ n d, Counted n d s := by
  refine System.ReachableOn.invariant (I := fun s => ∃ n d, Counted n d s) ?_ ?_ h
  · rintro s rfl
    exact ⟨0, 0, counted_start⟩
  · rintro s e t - ⟨n, d, hc⟩ he hs
    exact counted_step hc he hs

theorem reachableOn_step {P : UnitRun → UnitEvent → Prop} {s t : UnitRun} {e : UnitEvent} (h : unitSystem.ReachableOn P s)
    (he : P s e) (hs : UnitStep s e t) : unitSystem.ReachableOn P t := h.step he hs

/-- In every run whose dispatches keep their turns, polling is exact. -/
theorem orkSpineUnitPoll_exact {s : UnitRun} (h : unitSystem.ReachableOn InTurn s) : PollExact s := by
  obtain ⟨n, d, hc⟩ := counted_of_reachableOn h
  exact hc.pollExact

theorem orkSpineUnitPoll_exact_once :
    PollExact ⟨⟨1, 1, false, 0, .waiting⟩, [1], [0]⟩ ∧ (⟨1, 1, false, 0, .waiting⟩ : IntUnit).orkSpineUnitPoll 1 = true := by
  refine ⟨orkSpineUnitPoll_exact ?_, by decide⟩
  have hs : unitSystem.ReachableOn InTurn ⟨.orkSpineUnitStart, [], []⟩ := .init rfl
  have hd := reachableOn_step hs (e := .dispatch) ⟨.inl rfl, by decide⟩ (.dispatch _)
  have ht := reachableOn_step hd (e := .take) trivial (.take _ rfl (.inl (by decide)))
  exact reachableOn_step ht (e := .finish) trivial (.finish _ 0 1 rfl)

/-! ### Past the last generation -/

/-- After `n` jobs dispatched, run and finished one by one. -/
def oneByOne (n : Nat) : UnitRun where
  unit := ⟨genOf n, genOf n, false, n - 1, .waiting⟩
  handed := (List.range n).map fun j => genOf (j + 1)
  finished := List.range n

theorem oneByOne_reachable {n : Nat} (hn : n < 2 ^ 31) : unitSystem.Reachable (oneByOne n) := by
  induction n with
  | zero => exact .init rfl
  | succ n ih =>
      have hd := reachableOn_step (ih (by omega)) trivial (UnitStep.dispatch _)
      have ht := reachableOn_step hd trivial (UnitStep.take _ rfl (.inl (by
        simp [oneByOne, IntUnit.orkSpineUnitDispatch])))
      have hf := reachableOn_step ht trivial (UnitStep.finish _ _ _ rfl)
      refine Eq.subst (motive := unitSystem.Reachable) ?_ hf
      simp [oneByOne, IntUnit.finish, IntUnit.take, IntUnit.orkSpineUnitDispatch, List.range_succ]
      exact genOf_succ n

/-- The dispatch after `2 ^ 31 - 1` finished ones hands back the least `int`, and polling it tells at once that its job
has finished. -/
theorem orkSpineUnitPoll_wrapped : ∃ s, unitSystem.Reachable s ∧ s.handed[2147483647]? = some (BitVec.intMin 32) ∧
    s.unit.orkSpineUnitPoll (BitVec.intMin 32) = true ∧ 2147483647 ∉ s.finished := by
  have hr := oneByOne_reachable (n := 2147483647) (by decide)
  refine ⟨_, reachableOn_step hr trivial (UnitStep.dispatch _), ?_, ?_, ?_⟩
  · have hlen : (oneByOne 2147483647).handed.length = 2147483647 := by simp [oneByOne]
    rw [List.getElem?_append_right (by omega), hlen]
    rfl
  · simp [IntUnit.orkSpineUnitPoll, IntUnit.orkSpineUnitDispatch, oneByOne, BitVec.sle, genOf]
    decide
  · simp [oneByOne]

end OrkDriver.Spine
