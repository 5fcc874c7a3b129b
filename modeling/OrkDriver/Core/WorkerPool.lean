import Mathlib.Algebra.Order.BigOperators.Group.Finset
import Mathlib.Order.Interval.Finset.Nat
import OrkDriver.Lib.Transition

/-!
The threads behind `ork_parallel_for` (`npu/core/sched.c`): a caller that posts a job under the lock of the pool, and
helpers that wake up, take their ranges and report back, in any order and over any number of calls.
-/

namespace OrkDriver.Core

/-! ### The code -/

/-- `ORK_POOL_MAX`. -/
def orkPoolMax : Nat := 64

/-- `ork_pool_init`: the workers, the caller among them; `creates i` says whether thread `i` can be made. -/
def orkPoolInit (cores mult : Nat) (creates : Nat → Bool) : Nat :=
  let cores := if cores < 1 then 1 else cores
  let mult := if mult < 1 then 1 else mult
  let mult := if 8 < mult then 8 else mult
  let n := if orkPoolMax < cores * mult then orkPoolMax else cores * mult
  ((List.range' 1 (n - 1)).find? fun i => creates i = false).getD n

/-- What an `int` makes of a result. -/
def wrapInt (x : Int) : Int := (x + 2 ^ 31) % 2 ^ 32 - 2 ^ 31

/-- `nthr`. -/
def nthr (N : Nat) (n : Int) : Int :=
  let k := if n < N then n else N
  if k < 1 then 1 else k

def chunkOf (N : Nat) (n : Int) : Int := (wrapInt (wrapInt (n + nthr N n) - 1)).tdiv (nthr N n)

/-- `lo[t]` and `hi[t]`. -/
def rangeOf (n chunk : Int) (t : Nat) : Int × Int :=
  let a := wrapInt (t * chunk)
  let a := if n < a then n else a
  let b := wrapInt (a + chunk)
  (a, if n < b then n else b)

/-- A call of the function of a job. -/
structure RangeCall (φ : Type*) where
  fn : φ
  lo : Int
  hi : Int

/-- `if(fn && hi > lo) fn(lo, hi, ctx);` -/
def callsOf {φ : Type*} (fn : Option φ) (r : Int × Int) : List (RangeCall φ) :=
  match fn with
  | some f => if r.1 < r.2 then [⟨f, r.1, r.2⟩] else []
  | none => []

/-- Where a helper is: on its way to the lock, waiting for a job, at its range, or on its way to report. -/
inductive HelperPc (φ : Type*)
  | awake
  | asleep
  | working (fn : Option φ) (r : Int × Int)
  | finishing

structure Helper (φ : Type*) where
  pc : HelperPc φ
  seen : Nat

/-- Where the caller is: between calls, or inside one, about to run its own range, to look at `running`, or waiting. -/
inductive Inside
  | chunk
  | check
  | asleep
  deriving DecidableEq

inductive CallerPc (φ : Type*)
  | ready
  | inside (fn : φ) (n : Int) (pc : Inside)

/-- A call that has returned: its function and size, and the ranges the function was called on until then. -/
structure Returned (φ : Type*) where
  fn : φ
  n : Int
  calls : List (RangeCall φ)

/-- `orki_pool` and its threads. `calls i` are the ranges that worker `i` has done for the job at hand. -/
structure Pool (φ : Type*) where
  gen : Nat
  fn : Option φ
  range : Nat → Int × Int
  running : Int
  helper : Nat → Helper φ
  caller : CallerPc φ
  calls : Nat → List (RangeCall φ)
  returned : List (Returned φ)

/-- What happens next: a call, a step of the caller, a step of a helper, or a wakeup without a signal. -/
inductive PoolEvent (φ : Type*)
  | call (fn : φ) (n : Int)
  | caller
  | helper (i : Nat)
  | wakeCaller
  | wakeHelper (i : Nat)

section
variable {φ : Type*}

/-- The pool when it has been made. -/
def Pool.start : Pool φ :=
  { gen := 0, fn := none, range := fun _ => (0, 0), running := 0, helper := fun _ => { pc := .awake, seen := 0 },
    caller := .ready, calls := fun _ => [], returned := [] }

/-- `pthread_cond_broadcast(&go)`. -/
def Helper.wake (h : Helper φ) : Helper φ :=
  match h.pc with
  | .asleep => { h with pc := .awake }
  | _ => h

/-- `ork_parallel_for` up to `pthread_mutex_unlock(&mu)`, with `N` workers. -/
def Pool.post (N : Nat) (s : Pool φ) (fn : φ) (n : Int) : Pool φ :=
  if n ≤ 0 then { s with returned := s.returned ++ [⟨fn, n, []⟩] }
  else if n = 1 then { s with returned := s.returned ++ [⟨fn, n, [⟨fn, 0, 1⟩]⟩] }
  else if nthr N n ≤ 1 then { s with returned := s.returned ++ [⟨fn, n, [⟨fn, 0, n⟩]⟩] }
  else
    { s with
      fn := some fn
      range := fun t => if t < N then rangeOf n (chunkOf N n) t else s.range t
      running := N - 1
      gen := (s.gen + 1) % 2 ^ 32
      helper := fun i => (s.helper i).wake
      caller := .inside fn n .chunk }

/-- The rest of `ork_parallel_for`. -/
def Pool.callerStep (N : Nat) (s : Pool φ) : Option (Pool φ) :=
  match s.caller with
  | .ready => none
  | .inside fn n .chunk =>
    some { s with
      calls := Function.update s.calls 0 (s.calls 0 ++ callsOf (some fn) (s.range 0))
      caller := .inside fn n .check }
  | .inside fn n .check =>
    if 0 < s.running then some { s with caller := .inside fn n .asleep }
    else some { s with
      caller := .ready
      calls := fun _ => []
      returned := s.returned ++ [⟨fn, n, (List.range N).flatMap s.calls⟩] }
  | .inside _ _ .asleep => none

/-- `pthread_cond_signal(&done)`. -/
def CallerPc.wake (c : CallerPc φ) : CallerPc φ :=
  match c with
  | .inside fn n .asleep => .inside fn n .check
  | c => c

/-- `ork_pool_worker` between two waits for the lock. -/
def Pool.helperStep (s : Pool φ) (i : Nat) : Option (Pool φ) :=
  let h := s.helper i
  match h.pc with
  | .awake =>
    if s.gen = h.seen then some { s with helper := Function.update s.helper i { h with pc := .asleep } }
    else some { s with helper := Function.update s.helper i { pc := .working s.fn (s.range i), seen := s.gen } }
  | .asleep => none
  | .working fn r =>
    some { s with
      helper := Function.update s.helper i { h with pc := .finishing }
      calls := Function.update s.calls i (s.calls i ++ callsOf fn r) }
  | .finishing =>
    some { s with
      helper := Function.update s.helper i { h with pc := .awake }
      running := s.running - 1
      caller := if s.running - 1 = 0 then s.caller.wake else s.caller }

/-- A pool of `N` workers. Calls follow one another: `dispatch` is held from one end of a call to the other. -/
def Pool.step (N : Nat) (s : Pool φ) : PoolEvent φ → Option (Pool φ)
  | .call fn n =>
    match s.caller with
    | .ready => if -2 ^ 31 ≤ n ∧ n < 2 ^ 31 then some (s.post N fn n) else none
    | .inside .. => none
  | .caller => s.callerStep N
  | .helper i => if 1 ≤ i ∧ i < N then s.helperStep i else none
  | .wakeCaller => some { s with caller := s.caller.wake }
  | .wakeHelper i => some { s with helper := Function.update s.helper i (s.helper i).wake }

/-- The runs of a pool. -/
def poolSystem (φ : Type*) (N : Nat) : Transition.System (Pool φ) (PoolEvent φ) where
  init s := s = Pool.start
  step s e t := s.step N e = some t

/-! ### What a run keeps -/

/-- The helper has not yet reported for the job of generation `gen`. -/
def Helper.busy (gen : Nat) (h : Helper φ) : Bool :=
  match h.pc with
  | .awake | .asleep => h.seen != gen
  | .working .. | .finishing => true

/-- What worker `t` is called on for a job. -/
def jobCalls (N : Nat) (fn : φ) (n : Int) (t : Nat) : List (RangeCall φ) := callsOf (some fn) (rangeOf n (chunkOf N n) t)

/-- A helper in the middle of a job. -/
inductive InJob (N : Nat) (fn : φ) (n : Int) (gen i : Nat) (calls : List (RangeCall φ)) (h : Helper φ) : Prop
  | fresh : h.pc = .awake → h.seen ≠ gen → calls = [] → InJob N fn n gen i calls h
  | working : h.pc = .working (some fn) (rangeOf n (chunkOf N n) i) → h.seen = gen → calls = [] → InJob N fn n gen i calls h
  | finishing : h.pc = .finishing → h.seen = gen → calls = jobCalls N fn n i → InJob N fn n gen i calls h
  | done : h.pc = .awake ∨ h.pc = .asleep → h.seen = gen → calls = jobCalls N fn n i → InJob N fn n gen i calls h

def busyHelpers (N : Nat) (s : Pool φ) : Finset Nat := (Finset.Ico 1 N).filter fun i => (s.helper i).busy s.gen

/-- The ranges of a whole call. -/
def allCalls (N : Nat) (fn : φ) (n : Int) : List (RangeCall φ) :=
  if n ≤ 0 then []
  else if n = 1 then [⟨fn, 0, 1⟩]
  else if nthr N n ≤ 1 then [⟨fn, 0, n⟩]
  else (List.range N).flatMap (jobCalls N fn n)

/-- A pool between calls. -/
structure Resting (N : Nat) (s : Pool φ) : Prop where
  calls : ∀ i < N, s.calls i = []
  helper : ∀ i, 1 ≤ i → i < N → ((s.helper i).pc = .awake ∨ (s.helper i).pc = .asleep) ∧ (s.helper i).seen = s.gen

/-- A pool inside a call. -/
structure Posted (N : Nat) (fn : φ) (n : Int) (pc : Inside) (s : Pool φ) : Prop where
  many : 1 < n ∧ 1 < nthr N n
  isInt : -2 ^ 31 ≤ n ∧ n < 2 ^ 31
  job : s.fn = some fn
  range : ∀ t < N, s.range t = rangeOf n (chunkOf N n) t
  running : s.running = (busyHelpers N s).card
  own : s.calls 0 = if pc = .chunk then [] else jobCalls N fn n 0
  helper : ∀ i, 1 ≤ i → i < N → InJob N fn n s.gen i (s.calls i) (s.helper i)
  asleep : pc = .asleep → 0 < s.running

structure Pool.Ok (N : Nat) (s : Pool φ) : Prop where
  gen_lt : s.gen < 2 ^ 32
  returned : ∀ d ∈ s.returned, d.calls = allCalls N d.fn d.n ∧ -2 ^ 31 ≤ d.n ∧ d.n < 2 ^ 31
  resting : s.caller = .ready → Resting N s
  posted : ∀ fn n pc, s.caller = .inside fn n pc → Posted N fn n pc s

/-! ### Helpers -/

theorem Helper.busy_wake (gen : Nat) (h : Helper φ) : h.wake.busy gen = h.busy gen := by
  obtain ⟨pc, seen⟩ := h
  cases pc <;> rfl

theorem Helper.wake_seen (h : Helper φ) : h.wake.seen = h.seen := by
  obtain ⟨pc, seen⟩ := h
  cases pc <;> rfl

theorem Helper.wake_idle {h : Helper φ} (hpc : h.pc = .awake ∨ h.pc = .asleep) : h.wake.pc = .awake := by
  obtain ⟨pc, seen⟩ := h
  rcases hpc with hpc | hpc
  · dsimp only at hpc
    rw [hpc]
    rfl
  · dsimp only at hpc
    rw [hpc]
    rfl

theorem Helper.not_busy {gen : Nat} {h : Helper φ} (hpc : h.pc = .awake ∨ h.pc = .asleep) (hs : h.seen = gen) :
    h.busy gen = false := by
  unfold Helper.busy
  rcases hpc with hpc | hpc <;> simp [hpc, hs]

theorem InJob.busy_or_done {N : Nat} {fn : φ} {n : Int} {gen i : Nat} {calls : List (RangeCall φ)} {h : Helper φ}
    (hj : InJob N fn n gen i calls h) :
    h.busy gen = true ∨ (h.pc = .awake ∨ h.pc = .asleep) ∧ h.seen = gen ∧ calls = jobCalls N fn n i := by
  cases hj with
  | fresh hpc hs _ => exact .inl (by unfold Helper.busy; rw [hpc]; exact bne_iff_ne.mpr hs)
  | working hpc _ _ => exact .inl (by unfold Helper.busy; rw [hpc])
  | finishing hpc _ _ => exact .inl (by unfold Helper.busy; rw [hpc])
  | done hpc hs hc => exact .inr ⟨hpc, hs, hc⟩

theorem InJob.wake {N : Nat} {fn : φ} {n : Int} {gen i : Nat} {calls : List (RangeCall φ)} {h : Helper φ}
    (hj : InJob N fn n gen i calls h) : InJob N fn n gen i calls h.wake := by
  obtain ⟨pc, seen⟩ := h
  cases pc with
  | asleep =>
    cases hj with
    | fresh hpc _ _ => cases hpc
    | working hpc _ _ => cases hpc
    | finishing hpc _ _ => cases hpc
    | done _ hs hc => exact .done (.inl rfl) hs hc
  | awake => exact hj
  | working fn r => exact hj
  | finishing => exact hj

/-- A helper changes without reporting. -/
theorem busyHelpers_congr {N : Nat} {s t : Pool φ}
    (h : ∀ i, 1 ≤ i → i < N → (t.helper i).busy t.gen = (s.helper i).busy s.gen) : busyHelpers N t = busyHelpers N s := by
  unfold busyHelpers
  refine Finset.filter_congr fun i hi => ?_
  obtain ⟨h1, h2⟩ := Finset.mem_Ico.mp hi
  rw [h i h1 h2]

/-- A helper reports. -/
theorem busyHelpers_report {N : Nat} {s t : Pool φ} {i : Nat} (hi : i ∈ busyHelpers N s) (hgen : t.gen = s.gen)
    (hi' : (t.helper i).busy t.gen = false) (hne : ∀ j, j ≠ i → t.helper j = s.helper j) :
    (busyHelpers N t).card + 1 = (busyHelpers N s).card := by
  have heq : busyHelpers N t = (busyHelpers N s).erase i := by
    ext j
    unfold busyHelpers
    rw [Finset.mem_erase, Finset.mem_filter, Finset.mem_filter]
    by_cases hj : j = i
    · subst hj
      rw [hi']
      exact ⟨fun h => absurd h.2 Bool.false_ne_true, fun h => absurd rfl h.1⟩
    · rw [hne j hj, hgen]
      exact ⟨fun h => ⟨hj, h⟩, fun h => h.2⟩
  rw [heq, Finset.card_erase_add_one hi]

theorem busyHelpers_all {N : Nat} {s : Pool φ} (h : ∀ i, 1 ≤ i → i < N → (s.helper i).busy s.gen = true) :
    (busyHelpers N s).card = N - 1 := by
  unfold busyHelpers
  rw [Finset.filter_true_of_mem fun i hi => h i (Finset.mem_Ico.mp hi).1 (Finset.mem_Ico.mp hi).2, Nat.card_Ico]

/-! ### Steps -/

theorem nthr_le (N : Nat) (n : Int) (h : 1 < nthr N n) : nthr N n ≤ N := by
  unfold nthr at h ⊢
  dsimp only at h ⊢
  split_ifs at h ⊢ <;> omega

theorem Pool.Ok.post {N : Nat} {s : Pool φ} (h : s.Ok N) (hr : s.caller = .ready) {n : Int}
    (hn : -2 ^ 31 ≤ n ∧ n < 2 ^ 31) (fn : φ) : (s.post N fn n).Ok N := by
  have hrest := h.resting hr
  have hreturn : ∀ {calls : List (RangeCall φ)}, calls = allCalls N fn n →
      Pool.Ok N { s with returned := s.returned ++ [⟨fn, n, calls⟩] } := by
    intro calls hc
    refine { gen_lt := h.gen_lt, returned := fun d hd => ?_, resting := fun _ => ⟨hrest.calls, hrest.helper⟩, posted := fun _ _ _ hp => ?_ }
    · rcases List.mem_append.mp hd with hd | hd
      · exact h.returned d hd
      · rw [List.mem_singleton.mp hd]
        exact ⟨hc, hn⟩
    · exact absurd (hr.symm.trans hp) nofun
  unfold Pool.post
  split_ifs with h0 h1 hone
  · exact hreturn (by rw [allCalls, if_pos h0])
  · exact hreturn (by rw [allCalls, if_neg h0, if_pos h1])
  · exact hreturn (by rw [allCalls, if_neg h0, if_neg h1, if_pos hone])
  · have hgen : (s.gen + 1) % 2 ^ 32 ≠ s.gen := by
      have := h.gen_lt
      omega
    refine { gen_lt := Nat.mod_lt _ (by decide), returned := h.returned, resting := nofun, posted := fun f m pc hp => ?_ }
    injection hp with hf hm hpc
    subst hf hm hpc
    have hfresh : ∀ i, 1 ≤ i → i < N → (s.helper i).wake.pc = .awake ∧ (s.helper i).wake.seen ≠ (s.gen + 1) % 2 ^ 32 := by
      intro i hi hiN
      obtain ⟨hpc, hs⟩ := hrest.helper i hi hiN
      exact ⟨Helper.wake_idle hpc, by rw [Helper.wake_seen, hs]; exact hgen.symm⟩
    have hthr := nthr_le N n (by omega)
    refine { many := ⟨by omega, by omega⟩, isInt := hn, job := rfl, range := fun t ht => if_pos ht, running := ?_, own := ?_,
             helper := fun i hi hiN => ?_, asleep := nofun }
    · rw [busyHelpers_all fun i hi hiN => ?_]
      · dsimp only
        omega
      · obtain ⟨hpc, hs⟩ := hfresh i hi hiN
        dsimp only
        unfold Helper.busy
        rw [hpc]
        exact bne_iff_ne.mpr hs
    · exact hrest.calls 0 (by omega)
    · obtain ⟨hpc, hs⟩ := hfresh i hi hiN
      exact .fresh hpc hs (hrest.calls i hiN)

theorem Pool.Ok.callerStep {N : Nat} {s t : Pool φ} (h : s.Ok N) (hs : s.callerStep N = some t) : t.Ok N := by
  unfold Pool.callerStep at hs
  split at hs
  · cases hs
  · next fn n hc =>
    have hp := h.posted fn n .chunk hc
    cases hs
    refine { gen_lt := h.gen_lt, returned := h.returned, resting := nofun, posted := fun f m pc he => ?_ }
    injection he with hf hm hpc
    subst hf hm hpc
    have h0N : 0 < N := by
      have := hp.many.2
      have := nthr_le N n this
      omega
    refine { hp with own := ?_, helper := fun i hi hiN => ?_, asleep := nofun }
    · dsimp only
      rw [Function.update_self, hp.own, hp.range 0 h0N]
      rfl
    · dsimp only
      rw [Function.update_of_ne (by omega)]
      exact hp.helper i hi hiN
  · next fn n hc =>
    have hp := h.posted fn n .check hc
    split_ifs at hs with hrun
    · cases hs
      refine { gen_lt := h.gen_lt, returned := h.returned, resting := nofun, posted := fun f m pc he => ?_ }
      injection he with hf hm hpc
      subst hf hm hpc
      exact { hp with own := hp.own, asleep := fun _ => hrun }
    · cases hs
      have hnone : ∀ i, 1 ≤ i → i < N → (s.helper i).busy s.gen = false := by
        intro i hi hiN
        have hcard : (busyHelpers N s).card = 0 := by
          have := hp.running
          omega
        have hmem : i ∉ busyHelpers N s := by
          rw [Finset.card_eq_zero.mp hcard]
          exact Finset.notMem_empty i
        unfold busyHelpers at hmem
        rw [Finset.mem_filter, not_and, Bool.not_eq_true] at hmem
        exact hmem (Finset.mem_Ico.mpr ⟨hi, hiN⟩)
      have hdone : ∀ i, 1 ≤ i → i < N →
          ((s.helper i).pc = .awake ∨ (s.helper i).pc = .asleep) ∧ (s.helper i).seen = s.gen ∧ s.calls i = jobCalls N fn n i :=
        fun i hi hiN => (hp.helper i hi hiN).busy_or_done.resolve_left (by rw [hnone i hi hiN]; exact Bool.false_ne_true)
      refine { gen_lt := h.gen_lt, returned := fun d hd => ?_, resting := fun _ => ⟨fun _ _ => rfl, fun i hi hiN => ?_⟩,
               posted := nofun }
      · rcases List.mem_append.mp hd with hd | hd
        · exact h.returned d hd
        · rw [List.mem_singleton.mp hd]
          refine ⟨?_, hp.isInt⟩
          have hmany := hp.many
          rw [allCalls, if_neg (by dsimp only; omega), if_neg (by dsimp only; omega), if_neg (by dsimp only; omega)]
          refine List.flatMap_congr fun i hi => ?_
          by_cases h0 : i = 0
          · rw [h0]
            exact hp.own
          · exact (hdone i (Nat.pos_of_ne_zero h0) (List.mem_range.mp hi)).2.2
      · exact ⟨(hdone i hi hiN).1, (hdone i hi hiN).2.1⟩
  · cases hs

/-- A helper between calls can only look at the generation and sleep again. -/
theorem Resting.helperStep {N : Nat} {s t : Pool φ} (h : Resting N s) {i : Nat} (hi : 1 ≤ i) (hiN : i < N)
    (hs : s.helperStep i = some t) :
    Resting N t ∧ t.gen = s.gen ∧ t.returned = s.returned ∧ t.caller = s.caller := by
  obtain ⟨hpc, hseen⟩ := h.helper i hi hiN
  unfold Pool.helperStep at hs
  dsimp only at hs
  rcases hpc with hpc | hpc
  · rw [hpc] at hs
    dsimp only at hs
    rw [if_pos hseen.symm] at hs
    cases hs
    refine ⟨⟨h.calls, fun j hj hjN => ?_⟩, rfl, rfl, rfl⟩
    dsimp only
    by_cases hji : j = i
    · subst hji
      rw [Function.update_self]
      exact ⟨.inr rfl, hseen⟩
    · rw [Function.update_of_ne hji]
      exact h.helper j hj hjN
  · rw [hpc] at hs
    cases hs

/-- A helper at work: its place in the job moves on, and the others stay. -/
theorem Posted.move {N : Nat} {fn : φ} {n : Int} {pc : Inside} {s t : Pool φ} (h : Posted N fn n pc s) {i : Nat}
    (hi : 1 ≤ i) {x : Helper φ} {calls : List (RangeCall φ)} (hhelper : t.helper = Function.update s.helper i x)
    (hcalls : t.calls = Function.update s.calls i calls) (hgen : t.gen = s.gen) (hfn : t.fn = s.fn) (hrange : t.range = s.range)
    (hrun : t.running = s.running) (hbusy : x.busy s.gen = (s.helper i).busy s.gen)
    (hx : InJob N fn n s.gen i calls x) : Posted N fn n pc t := by
  have hcard : busyHelpers N t = busyHelpers N s := by
    refine busyHelpers_congr fun j _ _ => ?_
    rw [hhelper, hgen]
    by_cases hj : j = i
    · subst hj
      rw [Function.update_self, hbusy]
    · rw [Function.update_of_ne hj]
  refine { many := h.many, isInt := h.isInt, job := hfn.trans h.job, range := fun k hk => ?_, running := ?_, own := ?_,
           helper := fun j hj hjN => ?_, asleep := fun hp => hrun ▸ h.asleep hp }
  · rw [hrange]
    exact h.range k hk
  · rw [hrun, hcard]
    exact h.running
  · rw [hcalls, Function.update_of_ne (by omega)]
    exact h.own
  · rw [hcalls, hhelper, hgen]
    by_cases hji : j = i
    · subst hji
      rw [Function.update_self, Function.update_self]
      exact hx
    · rw [Function.update_of_ne hji, Function.update_of_ne hji]
      exact h.helper j hj hjN

theorem Pool.Ok.of_posted {N : Nat} {s t : Pool φ} (h : s.Ok N) {fn : φ} {n : Int} {pc : Inside}
    (hgen : t.gen = s.gen) (hret : t.returned = s.returned) (hc : t.caller = .inside fn n pc) (hp : Posted N fn n pc t) :
    t.Ok N := by
  refine { gen_lt := hgen ▸ h.gen_lt, returned := hret ▸ h.returned, resting := fun hr => ?_, posted := fun f m q he => ?_ }
  · exact absurd (hr.symm.trans hc) nofun
  · injection hc.symm.trans he with hf hm hq
    subst hf hm hq
    exact hp

theorem CallerPc.wake_inside {fn : φ} {n : Int} {pc : Inside} :
    (CallerPc.inside fn n pc).wake = .inside fn n (if pc = .asleep then .check else pc) := by
  cases pc <;> rfl

/-- Where the caller is after the report of a helper that leaves `running` helpers. -/
def Inside.signalled (running : Int) (pc : Inside) : Inside := if running = 0 then if pc = .asleep then .check else pc else pc

theorem Inside.signalled_chunk_iff {running : Int} {pc : Inside} : pc.signalled running = .chunk ↔ pc = .chunk := by
  unfold Inside.signalled
  cases pc <;> split_ifs <;> simp_all

theorem Inside.of_signalled_asleep {running : Int} {pc : Inside} (h : pc.signalled running = .asleep) :
    pc = .asleep ∧ running ≠ 0 := by
  unfold Inside.signalled at h
  cases pc <;> split_ifs at h <;> simp_all

/-- A helper that has done its range reports it; the last one wakes the caller. -/
theorem Posted.report {N : Nat} {fn : φ} {n : Int} {pc : Inside} {s t : Pool φ} (h : Posted N fn n pc s) {i : Nat}
    (hi : 1 ≤ i) (hiN : i < N) (hpc : (s.helper i).pc = .finishing) (hseen : (s.helper i).seen = s.gen)
    (hcalls : s.calls i = jobCalls N fn n i)
    (hhelper : t.helper = Function.update s.helper i { s.helper i with pc := .awake }) (htcalls : t.calls = s.calls)
    (hgen : t.gen = s.gen) (hfn : t.fn = s.fn) (hrange : t.range = s.range) (hrun : t.running = s.running - 1) :
    Posted N fn n (pc.signalled (s.running - 1)) t := by
  have hbusy : i ∈ busyHelpers N s := by
    refine Finset.mem_filter.mpr ⟨Finset.mem_Ico.mpr ⟨hi, hiN⟩, ?_⟩
    unfold Helper.busy
    rw [hpc]
  have hidle : (t.helper i).busy t.gen = false := by
    rw [hhelper, hgen, Function.update_self]
    exact Helper.not_busy (.inl rfl) hseen
  have hcard := busyHelpers_report hbusy hgen hidle fun j hj => by rw [hhelper, Function.update_of_ne hj]
  have hrunning := h.running
  refine { many := h.many, isInt := h.isInt, job := hfn.trans h.job, range := hrange ▸ h.range, running := ?_, own := ?_,
           helper := fun j hj hjN => ?_, asleep := fun hp => ?_ }
  · omega
  · rw [htcalls, h.own]
    simp only [Inside.signalled_chunk_iff]
  · rw [hhelper, htcalls, hgen]
    by_cases hji : j = i
    · subst hji
      rw [Function.update_self]
      exact .done (.inl rfl) hseen hcalls
    · rw [Function.update_of_ne hji]
      exact h.helper j hj hjN
  · have := Inside.of_signalled_asleep hp
    omega

theorem Pool.Ok.helperStep {N : Nat} {s t : Pool φ} (h : s.Ok N) {i : Nat} (hi : 1 ≤ i) (hiN : i < N)
    (hs : s.helperStep i = some t) : t.Ok N := by
  cases hc : s.caller with
  | ready =>
    obtain ⟨hrest, hgen, hret, hcaller⟩ := (h.resting hc).helperStep hi hiN hs
    refine { gen_lt := hgen ▸ h.gen_lt, returned := hret ▸ h.returned, resting := fun _ => hrest, posted := fun _ _ _ hp => ?_ }
    exact absurd ((hcaller.trans hc).symm.trans hp) nofun
  | inside fn n pc =>
    have hp := h.posted fn n pc hc
    unfold Pool.helperStep at hs
    dsimp only at hs
    cases hp.helper i hi hiN with
    | fresh hpc hseen hcalls =>
      rw [hpc] at hs
      dsimp only at hs
      rw [if_neg fun e => hseen e.symm] at hs
      cases hs
      refine h.of_posted rfl rfl hc (hp.move hi rfl (Function.update_eq_self i s.calls).symm rfl rfl rfl rfl ?_ ?_)
      · unfold Helper.busy
        rw [hpc]
        exact (bne_iff_ne.mpr hseen).symm
      · exact .working (by rw [hp.job, hp.range i hiN]) rfl hcalls
    | working hpc hseen hcalls =>
      rw [hpc] at hs
      cases hs
      refine h.of_posted rfl rfl hc (hp.move hi rfl rfl rfl rfl rfl rfl ?_ (.finishing rfl hseen ?_))
      · unfold Helper.busy
        rw [hpc]
      · rw [hcalls]
        rfl
    | finishing hpc hseen hcalls =>
      rw [hpc] at hs
      cases hs
      refine h.of_posted rfl rfl ?_ (hp.report hi hiN hpc hseen hcalls rfl rfl rfl rfl rfl rfl)
      dsimp only
      rw [hc, CallerPc.wake_inside]
      unfold Inside.signalled
      split_ifs <;> rfl
    | done hpc hseen hcalls =>
      rcases hpc with hpc | hpc
      · rw [hpc] at hs
        dsimp only at hs
        rw [if_pos hseen.symm] at hs
        cases hs
        refine h.of_posted rfl rfl hc
          (hp.move hi rfl (Function.update_eq_self i s.calls).symm rfl rfl rfl rfl ?_ (.done (.inr rfl) hseen hcalls))
        unfold Helper.busy
        rw [hpc]
      · rw [hpc] at hs
        cases hs

theorem Pool.Ok.wakeCaller {N : Nat} {s : Pool φ} (h : s.Ok N) : Pool.Ok N { s with caller := s.caller.wake } := by
  cases hc : s.caller with
  | ready =>
    have hrest := h.resting hc
    exact { gen_lt := h.gen_lt, returned := h.returned, resting := fun _ => ⟨hrest.calls, hrest.helper⟩, posted := nofun }
  | inside fn n pc =>
    have hp := h.posted fn n pc hc
    refine h.of_posted rfl rfl CallerPc.wake_inside { hp with own := ?_, asleep := fun he => ?_ }
    · rw [hp.own]
      cases pc <;> rfl
    · split_ifs at he with ha
      exact absurd he ha

theorem Pool.Ok.wakeHelper {N : Nat} {s : Pool φ} (h : s.Ok N) (i : Nat) :
    Pool.Ok N { s with helper := Function.update s.helper i (s.helper i).wake } := by
  have hall : ∀ j, Function.update s.helper i (s.helper i).wake j = s.helper j ∨
      Function.update s.helper i (s.helper i).wake j = (s.helper j).wake := by
    intro j
    by_cases hji : j = i
    · subst hji
      exact .inr (Function.update_self ..)
    · exact .inl (Function.update_of_ne hji ..)
  cases hc : s.caller with
  | ready =>
    have hrest := h.resting hc
    refine { gen_lt := h.gen_lt, returned := h.returned, resting := fun _ => ⟨hrest.calls, fun j hj hjN => ?_⟩,
             posted := nofun }
    obtain ⟨hpc, hs⟩ := hrest.helper j hj hjN
    dsimp only
    rcases hall j with he | he
    · rw [he]
      exact ⟨hpc, hs⟩
    · rw [he]
      exact ⟨.inl (Helper.wake_idle hpc), (Helper.wake_seen _).trans hs⟩
  | inside fn n pc =>
    have hp := h.posted fn n pc hc
    refine h.of_posted rfl rfl rfl { hp with running := ?_, helper := fun j hj hjN => ?_ }
    · refine hp.running.trans (congrArg _ (congrArg _ (busyHelpers_congr fun j _ _ => ?_).symm))
      dsimp only
      rcases hall j with he | he
      · rw [he]
      · rw [he, Helper.busy_wake]
    · dsimp only
      rcases hall j with he | he
      · rw [he]
        exact hp.helper j hj hjN
      · rw [he]
        exact (hp.helper j hj hjN).wake

theorem Pool.Ok.step {N : Nat} {s t : Pool φ} (h : s.Ok N) {e : PoolEvent φ} (hs : s.step N e = some t) : t.Ok N := by
  cases e with
  | call fn n =>
    change (match s.caller with
      | .ready => if -2 ^ 31 ≤ n ∧ n < 2 ^ 31 then some (s.post N fn n) else none
      | .inside .. => none) = some t at hs
    split at hs
    · next hc =>
      split_ifs at hs with hn
      cases hs
      exact h.post hc hn fn
    · cases hs
  | caller => exact h.callerStep hs
  | helper i =>
    change (if 1 ≤ i ∧ i < N then s.helperStep i else none) = some t at hs
    split_ifs at hs with hi
    exact h.helperStep hi.1 hi.2 hs
  | wakeCaller =>
    cases hs
    exact h.wakeCaller
  | wakeHelper i =>
    cases hs
    exact h.wakeHelper i

theorem Pool.ok_start (N : Nat) : (Pool.start : Pool φ).Ok N where
  gen_lt := Nat.two_pow_pos 32
  returned := nofun
  resting := fun _ => ⟨fun _ _ => rfl, fun _ _ _ => ⟨.inl rfl, rfl⟩⟩
  posted := nofun

theorem Pool.ok_of_reachable {N : Nat} {s : Pool φ} (h : (poolSystem φ N).Reachable s) : s.Ok N :=
  h.invariant (fun _ hs => hs ▸ Pool.ok_start N) fun _ _ _ _ hs _ ht => hs.step ht

/-! ### No call hangs -/

/-- The steps that do not wait for a wakeup out of nothing. -/
def PoolEvent.isStep : PoolEvent φ → Prop
  | .caller | .helper _ => True
  | _ => False

/-- Inside a call some thread can go on. -/
theorem Pool.Ok.goes_on {N : Nat} {s : Pool φ} (h : s.Ok N) (hc : s.caller ≠ .ready) :
    ∃ e t, e.isStep ∧ s.step N e = some t := by
  cases hcaller : s.caller with
  | ready => exact absurd hcaller hc
  | inside fn n pc =>
    have hp := h.posted fn n pc hcaller
    have hown : pc ≠ .asleep → ∃ t, s.callerStep N = some t := by
      intro hpc
      unfold Pool.callerStep
      rw [hcaller]
      cases pc with
      | chunk => exact ⟨_, rfl⟩
      | check =>
        dsimp only
        split_ifs
        · exact ⟨_, rfl⟩
        · exact ⟨_, rfl⟩
      | asleep => exact absurd rfl hpc
    by_cases hpc : pc = .asleep
    · subst hpc
      have hpos : 0 < (busyHelpers N s).card := by
        have := hp.asleep rfl
        have := hp.running
        omega
      obtain ⟨i, hi⟩ := Finset.card_pos.mp hpos
      obtain ⟨hmem, hbusy⟩ := Finset.mem_filter.mp hi
      have hiN := Finset.mem_Ico.mp hmem
      have hstep : ∃ t, s.helperStep i = some t := by
        unfold Pool.helperStep
        dsimp only
        cases hp.helper i hiN.1 hiN.2 with
        | fresh hpc hs _ =>
          rw [hpc]
          exact ⟨_, if_neg fun e => hs e.symm⟩
        | working hpc _ _ =>
          rw [hpc]
          exact ⟨_, rfl⟩
        | finishing hpc _ _ =>
          rw [hpc]
          exact ⟨_, rfl⟩
        | done hpc hs _ =>
          rw [Helper.not_busy hpc hs] at hbusy
          exact absurd hbusy Bool.false_ne_true
      obtain ⟨t, ht⟩ := hstep
      exact ⟨.helper i, t, trivial, (if_pos hiN).trans ht⟩
    · obtain ⟨t, ht⟩ := hown hpc
      exact ⟨.caller, t, trivial, ht⟩

/-- How far a helper is from waiting for the next job. -/
def Helper.left (gen : Nat) (h : Helper φ) : Nat :=
  match h.pc with
  | .awake => if h.seen = gen then 2 else 8
  | .asleep => 0
  | .working .. => 6
  | .finishing => 4

def CallerPc.left : CallerPc φ → Nat
  | .inside _ _ .chunk => 2
  | .inside _ _ .check => 1
  | _ => 0

/-- How many steps a call can take at most. -/
def Pool.left (N : Nat) (s : Pool φ) : Nat :=
  s.caller.left + ((Finset.Ico 1 N).sum fun i => (s.helper i).left s.gen)

theorem sum_left_update (N : Nat) {s : Pool φ} {i : Nat} (hi : 1 ≤ i ∧ i < N) {x : Helper φ} {d : Nat}
    (hx : x.left s.gen + d = (s.helper i).left s.gen) :
    ((Finset.Ico 1 N).sum fun j => (Function.update s.helper i x j).left s.gen) + d =
      (Finset.Ico 1 N).sum fun j => (s.helper j).left s.gen := by
  have hmem : i ∈ Finset.Ico 1 N := Finset.mem_Ico.mpr hi
  rw [← Finset.add_sum_erase _ _ hmem, ← Finset.add_sum_erase _ (fun j => (s.helper j).left s.gen) hmem]
  have hrest : ((Finset.Ico 1 N).erase i).sum (fun j => (Function.update s.helper i x j).left s.gen) =
      ((Finset.Ico 1 N).erase i).sum fun j => (s.helper j).left s.gen := by
    refine Finset.sum_congr rfl fun j hj => ?_
    rw [Function.update_of_ne (Finset.ne_of_mem_erase hj)]
  rw [hrest, Function.update_self]
  omega

theorem CallerPc.wake_left_le (c : CallerPc φ) : c.wake.left ≤ c.left + 1 := by
  rcases c with _ | ⟨fn, n, _ | _ | _⟩
  · exact Nat.le_succ 0
  · exact Nat.le_succ 2
  · exact Nat.le_succ 1
  · exact Nat.le_refl 1

theorem Pool.Ok.finishing_seen {N : Nat} {s : Pool φ} (h : s.Ok N) {i : Nat} (hi : 1 ≤ i ∧ i < N)
    (hpc : (s.helper i).pc = .finishing) : (s.helper i).seen = s.gen := by
  cases hc : s.caller with
  | ready =>
    obtain ⟨hidle, -⟩ := (h.resting hc).helper i hi.1 hi.2
    rw [hpc] at hidle
    exact absurd hidle (by rintro (h | h) <;> cases h)
  | inside fn n pc =>
    cases (h.posted fn n pc hc).helper i hi.1 hi.2 with
    | fresh hf _ _ => exact absurd (hpc.symm.trans hf) nofun
    | working hf _ _ => exact absurd (hpc.symm.trans hf) nofun
    | finishing _ hs _ => exact hs
    | done _ hs _ => exact hs

/-- Every step of a thread brings the call nearer to its end. -/
theorem Pool.Ok.left_lt {N : Nat} {s t : Pool φ} (h : s.Ok N) {e : PoolEvent φ} (he : e.isStep) (hs : s.step N e = some t) :
    t.left N < s.left N := by
  cases e with
  | call fn n => exact absurd he id
  | wakeCaller => exact absurd he id
  | wakeHelper i => exact absurd he id
  | caller =>
    change s.callerStep N = some t at hs
    unfold Pool.callerStep at hs
    unfold Pool.left
    split at hs
    · cases hs
    · next hc =>
      cases hs
      rw [hc]
      exact Nat.add_lt_add_right (Nat.lt_succ_self 1) _
    · next hc =>
      split_ifs at hs
      · cases hs
        rw [hc]
        exact Nat.add_lt_add_right (Nat.lt_succ_self 0) _
      · cases hs
        rw [hc]
        exact Nat.add_lt_add_right (Nat.lt_succ_self 0) _
    · cases hs
  | helper i =>
    change (if 1 ≤ i ∧ i < N then s.helperStep i else none) = some t at hs
    split_ifs at hs with hi
    unfold Pool.helperStep at hs
    dsimp only at hs
    unfold Pool.left
    cases hpc : (s.helper i).pc with
    | awake =>
      rw [hpc] at hs
      dsimp only at hs
      split_ifs at hs with hseen
      · cases hs
        have hsum := sum_left_update N hi (x := { s.helper i with pc := .asleep }) (d := 2)
          (by unfold Helper.left; rw [hpc, hseen]; simp)
        dsimp only at hsum ⊢
        omega
      · cases hs
        have hsum := sum_left_update N hi (x := { pc := .working s.fn (s.range i), seen := s.gen }) (d := 2)
          (by unfold Helper.left; rw [hpc]; dsimp only; rw [if_neg fun e => hseen e.symm])
        dsimp only at hsum ⊢
        omega
    | asleep =>
      rw [hpc] at hs
      cases hs
    | working fn r =>
      rw [hpc] at hs
      cases hs
      have hsum := sum_left_update N hi (x := { s.helper i with pc := .finishing }) (d := 2)
        (by unfold Helper.left; rw [hpc])
      dsimp only at hsum ⊢
      omega
    | finishing =>
      have hseen := h.finishing_seen hi hpc
      rw [hpc] at hs
      cases hs
      have hsum := sum_left_update N hi (x := { s.helper i with pc := .awake }) (d := 2)
        (by unfold Helper.left; rw [hpc, hseen]; simp)
      have hwake : (if s.running - 1 = 0 then s.caller.wake else s.caller).left ≤ s.caller.left + 1 := by
        split_ifs
        · exact CallerPc.wake_left_le _
        · exact Nat.le_succ _
      dsimp only at hsum ⊢
      omega

end

end OrkDriver.Core
