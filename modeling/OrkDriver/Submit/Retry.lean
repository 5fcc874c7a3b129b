import Mathlib.Data.List.Basic
import Mathlib.Data.List.Range
import Mathlib.Data.List.ReduceOption
import Mathlib.Tactic.SplitIfs

/-!
The submit ioctl (`orki_rknpu_submit_ioctl` of `submit.c`): the short retry of a rejected job, the classification of the
error that is left, and the self-healing reset.
-/

namespace OrkDriver.Submit

structure Errno where
  code : Nat
  deriving DecidableEq, Repr

namespace Errno

def EINTR : Errno := ⟨4⟩
def ENOMEM : Errno := ⟨12⟩
def EFAULT : Errno := ⟨14⟩
def EBUSY : Errno := ⟨16⟩
def ENODEV : Errno := ⟨19⟩
def EINVAL : Errno := ⟨22⟩
def ETIMEDOUT : Errno := ⟨110⟩

/-- What a core whose prior job has not retired answers. -/
abbrev Transient (e : Errno) : Prop := e = EINVAL ∨ e = EBUSY

/-- Errors that say nothing about the device. -/
abbrev NotDevice (e : Errno) : Prop := e = EINTR ∨ e = ENODEV ∨ e = ENOMEM ∨ e = EFAULT

theorem Transient.device {e : Errno} (h : e.Transient) : ¬ e.NotDevice := by
  rcases h with rfl | rfl <;> decide

end Errno

/-- What one call has done so far: the outcome of each attempt it issued (`none`: the ioctl returned 0), the thread's
`errno`, and the resets it asked for. -/
structure Attempts where
  issued : List (Option Errno)
  errno : Errno
  resets : Nat
  deriving DecidableEq

/-- `ioctl(fd, DRM_IOCTL_RKNPU_SUBMIT, sub)`, where the driver answers attempt `i` with `outcome i`. -/
def Attempts.submit (outcome : Nat → Option Errno) (a : Attempts) : Int × Attempts :=
  match outcome a.issued.length with
  | none => (0, { a with issued := a.issued ++ [none] })
  | some e => (-1, { a with issued := a.issued ++ [some e], errno := e })

/-- The retry loop: it tests `rc` alone. -/
def resubmit (outcome : Nat → Option Errno) : Nat → Int × Attempts → Int × Attempts
  | 0, r => r
  | n + 1, r => if r.1 < 0 then resubmit outcome n (r.2.submit outcome) else r

/-- `ACT_RESET(submit self-heal)`; a refused one is reported and leaves its own error in `errno`. -/
def Attempts.reset (refused : Option Errno) (a : Attempts) : Attempts :=
  { a with errno := refused.getD a.errno, resets := a.resets + 1 }

/-- `orki_rknpu_submit_ioctl`, from the submit ioctl on. -/
def orkiRknpuSubmitIoctl (outcome : Nat → Option Errno) (refused : Option Errno) (errno : Errno) : Int × Attempts :=
  let r := Attempts.submit outcome ⟨[], errno, 0⟩
  if r.1 < 0 then
    let e := r.2.errno
    let again := if e.Transient then resubmit outcome 20 r else r
    if 0 ≤ again.1 then again
    else
      let a := { again.2 with errno := e }
      if e.NotDevice then (again.1, a)
      else (again.1, { a.reset refused with errno := e })
  else r

/-! ### The attempts -/

/-- The error of the last attempt that failed; without one, what `errno` was. -/
def lastError (errno : Errno) (issued : List (Option Errno)) : Errno :=
  issued.reduceOption.getLast?.getD errno

/-- The resets a last attempt with this outcome calls for. -/
def resetsFor : Option Errno → Nat
  | none => 0
  | some e => if e.NotDevice then 0 else 1

section

variable (outcome : Nat → Option Errno) (errno : Errno)

/-- The first `n` attempts. -/
def firstAttempts (n : Nat) : Attempts :=
  ⟨(List.range n).map outcome, lastError errno ((List.range n).map outcome), 0⟩

/-- The attempts from `k` up to `n` all failed. -/
def FailsOn (k n : Nat) : Prop := ∀ i, k ≤ i → i < n → outcome i ≠ none

theorem lastError_append_none (l : List (Option Errno)) : lastError errno (l ++ [none]) = lastError errno l := by
  simp [lastError, List.reduceOption_append]

theorem lastError_append_some (l : List (Option Errno)) (e : Errno) : lastError errno (l ++ [some e]) = e := by
  simp [lastError, List.reduceOption_append]

theorem getLast?_firstAttempts (n : Nat) : (firstAttempts outcome errno (n + 1)).issued.getLast? = some (outcome n) := by
  simp [firstAttempts, List.range_succ]

variable {outcome errno}

theorem submit_of_none {n : Nat} (h : outcome n = none) :
    (firstAttempts outcome errno n).submit outcome = (0, firstAttempts outcome errno (n + 1)) := by
  simp [Attempts.submit, firstAttempts, h, List.range_succ, lastError_append_none]

theorem submit_of_some {n : Nat} {e : Errno} (h : outcome n = some e) :
    (firstAttempts outcome errno n).submit outcome = (-1, firstAttempts outcome errno (n + 1)) := by
  simp [Attempts.submit, firstAttempts, h, List.range_succ, lastError_append_some]

theorem errno_of_some {n : Nat} {e : Errno} (h : outcome n = some e) :
    (firstAttempts outcome errno (n + 1)).errno = e := by
  simp [firstAttempts, h, List.range_succ, lastError_append_some]

theorem FailsOn.cons {k n : Nat} {e : Errno} (hk : outcome k = some e) (h : FailsOn outcome (k + 1) n) :
    FailsOn outcome k n := by
  intro i hki hin
  rcases Nat.eq_or_lt_of_le hki with rfl | hlt
  · simp [hk]
  · exact h i hlt hin

theorem resubmit_of_nonneg (n : Nat) {r : Int × Attempts} (h : 0 ≤ r.1) : resubmit outcome n r = r := by
  cases n with
  | zero => rfl
  | succ n => rw [resubmit, if_neg (by omega)]

/-- The loop stops at the first success, or when its turns run out. -/
theorem resubmit_firstAttempts (n k : Nat) :
    (∃ m, k ≤ m ∧ m < k + n ∧ FailsOn outcome k m ∧ outcome m = none ∧
      resubmit outcome n (-1, firstAttempts outcome errno k) = (0, firstAttempts outcome errno (m + 1))) ∨
    (FailsOn outcome k (k + n) ∧
      resubmit outcome n (-1, firstAttempts outcome errno k) = (-1, firstAttempts outcome errno (k + n))) := by
  induction n generalizing k with
  | zero => exact .inr ⟨fun i hk hi => absurd hi (by omega), rfl⟩
  | succ n ih =>
      rw [resubmit, if_pos (show (-1 : Int) < 0 by decide)]
      cases ho : outcome k with
      | none =>
          refine .inl ⟨k, le_refl k, by omega, fun i hk hi => absurd hi (by omega), ho, ?_⟩
          rw [submit_of_none ho]
          exact resubmit_of_nonneg n (show (0 : Int) ≤ 0 by decide)
      | some e =>
          rw [submit_of_some ho, show k + (n + 1) = k + 1 + n by omega]
          rcases ih (k + 1) with ⟨m, hk, hm, hf, hs, hr⟩ | ⟨hf, hr⟩
          · exact .inl ⟨m, by omega, hm, hf.cons ho, hs, hr⟩
          · exact .inr ⟨hf.cons ho, hr⟩

/-- Everything a call can do. -/
theorem orkiRknpuSubmitIoctl_cases (refused : Option Errno) :
    (outcome 0 = none ∧ orkiRknpuSubmitIoctl outcome refused errno = (0, firstAttempts outcome errno 1)) ∨
    (∃ e, outcome 0 = some e ∧ ¬ e.Transient ∧ orkiRknpuSubmitIoctl outcome refused errno =
      (-1, { firstAttempts outcome errno 1 with errno := e, resets := resetsFor (some e) })) ∨
    (∃ e, outcome 0 = some e ∧ e.Transient ∧
      ((∃ m, 0 < m ∧ m ≤ 20 ∧ FailsOn outcome 0 m ∧ outcome m = none ∧
          orkiRknpuSubmitIoctl outcome refused errno = (0, firstAttempts outcome errno (m + 1))) ∨
        (FailsOn outcome 0 21 ∧ orkiRknpuSubmitIoctl outcome refused errno =
          (-1, { firstAttempts outcome errno 21 with errno := e, resets := resetsFor (some e) })))) := by
  have first : Attempts.submit outcome ⟨[], errno, 0⟩ = (firstAttempts outcome errno 0).submit outcome := rfl
  unfold orkiRknpuSubmitIoctl
  cases ho : outcome 0 with
  | none =>
      refine .inl ⟨rfl, ?_⟩
      rw [first, submit_of_none ho]
      rfl
  | some e =>
      have he : (firstAttempts outcome errno 1).errno = e := errno_of_some ho
      rw [first, submit_of_some ho]
      dsimp only
      rw [if_pos (show (-1 : Int) < 0 by decide), he]
      by_cases ht : e.Transient
      · refine .inr (.inr ⟨e, rfl, ht, ?_⟩)
        rw [if_pos ht, if_neg ht.device]
        rcases @resubmit_firstAttempts outcome errno 20 1 with ⟨m, hk, hm, hf, hs, hr⟩ | ⟨hf, hr⟩
        · refine .inl ⟨m, hk, by omega, hf.cons ho, hs, ?_⟩
          rw [hr]
          exact if_pos (show (0 : Int) ≤ 0 by decide)
        · refine .inr ⟨hf.cons ho, ?_⟩
          rw [hr, resetsFor, if_neg ht.device]
          exact if_neg (show ¬ (0 : Int) ≤ -1 by decide)
      · refine .inr (.inl ⟨e, rfl, ht, ?_⟩)
        rw [if_neg ht, if_neg (show ¬ (0 : Int) ≤ -1 by decide)]
        rw [resetsFor]
        split_ifs
        · simp [firstAttempts]
        · simp [firstAttempts, Attempts.reset]

end

/-! ### The policy -/

/-- The retry policy, of a call that found `errno` and left `r`: a job is issued again only after a rejection, the
result tells how the last attempt ended, `errno` is the last failed attempt's, and the device is reset exactly when the
call fails with an error of the device. -/
structure RetryPolicy (errno : Errno) (r : Int × Attempts) : Prop where
  reissued : ∀ i, i + 1 < r.2.issued.length → ∃ e, r.2.issued[i]? = some (some e) ∧ e.Transient
  success : 0 ≤ r.1 ↔ r.2.issued.getLast? = some none
  errno : r.2.errno = lastError errno r.2.issued
  reset : r.2.issued.getLast?.map resetsFor = some r.2.resets

/-- Once a first attempt has been rejected, every attempt followed by another is rejected too, and a call that fails
throughout fails at last as it did at first. -/
def RejectedThroughout (outcome : Nat → Option Errno) : Prop :=
  ∀ e, outcome 0 = some e → e.Transient →
    (∀ i < 20, FailsOn outcome 0 (i + 1) → ∃ e', outcome i = some e' ∧ e'.Transient) ∧
    (FailsOn outcome 0 21 → outcome 20 = some e)

section

variable {outcome : Nat → Option Errno} {errno : Errno}

theorem issued_firstAttempts {n i : Nat} (h : i < n) : (firstAttempts outcome errno n).issued[i]? = some (outcome i) := by
  simp [firstAttempts, h]

theorem length_firstAttempts (n : Nat) : (firstAttempts outcome errno n).issued.length = n := by
  simp [firstAttempts]

theorem FailsOn.mono {n m : Nat} (h : FailsOn outcome 0 n) (hm : m ≤ n) : FailsOn outcome 0 m :=
  fun i hi hlt => h i hi (by omega)

/-- A call whose last attempt, number `n`, succeeded keeps to the policy if each earlier one was rejected. -/
theorem retryPolicy_of_success {n : Nat} (hn : outcome n = none) :
    RetryPolicy errno (0, firstAttempts outcome errno (n + 1)) ↔ ∀ i < n, ∃ e, outcome i = some e ∧ e.Transient := by
  constructor
  · intro h i hi
    have hr := h.reissued i (by rw [length_firstAttempts]; omega)
    simpa [issued_firstAttempts (show i < n + 1 by omega)] using hr
  · intro h
    refine ⟨fun i hi => ?_, ?_, rfl, ?_⟩
    · rw [length_firstAttempts] at hi
      simpa [issued_firstAttempts (show i < n + 1 by omega)] using h i (by omega)
    · simp [getLast?_firstAttempts, hn]
    · rw [getLast?_firstAttempts, hn]
      rfl

/-- A call that gave up after attempt `n`, and reports `e`. -/
theorem retryPolicy_of_failure {n : Nat} {e e' : Errno} (hn : outcome n = some e') :
    RetryPolicy errno (-1, { firstAttempts outcome errno (n + 1) with errno := e, resets := resetsFor (some e) }) ↔
      (∀ i < n, ∃ e, outcome i = some e ∧ e.Transient) ∧ e' = e := by
  have last : lastError errno (firstAttempts outcome errno (n + 1)).issued = e' := errno_of_some hn
  constructor
  · intro h
    refine ⟨fun i hi => ?_, last.symm.trans h.errno.symm⟩
    have hr := h.reissued i (show i + 1 < (firstAttempts outcome errno (n + 1)).issued.length by
      rw [length_firstAttempts]; omega)
    simpa [issued_firstAttempts (show i < n + 1 by omega)] using hr
  · rintro ⟨h, rfl⟩
    refine ⟨fun i hi => ?_, ?_, last.symm, ?_⟩
    · change i + 1 < (firstAttempts outcome errno (n + 1)).issued.length at hi
      rw [length_firstAttempts] at hi
      simpa [issued_firstAttempts (show i < n + 1 by omega)] using h i (by omega)
    · simp [getLast?_firstAttempts, hn]
    · simp [getLast?_firstAttempts, hn]

end

/-- The call keeps to the policy for exactly the outcomes that reject throughout. -/
theorem orkiRknpuSubmitIoctl_policy_iff (outcome : Nat → Option Errno) (refused : Option Errno) (errno : Errno) :
    RetryPolicy errno (orkiRknpuSubmitIoctl outcome refused errno) ↔ RejectedThroughout outcome := by
  rcases @orkiRknpuSubmitIoctl_cases outcome errno refused with
    ⟨ho, hr⟩ | ⟨e, ho, ht, hr⟩ | ⟨e, ho, ht, ⟨m, hm, hm', hf, hs, hr⟩ | ⟨hf, hr⟩⟩
  · rw [hr, retryPolicy_of_success ho]
    exact iff_of_true (fun i hi => absurd hi (Nat.not_lt_zero i)) fun e he => absurd (ho.symm.trans he) (by simp)
  · rw [hr]
    refine (retryPolicy_of_failure ho).trans (iff_of_true ⟨fun i hi => absurd hi (Nat.not_lt_zero i), rfl⟩ ?_)
    intro e' he' ht'
    exact absurd ht' (Option.some.inj (ho.symm.trans he') ▸ ht)
  · rw [hr, retryPolicy_of_success hs]
    constructor
    · intro h e' he' ht'
      refine ⟨fun i hi hfi => h i (by_contra fun hge => hfi m (Nat.zero_le m) (by omega) hs), fun hall => ?_⟩
      exact absurd hs (hall m (Nat.zero_le m) (by omega))
    · intro h i hi
      exact (h e ho ht).1 i (by omega) (hf.mono hi)
  · obtain ⟨e', he'⟩ := Option.ne_none_iff_exists'.mp (hf 20 (Nat.zero_le _) (by omega))
    rw [hr]
    refine (retryPolicy_of_failure he').trans ?_
    constructor
    · rintro ⟨h, rfl⟩ e₁ he₁ _
      refine ⟨fun i hi _ => h i hi, fun _ => ?_⟩
      rw [he', ← ho, he₁]
    · intro h
      refine ⟨fun i hi => (h e ho ht).1 i hi (hf.mono (by omega)), ?_⟩
      exact Option.some.inj (he'.symm.trans ((h e ho ht).2 hf))

/-- A core that is busy at first, then times out, then takes the job. -/
def busyThenTimeout : Nat → Option Errno
  | 0 => some .EBUSY
  | 1 => some .ETIMEDOUT
  | _ => none

/-- The attempt that timed out may have been committed, and the job is issued a third time. -/
theorem orkiRknpuSubmitIoctl_reissues_timeout :
    (orkiRknpuSubmitIoctl busyThenTimeout none ⟨0⟩).2.issued = [some .EBUSY, some .ETIMEDOUT, none] ∧
      ¬ RetryPolicy ⟨0⟩ (orkiRknpuSubmitIoctl busyThenTimeout none ⟨0⟩) := by
  refine ⟨by decide, fun h => ?_⟩
  obtain ⟨e, he, ht⟩ := h.reissued 1 (by decide)
  obtain rfl : Errno.ETIMEDOUT = e := Option.some.inj (Option.some.inj he)
  exact absurd ht (by decide)

end OrkDriver.Submit
