import Mathlib.Logic.Basic
import Mathlib.Tactic.TypeStar

/-!
Labelled transition systems: runs whose every step meets a condition, and the invariant rule.
-/

namespace Transition

variable {σ ε : Type*}

/-- A system is its initial states and its labelled steps. -/
structure System (σ ε : Type*) where
  init : σ → Prop
  step : σ → ε → σ → Prop

namespace System

variable {S : System σ ε} {P Q : σ → ε → Prop}

/-- The states of the runs in which every step meets `P` where it is taken. -/
inductive ReachableOn (S : System σ ε) (P : σ → ε → Prop) : σ → Prop
  | init {s : σ} : S.init s → ReachableOn S P s
  | step {s t : σ} {e : ε} : ReachableOn S P s → P s e → S.step s e t → ReachableOn S P t

/-- The states of all runs. -/
abbrev Reachable (S : System σ ε) : σ → Prop := S.ReachableOn fun _ _ => True

theorem ReachableOn.mono (hPQ : ∀ s e, P s e → Q s e) {s : σ} (h : S.ReachableOn P s) :
    S.ReachableOn Q s := by
  induction h with
  | init h => exact .init h
  | step _ hp hs ih => exact .step ih (hPQ _ _ hp) hs

theorem ReachableOn.reachable {s : σ} (h : S.ReachableOn P s) : S.Reachable s :=
  h.mono fun _ _ _ => trivial

/-- The invariant rule: what holds initially and survives every step that meets `P` holds in every
state of the runs whose steps meet `P`. -/
theorem ReachableOn.invariant {I : σ → Prop} (hinit : ∀ s, S.init s → I s)
    (hstep : ∀ s e t, S.ReachableOn P s → I s → P s e → S.step s e t → I t) {s : σ}
    (h : S.ReachableOn P s) : I s := by
  induction h with
  | init h => exact hinit _ h
  | step hr hp hs ih => exact hstep _ _ _ hr ih hp hs

/-- A condition that holds at every reachable state costs a run nothing. -/
theorem Reachable.strengthen (hP : ∀ s e, S.Reachable s → P s e) {s : σ} (h : S.Reachable s) :
    S.ReachableOn P s := by
  induction h with
  | init h => exact .init h
  | step hr _ hs ih => exact .step ih (hP _ _ hr) hs

/-- Where every state short of the goal has another one after it that is nearer, the goal is reached. -/
theorem exists_goal {R G : σ → Prop} (m : σ → Nat) (h : ∀ s, R s → ¬ G s → ∃ t, R t ∧ m t < m s) {s : σ} (hs : R s) :
    ∃ t, R t ∧ G t := by
  induction hn : m s using Nat.strongRecOn generalizing s with
  | ind n ih =>
      by_cases hg : G s
      · exact ⟨s, hs, hg⟩
      · obtain ⟨t, ht, hlt⟩ := h s hs hg
        exact ih (m t) (hn ▸ hlt) ht rfl

/-- A system whose labels lead to one state each, where they are enabled. -/
def ofNext (init : σ → Prop) (enabled : σ → ε → Prop) (next : σ → ε → σ) : System σ ε where
  init := init
  step s e t := enabled s e ∧ t = next s e

/-- The labels can be taken one after another from `s`, and each step meets `P`. -/
def Runs (P enabled : σ → ε → Prop) (next : σ → ε → σ) : σ → List ε → Prop
  | _, [] => True
  | s, e :: es => (P s e ∧ enabled s e) ∧ Runs P enabled next (next s e) es

instance Runs.decidable {P enabled : σ → ε → Prop} {next : σ → ε → σ} [∀ s e, Decidable (P s e)]
    [∀ s e, Decidable (enabled s e)] : ∀ s es, Decidable (Runs P enabled next s es)
  | _, [] => inferInstanceAs (Decidable True)
  | s, e :: es =>
    have : Decidable (Runs P enabled next (next s e) es) := Runs.decidable (next s e) es
    inferInstanceAs (Decidable ((P s e ∧ enabled s e) ∧ Runs P enabled next (next s e) es))

/-- The iff rule: where, in states that are sound and good, a step leads to a good state exactly if it meets `P`, a run
stays good exactly if all its steps meet `P`. -/
theorem Runs.iff_forall_prefix_of_enabled {enabled : σ → ε → Prop} {next : σ → ε → σ} {I G : σ → Prop}
    (hsound : ∀ s e, enabled s e → I s → G s → I (next s e))
    (hstep : ∀ s e, enabled s e → I s → G s → (G (next s e) ↔ P s e)) {s : σ} (hI : I s) (hG : G s) {es : List ε}
    (hruns : Runs (fun _ _ => True) enabled next s es) :
    (∀ l, l <+: es → G (l.foldl next s)) ↔ Runs P enabled next s es := by
  induction es generalizing s with
  | nil =>
      refine ⟨fun _ => trivial, fun _ l hl => ?_⟩
      obtain rfl := List.prefix_nil.mp hl
      exact hG
  | cons e es ih =>
      obtain ⟨⟨-, hen⟩, hruns⟩ := hruns
      constructor
      · intro hall
        have hnext := hall [e] ⟨es, rfl⟩
        refine ⟨⟨(hstep s e hen hI hG).mp hnext, hen⟩,
          (ih (hsound s e hen hI hG) hnext hruns).mp fun l hl => ?_⟩
        exact hall (e :: l) (List.cons_prefix_cons.mpr ⟨rfl, hl⟩)
      · rintro ⟨⟨hP, -⟩, hPs⟩ l hl
        cases l with
        | nil => exact hG
        | cons e' l =>
            obtain ⟨rfl, hl'⟩ := List.cons_prefix_cons.mp hl
            exact (ih (hsound s _ hen hI hG) ((hstep s _ hen hI hG).mpr hP) hruns).mpr hPs l hl'

theorem Runs.of_enabled {next : σ → ε → σ} (s : σ) (es : List ε) :
    Runs (fun _ _ => True) (fun _ _ => True) next s es := by
  induction es generalizing s with
  | nil => exact trivial
  | cons e es ih => exact ⟨⟨trivial, trivial⟩, ih _⟩

/-- The iff rule where every step can always be taken. -/
theorem Runs.iff_forall_prefix {next : σ → ε → σ} {I G : σ → Prop} (hsound : ∀ s e, I s → G s → I (next s e))
    (hstep : ∀ s e, I s → G s → (G (next s e) ↔ P s e)) {s : σ} (hI : I s) (hG : G s) (es : List ε) :
    (∀ l, l <+: es → G (l.foldl next s)) ↔ Runs P (fun _ _ => True) next s es :=
  Runs.iff_forall_prefix_of_enabled (fun s e _ => hsound s e) (fun s e _ => hstep s e) hI hG (Runs.of_enabled s es)

/-- Where an invariant turns one condition on the steps into another, it does so for a whole run. -/
theorem Runs.of_invariant {enabled : σ → ε → Prop} {next : σ → ε → σ} {I : σ → Prop}
    (hI : ∀ s e, enabled s e → P s e → I s → I (next s e)) (hPQ : ∀ s e, enabled s e → I s → P s e → Q s e) {s : σ}
    (hs : I s) {es : List ε} (hruns : Runs P enabled next s es) : Runs Q enabled next s es := by
  induction es generalizing s with
  | nil => exact trivial
  | cons e es ih =>
      obtain ⟨⟨hp, hen⟩, hruns⟩ := hruns
      exact ⟨⟨hPQ s e hen hs hp, hen⟩, ih (hI s e hen hp hs) hruns⟩

/-- The invariant rule for the end of a run. -/
theorem Runs.invariant {enabled : σ → ε → Prop} {next : σ → ε → σ} {I : σ → Prop}
    (hI : ∀ s e, enabled s e → P s e → I s → I (next s e)) {s : σ} (hs : I s) {es : List ε}
    (hruns : Runs P enabled next s es) : I (es.foldl next s) := by
  induction es generalizing s with
  | nil => exact hs
  | cons e es ih =>
      obtain ⟨⟨hp, hen⟩, hruns⟩ := hruns
      exact ih (hI s e hen hp hs) hruns

/-- Labels that meet the condition in any state. -/
theorem Runs.of_forall {enabled : σ → ε → Prop} {next : σ → ε → σ} {s : σ} {es : List ε}
    (hP : ∀ e ∈ es, ∀ s, P s e) (hruns : Runs (fun _ _ => True) enabled next s es) : Runs P enabled next s es := by
  induction es generalizing s with
  | nil => exact trivial
  | cons e es ih =>
      obtain ⟨⟨-, hen⟩, hruns⟩ := hruns
      exact ⟨⟨hP e List.mem_cons_self s, hen⟩, ih (fun e' he' => hP e' (List.mem_cons_of_mem _ he')) hruns⟩

theorem ReachableOn.run {init : σ → Prop} {enabled : σ → ε → Prop} {next : σ → ε → σ} {s : σ} {es : List ε}
    (h : (ofNext init enabled next).ReachableOn P s) (hruns : Runs P enabled next s es) :
    (ofNext init enabled next).ReachableOn P (es.foldl next s) := by
  induction es generalizing s with
  | nil => exact h
  | cons e es ih =>
      obtain ⟨⟨hp, he⟩, hruns⟩ := hruns
      exact ih (.step h hp ⟨he, rfl⟩) hruns

end System

end Transition
