import Mathlib.Tactic.TypeStar

/-!
Programs over a state, and rules for what they leave behind.
-/

namespace OrkDriver.Lib

/-- A program that reads and changes a state `σ` and returns an `α`. -/
def Prog (σ α : Type) := σ → α × σ

instance Prog.monad (σ : Type) : Monad (Prog σ) where
  pure a := fun s => (a, s)
  bind m f := fun s => f (m s).1 (m s).2

/-- A change of the state alone. -/
def Prog.modify {σ : Type} (f : σ → σ) : Prog σ Unit := fun s => ((), f s)

theorem Prog.bind_eq {σ α β : Type} {m : Prog σ α} {f : α → Prog σ β} {s s' : σ} {a : α} (h : m s = (a, s')) :
    (m >>= f) s = f a s' := by
  change f (m s).1 (m s).2 = _
  rw [h]

/-- What the program finds in the state. -/
def Prog.read {σ α : Type} (f : σ → α) : Prog σ α := fun s => (f s, s)

theorem Prog.bind_apply {σ α β : Type} (m : Prog σ α) (f : α → Prog σ β) (s : σ) : (m >>= f) s = f (m s).1 (m s).2 :=
  rfl

theorem Prog.read_apply {σ α : Type} (f : σ → α) (s : σ) : Prog.read f s = (f s, s) := rfl

theorem Prog.modify_apply {σ : Type} (f : σ → σ) (s : σ) : Prog.modify f s = ((), f s) := rfl

/-- `if (c) m;` -/
def Prog.when {σ : Type} (c : Prop) [Decidable c] (m : Prog σ Unit) : Prog σ Unit := if c then m else pure ()

/-- A loop over the entries of a list. -/
def Prog.each {σ α : Type} (f : α → Prog σ Unit) : List α → Prog σ Unit
  | [] => pure ()
  | a :: l => do
      f a
      Prog.each f l

/-- A loop over the entries of a list that keeps its results. -/
def Prog.mapped {σ α β : Type} (f : α → Prog σ β) : List α → Prog σ (List β)
  | [] => pure []
  | a :: l => do
      let b ← f a
      let bs ← Prog.mapped f l
      pure (b :: bs)

/-- From every state of `P` the program ends with a result and a state of `Q`. -/
def Triple {σ α : Type} (P : σ → Prop) (m : Prog σ α) (Q : α → σ → Prop) : Prop := ∀ s, P s → Q (m s).1 (m s).2

namespace Triple

variable {σ α β : Type} {P P' : σ → Prop} {m m' : Prog σ α} {f : α → Prog σ β} {Q Q' : α → σ → Prop} {R : β → σ → Prop}

theorem pure {a : α} (h : ∀ s, P s → Q a s) : Triple P (Pure.pure a : Prog σ α) Q := h

theorem bind (hm : Triple P m Q) (hf : ∀ a, Triple (Q a) (f a) R) : Triple P (m >>= f) R := by
  intro s hs
  exact hf (m s).1 (m s).2 (hm s hs)

theorem mono (h : Triple P m Q) (hP : ∀ s, P' s → P s) (hQ : ∀ a s, Q a s → Q' a s) : Triple P' m Q' := by
  intro s hs
  exact hQ _ _ (h s (hP s hs))

theorem post (h : Triple P m Q) (hQ : ∀ a s, Q a s → Q' a s) : Triple P m Q' := h.mono (fun _ hs => hs) hQ

theorem pre (h : Triple P m Q) (hP : ∀ s, P' s → P s) : Triple P' m Q := h.mono hP fun _ _ hs => hs

/-- A fact that does not depend on the state. -/
theorem of_fact {p : Prop} (h : p → Triple P m Q) : Triple (fun s => P s ∧ p) m Q := fun s hs => h hs.2 s hs.1

theorem ite {c : Prop} [Decidable c] (ht : c → Triple P m Q) (he : ¬ c → Triple P m' Q) :
    Triple P (if c then m else m') Q := by
  by_cases h : c
  · rw [if_pos h]
    exact ht h
  · rw [if_neg h]
    exact he h

theorem modify {f : σ → σ} {Q : Unit → σ → Prop} (h : ∀ s, P s → Q () (f s)) : Triple P (Prog.modify f) Q := h

end Triple

/-- The program keeps the property `I` of the state. -/
abbrev Keeps {σ α : Type} (I : σ → Prop) (m : Prog σ α) : Prop := Triple I m fun _ => I

namespace Keeps

variable {σ α : Type} {I : σ → Prop} {m : Prog σ Unit} {f : α → Prog σ Unit}

theorem pure {a : α} : Keeps I (Pure.pure a : Prog σ α) := fun _ hs => hs

theorem read {g : σ → α} : Keeps I (Prog.read g) := fun _ hs => hs

/-- What a part of the program says about its result helps the rest. -/
theorem bind_of {β : Type} {m : Prog σ β} {f : β → Prog σ α} {p : β → Prop} (hm : Triple I m fun b s => I s ∧ p b)
    (hf : ∀ b, p b → Keeps I (f b)) : Keeps I (m >>= f) :=
  hm.bind fun b => Triple.of_fact (hf b)

theorem read_bind {β : Type} {g : σ → β} {f : β → Prog σ α} {p : β → Prop} (hg : ∀ s, I s → p (g s))
    (hf : ∀ b, p b → Keeps I (f b)) : Keeps I (Prog.read g >>= f) :=
  bind_of (fun s hs => ⟨hs, hg s hs⟩) hf

theorem when {c : Prop} [Decidable c] (h : c → Keeps I m) : Keeps I (Prog.when c m) :=
  Triple.ite h fun _ => Keeps.pure

theorem each {l : List α} (h : ∀ a ∈ l, Keeps I (f a)) : Keeps I (Prog.each f l) := by
  induction l with
  | nil => exact Keeps.pure
  | cons a l ih =>
      refine (h a List.mem_cons_self).bind fun _ => ih ?_
      intro b hb
      exact h b (List.mem_cons_of_mem a hb)

end Keeps

/-- From every state the result of the program satisfies `P`. -/
def Yields {σ α : Type} (m : Prog σ α) (P : α → Prop) : Prop := ∀ s, P (m s).1

namespace Yields

variable {σ α β : Type} {m m' : Prog σ α} {f : α → Prog σ β} {P P' : α → Prop} {R : β → Prop}

theorem pure {a : α} (h : P a) : Yields (Pure.pure a : Prog σ α) P := fun _ => h

theorem bind (hm : Yields m P) (hf : ∀ a, P a → Yields (f a) R) : Yields (m >>= f) R :=
  fun s => hf _ (hm s) (m s).2

/-- A step that says nothing about its result. -/
theorem after (hf : ∀ a, Yields (f a) R) : Yields (m >>= f) R := fun s => hf _ (m s).2

theorem mono (h : Yields m P) (hP : ∀ a, P a → P' a) : Yields m P' := fun s => hP _ (h s)

theorem ite {c : Prop} [Decidable c] (ht : c → Yields m P) (he : ¬ c → Yields m' P) : Yields (if c then m else m') P := by
  by_cases h : c
  · rw [if_pos h]
    exact ht h
  · rw [if_neg h]
    exact he h

end Yields

/-- A fact about the result that holds from every state. -/
theorem Triple.yields {σ α : Type} {m : Prog σ α} {P : σ → Prop} {Q : α → σ → Prop} {R : α → Prop} (h : Triple P m Q)
    (hy : Yields m R) : Triple P m fun a s => Q a s ∧ R a :=
  fun s hs => ⟨h s hs, hy s⟩

end OrkDriver.Lib
