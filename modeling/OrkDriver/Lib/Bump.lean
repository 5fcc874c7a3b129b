import Mathlib.Data.List.Pairwise
import Mathlib.Logic.Function.Basic
import OrkDriver.Lib.Records

/-!
Bump allocation: several pointers, each into a chunk of its own that it fills from the start. The views handed out are
disjoint, aligned and inside their chunks, whatever the order of the requests.
-/

namespace OrkDriver.Lib

/-- A range of a chunk. -/
structure View where
  chunk : Nat
  base : Nat
  len : Nat
  deriving DecidableEq

/-- Ranges of different chunks, or disjoint ranges of one. -/
def View.Apart (u v : View) : Prop := u.chunk = v.chunk → u.base + u.len ≤ v.base ∨ v.base + v.len ≤ u.base

/-- The sizes of the chunks made so far, the chunk that a pointer is in, how much of it is used, and the views. -/
structure Bump (ι : Type*) where
  sizes : List Nat
  cur : ι → Option Nat
  off : ι → Nat
  views : List View

namespace Bump

variable {ι : Type*}

def empty : Bump ι := { sizes := [], cur := fun _ => none, off := fun _ => 0, views := [] }

section
variable [DecidableEq ι]

/-- Pointer `i` starts a new chunk. -/
def openChunk (b : Bump ι) (i : ι) (size : Nat) : Bump ι :=
  { sizes := b.sizes ++ [size], cur := Function.update b.cur i (some b.sizes.length), off := Function.update b.off i 0,
    views := b.views }

/-- A view of `len` bytes at pointer `i`, which moves by `room`. -/
def take (b : Bump ι) (i : ι) (k len room : Nat) : Bump ι :=
  { b with off := Function.update b.off i (b.off i + room), views := b.views ++ [⟨k, b.off i, len⟩] }

/-- Several views in a row, each of its own length. -/
def takeAll (b : Bump ι) (i : ι) (k : Nat) (lens : List Nat) : Bump ι := lens.foldl (fun b len => b.take i k len len) b

end

structure Ok (page : Nat) (b : Bump ι) : Prop where
  cur_inj : ∀ i j k, b.cur i = some k → b.cur j = some k → i = j
  off_le : ∀ i k, b.cur i = some k → ∃ s, b.sizes[k]? = some s ∧ b.off i ≤ s
  aligned : ∀ i, page ∣ b.off i
  inside : ∀ v ∈ b.views, ∃ s, b.sizes[v.chunk]? = some s ∧ v.base + v.len ≤ s
  below : ∀ v ∈ b.views, ∀ i, b.cur i = some v.chunk → v.base + v.len ≤ b.off i
  views_aligned : ∀ v ∈ b.views, page ∣ v.base
  apart : b.views.Pairwise View.Apart

variable {page : Nat} {b : Bump ι} {i : ι}

theorem ok_empty : (empty : Bump ι).Ok page where
  cur_inj := nofun
  off_le := nofun
  aligned := fun _ => Nat.dvd_zero page
  inside := nofun
  below := nofun
  views_aligned := nofun
  apart := List.Pairwise.nil

variable [DecidableEq ι]

@[simp] theorem openChunk_cur (b : Bump ι) (i : ι) (size : Nat) : (b.openChunk i size).cur i = some b.sizes.length :=
  Function.update_self ..

@[simp] theorem openChunk_off (b : Bump ι) (i : ι) (size : Nat) : (b.openChunk i size).off i = 0 :=
  Function.update_self ..

theorem openChunk_size (b : Bump ι) (i : ι) (size : Nat) : (b.openChunk i size).sizes[b.sizes.length]? = some size :=
  List.getElem?_concat_length

theorem Ok.openChunk (h : b.Ok page) (i : ι) (size : Nat) : (b.openChunk i size).Ok page := by
  have hold : ∀ {k s : Nat}, b.sizes[k]? = some s → (b.sizes ++ [size])[k]? = some s := fun hk =>
    (List.getElem?_append_left (List.getElem?_eq_some_iff.mp hk).1).trans hk
  have hne : ∀ {j : ι} {k : Nat}, b.cur j = some k → k ≠ b.sizes.length := by
    intro j k hj hk
    obtain ⟨s, hs, -⟩ := h.off_le j k hj
    exact Nat.ne_of_lt (List.getElem?_eq_some_iff.mp hs).1 hk
  constructor
  case cur_inj =>
    intro j j' k hj hj'
    simp only [Bump.openChunk, Function.update_apply] at hj hj'
    split_ifs at hj hj' with h₁ h₂ h₂
    · exact h₁.trans h₂.symm
    · exact absurd (Option.some.inj hj).symm (hne hj')
    · exact absurd (Option.some.inj hj').symm (hne hj)
    · exact h.cur_inj j j' k hj hj'
  case off_le =>
    intro j k hj
    simp only [Bump.openChunk, Function.update_apply] at hj ⊢
    split_ifs at hj ⊢
    · rw [← Option.some.inj hj]
      exact ⟨size, List.getElem?_concat_length, Nat.zero_le _⟩
    · obtain ⟨s, hs, hle⟩ := h.off_le j k hj
      exact ⟨s, hold hs, hle⟩
  case aligned =>
    intro j
    simp only [Bump.openChunk, Function.update_apply]
    split_ifs
    · exact Nat.dvd_zero page
    · exact h.aligned j
  case inside =>
    intro v hv
    obtain ⟨s, hs, hle⟩ := h.inside v hv
    exact ⟨s, hold hs, hle⟩
  case below =>
    intro v hv j hj
    simp only [Bump.openChunk, Function.update_apply] at hj ⊢
    split_ifs at hj ⊢
    · obtain ⟨s, hs, -⟩ := h.inside v hv
      exact absurd (Option.some.inj hj).symm (Nat.ne_of_lt (List.getElem?_eq_some_iff.mp hs).1)
    · exact h.below v hv j hj
  case views_aligned => exact h.views_aligned
  case apart => exact h.apart

theorem Ok.take (h : b.Ok page) {k len room s : Nat} (hk : b.cur i = some k) (hs : b.sizes[k]? = some s)
    (hlen : len ≤ room) (hroom : b.off i + room ≤ s) (hpage : page ∣ room) : (b.take i k len room).Ok page := by
  constructor
  case cur_inj => exact h.cur_inj
  case off_le =>
    intro j k' hj
    simp only [Bump.take, Function.update_apply]
    split_ifs with hji
    · subst hji
      have hkk : k = k' := Option.some.inj (hk.symm.trans hj)
      exact ⟨s, hkk ▸ hs, hroom⟩
    · exact h.off_le j k' hj
  case aligned =>
    intro j
    simp only [Bump.take, Function.update_apply]
    split_ifs
    · exact Nat.dvd_add (h.aligned i) hpage
    · exact h.aligned j
  case inside =>
    intro v hv
    rcases List.mem_append.mp hv with hv | hv
    · exact h.inside v hv
    · rw [List.mem_singleton.mp hv]
      exact ⟨s, hs, Nat.le_trans (Nat.add_le_add_left hlen _) hroom⟩
  case below =>
    intro v hv j hj
    simp only [Bump.take, Function.update_apply]
    rcases List.mem_append.mp hv with hv | hv
    · have hb := h.below v hv j hj
      split_ifs with hji
      · subst hji
        omega
      · exact hb
    · rw [List.mem_singleton.mp hv] at hj ⊢
      rw [if_pos (h.cur_inj j i k hj hk)]
      exact Nat.add_le_add_left hlen _
  case views_aligned =>
    intro v hv
    rcases List.mem_append.mp hv with hv | hv
    · exact h.views_aligned v hv
    · rw [List.mem_singleton.mp hv]
      exact h.aligned i
  case apart =>
    refine List.pairwise_append.mpr ⟨h.apart, List.pairwise_singleton _ _, fun u hu v hv hc => ?_⟩
    rw [List.mem_singleton.mp hv] at hc ⊢
    exact .inl (h.below u hu i (hk.trans (congrArg some hc.symm)))

theorem takeAll_cur (b : Bump ι) (i : ι) (k : Nat) (lens : List Nat) : (b.takeAll i k lens).cur = b.cur := by
  unfold takeAll
  induction lens generalizing b with
  | nil => rfl
  | cons len lens ih => exact ih _

theorem takeAll_sizes (b : Bump ι) (i : ι) (k : Nat) (lens : List Nat) : (b.takeAll i k lens).sizes = b.sizes := by
  unfold takeAll
  induction lens generalizing b with
  | nil => rfl
  | cons len lens ih => exact ih _

theorem takeAll_off (b : Bump ι) (i : ι) (k : Nat) (lens : List Nat) :
    (b.takeAll i k lens).off = Function.update b.off i (b.off i + lens.sum) := by
  unfold takeAll
  induction lens generalizing b with
  | nil => simp
  | cons len lens ih =>
    rw [List.foldl_cons, ih, List.sum_cons]
    simp [take, Nat.add_assoc]

theorem takeAll_views {α : Type*} (b : Bump ι) (i : ι) (k : Nat) (f : α → Nat) (ts : List α) :
    (b.takeAll i k (ts.map f)).views = b.views ++ (placed f (b.off i) ts).map fun p => ⟨k, p.1, f p.2⟩ := by
  unfold takeAll
  induction ts generalizing b with
  | nil => exact (List.append_nil _).symm
  | cons t ts ih =>
    rw [List.map_cons, List.foldl_cons, ih]
    simp [take, placed]

theorem Ok.takeAll (h : b.Ok page) {k s : Nat} {lens : List Nat} (hk : b.cur i = some k) (hs : b.sizes[k]? = some s)
    (hroom : b.off i + lens.sum ≤ s) (hpage : ∀ len ∈ lens, page ∣ len) : (b.takeAll i k lens).Ok page := by
  unfold Bump.takeAll
  induction lens generalizing b with
  | nil => exact h
  | cons len lens ih =>
    rw [List.sum_cons] at hroom
    refine ih (h.take hk hs (Nat.le_refl len) (by omega) (hpage len List.mem_cons_self)) hk hs ?_
      fun l hl => hpage l (List.mem_cons_of_mem _ hl)
    simp only [Bump.take, Function.update_self]
    omega

end Bump

end OrkDriver.Lib
