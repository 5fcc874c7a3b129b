import Mathlib.Algebra.BigOperators.Group.Finset.Basic
import Mathlib.Data.List.Basic
import Mathlib.Data.List.Perm.Basic
import Mathlib.Data.List.Range
import OrkDriver.Lib.Cut

/-!
Which iterations of a loop nest touch one cell, and what they leave in it.
-/

namespace OrkDriver.Lib

variable {α β γ : Type*}

/-- A loop that does something in one of its iterations only. -/
theorem flatMap_range_of_unique {n a : Nat} {f : Nat → List α} (ha : a < n) (h : ∀ i, i < n → i ≠ a → f i = []) :
    (List.range n).flatMap f = f a := by
  induction n with
  | zero => exact absurd ha (Nat.not_lt_zero a)
  | succ n ih =>
      rw [List.range_succ, List.flatMap_append, List.flatMap_cons, List.flatMap_nil, List.append_nil]
      rcases Nat.lt_succ_iff_lt_or_eq.mp ha with hlt | rfl
      · rw [ih hlt fun i hi hne => h i (Nat.lt_succ_of_lt hi) hne, h n (Nat.lt_succ_self n) (Nat.ne_of_gt hlt),
          List.append_nil]
      · have hnil : (List.range a).flatMap f = [] :=
          List.flatMap_eq_nil_iff.mpr fun i hi =>
            h i (Nat.lt_succ_of_lt (List.mem_range.mp hi)) (Nat.ne_of_lt (List.mem_range.mp hi))
        rw [hnil, List.nil_append]

theorem filter_range_of_unique {n a : Nat} {p : Nat → Bool} (ha : a < n) (hp : p a = true)
    (h : ∀ i, i < n → p i = true → i = a) : (List.range n).filter p = [a] := by
  have hfilter : (List.range n).filter p = (List.range n).flatMap fun i => if p i then [i] else [] := by
    induction List.range n with
    | nil => rfl
    | cons i l ih => by_cases hi : p i <;> simp [hi, ih]
  rw [hfilter, flatMap_range_of_unique ha]
  · rw [if_pos hp]
  · intro i hi hne
    exact if_neg fun hpi => hne (h i hi hpi)

/-- Of the pieces of a cut, one contains a given point. -/
theorem filter_pieces {n size x : Nat} (h : 0 < size) (hx : x < n) :
    (List.range (pieces n size)).filter
      (fun i => decide (i * size ≤ x ∧ x < i * size + pieceLen n size i)) = [x / size] := by
  refine filter_range_of_unique (div_lt_pieces h hx) (decide_eq_true ((mem_piece_iff h hx).mpr rfl)) fun i _ hp => ?_
  exact (mem_piece_iff h hx).mp (of_decide_eq_true hp)

/-- The iterations before `i`, `i`, and those behind it. -/
theorem range'_split {a n i : Nat} (h : a ≤ i) (hi : i < a + n) :
    List.range' a n = List.range' a (i - a) ++ i :: List.range' (i + 1) (a + n - (i + 1)) := by
  have hn : n = (i - a) + (a + n - (i + 1) + 1) := by omega
  conv_lhs => rw [hn]
  rw [← List.range'_append_1, List.range'_succ, Nat.add_sub_cancel' h]

theorem range_split {j i : Nat} (h : j < i) : List.range i = List.range j ++ j :: List.range' (j + 1) (i - (j + 1)) := by
  have hsplit := @range'_split 0 i j (Nat.zero_le j) (by omega)
  rwa [Nat.sub_zero, Nat.zero_add, ← List.range_eq_range', ← List.range_eq_range'] at hsplit

/-- Blocks of `s`, and the rest one by one. -/
theorem flatMap_blocks (f : Nat → List α) (a s n : Nat) :
    ((List.range (n / s)).flatMap fun b => (List.range' (a + s * b) s).flatMap f) ++
      (List.range' (a + s * (n / s)) (n - s * (n / s))).flatMap f = (List.range' a n).flatMap f := by
  have hblocks : ∀ q, ((List.range q).flatMap fun b => (List.range' (a + s * b) s).flatMap f) =
      (List.range' a (s * q)).flatMap f := by
    intro q
    induction q with
    | zero => rfl
    | succ q ih =>
        rw [List.range_succ, List.flatMap_append, ih, List.flatMap_singleton, Nat.mul_succ, ← List.range'_append_1,
          List.flatMap_append]
  rw [hblocks, ← List.flatMap_append, List.range'_append_1, Nat.add_sub_cancel' (Nat.mul_div_le n s)]

/-- Two loops in the other order visit the same. -/
theorem flatMap_flatMap_perm (l : List α) (m : List β) (f : α → β → List γ) :
    (l.flatMap fun x => m.flatMap (f x)).Perm (m.flatMap fun y => l.flatMap fun x => f x y) := by
  induction l with
  | nil => simp
  | cons a l ih =>
      rw [List.flatMap_cons]
      apply (ih.append_left _).trans
      exact List.flatMap_append_perm m (f a) fun y => l.flatMap fun x => f x y

/-- A loop nest as one loop over the pairs. -/
theorem flatMap_range_map (f : Nat → Nat → α) (a b : Nat) :
    ((List.range a).flatMap fun i => (List.range b).map (f i)) = (List.range (a * b)).map fun x => f (x / b) (x % b) := by
  induction a with
  | zero => rw [Nat.zero_mul, List.range_zero, List.flatMap_nil, List.map_nil]
  | succ a ih =>
      rw [List.range_succ, List.flatMap_append, ih, List.flatMap_singleton, Nat.succ_mul, List.range_add, List.map_append,
        List.map_map]
      congr 1
      apply List.map_congr_left
      intro j hj
      obtain ⟨hdiv, hmod⟩ := digits_div_mod (List.mem_range.mp hj) a
      rw [Function.comp_apply, hdiv, hmod]

/-- Steps that either leave what is read of a state alone or act on it: what a run leaves there is decided by the steps
that touch it. -/
theorem foldl_cell (read : α → β) {f : α → γ → α} {g : γ → β → β} {t : γ → Bool} {l : List γ}
    (hin : ∀ s ∈ l, t s = true → ∀ m, read (f m s) = g s (read m))
    (hout : ∀ s ∈ l, t s = false → ∀ m, read (f m s) = read m) (m : α) :
    read (l.foldl f m) = (l.filter t).foldl (fun v s => g s v) (read m) := by
  induction l generalizing m with
  | nil => rfl
  | cons s l ih =>
      have hrest := ih (fun u hu => hin u (List.mem_cons_of_mem s hu)) (fun u hu => hout u (List.mem_cons_of_mem s hu))
      rw [List.foldl_cons, hrest]
      cases ht : t s with
      | true => rw [List.filter_cons_of_pos ht, List.foldl_cons, hin s List.mem_cons_self ht]
      | false => rw [List.filter_cons_of_neg (by rw [ht]; exact Bool.false_ne_true), hout s List.mem_cons_self ht]

theorem foldl_frame (read : α → β) {f : α → γ → α} {l : List γ} (h : ∀ s ∈ l, ∀ m, read (f m s) = read m) (m : α) :
    read (l.foldl f m) = read m := by
  induction l generalizing m with
  | nil => rfl
  | cons s l ih => rw [List.foldl_cons, ih fun u hu => h u (List.mem_cons_of_mem s hu), h s List.mem_cons_self]

/-- A loop in which the steps that touch a place all leave the same there, and one of them runs. -/
theorem foldl_of_mem (read : α → β) {f : α → γ → α} {l : List γ} {T : γ → Prop} {v : β} (hmem : ∃ s ∈ l, T s)
    (hin : ∀ s ∈ l, T s → ∀ m, read (f m s) = v) (hout : ∀ s ∈ l, ¬ T s → ∀ m, read (f m s) = read m) (m : α) :
    read (l.foldl f m) = v := by
  induction l using List.reverseRecOn with
  | nil =>
      obtain ⟨s, hs, -⟩ := hmem
      cases hs
  | append_singleton l s ih =>
      rw [List.foldl_append, List.foldl_cons, List.foldl_nil]
      have hlast : s ∈ l ++ [s] := List.mem_append_right l List.mem_cons_self
      by_cases ht : T s
      · exact hin s hlast ht _
      · rw [hout s hlast ht]
        refine ih ?_ (fun u hu => hin u (List.mem_append_left _ hu)) fun u hu => hout u (List.mem_append_left _ hu)
        obtain ⟨u, hu, hut⟩ := hmem
        rcases List.mem_append.mp hu with hu | hu
        · exact ⟨u, hu, hut⟩
        · obtain rfl := List.mem_singleton.mp hu
          exact absurd hut ht

/-- A loop of which one step only acts on what is read. -/
theorem foldl_once (read : α → β) {f : α → γ → α} {g : β → β} {l : List γ} {s : γ} (hnd : l.Nodup) (hs : s ∈ l)
    (hin : ∀ m, read (f m s) = g (read m)) (hout : ∀ u ∈ l, u ≠ s → ∀ m, read (f m u) = read m) (m : α) :
    read (l.foldl f m) = g (read m) := by
  obtain ⟨pre, post, rfl⟩ := List.append_of_mem hs
  obtain ⟨-, hpost, hne⟩ := List.nodup_append.mp hnd
  rw [List.foldl_append, List.foldl_cons, foldl_frame read fun u hu => hout u (by simp [hu]) ?_, hin,
    foldl_frame read fun u hu => hout u (by simp [hu]) ?_]
  · exact hne u hu s List.mem_cons_self
  · rintro rfl
    exact (List.nodup_cons.mp hpost).1 hu

/-- A loop with a step that establishes `P` and others that keep it. -/
theorem foldl_establishes {P : α → Prop} {f : α → γ → α} {l : List γ} {s : γ} (hs : s ∈ l) (hset : ∀ m, P (f m s))
    (hkeep : ∀ u ∈ l, u ≠ s → ∀ m, P m → P (f m u)) (m : α) : P (l.foldl f m) := by
  induction l using List.reverseRecOn with
  | nil => cases hs
  | append_singleton l u ih =>
      rw [List.foldl_append, List.foldl_cons, List.foldl_nil]
      by_cases hu : u = s
      · exact hu ▸ hset _
      · refine hkeep u (List.mem_append_right l List.mem_cons_self) hu _ (ih ?_ fun v hv => hkeep v (List.mem_append_left _ hv))
        rcases List.mem_append.mp hs with hs | hs
        · exact hs
        · exact absurd (List.mem_singleton.mp hs).symm hu

/-- A loop whose step `i` establishes `P i`, unless `P i` held from the start, and whose other steps keep it. -/
theorem foldl_range_all {P : Nat → α → Prop} {f : α → Nat → α} {n : Nat} {m : α}
    (hset : ∀ i < n, (P i m ∧ ∀ m, P i m → P i (f m i)) ∨ ∀ m, P i (f m i))
    (hkeep : ∀ i < n, ∀ j < n, i ≠ j → ∀ m, P i m → P i (f m j)) : ∀ i < n, P i ((List.range n).foldl f m) := by
  intro i hi
  have hprefix : ∀ k ≤ n, (i < k ∨ P i m) → P i ((List.range k).foldl f m) := by
    intro k hk hor
    induction k with
    | zero =>
        rcases hor with h | h
        · exact absurd h (Nat.not_lt_zero i)
        · exact h
    | succ k ih =>
        rw [List.range_succ, List.foldl_append, List.foldl_cons, List.foldl_nil]
        rcases Nat.lt_trichotomy i k with hlt | rfl | hgt
        · exact hkeep i hi k hk (Nat.ne_of_lt hlt) _ (ih (Nat.le_of_succ_le hk) (Or.inl hlt))
        · rcases hset i hi with ⟨hm, hself⟩ | hself
          · exact hself _ (ih (Nat.le_of_succ_le hk) (Or.inr hm))
          · exact hself _
        · have hm : P i m := by
            rcases hor with h | h
            · omega
            · exact h
          exact hkeep i hi k hk (Nat.ne_of_gt hgt) _ (ih (Nat.le_of_succ_le hk) (Or.inr hm))
  exact hprefix n (Nat.le_refl n) (Or.inl hi)

/-- The first step of an accumulation stores, the others add. -/
theorem foldl_store_add {M : Type*} [AddCommMonoid M] (f : Nat → M) (n : Nat) (v : M) :
    (List.range n).foldl (fun v i => if i = 0 then f i else v + f i) v =
      if n = 0 then v else ∑ i ∈ Finset.range n, f i := by
  induction n with
  | zero => rfl
  | succ n ih =>
      rw [List.range_succ, List.foldl_append, ih, Finset.sum_range_succ, if_neg (Nat.succ_ne_zero n)]
      cases n <;> simp

/-- The state a loop ends in, at its end or at a return. -/
def outcome : Except α α → α
  | .ok a => a
  | .error a => a

@[simp] theorem outcome_ok (a : α) : outcome (.ok a) = a := rfl

@[simp] theorem outcome_error (a : α) : outcome (.error a) = a := rfl

/-- What every turn keeps holds wherever the loop ends. -/
theorem foldlM_outcome {P : α → Prop} {exec : α → γ → Except α α} {l : List γ}
    (hstep : ∀ s ∈ l, ∀ m, P m → P (outcome (exec m s))) {m : α} (h : P m) : P (outcome (l.foldlM exec m)) := by
  induction l generalizing m with
  | nil => exact h
  | cons s l ih =>
      have hs := hstep s List.mem_cons_self m h
      rw [List.foldlM_cons]
      cases hexec : exec m s with
      | error e =>
          rw [hexec] at hs
          exact hs
      | ok m' =>
          rw [hexec] at hs
          exact ih (fun u hu => hstep u (List.mem_cons_of_mem s hu)) hs

section

variable {ε : Type*} {exec : α → γ → Except ε α} {f : α → γ → α} {ok : γ → Bool} {l : List γ}

/-- A loop whose steps fail or not by themselves: it runs to its end exactly if no step fails. -/
theorem foldlM_eq_ok (hok : ∀ s ∈ l, ok s = true → ∀ m, exec m s = .ok (f m s))
    (hfail : ∀ s ∈ l, ok s = false → ∀ m, ∃ e, exec m s = .error e) {m m' : α} :
    l.foldlM exec m = .ok m' ↔ (∀ s ∈ l, ok s = true) ∧ l.foldl f m = m' := by
  induction l generalizing m with
  | nil =>
      rw [List.foldlM_nil, List.foldl_nil]
      constructor
      · intro h
        exact ⟨fun s hs => absurd hs List.not_mem_nil, Except.ok.inj h⟩
      · rintro ⟨-, rfl⟩
        rfl
  | cons s l ih =>
      have hrest := fun {m} => ih (m := m) (fun u hu => hok u (List.mem_cons_of_mem s hu))
        (fun u hu => hfail u (List.mem_cons_of_mem s hu))
      rw [List.foldlM_cons, List.foldl_cons, List.forall_mem_cons]
      cases hs : ok s with
      | true =>
          rw [hok s List.mem_cons_self hs]
          exact hrest.trans ⟨fun h => ⟨⟨rfl, h.1⟩, h.2⟩, fun h => ⟨h.1.2, h.2⟩⟩
      | false =>
          obtain ⟨e, he⟩ := hfail s List.mem_cons_self hs m
          rw [he]
          constructor
          · intro h
            cases h
          · rintro ⟨⟨hok, -⟩, -⟩
            cases hok

end

/-- A fold that returns has taken a step for every element. -/
theorem exists_step_of_foldlM {f : α → γ → Option α} {l : List γ} {s r : α} (h : l.foldlM f s = some r) {x : γ}
    (hx : x ∈ l) : ∃ d d', f d x = some d' := by
  induction l generalizing s with
  | nil => cases hx
  | cons y l ih =>
      rw [List.foldlM_cons] at h
      cases hy : f s y with
      | none =>
          rw [hy] at h
          cases h
      | some d =>
          rw [hy] at h
          rcases List.mem_cons.mp hx with rfl | hx
          · exact ⟨s, d, hy⟩
          · exact ih h hx

end OrkDriver.Lib
