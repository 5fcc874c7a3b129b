import Mathlib.Data.List.Induction
import Mathlib.Data.List.Nodup
import Mathlib.Logic.Function.Basic
import OrkDriver.Lib.Cut

/-!
Straight-line programs that assign to the cells of arrays: what a loop nest leaves behind, and which programs can be
interleaved.
-/

namespace OrkDriver.Lib

variable {ι α : Type*}

/-- `a[i] = v`, or a step that may fail and changes nothing. -/
inductive Assign (ι α : Type*)
  | set (a : ι) (i : Nat) (v : (ι → Nat → α) → α)
  | attempt

namespace Assign

/-- The step writes to cells of `P` only. -/
def WritesIn (P : ι → Nat → Prop) : Assign ι α → Prop
  | .set a i _ => P a i
  | .attempt => True

/-- What the step writes does not depend on the arrays of `V`. -/
def ReadsOff (V : ι → Prop) : Assign ι α → Prop
  | .set _ _ v => ∀ m m', (∀ b, ¬ V b → m b = m' b) → v m = v m'
  | .attempt => True

section

variable {m m' : ι → Nat → α} {l k : List (Assign ι α)} {s : Assign ι α} {a : ι} {i j n : Nat} {P Q : ι → Nat → Prop} {V W : ι → Prop}

theorem WritesIn.mono (hs : s.WritesIn P) (h : ∀ a i, P a i → Q a i) : s.WritesIn Q := by
  cases s with
  | attempt => trivial
  | set a i v => exact h a i hs

theorem ReadsOff.mono (hs : s.ReadsOff V) (h : ∀ a, W a → V a) : s.ReadsOff W := by
  cases s with
  | attempt => trivial
  | set a i v => exact fun m m' hm => hs m m' fun b hb => hm b fun hw => hb (h b hw)

/-! ### Interleaved programs -/

/-- Two programs interleaved: `true` lets the first take its next step. -/
def mix : List Bool → List (Assign ι α) → List (Assign ι α) → List (Assign ι α)
  | _, [], k => k
  | _, s :: l, [] => s :: l
  | [], s :: l, t :: k => s :: l ++ t :: k
  | true :: o, s :: l, t :: k => s :: mix o l (t :: k)
  | false :: o, s :: l, t :: k => t :: mix o (s :: l) k

theorem mem_mix {o : List Bool} (h : s ∈ mix o l k) : s ∈ l ∨ s ∈ k := by
  induction o generalizing l k with
  | nil =>
      cases l with
      | nil => exact .inr h
      | cons u l =>
          cases k with
          | nil => exact .inl h
          | cons w k => exact List.mem_append.mp h
  | cons d o ih =>
      cases l with
      | nil => exact .inr h
      | cons u l =>
          cases k with
          | nil => exact .inl h
          | cons w k =>
              cases d with
              | true =>
                  rcases List.mem_cons.mp h with rfl | h
                  · exact .inl List.mem_cons_self
                  · exact (ih h).imp_left (List.mem_cons_of_mem u)
              | false =>
                  rcases List.mem_cons.mp h with rfl | h
                  · exact .inr List.mem_cons_self
                  · exact (ih h).imp_right (List.mem_cons_of_mem w)

/-! ### Loops -/

/-- `for (i = 0; i < n; i++)`. -/
def times (n : Nat) (body : Nat → List (Assign ι α)) : List (Assign ι α) := (List.range n).flatMap body

theorem mem_times {body : Nat → List (Assign ι α)} : s ∈ times n body ↔ ∃ i < n, s ∈ body i :=
  List.mem_flatMap.trans (exists_congr fun _ => and_congr_left' List.mem_range)

theorem forall_mem_times {body : Nat → List (Assign ι α)} {p : Assign ι α → Prop}
    (h : ∀ i < n, ∀ s ∈ body i, p s) : ∀ s ∈ times n body, p s := by
  intro s hs
  obtain ⟨i, hi, hmem⟩ := mem_times.mp hs
  exact h i hi s hmem

theorem times_succ {body : Nat → List (Assign ι α)} : times (n + 1) body = times n body ++ body n := by
  simp [times, List.range_succ]

theorem times_add {body : Nat → List (Assign ι α)} {k : Nat} :
    times (n + k) body = times n body ++ times k fun j => body (n + j) := by
  simp [times, List.range_add, List.flatMap_map]

/-- Two loops as one. -/
theorem times_times {k : Nat} {f : Nat → Nat → List (Assign ι α)} :
    times n (fun i => times k (f i)) = times (n * k) fun x => f (x / k) (x % k) := by
  induction n with
  | zero => simp [times]
  | succ n ih =>
      rw [times_succ, ih, Nat.succ_mul, times_add]
      congr 1
      refine List.flatMap_congr fun j hj => ?_
      obtain ⟨hdiv, hmod⟩ := digits_div_mod (List.mem_range.mp hj) n
      rw [hdiv, hmod]

/-! ### Matrices in slots -/

/-- Slot `S` of `a` holds the matrix `f`, of `r` rows of `c`. -/
def Holds (m : ι → Nat → α) (a : ι) (S r c : Nat) (f : Nat → Nat → α) : Prop :=
  ∀ i < r, ∀ j < c, m a ((S * r + i) * c + j) = f i j

/-- The nest that fills slot `S` of some arrays with matrices of one shape. -/
def fill (S r c : Nat) (arms : List (ι × (Nat → Nat → (ι → Nat → α) → α))) : List (Assign ι α) :=
  times r fun i => times c fun j => arms.map fun p => .set p.1 ((S * r + i) * c + j) (p.2 i j)

/-- The cells of slot `S` of an array with slots of `r` rows of `c`. -/
def InSlot (S r c : Nat) (x : Nat) : Prop := ∃ i < r, ∃ j < c, x = (S * r + i) * c + j

theorem not_inSlot {S T r c i j : Nat} (h : S ≠ T) (hi : i < r) (hj : j < c) : ¬ InSlot T r c ((S * r + i) * c + j) := by
  rintro ⟨i', hi', j', hj', heq⟩
  exact h (digits_inj hi hi' (digits_inj hj hj' heq).1).1

theorem Holds.of_eq {S r c : Nat} {f : Nat → Nat → α} (h : Holds m a S r c f) (hm : m' a = m a) : Holds m' a S r c f := by
  intro i hi j hj
  rw [hm]
  exact h i hi j hj

theorem Holds.congr {S r c : Nat} {f g : Nat → Nat → α} (h : Holds m a S r c f)
    (hfg : ∀ i < r, ∀ j < c, f i j = g i j) : Holds m a S r c g := by
  intro i hi j hj
  rw [h i hi j hj, hfg i hi j hj]

theorem mem_fill {S r c : Nat} {arms : List (ι × (Nat → Nat → (ι → Nat → α) → α))} :
    s ∈ fill S r c arms ↔ ∃ i < r, ∃ j < c, ∃ p ∈ arms, s = .set p.1 ((S * r + i) * c + j) (p.2 i j) := by
  have harms : ∀ i j, s ∈ (arms.map fun p => .set p.1 ((S * r + i) * c + j) (p.2 i j)) ↔
      ∃ p ∈ arms, s = .set p.1 ((S * r + i) * c + j) (p.2 i j) := by
    intro i j
    exact List.mem_map.trans (exists_congr fun p => and_congr_right' eq_comm)
  refine mem_times.trans (exists_congr fun i => and_congr_right' ?_)
  exact mem_times.trans (exists_congr fun j => and_congr_right' (harms i j))

theorem fill_writes {S r c : Nat} {arms : List (ι × (Nat → Nat → (ι → Nat → α) → α))} :
    ∀ s ∈ fill S r c arms, WritesIn (fun b x => b ∈ arms.map Prod.fst ∧ InSlot S r c x) s := by
  intro s hs
  obtain ⟨i, hi, j, hj, p, hp, rfl⟩ := mem_fill.mp hs
  exact ⟨List.mem_map_of_mem hp, i, hi, j, hj, rfl⟩

theorem fill_readsOff {S r c : Nat} {arms : List (ι × (Nat → Nat → (ι → Nat → α) → α))}
    (h : ∀ p ∈ arms, ∀ i j m m', (∀ b, ¬ V b → m b = m' b) → p.2 i j m = p.2 i j m') :
    ∀ s ∈ fill S r c arms, ReadsOff V s := by
  intro s hs
  obtain ⟨i, -, j, -, p, hp, rfl⟩ := mem_fill.mp hs
  exact h p hp i j

end

variable [DecidableEq ι]

def exec (m : ι → Nat → α) : Assign ι α → ι → Nat → α
  | .set a i v => Function.update m a (Function.update (m a) i (v m))
  | .attempt => m

/-- What a program leaves when nothing fails. -/
def run (m : ι → Nat → α) (l : List (Assign ι α)) : ι → Nat → α := l.foldl exec m

/-- A program in which step `n` of those that may fail does so if `fails n`. -/
def perform (fails : Nat → Bool) : Nat → List (Assign ι α) → (ι → Nat → α) → Option (ι → Nat → α)
  | _, [], m => some m
  | n, .attempt :: l, m => if fails n then none else perform fails (n + 1) l m
  | n, .set a i v :: l, m => perform fails n l (exec m (.set a i v))

section

variable {m m' : ι → Nat → α} {l k : List (Assign ι α)} {s t : Assign ι α} {a b : ι} {i j n : Nat} {x : α}
  {P Q : ι → Nat → Prop} {V W : ι → Prop} {fails : Nat → Bool}

/-! ### Steps -/

@[simp] theorem exec_attempt : exec m .attempt = m := rfl

@[simp] theorem exec_set_self {v : (ι → Nat → α) → α} : exec m (.set a i v) a i = v m := by
  simp [exec]

theorem exec_of_notMem (hs : s.WritesIn P) (h : ¬ P a i) : exec m s a i = m a i := by
  cases s with
  | attempt => rfl
  | set b j v =>
      by_cases hb : a = b
      · subst hb
        have hij : i ≠ j := fun hij => h (hij ▸ hs)
        simp [exec, hij]
      · simp [exec, hb]

/-! ### Programs -/

@[simp] theorem run_nil : run m [] = m := rfl

@[simp] theorem run_cons : run m (s :: l) = run (exec m s) l := rfl

@[simp] theorem run_append : run m (l ++ k) = run (run m l) k := List.foldl_append

/-- A cell no step writes to keeps what it holds. -/
theorem run_of_notMem (hl : ∀ s ∈ l, WritesIn P s) (h : ¬ P a i) : run m l a i = m a i := by
  induction l generalizing m with
  | nil => rfl
  | cons s l ih =>
      rw [run_cons, ih fun t ht => hl t (List.mem_cons_of_mem s ht)]
      exact exec_of_notMem (hl s List.mem_cons_self) h

theorem run_array (hl : ∀ s ∈ l, WritesIn (fun b _ => W b) s) (h : ¬ W a) : run m l a = m a := by
  funext i
  exact run_of_notMem hl h

/-- A program that reads nothing it writes leaves in each cell the value of the steps that write there. -/
theorem run_of_mem (hw : ∀ s ∈ l, WritesIn (fun b _ => W b) s) (hr : ∀ s ∈ l, ReadsOff W s)
    (hmem : ∃ v, .set a i v ∈ l) (hall : ∀ v, .set a i v ∈ l → v m = x) : run m l a i = x := by
  induction l using List.reverseRecOn with
  | nil =>
      obtain ⟨v, hv⟩ := hmem
      cases hv
  | append_singleton l s ih =>
      have hw' := fun t ht => hw t (List.mem_append_left [s] ht)
      have hr' := fun t ht => hr t (List.mem_append_left [s] ht)
      have hs : s ∈ l ++ [s] := List.mem_append_right l List.mem_cons_self
      have hkeep : ∀ b, ¬ W b → run m l b = m b := fun b hb => run_array hw' hb
      have hlast : run m (l ++ [s]) a i = exec (run m l) s a i := by simp
      rw [hlast]
      by_cases hsi : ∃ v, s = .set a i v
      · obtain ⟨v, rfl⟩ := hsi
        rw [exec_set_self, hr _ hs _ _ hkeep]
        exact hall v hs
      · have hne : s.WritesIn fun b j => ¬ (b = a ∧ j = i) := by
          cases s with
          | attempt => trivial
          | set b j v =>
              rintro ⟨rfl, rfl⟩
              exact hsi ⟨v, rfl⟩
        rw [exec_of_notMem hne (not_not.mpr ⟨rfl, rfl⟩)]
        refine ih hw' hr' ?_ fun v hv => hall v (List.mem_append_left _ hv)
        obtain ⟨v, hv⟩ := hmem
        rcases List.mem_append.mp hv with hv | hv
        · exact ⟨v, hv⟩
        · exact absurd ⟨v, (List.mem_singleton.mp hv).symm⟩ hsi

theorem perform_eq_some (h : perform fails n l m = some m') : m' = run m l := by
  induction l generalizing m n with
  | nil => exact (Option.some.inj h).symm
  | cons s l ih =>
      cases s with
      | set a i v => exact ih h
      | attempt =>
          rw [perform] at h
          split at h
          · cases h
          · exact ih h

theorem perform_of_quiet (h : ∀ n, fails n = false) : perform fails n l m = some (run m l) := by
  induction l generalizing m n with
  | nil => rfl
  | cons s l ih =>
      cases s with
      | set a i v => exact ih
      | attempt =>
          rw [perform, if_neg (ne_true_of_eq_false (h n))]
          exact ih

/-! ### Interleaving -/

/-- Two steps that write to different arrays and read nothing of each other's. -/
theorem exec_comm (hs : s.WritesIn fun b _ => W b) (hsr : s.ReadsOff V) (ht : t.WritesIn fun b _ => V b)
    (htr : t.ReadsOff W) (hd : ∀ b, W b → ¬ V b) : exec (exec m s) t = exec (exec m t) s := by
  cases s with
  | attempt => rfl
  | set a i v =>
      cases t with
      | attempt => rfl
      | set b j w =>
          have hab : a ≠ b := fun h => hd a hs (h ▸ ht)
          have hv : v (exec m (.set b j w)) = v m :=
            hsr _ _ fun c hc => funext fun p => exec_of_notMem ht hc
          have hw : w (exec m (.set a i v)) = w m :=
            htr _ _ fun c hc => funext fun p => exec_of_notMem hs hc
          have hleft : exec (exec m (.set a i v)) (.set b j w) =
              Function.update (exec m (.set a i v)) b (Function.update (m b) j (w m)) := by
            rw [exec, hw]
            simp [exec, hab.symm]
          have hright : exec (exec m (.set b j w)) (.set a i v) =
              Function.update (exec m (.set b j w)) a (Function.update (m a) i (v m)) := by
            rw [exec, hv]
            simp [exec, hab]
          rw [hleft, hright, exec, exec, Function.update_comm hab]

theorem run_comm_step (hl : ∀ s ∈ l, WritesIn (fun b _ => W b) s ∧ ReadsOff V s) (ht : t.WritesIn fun b _ => V b)
    (htr : t.ReadsOff W) (hd : ∀ b, W b → ¬ V b) : run (exec m t) l = exec (run m l) t := by
  induction l generalizing m with
  | nil => rfl
  | cons s l ih =>
      obtain ⟨hs, hsr⟩ := hl s List.mem_cons_self
      rw [run_cons, run_cons, ← exec_comm hs hsr ht htr hd, ih fun u hu => hl u (List.mem_cons_of_mem s hu)]

/-- However two such programs are interleaved, they leave what they leave one after the other. -/
theorem run_mix (hl : ∀ s ∈ l, WritesIn (fun b _ => W b) s ∧ ReadsOff V s)
    (hk : ∀ s ∈ k, WritesIn (fun b _ => V b) s ∧ ReadsOff W s) (hd : ∀ b, W b → ¬ V b) (o : List Bool) :
    run m (mix o l k) = run (run m l) k := by
  induction o generalizing m l k with
  | nil =>
      cases l with
      | nil => rfl
      | cons s l =>
          cases k with
          | nil => rfl
          | cons t k => simp [mix]
  | cons d o ih =>
      cases l with
      | nil => rfl
      | cons s l =>
          cases k with
          | nil => rfl
          | cons t k =>
              cases d with
              | true => exact ih (fun u hu => hl u (List.mem_cons_of_mem s hu)) hk
              | false =>
                  obtain ⟨ht, htr⟩ := hk t List.mem_cons_self
                  have hrest := ih (m := exec m t) hl fun u hu => hk u (List.mem_cons_of_mem t hu)
                  have hcomm : run (exec m t) (s :: l) = exec (run m (s :: l)) t := run_comm_step hl ht htr hd
                  rw [hcomm] at hrest
                  exact hrest

/-! ### Runs of loops -/

/-- What holds before a loop and is carried on by every turn holds after it. -/
theorem run_times {body : Nat → List (Assign ι α)} (I : Nat → (ι → Nat → α) → Prop) (h0 : I 0 m)
    (hstep : ∀ i < n, ∀ m, I i m → I (i + 1) (run m (body i))) : I n (run m (times n body)) := by
  induction n with
  | zero => exact h0
  | succ n ih =>
      rw [times_succ, run_append]
      exact hstep n (Nat.lt_succ_self n) _ (ih fun i hi => hstep i (Nat.lt_succ_of_lt hi))

/-- Turns that do not disturb each other: each establishes `Q` of its own. -/
theorem run_times_each {body : Nat → List (Assign ι α)} (P Q : Nat → (ι → Nat → α) → Prop) (h0 : ∀ i < n, P i m)
    (hstep : ∀ i < n, ∀ m, P i m → Q i (run m (body i)))
    (hP : ∀ i < n, ∀ j < n, i ≠ j → ∀ m, P i m → P i (run m (body j)))
    (hQ : ∀ i < n, ∀ j < n, i ≠ j → ∀ m, Q i m → Q i (run m (body j))) :
    ∀ i < n, Q i (run m (times n body)) := by
  -- the turns still to come have their premise, those done their conclusion
  have hinv : (∀ i < n, n ≤ i → P i (run m (times n body))) ∧ ∀ i < n, i < n → Q i (run m (times n body)) := by
    refine run_times (fun t m => (∀ i < n, t ≤ i → P i m) ∧ ∀ i < n, i < t → Q i m) ?_ ?_
    · exact ⟨fun i hi _ => h0 i hi, fun i _ hlt => absurd hlt (Nat.not_lt_zero i)⟩
    · rintro t ht m ⟨hleft, hdone⟩
      constructor
      · intro i hi hti
        exact hP i hi t ht (Nat.ne_of_gt hti) m (hleft i hi (Nat.le_of_succ_le hti))
      · intro i hi hit
        rcases Nat.lt_succ_iff_lt_or_eq.mp hit with hlt | rfl
        · exact hQ i hi t ht (Nat.ne_of_lt hlt) m (hdone i hi hlt)
        · exact hstep i hi m (hleft i hi (Nat.le_refl i))
  exact fun i hi => hinv.2 i hi hi

/-- A program that writes to other arrays or other slots. -/
theorem Holds.run {S r c : Nat} {f : Nat → Nat → α} (h : Holds m a S r c f) (hl : ∀ s ∈ l, WritesIn P s)
    (hP : ∀ x, InSlot S r c x → ¬ P a x) : Holds (run m l) a S r c f := by
  intro i hi j hj
  rw [run_of_notMem hl (hP _ ⟨i, hi, j, hj, rfl⟩)]
  exact h i hi j hj

/-- A nest that reads nothing it fills. -/
theorem holds_fill {S r c : Nat} {arms : List (ι × (Nat → Nat → (ι → Nat → α) → α))} {v : Nat → Nat → (ι → Nat → α) → α}
    (hnd : (arms.map Prod.fst).Nodup)
    (hr : ∀ p ∈ arms, ∀ i j m m', (∀ b, b ∉ arms.map Prod.fst → m b = m' b) → p.2 i j m = p.2 i j m')
    (hv : (a, v) ∈ arms) : Holds (run m (fill S r c arms)) a S r c fun i j => v i j m := by
  intro i hi j hj
  refine run_of_mem (W := fun b => b ∈ arms.map Prod.fst) ?_ ?_ ?_ ?_
  · exact fun s hs => (fill_writes s hs).mono fun _ _ h => h.1
  · intro s hs
    obtain ⟨i', -, j', -, p, hp, rfl⟩ := mem_fill.mp hs
    exact hr p hp i' j'
  · exact ⟨v i j, mem_fill.mpr ⟨i, hi, j, hj, (a, v), hv, rfl⟩⟩
  · intro w hw
    obtain ⟨i', hi', j', hj', ⟨b, u⟩, hp, heq⟩ := mem_fill.mp hw
    injection heq with hab hidx hwu
    dsimp only at hab hwu
    subst hab
    obtain ⟨hrow, rfl⟩ := digits_inj hj hj' hidx
    obtain ⟨-, rfl⟩ := digits_inj hi hi' hrow
    have huv : u = v := by
      have hinj := List.inj_on_of_nodup_map hnd hp hv rfl
      exact congrArg Prod.snd hinj
    rw [hwu, huv]

end

end Assign

end OrkDriver.Lib
