import Mathlib.Data.List.Forall2
import OrkDriver.Lib.Cut
import OrkDriver.Lib.Stores

/-!
Records of different sizes laid one after another: where each of them lies, and loops that write or read them in turn.
-/

namespace OrkDriver.Lib

variable {α β σ : Type*} (size : α → Nat)

/-- The length of all records. -/
def total (ts : List α) : Nat := (ts.map size).sum

/-- The records with their places, the first of them at `off`. -/
def placed : Nat → List α → List (Nat × α)
  | _, [] => []
  | off, t :: ts => (off, t) :: placed (off + size t) ts

/-- A loop over records, each with its place, that stops where one would end behind `cap`. -/
def walkRecords (cap : Nat) (step : Nat → α → σ → σ) : List α → Nat → σ → Option (Nat × σ)
  | [], off, s => some (off, s)
  | t :: ts, off, s => if cap < off + size t then none else walkRecords cap step ts (off + size t) (step off t s)

variable {size}

@[simp] theorem total_nil : total size [] = 0 := rfl

@[simp] theorem total_cons (t : α) (ts : List α) : total size (t :: ts) = size t + total size ts := rfl

theorem total_append (ts us : List α) : total size (ts ++ us) = total size ts + total size us := by
  unfold total
  rw [List.map_append, List.sum_append]

theorem placed_append (off : Nat) (ts us : List α) :
    placed size off (ts ++ us) = placed size off ts ++ placed size (off + total size ts) us := by
  induction ts generalizing off with
  | nil => rfl
  | cons t ts ih =>
      rw [List.cons_append, placed, placed, ih, total_cons, Nat.add_assoc]
      rfl

theorem placed_map (off : Nat) (f : Nat → α) (m : Nat) : placed size off ((List.range m).map f) =
    (List.range m).map fun i => (off + total size ((List.range i).map f), f i) := by
  induction m with
  | zero => rfl
  | succ m ih =>
      rw [List.range_succ, List.map_append, List.map_append, placed_append, ih]
      rfl

theorem placed_flatMap (off : Nat) (g : Nat → List α) (m : Nat) : placed size off ((List.range m).flatMap g) =
    (List.range m).flatMap fun i => placed size (off + total size ((List.range i).flatMap g)) (g i) := by
  induction m with
  | zero => rfl
  | succ m ih =>
      rw [List.range_succ, List.flatMap_append, List.flatMap_append, placed_append, ih, List.flatMap_singleton,
        List.flatMap_singleton]

theorem bounds_of_mem_placed {off o : Nat} {t : α} {ts : List α} (h : (o, t) ∈ placed size off ts) :
    off ≤ o ∧ o + size t ≤ off + total size ts := by
  induction ts generalizing off with
  | nil => cases h
  | cons u ts ih =>
      rw [total_cons]
      rcases List.mem_cons.mp h with heq | h
      · cases heq
        omega
      · have := ih h
        omega

theorem mem_of_mem_placed {off o : Nat} {t : α} {ts : List α} (h : (o, t) ∈ placed size off ts) : t ∈ ts := by
  induction ts generalizing off with
  | nil => cases h
  | cons u ts ih =>
      rcases List.mem_cons.mp h with heq | h
      · cases heq
        exact List.mem_cons_self
      · exact List.mem_cons_of_mem _ (ih h)

variable (size) in
theorem exists_mem_placed {t : α} {ts : List α} (h : t ∈ ts) (off : Nat) : ∃ o, (o, t) ∈ placed size off ts := by
  induction ts generalizing off with
  | nil => cases h
  | cons u ts ih =>
      rcases List.mem_cons.mp h with rfl | h
      · exact ⟨off, List.mem_cons_self⟩
      · obtain ⟨o, ho⟩ := ih h (off + size u)
        exact ⟨o, List.mem_cons_of_mem _ ho⟩

variable (size) in
theorem placed_add (a b : Nat) (ts : List α) : placed size (a + b) ts = (placed size b ts).map fun p => (a + p.1, p.2) := by
  induction ts generalizing b with
  | nil => rfl
  | cons t ts ih =>
      rw [placed, placed, Nat.add_assoc, ih]
      rfl

variable (size) in
theorem map_snd_placed (off : Nat) (ts : List α) : (placed size off ts).map Prod.snd = ts := by
  induction ts generalizing off with
  | nil => rfl
  | cons t ts ih => exact congrArg (t :: ·) (ih _)

/-- No record reaches into a later one. -/
theorem pairwise_placed (off : Nat) (ts : List α) : (placed size off ts).Pairwise fun p q => p.1 + size p.2 ≤ q.1 := by
  induction ts generalizing off with
  | nil => exact .nil
  | cons t ts ih => exact .cons (fun q hq => (bounds_of_mem_placed hq).1) (ih _)

/-- Every byte of the records lies in one of them. -/
theorem exists_placed {off p : Nat} {ts : List α} (h0 : off ≤ p) (h : p < off + total size ts) :
    ∃ o t, (o, t) ∈ placed size off ts ∧ o ≤ p ∧ p < o + size t := by
  induction ts generalizing off with
  | nil =>
      rw [total_nil] at h
      omega
  | cons t ts ih =>
      rw [total_cons] at h
      by_cases hp : p < off + size t
      · exact ⟨off, t, List.mem_cons_self, h0, hp⟩
      · obtain ⟨o, u, hmem, hu⟩ := @ih (off + size t) (by omega) (by omega)
        exact ⟨o, u, List.mem_cons_of_mem _ hmem, hu⟩

/-! ### Loops -/

/-- The loop runs to the end exactly if all records fit. -/
theorem walkRecords_eq {cap off : Nat} (step : Nat → α → σ → σ) (ts : List α) (s : σ) (h : off ≤ cap) :
    walkRecords size cap step ts off s =
      if off + total size ts ≤ cap then some (off + total size ts, (placed size off ts).foldl (fun s p => step p.1 p.2 s) s)
      else none := by
  induction ts generalizing off s with
  | nil => exact (if_pos h).symm
  | cons t ts ih =>
      unfold walkRecords
      rw [total_cons, ← Nat.add_assoc]
      split
      · rw [if_neg (by omega)]
      · rw [ih (step off t s) (by omega)]
        rfl

/-- A loop that writes `len t` bytes of each record at its place leaves all of them there, and everything else as it
was. -/
theorem foldl_placed {off : Nat} {ts : List α} {step : Nat → α → (Nat → β) → Nat → β} {len : α → Nat}
    {image : Nat → α → Nat → β} (hlen : ∀ t ∈ ts, len t ≤ size t)
    (hin : ∀ t ∈ ts, ∀ o m j, j < len t → step o t m (o + j) = image o t j)
    (hout : ∀ t ∈ ts, ∀ o m p, p < o ∨ o + size t ≤ p → step o t m p = m p) (m : Nat → β) :
    (∀ o t, (o, t) ∈ placed size off ts → ∀ j, j < len t →
      (placed size off ts).foldl (fun m p => step p.1 p.2 m) m (o + j) = image o t j) ∧
    ∀ p, p < off ∨ off + total size ts ≤ p → (placed size off ts).foldl (fun m p => step p.1 p.2 m) m p = m p := by
  induction ts generalizing off m with
  | nil => exact ⟨fun o t h => absurd h List.not_mem_nil, fun _ _ => rfl⟩
  | cons t ts ih =>
      obtain ⟨ih1, ih2⟩ := @ih (off + size t) (fun u hu => hlen u (List.mem_cons_of_mem _ hu))
        (fun u hu => hin u (List.mem_cons_of_mem _ hu)) (fun u hu => hout u (List.mem_cons_of_mem _ hu)) (step off t m)
      have ht : t ∈ t :: ts := List.mem_cons_self
      refine ⟨fun o u hmem j hj => ?_, fun p hp => ?_⟩
      · rcases List.mem_cons.mp hmem with heq | hmem
        · cases heq
          have hbefore : off + j < off + size t := Nat.add_lt_add_left (lt_of_lt_of_le hj (hlen t ht)) off
          exact (ih2 _ (.inl hbefore)).trans (hin t ht off m j hj)
        · exact ih1 o u hmem j hj
      · rw [total_cons] at hp
        exact (ih2 p (by omega)).trans (hout t ht off m p (by omega))

/-- A loop that stores what it finds in each record has made the stores of all of them. -/
theorem foldl_stores (off : Nat) (ts : List α) (l : Nat → α → List (Nat × β)) (m : Nat → β) :
    (placed size off ts).foldl (fun m p => stores m (l p.1 p.2)) m =
      stores m ((placed size off ts).flatMap fun p => l p.1 p.2) := by
  induction placed size off ts generalizing m with
  | nil => rfl
  | cons p ps ih =>
      rw [List.foldl_cons, List.flatMap_cons, stores.append]
      exact ih _

/-! ### Copies -/

/-- Every record is copied to a buffer of its own, `len` bytes of it; nothing where a buffer is missing. -/
def copyRecords (size len : α → Nat) (src : Nat → β) (buf : Nat → Option (Nat → β)) :
    Nat → Nat → List α → Option (List (Nat → β))
  | _, _, [] => some []
  | i, off, t :: ts => do
    let fresh ← buf i
    let rest ← copyRecords size len src buf (i + 1) (off + size t) ts
    pure ((fun j => if j < len t then src (off + j) else fresh j) :: rest)

theorem copyRecords_spec {len : α → Nat} {src : Nat → β} {buf : Nat → Option (Nat → β)} {ts : List α} {i off : Nat}
    {l : List (Nat → β)} (h : copyRecords size len src buf i off ts = some l) :
    List.Forall₂ (fun p b => ∀ j, j < len p.2 → b j = src (p.1 + j)) (placed size off ts) l := by
  induction ts generalizing i off l with
  | nil =>
      obtain rfl := Option.some.inj h
      exact .nil
  | cons u ts ih =>
      obtain ⟨fresh, -, h⟩ := Option.bind_eq_some_iff.mp h
      obtain ⟨rest, hrest, h⟩ := Option.bind_eq_some_iff.mp h
      obtain rfl := Option.some.inj h
      exact .cons (fun j hj => if_pos hj) (ih hrest)

theorem exists_copyRecords (len : α → Nat) (src : Nat → β) {buf : Nat → Option (Nat → β)} (hbuf : ∀ i, (buf i).isSome)
    (ts : List α) (i off : Nat) : ∃ l, copyRecords size len src buf i off ts = some l := by
  induction ts generalizing i off with
  | nil => exact ⟨[], rfl⟩
  | cons t ts ih =>
      obtain ⟨fresh, hf⟩ := Option.isSome_iff_exists.mp (hbuf i)
      obtain ⟨l, hl⟩ := ih (i + 1) (off + size t)
      refine ⟨(fun j => if j < len t then src (off + j) else fresh j) :: l, ?_⟩
      unfold copyRecords
      rw [hf, hl]
      rfl

end OrkDriver.Lib
