import OrkDriver.Lib.Assign

/-!
Arrays cut into slots of one shape each, and programs that work slot by slot: what a slot holds, and that work in one slot
leaves the others alone.
-/

namespace OrkDriver.Lib.Assign

variable {ι α : Type*} (dims : ι → Nat × Nat)

/-- The cells of the slots of `T`, in the arrays of `W`. -/
def Cells (W : List ι) (T : Nat → Prop) (a : ι) (x : Nat) : Prop :=
  a ∈ W ∧ ∃ S, T S ∧ InSlot S (dims a).1 (dims a).2 x

/-- Slot `S` of each array of the list holds the matrix beside it. -/
def Holding (m : ι → Nat → α) (S : Nat) (L : List (ι × (Nat → Nat → α))) : Prop :=
  ∀ p ∈ L, Holds m p.1 S (dims p.1).1 (dims p.1).2 p.2

variable {dims} {m m' : ι → Nat → α} {l k : List (Assign ι α)} {a : ι} {S n i j x : Nat} {V W : List ι} {T U : Nat → Prop}
  {pre post pre' post' L L' : List (ι × (Nat → Nat → α))}

theorem Cells.not_mem (h : a ∉ W) : ¬ Cells dims W T a x := fun hc => h hc.1

theorem Holding.mono (h : Holding dims m S L) (hsub : ∀ p ∈ L', p ∈ L) : Holding dims m S L' :=
  fun p hp => h p (hsub p hp)

theorem Holding.append (h : Holding dims m S L) (h' : Holding dims m S L') : Holding dims m S (L ++ L') := by
  intro p hp
  rcases List.mem_append.mp hp with hp | hp
  · exact h p hp
  · exact h' p hp

theorem Holding.of_eq (h : Holding dims m S L) (heq : ∀ p ∈ L, m' p.1 = m p.1) : Holding dims m' S L :=
  fun p hp => (h p hp).of_eq (heq p hp)

theorem Holding.cell (h : Holding dims m S L) {f : Nat → Nat → α} (hp : (a, f) ∈ L) (hi : i < (dims a).1)
    (hj : j < (dims a).2) : m a ((S * (dims a).1 + i) * (dims a).2 + j) = f i j :=
  h (a, f) hp i hi j hj

theorem sweep_writes {N base : Nat} {v : Nat → (ι → Nat → α) → α} :
    ∀ s ∈ times N fun x => [.set a (base + x) (v x)], WritesIn (fun b y => b = a ∧ ∃ x < N, y = base + x) s := by
  refine forall_mem_times fun x hx s hs => ?_
  obtain rfl := List.mem_singleton.mp hs
  exact ⟨rfl, x, hx, rfl⟩

/-- Cell `(i, j)` of slot `S`, counted from the start of the slot. -/
theorem slot_index (S r c i j : Nat) : (S * r + i) * c + j = S * r * c + (i * c + j) := by ring

theorem inSlot_iff {r c : Nat} : InSlot S r c x ↔ ∃ y < r * c, x = S * r * c + y := by
  constructor
  · rintro ⟨i, hi, j, hj, rfl⟩
    exact ⟨i * c + j, digits_lt hi hj, slot_index S r c i j⟩
  · rintro ⟨y, hy, rfl⟩
    have hc : 0 < c := Nat.pos_of_ne_zero fun h => by simp [h] at hy
    refine ⟨y / c, (Nat.div_lt_iff_lt_mul hc).mpr hy, y % c, Nat.mod_lt y hc, ?_⟩
    rw [slot_index, Nat.div_add_mod']

theorem sweep_cells {r c : Nat} {v : Nat → (ι → Nat → α) → α} (hdims : dims a = (r, c)) :
    ∀ s ∈ times (r * c) fun x => [.set a (S * r * c + x) (v x)], WritesIn (Cells dims [a] (· = S)) s := by
  refine fun s hs => (sweep_writes s hs).mono ?_
  rintro b y ⟨rfl, hy⟩
  refine ⟨List.mem_singleton.mpr rfl, S, rfl, ?_⟩
  rw [hdims]
  exact inSlot_iff.mpr hy

variable [DecidableEq ι]

/-- Writing elsewhere, in other arrays or in other slots. -/
theorem Holding.run (h : Holding dims m S L) (hl : ∀ s ∈ l, WritesIn (Cells dims W T) s)
    (hoff : ¬ T S ∨ ∀ p ∈ L, p.1 ∉ W) : Holding dims (run m l) S L := by
  intro p hp
  refine (h p hp).run hl ?_
  rintro x ⟨i, hi, j, hj, rfl⟩ ⟨hmem, U, hU, hin⟩
  rcases hoff with hoff | hoff
  · by_cases hSU : S = U
    · exact hoff (hSU ▸ hU)
    · exact not_inSlot hSU hi hj hin
  · exact hoff p hp hmem

theorem run_off (hl : ∀ s ∈ l, WritesIn (Cells dims W T) s) (ha : a ∉ W) : run m l a = m a :=
  run_array (W := (· ∈ W)) (fun s hs => (hl s hs).mono fun _ _ h => h.1) ha

variable (dims) in
/-- The program writes in slot `S` of the arrays of `W` only, and takes the facts `pre` about the slot to `post`. -/
structure Fills (S : Nat) (l : List (Assign ι α)) (W : List ι) (pre post : List (ι × (Nat → Nat → α))) : Prop where
  writes : ∀ s ∈ l, WritesIn (Cells dims W (· = S)) s
  holds : ∀ m, Holding dims m S pre → Holding dims (run m l) S post

theorem Fills.mono (h : Fills dims S l W pre post) (hpre : ∀ p ∈ pre, p ∈ pre') (hpost : ∀ p ∈ post', p ∈ post) :
    Fills dims S l W pre' post' :=
  ⟨h.writes, fun m hm => (h.holds m (hm.mono hpre)).mono hpost⟩

/-- One program after another in the same slot. -/
theorem Fills.append (hl : Fills dims S l W pre post) (hk : Fills dims S k V pre' post') (hsub : ∀ p ∈ pre, p ∈ L)
    (hpre : ∀ p ∈ pre', p ∈ L ∧ p.1 ∉ W ∨ p ∈ post) (hpost : ∀ p ∈ post, p.1 ∉ V) :
    Fills dims S (l ++ k) (W ++ V) L (post ++ post') := by
  constructor
  · intro s hs
    rcases List.mem_append.mp hs with hs | hs
    · exact (hl.writes s hs).mono fun _ _ h => ⟨List.mem_append_left V h.1, h.2⟩
    · exact (hk.writes s hs).mono fun _ _ h => ⟨List.mem_append_right W h.1, h.2⟩
  · intro m hm
    have hmid : Holding dims (Assign.run m l) S post := hl.holds m (hm.mono hsub)
    have hkept : Holding dims (Assign.run m l) S pre' := by
      intro p hp
      rcases hpre p hp with ⟨hp, hoff⟩ | hp
      · have hone : Holding dims m S [p] := hm.mono fun r hr => List.mem_singleton.mp hr ▸ hp
        exact hone.run hl.writes (.inr fun r hr => List.mem_singleton.mp hr ▸ hoff) p List.mem_cons_self
      · exact hmid p hp
    rw [run_append]
    exact (hmid.run hk.writes (.inr hpost)).append (hk.holds _ hkept)

/-- A loop over slots, each turn in its own. -/
theorem times_holding {body : Nat → List (Assign ι α)} {slot : Nat → Nat}
    {pre post : Nat → List (ι × (Nat → Nat → α))} (hinj : ∀ i < n, ∀ j < n, slot i = slot j → i = j)
    (h : ∀ i < n, Fills dims (slot i) (body i) W (pre i) (post i)) (h0 : ∀ i < n, Holding dims m (slot i) (pre i)) :
    ∀ i < n, Holding dims (run m (times n body)) (slot i) (post i) := by
  refine run_times_each (fun i m => Holding dims m (slot i) (pre i)) (fun i m => Holding dims m (slot i) (post i)) h0
    (fun i hi m hm => (h i hi).holds m hm) ?_ ?_
  · exact fun i hi j hj hij m hm => hm.run (h j hj).writes (.inl fun heq => hij (hinj i hi j hj heq))
  · exact fun i hi j hj hij m hm => hm.run (h j hj).writes (.inl fun heq => hij (hinj i hi j hj heq))

theorem times_writes {body : Nat → List (Assign ι α)} {slot : Nat → Nat}
    {pre post : Nat → List (ι × (Nat → Nat → α))} (h : ∀ i < n, Fills dims (slot i) (body i) W (pre i) (post i)) :
    ∀ s ∈ times n body, WritesIn (Cells dims W fun S => ∃ i < n, S = slot i) s := by
  refine forall_mem_times fun i hi s hs => ((h i hi).writes s hs).mono ?_
  rintro b x ⟨hb, S, rfl, hx⟩
  exact ⟨hb, slot i, ⟨i, hi, rfl⟩, hx⟩

/-- The nest `fill`, where the values read nothing that is filled. -/
theorem Fills.fill {r c : Nat} (arms : List (ι × (Nat → Nat → (ι → Nat → α) → α)))
    (f : ι → Nat → Nat → α) (hnd : (arms.map Prod.fst).Nodup) (hdims : ∀ p ∈ arms, dims p.1 = (r, c))
    (hr : ∀ p ∈ arms, ∀ i j m m', (∀ b, b ∉ arms.map Prod.fst → m b = m' b) → p.2 i j m = p.2 i j m')
    (hv : ∀ m, Holding dims m S pre → ∀ p ∈ arms, ∀ i < r, ∀ j < c, p.2 i j m = f p.1 i j) :
    Fills dims S (Assign.fill S r c arms) (arms.map Prod.fst) pre (arms.map fun p => (p.1, f p.1)) := by
  constructor
  · refine fun s hs => (fill_writes s hs).mono ?_
    rintro b x ⟨hb, hx⟩
    obtain ⟨p, hp, rfl⟩ := List.mem_map.mp hb
    rw [Cells, hdims p hp]
    exact ⟨hb, S, rfl, hx⟩
  · intro m hm q hq
    obtain ⟨p, hp, rfl⟩ := List.mem_map.mp hq
    dsimp only
    rw [hdims p hp]
    exact (holds_fill hnd hr hp).congr (hv m hm p hp)

/-! ### One loop over consecutive cells -/

/-- A loop over consecutive cells of one array, whose values may read the cell they replace. -/
theorem run_sweep {N base : Nat} {v : Nat → (ι → Nat → α) → α} {f : Nat → α}
    (hv : ∀ x < N, ∀ m', (∀ b y, ¬ (b = a ∧ (∃ x' < N, x' ≠ x ∧ y = base + x')) → m' b y = m b y) → v x m' = f x) :
    ∀ x < N, run m (times N fun x => [.set a (base + x) (v x)]) a (base + x) = f x := by
  refine run_times_each
    (fun x m' => ∀ b y, ¬ (b = a ∧ (∃ x' < N, x' ≠ x ∧ y = base + x')) → m' b y = m b y)
    (fun x m' => m' a (base + x) = f x) (fun _ _ _ _ _ => rfl) ?_ ?_ ?_
  · intro x hx m' hm'
    exact exec_set_self.trans (hv x hx m' hm')
  · intro x hx x' hx' hne m' hm' b y hb
    rw [← hm' b y hb]
    have hw : WritesIn (fun c z => c = a ∧ z = base + x') (.set a (base + x') (v x')) := ⟨rfl, rfl⟩
    refine exec_of_notMem hw ?_
    rintro ⟨rfl, rfl⟩
    exact hb ⟨rfl, x', hx', Ne.symm hne, rfl⟩
  · intro x hx x' hx' hne m' hm'
    rw [← hm']
    have hw : WritesIn (fun c z => c = a ∧ z = base + x') (.set a (base + x') (v x')) := ⟨rfl, rfl⟩
    refine exec_of_notMem hw ?_
    rintro ⟨-, heq⟩
    exact hne (Nat.add_left_cancel heq)

/-- A slot filled by one loop; a value may read its own cell, and other slots. -/
theorem holding_sweep {r c : Nat} {v : Nat → (ι → Nat → α) → α} {f : Nat → Nat → α} (hdims : dims a = (r, c))
    (hv : ∀ i < r, ∀ j < c, ∀ m', (∀ b y, ¬ (b = a ∧ InSlot S r c y ∧ y ≠ S * r * c + (i * c + j)) → m' b y = m b y) →
      v (i * c + j) m' = f i j) :
    Holding dims (Assign.run m (times (r * c) fun x => [.set a (S * r * c + x) (v x)])) S [(a, f)] := by
  intro p hp
  obtain rfl := List.mem_singleton.mp hp
  dsimp only
  rw [hdims]
  intro i hi j hj
  rw [slot_index]
  have hc : 0 < c := Nat.zero_lt_of_lt hj
  have hsweep : Assign.run m (times (r * c) fun x => [.set a (S * r * c + x) (v x)]) a (S * r * c + (i * c + j)) =
      f ((i * c + j) / c) ((i * c + j) % c) := by
    refine run_sweep (f := fun x => f (x / c) (x % c)) (fun x hx m' hm' => ?_) (i * c + j) (digits_lt hi hj)
    have hval := hv (x / c) ((Nat.div_lt_iff_lt_mul hc).mpr hx) (x % c) (Nat.mod_lt x hc) m' ?_
    · rwa [Nat.div_add_mod'] at hval
    · intro b y hb
      refine hm' b y ?_
      rintro ⟨rfl, x', hx', hne, rfl⟩
      refine hb ⟨rfl, inSlot_iff.mpr ⟨x', hx', rfl⟩, ?_⟩
      rw [Nat.div_add_mod']
      exact fun heq => hne (Nat.add_left_cancel heq)
  obtain ⟨hdiv, hmod⟩ := digits_div_mod hj i
  rw [hsweep, hdiv, hmod]

theorem Fills.sweep {r c : Nat} {v : Nat → (ι → Nat → α) → α} {f : Nat → Nat → α} (hdims : dims a = (r, c))
    (hv : ∀ m, Holding dims m S pre → ∀ i < r, ∀ j < c, ∀ m',
      (∀ b y, ¬ (b = a ∧ InSlot S r c y ∧ y ≠ S * r * c + (i * c + j)) → m' b y = m b y) → v (i * c + j) m' = f i j) :
    Fills dims S (times (r * c) fun x => [.set a (S * r * c + x) (v x)]) [a] pre [(a, f)] :=
  ⟨sweep_cells hdims, fun m hm => holding_sweep hdims (hv m hm)⟩

/-! ### All the slots of a family -/

variable (dims) in
/-- The program writes in the slots of a family only, and takes what is known of each from `pre` to `post`. -/
structure FillsAll (n : Nat) (slot : Nat → Nat) (l : List (Assign ι α)) (W : List ι)
    (pre post : Nat → List (ι × (Nat → Nat → α))) : Prop where
  writes : ∀ s ∈ l, WritesIn (Cells dims W fun S => ∃ i < n, S = slot i) s
  holds : ∀ m, (∀ i < n, Holding dims m (slot i) (pre i)) → ∀ i < n, Holding dims (run m l) (slot i) (post i)

namespace FillsAll

variable {slot : Nat → Nat} {pre post pre' post' : Nat → List (ι × (Nat → Nat → α))}

theorem times {body : Nat → List (Assign ι α)} (hinj : ∀ i < n, ∀ j < n, slot i = slot j → i = j)
    (h : ∀ i < n, Fills dims (slot i) (body i) W (pre i) (post i)) :
    FillsAll dims n slot (Assign.times n body) W pre post :=
  ⟨times_writes h, fun _ h0 => times_holding hinj h h0⟩

theorem mono (h : FillsAll dims n slot l W pre post) (hW : ∀ a ∈ W, a ∈ V) (hpre : ∀ i < n, ∀ p ∈ pre i, p ∈ pre' i)
    (hpost : ∀ i < n, ∀ p ∈ post' i, p ∈ post i) : FillsAll dims n slot l V pre' post' := by
  constructor
  · exact fun s hs => (h.writes s hs).mono fun a x hx => ⟨hW a hx.1, hx.2⟩
  · intro m hm i hi
    exact (h.holds m (fun j hj => (hm j hj).mono (hpre j hj)) i hi).mono (hpost i hi)

theorem append {L : Nat → List (ι × (Nat → Nat → α))} (hl : FillsAll dims n slot l W pre post)
    (hk : FillsAll dims n slot k V pre' post') (hsub : ∀ i < n, ∀ p ∈ pre i, p ∈ L i)
    (hpre : ∀ i < n, ∀ p ∈ pre' i, p ∈ L i ∧ p.1 ∉ W ∨ p ∈ post i) (hpost : ∀ i < n, ∀ p ∈ post i, p.1 ∉ V) :
    FillsAll dims n slot (l ++ k) (W ++ V) L fun i => post i ++ post' i := by
  constructor
  · intro s hs
    rcases List.mem_append.mp hs with hs | hs
    · exact (hl.writes s hs).mono fun _ _ h => ⟨List.mem_append_left V h.1, h.2⟩
    · exact (hk.writes s hs).mono fun _ _ h => ⟨List.mem_append_right W h.1, h.2⟩
  · intro m hm i hi
    have hmid := hl.holds m fun i hi => (hm i hi).mono (hsub i hi)
    have hkept : ∀ i < n, Holding dims (Assign.run m l) (slot i) (pre' i) := by
      intro i hi p hp
      rcases hpre i hi p hp with ⟨hp, hoff⟩ | hp
      · have hone : Holding dims m (slot i) [p] := (hm i hi).mono fun r hr => List.mem_singleton.mp hr ▸ hp
        exact hone.run hl.writes (.inr fun r hr => List.mem_singleton.mp hr ▸ hoff) p List.mem_cons_self
      · exact hmid i hi p hp
    rw [run_append]
    exact ((hmid i hi).run hk.writes (.inr (hpost i hi))).append (hk.holds _ hkept i hi)

/-- What is known of arrays the program does not write stays known. -/
theorem frame (h : FillsAll dims n slot l W pre post) {K : Nat → List (ι × (Nat → Nat → α))}
    (hK : ∀ i < n, ∀ p ∈ K i, p ∈ pre i ∧ p.1 ∉ W) : FillsAll dims n slot l W pre fun i => K i ++ post i := by
  refine ⟨h.writes, fun m hm i hi => ?_⟩
  have hkeep : Holding dims m (slot i) (K i) := (hm i hi).mono fun p hp => (hK i hi p hp).1
  exact (hkeep.run h.writes (.inr fun p hp => (hK i hi p hp).2)).append (h.holds m hm i hi)

/-- Two programs that write different arrays and read nothing of each other's, however they are interleaved. -/
theorem mix {L : Nat → List (ι × (Nat → Nat → α))} (hl : FillsAll dims n slot l W pre post)
    (hk : FillsAll dims n slot k V pre' post') (hlr : ∀ s ∈ l, ReadsOff (· ∈ V) s) (hkr : ∀ s ∈ k, ReadsOff (· ∈ W) s)
    (hd : ∀ b ∈ W, b ∉ V) (hsub : ∀ i < n, ∀ p ∈ pre i, p ∈ L i)
    (hpre : ∀ i < n, ∀ p ∈ pre' i, p ∈ L i ∧ p.1 ∉ W) (hpost : ∀ i < n, ∀ p ∈ post i, p.1 ∉ V) (o : List Bool) :
    FillsAll dims n slot (Assign.mix o l k) (W ++ V) L fun i => post i ++ post' i := by
  have hseq := hl.append hk hsub (fun i hi p hp => .inl (hpre i hi p hp)) hpost
  constructor
  · intro s hs
    exact hseq.writes s (List.mem_append.mpr (mem_mix hs))
  · intro m hm
    rw [run_mix (W := (· ∈ W)) (V := (· ∈ V)) (fun s hs => ⟨(hl.writes s hs).mono fun _ _ h => h.1, hlr s hs⟩)
      (fun s hs => ⟨(hk.writes s hs).mono fun _ _ h => h.1, hkr s hs⟩) hd, ← run_append]
    exact hseq.holds m hm

/-- A loop over blocks of `n` slots. -/
theorem blocks {b : Nat} {body : Nat → List (Assign ι α)} {pre post : Nat → Nat → List (ι × (Nat → Nat → α))}
    (h : ∀ i < b, FillsAll dims n (i * n + ·) (body i) W (pre i) (post i)) :
    FillsAll dims (b * n) id (Assign.times b body) W (fun S => pre (S / n) (S % n)) fun S => post (S / n) (S % n) := by
  have hblock : ∀ {S}, S < b * n → ∃ i < b, ∃ j < n, S = i * n + j := by
    intro S hS
    have hn : 0 < n := Nat.pos_of_ne_zero fun h => by simp [h] at hS
    exact ⟨S / n, (Nat.div_lt_iff_lt_mul hn).mpr hS, S % n, Nat.mod_lt S hn, (Nat.div_add_mod' S n).symm⟩
  have hother : ∀ i, i < b → ∀ j, j < b → i ≠ j → ∀ m : ι → Nat → α, ∀ L : Nat → List (ι × (Nat → Nat → α)),
      (∀ x < n, Holding dims m (i * n + x) (L x)) → ∀ x < n, Holding dims (Assign.run m (body j)) (i * n + x) (L x) := by
    intro i _ j hj hij m L hm x hx
    refine (hm x hx).run (h j hj).writes (.inl ?_)
    rintro ⟨y, hy, heq⟩
    exact hij (digits_inj hx hy heq).1
  constructor
  · refine forall_mem_times fun i hi s hs => ((h i hi).writes s hs).mono ?_
    rintro a x ⟨ha, S, ⟨j, hj, rfl⟩, hx⟩
    exact ⟨ha, i * n + j, ⟨i * n + j, digits_lt hi hj, rfl⟩, hx⟩
  · intro m hm
    have h0 : ∀ i < b, ∀ j < n, Holding dims m (i * n + j) (pre i j) := by
      intro i hi j hj
      have hone := hm (i * n + j) (digits_lt hi hj)
      obtain ⟨hdiv, hmod⟩ := digits_div_mod hj i
      rwa [hdiv, hmod] at hone
    have hall : ∀ i < b, ∀ j < n, Holding dims (Assign.run m (Assign.times b body)) (i * n + j) (post i j) :=
      run_times_each _ (fun i m => ∀ j < n, Holding dims m (i * n + j) (post i j)) h0
        (fun i hi m hm => (h i hi).holds m hm) (fun i hi j hj hij m hm => hother i hi j hj hij m _ hm)
        fun i hi j hj hij m hm => hother i hi j hj hij m _ hm
    intro S hS
    obtain ⟨i, hi, j, hj, rfl⟩ := hblock hS
    obtain ⟨hdiv, hmod⟩ := digits_div_mod hj i
    rw [hdiv, hmod]
    exact hall i hi j hj

/-- One loop over all the cells of the first slots of an array. -/
theorem sweep {r c : Nat} {v : Nat → (ι → Nat → α) → α} {f : Nat → Nat → Nat → α} (hdims : dims a = (r, c))
    (hr : ∀ x m m', (∀ b, b ≠ a → m b = m' b) → v x m = v x m')
    (hv : ∀ m, (∀ i < n, Holding dims m i (pre i)) → ∀ S < n, ∀ i < r, ∀ j < c, v ((S * r + i) * c + j) m = f S i j) :
    FillsAll dims n id (Assign.times (n * r * c) fun x => [.set a x (v x)]) [a] pre fun S => [(a, f S)] := by
  constructor
  · refine forall_mem_times fun x hx s hs => ?_
    obtain rfl := List.mem_singleton.mp hs
    have hc : 0 < c := Nat.pos_of_ne_zero fun h => by simp [h] at hx
    have hr : 0 < r := Nat.pos_of_ne_zero fun h => by simp [h] at hx
    have hrow : x / c < n * r := (Nat.div_lt_iff_lt_mul hc).mpr hx
    refine ⟨List.mem_singleton.mpr rfl, x / c / r, ⟨x / c / r, (Nat.div_lt_iff_lt_mul hr).mpr hrow, rfl⟩, ?_⟩
    rw [hdims]
    refine ⟨x / c % r, Nat.mod_lt _ hr, x % c, Nat.mod_lt _ hc, ?_⟩
    rw [Nat.div_add_mod', Nat.div_add_mod']
  · intro m hm S hS p hp
    obtain rfl := List.mem_singleton.mp hp
    rw [hdims]
    intro i hi j hj
    refine run_of_mem (W := (· = a)) ?_ ?_ ?_ ?_
    · refine forall_mem_times fun x _ s hs => ?_
      obtain rfl := List.mem_singleton.mp hs
      rfl
    · refine forall_mem_times fun x _ s hs => ?_
      obtain rfl := List.mem_singleton.mp hs
      exact hr x
    · exact ⟨_, mem_times.mpr ⟨_, digits_lt (digits_lt hS hi) hj, List.mem_singleton.mpr rfl⟩⟩
    · intro w hw
      obtain ⟨x, -, hw⟩ := mem_times.mp hw
      injection List.mem_singleton.mp hw with _ hidx hval
      rw [hval, ← hidx]
      exact hv m hm S hS i hi j hj

end FillsAll

end OrkDriver.Lib.Assign
