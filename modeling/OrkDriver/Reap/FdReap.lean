import Mathlib.Data.Bool.Basic
import OrkDriver.Reap.Books

/-!
After `ork_ctx_fd_reap`: which contexts never use a buffer of the old descriptor again.
-/

namespace OrkDriver.Reap

open OrkDriver.Lib (Prog Triple Keeps)

/-! ### Contexts -/

/-- A call, or a reap; `reopened` says whether the device could be opened again. -/
inductive Event
  | call (op : Op)
  | reap (reopened : Bool)

/-- A context whose device cannot be opened again is lost. -/
def Event.apply (k : Kernel) (c : Context) : Event → Context
  | .call op => next k c op
  | .reap reopened =>
      if c.closed = true then c
      else if reopened = true then (orkCtxFdReap k c).2
      else { c with closed := true }

/-- The contexts there can be: `ork_npu_init`, calls and reaps. -/
inductive Reachable (k : Kernel) : Context → Prop
  | init (cores : List (Fin 4)) : Reachable k (orkNpuInit k cores)
  | step {c : Context} (e : Event) : Reachable k c → Reachable k (e.apply k c)

/-- The scratch weights and the weights of the callers. -/
def Context.allWeights (c : Context) : List Weight := c.weights ++ c.seqWitness.toList ++ c.ssm.weights

def tilesOf (ws : List Weight) : List Tile := ws.flatMap Weight.tiles

/-- The registry points at all the tiles, they are imports, and the kernel takes each of them back. -/
structure Recovers (k : Kernel) (n : Nat) (ts : List Tile) : Prop where
  registered : ∀ t ∈ ts, t.registered = true ∧ t.buf.heap = true
  granted : ∀ i < ts.length, (k (n + i)).isSome = true

/-- What a reap needs: no zero-copy buffers, no arenas and no fold scratch, and only weights that can be taken back. -/
structure Clean (k : Kernel) (c : Context) : Prop where
  dmaTab : c.dmaTab = []
  wchunk : c.wchunk = []
  i4arena : c.i4arena = []
  foldA : c.foldA = none
  foldScr : c.foldScr.flatMap FoldScratch.bufs = []
  weights : Recovers k c.calls (tilesOf c.allWeights)

/-! ### What a reap leaves -/

theorem mem_zeroed (s : Slot) : s ∈ zeroed := by
  cases s <;> simp [zeroed]

section Tiles

variable {k : Kernel} {n : Nat} {s : Nat × Nat}

/-- A tile that is not taken back keeps its old handle. -/
theorem reimportTile_cases (k : Kernel) (n : Nat) (t : Tile) (s : Nat × Nat) :
    ((t.registered = true ∧ t.buf.heap = true) ∧ (k s.1).isSome = true ∧
      ((reimportTile k n t s).1.buf.fd = n ∧ (reimportTile k n t s).2.1 = s.1 + 1)) ∨
    (¬ ((t.registered = true ∧ t.buf.heap = true) ∧ (k s.1).isSome = true) ∧ (reimportTile k n t s).1 = t) := by
  unfold reimportTile
  by_cases hr : t.registered = false
  · rw [if_pos hr]
    exact Or.inr ⟨fun h => absurd (hr.symm.trans h.1.1) (by decide), rfl⟩
  · rw [if_neg hr]
    by_cases hh : t.buf.heap = false
    · rw [if_pos hh]
      exact Or.inr ⟨fun h => absurd (hh.symm.trans h.1.2) (by decide), rfl⟩
    · rw [if_neg hh]
      have hreg := Bool.eq_true_of_not_eq_false hr
      have hheap := Bool.eq_true_of_not_eq_false hh
      cases hk : k s.1 with
      | none => exact Or.inr ⟨fun h => absurd h.2 (by decide), rfl⟩
      | some m => exact Or.inl ⟨⟨hreg, hheap⟩, rfl, rfl, rfl⟩

theorem recovers_cons {t : Tile} {ts : List Tile} : Recovers k n (t :: ts) ↔
    ((t.registered = true ∧ t.buf.heap = true) ∧ (k n).isSome = true) ∧ Recovers k (n + 1) ts := by
  constructor
  · rintro ⟨hreg, hk⟩
    refine ⟨⟨hreg t List.mem_cons_self, hk 0 (Nat.succ_pos _)⟩, fun x hx => hreg x (List.mem_cons_of_mem t hx), fun i hi => ?_⟩
    rw [Nat.add_right_comm]
    exact hk (i + 1) (Nat.succ_lt_succ hi)
  · rintro ⟨⟨ht, hn⟩, hreg, hk⟩
    refine ⟨List.forall_mem_cons.mpr ⟨ht, hreg⟩, fun i hi => ?_⟩
    cases i with
    | zero => exact hn
    | succ i =>
        rw [← Nat.add_assoc, Nat.add_right_comm]
        exact hk i (Nat.lt_of_succ_lt_succ hi)

theorem recovers_nil : Recovers k n [] := ⟨nofun, nofun⟩

theorem recovers_append {ts us : List Tile} :
    Recovers k n (ts ++ us) ↔ Recovers k n ts ∧ Recovers k (n + ts.length) us := by
  induction ts generalizing n with
  | nil => exact ⟨fun h => ⟨recovers_nil, h⟩, And.right⟩
  | cons t ts ih =>
      rw [List.cons_append, recovers_cons, recovers_cons, ih, List.length_cons, Nat.add_right_comm n 1, Nat.add_assoc n]
      exact and_assoc.symm

/-- A loop over parts with tiles gets all of them back exactly if it gets all parts back. -/
theorem mapped_recovers {α β : Type} {f : α → Prog (Nat × Nat) β} (g : α → List Tile) (Good : β → Prop)
    {l : List α}
    (hf : ∀ a ∈ l, ∀ s, (Good (f a s).1 ↔ Recovers k s.1 (g a)) ∧
      (Recovers k s.1 (g a) → (f a s).2.1 = s.1 + (g a).length)) (s : Nat × Nat) :
    ((∀ b ∈ (Prog.mapped f l s).1, Good b) ↔ Recovers k s.1 (l.flatMap g)) ∧
      (Recovers k s.1 (l.flatMap g) → (Prog.mapped f l s).2.1 = s.1 + (l.flatMap g).length) := by
  induction l generalizing s with
  | nil => exact ⟨⟨fun _ => recovers_nil, nofun⟩, fun _ => rfl⟩
  | cons a l ih =>
      obtain ⟨hgood, hcalls⟩ := hf a List.mem_cons_self s
      obtain ⟨hrest, hrestCalls⟩ := ih (fun x hx => hf x (List.mem_cons_of_mem a hx)) (f a s).2
      have hlist : (Prog.mapped f (a :: l) s).1 = (f a s).1 :: (Prog.mapped f l (f a s).2).1 := rfl
      have hstate : (Prog.mapped f (a :: l) s).2 = (Prog.mapped f l (f a s).2).2 := rfl
      rw [hlist, hstate, List.forall_mem_cons, List.flatMap_cons, recovers_append, List.length_append]
      constructor
      · constructor
        · rintro ⟨ha, hl⟩
          have hra := hgood.mp ha
          exact ⟨hra, hcalls hra ▸ hrest.mp hl⟩
        · rintro ⟨hra, hl⟩
          rw [← hcalls hra] at hl
          exact ⟨hgood.mpr hra, hrest.mpr hl⟩
      · rintro ⟨hra, hl⟩
        rw [← hcalls hra] at hl
        rw [hrestCalls hl, hcalls hra, Nat.add_assoc]

theorem reimportTile_recovers {P : Nat → Prop} (hP : P n) {t : Tile} (ht : ¬ P t.buf.fd) (s : Nat × Nat) :
    (P (reimportTile k n t s).1.buf.fd ↔ Recovers k s.1 [t]) ∧
      (Recovers k s.1 [t] → (reimportTile k n t s).2.1 = s.1 + 1) := by
  have hone : Recovers k s.1 [t] ↔ (t.registered = true ∧ t.buf.heap = true) ∧ (k s.1).isSome = true := by
    rw [recovers_cons]
    exact and_iff_left recovers_nil
  rw [hone]
  rcases reimportTile_cases k n t s with ⟨hreg, hk, hfd, hcalls⟩ | ⟨hno, hsame⟩
  · exact ⟨⟨fun _ => ⟨hreg, hk⟩, fun _ => by rw [hfd]; exact hP⟩, fun _ => hcalls⟩
  · rw [hsame]
    exact ⟨⟨fun h => absurd h ht, fun h => absurd h hno⟩, fun h => absurd h hno⟩

/-- All tiles come back from the new opening exactly if they can all be taken back. -/
theorem reimport_recovers {P : Nat → Prop} (hP : P n) {l : List Weight}
    (hws : ∀ w ∈ l, ∀ t ∈ w.tiles, ¬ P t.buf.fd) (s : Nat × Nat) :
    ((∀ w ∈ (reimport k n l s).1, ∀ t ∈ w.tiles, P t.buf.fd) ↔ Recovers k s.1 (tilesOf l)) ∧
      (Recovers k s.1 (tilesOf l) → (reimport k n l s).2.1 = s.1 + (tilesOf l).length) := by
  refine mapped_recovers Weight.tiles (fun w : Weight => ∀ t ∈ w.tiles, P t.buf.fd) (fun w hw s => ?_) s
  have htiles := mapped_recovers (k := k) (fun t => [t]) (fun t : Tile => P t.buf.fd)
    (fun t ht s => reimportTile_recovers hP (hws w hw t ht) s) s
  rwa [show w.tiles.flatMap (fun t => [t]) = w.tiles from List.flatMap_singleton' w.tiles] at htiles

end Tiles

section Reaps

variable {k : Kernel} {c : Context}

theorem books_init {P : Nat → Prop} (hP : P 0) (k : Kernel) (cores : List (Fin 4)) : Books 0 P (orkNpuInit k cores) := by
  have hblank : Books 0 P blank := by constructor <;> first | rfl | nofun
  refine Keeps.each (fun m hm => ?_) blank hblank
  simp only [List.mem_cons, List.not_mem_nil, or_false] at hm
  rcases hm with rfl | rfl | rfl | rfl | rfl | rfl
  · exact keeps_remake hP _ _
  · exact keeps_remake hP _ _
  · exact keeps_remake hP _ _
  · exact keeps_useSlot _
  · exact keeps_orkiMcEnsure hP _
  · exact Keeps.each fun i _ => keeps_grow hP _ _

theorem mapped_all {α β σ : Type} {f : α → Prog σ β} {Q : β → Prop} {l : List α} (h : ∀ a ∈ l, ∀ s, Q (f a s).1)
    (s : σ) : ∀ b ∈ (Prog.mapped f l s).1, Q b := by
  induction l generalizing s with
  | nil => nofun
  | cons a l ih =>
      change ∀ b ∈ (f a s).1 :: (Prog.mapped f l (f a s).2).1, Q b
      exact List.forall_mem_cons.mpr
        ⟨h a List.mem_cons_self s, ih (fun x hx => h x (List.mem_cons_of_mem a hx)) (f a s).2⟩

theorem reimport_all {n : Nat} {P : Nat → Prop} (hP : P n) {l : List Weight}
    (hws : ∀ w ∈ l, ∀ t ∈ w.tiles, P t.buf.fd) (s : Nat × Nat) :
    ∀ w ∈ (reimport k n l s).1, ∀ t ∈ w.tiles, P t.buf.fd := by
  apply mapped_all
  intro w hw s
  refine mapped_all (f := reimportTile k n) (fun t ht s => ?_) s
  rcases reimportTile_cases k n t s with ⟨-, -, hfd, -⟩ | ⟨-, hsame⟩
  · rw [hfd]
    exact hP
  · rw [hsame]
    exact hws w hw t ht

/-- The witness is one weight, so the loop over it is one round. -/
theorem witness_iff {n : Nat} {o : Option Weight} {s : Nat × Nat} {Q : Weight → Prop} :
    (∀ w ∈ (reimport k n o.toList s).1.head?, Q w) ↔ ∀ w ∈ (reimport k n o.toList s).1, Q w := by
  cases o with
  | none => exact ⟨fun _ => nofun, fun _ => nofun⟩
  | some w =>
      have hone : ∃ w', (reimport k n (some w).toList s).1 = [w'] := ⟨_, rfl⟩
      obtain ⟨w', hw'⟩ := hone
      rw [hw']
      simp

/-- The three kinds of weights, one after another. -/
theorem weights_reap_iff (hc : Books c.fd (· ≤ c.fd) c) :
    ((∀ w ∈ (orkCtxFdReap k c).2.weights, ∀ t ∈ w.tiles, c.fd < t.buf.fd) ∧
      (∀ w ∈ (orkCtxFdReap k c).2.seqWitness, ∀ t ∈ w.tiles, c.fd < t.buf.fd) ∧
      ∀ w ∈ (orkCtxFdReap k c).2.ssm.weights, ∀ t ∈ w.tiles, c.fd < t.buf.fd) ↔
    Recovers k c.calls (tilesOf c.allWeights) := by
  have hnew : (c.fd < ·) (c.fd + 1) := Nat.lt_succ_self c.fd
  obtain ⟨h1, hcalls1⟩ := reimport_recovers (k := k) (P := (c.fd < ·)) hnew
    (fun w hw t ht => Nat.not_lt.mpr (hc.weights w hw t ht)) (c.calls, 0)
  obtain ⟨h2, hcalls2⟩ := reimport_recovers (k := k) (P := (c.fd < ·)) hnew (l := c.seqWitness.toList)
    (fun w hw t ht => Nat.not_lt.mpr (hc.seqWitness w (Option.mem_toList.mp hw) t ht))
    (reimport k (c.fd + 1) c.weights (c.calls, 0)).2
  obtain ⟨h3, -⟩ := reimport_recovers (k := k) (P := (c.fd < ·)) hnew
    (fun w hw t ht => Nat.not_lt.mpr (hc.ssm w hw t ht))
    (reimport k (c.fd + 1) c.seqWitness.toList (reimport k (c.fd + 1) c.weights (c.calls, 0)).2).2
  have hall : tilesOf c.allWeights = tilesOf c.weights ++ tilesOf c.seqWitness.toList ++ tilesOf c.ssm.weights := by
    unfold tilesOf Context.allWeights
    rw [List.flatMap_append, List.flatMap_append]
  unfold orkCtxFdReap
  dsimp only
  rw [witness_iff, h1, h2, h3, hall, recovers_append, recovers_append, List.length_append, ← Nat.add_assoc]
  constructor
  · rintro ⟨r1, r2, r3⟩
    have e1 := hcalls1 r1
    have e2 := hcalls2 r2
    exact ⟨⟨r1, e1 ▸ r2⟩, e1 ▸ e2 ▸ r3⟩
  · rintro ⟨⟨r1, r2⟩, r3⟩
    have e1 := hcalls1 r1
    have r2' := e1.symm ▸ r2
    have e2 := hcalls2 r2'
    exact ⟨r1, r2', by rw [e2, e1]; exact r3⟩

theorem eq_nil_of_fd {n : Nat} {l : List DevBuf} (hle : ∀ b ∈ l, b.fd ≤ n) (hlt : ∀ b ∈ l, n < b.fd) : l = [] := by
  apply List.eq_nil_iff_forall_not_mem.mpr
  intro b hb
  exact Nat.not_lt.mpr (hle b hb) (hlt b hb)

theorem foldScr_le (hc : Books c.fd (· ≤ c.fd) c) : ∀ b ∈ c.foldScr.flatMap FoldScratch.bufs, b.fd ≤ c.fd := by
  intro b hb
  obtain ⟨e, he, hb⟩ := List.mem_flatMap.mp hb
  exact hc.foldScr e he b hb

theorem foldA_le (hc : Books c.fd (· ≤ c.fd) c) : ∀ b ∈ (c.foldA.map FoldA.buf).toList, b.fd ≤ c.fd := by
  intro b hb
  obtain ⟨a, ha, rfl⟩ := Option.map_eq_some_iff.mp (Option.mem_toList.mp hb)
  exact hc.foldA a ha

theorem foldA_eq_none {o : Option FoldA} (h : (o.map FoldA.buf).toList = []) : o = none := by
  cases o with
  | none => rfl
  | some a => exact absurd h (List.cons_ne_nil _ _)

theorem slot_reap (s : Slot) : (orkCtxFdReap k c).2.slot s = none := if_pos (mem_zeroed s)

/-- Every cached field is made again or cleared exactly if the context is clean. -/
theorem books_reap_iff (hc : Books c.fd (· ≤ c.fd) c) :
    Books (c.fd + 1) (c.fd < ·) (orkCtxFdReap k c).2 ↔ Clean k c := by
  constructor
  · intro h
    have hfoldScr : ∀ b ∈ c.foldScr.flatMap FoldScratch.bufs, c.fd < b.fd := by
      intro b hb
      obtain ⟨e, he, hb⟩ := List.mem_flatMap.mp hb
      exact h.foldScr e he b hb
    have hfoldA : ∀ b ∈ (c.foldA.map FoldA.buf).toList, c.fd < b.fd := by
      intro b hb
      obtain ⟨a, ha, rfl⟩ := Option.map_eq_some_iff.mp (Option.mem_toList.mp hb)
      exact h.foldA a ha
    exact {
      dmaTab := eq_nil_of_fd hc.dmaTab h.dmaTab
      wchunk := eq_nil_of_fd hc.wchunk h.wchunk
      i4arena := eq_nil_of_fd hc.i4arena h.i4arena
      foldA := foldA_eq_none (eq_nil_of_fd (foldA_le hc) hfoldA)
      foldScr := eq_nil_of_fd (foldScr_le hc) hfoldScr
      weights := (weights_reap_iff hc).mp ⟨h.weights, h.seqWitness, h.ssm⟩ }
  · intro h
    obtain ⟨hweights, hwitness, hssm⟩ := (weights_reap_iff hc).mpr h.weights
    have hslot : ∀ s, ∀ b ∈ (orkCtxFdReap k c).2.slot s, c.fd < b.fd := by
      intro s b hb
      rw [slot_reap] at hb
      exact absurd hb (Option.not_mem_none b)
    have hno : ∀ {l : List DevBuf}, l = [] → ∀ b ∈ l, c.fd < b.fd := by
      rintro _ rfl
      nofun
    have hfoldA : ∀ a ∈ c.foldA, c.fd < a.buf.fd := by
      rw [h.foldA]
      nofun
    have hfoldScr : ∀ e ∈ c.foldScr, ∀ b ∈ e.bufs, c.fd < b.fd := fun e he b hb =>
      hno h.foldScr b (List.mem_flatMap.mpr ⟨e, he, hb⟩)
    exact {
      fd := rfl
      slot := hslot
      saved := fun _ => nofun
      anchor := fun _ => nofun
      dmaTab := hno h.dmaTab
      wchunk := hno h.wchunk
      i4arena := hno h.i4arena
      i4arenaCur := hc.i4arenaCur
      foldA := hfoldA
      foldScr := hfoldScr
      seqWitness := hwitness
      ssm := hssm
      weights := hweights
      log := nofun }

theorem books_reap {n : Nat} {P : Nat → Prop} (hP : P (n + 1)) (hc : Books n P c) :
    Books (n + 1) P (orkCtxFdReap k c).2 := by
  obtain rfl := hc.fd
  have hws := reimport_all (k := k) hP hc.weights (c.calls, 0)
  have hwitness := reimport_all (k := k) hP (l := c.seqWitness.toList)
    (fun w hw => hc.seqWitness w (Option.mem_toList.mp hw)) (reimport k (c.fd + 1) c.weights (c.calls, 0)).2
  have hssm := reimport_all (k := k) hP hc.ssm
    (reimport k (c.fd + 1) c.seqWitness.toList (reimport k (c.fd + 1) c.weights (c.calls, 0)).2).2
  have hslot : ∀ s, ∀ b ∈ (orkCtxFdReap k c).2.slot s, P b.fd := by
    intro s b hb
    rw [slot_reap] at hb
    exact absurd hb (Option.not_mem_none b)
  exact { hc with
    fd := rfl
    slot := hslot
    saved := fun _ => nofun
    anchor := fun _ => nofun
    seqWitness := witness_iff.mpr hwitness
    ssm := hssm
    weights := hws
    log := nofun }

/-- An event opens the device again at most once. -/
theorem books_event {n : Nat} {P : Nat → Prop} (hP : ∀ m, n ≤ m → P m) (hc : Books n P c) (e : Event) :
    ∃ m, n ≤ m ∧ Books m P (e.apply k c) := by
  cases e with
  | call op => exact ⟨n, Nat.le_refl n, books_next (hP n (Nat.le_refl n)) hc op⟩
  | reap reopened =>
      unfold Event.apply
      dsimp only
      split_ifs with hclosed hopen
      · exact ⟨n, Nat.le_refl n, hc⟩
      · exact ⟨n + 1, Nat.le_succ n, books_reap (hP (n + 1) (Nat.le_succ n)) hc⟩
      · exact ⟨n, Nat.le_refl n, { hc with }⟩

theorem Books.mono {n : Nat} {P Q : Nat → Prop} (h : Books n P c) (hPQ : ∀ m, P m → Q m) : Books n Q c where
  fd := h.fd
  slot s b hb := hPQ _ (h.slot s b hb)
  saved d parked hp s b hb := hPQ _ (h.saved d parked hp s b hb)
  anchor d b hb := hPQ _ (h.anchor d b hb)
  dmaTab b hb := hPQ _ (h.dmaTab b hb)
  wchunk b hb := hPQ _ (h.wchunk b hb)
  i4arena b hb := hPQ _ (h.i4arena b hb)
  i4arenaCur := h.i4arenaCur
  foldA a ha := hPQ _ (h.foldA a ha)
  foldScr e he b hb := hPQ _ (h.foldScr e he b hb)
  seqWitness w hw t ht := hPQ _ (h.seqWitness w hw t ht)
  ssm w hw t ht := hPQ _ (h.ssm w hw t ht)
  weights w hw t ht := hPQ _ (h.weights w hw t ht)
  log b hb := hPQ _ (h.log b hb)

/-- The context holds nothing of an opening still to come. -/
theorem Reachable.books (h : Reachable k c) : Books c.fd (· ≤ c.fd) c := by
  induction h with
  | init cores =>
      have hinit := books_init (P := (· ≤ 0)) (Nat.le_refl 0) k cores
      rw [hinit.fd]
      exact hinit
  | @step c e _ ih =>
      cases e with
      | call op =>
          have hnext := books_next (k := k) (P := (· ≤ c.fd)) (Nat.le_refl c.fd) ih op
          have hfd : (Event.apply k c (.call op)).fd = c.fd := hnext.fd
          rw [hfd]
          exact hnext
      | reap reopened =>
          unfold Event.apply
          dsimp only
          split_ifs with hclosed hopen
          · exact ih
          · exact books_reap (Nat.le_refl (c.fd + 1)) (ih.mono fun _ hm => Nat.le_succ_of_le hm)
          · exact { ih with }

/-! ### What later calls use -/

theorem foldl_books {n : Nat} {P : Nat → Prop} (hP : ∀ m, n ≤ m → P m) {c : Context} (hc : Books n P c)
    (es : List Event) : ∃ m, n ≤ m ∧ Books m P (es.foldl (Event.apply k) c) := by
  induction es generalizing n c with
  | nil => exact ⟨n, Nat.le_refl n, hc⟩
  | cons e es ih =>
      obtain ⟨m, hm, hnext⟩ := books_event hP hc e
      obtain ⟨m', hm', hend⟩ := ih (fun j hj => hP j (Nat.le_trans hm hj)) hnext
      exact ⟨m', Nat.le_trans hm hm', hend⟩

/-- The context after the buffers `bs` are used. -/
def Context.logged (c : Context) (bs : List DevBuf) : Context := { c with log := bs.reverse ++ c.log }

theorem logged_logged (c : Context) (bs bs' : List DevBuf) : (c.logged bs).logged bs' = c.logged (bs ++ bs') := by
  unfold Context.logged
  simp

theorem mem_log_logged {b : DevBuf} {bs : List DevBuf} : b ∈ (c.logged bs).log ↔ b ∈ bs ∨ b ∈ c.log := by
  unfold Context.logged
  simp

theorem orkiBdestroy_logged (o : Option DevBuf) (c : Context) : (orkiBdestroy o c).2 = c.logged o.toList := by
  cases o <;> rfl

theorem each_logged {α : Type} {f : α → Prog Context Unit} {g : Context → α → List DevBuf}
    (hg : ∀ c bs a, g (Context.logged c bs) a = g c a) (hf : ∀ a c, (f a c).2 = c.logged (g c a)) (l : List α)
    (c : Context) : (Prog.each f l c).2 = c.logged (l.flatMap (g c)) := by
  induction l generalizing c with
  | nil => rfl
  | cons a l ih =>
      have hsame : g (c.logged (g c a)) = g c := by
        funext x
        exact hg c _ x
      change (Prog.each f l (f a c).2).2 = _
      rw [ih, hf, logged_logged, List.flatMap_cons, hsame]

theorem each_use_logged (l : List DevBuf) (c : Context) : (Prog.each use l c).2 = c.logged l := by
  rw [each_logged (g := fun _ b => [b]) (fun _ _ _ => rfl) (fun _ _ => rfl), List.flatMap_singleton']

theorem useTiles_logged (w : Weight) (c : Context) : (useTiles w c).2 = c.logged (w.tiles.map fun t => t.buf) := by
  unfold useTiles
  rw [each_logged (g := fun _ t => [Tile.buf t]) (fun _ _ _ => rfl) (fun _ _ => rfl), List.map_eq_flatMap]

theorem useSlot_logged (s : Slot) (c : Context) : (useSlot s c).2 = c.logged (c.slot s).toList :=
  orkiBdestroy_logged (c.slot s) c

theorem each_useTiles_logged (ws : List Weight) (c : Context) :
    (Prog.each useTiles ws c).2 = c.logged ((tilesOf ws).map Tile.buf) := by
  rw [each_logged (g := fun _ w => w.tiles.map Tile.buf) (fun _ _ _ => rfl) useTiles_logged, tilesOf, List.map_flatMap]

theorem orkiSsmPoolFree_logged (c : Context) :
    (orkiSsmPoolFree c).2 = { c.logged ((tilesOf c.ssm.weights).map Tile.buf) with ssm := ⟨[], []⟩ } := by
  have hstep : (orkiSsmPoolFree c).2 = { (Prog.each useTiles c.ssm.weights c).2 with ssm := ⟨[], []⟩ } := rfl
  rw [hstep, each_useTiles_logged]

/-- What `ork_npu_free` destroys. -/
def Context.destroyed (c : Context) : List DevBuf :=
  (tilesOf c.seqWitness.toList).map Tile.buf ++ (tilesOf c.ssm.weights).map Tile.buf ++
    c.foldScr.flatMap FoldScratch.bufs ++ (c.foldA.map FoldA.buf).toList ++ zeroed.flatMap (fun s => (c.slot s).toList) ++
    c.dmaTab ++ c.i4arena ++ c.wchunk

theorem orkNpuFree_log (c : Context) : (orkNpuFree c).2.log = c.destroyed.reverse ++ c.log := by
  have hslots : ∀ c : Context, (Prog.each useSlot zeroed c).2 = c.logged (zeroed.flatMap fun s => (c.slot s).toList) :=
    fun c => each_logged (g := fun c s => (c.slot s).toList) (fun _ _ _ => rfl) useSlot_logged zeroed c
  unfold orkNpuFree Context.destroyed
  simp only [Prog.bind_apply, Prog.read_apply, Prog.modify_apply, each_useTiles_logged, orkiSsmPoolFree_logged,
    each_use_logged, orkiBdestroy_logged, hslots, Context.logged, List.reverse_append, List.append_assoc]

theorem withWeight_useTiles_log {i : Nat} {w : Weight} (hw : c.weights[i]? = some w) :
    (withWeight i useTiles c).2.log = (w.tiles.map Tile.buf).reverse ++ c.log := by
  unfold withWeight
  rw [Prog.bind_apply, Prog.read_apply]
  dsimp only
  rw [hw, each_useTiles_logged]
  unfold tilesOf Context.logged
  rw [Option.toList_some, List.flatMap_singleton]

theorem forall_destroyed {Q : DevBuf → Prop} : (∀ b ∈ c.destroyed, Q b) ↔
    (∀ w ∈ c.seqWitness, ∀ t ∈ w.tiles, Q t.buf) ∧ (∀ w ∈ c.ssm.weights, ∀ t ∈ w.tiles, Q t.buf) ∧
      (∀ e ∈ c.foldScr, ∀ b ∈ e.bufs, Q b) ∧ (∀ a ∈ c.foldA, Q a.buf) ∧ (∀ s ∈ zeroed, ∀ b ∈ c.slot s, Q b) ∧
      (∀ b ∈ c.dmaTab, Q b) ∧ (∀ b ∈ c.i4arena, Q b) ∧ ∀ b ∈ c.wchunk, Q b := by
  unfold Context.destroyed tilesOf
  simp only [List.forall_mem_append, List.forall_mem_map, List.forall_mem_flatMap, Option.mem_toList,
    Option.mem_def, Option.map_eq_some_iff, forall_exists_index, and_imp, forall_apply_eq_imp_iff₂, and_assoc]

/-- One call finds what is left of the old device: freeing the context, or copying a weight again. -/
theorem old_is_used {n : Nat} (hopen : c.closed = false) (h : ∀ op : Op, ∀ b ∈ (next k c op).log, n < b.fd) :
    (∀ b ∈ c.destroyed, n < b.fd) ∧ ∀ w ∈ c.weights, ∀ t ∈ w.tiles, n < t.buf.fd := by
  have hnext : ∀ op : Op, next k c op = (op.prog k c).2 := fun op => if_neg (by rw [hopen]; decide)
  constructor
  · intro b hb
    apply h .npuFree
    have hlog : (next k c .npuFree).log = c.destroyed.reverse ++ c.log := by
      rw [hnext]
      exact orkNpuFree_log c
    rw [hlog]
    exact List.mem_append_left _ (List.mem_reverse.mpr hb)
  · intro w hw t ht
    obtain ⟨i, hi⟩ := List.mem_iff_getElem?.mp hw
    apply h (.repack i)
    have hlog : (next k c (.repack i)).log = (w.tiles.map Tile.buf).reverse ++ c.log := by
      rw [hnext]
      exact withWeight_useTiles_log hi
    rw [hlog]
    exact List.mem_append_left _ (List.mem_reverse.mpr (List.mem_map_of_mem ht))

theorem books_of_unused (hc : Books c.fd (· ≤ c.fd) c) (hopen : c.closed = false)
    (h : ∀ op : Op, ∀ b ∈ (next k (orkCtxFdReap k c).2 op).log, c.fd < b.fd) :
    Books (c.fd + 1) (c.fd < ·) (orkCtxFdReap k c).2 := by
  have hclosed : (orkCtxFdReap k c).2.closed = false := hopen
  obtain ⟨hdestroyed, hweights⟩ := old_is_used hclosed h
  obtain ⟨hwitness, hssm, hfoldScr, hfoldA, hslot, hdmaTab, hi4arena, hwchunk⟩ := forall_destroyed.mp hdestroyed
  exact {
    fd := rfl
    slot := fun s => hslot s (mem_zeroed s)
    saved := fun _ => nofun
    anchor := fun _ => nofun
    dmaTab := hdmaTab
    wchunk := hwchunk
    i4arena := hi4arena
    i4arenaCur := hc.i4arenaCur
    foldA := hfoldA
    foldScr := hfoldScr
    seqWitness := hwitness
    ssm := hssm
    weights := hweights
    log := nofun }

/-- Exactly if the context is clean, every cached field is made again or cleared; and exactly then no later call, and
no later reap, leaves room for a use of the old device. -/
theorem fd_reap_iff (h : Reachable k c) (hopen : c.closed = false) :
    (Books (c.fd + 1) (c.fd < ·) (orkCtxFdReap k c).2 ↔ Clean k c) ∧
      ((∀ es : List Event, ∀ b ∈ (es.foldl (Event.apply k) (orkCtxFdReap k c).2).log, c.fd < b.fd) ↔ Clean k c) := by
  have hfields := books_reap_iff (k := k) h.books
  refine ⟨hfields, ?_⟩
  constructor
  · intro hunused
    exact hfields.mp (books_of_unused h.books hopen fun op => hunused [.call op])
  · intro hclean es
    have hbooks := hfields.mpr hclean
    obtain ⟨m, -, hend⟩ := foldl_books (k := k) (fun m hm => hm) hbooks es
    exact hend.log

/-! ### Concrete contexts -/

/-- A kernel that grants everything. -/
def granting : Kernel := fun n => some ⟨n + 1, n + 1, 4096 * n⟩

local instance neZero_cores : NeZero 4 := ⟨by decide⟩

/-- A context on one core, as `ork_npu_init` makes it. -/
def fresh : Context := orkNpuInit granting [0]

/-- One zero-copy buffer is enough: `ork_dma_free` after the reap destroys a handle of the closed device. -/
theorem fd_reap_leaves_dma : ¬ ∀ (k : Kernel) (c : Context), Reachable k c → c.closed = false →
    ∀ es : List Event, ∀ b ∈ (es.foldl (Event.apply k) (orkCtxFdReap k c).2).log, c.fd < b.fd := by
  intro h
  have hreach : Reachable granting (next granting fresh (.dmaAlloc 4096 0 false)) := (Reachable.init [0]).step (.call _)
  have hold : ∃ b ∈ (Event.apply granting (orkCtxFdReap granting (next granting fresh (.dmaAlloc 4096 0 false))).2
      (.call (.dmaFree 0))).log, b.fd = 0 := by decide
  obtain ⟨b, hb, hfd⟩ := hold
  have hnew := h granting _ hreach (by decide) [.call (.dmaFree 0)] b hb
  exact absurd hnew (by rw [hfd]; exact Nat.not_lt_zero _)

/-- An fp16 weight whose tiles are imports is taken back, and the context is as good as new. -/
theorem fd_reap_imports :
    Books 1 (0 < ·) (orkCtxFdReap granting (next granting fresh (.pack true 0 [65536, 65536]))).2 := by
  have hreach : Reachable granting (next granting fresh (.pack true 0 [65536, 65536])) := (Reachable.init [0]).step (.call _)
  apply (fd_reap_iff hreach (by decide)).1.mpr
  have hregistered : ∀ t ∈ tilesOf (next granting fresh (.pack true 0 [65536, 65536])).allWeights,
      t.registered = true ∧ t.buf.heap = true := by decide
  exact ⟨rfl, rfl, rfl, rfl, rfl, hregistered, fun _ _ => rfl⟩

end Reaps

end OrkDriver.Reap
