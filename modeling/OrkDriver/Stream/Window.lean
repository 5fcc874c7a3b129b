import Mathlib.Data.List.Nodup
import Mathlib.Logic.Relation
import OrkDriver.Lib.Transition
import OrkDriver.Stream.Pool

/-!
The pool as a window of mapped entries: marks and mappings agree, and room is made by unmapping the entry that has been
unused for longest.
-/

namespace OrkDriver.Stream

open OrkDriver.Npu (Soc)

/-! ### What a slot keeps -/

/-- No IOVA stands behind the buffer. -/
def StageBuf.Bare (b : StageBuf) : Prop := b.handle = 0 ∧ b.obj = 0 ∧ b.dma = 0

/-- A mapped slot has every buffer mapped, any other slot none. -/
structure OrkStage.Sound (s : OrkStage) : Prop where
  mapped : s.mapped = true → ∀ b ∈ s.bufs, b.handle ≠ 0
  bare : s.mapped = false → ∀ b ∈ s.bufs, b.Bare

section Slots

variable {k : Kernel} {t : Nat} {b : StageBuf} {bs : List StageBuf} {s : OrkStage}

theorem StageBuf.Bare.unmap (h : b.Bare) : orkiBstageUnmap b = b := if_pos ⟨h.2.1, h.1⟩

theorem StageBuf.Bare.unmap_map (h : b.Bare) (m : Mapping) : orkiBstageUnmap (b.map m) = b := by
  obtain ⟨size, handle, obj, dma⟩ := b
  obtain ⟨rfl, rfl, rfl⟩ := h
  exact if_neg fun hm => m.handle_ne_zero hm.2

theorem bare_unmap (h : b.handle ≠ 0) : (orkiBstageUnmap b).Bare := by
  rw [orkiBstageUnmap, if_neg fun hm => h hm.2]
  exact ⟨rfl, rfl, rfl⟩

theorem mapBufs_mapped : ∀ {bs : List StageBuf} {t : Nat}, (mapBufs k t bs).1 = true →
    ∀ b ∈ (mapBufs k t bs).2.1, b.handle ≠ 0
  | [], _, _ => nofun
  | b :: bs, t, h => by
      unfold mapBufs at h ⊢
      cases hk : k t with
      | none =>
          rw [hk] at h
          exact absurd h Bool.false_ne_true
      | some m =>
          rw [hk] at h
          intro x hx
          rcases List.mem_cons.mp hx with rfl | hx
          · exact m.handle_ne_zero
          · exact mapBufs_mapped h x hx

/-- The roll back undoes what the mapping loop got done. -/
theorem mapBufs_rollBack : ∀ {bs : List StageBuf} {t : Nat}, (∀ b ∈ bs, b.Bare) →
    (mapBufs k t bs).2.1.map orkiBstageUnmap = bs
  | [], _, _ => rfl
  | b :: bs, t, h => by
      have hb := h b List.mem_cons_self
      have hbs : ∀ x ∈ bs, x.Bare := fun x hx => h x (List.mem_cons_of_mem b hx)
      unfold mapBufs
      cases k t with
      | none =>
          change orkiBstageUnmap b :: bs.map orkiBstageUnmap = b :: bs
          rw [hb.unmap, List.map_congr_left fun x hx => (hbs x hx).unmap, List.map_id']
      | some m =>
          change orkiBstageUnmap (b.map m) :: List.map orkiBstageUnmap _ = b :: bs
          rw [hb.unmap_map, mapBufs_rollBack hbs]

theorem map_unmap_bare (h : ∀ b ∈ bs, b.Bare) : bs.map orkiBstageUnmap = bs := by
  rw [List.map_congr_left fun x hx => (h x hx).unmap, List.map_id']

/-- A bare slot gets all its buffers mapped or stays as it was. -/
theorem OrkStage.Sound.map_cases (hs : s.Sound) (hm : s.mapped = false) (k : Kernel) (t : Nat) :
    ((orkStageMap k t s).1 = true ∧ (orkStageMap k t s).2.1.mapped = true ∧
      ∀ b ∈ (orkStageMap k t s).2.1.bufs, b.handle ≠ 0) ∨
    ((orkStageMap k t s).1 = false ∧ (orkStageMap k t s).2.1 = s) := by
  have hBb : ∀ b ∈ s.Bb, b.Bare := fun b hb => hs.bare hm b (List.mem_append_left _ hb)
  have hBf : ∀ b ∈ s.Bf, b.Bare := fun b hb => hs.bare hm b (List.mem_append_right _ hb)
  unfold orkStageMap
  rw [if_neg (by rw [hm]; exact Bool.false_ne_true)]
  dsimp only
  by_cases h1 : (mapBufs k t s.Bb).1 = true
  · rw [if_pos h1]
    by_cases h2 : (mapBufs k (mapBufs k t s.Bb).2.2 s.Bf).1 = true
    · rw [if_pos h2]
      left
      refine ⟨rfl, rfl, fun b hb => ?_⟩
      rcases List.mem_append.mp hb with hb | hb
      · exact mapBufs_mapped h1 b hb
      · exact mapBufs_mapped h2 b hb
    · rw [if_neg h2]
      right
      unfold unmapBufs
      dsimp only
      rw [mapBufs_rollBack hBb, mapBufs_rollBack hBf]
      exact ⟨rfl, rfl⟩
  · rw [if_neg h1, if_neg Bool.false_ne_true]
    right
    unfold unmapBufs
    dsimp only
    rw [mapBufs_rollBack hBb, map_unmap_bare hBf]
    exact ⟨rfl, rfl⟩

theorem OrkStage.Sound.map (hs : s.Sound) (hm : s.mapped = false) (k : Kernel) (t : Nat) :
    (orkStageMap k t s).2.1.Sound ∧ (orkStageMap k t s).2.1.mapped = (orkStageMap k t s).1 := by
  rcases hs.map_cases hm k t with ⟨hok, hmapped, hbufs⟩ | ⟨hno, hsame⟩
  · exact ⟨⟨fun _ => hbufs, fun h => absurd (hmapped.symm.trans h) (by decide)⟩, hmapped.trans hok.symm⟩
  · rw [hsame, hno]
    exact ⟨hs, hm⟩

theorem OrkStage.Sound.map_refused (hs : s.Sound) (hm : s.mapped = false) (h : (orkStageMap k t s).1 = false) :
    (orkStageMap k t s).2.1 = s := by
  rcases hs.map_cases hm k t with ⟨hok, -⟩ | ⟨-, hsame⟩
  · exact absurd (hok.symm.trans h) (by decide)
  · exact hsame

theorem OrkStage.Sound.unmap (hs : s.Sound) : (orkStageUnmap s).Sound ∧ (orkStageUnmap s).mapped = false := by
  unfold orkStageUnmap
  split_ifs with hm
  · refine ⟨⟨nofun, fun _ b hb => ?_⟩, rfl⟩
    have hb : b ∈ s.bufs.map orkiBstageUnmap := by rwa [bufs, List.map_append]
    obtain ⟨b', hb', rfl⟩ := List.mem_map.mp hb
    exact bare_unmap (hs.mapped hm b' hb')
  · exact ⟨hs, Bool.eq_false_of_not_eq_true hm⟩

theorem sound_create {soc : Soc} {K N : Nat} {bb bf : Bool} (h : orkStageCreate soc K N bb bf = some s) :
    s.Sound ∧ s.mapped = false := by
  unfold orkStageCreate at h
  split_ifs at h
  all_goals
    cases h
    refine ⟨⟨nofun, fun _ b hb => ?_⟩, rfl⟩
    simp only [OrkStage.bufs, List.mem_append, List.mem_flatMap, List.mem_map, List.not_mem_nil, or_false] at hb
  · rcases hb with ⟨ns, -, ks, -, rfl⟩ | ⟨ns, -, rfl⟩
    · exact ⟨rfl, rfl, rfl⟩
    · exact ⟨rfl, rfl, rfl⟩
  · obtain ⟨ns, -, ks, -, rfl⟩ := hb
    exact ⟨rfl, rfl, rfl⟩

end Slots

/-! ### Uses -/

/-- When an entry was last used, counted in uses; the newest use stands first. 0 for an entry that never was. -/
def lastUse : List Nat → Nat → Nat
  | [], _ => 0
  | i :: uses, id => if i = id then uses.length + 1 else lastUse uses id

theorem lastUse_le (uses : List Nat) (id : Nat) : lastUse uses id ≤ uses.length := by
  induction uses with
  | nil => exact le_rfl
  | cons i uses ih =>
      rw [lastUse, List.length_cons]
      split_ifs
      · exact le_rfl
      · exact ih.trans (Nat.le_succ _)

theorem lastUse_of_not_mem {uses : List Nat} {id : Nat} (h : id ∉ uses) : lastUse uses id = 0 := by
  induction uses with
  | nil => rfl
  | cons i uses ih =>
      rw [List.mem_cons, not_or] at h
      obtain ⟨hi, hm⟩ := h
      rw [lastUse, if_neg (Ne.symm hi)]
      exact ih hm

/-- No two entries were last used at one time. -/
theorem lastUse_inj {uses : List Nat} {a b : Nat} (h : lastUse uses a = lastUse uses b) (ha : lastUse uses a ≠ 0) :
    a = b := by
  induction uses with
  | nil => exact absurd rfl ha
  | cons i uses ih =>
      have hla := lastUse_le uses a
      have hlb := lastUse_le uses b
      rw [lastUse] at h ha
      rw [lastUse] at h
      split_ifs at h ha with h1 h2 h2
      · exact h1.symm.trans h2
      · omega
      · omega
      · exact ih h ha

/-! ### What the pool keeps -/

/-- The pool after the uses `uses`: every entry is marked as its slot is and carries the time of its last use. -/
structure Pool.Sound (uses : List Nat) (p : Pool) : Prop where
  distinct : (p.e.map StreamEntry.id).Nodup
  fresh : ∀ e ∈ p.e, e.id < p.made
  used : ∀ i ∈ uses, i < p.made
  clock : p.clock = uses.length
  marked : ∀ e ∈ p.e, e.mapped = e.stg.mapped
  stage : ∀ e ∈ p.e, e.stg.Sound
  stamp : ∀ e ∈ p.e, e.lastUse = lastUse uses e.id

section Pools

variable {uses : List Nat} {p : Pool} {e x : StreamEntry}

theorem mem_store : x ∈ (p.store e).e ↔ (x = e ∧ ∃ y ∈ p.e, y.id = e.id) ∨ (x ∈ p.e ∧ x.id ≠ e.id) := by
  unfold Pool.store
  rw [List.mem_map]
  constructor
  · rintro ⟨y, hy, rfl⟩
    split_ifs with h
    · exact Or.inl ⟨rfl, y, hy, h⟩
    · exact Or.inr ⟨hy, h⟩
  · rintro (⟨rfl, y, hy, h⟩ | ⟨hx, h⟩)
    · exact ⟨y, hy, if_pos h⟩
    · exact ⟨x, hx, if_neg h⟩

theorem store_ids (p : Pool) (e : StreamEntry) : (p.store e).e.map StreamEntry.id = p.e.map StreamEntry.id := by
  unfold Pool.store
  rw [List.map_map]
  apply List.map_congr_left
  intro y _
  rw [Function.comp_apply]
  split_ifs with h
  · exact h.symm
  · rfl

theorem Pool.Sound.eq_of_id (hp : p.Sound uses) (he : e ∈ p.e) (hx : x ∈ p.e) (h : x.id = e.id) : x = e :=
  List.inj_on_of_nodup_map hp.distinct hx he h

theorem Pool.Sound.store_self (hp : p.Sound uses) (he : e ∈ p.e) : p.store e = p := by
  obtain ⟨l, cap, clock, made, calls⟩ := p
  unfold store
  congr 1
  refine (List.map_congr_left fun y hy => ?_).trans (List.map_id l)
  split_ifs with h
  · exact (hp.eq_of_id he hy h).symm
  · rfl

/-- A store to an entry keeps the books if the entry it leaves does. -/
theorem Pool.Sound.store (hp : p.Sound uses) (he : e ∈ p.e) (hid : x.id = e.id) (hmark : x.mapped = x.stg.mapped)
    (hstg : x.stg.Sound) (huse : x.lastUse = e.lastUse) : (p.store x).Sound uses := by
  have hmem : ∀ {P : StreamEntry → Prop}, (∀ y ∈ p.e, P y) → P x → ∀ y ∈ (p.store x).e, P y := by
    intro P hall hx y hy
    rcases mem_store.mp hy with ⟨rfl, -⟩ | ⟨hy, -⟩
    · exact hx
    · exact hall y hy
  constructor
  · rw [store_ids]
    exact hp.distinct
  · exact hmem hp.fresh (by rw [hid]; exact hp.fresh e he)
  · exact hp.used
  · exact hp.clock
  · exact hmem hp.marked hmark
  · exact hmem hp.stage hstg
  · apply hmem hp.stamp
    rw [huse, hid]
    exact hp.stamp e he

theorem Pool.Sound.calls (hp : p.Sound uses) (n : Nat) : Pool.Sound uses { p with calls := n } :=
  ⟨hp.distinct, hp.fresh, hp.used, hp.clock, hp.marked, hp.stage, hp.stamp⟩

theorem Pool.Sound.evict (hp : p.Sound uses) (he : e ∈ p.e) : (p.store e.unmap).Sound uses := by
  obtain ⟨hstg, hm⟩ := (hp.stage e he).unmap
  exact hp.store he rfl hm.symm hstg rfl

theorem Pool.Sound.touch (hp : p.Sound uses) (he : e ∈ p.e) : (p.touch e).Sound (e.id :: uses) := by
  have hmem : ∀ y ∈ (p.touch e).e, y = { e with lastUse := p.clock + 1 } ∨ y ∈ p.e ∧ y.id ≠ e.id := by
    intro y hy
    rcases mem_store.mp hy with ⟨rfl, -⟩ | hy
    · exact Or.inl rfl
    · exact Or.inr hy
  constructor
  · exact (store_ids p _).symm ▸ hp.distinct
  · intro y hy
    rcases hmem y hy with rfl | ⟨hy, -⟩
    · exact hp.fresh e he
    · exact hp.fresh y hy
  · intro i hi
    rcases List.mem_cons.mp hi with rfl | hi
    · exact hp.fresh e he
    · exact hp.used i hi
  · exact congrArg (· + 1) hp.clock
  · intro y hy
    rcases hmem y hy with rfl | ⟨hy, -⟩
    · exact hp.marked e he
    · exact hp.marked y hy
  · intro y hy
    rcases hmem y hy with rfl | ⟨hy, -⟩
    · exact hp.stage e he
    · exact hp.stage y hy
  · intro y hy
    rcases hmem y hy with rfl | ⟨hy, hne⟩
    · rw [lastUse, if_pos rfl, hp.clock]
    · rw [lastUse, if_neg hne.symm]
      exact hp.stamp y hy

theorem Pool.Sound.add (hp : p.Sound uses) {soc : Soc} {r : AddCall} {q : Pool} (h : streamPoolAdd soc p r = some q) :
    q.Sound uses := by
  unfold streamPoolAdd at h
  by_cases hacc : r.accepted = false
  · rw [if_pos hacc] at h
    exact absurd h (Option.some_ne_none q).symm
  rw [if_neg hacc] at h
  obtain ⟨stg, hstg, h⟩ := Option.bind_eq_some_iff.mp h
  by_cases hhost : r.entry = false ∨ p.cap ≤ p.e.length ∧ r.grown = false
  · rw [if_pos hhost] at h
    exact absurd h (Option.some_ne_none q).symm
  · rw [if_neg hhost] at h
    cases h
    obtain ⟨hsound, hm⟩ := sound_create hstg
    have hmem : ∀ y ∈ p.e ++ [⟨p.made, stg, r.K, r.N, false, 0⟩],
        y ∈ p.e ∨ y = ⟨p.made, stg, r.K, r.N, false, 0⟩ := by
      intro y hy
      simpa using hy
    constructor
    · rw [List.map_append]
      refine List.nodup_append.mpr ⟨hp.distinct, List.nodup_singleton _, fun i hi j hj => ?_⟩
      obtain ⟨y, hy, rfl⟩ := List.mem_map.mp hi
      have hj : j = p.made := by simpa using hj
      have hlt := hp.fresh y hy
      omega
    · intro y hy
      rcases hmem y hy with hy | rfl
      · exact Nat.lt_succ_of_lt (hp.fresh y hy)
      · exact Nat.lt_succ_self p.made
    · exact fun i hi => Nat.lt_succ_of_lt (hp.used i hi)
    · exact hp.clock
    · intro y hy
      rcases hmem y hy with hy | rfl
      · exact hp.marked y hy
      · exact hm.symm
    · intro y hy
      rcases hmem y hy with hy | rfl
      · exact hp.stage y hy
      · exact hsound
    · intro y hy
      rcases hmem y hy with hy | rfl
      · exact hp.stamp y hy
      · exact (lastUse_of_not_mem fun hi => absurd (hp.used _ hi) (Nat.lt_irrefl _)).symm

theorem Pool.Sound.remove (hp : p.Sound uses) (e : StreamEntry) : (orkStreamPoolRemove p e).Sound uses := by
  have hmem : ∀ y ∈ (orkStreamPoolRemove p e).e, y ∈ p.e := fun y hy => List.mem_of_mem_swapRemove hy
  constructor
  · have hperm := (List.swapRemove_perm_eraseP (fun x : StreamEntry => x.id == e.id) p.e).map StreamEntry.id
    exact hperm.nodup_iff.mpr (hp.distinct.sublist (List.eraseP_sublist.map _))
  · exact fun y hy => hp.fresh y (hmem y hy)
  · exact hp.used
  · exact hp.clock
  · exact fun y hy => hp.marked y (hmem y hy)
  · exact fun y hy => hp.stage y (hmem y hy)
  · exact fun y hy => hp.stamp y (hmem y hy)

/-! ### Making room -/

/-- Mapped, and not the entry that room is made for. -/
def StreamEntry.other (keep : Nat) (e : StreamEntry) : Bool := e.mapped && e.id != keep

theorem other_iff {keep : Nat} : e.other keep = true ↔ e.mapped = true ∧ e.id ≠ keep := by
  simp [StreamEntry.other]

/-- The entries that could be evicted. -/
def Pool.others (p : Pool) (keep : Nat) : List StreamEntry := p.e.filter (StreamEntry.other keep)

theorem mem_others {keep : Nat} : e ∈ p.others keep ↔ e ∈ p.e ∧ e.mapped = true ∧ e.id ≠ keep := by
  rw [Pool.others, List.mem_filter, other_iff]

/-- The scan takes the first of the candidates that were used least recently. -/
theorem foldl_lruScan (keep : Nat) (p : Pool) :
    p.e.foldl (lruScan keep) none = (p.others keep).argmin StreamEntry.lastUse := by
  unfold Pool.others List.argmin
  rw [List.foldl_filter]
  congr 1
  funext lru x
  unfold lruScan
  cases lru with
  | none => simp [List.argAux, StreamEntry.other]
  | some l =>
      by_cases hx : x.other keep = true
      · obtain ⟨hm, hne⟩ := other_iff.mp hx
        rw [if_pos hx]
        simp [List.argAux, hm, hne]
      · rw [if_neg hx, if_neg fun h => hx (other_iff.mpr ⟨h.1, h.2.1⟩)]

theorem poolUnmapLru_eq_none {keep : Nat} : poolUnmapLru p keep = none ↔ p.others keep = [] := by
  rw [poolUnmapLru, Option.map_eq_none_iff, foldl_lruScan, List.argmin_eq_none]

/-- From `p`, where `e` cannot be mapped, the mapped entry other than `e` that has been unused for longest leaves the
window. -/
structure Eviction (k : Kernel) (uses : List Nat) (e : StreamEntry) (p q : Pool) (v : StreamEntry) : Prop where
  refused : (orkStageMap k p.calls e.stg).1 = false
  mem : v ∈ p.e
  mapped : v.mapped = true
  other : v.id ≠ e.id
  least : ∀ w ∈ p.e, w.mapped = true → w.id ≠ e.id → w ≠ v →
    lastUse uses v.id < lastUse uses w.id ∨ lastUse uses v.id = 0 ∧ lastUse uses w.id = 0
  after : q = { p.store v.unmap with calls := (orkStageMap k p.calls e.stg).2.2 }

theorem Pool.Sound.least (hp : p.Sound uses) {keep : Nat} (h : e ∈ (p.others keep).argmin StreamEntry.lastUse)
    (hx : x ∈ p.others keep) (hne : x ≠ e) :
    lastUse uses e.id < lastUse uses x.id ∨ lastUse uses e.id = 0 ∧ lastUse uses x.id = 0 := by
  have he := (mem_others.mp (List.argmin_mem h)).1
  have hxp := (mem_others.mp hx).1
  have hle : e.lastUse ≤ x.lastUse := List.le_of_mem_argmin hx h
  rw [hp.stamp e he, hp.stamp x hxp] at hle
  rcases Nat.lt_or_eq_of_le hle with hlt | heq
  · exact Or.inl hlt
  · by_cases h0 : lastUse uses e.id = 0
    · exact Or.inr ⟨h0, heq.symm.trans h0⟩
    · exact absurd (hp.eq_of_id he hxp (lastUse_inj heq h0).symm) hne

/-- An eviction leaves one candidate less. -/
theorem others_evict_lt {keep : Nat} (he : e ∈ p.others keep) :
    ((p.store e.unmap).others keep).length < (p.others keep).length := by
  obtain ⟨hep, hm, hne⟩ := mem_others.mp he
  have hsub : (p.store e.unmap).others keep = (p.others keep).filter fun x => x.id != e.id := by
    unfold Pool.others Pool.store
    rw [List.filter_filter]
    induction p.e with
    | nil => rfl
    | cons y l ih =>
        rw [List.map_cons, List.filter_cons, List.filter_cons, ih]
        have hid : e.unmap.id = e.id := rfl
        have hout : e.unmap.other keep = false := rfl
        by_cases hy : y.id = e.id
        · simp [hid, hy, hout]
        · simp [hid, hy]
  rw [hsub]
  exact List.length_filter_lt_length_iff_exists.mpr ⟨e, he, by simp⟩

/-- One round of the loop, seen from a sound pool. -/
theorem Pool.Sound.makeRoom_succ (hp : p.Sound uses) (he : e ∈ p.e) (hm : e.mapped = false) (k : Kernel) (fuel : Nat) :
    makeRoom k (fuel + 1) p e =
      let r := orkStageMap k p.calls e.stg
      if r.1 = true then
        let e' := { e with stg := r.2.1, mapped := true }
        some (true, e', { p.store e' with calls := r.2.2 })
      else
        match poolUnmapLru { p with calls := r.2.2 } e.id with
        | none => some (false, e, { p with calls := r.2.2 })
        | some q => makeRoom k fuel q e := by
  have hstg : e.stg.mapped = false := (hp.marked e he).symm.trans hm
  rw [makeRoom]
  dsimp only
  by_cases h : (orkStageMap k p.calls e.stg).1 = true
  · rw [if_pos h, if_pos h]
    unfold Pool.store
    simp only [List.map_map]
    congr 4
    apply List.map_congr_left
    intro y _
    rw [Function.comp_apply]
    split_ifs <;> first | rfl | contradiction
  · rw [if_neg h, if_neg h, (hp.stage e he).map_refused hstg (Bool.eq_false_of_not_eq_true h)]
    have hself : p.store { e with stg := e.stg } = p := hp.store_self he
    generalize p.store { e with stg := e.stg } = q at hself ⊢
    subst hself
    rfl

/-- How an acquisition of `e` ends that begins in `p`: after evictions, with `e` mapped or with no candidate left. -/
structure Acquired (k : Kernel) (uses : List Nat) (p : Pool) (e : StreamEntry) (ok : Bool) (e' : StreamEntry)
    (q : Pool) : Prop where
  evictions : ∃ p', Relation.ReflTransGen (fun a b => ∃ v, Eviction k uses e a b v) p p' ∧
    ∀ x, x.id ≠ e.id → (x ∈ q.e ↔ x ∈ p'.e)
  id : e'.id = e.id
  mem : e' ∈ q.e
  mapped : e'.mapped = ok
  exhausted : ok = false → ∀ w ∈ q.e, w.id ≠ e.id → w.mapped = false
  sound : q.Sound uses

/-- A refused round that finds a candidate evicts it. -/
theorem Pool.Sound.eviction (hp : p.Sound uses) (he : e ∈ p.e) {k : Kernel} {q : Pool}
    (hfull : (orkStageMap k p.calls e.stg).1 = false)
    (h : poolUnmapLru { p with calls := (orkStageMap k p.calls e.stg).2.2 } e.id = some q) :
    (∃ v, Eviction k uses e p q v) ∧ q.Sound uses ∧ e ∈ q.e ∧
      (q.others e.id).length < (p.others e.id).length := by
  obtain ⟨v, hv, rfl⟩ := Option.map_eq_some_iff.mp h
  rw [foldl_lruScan] at hv
  have hvo := List.argmin_mem hv
  obtain ⟨hvp, hvm, hvne⟩ := mem_others.mp hvo
  have hp' := hp.calls (orkStageMap k p.calls e.stg).2.2
  refine ⟨⟨v, hfull, hvp, hvm, hvne, ?_, rfl⟩, hp'.evict hvp, mem_store.mpr (Or.inr ⟨he, hvne.symm⟩), others_evict_lt hvo⟩
  intro w hw hwm hwne hwv
  exact hp'.least hv (mem_others.mpr ⟨hw, hwm, hwne⟩) hwv

theorem Pool.Sound.acquired_full (hp : p.Sound uses) (he : e ∈ p.e) (hm : e.mapped = false) (k : Kernel) (n : Nat)
    (hnone : p.others e.id = []) : Acquired k uses p e false e { p with calls := n } where
  evictions := ⟨p, .refl, fun _ _ => Iff.rfl⟩
  id := rfl
  mem := he
  mapped := hm
  exhausted := by
    intro _ w hw hne
    by_contra hw'
    have hmem : w ∈ p.others e.id := mem_others.mpr ⟨hw, Bool.eq_true_of_not_eq_false hw', hne⟩
    rw [hnone] at hmem
    exact absurd hmem List.not_mem_nil
  sound := hp.calls n

theorem Pool.Sound.acquired_fits (hp : p.Sound uses) (he : e ∈ p.e) (hm : e.mapped = false) {k : Kernel}
    (hfit : (orkStageMap k p.calls e.stg).1 = true) (n : Nat) :
    let e' := { e with stg := (orkStageMap k p.calls e.stg).2.1, mapped := true }
    Acquired k uses p e true e' { p.store e' with calls := n } where
  evictions := by
    refine ⟨p, .refl, fun x hx => mem_store.trans ⟨?_, fun hxp => Or.inr ⟨hxp, hx⟩⟩⟩
    rintro (⟨rfl, -⟩ | ⟨hxp, -⟩)
    · exact absurd rfl hx
    · exact hxp
  id := rfl
  mem := mem_store.mpr (Or.inl ⟨rfl, e, he, rfl⟩)
  mapped := rfl
  exhausted := nofun
  sound := by
    obtain ⟨hsound, hmark⟩ := (hp.stage e he).map ((hp.marked e he).symm.trans hm) k p.calls
    refine Pool.Sound.calls (hp.store he ?_ (hmark.trans hfit).symm hsound ?_) n <;> rfl

/-- The loop ends, and how: each round that goes on has one candidate less before it. -/
theorem Pool.Sound.makeRoom (hp : p.Sound uses) (he : e ∈ p.e) (hm : e.mapped = false) (k : Kernel) :
    ∃ ok e' q, (∀ fuel, (p.others e.id).length < fuel → makeRoom k fuel p e = some (ok, e', q)) ∧
      Acquired k uses p e ok e' q := by
  induction hn : (p.others e.id).length using Nat.strongRecOn generalizing p with
  | ind n ih =>
      have hround : ∀ fuel, OrkDriver.Stream.makeRoom k (fuel + 1) p e = _ := hp.makeRoom_succ he hm k
      have hfuel : ∀ {fuel}, n < fuel → ∃ f, fuel = f + 1 := fun h =>
        Nat.exists_eq_succ_of_ne_zero (Nat.ne_of_gt (Nat.zero_lt_of_lt h))
      by_cases hfit : (orkStageMap k p.calls e.stg).1 = true
      · refine ⟨true, _, _, fun fuel hlt => ?_, hp.acquired_fits he hm hfit (orkStageMap k p.calls e.stg).2.2⟩
        obtain ⟨f, rfl⟩ := hfuel hlt
        rw [hround]
        exact if_pos hfit
      · simp only [if_neg hfit] at hround
        cases hlru : poolUnmapLru { p with calls := (orkStageMap k p.calls e.stg).2.2 } e.id with
        | none =>
            have hnone : p.others e.id = [] :=
              (poolUnmapLru_eq_none (p := { p with calls := (orkStageMap k p.calls e.stg).2.2 })).mp hlru
            refine ⟨false, e, _, fun fuel hlt => ?_, hp.acquired_full he hm k (orkStageMap k p.calls e.stg).2.2 hnone⟩
            obtain ⟨f, rfl⟩ := hfuel hlt
            rw [hround, hlru]
        | some q =>
            obtain ⟨hev, hq, heq, hless⟩ := hp.eviction he (Bool.eq_false_of_not_eq_true hfit) hlru
            obtain ⟨ok, e', t, hrun, hacq⟩ := ih _ (hn ▸ hless) hq heq rfl
            obtain ⟨p', hchain, hrest⟩ := hacq.evictions
            refine ⟨ok, e', t, fun fuel hlt => ?_, { hacq with evictions := ⟨p', .head hev hchain, hrest⟩ }⟩
            obtain ⟨f, rfl⟩ := hfuel hlt
            rw [hround, hlru]
            exact hrun f (by omega)

theorem Pool.Sound.acquire (hp : p.Sound uses) (he : e ∈ p.e) (k : Kernel) :
    ∃ ok e' q, (∀ fuel, (p.others e.id).length < fuel → acquire k fuel p e = some (ok, e', q)) ∧
      Acquired k uses p e ok e' q := by
  unfold OrkDriver.Stream.acquire
  by_cases hm : e.mapped = true
  · simp only [if_pos hm]
    exact ⟨true, e, p, fun _ _ => rfl, ⟨p, .refl, fun _ _ => Iff.rfl⟩, rfl, he, hm, nofun, hp⟩
  · simp only [if_neg hm]
    exact hp.makeRoom he (Bool.eq_false_of_not_eq_true hm) k

end Pools

/-! ### Runs of the pool -/

/-- A call on the pool; entries are named by their `id`. -/
inductive PoolOp
  | add (r : AddCall)
  | map (id : Nat)
  | run (id : Nat) (rc : Int)
  | unmap (id : Nat)
  | remove (id : Nat)

/-- The pool and, newest first, the entries that were run in it. -/
structure Session where
  pool : Pool
  uses : List Nat

/-- The calls a user of the pool can make: an entry is passed in only while it is in the pool. -/
inductive Step (soc : Soc) (k : Kernel) : Session → PoolOp → Session → Prop
  | added {s : Session} {r : AddCall} {q : Pool} :
      streamPoolAdd soc s.pool r = some q → Step soc k s (.add r) { s with pool := q }
  | refused {s : Session} {r : AddCall} : streamPoolAdd soc s.pool r = none → Step soc k s (.add r) s
  | map {s : Session} {e : StreamEntry} :
      e ∈ s.pool.e → Step soc k s (.map e.id) { s with pool := orkStreamPoolMap k s.pool e }
  | run {s : Session} {e : StreamEntry} {rc code : Int} {fuel : Nat} {ok : Bool} {e' : StreamEntry} {p q : Pool} :
      e ∈ s.pool.e → acquire k fuel s.pool e = some (ok, e', p) → orkStreamPoolRun k fuel s.pool e rc = some (code, q) →
      Step soc k s (.run e.id rc) ⟨q, if ok = true then e.id :: s.uses else s.uses⟩
  | unmap {s : Session} {e : StreamEntry} :
      e ∈ s.pool.e → Step soc k s (.unmap e.id) { s with pool := orkStreamPoolUnmap s.pool e }
  | remove {s : Session} {e : StreamEntry} :
      e ∈ s.pool.e → Step soc k s (.remove e.id) { s with pool := orkStreamPoolRemove s.pool e }

/-- A pool from `ork_stream_pool_create` on. -/
def streaming (soc : Soc) (k : Kernel) : Transition.System Session PoolOp where
  init s := s = ⟨orkStreamPoolCreate, []⟩
  step := Step soc k

section Runs

variable {soc : Soc} {k : Kernel} {s t : Session}

theorem makeRoom_mono {p : Pool} {e : StreamEntry} {r : Bool × StreamEntry × Pool} {fuel : Nat}
    (h : makeRoom k fuel p e = some r) : makeRoom k (fuel + 1) p e = some r := by
  induction fuel generalizing p e with
  | zero => exact absurd h (Option.some_ne_none r).symm
  | succ fuel ih =>
      rw [makeRoom] at h ⊢
      dsimp only at h ⊢
      split_ifs at h ⊢
      · exact h
      · cases hlru : poolUnmapLru _ _ with
        | none =>
            rw [hlru] at h
            exact h
        | some q =>
            rw [hlru] at h
            exact ih h

/-- However much fuel an acquisition was given, it ended as `Acquired` says. -/
theorem Pool.Sound.acquired {uses : List Nat} {p : Pool} (hp : p.Sound uses) {e e' : StreamEntry} (he : e ∈ p.e)
    {fuel : Nat} {ok : Bool} {q : Pool} (h : OrkDriver.Stream.acquire k fuel p e = some (ok, e', q)) : Acquired k uses p e ok e' q := by
  obtain ⟨ok', e'', q', hrun, hacq⟩ := hp.acquire he k
  have hmono : ∀ n, OrkDriver.Stream.acquire k (fuel + n) p e = some (ok, e', q) := by
    intro n
    induction n with
    | zero => exact h
    | succ n ih =>
        unfold OrkDriver.Stream.acquire at ih ⊢
        split_ifs at ih ⊢
        · exact ih
        · exact makeRoom_mono ih
  have heq := (hmono ((p.others e.id).length + 1)).symm.trans (hrun _ (by omega))
  cases heq
  exact hacq

theorem sound_step (hs : s.pool.Sound s.uses) {op : PoolOp} (h : Step soc k s op t) : t.pool.Sound t.uses := by
  cases h with
  | added h => exact hs.add h
  | refused => exact hs
  | @map e he =>
      unfold orkStreamPoolMap
      split_ifs with hm
      · exact hs
      · have hm' := Bool.eq_false_of_not_eq_true hm
        obtain ⟨hstg, hmark⟩ := (hs.stage e he).map ((hs.marked e he).symm.trans hm') k s.pool.calls
        refine Pool.Sound.calls (hs.store he ?_ hmark.symm hstg ?_) _ <;> rfl
  | @run e rc code fuel ok e' p q he hacq hrun =>
      have hA := hs.acquired he hacq
      rw [orkStreamPoolRun, hacq, Option.map_some, Option.some.injEq] at hrun
      cases ok with
      | false =>
          cases hrun
          exact hA.sound
      | true =>
          cases hrun
          have htouch := hA.sound.touch hA.mem
          rw [hA.id] at htouch
          exact htouch
  | unmap he =>
      unfold orkStreamPoolUnmap
      split_ifs
      · exact hs
      · exact hs.evict he
  | remove he => exact hs.remove _

theorem sound_reachable (hs : (streaming soc k).Reachable s) : s.pool.Sound s.uses := by
  apply hs.invariant
  · rintro _ rfl
    exact ⟨List.nodup_nil, nofun, nofun, rfl, nofun, nofun, nofun⟩
  · intro s e t _ hI _ hstep
    exact sound_step hI hstep

/-- In every state of the pool an entry is marked mapped exactly when its slot is mapped, all of it, and an acquisition
of any entry ends: each of its evictions takes the entry that has been unused for longest among the other mapped ones,
and it fails only with no other entry mapped. -/
theorem streaming_window (soc : Soc) (k : Kernel) {s : Session} (hs : (streaming soc k).Reachable s) :
    (∀ e ∈ s.pool.e, e.mapped = e.stg.mapped ∧ (e.mapped = true → ∀ b ∈ e.stg.bufs, b.handle ≠ 0) ∧
      (e.mapped = false → ∀ b ∈ e.stg.bufs, b.Bare)) ∧
    ∀ e ∈ s.pool.e, ∃ ok e' q, Acquired k s.uses s.pool e ok e' q ∧
      ∀ fuel, (s.pool.others e.id).length < fuel → acquire k fuel s.pool e = some (ok, e', q) ∧
        ∀ rc, ∃ q', orkStreamPoolRun k fuel s.pool e rc = some (if ok = true then rc else -1, q') := by
  have hp := sound_reachable hs
  constructor
  · intro e he
    have hm := hp.marked e he
    exact ⟨hm, fun h => (hp.stage e he).mapped (hm ▸ h), fun h => (hp.stage e he).bare (hm ▸ h)⟩
  · intro e he
    obtain ⟨ok, e', q, hrun, hacq⟩ := hp.acquire he k
    refine ⟨ok, e', q, hacq, fun fuel hfuel => ⟨hrun fuel hfuel, fun rc => ?_⟩⟩
    rw [orkStreamPoolRun, hrun fuel hfuel, Option.map_some]
    cases ok with
    | false => exact ⟨q, rfl⟩
    | true =>
        have hstg : e'.stg.mapped = true := (hacq.sound.marked e' hacq.mem).symm.trans hacq.mapped
        refine ⟨q.touch e', ?_⟩
        rw [if_pos rfl, if_pos rfl, orkStageRun, if_neg (by rw [hstg]; exact Bool.true_eq_false.mp)]

/-- A window that is full when the second entry asks for its place, and has room again after an eviction. -/
def tightWindow : Kernel := fun t => if t = 1 then none else some ⟨1, 4096, 8192, Nat.one_ne_zero⟩

def smallAdd : AddCall := ⟨32, 32, true, true, true, true, true⟩

theorem streaming_window_tight :
    ∃ s : Session, s.pool.e.map StreamEntry.mapped = [false, true] ∧ s.uses = [1, 0] ∧
      ∀ e ∈ s.pool.e, e.mapped = e.stg.mapped ∧ (e.mapped = true → ∀ b ∈ e.stg.bufs, b.handle ≠ 0) ∧
        (e.mapped = false → ∀ b ∈ e.stg.bufs, b.Bare) := by
  have h2 : (streaming Npu.socRk3588 tightWindow).Reachable _ :=
    .step (.step (.init rfl) trivial (.added (r := smallAdd) rfl)) trivial (.added (r := smallAdd) rfl)
  have h3 := Transition.System.ReachableOn.step h2 trivial (@Step.run _ _ _ _ 0 _ 1 _ _ _ _ List.mem_cons_self rfl rfl)
  have h4 := Transition.System.ReachableOn.step h3 trivial
    (@Step.run _ _ _ _ 0 _ 2 _ _ _ _ (List.mem_cons_of_mem _ List.mem_cons_self) rfl rfl)
  exact ⟨_, by decide, rfl, (streaming_window _ _ h4).1⟩

end Runs

end OrkDriver.Stream
