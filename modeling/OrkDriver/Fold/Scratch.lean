import OrkDriver.Fold.Container

/-!
The scratch buffers of the row-folded int8 runs (`fold_scr` of `npu/i8/fold.c`): eight entries that `fold_scr_get` makes
on demand and replaces oldest first, and the batch that holds several of them at once.
-/

namespace OrkDriver.Fold

/-! ### The code -/

/-- `struct fold_scratch`, by its address and the shape it was made for. -/
structure Scratch where
  ptr : Nat
  M : Nat
  N : Nat
  domain : Nat
  deriving DecidableEq

def Scratch.key (e : Scratch) : Nat × Nat × Nat := (e.M, e.N, e.domain)

/-- `fold_scr` with the oldest entry first. `made` counts the entries asked for, and numbers the next one. -/
structure ScrTable where
  scr : List Scratch
  made : Nat

def ScrTable.empty : ScrTable := { scr := [], made := 0 }

/-- The entry `fold_scr_get` builds. -/
def ScrTable.fresh (c : ScrTable) (M N dom : Nat) : Scratch := { ptr := c.made, M, N, domain := dom }

/-- The end of `fold_scr_get`: the oldest entry of a full table is freed. -/
def ScrTable.insert (c : ScrTable) (fs : Scratch) : ScrTable :=
  { scr := if c.scr.length < 8 then c.scr ++ [fs] else c.scr.tail ++ [fs], made := c.made + 1 }

/-- `fold_scr_get`; `builds` says which entries can be built. An entry is allocated while it is in the table. -/
def foldScrGet (builds : Nat → Bool) (c : ScrTable) (M N dom : Nat) : Option Scratch × ScrTable :=
  match c.scr.find? (fun e => e.key = (M, N, dom)) with
  | some e => (some e, c)
  | none =>
    if builds c.made then (some (c.fresh M N dom), c.insert (c.fresh M N dom))
    else (none, { c with made := c.made + 1 })

/-- What a fold reads of an `ork_w`; `foldNs` is 0 without a fold layout. -/
structure BatchW where
  K : Nat
  N : Nat
  domain : Nat
  foldNs : Nat

/-- What a batch finds: the device, the input buffer, the entries that can be built, and whether the submits are taken. -/
structure BatchEnv where
  fd : Int
  input : Bool
  builds : Nat → Bool
  submits : Bool

/-- The entries a batch gets, one for each width, up to the first that cannot be built. -/
def fetchAll (builds : Nat → Bool) (M dom : Nat) (c : ScrTable) : List Nat → List Scratch × Bool × ScrTable
  | [] => ([], true, c)
  | N :: Ns =>
    match foldScrGet builds c M N dom with
    | (none, c') => ([], false, c')
    | (some e, c') => (e :: (fetchAll builds M dom c' Ns).1, (fetchAll builds M dom c' Ns).2)

/-- The answer of a batch, the entries it held, and the table it leaves. -/
structure Batch where
  rc : Int
  held : List Scratch
  table : ScrTable

/-- The weights a batch takes: one width of rows, one domain. -/
def batchTakes (ws : List (Option BatchW)) (dom M : Nat) : Prop :=
  1 ≤ M ∧ M ≤ 128 ∧ ws.length ≤ 16 ∧
    ∀ w ∈ ws, ∃ x, w = some x ∧ x.K = foldRefK ∧ 1 ≤ x.foldNs ∧ x.foldNs ≤ 64 ∧ x.domain = dom

instance (ws : List (Option BatchW)) (dom M : Nat) : Decidable (batchTakes ws dom M) :=
  have (w : Option BatchW) :
      Decidable (∃ x, w = some x ∧ x.K = foldRefK ∧ 1 ≤ x.foldNs ∧ x.foldNs ≤ 64 ∧ x.domain = dom) :=
    match w with
    | none => .isFalse nofun
    | some x => decidable_of_iff (x.K = foldRefK ∧ 1 ≤ x.foldNs ∧ x.foldNs ≤ 64 ∧ x.domain = dom)
        ⟨fun h => ⟨x, rfl, h⟩, fun ⟨_, e, h⟩ => Option.some.inj e ▸ h⟩
  inferInstanceAs (Decidable (_ ∧ _))

/-- `ork_npu_fold_batch_w`. Every fold of the batch, and every repetition, uses the entries fetched at its start. -/
def orkNpuFoldBatchW (v : BatchEnv) (c : ScrTable) (ws : List (Option BatchW)) (M : Nat) : Batch :=
  match ws with
  | some w :: _ =>
    if v.fd < 0 then { rc := -3, held := [], table := c }
    else if ¬ batchTakes ws w.domain M then { rc := -1, held := [], table := c }
    else if v.input = false then { rc := -2, held := [], table := c }
    else
      let r := fetchAll v.builds M w.domain c (ws.filterMap fun w => w.map BatchW.N)
      { rc := if r.2.1 ∧ v.submits then 0 else -2, held := r.1, table := r.2.2 }
  | _ => { rc := -3, held := [], table := c }

/-- `ork_npu_fold_run_w`, the fold of one weight. -/
def orkNpuFoldRunW (v : BatchEnv) (c : ScrTable) (w : Option BatchW) (M : Nat) : Batch :=
  match w with
  | some w =>
    if v.fd < 0 ∨ w.foldNs = 0 then { rc := -3, held := [], table := c }
    else if w.K ≠ foldRefK ∨ M < 1 ∨ 128 < M ∨ 64 < w.foldNs then { rc := -1, held := [], table := c }
    else if v.input = false then { rc := -2, held := [], table := c }
    else
      let r := fetchAll v.builds M w.domain c [w.N]
      { rc := if r.2.1 ∧ v.submits then 0 else -2, held := r.1, table := r.2.2 }
  | none => { rc := -3, held := [], table := c }

/-- The calls that use the table. -/
inductive FoldCall
  | run (v : BatchEnv) (w : Option BatchW) (M : Nat)
  | batch (v : BatchEnv) (ws : List (Option BatchW)) (M : Nat)
  | free

def FoldCall.table (c : ScrTable) : FoldCall → ScrTable
  | .run v w M => (orkNpuFoldRunW v c w M).table
  | .batch v ws M => (orkNpuFoldBatchW v c ws M).table
  | .free => { c with scr := [] }

/-- The table of a context after some calls. -/
def tableAfter (calls : List FoldCall) : ScrTable := calls.foldl FoldCall.table ScrTable.empty

/-! ### When a batch keeps its entries -/

/-- The entries a batch holds are allocated, as they were, when it has been collected. -/
def Batch.Live (b : Batch) : Prop := ∀ e ∈ b.held, e ∈ b.table.scr

/-- From the shapes alone: no width of a batch is new to a full table whose oldest shape is one the batch uses already.
`old` are the shapes the table had before the batch and has still, oldest first, `free` is the number of entries that
have never been taken, and `used` are the widths the batch has fetched. -/
def Outlives (builds : Nat → Bool) (M dom : Nat) (made free : Nat) (old : List (Nat × Nat × Nat)) (used : List Nat) :
    List Nat → Prop
  | [] => True
  | N :: Ns =>
    if N ∈ used then Outlives builds M dom made free old used Ns
    else if (M, N, dom) ∈ old then Outlives builds M dom made free old (N :: used) Ns
    else if builds made then
      match free, old with
      | f + 1, old => Outlives builds M dom (made + 1) f old (N :: used) Ns
      | 0, k :: old => (∀ N' ∈ used, (M, N', dom) ≠ k) ∧ Outlives builds M dom (made + 1) 0 old (N :: used) Ns
      | 0, [] => False
    else True

/-! ### The table -/

structure ScrTable.Ok (c : ScrTable) : Prop where
  length_le : c.scr.length ≤ 8
  ptr_lt : ∀ e ∈ c.scr, e.ptr < c.made
  keys : (c.scr.map Scratch.key).Nodup

theorem ScrTable.ok_empty : ScrTable.empty.Ok := ⟨by decide, nofun, List.nodup_nil⟩

theorem foldScrGet_cases (builds : Nat → Bool) (c : ScrTable) (M N dom : Nat) :
    (∃ e ∈ c.scr, e.key = (M, N, dom) ∧ foldScrGet builds c M N dom = (some e, c)) ∨
    (M, N, dom) ∉ c.scr.map Scratch.key ∧
      (builds c.made = true ∧
          foldScrGet builds c M N dom = (some (c.fresh M N dom), c.insert (c.fresh M N dom)) ∨
        builds c.made = false ∧ foldScrGet builds c M N dom = (none, { c with made := c.made + 1 })) := by
  unfold foldScrGet
  cases hf : c.scr.find? (fun e => e.key = (M, N, dom)) with
  | some e =>
    have hk := List.find?_some hf
    exact .inl ⟨e, List.mem_of_find?_eq_some hf, of_decide_eq_true hk, rfl⟩
  | none =>
    refine .inr ⟨fun hm => ?_, ?_⟩
    · obtain ⟨e, he, hk⟩ := List.mem_map.mp hm
      exact absurd (decide_eq_true hk) (List.find?_eq_none.mp hf e he)
    · cases hmk : builds c.made with
      | true => exact .inl ⟨rfl, rfl⟩
      | false => exact .inr ⟨rfl, rfl⟩

theorem ScrTable.Ok.insert {c : ScrTable} (h : c.Ok) {M N dom : Nat} (hk : (M, N, dom) ∉ c.scr.map Scratch.key) :
    (c.insert (c.fresh M N dom)).Ok := by
  have hlt : ∀ {rest : List Scratch}, rest.Sublist c.scr → ∀ e ∈ rest ++ [c.fresh M N dom], e.ptr < c.made + 1 := by
    intro rest hr e he
    rcases List.mem_append.mp he with he | he
    · exact Nat.lt_succ_of_lt (h.ptr_lt e (hr.subset he))
    · rw [List.mem_singleton.mp he]
      exact Nat.lt_succ_self _
  have hnd : ∀ {rest : List Scratch}, rest.Sublist c.scr → ((rest ++ [c.fresh M N dom]).map Scratch.key).Nodup := by
    intro rest hr
    rw [List.map_append, List.nodup_append]
    refine ⟨h.keys.sublist (hr.map _), List.nodup_singleton _, fun k hk' k' hk'' e => hk ?_⟩
    rw [List.map_singleton, List.mem_singleton] at hk''
    have hkey : k = (M, N, dom) := e.trans hk''
    exact (hr.map _).subset (hkey ▸ hk')
  unfold ScrTable.insert
  split_ifs with hlen
  · refine ⟨?_, hlt (List.Sublist.refl _), hnd (List.Sublist.refl _)⟩
    rw [List.length_append]
    exact hlen
  · refine ⟨?_, hlt (List.tail_sublist _), hnd (List.tail_sublist _)⟩
    have := h.length_le
    simp only [List.length_append, List.length_tail, List.length_singleton]
    omega

theorem foldScrGet_ok {builds : Nat → Bool} {c : ScrTable} (h : c.Ok) (M N dom : Nat) :
    (foldScrGet builds c M N dom).2.Ok := by
  obtain ⟨e, -, -, he⟩ | ⟨hk, ⟨-, he⟩ | ⟨-, he⟩⟩ := foldScrGet_cases builds c M N dom
  · rw [he]
    exact h
  · rw [he]
    exact h.insert hk
  · rw [he]
    exact ⟨h.length_le, fun e he => Nat.lt_succ_of_lt (h.ptr_lt e he), h.keys⟩

theorem fetchAll_ok {builds : Nat → Bool} {M dom : Nat} {Ns : List Nat} {c : ScrTable} (h : c.Ok) :
    (fetchAll builds M dom c Ns).2.2.Ok := by
  induction Ns generalizing c with
  | nil => exact h
  | cons N Ns ih =>
    have hg : (foldScrGet builds c M N dom).2.Ok := foldScrGet_ok h M N dom
    unfold fetchAll
    generalize foldScrGet builds c M N dom = r at hg ⊢
    obtain ⟨_ | e, c'⟩ := r
    · exact hg
    · exact ih hg

theorem FoldCall.table_ok {c : ScrTable} (h : c.Ok) (call : FoldCall) : (call.table c).Ok := by
  cases call with
  | run v w M =>
    change (orkNpuFoldRunW v c w M).table.Ok
    unfold orkNpuFoldRunW
    split
    · split_ifs <;> first | exact h | exact fetchAll_ok h
    · exact h
  | batch v ws M =>
    change (orkNpuFoldBatchW v c ws M).table.Ok
    unfold orkNpuFoldBatchW
    split
    · split_ifs <;> first | exact h | exact fetchAll_ok h
    · exact h
  | free => exact ⟨Nat.zero_le _, nofun, List.nodup_nil⟩

theorem tableAfter_ok (calls : List FoldCall) : (tableAfter calls).Ok := by
  unfold tableAfter
  have h := ScrTable.ok_empty
  generalize ScrTable.empty = c at h ⊢
  induction calls generalizing c with
  | nil => exact h
  | cons call calls ih => exact ih _ (call.table_ok h)

/-- An entry that the table has lost does not come back. -/
theorem fetchAll_gone {builds : Nat → Bool} {M dom : Nat} {e : Scratch} {Ns : List Nat} {c : ScrTable}
    (he : e.ptr < c.made) (hc : e ∉ c.scr) : e ∉ (fetchAll builds M dom c Ns).2.2.scr := by
  induction Ns generalizing c with
  | nil => exact hc
  | cons N Ns ih =>
    unfold fetchAll
    obtain ⟨x, -, -, hx⟩ | ⟨-, ⟨-, hx⟩ | ⟨-, hx⟩⟩ := foldScrGet_cases builds c M N dom
    · rw [hx]
      exact ih he hc
    · rw [hx]
      refine ih (Nat.lt_succ_of_lt he) fun hm => ?_
      have hne : e ≠ c.fresh M N dom := fun h => absurd (congrArg Scratch.ptr h) (Nat.ne_of_lt he)
      unfold ScrTable.insert at hm
      split_ifs at hm with hlen
      · exact (List.mem_append.mp hm).elim hc fun h => hne (List.mem_singleton.mp h)
      · exact (List.mem_append.mp hm).elim (fun h => hc (List.mem_of_mem_tail h)) fun h => hne (List.mem_singleton.mp h)
    · rw [hx]
      exact hc

/-! ### A batch -/

/-- The table in the middle of a batch that has fetched the widths `used` and holds the entries `H`. -/
structure Tracks (c : ScrTable) (M dom free : Nat) (old : List (Nat × Nat × Nat)) (used : List Nat) (H : List Scratch) :
    Prop where
  ok : c.Ok
  room : free + c.scr.length = 8
  shapes : ∃ new, c.scr.map Scratch.key = old ++ new ∧ ∀ k ∈ new, ∃ N ∈ used, k = (M, N, dom)
  held_mem : ∀ e ∈ H, e ∈ c.scr
  held_iff : ∀ e ∈ c.scr, e ∈ H ↔ ∃ N ∈ used, e.key = (M, N, dom)
  used_mem : ∀ N ∈ used, (M, N, dom) ∈ c.scr.map Scratch.key

theorem Tracks.start {c : ScrTable} (h : c.Ok) (M dom : Nat) :
    Tracks c M dom (8 - c.scr.length) (c.scr.map Scratch.key) [] [] where
  ok := h
  room := by
    have := h.length_le
    omega
  shapes := ⟨[], (List.append_nil _).symm, nofun⟩
  held_mem := nofun
  held_iff := fun _ _ => ⟨nofun, fun ⟨_, h, _⟩ => absurd h List.not_mem_nil⟩
  used_mem := nofun

section
variable {c : ScrTable} {M dom free : Nat} {old : List (Nat × Nat × Nat)} {used : List Nat} {H : List Scratch}

/-- A width that the batch meets for the first time and finds in the table. -/
theorem Tracks.hit (h : Tracks c M dom free old used H) {e : Scratch} {N : Nat} (he : e ∈ c.scr)
    (hk : e.key = (M, N, dom)) : Tracks c M dom free old (N :: used) (e :: H) where
  ok := h.ok
  room := h.room
  shapes := by
    obtain ⟨new, heq, hn⟩ := h.shapes
    refine ⟨new, heq, fun k hk => ?_⟩
    obtain ⟨N', hN', e⟩ := hn k hk
    exact ⟨N', List.mem_cons_of_mem _ hN', e⟩
  held_mem := by
    intro x hx
    rcases List.mem_cons.mp hx with rfl | hx
    · exact he
    · exact h.held_mem x hx
  held_iff := by
    intro x hx
    rw [List.mem_cons, h.held_iff x hx]
    constructor
    · rintro (rfl | ⟨N', hN', hk'⟩)
      · exact ⟨N, List.mem_cons_self, hk⟩
      · exact ⟨N', List.mem_cons_of_mem _ hN', hk'⟩
    · rintro ⟨N', hN', hk'⟩
      rcases List.mem_cons.mp hN' with rfl | hN'
      · exact .inl (List.inj_on_of_nodup_map h.ok.keys hx he (hk'.trans hk.symm))
      · exact .inr ⟨N', hN', hk'⟩
  used_mem := by
    intro N' hN'
    rcases List.mem_cons.mp hN' with rfl | hN'
    · exact hk ▸ List.mem_map_of_mem he
    · exact h.used_mem N' hN'

/-- A width whose entry is built; `rest` is what stays of the table. -/
theorem Tracks.built (h : Tracks c M dom free old used H) {N : Nat} (hk : (M, N, dom) ∉ c.scr.map Scratch.key)
    {rest : List Scratch} {free' : Nat} {old' : List (Nat × Nat × Nat)} (hsub : rest.Sublist c.scr)
    (hscr : (c.insert (c.fresh M N dom)).scr = rest ++ [c.fresh M N dom]) (hroom : free' + rest.length = 7)
    (hshapes : ∃ new, rest.map Scratch.key = old' ++ new ∧ ∀ k ∈ new, ∃ N ∈ used, k = (M, N, dom))
    (hH : ∀ e ∈ H, e ∈ rest) :
    Tracks (c.insert (c.fresh M N dom)) M dom free' old' (N :: used) (c.fresh M N dom :: H) := by
  refine { ok := h.ok.insert hk, room := ?_, shapes := ?_, held_mem := ?_, held_iff := ?_, used_mem := ?_ }
  · rw [hscr, List.length_append, List.length_singleton]
    omega
  · obtain ⟨new, heq, hn⟩ := hshapes
    refine ⟨new ++ [(M, N, dom)], ?_, fun k hk => ?_⟩
    · rw [hscr, List.map_append, heq, List.append_assoc]
      rfl
    · rcases List.mem_append.mp hk with hk | hk
      · obtain ⟨N', hN', e⟩ := hn k hk
        exact ⟨N', List.mem_cons_of_mem _ hN', e⟩
      · exact ⟨N, List.mem_cons_self, List.mem_singleton.mp hk⟩
  · intro x hx
    rw [hscr]
    rcases List.mem_cons.mp hx with rfl | hx
    · exact List.mem_append_right _ List.mem_cons_self
    · exact List.mem_append_left _ (hH x hx)
  · intro x hx
    rw [hscr] at hx
    rcases List.mem_append.mp hx with hx | hx
    · have hxc := hsub.subset hx
      have hxN : x.key ≠ (M, N, dom) := fun e => hk (e ▸ List.mem_map_of_mem hxc)
      rw [List.mem_cons, h.held_iff x hxc]
      constructor
      · rintro (rfl | ⟨N', hN', e⟩)
        · exact absurd rfl hxN
        · exact ⟨N', List.mem_cons_of_mem _ hN', e⟩
      · rintro ⟨N', hN', e⟩
        rcases List.mem_cons.mp hN' with rfl | hN'
        · exact absurd e hxN
        · exact .inr ⟨N', hN', e⟩
    · rw [List.mem_singleton.mp hx]
      exact ⟨fun _ => ⟨N, List.mem_cons_self, rfl⟩, fun _ => List.mem_cons_self⟩
  · intro N' hN'
    rw [hscr, List.map_append]
    rcases List.mem_cons.mp hN' with rfl | hN'
    · exact List.mem_append_right _ List.mem_cons_self
    · obtain ⟨e, he, hkey⟩ := List.mem_map.mp (h.used_mem N' hN')
      have heH := (h.held_iff e he).mpr ⟨N', hN', hkey⟩
      exact List.mem_append_left _ (hkey ▸ List.mem_map_of_mem (hH e heH))

end

/-- An entry that the batch holds and the table replaces is missing ever after. -/
theorem not_live_of_replaced {builds : Nat → Bool} {c : ScrTable} (h : c.Ok) {M N dom : Nat} {hd : Scratch}
    {tl H : List Scratch} {Ns : List Nat} (hmem : hd ∈ c.scr)
    (hins : (c.insert (c.fresh M N dom)).scr = tl ++ [c.fresh M N dom]) (htl : hd ∉ tl) (hheld : hd ∈ H) :
    ¬ ∀ e ∈ H ++ (fetchAll builds M dom (c.insert (c.fresh M N dom)) Ns).1,
      e ∈ (fetchAll builds M dom (c.insert (c.fresh M N dom)) Ns).2.2.scr := by
  intro hall
  have hlt := h.ptr_lt hd hmem
  refine fetchAll_gone (Nat.lt_succ_of_lt hlt) (fun hm => ?_) (hall hd (List.mem_append_left _ hheld))
  rw [hins] at hm
  rcases List.mem_append.mp hm with hm | hm
  · exact htl hm
  · exact absurd (congrArg Scratch.ptr (List.mem_singleton.mp hm)) (Nat.ne_of_lt hlt)

/-- What is left of the batch keeps its entries, and those it holds, exactly when the shapes say so. -/
theorem fetchAll_live_iff {builds : Nat → Bool} {M dom : Nat} {Ns : List Nat} {c : ScrTable} {free : Nat}
    {old : List (Nat × Nat × Nat)} {used : List Nat} {H : List Scratch} (h : Tracks c M dom free old used H) :
    (∀ e ∈ H ++ (fetchAll builds M dom c Ns).1, e ∈ (fetchAll builds M dom c Ns).2.2.scr) ↔
      Outlives builds M dom c.made free old used Ns := by
  induction Ns generalizing c free old used H with
  | nil =>
    refine ⟨fun _ => trivial, fun _ e he => h.held_mem e ?_⟩
    rwa [fetchAll, List.append_nil] at he
  | cons N Ns ih =>
    unfold fetchAll Outlives
    have hnew : N ∉ used → (M, N, dom) ∉ old → (M, N, dom) ∉ c.scr.map Scratch.key := by
      intro hN hold hm
      obtain ⟨new, heq, hn⟩ := h.shapes
      rw [heq] at hm
      rcases List.mem_append.mp hm with hm | hm
      · exact hold hm
      · obtain ⟨N', hN', e⟩ := hn _ hm
        injection e with _ e
        injection e with e
        exact hN (e ▸ hN')
    obtain ⟨e, he, hkey, hget⟩ | ⟨hk, hget⟩ := foldScrGet_cases builds c M N dom
    · rw [hget]
      dsimp only
      split_ifs with hN hold
      · have heH := (h.held_iff e he).mpr ⟨N, hN, hkey⟩
        rw [← ih h]
        refine forall_congr' fun x => imp_congr_left ?_
        rw [List.mem_append, List.mem_append, List.mem_cons]
        constructor
        · rintro (hx | rfl | hx)
          · exact .inl hx
          · exact .inl heH
          · exact .inr hx
        · exact fun hx => hx.imp_right .inr
      · rw [← ih (h.hit he hkey)]
        exact forall_congr' fun x => imp_congr_left List.perm_middle.mem_iff
      · exact absurd (List.mem_map_of_mem he) (hkey ▸ hnew hN hold)
      · exact absurd (List.mem_map_of_mem he) (hkey ▸ hnew hN hold)
    · have hN : N ∉ used := fun hN => hk (h.used_mem N hN)
      have hold : (M, N, dom) ∉ old := by
        obtain ⟨new, heq, -⟩ := h.shapes
        exact fun hm => hk (heq ▸ List.mem_append_left _ hm)
      rw [if_neg hN, if_neg hold]
      obtain ⟨hb, hget⟩ | ⟨hb, hget⟩ := hget
      · rw [hget, if_pos hb]
        have hroom := h.room
        have hperm : (∀ e ∈ H ++ c.fresh M N dom :: (fetchAll builds M dom (c.insert (c.fresh M N dom)) Ns).1,
            e ∈ (fetchAll builds M dom (c.insert (c.fresh M N dom)) Ns).2.2.scr) ↔
              ∀ e ∈ (c.fresh M N dom :: H) ++ (fetchAll builds M dom (c.insert (c.fresh M N dom)) Ns).1,
                e ∈ (fetchAll builds M dom (c.insert (c.fresh M N dom)) Ns).2.2.scr :=
          forall_congr' fun x => imp_congr_left List.perm_middle.mem_iff
        refine hperm.trans ?_
        cases free with
        | succ f => exact ih (h.built hk (List.Sublist.refl _) (if_pos (by omega)) (by omega) h.shapes h.held_mem)
        | zero =>
          obtain ⟨hd, tl, hscr⟩ := List.exists_cons_of_length_pos (l := c.scr) (by omega)
          have hins : (c.insert (c.fresh M N dom)).scr = tl ++ [c.fresh M N dom] := by
            rw [ScrTable.insert, if_neg (by omega), hscr]
            rfl
          have hmem : hd ∈ c.scr := hscr ▸ List.mem_cons_self
          have hkeys := h.ok.keys
          rw [hscr, List.map_cons, List.nodup_cons] at hkeys
          have hlost : hd ∈ H → ¬ ∀ e ∈ (c.fresh M N dom :: H) ++
              (fetchAll builds M dom (c.insert (c.fresh M N dom)) Ns).1,
                e ∈ (fetchAll builds M dom (c.insert (c.fresh M N dom)) Ns).2.2.scr := fun hheld =>
            not_live_of_replaced h.ok hmem hins (fun hm => hkeys.1 (List.mem_map_of_mem hm))
              (List.mem_cons_of_mem _ hheld)
          obtain ⟨new, heq, hn⟩ := h.shapes
          rw [hscr, List.map_cons] at heq
          cases old with
          | nil =>
            have hheld := (h.held_iff hd hmem).mpr (hn hd.key (by rw [List.nil_append] at heq; exact heq ▸ List.mem_cons_self))
            exact ⟨fun hall => hlost hheld hall, False.elim⟩
          | cons k old =>
            rw [List.cons_append] at heq
            injection heq with hhd htl
            dsimp only
            by_cases hu : ∃ N' ∈ used, hd.key = (M, N', dom)
            · refine ⟨fun hall => absurd hall (hlost ((h.held_iff hd hmem).mpr hu)), fun ho => ?_⟩
              obtain ⟨N', hN', e⟩ := hu
              exact absurd (e.symm.trans hhd) (ho.1 N' hN')
            · have hheld : hd ∉ H := fun hm => hu ((h.held_iff hd hmem).mp hm)
              have hH : ∀ e ∈ H, e ∈ tl := by
                intro e he
                have hm := h.held_mem e he
                rw [hscr] at hm
                exact (List.mem_cons.mp hm).resolve_left fun e' => hheld (e' ▸ he)
              have hlen : tl.length = 7 := by
                rw [hscr, List.length_cons] at hroom
                omega
              have hsub : tl.Sublist c.scr := hscr ▸ List.sublist_cons_self hd tl
              have ht : Tracks (c.insert (c.fresh M N dom)) M dom 0 old (N :: used) (c.fresh M N dom :: H) :=
                h.built hk hsub hins (by omega) ⟨new, htl, hn⟩ hH
              rw [ih ht]
              exact (and_iff_right fun N' hN' e => hu ⟨N', hN', hhd.trans e.symm⟩).symm
      · rw [hget, hb, if_neg Bool.false_ne_true]
        refine ⟨fun _ => trivial, fun _ e he => h.held_mem e ?_⟩
        rwa [List.append_nil] at he

/-- With nothing left of what the table had before, the new widths must fit in the free entries. -/
theorem outlives_new_iff {builds : Nat → Bool} {M dom made free : Nat} {used Ns : List Nat}
    (hb : ∀ i, builds i = true) :
    Outlives builds M dom made free [] used Ns ↔ (Ns.toFinset \ used.toFinset).card ≤ free := by
  induction Ns generalizing made free used with
  | nil => simp [Outlives]
  | cons N Ns ih =>
    unfold Outlives
    split_ifs with hN hold hmade
    · rw [ih, List.toFinset_cons, Finset.insert_sdiff_of_mem _ (List.mem_toFinset.mpr hN)]
    · exact absurd hold List.not_mem_nil
    · have hcard : ((N :: Ns).toFinset \ used.toFinset).card = (Ns.toFinset \ (N :: used).toFinset).card + 1 := by
        rw [List.toFinset_cons, List.toFinset_cons, Finset.insert_sdiff_of_notMem _ (fun h => hN (List.mem_toFinset.mp h)),
          Finset.sdiff_insert, ← Finset.erase_insert_eq_erase, Finset.card_erase_add_one (Finset.mem_insert_self _ _)]
      rw [hcard]
      cases free with
      | zero => exact ⟨False.elim, fun h => absurd h (by omega)⟩
      | succ f =>
        rw [Nat.add_le_add_iff_right]
        exact ih
    · exact absurd (hb made) hmade

/-- The shapes of a batch that is taken say that it keeps its entries. -/
def BatchOutlives (v : BatchEnv) (c : ScrTable) (ws : List (Option BatchW)) (M : Nat) : Prop :=
  ∀ w rest, ws = some w :: rest → 0 ≤ v.fd → batchTakes ws w.domain M → v.input = true →
    Outlives v.builds M w.domain c.made (8 - c.scr.length) (c.scr.map Scratch.key) []
      (ws.filterMap fun w => w.map BatchW.N)

theorem batch_live_iff {c : ScrTable} (hok : c.Ok) (v : BatchEnv) (ws : List (Option BatchW)) (M : Nat) :
    (orkNpuFoldBatchW v c ws M).Live ↔ BatchOutlives v c ws M := by
  unfold orkNpuFoldBatchW BatchOutlives
  split
  · next w rest =>
    split_ifs with hfd htakes hin
    · exact ⟨fun _ _ _ _ h => absurd h (by omega), fun _ => nofun⟩
    · exact ⟨fun _ _ _ _ _ _ h => absurd (hin.symm.trans h) Bool.false_ne_true, fun _ => nofun⟩
    · have hiff : (∀ e ∈ [] ++ (fetchAll v.builds M w.domain c _).1, e ∈ (fetchAll v.builds M w.domain c _).2.2.scr) ↔
          Outlives v.builds M w.domain c.made _ _ [] ((some w :: rest).filterMap fun w => w.map BatchW.N) :=
        fetchAll_live_iff (Tracks.start hok M w.domain)
      constructor
      · intro hlive w' rest' e _ _ _
        injection e with e
        rw [← Option.some.inj e]
        exact hiff.mp hlive
      · intro h
        exact hiff.mpr (h w rest rfl (by omega) htakes (by rwa [Bool.not_eq_false] at hin))
    · refine ⟨fun _ w' rest' e _ h => ?_, fun _ => nofun⟩
      injection e with e
      exact absurd (Option.some.inj e ▸ h) htakes
  · next hnone => exact ⟨fun _ w rest e => absurd e (hnone w rest), fun _ => nofun⟩

/-- On the table that any calls have left, a batch keeps the entries it holds exactly when none of its widths is new to a
full table whose oldest shape the batch has used. -/
theorem foldBatch_live_iff (calls : List FoldCall) (v : BatchEnv) (ws : List (Option BatchW)) (M : Nat) :
    (orkNpuFoldBatchW v (tableAfter calls) ws M).Live ↔ BatchOutlives v (tableAfter calls) ws M :=
  batch_live_iff (tableAfter_ok calls) v ws M

/-- The first batch of a context keeps its entries exactly when it has at most eight widths. -/
theorem foldBatch_first_live_iff {v : BatchEnv} {w : BatchW} {rest : List (Option BatchW)} {M : Nat}
    (hfd : 0 ≤ v.fd) (htakes : batchTakes (some w :: rest) w.domain M) (hin : v.input = true)
    (hb : ∀ i, v.builds i = true) :
    (orkNpuFoldBatchW v ScrTable.empty (some w :: rest) M).Live ↔
      ((some w :: rest).filterMap fun w => w.map BatchW.N).toFinset.card ≤ 8 := by
  have hempty : Outlives v.builds M w.domain 0 8 [] [] ((some w :: rest).filterMap fun w => w.map BatchW.N) ↔ _ :=
    outlives_new_iff hb
  rw [List.toFinset_nil, Finset.sdiff_empty] at hempty
  rw [← hempty]
  refine (batch_live_iff ScrTable.ok_empty v _ M).trans ?_
  constructor
  · exact fun h => h w rest rfl hfd htakes hin
  · intro h w' rest' e _ _ _
    injection e with e
    rw [← Option.some.inj e]
    exact h

/-- A batch of nine widths on a fresh context. -/
theorem foldBatch_nine_not_live :
    ¬ (orkNpuFoldBatchW { fd := 3, input := true, builds := fun _ => true, submits := true } (tableAfter [])
        ((List.range 9).map fun i => some { K := 3584, N := 32 * (i + 1), domain := 0, foldNs := 1 }) 64).Live := by
  unfold Batch.Live
  decide

end OrkDriver.Fold
