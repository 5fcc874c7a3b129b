import OrkDriver.Orkd.Frame

/-!
Weight and KV tables against the heap: every entry of a live client names a live object, no object is in two
tables, and the KV objects of a client sit on weights of its own table as long as FREE leaves those alone.
-/

namespace OrkDriver.Orkd

/-- Nothing of `d'` that the tables consist of differs from `d`. -/
structure SameTables (d d' : Daemon) : Prop where
  nc : d'.nc = d.nc
  wt : ∀ j, (d'.cl j).wt = (d.cl j).wt
  nextWid : ∀ j, (d'.cl j).nextWid = (d.cl j).nextWid
  kvt : ∀ j, (d'.cl j).kvt = (d.cl j).kvt
  weights : d'.weights = d.weights
  kvs : d'.kvs = d.kvs

/-- The effects that register or free an object. -/
def Effect.registers : Effect → Bool
  | .addWeight _ | .addKv .. | .freeWeight _ => true
  | _ => false

namespace SameTables

theorem rfl' (d : Daemon) : SameTables d d :=
  ⟨rfl, fun _ => rfl, fun _ => rfl, fun _ => rfl, rfl, rfl⟩

/-- Rewriting other fields of one client. -/
theorem of_client {d d' : Daemon} {i : Nat} {c : Client} (hcl : d'.cl = Function.update d.cl i c)
    (hwt : c.wt = (d.cl i).wt) (hwid : c.nextWid = (d.cl i).nextWid) (hkvt : c.kvt = (d.cl i).kvt)
    (hnc : d'.nc = d.nc) (hweights : d'.weights = d.weights) (hkvs : d'.kvs = d.kvs) : SameTables d d' where
  nc := hnc
  wt j := by by_cases hj : j = i <;> simp [hcl, hj, hwt]
  nextWid j := by by_cases hj : j = i <;> simp [hcl, hj, hwid]
  kvt j := by by_cases hj : j = i <;> simp [hcl, hj, hkvt]
  weights := hweights
  kvs := hkvs

theorem applyEffect (d : Daemon) (i : Nat) (c : ConnId) {e : Effect} (he : e.registers = false) :
    SameTables d (d.applyEffect i c e) := by
  cases e with
  | none => exact rfl' d
  | hello => exact of_client rfl rfl rfl rfl rfl rfl rfl
  | enqueue w cw =>
      simp only [Daemon.applyEffect, Daemon.enqueue]
      split
      · exact ⟨rfl, fun _ => rfl, fun _ => rfl, fun _ => rfl, rfl, rfl⟩
      · exact rfl' d
  | domReq k => exact of_client rfl rfl rfl rfl rfl rfl rfl
  | domRel k =>
      refine of_client (i := i) (c := { d.cl i with ownedDom := Function.update (d.cl i).ownedDom k false })
        ?_ rfl rfl rfl ?_ ?_ ?_ <;> simp [Daemon.applyEffect, Daemon.domRel, Daemon.setClient]
  | attachRing => exact of_client rfl rfl rfl rfl rfl rfl rfl
  | addWeight w => cases he
  | addKv HD Lmax => cases he
  | freeWeight id => cases he

end SameTables

/-! ### One weight table -/

/-- Every entry names a live weight of the recorded geometry; ids and weights occur once. -/
structure WeightTable (A : Arena Weight) (wt : List CWeight) (wid : Nat) : Prop where
  live : ∀ e ∈ wt, ∃ w, A.cell e.w = some w ∧ w.K = e.K ∧ w.N = e.N ∧ w.dtype = e.dtype
  handles : (wt.map (·.w)).Nodup
  ids : (wt.map (·.id)).Nodup
  id_le : ∀ e ∈ wt, e.id ≤ wid

namespace WeightTable

variable {A B : Arena Weight} {wt : List CWeight} {wid : Nat}

theorem nil : WeightTable A [] wid where
  live e he := by cases he
  handles := List.nodup_nil
  ids := List.nodup_nil
  id_le e he := by cases he

theorem lt_next (h : WeightTable A wt wid) {e : CWeight} (he : e ∈ wt) : e.w < A.next := by
  obtain ⟨w, hw, -⟩ := h.live e he
  exact Arena.lt_next hw

/-- Only the objects of its own entries matter to a table. -/
theorem of_cells (h : WeightTable A wt wid) (hcell : ∀ e ∈ wt, B.cell e.w = A.cell e.w) : WeightTable B wt wid where
  live e he := by rw [hcell e he]; exact h.live e he
  handles := h.handles
  ids := h.ids
  id_le := h.id_le

theorem mono (h : WeightTable A wt wid) {wid' : Nat} (hle : wid ≤ wid') : WeightTable A wt wid' where
  live := h.live
  handles := h.handles
  ids := h.ids
  id_le e he := Nat.le_trans (h.id_le e he) hle

/-- Registering a fresh weight under the next id. -/
theorem append (h : WeightTable A wt wid) (w : Weight) :
    WeightTable (A.alloc w) (wt ++ [⟨wid + 1, A.next, w.K, w.N, w.dtype⟩]) (wid + 1) where
  live e he := by
    rcases List.mem_append.mp he with he | he
    · obtain ⟨v, hv, hgeom⟩ := h.live e he
      exact ⟨v, Arena.alloc_cell_of_some hv w, hgeom⟩
    · rw [List.mem_singleton.mp he]
      exact ⟨w, Arena.alloc_cell_self A w, rfl, rfl, rfl⟩
  handles := by
    rw [List.map_append, List.map_singleton]
    refine List.nodup_append'.mpr ⟨h.handles, List.nodup_singleton _, ?_⟩
    rw [List.disjoint_singleton]
    intro hmem
    obtain ⟨e, he, heq⟩ := List.mem_map.mp hmem
    have hlt : e.w < A.next := h.lt_next he
    simp only at heq
    omega
  ids := by
    rw [List.map_append, List.map_singleton]
    refine List.nodup_append'.mpr ⟨h.ids, List.nodup_singleton _, ?_⟩
    rw [List.disjoint_singleton]
    intro hmem
    obtain ⟨e, he, heq⟩ := List.mem_map.mp hmem
    have hle : e.id ≤ wid := h.id_le e he
    simp only at heq
    omega
  id_le e he := by
    rcases List.mem_append.mp he with he | he
    · exact Nat.le_succ_of_le (h.id_le e he)
    · rw [List.mem_singleton.mp he]

/-- FREE of the entry it finds: the entry and its object go, every other entry keeps its object. -/
theorem remove (h : WeightTable A wt wid) {cw : CWeight} {id : Nat} (hcw : cw ∈ wt) (hid : cw.id = id) :
    WeightTable (A.free cw.w) (wt.swapRemove (·.id == id)) wid where
  live e he := by
    obtain ⟨hmem, hne⟩ := (List.mem_swapRemove_key h.ids id).mp he
    have hhandle : e.w ≠ cw.w := fun heq =>
      hne (by rw [List.inj_on_of_nodup_map h.handles hmem hcw heq, hid])
    rw [A.free_cell_of_ne hhandle]
    exact h.live e hmem
  handles := h.handles.map_swapRemove _
  ids := h.ids.map_swapRemove _
  id_le e he := h.id_le e (List.mem_of_mem_swapRemove he)

end WeightTable

theorem Client.findWeight_mem {cl : Client} {id : Nat} {cw : CWeight} (h : cl.findWeight id = some cw) :
    cw ∈ cl.wt ∧ cw.id = id :=
  ⟨List.mem_of_find?_eq_some h, by simpa using List.find?_some h⟩

/-! ### All weight tables -/

/-- The weight tables of the live clients: each is sound, and no weight is in two of them. -/
structure WeightTables (d : Daemon) : Prop where
  table : ∀ i, i < d.nc → WeightTable d.weights (d.cl i).wt (d.cl i).nextWid
  disjoint : ∀ i j, i < d.nc → j < d.nc → ∀ e ∈ (d.cl i).wt, ∀ f ∈ (d.cl j).wt, e.w = f.w → i = j

namespace WeightTables

variable {d d' : Daemon}

theorem of_same (h : WeightTables d) (hs : SameTables d d') : WeightTables d' where
  table i hi := by rw [hs.weights, hs.wt, hs.nextWid]; exact h.table i (hs.nc ▸ hi)
  disjoint i j hi hj := by rw [hs.wt, hs.wt]; exact h.disjoint i j (hs.nc ▸ hi) (hs.nc ▸ hj)

/-- A change to the table of client `i` that takes no weight but fresh ones. -/
theorem of_update (h : WeightTables d) {i : Nat} (hi : i < d.nc) (hnc : d'.nc = d.nc)
    (hother : ∀ j, j ≠ i → d'.cl j = d.cl j)
    (hcell : ∀ j, j < d.nc → j ≠ i → ∀ e ∈ (d.cl j).wt, d'.weights.cell e.w = d.weights.cell e.w)
    (htable : WeightTable d'.weights (d'.cl i).wt (d'.cl i).nextWid)
    (hnew : ∀ e ∈ (d'.cl i).wt, (∃ f ∈ (d.cl i).wt, f.w = e.w) ∨ d.weights.next ≤ e.w) : WeightTables d' := by
  have hcross : ∀ j, j < d.nc → j ≠ i → ∀ e ∈ (d'.cl i).wt, ∀ f ∈ (d.cl j).wt, e.w ≠ f.w := by
    intro j hj hji e he f hf hef
    rcases hnew e he with ⟨g, hg, hge⟩ | hfresh
    · exact hji (h.disjoint i j hi hj g hg f hf (hge.trans hef)).symm
    · have hlt : f.w < d.weights.next := (h.table j hj).lt_next hf
      omega
  constructor
  · intro j hj
    rw [hnc] at hj
    by_cases hji : j = i
    · rw [hji]; exact htable
    · rw [hother j hji]
      exact (h.table j hj).of_cells (hcell j hj hji)
  · intro j k hj hk e he f hf hef
    rw [hnc] at hj hk
    by_cases hji : j = i <;> by_cases hki : k = i
    · rw [hji, hki]
    · rw [hji] at he
      rw [hother k hki] at hf
      exact absurd hef (hcross k hk hki e he f hf)
    · rw [hother j hji] at he
      rw [hki] at hf
      exact absurd hef.symm (hcross j hj hji f hf e he)
    · rw [hother j hji] at he
      rw [hother k hki] at hf
      exact h.disjoint j k hj hk e he f hf hef

theorem addWeight (h : WeightTables d) {i : Nat} (hi : i < d.nc) (w : Weight) : WeightTables (d.addWeight i w) := by
  refine h.of_update hi rfl (fun j hj => Function.update_of_ne hj _ _) ?_ ?_ ?_
  · intro j hj _ e he
    exact Arena.alloc_cell_of_lt ((h.table j hj).lt_next he) w
  · simpa [Daemon.addWeight] using (h.table i hi).append w
  · intro e he
    simp only [Daemon.addWeight, Function.update_self, List.mem_append, List.mem_singleton] at he
    rcases he with he | rfl
    · exact .inl ⟨e, he, rfl⟩
    · exact .inr (Nat.le_refl _)

theorem addKv (h : WeightTables d) {i : Nat} (hi : i < d.nc) (c : ConnId) (HD Lmax : Int) :
    WeightTables (d.addKv i c HD Lmax) := by
  refine h.of_update hi rfl (fun j hj => Function.update_of_ne hj _ _) ?_ ?_ ?_
  · intro j hj _ e he
    have hlt : e.w < d.weights.next := (h.table j hj).lt_next he
    simp only [Daemon.addKv]
    rw [Arena.alloc_cell_of_lt (by rw [Arena.alloc_next]; omega), Arena.alloc_cell_of_lt hlt]
  · have htwo := ((h.table i hi).append (Daemon.kvWkt Lmax)).append (Daemon.kvWv HD Lmax)
    simpa [Daemon.addKv, Daemon.kvWkt, Daemon.kvWv] using htwo.mono (Nat.le_succ _)
  · intro e he
    simp only [Daemon.addKv, Function.update_self, List.mem_append, List.mem_cons, List.not_mem_nil, or_false] at he
    rcases he with he | rfl | rfl
    · exact .inl ⟨e, he, rfl⟩
    · exact .inr (Nat.le_refl _)
    · exact .inr (Nat.le_succ _)

theorem freeWeight (h : WeightTables d) {i : Nat} (hi : i < d.nc) (id : Nat) : WeightTables (d.freeWeight i id) := by
  simp only [Daemon.freeWeight]
  split
  · exact h
  · rename_i cw hcw
    obtain ⟨hmem, hid⟩ := Client.findWeight_mem hcw
    refine h.of_update hi rfl (fun j hj => Function.update_of_ne hj _ _) ?_ ?_ ?_
    · intro j hj hji e he
      exact d.weights.free_cell_of_ne fun heq => hji (h.disjoint j i hj hi e he cw hmem heq)
    · simpa using (h.table i hi).remove hmem hid
    · intro e he
      simp only [Function.update_self] at he
      exact .inl ⟨e, List.mem_of_mem_swapRemove he, rfl⟩

theorem accept (h : WeightTables d) (fd k : Nat) : WeightTables (d.acceptIn fd k) := by
  have hold : ∀ j, j ≠ d.nc → (d.acceptIn fd k).cl j = d.cl j := fun j hj => Function.update_of_ne hj _ _
  have hempty : ((d.acceptIn fd k).cl d.nc).wt = [] := by simp [Daemon.acceptIn]
  have hlt : ∀ j, j < (d.acceptIn fd k).nc → j ≠ d.nc → j < d.nc := by
    intro j hj hne
    have hj' : j < d.nc + 1 := hj
    omega
  constructor
  · intro j hj
    by_cases hjn : j = d.nc
    · rw [hjn, hempty]; exact .nil
    · rw [hold j hjn]; exact h.table j (hlt j hj hjn)
  · intro j l hj hl e he f hf
    by_cases hjn : j = d.nc
    · rw [hjn, hempty] at he; cases he
    · by_cases hln : l = d.nc
      · rw [hln, hempty] at hf; cases hf
      · rw [hold j hjn] at he
        rw [hold l hln] at hf
        exact h.disjoint j l (hlt j hj hjn) (hlt l hl hln) e he f hf

theorem drop (h : WeightTables d) {i : Nat} (hi : i < d.nc) : WeightTables (d.drop i) := by
  constructor
  · intro j hj
    rw [Daemon.drop_nc] at hj
    rw [Daemon.drop_cl d i hj]
    refine (h.table _ (Daemon.survivor_lt hj)).of_cells ?_
    intro e he
    have hfree : e.w ∉ (d.cl i).wt.map (·.w) := by
      intro hmem
      obtain ⟨f, hf, hfe⟩ := List.mem_map.mp hmem
      exact Daemon.survivor_ne hj (h.disjoint i _ hi (Daemon.survivor_lt hj) f hf e he hfe).symm
    rw [Daemon.drop_weights, Arena.freeAll_cell, if_neg hfree]
  · intro j k hj hk e he f hf hef
    rw [Daemon.drop_nc] at hj hk
    rw [Daemon.drop_cl d i hj] at he
    rw [Daemon.drop_cl d i hk] at hf
    exact Daemon.survivor_inj hj hk (h.disjoint _ _ (Daemon.survivor_lt hj) (Daemon.survivor_lt hk) e he f hf hef)

theorem effect (h : WeightTables d) {i : Nat} (hi : i < d.nc) (c : ConnId) (e : Effect) :
    WeightTables (d.applyEffect i c e) := by
  cases he : e.registers with
  | false => exact h.of_same (.applyEffect d i c he)
  | true =>
      cases e with
      | addWeight w => exact h.addWeight hi w
      | addKv HD Lmax => exact h.addKv hi c HD Lmax
      | freeWeight id => exact h.freeWeight hi id
      | _ => cases he

end WeightTables

/-- Any run keeps the weight tables sound. -/
theorem weightTables_invariant : TableInvariant (fun _ => True) (fun _ _ _ => True) WeightTables where
  schedule _ _ _ h := h.of_same ⟨rfl, fun _ => rfl, fun _ => rfl, fun _ => rfl, rfl, rfl⟩
  ring _ _ _ h := h.of_same (.of_client rfl rfl rfl rfl rfl rfl rfl)
  accept d fd _ h := h.accept fd d.domAlloc
  effect _ _ c _ _ _ e hi _ _ h := h.effect hi c e
  drop _ _ hi h := h.drop hi

theorem Initial.weightTables {s : Sys} (h : Initial s) : WeightTables s.d where
  table i hi := by rw [h.nc] at hi; omega
  disjoint i j hi := by rw [h.nc] at hi; omega

theorem weightTables_of_reachable {P : Sys → Event → Prop} {s : Sys} (h : orkd.ReachableOn P s) : WeightTables s.d :=
  weightTables_invariant.of_reachable (fun _ h0 => h0.weightTables) (fun _ _ _ _ => trivial)
    (fun _ _ _ _ => trivial) h

end OrkDriver.Orkd
