import OrkDriver.Orkd.Tables

/-!
KV objects share their weights with the weight table of their client. A run that neither frees a weight a KV
object stands on nor hands a slot with left-over KV entries to a new client keeps the tables whole.
-/

namespace OrkDriver.Orkd

/-- Every entry names a live KV object of connection `conn` whose two weights are entries of `wt`. -/
structure KvTable (A : Arena KvResident) (wt : List CWeight) (kvt : List Ckv) (conn : ConnId) : Prop where
  live : ∀ e ∈ kvt, ∃ kv, A.cell e.kv = some kv ∧ kv.owner = conn ∧
    (∃ f ∈ wt, f.w = kv.wkt) ∧ ∃ f ∈ wt, f.w = kv.wv
  handles : (kvt.map (·.kv)).Nodup

namespace KvTable

variable {A B : Arena KvResident} {wt wt' : List CWeight} {kvt : List Ckv} {conn : ConnId}

theorem nil : KvTable A wt [] conn where
  live e he := by cases he
  handles := List.nodup_nil

theorem of_cells (h : KvTable A wt kvt conn) (hcell : ∀ e ∈ kvt, B.cell e.kv = A.cell e.kv) :
    KvTable B wt kvt conn where
  live e he := by rw [hcell e he]; exact h.live e he
  handles := h.handles

theorem alloc (h : KvTable A wt kvt conn) (kv : KvResident) : KvTable (A.alloc kv) wt kvt conn := by
  refine h.of_cells fun e he => ?_
  obtain ⟨v, hv, -⟩ := h.live e he
  exact Arena.alloc_cell_of_lt (Arena.lt_next hv) kv

/-- More weights do no harm. -/
theorem mono (h : KvTable A wt kvt conn) (hwt : ∀ f ∈ wt, f ∈ wt') : KvTable A wt' kvt conn where
  live e he := by
    obtain ⟨kv, hkv, howner, ⟨f, hf, hfw⟩, ⟨g, hg, hgw⟩⟩ := h.live e he
    exact ⟨kv, hkv, howner, ⟨f, hwt f hf, hfw⟩, ⟨g, hwt g hg, hgw⟩⟩
  handles := h.handles

/-- Registering a fresh KV object whose weights are in the table. -/
theorem append (h : KvTable A wt kvt conn) {kv : KvResident} (howner : kv.owner = conn)
    (hwkt : ∃ f ∈ wt, f.w = kv.wkt) (hwv : ∃ f ∈ wt, f.w = kv.wv) (id : Nat) :
    KvTable (A.alloc kv) wt (kvt ++ [⟨id, A.next⟩]) conn where
  live e he := by
    rcases List.mem_append.mp he with he | he
    · exact (h.alloc kv).live e he
    · rw [List.mem_singleton.mp he]
      exact ⟨kv, Arena.alloc_cell_self A kv, howner, hwkt, hwv⟩
  handles := by
    rw [List.map_append, List.map_singleton]
    refine List.nodup_append'.mpr ⟨h.handles, List.nodup_singleton _, ?_⟩
    rw [List.disjoint_singleton]
    intro hmem
    obtain ⟨e, he, heq⟩ := List.mem_map.mp hmem
    obtain ⟨v, hv, -⟩ := h.live e he
    have hlt : e.kv < A.next := Arena.lt_next hv
    simp only at heq
    omega

end KvTable

/-- The KV tables of the live clients, and no double free so far. -/
structure KvTables (s : Sys) : Prop where
  table : ∀ i, i < s.d.nc → KvTable s.d.kvs (s.d.cl i).wt (s.d.cl i).kvt (s.connOf i)
  weightsOnce : s.d.weights.doubleFree = false
  kvsOnce : s.d.kvs.doubleFree = false

/-- A KV object of `cl` stands on the weight. -/
def Daemon.UsedByKv (d : Daemon) (cl : Client) (w : Nat) : Prop :=
  ∃ e ∈ cl.kvt, ∃ kv, d.kvs.cell e.kv = some kv ∧ (w = kv.wkt ∨ w = kv.wv)

/-- FREE leaves the weights of KV objects alone, and a new client's slot has no KV entries left over. -/
def KeepsKv (s : Sys) : Event → Prop
  | .accept _ => s.d.nc < orkdMaxClients → (s.d.cl s.d.nc).kvt = []
  | .message i _ => OrkdMsgType.ofCode (s.header i).type = some .free →
      ∀ cw, (s.d.cl i).findWeight (OrkdHandle.read (s.payload i)).id.toNat = some cw → ¬ s.d.UsedByKv (s.d.cl i) cw.w
  | _ => True

namespace KvTables

variable {s t : Sys}

theorem of_same (h : KvTables s) (hs : SameTables s.d t.d) (hconn : ∀ i, i < s.d.nc → t.connOf i = s.connOf i) :
    KvTables t where
  table i hi := by
    rw [hs.nc] at hi
    rw [hs.kvs, hs.wt, hs.kvt, hconn i hi]
    exact h.table i hi
  weightsOnce := by rw [hs.weights]; exact h.weightsOnce
  kvsOnce := by rw [hs.kvs]; exact h.kvsOnce

/-- A change to the tables of client `i` alone. -/
theorem of_update (h : KvTables s) {i : Nat} (hnc : t.d.nc = s.d.nc) (hconn : ∀ j, t.connOf j = s.connOf j)
    (hother : ∀ j, j ≠ i → t.d.cl j = s.d.cl j)
    (hcell : ∀ k kv, s.d.kvs.cell k = some kv → t.d.kvs.cell k = some kv)
    (htable : KvTable t.d.kvs (t.d.cl i).wt (t.d.cl i).kvt (s.connOf i))
    (hw : t.d.weights.doubleFree = false) (hk : t.d.kvs.doubleFree = false) : KvTables t where
  table j hj := by
    rw [hconn]
    by_cases hji : j = i
    · rw [hji]; exact htable
    · rw [hother j hji]
      have hold := h.table j (hnc ▸ hj)
      refine hold.of_cells fun e he => ?_
      obtain ⟨kv, hkv, -⟩ := hold.live e he
      rw [hkv, hcell _ _ hkv]
  weightsOnce := hw
  kvsOnce := hk

theorem serve (h : KvTables s) (hw : WeightTables s.d) {i : Nat} (hi : i < s.d.nc) (tag : UInt64) (o : Outcome)
    (hsafe : ∀ id cw, o.effect = .freeWeight id → (s.d.cl i).findWeight id = some cw →
      ¬ s.d.UsedByKv (s.d.cl i) cw.w) : KvTables (serveWith s i (s.connOf i) tag o) := by
  have hconn : ∀ j, (serveWith s i (s.connOf i) tag o).connOf j = s.connOf j :=
    Connected.connOf_serve i _ tag o
  cases he : o.effect.registers with
  | false => exact h.of_same (.applyEffect s.d i _ he) fun j _ => hconn j
  | true =>
      have hnc := Connected.serveWith_nc (s := s) i (s.connOf i) tag o
      have hother : ∀ j, j ≠ i → (serveWith s i (s.connOf i) tag o).d.cl j = s.d.cl j := fun j hj => by
        simp [serveWith, Daemon.applyEffect_other _ _ _ _ hj]
      have htab := h.table i hi
      cases hcase : o.effect with
      | addWeight w =>
          refine h.of_update (i := i) hnc hconn hother ?_ ?_ ?_ ?_ <;>
            simp only [serveWith, hcase, Daemon.applyEffect, Daemon.addWeight, Function.update_self]
          · exact fun _ _ hkv => hkv
          · exact htab.mono fun f hf => List.mem_append_left _ hf
          · exact h.weightsOnce
          · exact h.kvsOnce
      | addKv HD Lmax =>
          refine h.of_update (i := i) hnc hconn hother ?_ ?_ ?_ ?_ <;>
            simp only [serveWith, hcase, Daemon.applyEffect, Daemon.addKv, Function.update_self]
          · exact fun _ _ hkv => Arena.alloc_cell_of_some hkv _
          · refine (htab.mono fun f hf => List.mem_append_left _ hf).append rfl ?_ ?_ _
            · exact ⟨_, List.mem_append_right _ List.mem_cons_self, rfl⟩
            · exact ⟨_, List.mem_append_right _ (List.mem_cons_of_mem _ List.mem_cons_self), rfl⟩
          · exact h.weightsOnce
          · exact h.kvsOnce
      | freeWeight id =>
          cases hcw : (s.d.cl i).findWeight id with
          | none =>
              refine h.of_same ⟨hnc, ?_, ?_, ?_, ?_, ?_⟩ fun j _ => hconn j <;>
                simp [serveWith, hcase, Daemon.applyEffect, Daemon.freeWeight, hcw]
          | some cw =>
              obtain ⟨hmem, hid⟩ := Client.findWeight_mem hcw
              have hfree := hsafe id cw hcase hcw
              have hwt := hw.table i hi
              obtain ⟨w, hlive, -⟩ := hwt.live cw hmem
              -- an entry with another handle has another id, so it stays
              have hstays : ∀ f ∈ (s.d.cl i).wt, f.w ≠ cw.w → f ∈ (s.d.cl i).wt.swapRemove (·.id == id) := by
                intro f hf hne
                refine (List.mem_swapRemove_key hwt.ids id).mpr ⟨hf, fun hfid => hne ?_⟩
                rw [List.inj_on_of_nodup_map hwt.ids hf hmem (hfid.trans hid.symm)]
              refine h.of_update (i := i) hnc hconn hother ?_ ?_ ?_ ?_ <;>
                simp only [serveWith, hcase, Daemon.applyEffect, Daemon.freeWeight, hcw, Function.update_self]
              · exact fun _ _ hkv => hkv
              · refine ⟨fun e hmem => ?_, htab.handles⟩
                obtain ⟨kv, hkv, howner, ⟨f, hf, hfw⟩, ⟨g, hg, hgw⟩⟩ := htab.live e hmem
                refine ⟨kv, hkv, howner, ⟨f, hstays f hf ?_, hfw⟩, ⟨g, hstays g hg ?_, hgw⟩⟩
                · exact fun heq => hfree ⟨e, hmem, kv, hkv, .inl (heq.symm.trans hfw)⟩
                · exact fun heq => hfree ⟨e, hmem, kv, hkv, .inr (heq.symm.trans hgw)⟩
              · rw [Arena.free_doubleFree (by rw [hlive]; exact Option.some_ne_none w)]
                exact h.weightsOnce
              · exact h.kvsOnce
      | _ => rw [hcase] at he; cases he

theorem accept (h : KvTables s) (hc : Connected s) {fd : Nat} (hfd : s.os.conn fd = none)
    (hslot : s.d.nc < orkdMaxClients → (s.d.cl s.d.nc).kvt = []) : KvTables (acceptStep s fd) := by
  have hconn : ∀ i, i < s.d.nc → (acceptStep s fd).connOf i = s.connOf i := fun i hi => hc.connOf_accept hfd hi
  by_cases hroom : s.d.nc < orkdMaxClients
  · have hd : (acceptStep s fd).d = s.d.acceptIn fd s.d.domAlloc := by simp [acceptStep, hroom]
    refine ⟨fun i hi => ?_, ?_, ?_⟩
    · rw [hd] at hi ⊢
      have hi' : i < s.d.nc + 1 := hi
      by_cases hin : i = s.d.nc
      · simp only [Daemon.acceptIn, hin, Function.update_self, hslot hroom]
        exact .nil
      · have hlt : i < s.d.nc := by omega
        simp only [Daemon.acceptIn, Function.update_of_ne hin, hconn i hlt]
        exact h.table i hlt
    · rw [hd]; exact h.weightsOnce
    · rw [hd]; exact h.kvsOnce
  · have hd : (acceptStep s fd).d = s.d := by simp [acceptStep, hroom]
    exact h.of_same (hd ▸ SameTables.rfl' s.d) hconn

theorem drop (h : KvTables s) (hc : Connected s) (hw : WeightTables s.d) {i : Nat} (hi : i < s.d.nc) :
    KvTables (dropStep s i) := by
  refine ⟨fun j hj => ?_, ?_, ?_⟩
  · have hj' : j < s.d.nc - 1 := by simpa [dropStep] using hj
    have hlt := Daemon.survivor_lt (i := i) hj'
    have htab := h.table _ hlt
    simp only [dropStep, s.d.drop_cl i hj', s.d.drop_kvs]
    rw [← dropStep, hc.connOf_drop hi hj']
    refine htab.of_cells fun e he => ?_
    obtain ⟨kv, hkv, howner, -⟩ := htab.live e he
    rw [Arena.freeAll_cell, if_neg]
    -- an object of the dropped client has another owner
    intro hmem
    obtain ⟨f, hf, hfe⟩ := List.mem_map.mp hmem
    obtain ⟨kv', hkv', howner', -⟩ := (h.table i hi).live f hf
    rw [hfe, hkv] at hkv'
    cases hkv'
    exact Daemon.survivor_ne hj' (hc.connOf_inj hlt hi (howner.symm.trans howner'))
  · simp only [dropStep, s.d.drop_weights]
    rw [Arena.freeAll_doubleFree (hw.table i hi).handles]
    · exact h.weightsOnce
    · intro k hk
      obtain ⟨e, he, rfl⟩ := List.mem_map.mp hk
      obtain ⟨w, hlive, -⟩ := (hw.table i hi).live e he
      rw [hlive]
      exact Option.some_ne_none w
  · simp only [dropStep, s.d.drop_kvs]
    rw [Arena.freeAll_doubleFree (h.table i hi).handles]
    · exact h.kvsOnce
    · intro k hk
      obtain ⟨e, he, rfl⟩ := List.mem_map.mp hk
      obtain ⟨kv, hlive, -⟩ := (h.table i hi).live e he
      rw [hlive]
      exact Option.some_ne_none kv

theorem message (h : KvTables s) (hc : Connected s) (hw : WeightTables s.d) {i : Nat} (hi : i < s.d.nc) (env : Env)
    (hsafe : KeepsKv s (.message i env)) : KvTables (messageStep s i env) := by
  have hserve : KvTables (serveWith s i (s.connOf i) (s.header i).tag (s.outcome i env)) := by
    refine h.serve hw hi _ _ fun id cw heff hcw => ?_
    have hok : EffectOk s.d (s.d.cl i) _ (s.payload i) _ (s.outcome i env).effect := serviceMsg_effect ..
    rw [heff] at hok
    cases hok with
    | freeWeight hm _ => exact hsafe hm cw hcw
  simp only [messageStep, finishMessage]
  split
  · exact hserve.drop (hc.serve i _ _ _) (hw.effect hi _ _) (by rw [Connected.serveWith_nc]; exact hi)
  · exact hserve

theorem step (h : KvTables s) (hc : Connected s) (hw : WeightTables s.d) {e : Event} (he : Enabled s e)
    (hsafe : KeepsKv s e) : KvTables (next s e) := by
  cases e with
  | accept fd => exact h.accept hc he hsafe
  | message i env => exact h.message hc hw he env hsafe
  | hangup i => exact h.drop hc hw he
  | dispatch rc out =>
      obtain ⟨q, a, hd⟩ := dispatchStep_d s rc out
      refine h.of_same (t := dispatchStep s rc out) ?_ fun i _ => Connected.connOf_of_same (by rw [hd]) (by simp)
      rw [hd]
      exact ⟨rfl, fun _ => rfl, fun _ => rfl, fun _ => rfl, rfl, rfl⟩
  | ring i r =>
      exact h.of_same (t := ringStep s i) (.of_client rfl rfl rfl rfl rfl rfl rfl) fun j _ => Connected.connOf_ring i j

end KvTables

theorem kvTables_of_reachable {s : Sys} (h : orkd.ReachableOn KeepsKv s) : KvTables s := by
  refine h.invariant (fun s (h0 : Initial s) => ?_) ?_
  · refine ⟨fun i hi => ?_, by rw [h0.weights]; rfl, by rw [h0.kvs]; rfl⟩
    rw [h0.nc] at hi
    omega
  · rintro s e t hr hs hsafe ⟨he, rfl⟩
    exact hs.step (connected_of_reachable hr) (weightTables_of_reachable hr) he hsafe

/-- What the tables are for: entries of live clients name live objects, a KV object belongs to the connection whose
table names it and its two weights are entries of that client, nothing is freed twice. -/
structure TableIntegrity (s : Sys) : Prop where
  weights : ∀ i, i < s.d.nc → ∀ e ∈ (s.d.cl i).wt, ∃ w, s.d.weights.cell e.w = some w
  kvs : ∀ i, i < s.d.nc → ∀ e ∈ (s.d.cl i).kvt, ∃ kv, s.d.kvs.cell e.kv = some kv ∧ kv.owner = s.connOf i ∧
    (∃ f ∈ (s.d.cl i).wt, f.w = kv.wkt) ∧ ∃ f ∈ (s.d.cl i).wt, f.w = kv.wv
  weightsOnce : s.d.weights.doubleFree = false
  kvsOnce : s.d.kvs.doubleFree = false

theorem tableIntegrity_of_keepsKv (s : Sys) (h : orkd.ReachableOn KeepsKv s) : TableIntegrity s where
  weights i hi e he := by
    obtain ⟨w, hw, -⟩ := ((weightTables_of_reachable h).table i hi).live e he
    exact ⟨w, hw⟩
  kvs i hi := ((kvTables_of_reachable h).table i hi).live
  weightsOnce := (kvTables_of_reachable h).weightsOnce
  kvsOnce := (kvTables_of_reachable h).kvsOnce

/-- A client that allocates a KV object and then frees its K^T weight. -/
def freeUnderKv : ConnId → Stream := fun _ =>
  .ofBytes (OrkdMsgType.kvAlloc.message 1 (bytes32 64 ++ bytes32 128) ++
    OrkdMsgType.free.message 2 (bytes64 1 ++ bytes64 0))

theorem tableIntegrity_kvAlloc :
    TableIntegrity ([.accept 5, .message 0 .good].foldl next (boot false freeUnderKv)) :=
  tableIntegrity_of_keepsKv _ (boot_run ⟨⟨fun _ => rfl, by decide⟩,
    ⟨fun hm => absurd hm (by decide), by decide⟩, trivial⟩)

theorem free_breaks_tableIntegrity : ∃ s, orkd.Reachable s ∧ ¬ TableIntegrity s := by
  let s := [.accept 5, .message 0 .good, .message 0 .good].foldl next (boot false freeUnderKv)
  have hreach : orkd.Reachable s := boot_run (by decide)
  have hcell : s.d.kvs.cell 0 = some ⟨0, 1, 64, 128, 0⟩ := by decide
  have hfreed : ∀ f ∈ (s.d.cl 0).wt, f.w ≠ 0 := by decide
  refine ⟨s, hreach, fun h => ?_⟩
  obtain ⟨kv, hkv, -, ⟨f, hf, hfw⟩, -⟩ := h.kvs 0 (by decide) ⟨3, 0⟩ (by decide)
  obtain rfl := Option.some.inj (hcell.symm.trans hkv)
  exact hfreed f hf hfw

end OrkDriver.Orkd
