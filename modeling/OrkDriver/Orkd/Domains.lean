import OrkDriver.Lib.Lease
import OrkDriver.Orkd.Tables

/-!
IOMMU domains: the in-use table is a pool of leases in every run. Weights stay in domains their client holds as
long as no client releases a domain it still has weights in.
-/

namespace OrkDriver.Orkd

/-- The client in slot `i` has the non-zero domain `k`, automatically or by request. -/
def Daemon.Holds (d : Daemon) (i k : Nat) : Prop :=
  i < d.nc ∧ k ≠ 0 ∧ ((d.cl i).domain = k ∨ (d.cl i).ownedDom k = true)

def Daemon.Marked (d : Daemon) (k : Nat) : Prop := k ≠ 0 ∧ d.domInuse k = true

structure Domains (d : Daemon) : Prop where
  leases : Lease.Exact d.Holds d.Marked
  lt : ∀ i k, d.Holds i k → k < orkdNdom
  /-- A requested domain is not the automatic one. -/
  owned_ne : ∀ i k, i < d.nc → (d.cl i).ownedDom k = true → k ≠ 0 ∧ (d.cl i).domain ≠ k

theorem Daemon.domFree_spec {d : Daemon} {k : Nat} (h : d.domFree = some k) :
    k ≠ 0 ∧ k < orkdNdom ∧ ¬ d.Marked k := by
  have hmem : k ∈ List.range' 1 (orkdNdom - 1) := List.mem_of_find?_eq_some h
  have hfree : d.domInuse k = false := by simpa using List.find?_some h
  rw [List.mem_range'_1] at hmem
  simp only [orkdNdom] at hmem ⊢
  refine ⟨by omega, by omega, ?_⟩
  rintro ⟨-, hused⟩
  rw [hfree] at hused
  cases hused

/-- Nothing of `d'` that the domains consist of differs from `d`. -/
structure SameDomains (d d' : Daemon) : Prop where
  nc : d'.nc = d.nc
  domain : ∀ j, (d'.cl j).domain = (d.cl j).domain
  ownedDom : ∀ j, (d'.cl j).ownedDom = (d.cl j).ownedDom
  domInuse : d'.domInuse = d.domInuse

theorem SameDomains.of_client {d d' : Daemon} {i : Nat} {c : Client} (hcl : d'.cl = Function.update d.cl i c)
    (hdomain : c.domain = (d.cl i).domain) (howned : c.ownedDom = (d.cl i).ownedDom) (hnc : d'.nc = d.nc)
    (hinuse : d'.domInuse = d.domInuse) : SameDomains d d' where
  nc := hnc
  domain j := by by_cases hj : j = i <;> simp [hcl, hj, hdomain]
  ownedDom j := by by_cases hj : j = i <;> simp [hcl, hj, howned]
  domInuse := hinuse

def Effect.grants : Effect → Bool
  | .domReq _ | .domRel _ => true
  | _ => false

theorem SameDomains.applyEffect (d : Daemon) (i : Nat) (c : ConnId) {e : Effect} (he : e.grants = false) :
    SameDomains d (d.applyEffect i c e) := by
  have hself : SameDomains d d := ⟨rfl, fun _ => rfl, fun _ => rfl, rfl⟩
  cases e with
  | none => exact hself
  | hello => exact of_client rfl rfl rfl rfl rfl
  | addWeight w => exact of_client rfl rfl rfl rfl rfl
  | addKv HD Lmax => exact of_client rfl rfl rfl rfl rfl
  | freeWeight id =>
      simp only [Daemon.applyEffect, Daemon.freeWeight]
      split
      · exact hself
      · exact of_client rfl rfl rfl rfl rfl
  | enqueue w cw =>
      simp only [Daemon.applyEffect, Daemon.enqueue]
      split
      · exact ⟨rfl, fun _ => rfl, fun _ => rfl, rfl⟩
      · exact hself
  | attachRing => exact of_client rfl rfl rfl rfl rfl
  | domReq k => cases he
  | domRel k => cases he

namespace SameDomains

variable {d d' : Daemon}

theorem holds_iff (h : SameDomains d d') (i k : Nat) : d'.Holds i k ↔ d.Holds i k := by
  simp only [Daemon.Holds, h.nc, h.domain, h.ownedDom]

theorem marked_iff (h : SameDomains d d') (k : Nat) : d'.Marked k ↔ d.Marked k := by
  simp only [Daemon.Marked, h.domInuse]

end SameDomains

namespace Domains

variable {d d' : Daemon}

theorem of_same (h : Domains d) (hs : SameDomains d d') : Domains d' where
  leases := h.leases.congr hs.holds_iff hs.marked_iff
  lt i k hk := h.lt i k ((hs.holds_iff i k).mp hk)
  owned_ne i k hi hk := by
    rw [hs.ownedDom] at hk
    rw [hs.domain]
    exact h.owned_ne i k (hs.nc ▸ hi) hk

theorem domReq_holds {i k : Nat} (hi : i < d.nc) (hk : k ≠ 0) (j l : Nat) :
    (d.domReq i k).Holds j l ↔ d.Holds j l ∨ j = i ∧ l = k := by
  by_cases hj : j = i
  · subst hj
    by_cases hl : l = k
    · subst hl
      simp [Daemon.Holds, Daemon.domReq, hi, hk]
    · simp [Daemon.Holds, Daemon.domReq, hl]
  · simp [Daemon.Holds, Daemon.domReq, hj]

theorem domReq (h : Domains d) {i k : Nat} (hi : i < d.nc) (hfree : d.domFree = some k) : Domains (d.domReq i k) := by
  obtain ⟨hk, hlt, hunmarked⟩ := Daemon.domFree_spec hfree
  have hholds := domReq_holds (d := d) hi hk
  refine ⟨h.leases.grant hunmarked hholds ?_, ?_, ?_⟩
  · intro l
    by_cases hl : l = k <;> simp [Daemon.Marked, Daemon.domReq, hl, hk]
  · intro j l hj
    rcases (hholds j l).mp hj with hj | ⟨-, rfl⟩
    · exact h.lt j l hj
    · exact hlt
  · intro j l hj hl
    by_cases hji : j = i
    · subst hji
      by_cases hlk : l = k
      · subst hlk
        have hnot := h.leases.not_held hunmarked j
        refine ⟨hk, fun heq => hnot ⟨hi, hk, .inl ?_⟩⟩
        simpa [Daemon.domReq] using heq
      · simp only [Daemon.domReq, Function.update_self, Function.update_of_ne hlk] at hl ⊢
        exact h.owned_ne j l hi hl
    · simp only [Daemon.domReq, Function.update_of_ne hji] at hl ⊢
      exact h.owned_ne j l hj hl

theorem domRel_holds (h : Domains d) {i k : Nat} (howned : (d.cl i).ownedDom k = true) (hi : i < d.nc) (j l : Nat) :
    (d.domRel i k).Holds j l ↔ d.Holds j l ∧ ¬ (j = i ∧ l = k) := by
  obtain ⟨hk, hne⟩ := h.owned_ne i k hi howned
  by_cases hj : j = i
  · subst hj
    by_cases hl : l = k
    · subst hl
      simp [Daemon.Holds, Daemon.domRel, Daemon.setClient, hne]
    · simp [Daemon.Holds, Daemon.domRel, Daemon.setClient, hl]
  · simp [Daemon.Holds, Daemon.domRel, Daemon.setClient, hj]

theorem domRel (h : Domains d) {i k : Nat} (hi : i < d.nc) (hpos : 1 ≤ k) (hlt : k < orkdNdom)
    (howned : (d.cl i).ownedDom k = true) : Domains (d.domRel i k) := by
  have hk : k ≠ 0 := by omega
  have hholds := h.domRel_holds howned hi
  refine ⟨h.leases.giveBack ⟨hi, hk, .inr howned⟩ hholds ?_, ?_, ?_⟩
  · intro l
    by_cases hl : l = k
    · simp [Daemon.Marked, Daemon.domRel, Daemon.domRelease_domInuse, hl, hpos, hlt]
    · simp [Daemon.Marked, Daemon.domRel, Daemon.domRelease_domInuse, hl, Daemon.setClient]
  · intro j l hj
    exact h.lt j l ((hholds j l).mp hj).1
  · intro j l hj hl
    simp only [Daemon.domRel, Daemon.domRelease_nc, Daemon.domRelease_cl, Daemon.setClient] at hj hl ⊢
    by_cases hji : j = i
    · subst hji
      simp only [Function.update_self] at hl ⊢
      by_cases hlk : l = k
      · simp [hlk] at hl
      · rw [Function.update_of_ne hlk] at hl
        exact h.owned_ne j l hj hl
    · simp only [Function.update_of_ne hji] at hl ⊢
      exact h.owned_ne j l hj hl

theorem accept_holds (fd k j l : Nat) :
    (d.acceptIn fd k).Holds j l ↔ d.Holds j l ∨ k ≠ 0 ∧ j = d.nc ∧ l = k := by
  by_cases hj : j = d.nc
  · subst hj
    by_cases hl : l = k
    · simp [Daemon.Holds, Daemon.acceptIn, hl]
    · have hl' : k ≠ l := fun heq => hl heq.symm
      simp [Daemon.Holds, Daemon.acceptIn, hl, hl']
  · have hlt : j < d.nc + 1 ↔ j < d.nc := by omega
    simp [Daemon.Holds, Daemon.acceptIn, hj, hlt]

theorem accept (h : Domains d) (fd : Nat) : Domains (d.acceptIn fd d.domAlloc) := by
  have hdom : d.domAlloc = 0 ∨ d.domFree = some d.domAlloc := by
    unfold Daemon.domAlloc
    split
    · cases hfree : d.domFree with
      | none => exact .inl rfl
      | some k => exact .inr rfl
    · exact .inl rfl
  generalize d.domAlloc = k at hdom
  have hholds := accept_holds (d := d) fd k
  have howned : ∀ j l, j < (d.acceptIn fd k).nc → ((d.acceptIn fd k).cl j).ownedDom l = true →
      l ≠ 0 ∧ ((d.acceptIn fd k).cl j).domain ≠ l := by
    intro j l hj hl
    have hj' : j < d.nc + 1 := hj
    by_cases hjn : j = d.nc
    · simp [Daemon.acceptIn, hjn] at hl
    · simp only [Daemon.acceptIn, Function.update_of_ne hjn] at hl ⊢
      exact h.owned_ne j l (by omega) hl
  rcases hdom with rfl | hfree
  · refine ⟨h.leases.congr (fun j l => ?_) (fun l => ?_), fun j l hj => ?_, howned⟩
    · simp [hholds]
    · simp [Daemon.Marked, Daemon.acceptIn]
    · simp only [hholds, ne_eq, not_true_eq_false, false_and, or_false] at hj
      exact h.lt j l hj
  · obtain ⟨hk, hlt, hunmarked⟩ := Daemon.domFree_spec hfree
    refine ⟨h.leases.grant (i := d.nc) hunmarked (fun j l => ?_) (fun l => ?_), fun j l hj => ?_, howned⟩
    · simp [hholds, hk]
    · by_cases hl : l = k <;> simp [Daemon.Marked, Daemon.acceptIn, hk, hl]
    · rcases (hholds j l).mp hj with hj | ⟨-, -, rfl⟩
      · exact h.lt j l hj
      · exact hlt

theorem drop_holds (i j k : Nat) :
    (d.drop i).Holds j k ↔ j < d.nc - 1 ∧ d.Holds (Daemon.survivor d.nc i j) k := by
  simp only [Daemon.Holds, Daemon.drop_nc]
  constructor
  · rintro ⟨hj, hk, hh⟩
    rw [d.drop_cl i hj] at hh
    exact ⟨hj, Daemon.survivor_lt hj, hk, hh⟩
  · rintro ⟨hj, -, hk, hh⟩
    rw [d.drop_cl i hj]
    exact ⟨hj, hk, hh⟩

/-- The drop path returns exactly what the client held: the automatic domain and every requested one. -/
theorem drop_marked (h : Domains d) {i : Nat} (hi : i < d.nc) (k : Nat) :
    (d.drop i).Marked k ↔ d.Marked k ∧ ¬ d.Holds i k := by
  by_cases hk : k = 0
  · simp [Daemon.Marked, hk]
  · by_cases hheld : k = (d.cl i).domain ∨ (d.cl i).ownedDom k = true
    · have hholds : d.Holds i k := ⟨hi, hk, hheld.imp_left Eq.symm⟩
      have hlt : k < orkdNdom := h.lt i k hholds
      have hpos : 1 ≤ k := by omega
      simp [Daemon.Marked, Daemon.drop_domInuse, hpos, hlt, hheld, hholds]
    · have hnot : ¬ d.Holds i k := fun hh => hheld (hh.2.2.imp_left Eq.symm)
      have hcond : ¬ (1 ≤ k ∧ k < orkdNdom ∧ (k = (d.cl i).domain ∨ (d.cl i).ownedDom k = true)) :=
        fun hc => hheld hc.2.2
      simp only [Daemon.Marked, Daemon.drop_domInuse, if_neg hcond, hnot, not_false_eq_true, and_true]

theorem drop (h : Domains d) {i : Nat} (hi : i < d.nc) : Domains (d.drop i) := by
  refine ⟨h.leases.leave (i := i) (f := Daemon.survivor d.nc i) ?_ ?_ ?_ (drop_holds i) (h.drop_marked hi), ?_, ?_⟩
  · exact fun j hj => Daemon.survivor_ne hj
  · exact fun j j' hj hj' => Daemon.survivor_inj hj hj'
  · exact fun j k hj hne => Daemon.exists_survivor hi hj.1 hne
  · exact fun j k hj => h.lt _ k ((drop_holds i j k).mp hj).2
  · intro j k hj hk
    rw [Daemon.drop_nc] at hj
    rw [d.drop_cl i hj] at hk ⊢
    exact h.owned_ne _ k (Daemon.survivor_lt hj) hk

end Domains

theorem domains_invariant : TableInvariant (fun _ => True) (fun _ _ _ => True) Domains where
  schedule _ _ _ h := h.of_same ⟨rfl, fun _ => rfl, fun _ => rfl, rfl⟩
  ring _ _ _ h := h.of_same (.of_client rfl rfl rfl rfl rfl)
  accept _ fd _ h := h.accept fd
  effect d i c m inp tag e hi hok _ h := by
    cases he : e.grants with
    | false => exact h.of_same (.applyEffect d i c he)
    | true =>
        cases hok with
        | domReq hfree => exact h.domReq hi hfree
        | domRel _ _ hpos hlt howned => exact h.domRel hi hpos hlt howned
        | _ => cases he
  drop _ _ hi h := h.drop hi

theorem Initial.domains {s : Sys} (h : Initial s) : Domains s.d := by
  have hnone : ∀ i k, ¬ s.d.Holds i k := by
    rintro i k ⟨hi, -⟩
    rw [h.nc] at hi
    omega
  refine ⟨⟨fun k => ?_, fun i j k hi => absurd hi (hnone i k)⟩, fun i k hi => absurd hi (hnone i k), ?_⟩
  · simp [Daemon.Marked, h.domInuse, hnone]
  · intro i k hi
    rw [h.nc] at hi
    omega

theorem domains_of_reachable {P : Sys → Event → Prop} {s : Sys} (h : orkd.ReachableOn P s) : Domains s.d :=
  domains_invariant.of_reachable (fun _ h0 => h0.domains) (fun _ _ _ _ => trivial) (fun _ _ _ _ => trivial) h

/-! ### Where the weights are -/

/-- A weight of the table of `cl` lives in domain `k`. -/
def Daemon.ResidesIn (d : Daemon) (cl : Client) (k : Nat) : Prop :=
  ∃ e ∈ cl.wt, ∃ w, d.weights.cell e.w = some w ∧ w.domain = k

/-- The weights of a live client are in the shared domain or in a domain it holds. -/
def Placed (d : Daemon) : Prop :=
  ∀ i, i < d.nc → ∀ e ∈ (d.cl i).wt, ∀ w, d.weights.cell e.w = some w → w.domain = 0 ∨ d.Holds i w.domain

/-- The pack handlers check a requested domain; the automatic one needs no check. -/
theorem Daemon.holds_packDomain {d : Daemon} {i : Nat} {dom : Int} (hi : i < d.nc)
    (h : (d.cl i).refusesDomain dom = false) :
    (d.cl i).packDomain dom = 0 ∨ d.Holds i ((d.cl i).packDomain dom) := by
  unfold Client.packDomain
  split
  · rename_i hpos
    have howned : (d.cl i).ownedDom dom.toNat = true := by
      simp only [Client.refusesDomain, hpos, decide_true, Bool.true_and, Bool.or_eq_false_iff,
        Bool.not_eq_false'] at h
      exact h.2
    exact .inr ⟨hi, by omega, .inr howned⟩
  · by_cases hz : (d.cl i).domain = 0
    · exact .inl hz
    · exact .inr ⟨hi, hz, .inl rfl⟩

namespace Placed

variable {d d' : Daemon}

/-- Entries are old ones of the same client or are placed right; domains are kept. -/
theorem of_update (h : Placed d) (hnc : d'.nc = d.nc) (hholds : ∀ j k, d.Holds j k → d'.Holds j k)
    (hentry : ∀ j, j < d.nc → ∀ e ∈ (d'.cl j).wt, ∀ w, d'.weights.cell e.w = some w →
      (e ∈ (d.cl j).wt ∧ d.weights.cell e.w = some w) ∨ w.domain = 0 ∨ d'.Holds j w.domain) : Placed d' := by
  intro j hj e he w hw
  rw [hnc] at hj
  rcases hentry j hj e he w hw with ⟨he, hw⟩ | hplaced
  · exact (h j hj e he w hw).imp_right (hholds j _)
  · exact hplaced

theorem of_same (h : Placed d) (ht : SameTables d d') (hs : SameDomains d d') : Placed d' := by
  refine h.of_update ht.nc (fun j k => (hs.holds_iff j k).mpr) fun j _ e he w hw => .inl ?_
  rw [ht.wt] at he
  rw [ht.weights] at hw
  exact ⟨he, hw⟩

theorem addWeight (h : Placed d) (hw : WeightTables d) {i : Nat} {w : Weight} {dom : Int} (hi : i < d.nc)
    (hok : (d.cl i).refusesDomain dom = false) (hdom : w.domain = (d.cl i).packDomain dom) :
    Placed (d.addWeight i w) := by
  have hs : SameDomains d (d.addWeight i w) := .of_client rfl rfl rfl rfl rfl
  have hcell : ∀ j, j < d.nc → ∀ e ∈ (d.cl j).wt, (d.addWeight i w).weights.cell e.w = d.weights.cell e.w :=
    fun j hj e he => Arena.alloc_cell_of_lt ((hw.table j hj).lt_next he) w
  refine h.of_update rfl (fun j k => (hs.holds_iff j k).mpr) fun j hj e he v hv => ?_
  by_cases hji : j = i
  · subst hji
    simp only [Daemon.addWeight, Function.update_self, List.mem_append, List.mem_singleton] at he
    rcases he with he | rfl
    · rw [hcell j hj e he] at hv
      exact .inl ⟨he, hv⟩
    · obtain rfl : w = v := Option.some.inj ((Arena.alloc_cell_self d.weights w).symm.trans hv)
      refine .inr ?_
      rw [hs.holds_iff, hdom]
      exact Daemon.holds_packDomain hj hok
  · simp only [Daemon.addWeight, Function.update_of_ne hji] at he
    rw [hcell j hj e he] at hv
    exact .inl ⟨he, hv⟩

/-- The two weights of a KV object are packed into the shared domain. -/
theorem addKv (h : Placed d) (i : Nat) (c : ConnId) (HD Lmax : Int) :
    Placed (d.addKv i c HD Lmax) := by
  have hs : SameDomains d (d.addKv i c HD Lmax) := .of_client rfl rfl rfl rfl rfl
  have hcell : ∀ k, k < d.weights.next → (d.addKv i c HD Lmax).weights.cell k = d.weights.cell k := by
    intro k hk
    simp only [Daemon.addKv]
    rw [Arena.alloc_cell_of_lt (by rw [Arena.alloc_next]; omega), Arena.alloc_cell_of_lt hk]
  have hnew : ∀ k v, d.weights.next ≤ k → (d.addKv i c HD Lmax).weights.cell k = some v → v.domain = 0 := by
    intro k v hk hv
    simp only [Daemon.addKv, Arena.alloc, Function.update_apply] at hv
    split at hv
    · obtain rfl := Option.some.inj hv
      rfl
    · split at hv
      · obtain rfl := Option.some.inj hv
        rfl
      · rw [d.weights.fresh k hk] at hv
        cases hv
  refine h.of_update rfl (fun j k => (hs.holds_iff j k).mpr) fun j hj e he v hv => ?_
  by_cases hlt : e.w < d.weights.next
  · by_cases hji : j = i
    · subst hji
      simp only [Daemon.addKv, Function.update_self, List.mem_append, List.mem_cons, List.not_mem_nil, or_false] at he
      rw [hcell _ hlt] at hv
      rcases he with he | rfl | rfl
      · exact .inl ⟨he, hv⟩
      · exact absurd hlt (Nat.lt_irrefl _)
      · exact absurd hlt (Nat.not_lt.mpr (Nat.le_succ _))
    · simp only [Daemon.addKv, Function.update_of_ne hji] at he
      rw [hcell _ hlt] at hv
      exact .inl ⟨he, hv⟩
  · exact .inr (.inl (hnew _ v (by omega) hv))

theorem freeWeight (h : Placed d) (i id : Nat) : Placed (d.freeWeight i id) := by
  have hs := SameDomains.applyEffect d i 0 (e := .freeWeight id) rfl
  simp only [Daemon.applyEffect, Daemon.freeWeight] at hs ⊢
  split
  · exact h
  · rename_i cw hcw
    rw [hcw] at hs
    refine h.of_update rfl (fun j k => (hs.holds_iff j k).mpr) fun j hj e he v hv => .inl ?_
    refine ⟨?_, (Arena.free_cell_eq_some.mp hv).2⟩
    by_cases hji : j = i
    · subst hji
      simp only [Function.update_self] at he
      exact List.mem_of_mem_swapRemove he
    · simpa only [Function.update_of_ne hji] using he

theorem domReq (h : Placed d) {i k : Nat} (hi : i < d.nc) (hfree : d.domFree = some k) : Placed (d.domReq i k) := by
  have hs : SameTables d (d.domReq i k) := .of_client rfl rfl rfl rfl rfl rfl rfl
  have hk := (Daemon.domFree_spec hfree).1
  refine h.of_update rfl (fun j l hj => (Domains.domReq_holds hi hk j l).mpr (.inl hj)) fun j _ e he w hw => .inl ?_
  rw [hs.wt] at he
  exact ⟨he, hw⟩

/-- The one place the condition is for: what is released holds no weight. -/
theorem domRel (h : Placed d) (hd : Domains d) {i k : Nat} (hi : i < d.nc) (howned : (d.cl i).ownedDom k = true)
    (hempty : ¬ d.ResidesIn (d.cl i) k) : Placed (d.domRel i k) := by
  have hs : SameTables d (d.domRel i k) := .applyEffect d i 0 (e := .domRel k) rfl
  intro j hj e he w hw
  rw [hs.nc] at hj
  rw [hs.wt] at he
  rw [hs.weights] at hw
  refine (h j hj e he w hw).imp_right fun hheld => ?_
  rw [hd.domRel_holds howned hi]
  refine ⟨hheld, ?_⟩
  rintro ⟨rfl, hwk⟩
  exact hempty ⟨e, he, w, hw, hwk⟩

theorem accept (h : Placed d) (fd k : Nat) : Placed (d.acceptIn fd k) := by
  intro j hj e he w hw
  have hj' : j < d.nc + 1 := hj
  by_cases hjn : j = d.nc
  · simp [Daemon.acceptIn, hjn] at he
  · simp only [Daemon.acceptIn, Function.update_of_ne hjn] at he
    refine (h j (by omega) e he w hw).imp_right fun hheld => ?_
    exact (Domains.accept_holds fd k j _).mpr (.inl hheld)

theorem drop (h : Placed d) (i : Nat) : Placed (d.drop i) := by
  intro j hj e he w hw
  rw [Daemon.drop_nc] at hj
  rw [d.drop_cl i hj] at he
  rw [Daemon.drop_weights, Arena.freeAll_cell] at hw
  split at hw
  · cases hw
  · refine (h _ (Daemon.survivor_lt hj) e he w hw).imp_right fun hheld => ?_
    exact (Domains.drop_holds i j _).mpr ⟨hj, hheld⟩

end Placed

/-- No DOM_REL gives back a domain its client still has weights in. -/
def KeepsDomains (s : Sys) : Event → Prop
  | .message i _ => OrkdMsgType.ofCode (s.header i).type = some .domRel →
      ∀ k : Nat, cInt (.ofNat (OrkdHandle.read (s.payload i)).id.toNat) = k → (s.d.cl i).ownedDom k = true →
        ¬ s.d.ResidesIn (s.d.cl i) k
  | _ => True

theorem placed_invariant : TableInvariant (fun _ => True)
    (fun d i e => ∀ k, e = .domRel k → (d.cl i).ownedDom k = true → ¬ d.ResidesIn (d.cl i) k)
    (fun d => (WeightTables d ∧ Domains d) ∧ Placed d) where
  schedule d q a h := ⟨⟨weightTables_invariant.schedule d q a h.1.1, domains_invariant.schedule d q a h.1.2⟩,
    h.2.of_same ⟨rfl, fun _ => rfl, fun _ => rfl, fun _ => rfl, rfl, rfl⟩ ⟨rfl, fun _ => rfl, fun _ => rfl, rfl⟩⟩
  ring d i k h := ⟨⟨weightTables_invariant.ring d i k h.1.1, domains_invariant.ring d i k h.1.2⟩,
    h.2.of_same (.of_client rfl rfl rfl rfl rfl rfl rfl) (.of_client rfl rfl rfl rfl rfl)⟩
  accept d fd _ h := ⟨⟨weightTables_invariant.accept d fd trivial h.1.1, domains_invariant.accept d fd trivial h.1.2⟩,
    h.2.accept fd d.domAlloc⟩
  effect d i c m inp tag e hi hok he h := by
    refine ⟨⟨weightTables_invariant.effect d i c m inp tag e hi hok trivial h.1.1,
      domains_invariant.effect d i c m inp tag e hi hok trivial h.1.2⟩, ?_⟩
    cases hok with
    | addWeight hdom hw => exact h.2.addWeight h.1.1 hi hdom hw
    | addKv => exact h.2.addKv i c _ _
    | freeWeight _ _ => exact h.2.freeWeight i _
    | domReq hfree => exact h.2.domReq hi hfree
    | domRel _ _ _ _ howned => exact h.2.domRel h.1.2 hi howned (he _ rfl howned)
    | none => exact h.2
    | hello => exact h.2.of_same (.applyEffect d i c rfl) (.applyEffect d i c rfl)
    | enqueue _ => exact h.2.of_same (.applyEffect d i c rfl) (.applyEffect d i c rfl)
    | attachRing => exact h.2.of_same (.applyEffect d i c rfl) (.applyEffect d i c rfl)
  drop d i hi h := ⟨⟨weightTables_invariant.drop d i hi h.1.1, domains_invariant.drop d i hi h.1.2⟩, h.2.drop i⟩

theorem placed_of_reachable {s : Sys} (h : orkd.ReachableOn KeepsDomains s) : Placed s.d := by
  refine (placed_invariant.of_reachable (fun s h0 => ⟨⟨h0.weightTables, h0.domains⟩, fun i hi => ?_⟩)
    (fun _ _ _ _ => trivial) (fun s i env hP k hk => ?_) h).2
  · rw [h0.nc] at hi
    omega
  · have hok : EffectOk s.d (s.d.cl i) _ (s.payload i) _ (s.outcome i env).effect := serviceMsg_effect ..
    rw [hk] at hok
    cases hok with
    | domRel hm hint _ _ _ => exact hP hm k hint

/-- What the domains are for: weights of different clients share no non-zero domain, a marked domain has exactly one
live holder and an unmarked one none. -/
structure DomainIsolation (d : Daemon) : Prop where
  residents : ∀ i j, i < d.nc → j < d.nc → i ≠ j → ∀ k, k ≠ 0 → d.ResidesIn (d.cl i) k → ¬ d.ResidesIn (d.cl j) k
  marked : ∀ k, d.Marked k → ∃ i, d.Holds i k ∧ ∀ j, d.Holds j k → j = i
  unmarked : ∀ k, ¬ d.Marked k → ∀ i, ¬ d.Holds i k

theorem domainIsolation_of_keepsDomains (s : Sys) (h : orkd.ReachableOn KeepsDomains s) : DomainIsolation s.d := by
  have hd : Domains s.d := domains_of_reachable h
  have hp : Placed s.d := placed_of_reachable h
  refine ⟨?_, fun k hk => hd.leases.existsUnique hk, fun k hk => hd.leases.not_held hk⟩
  rintro i j hi hj hij k hk ⟨e, he, v, hv, hvk⟩ ⟨f, hf, w, hw, hwk⟩
  have hholds : ∀ l, l < s.d.nc → ∀ g ∈ (s.d.cl l).wt, ∀ u, s.d.weights.cell g.w = some u → u.domain = k → s.d.Holds l k := by
    intro l hl g hg u hu huk
    rcases hp l hl g hg u hu with hz | hheld
    · omega
    · rwa [huk] at hheld
  exact hij (hd.leases.exclusive i j k (hholds i hi e he v hv hvk) (hholds j hj f hf w hw hwk))

/-- A client that imports a 32x32 weight into domain 1; the first one then releases the domain. -/
def importThenRelease : ConnId → Stream := fun c =>
  .ofBytes (OrkdMsgType.domReq.message 1 [] ++
    OrkdMsgType.importW.message 2 (bytes32 32 ++ bytes32 32 ++ bytes32 1 ++ bytes32 1 ++ bytes64 4096 ++ bytes64 0) ++
    if c = 0 then OrkdMsgType.domRel.message 3 (bytes64 1 ++ bytes64 0) else [])

theorem domainIsolation_import :
    DomainIsolation ([.accept 5, .message 0 .good, .message 0 .good].foldl next (boot false importThenRelease)).d :=
  domainIsolation_of_keepsDomains _ (boot_run ⟨⟨trivial, by decide⟩, ⟨fun hm => absurd hm (by decide), by decide⟩,
    ⟨fun hm => absurd hm (by decide), by decide⟩, trivial⟩)

theorem domRel_breaks_domainIsolation : ∃ s, orkd.Reachable s ∧ ¬ DomainIsolation s.d := by
  let s := [.accept 5, .message 0 .good, .message 0 .good, .message 0 .good, .accept 6, .message 1 .good,
    .message 1 .good].foldl next (boot false importThenRelease)
  have hreach : orkd.Reachable s := boot_run (by decide +kernel)
  have hnc : 1 < s.d.nc := by decide +kernel
  have hfirst : s.d.ResidesIn (s.d.cl 0) 1 := ⟨⟨1, 0, 32, 32, .i8⟩, by decide +kernel, ⟨32, 32, .i8, 1⟩, by decide +kernel, rfl⟩
  have hsecond : s.d.ResidesIn (s.d.cl 1) 1 := ⟨⟨1, 1, 32, 32, .i8⟩, by decide +kernel, ⟨32, 32, .i8, 1⟩, by decide +kernel, rfl⟩
  refine ⟨s, hreach, fun h => ?_⟩
  exact h.residents 0 1 (by omega) hnc (by decide) 1 (by decide) hfirst hsecond

end OrkDriver.Orkd
