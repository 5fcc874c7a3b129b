import OrkDriver.Weights.Constructors

/-!
What a weight claims: the buffers `ork_mm_free` gives back for it. The shared steps of the constructors owe exactly what
the weight they return claims.
-/

namespace OrkDriver.Weights

open OrkDriver.Lib (Prog Triple)
open OrkDriver.Mem (BufEnv Buf Source Answers Session Owes orkDom orkiPgup kept_of_cpu kept_of_not)
open OrkDriver.Pack (Geom)

variable {p : Packer} {D dom : Int} {s₀ s : Session} {l : List Buf} {r : List Nat} {t : Tiles} {w : OrkW}

/-! ### Claims -/

/-- The entries of `Bf` that are buffers of their own. -/
def Tiles.natives (t : Tiles) : List Buf := ((t.Bf.getD []).filter BfBuf.native).map BfBuf.toBuf

/-- What `freeBuffers` destroys. -/
def Tiles.reclaims (t : Tiles) : List Buf :=
  (if t.owns then t.Bb else []) ++
    (t.natives ++ (t.Bfold ++ (t.Bfull.toList ++ (t.ownBuf.toList ++ t.ownBufs))))

/-- A weight with device buffers, neither the daemon's nor offline, as its constructor leaves it. -/
structure Tiles.Local (t : Tiles) : Prop where
  orkd : t.orkd = none
  codes : t.cpuCodes = false
  noFull : t.Bfull = none

/-- One without its full-K copy yet. -/
structure Tiles.Fresh (t : Tiles) : Prop extends t.Local where
  noBf : t.Bf = none

def Tiles.claims (t : Tiles) : List Buf := if t.orkd.isSome || t.cpuCodes then [] else t.reclaims

def Tiles.ids (t : Tiles) : List Nat := t.orkd.toList

def OrkW.claims (w : OrkW) : List Buf :=
  if w.orkd.isSome || w.cpuCodes then [] else w.reclaims ++ (w.sliced.getD []).flatMap Tiles.claims

def OrkW.ids (w : OrkW) : List Nat :=
  if w.orkd.isSome || w.cpuCodes then w.orkd.toList else (w.sliced.getD []).flatMap Tiles.ids

theorem Tiles.Local.claims_eq (h : t.Local) : t.claims = t.reclaims := by
  unfold Tiles.claims
  rw [h.orkd, h.codes]
  rfl

theorem Tiles.Local.ids_eq (h : t.Local) : t.ids = [] := by
  unfold Tiles.ids
  rw [h.orkd]
  rfl

theorem claims_whole (t : Tiles) : (⟨t, none⟩ : OrkW).claims = t.claims := by
  unfold OrkW.claims
  rw [Option.getD_none, List.flatMap_nil, List.append_nil]
  rfl

theorem ids_whole (t : Tiles) : (⟨t, none⟩ : OrkW).ids = t.ids := by
  unfold OrkW.ids Tiles.ids
  rw [Option.getD_none, List.flatMap_nil]
  dsimp only
  cases t.orkd with
  | none => exact ite_self _
  | some id => rfl

/-! ### The destructors -/

theorem freeBuffers_owes (t : Tiles) :
    Triple (Owes p.v D s₀ (t.reclaims ++ l) r) (freeBuffers p t) fun _ => Owes p.v D s₀ l r := by
  unfold Tiles.reclaims freeBuffers
  simp only [List.append_assoc]
  have step (bs l : List Buf) :
      Triple (Owes p.v D s₀ (bs ++ l) r) (Mem.destroyAll p.v p.a bs) fun _ => Owes p.v D s₀ l r := Mem.destroyAll_owes bs
  have hrest := (step t.natives _).bind fun _ => (step t.Bfold _).bind fun _ => (step t.Bfull.toList _).bind fun _ =>
    (step t.ownBuf.toList _).bind fun _ => step t.ownBufs l
  refine Triple.ite (fun ho => ?_) fun ho => ?_
  · rw [if_pos ho]
    exact (Mem.destroyAll_owes t.Bb).bind fun _ => hrest
  · rw [if_neg ho]
    exact hrest

theorem orkMmFreeTiles_owes (t : Tiles) :
    Triple (Owes p.v D s₀ (t.claims ++ l) (t.ids ++ r)) (orkMmFreeTiles p t) fun _ => Owes p.v D s₀ l r := by
  unfold orkMmFreeTiles Tiles.claims Tiles.ids
  cases t.orkd with
  | some id => exact Mem.orkdFreeWeight_owes id
  | none =>
      refine Triple.ite (fun hc => ?_) fun hc => ?_
      · rw [hc]
        exact Triple.pure fun _ h => h
      · rw [Bool.eq_false_iff.mpr hc]
        exact freeBuffers_owes t

theorem orkMmFreeSliced_owes (ts : List Tiles) :
    Triple (Owes p.v D s₀ (ts.flatMap Tiles.claims ++ l) (ts.flatMap Tiles.ids ++ r)) (orkMmFreeSliced p ts)
      fun _ => Owes p.v D s₀ l r := by
  induction ts with
  | nil => exact Triple.pure fun _ h => h
  | cons t ts ih =>
      rw [List.flatMap_cons, List.flatMap_cons, List.append_assoc, List.append_assoc]
      exact (orkMmFreeTiles_owes t).bind fun _ => ih

theorem orkMmFree_owes (w : OrkW) :
    Triple (Owes p.v D s₀ (w.claims ++ l) (w.ids ++ r)) (orkMmFree p w) fun _ => Owes p.v D s₀ l r := by
  unfold orkMmFree OrkW.claims OrkW.ids
  cases w.orkd with
  | some id => exact Mem.orkdFreeWeight_owes id
  | none =>
      refine Triple.ite (fun hc => ?_) fun hc => ?_
      · rw [hc]
        exact Triple.pure fun _ h => h
      · rw [Bool.eq_false_iff.mpr hc]
        refine Triple.pre ((freeBuffers_owes w.toTiles).bind fun _ => orkMmFreeSliced_owes (w.sliced.getD [])) fun s h => ?_
        exact h.perm (List.Perm.of_eq (List.append_assoc _ _ _))

/-! ### Constructors that account for what they take -/

/-- From `s` on, `m` owes what the result claims, and nothing where there is no result. -/
def AccountsAt {α : Type} (p : Packer) (D : Int) (m : Prog Session (Option α)) (claims : α → List Buf)
    (ids : α → List Nat) (s : Session) : Prop :=
  ∀ s₀ l r, Owes p.v D s₀ l r s → Owes p.v D s₀ ((m s).1.elim [] claims ++ l) ((m s).1.elim [] ids ++ r) (m s).2

/-- From every state `m` makes a weight on the device of which `P` holds and owes what it reclaims, or owes nothing. -/
def Builds (p : Packer) (D : Int) (P : Tiles → Prop) (m : Prog Session (Option Tiles)) : Prop :=
  ∀ s₀ l r, Triple (Owes p.v D s₀ l r) m fun o s =>
    Owes p.v D s₀ (o.elim [] Tiles.reclaims ++ l) r s ∧ ∀ t ∈ o, P t

/-- Steps that turn such a weight into another. -/
def Extends (p : Packer) (D : Int) (P Q : Tiles → Prop) (f : Tiles → Prog Session (Option Tiles)) : Prop :=
  ∀ t : Tiles, P t → ∀ s₀ l r, Triple (Owes p.v D s₀ (t.reclaims ++ l) r) (f t) fun o s =>
    Owes p.v D s₀ (o.elim [] Tiles.reclaims ++ l) r s ∧ ∀ t ∈ o, Q t

variable {P Q : Tiles → Prop}

theorem Builds.accounts {m : Prog Session (Option Tiles)} (h : Builds p D Tiles.Local m) (s : Session) :
    AccountsAt p D m Tiles.claims Tiles.ids s := by
  intro s₀ l r hs
  obtain ⟨howes, hlocal⟩ := h s₀ l r s hs
  generalize (m s).1 = o at howes hlocal ⊢
  cases o with
  | none => exact howes
  | some t =>
      have ht := hlocal t rfl
      rw [Option.elim_some, Option.elim_some, ht.claims_eq, ht.ids_eq]
      exact howes

theorem Builds.mono {m : Prog Session (Option Tiles)} (h : Builds p D P m) (hPQ : ∀ t, P t → Q t) : Builds p D Q m :=
  fun s₀ l r => (h s₀ l r).post fun _ _ ho => ⟨ho.1, fun t ht => hPQ t (ho.2 t ht)⟩

theorem builds_none : Builds p D P (pure none) :=
  fun _ _ _ => Triple.pure fun _ h => ⟨h, fun _ ht => nomatch ht⟩

theorem Builds.andThen {m : Prog Session (Option Tiles)} {f : Tiles → Prog Session (Option Tiles)} (hm : Builds p D P m)
    (hf : Extends p D P Q f) : Builds p D Q (andThen m f) := by
  intro s₀ l r
  refine (hm s₀ l r).bind fun o => ?_
  cases o with
  | none => exact Triple.pure fun _ h => ⟨h.1, fun _ ht => nomatch ht⟩
  | some t =>
      intro s hs
      exact hf t (hs.2 t rfl) s₀ l r s hs.1

theorem Builds.ite {c : Prop} [Decidable c] {m m' : Prog Session (Option Tiles)} (ht : Builds p D P m)
    (he : Builds p D P m') : Builds p D P (if c then m else m') :=
  fun s₀ l r => Triple.ite (fun _ => ht s₀ l r) fun _ => he s₀ l r

/-- A step before the rest that owes nothing. -/
theorem Builds.after {α : Type} {m : Prog Session α} {f : α → Prog Session (Option Tiles)}
    (hm : ∀ s₀ l r, Triple (Owes p.v D s₀ l r) m fun _ => Owes p.v D s₀ l r) (hf : ∀ a, Builds p D P (f a)) :
    Builds p D P (m >>= f) :=
  fun s₀ l r => (hm s₀ l r).bind fun a => hf a s₀ l r

theorem hostGroups_owes (groups : List Nat) :
    Triple (Owes p.v D s₀ l r) (hostGroups p groups) fun _ => Owes p.v D s₀ l r := by
  induction groups with
  | nil => exact Triple.pure fun _ h => h
  | cons n ns ih => exact (Mem.hostAllocs_owes n).bind fun _ => Triple.ite (fun _ => ih) fun _ => Triple.pure fun _ h => h

/-! ### Tiles -/

/-- The tile loop, whether or not the weight will own its tiles. -/
theorem placeTiles_owes {src : Source} {owns : Bool} {sizes : List Nat} (hD : orkDom p.v dom = D) :
    Triple (Owes p.v D s₀ l r) (placeTiles p src owns dom sizes) fun o s =>
      Owes p.v D s₀ (o.elim [] Tiles.Bb ++ l) r s ∧ ∀ t ∈ o, t = { Tiles.blank owns dom with Bb := t.Bb } := by
  refine (Mem.createOrNone_owes hD sizes).bind fun o => ?_
  cases o with
  | none => exact Triple.pure fun _ h => ⟨h, fun _ ht => nomatch ht⟩
  | some Bb =>
      refine Triple.pure fun _ h => ⟨h, fun t ht => ?_⟩
      cases ht
      rfl

theorem placeTiles_builds {src : Source} {sizes : List Nat} (hD : orkDom p.v dom = D) :
    Builds p D Tiles.Fresh (placeTiles p src true dom sizes) := by
  intro s₀ l r
  refine (placeTiles_owes hD).post fun o s h => ?_
  obtain ⟨howes, heq⟩ := h
  cases o with
  | none => exact ⟨howes, fun _ ht => nomatch ht⟩
  | some t =>
      have ht := heq t rfl
      refine ⟨?_, fun t' ht' => ?_⟩
      · rw [Option.elim_some, ht]
        refine howes.perm (List.Perm.of_eq ?_)
        change t.Bb ++ l = (t.Bb ++ []) ++ l
        rw [List.append_nil]
      · cases ht'
        rw [ht]
        exact ⟨⟨rfl, rfl, rfl⟩, rfl⟩

theorem placeOwn_builds {sizes : List Nat} {shown : Nat → Nat} {perTile : Prog Session (Option Tiles)}
    (hD : orkDom p.v p.dom = D) (hp : Builds p D Tiles.Fresh perTile) : Builds p D Tiles.Fresh (placeOwn p sizes shown perTile) := by
  intro s₀ l r
  refine (Mem.create_owes hD _).bind fun own => Triple.ite (fun ho => ?_) fun ho => ?_
  · rw [kept_of_cpu ho]
    refine Triple.pure fun s h => ⟨h, fun t ht => ?_⟩
    cases ht
    exact ⟨⟨rfl, rfl, rfl⟩, rfl⟩
  · rw [kept_of_not ho]
    exact hp s₀ l r

theorem importChunks_owes (hD : orkDom p.v p.dom = D) (csz : Nat → Nat → Nat) (rem : Nat) (cur : Option (Buf × Nat × Nat))
    (sizes : List Nat) :
    Triple (Owes p.v D s₀ l r) (importChunks p csz rem cur sizes) fun o => Owes p.v D s₀ (o.2.1 ++ l) r := by
  induction sizes generalizing rem cur l with
  | nil => exact Triple.pure fun _ h => h
  | cons ts rest ih =>
      unfold importChunks
      cases cur.filter fun c => c.2.1 + ts ≤ c.2.2 with
      | some c => exact (ih _ _).bind fun o => Triple.pure fun _ h => h
      | none =>
          refine (Mem.create_owes hD _).bind fun b => Triple.ite (fun hb => ?_) fun hb => ?_
          · rw [kept_of_cpu hb]
            exact (ih _ _).bind fun o => Triple.pure fun _ h => h.perm List.perm_middle
          · rw [kept_of_not hb]
            exact Triple.pure fun _ h => h

theorem placeImported_builds (hD : orkDom p.v p.dom = D) (csz : Nat → Nat → Nat) (sizes : List Nat) :
    Builds p D Tiles.Fresh (placeImported p csz sizes) := by
  refine Builds.ite (placeTiles_builds hD) fun s₀ l r => ?_
  refine (importChunks_owes hD csz _ _ _).bind fun o => Triple.ite (fun _ => ?_) fun _ => ?_
  · refine Triple.pure fun s h => ⟨h, fun t ht => ?_⟩
    cases ht
    exact ⟨⟨rfl, rfl, rfl⟩, rfl⟩
  · exact (Mem.destroyAll_owes _).bind fun _ => placeTiles_builds hD s₀ l r

/-! ### Full-K copies and host memory -/

theorem natives_map (t : Tiles) (o : Option (List Buf)) :
    ({ t with Bf := o.map fun bs => bs.map fun b => ⟨b, true⟩ } : Tiles).natives = o.getD [] := by
  unfold Tiles.natives
  cases o with
  | none => rfl
  | some bs =>
      have hall : ∀ b ∈ bs.map fun b => (⟨b, true⟩ : BfBuf), b.native = true := by
        intro b hb
        obtain ⟨c, -, rfl⟩ := List.mem_map.mp hb
        rfl
      rw [Option.map_some, Option.getD_some, Option.getD_some, List.filter_eq_self.mpr hall, List.map_map]
      exact List.map_id bs

/-- The full-K copies are owed, and only `Bf` changes. -/
theorem attachBf_owes {src : Source} {want : Bool} {g : Geom} (hD : orkDom p.v dom = D) (ht : t.Bf = none) :
    Triple (Owes p.v D s₀ l r) (attachBf p src dom want g t) fun t' s =>
      Owes p.v D s₀ (t'.natives ++ l) r s ∧ t' = { t with Bf := t'.Bf } := by
  refine Triple.ite (fun _ => ?_) fun _ => ?_
  · refine (Mem.createOrNone_owes hD _).bind fun o => Triple.pure fun s h => ?_
    rw [natives_map]
    exact ⟨h, rfl⟩
  · refine Triple.pure fun s h => ⟨?_, rfl⟩
    have hn : t.natives = [] := by
      unfold Tiles.natives
      rw [ht]
      rfl
    rw [hn]
    exact h

/-- The claim of a weight with its full-K copy. -/
theorem Tiles.Fresh.reclaims_perm {Bf : Option (List BfBuf)} (h : t.Fresh) :
    (({ t with Bf := Bf } : Tiles).natives ++ t.reclaims).Perm ({ t with Bf := Bf } : Tiles).reclaims := by
  have hn : t.natives = [] := by
    unfold Tiles.natives
    rw [h.noBf]
    rfl
  unfold Tiles.reclaims
  rw [hn, List.nil_append]
  dsimp only
  exact List.perm_append_comm_assoc _ _ _

theorem attachBf_extends {src : Source} {want : Bool} {g : Geom} (hD : orkDom p.v dom = D) :
    Extends p D Tiles.Fresh Tiles.Local (fun t => do
      let t ← attachBf p src dom want g t
      pure (some t)) := by
  intro t ht s₀ l r
  refine (attachBf_owes hD ht.noBf).bind fun t' => Triple.pure fun s h => ?_
  obtain ⟨howes, heq⟩ := h
  have hlocal : t'.Local := by
    rw [heq]
    exact ⟨ht.orkd, ht.codes, ht.noFull⟩
  refine ⟨howes.perm ?_, fun _ h => (Option.some.inj h) ▸ hlocal⟩
  rw [← List.append_assoc]
  refine List.Perm.append_right l ?_
  rw [heq]
  exact ht.reclaims_perm

theorem finish_extends (hP : ∀ t, P t → t.Local) (groups : List Nat) :
    Extends p D P P (finish p groups (orkMmFreeTiles p)) := by
  intro t ht s₀ l r
  refine (hostGroups_owes groups).bind fun ok => Triple.ite (fun _ => ?_) fun _ => ?_
  · exact Triple.pure fun s h => ⟨h, fun _ h => (Option.some.inj h) ▸ ht⟩
  · refine Triple.bind (Q := fun _ => Owes p.v D s₀ l r) ?_ fun _ => Triple.pure fun s h => ⟨h, fun _ ht => nomatch ht⟩
    have hfree : Triple (Owes p.v D s₀ (t.claims ++ l) (t.ids ++ r)) (orkMmFreeTiles p t) fun _ => Owes p.v D s₀ l r :=
      orkMmFreeTiles_owes t
    rw [(hP t ht).claims_eq, (hP t ht).ids_eq] at hfree
    exact hfree

/-! ### Rescue tiles -/

theorem orkiPackTiles_builds (hD : orkDom p.v p.dom = D) (dt : Pack.Dt) (K N : Nat) :
    Builds p D Tiles.Local (orkiPackTiles p dt K N) := by
  refine Builds.ite builds_none (Builds.andThen (Builds.ite ?_ ?_) (attachBf_extends hD))
  · exact placeOwn_builds hD (placeTiles_builds hD)
  · exact placeTiles_builds hD

theorem orkI4MmPackTiles_builds (hD : orkDom p.v p.dom = D) (K N : Nat) :
    Builds p D Tiles.Local (orkI4MmPackTiles p K N) :=
  Builds.ite builds_none ((placeTiles_builds hD).mono fun _ h => h.toLocal)

theorem packSubs_owes {pack : Nat → Nat → Prog Session (Option Tiles)} (hp : ∀ K N, Builds p D Tiles.Local (pack K N))
    (dims : List (Nat × Nat)) :
    Triple (Owes p.v D s₀ l r) (packSubs pack dims) fun o s =>
      Owes p.v D s₀ (o.1.flatMap Tiles.claims ++ l) r s ∧ o.1.flatMap Tiles.ids = [] := by
  induction dims generalizing l with
  | nil => exact Triple.pure fun _ h => ⟨h, rfl⟩
  | cons d rest ih =>
      refine (hp d.1 d.2 s₀ l r).bind fun o => ?_
      cases o with
      | none => exact Triple.pure fun _ h => ⟨h.1, rfl⟩
      | some sw =>
          intro s hs
          have hsw := hs.2 sw rfl
          have hrest : Triple (Owes p.v D s₀ (sw.reclaims ++ l) r)
              (packSubs pack rest >>= fun o => pure (sw :: o.1, o.2)) fun o s =>
                Owes p.v D s₀ (o.1.flatMap Tiles.claims ++ l) r s ∧ o.1.flatMap Tiles.ids = [] := by
            refine ih.bind fun o => Triple.pure fun s h => ?_
            rw [List.flatMap_cons, List.flatMap_cons, hsw.claims_eq, hsw.ids_eq]
            refine ⟨h.1.perm ?_, h.2⟩
            rw [List.append_assoc]
            exact List.perm_append_comm_assoc _ _ _
          exact hrest s hs.1

theorem slicePack_owes {pack : Nat → Nat → Prog Session (Option Tiles)} (hp : ∀ K N, Builds p D Tiles.Local (pack K N))
    (dims : List (Nat × Nat)) :
    Triple (Owes p.v D s₀ l r) (slicePack p pack dims) fun o s =>
      Owes p.v D s₀ ((o.getD []).flatMap Tiles.claims ++ l) r s ∧ (o.getD []).flatMap Tiles.ids = [] := by
  refine (hostGroups_owes _).bind fun ok => Triple.ite (fun _ => ?_) fun _ => Triple.pure fun s h => ⟨h, rfl⟩
  refine (packSubs_owes hp dims).bind fun o => Triple.ite (fun _ => Triple.pure fun s h => h) fun _ => ?_
  refine Triple.bind (Q := fun _ => Owes p.v D s₀ l r) ?_ fun _ => Triple.pure fun s h => ⟨h, rfl⟩
  rintro s ⟨howes, hids⟩
  refine orkMmFreeSliced_owes o.1 s ?_
  rw [hids]
  exact howes

theorem orkiI8SlicePack_owes (hD : orkDom p.v p.dom = D) (K N : Nat) :
    Triple (Owes p.v D s₀ l r) (orkiI8SlicePack p K N) fun o s =>
      Owes p.v D s₀ ((o.getD []).flatMap Tiles.claims ++ l) r s ∧ (o.getD []).flatMap Tiles.ids = [] :=
  Triple.ite (fun _ => Triple.pure fun _ h => ⟨h, rfl⟩) fun _ => slicePack_owes (orkiPackTiles_builds hD .i8) _

theorem orkiI4SlicePack_owes (hD : orkDom p.v p.dom = D) (K N : Nat) :
    Triple (Owes p.v D s₀ l r) (orkiI4SlicePack p K N) fun o s =>
      Owes p.v D s₀ ((o.getD []).flatMap Tiles.claims ++ l) r s ∧ (o.getD []).flatMap Tiles.ids = [] :=
  Triple.ite (fun _ => Triple.pure fun _ h => ⟨h, rfl⟩) fun _ => slicePack_owes (orkI4MmPackTiles_builds hD) _

/-! ### Whole weights -/

theorem whole_accounts {m : Prog Session (Option Tiles)} (h : AccountsAt p D m Tiles.claims Tiles.ids s) :
    AccountsAt p D (whole m) OrkW.claims OrkW.ids s := by
  intro s₀ l r hs
  have howes := h s₀ l r hs
  change Owes p.v D s₀ (((m s).1.map fun t => (⟨t, none⟩ : OrkW)).elim [] OrkW.claims ++ l)
    (((m s).1.map fun t => (⟨t, none⟩ : OrkW)).elim [] OrkW.ids ++ r) (m s).2
  generalize (m s).1 = o at howes ⊢
  cases o with
  | none => exact howes
  | some t =>
      rw [Option.map_some, Option.elim_some, Option.elim_some, claims_whole, ids_whole]
      exact howes

theorem rescue_owes {m : Prog Session (Option Tiles)} {want : Tiles → Bool} {K N : Nat}
    {pack : Prog Session (Option (List Tiles))} (hm : Builds p D Tiles.Local m)
    (hp : ∀ s₀ l r, Triple (Owes p.v D s₀ l r) pack fun o s =>
      Owes p.v D s₀ ((o.getD []).flatMap Tiles.claims ++ l) r s ∧ (o.getD []).flatMap Tiles.ids = []) :
    Triple (Owes p.v D s₀ l r) (rescue m want K N pack) fun o s =>
      Owes p.v D s₀ (o.elim [] OrkW.claims ++ l) (o.elim [] OrkW.ids ++ r) s ∧ ∀ w ∈ o, w.Local := by
  refine (hm s₀ l r).bind fun o => ?_
  cases o with
  | none => exact Triple.pure fun _ h => ⟨h.1, fun _ hw => nomatch hw⟩
  | some t =>
      rintro s ⟨howes, hlocal⟩
      have ht := hlocal t rfl
      have hcl : ∀ sl, (⟨t, sl⟩ : OrkW).claims = t.reclaims ++ (sl.getD []).flatMap Tiles.claims ∧
          (⟨t, sl⟩ : OrkW).ids = (sl.getD []).flatMap Tiles.ids := by
        intro sl
        unfold OrkW.claims OrkW.ids
        rw [ht.orkd, ht.codes]
        exact ⟨rfl, rfl⟩
      have hrest : Triple (Owes p.v D s₀ (t.reclaims ++ l) r)
          (if want t ∧ 0 < K ∧ 0 < N then pack >>= fun sl => pure (some (⟨t, sl⟩ : OrkW)) else pure (some ⟨t, none⟩))
          fun o s => Owes p.v D s₀ (o.elim [] OrkW.claims ++ l) (o.elim [] OrkW.ids ++ r) s ∧ ∀ w ∈ o, w.Local := by
        refine Triple.ite (fun _ => ?_) fun _ => ?_
        · refine (hp s₀ _ r).bind fun sl => Triple.pure fun s h => ?_
          rw [Option.elim_some, Option.elim_some, (hcl sl).1, (hcl sl).2, h.2]
          refine ⟨h.1.perm ?_, fun w hw => (Option.some.inj hw) ▸ ht⟩
          rw [List.append_assoc]
          exact List.perm_append_comm_assoc _ _ _
        · refine Triple.pure fun s h => ?_
          rw [Option.elim_some, Option.elim_some, (hcl none).1, (hcl none).2, Option.getD_none, List.flatMap_nil,
            List.flatMap_nil, List.append_nil]
          exact ⟨h, fun w hw => (Option.some.inj hw) ▸ ht⟩
      exact hrest s howes

theorem orkiPack_owes (hD : orkDom p.v p.dom = D) (dt : Pack.Dt) (K N : Nat) :
    Triple (Owes p.v D s₀ l r) (orkiPack p dt K N) fun o s =>
      Owes p.v D s₀ (o.elim [] OrkW.claims ++ l) (o.elim [] OrkW.ids ++ r) s ∧ ∀ w ∈ o, w.Local :=
  rescue_owes (orkiPackTiles_builds hD dt K N) fun _ _ _ => orkiI8SlicePack_owes hD K N

end OrkDriver.Weights
