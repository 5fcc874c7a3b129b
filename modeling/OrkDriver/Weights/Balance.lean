import OrkDriver.Weights.Ownership

/-!
Constructing a weight and freeing it leaves the live buffers as they were, but for the constructors that do not own their
tiles, one that drops them, and a client that drops a packed weight.
-/

namespace OrkDriver.Weights

open OrkDriver.Lib (Prog Triple pieces pieceLen)
open OrkDriver.Mem (BufEnv Buf Source Answers Session Owes Homed orkDom grants createTiles)
open OrkDriver.Pack (Geom)

variable {p : Packer} {D dom : Int} {s₀ s : Session} {l : List Buf} {r : List Nat} {src : Source} {owns bf : Bool} {g : Geom}
  {sizes : List Nat}

/-! ### The property -/

/-- Every live buffer beyond those of `s₀` is one that the context took over, the daemon holds the same weights, and
nothing was destroyed twice. -/
structure Restored (s₀ s : Session) : Prop where
  live : ∃ k, s.ctx = k ++ s₀.ctx ∧ s.proc.live.Perm (k ++ s₀.proc.live)
  once : s.doubled = s₀.doubled
  remote : s.remote.Perm s₀.remote

/-- The new buffers, but for those the context took over, are in domain `D`, and the arena's chunks in the domains they
serve. -/
structure Placed (v : BufEnv) (D : Int) (s₀ s : Session) : Prop where
  domain : ∃ k l, s.ctx = k ++ s₀.ctx ∧ s.proc.live.Perm (l ++ (k ++ s₀.proc.live)) ∧ ∀ b ∈ l, b.domain = D
  homed : Homed v s₀ → Homed v s

/-- A constructor, and `ork_mm_free` where it returned a weight. -/
def roundTrip (p : Packer) (m : Prog Session (Option OrkW)) : Prog Session Unit := do
  let w ← m
  match w with
  | none => pure ()
  | some w => orkMmFree p w

/-- What is asked of a constructor from state `s` on. -/
structure Balances (p : Packer) (D : Int) (m : Prog Session (Option OrkW)) (s : Session) : Prop where
  restored : Restored s (roundTrip p m s).2
  placed : Placed p.v D s (m s).2

theorem restored_iff (h : Owes p.v D s₀ l r s) : Restored s₀ s ↔ l = [] ∧ r = [] := by
  constructor
  · rintro ⟨hlive, -, hrem⟩
    refine ⟨h.settled_iff.mp hlive, ?_⟩
    have hlen := (h.remote.symm.trans hrem).length_eq
    rw [List.length_append] at hlen
    exact List.length_eq_zero_iff.mp (by omega)
  · rintro ⟨hl, rfl⟩
    exact ⟨h.settled_iff.mpr hl, h.once, h.remote⟩

theorem placed_iff (h : Owes p.v dom s₀ l r s) : Placed p.v D s₀ s ↔ l = [] ∨ dom = D := by
  obtain ⟨k, hk, hlive⟩ := h.live
  constructor
  · rintro ⟨⟨k', l', hk', hlive', hdom⟩, -⟩
    cases l with
    | nil => exact Or.inl rfl
    | cons b l =>
        right
        have heq : k = k' := List.append_cancel_right (hk.symm.trans hk')
        rw [← heq] at hlive'
        have hperm := (List.perm_append_right_iff _).mp (hlive.symm.trans hlive')
        rw [← h.domain b List.mem_cons_self]
        exact hdom b (hperm.mem_iff.mp List.mem_cons_self)
  · intro hD
    refine ⟨⟨k, l, hk, hlive, fun b hb => ?_⟩, h.homed⟩
    rcases hD with rfl | rfl
    · exact absurd hb List.not_mem_nil
    · exact h.domain b hb

theorem AccountsAt.balances {m : Prog Session (Option OrkW)} (h : AccountsAt p D m OrkW.claims OrkW.ids s) :
    Balances p D m s := by
  have howes := h s [] [] (Owes.refl p.v D s)
  refine ⟨?_, (placed_iff howes).mpr (Or.inr rfl)⟩
  have hrt : Owes p.v D s [] [] (roundTrip p m s).2 := by
    change Owes p.v D s [] [] ((match (m s).1 with
      | none => pure ()
      | some w => orkMmFree p w : Prog Session Unit) (m s).2).2
    generalize (m s).1 = o at howes ⊢
    cases o with
    | none => exact howes
    | some w => exact orkMmFree_owes w (m s).2 howes
  exact (restored_iff hrt).mpr ⟨rfl, rfl⟩

/-! ### Constructors that account for everything -/

section Accounts

variable {α : Type} {claims : α → List Buf} {ids : α → List Nat} {m m' : Prog Session (Option α)}

theorem accounts_none : AccountsAt p D (pure none) claims ids s := fun _ _ _ h => h

theorem AccountsAt.ite {c : Prop} [Decidable c] (ht : c → AccountsAt p D m claims ids s)
    (he : ¬ c → AccountsAt p D m' claims ids s) : AccountsAt p D (if c then m else m') claims ids s := by
  by_cases h : c
  · rw [if_pos h]
    exact ht h
  · rw [if_neg h]
    exact he h

end Accounts

theorem offline_accounts (groups : List Nat) : AccountsAt p D (offline p groups) Tiles.claims Tiles.ids s := by
  intro s₀ l r
  refine (hostGroups_owes groups).bind (R := fun (o : Option Tiles) =>
    Owes p.v D s₀ (o.elim [] Tiles.claims ++ l) (o.elim [] Tiles.ids ++ r)) (fun ok => ?_) s
  exact Triple.ite (fun _ => Triple.pure fun _ h => h) fun _ => Triple.pure fun _ h => h

/-- The daemon packs a weight, and there is no host memory for its handle. -/
def Dropped (p : Packer) (call alloc : Nat) : Prop := (p.a.orkd call).isSome ∧ p.a.host alloc = false

theorem client_eq (d : Int) (s : Session) : client p d s = (p.a.orkd s.calls).elim (none, (Mem.orkdPack p.a s).2) fun id =>
    (if p.a.host s.allocs then some { Tiles.blank false d with orkd := some id } else none,
      (Mem.hostAlloc p.a (Mem.orkdPack p.a s).2).2) := by
  have hpack : Mem.orkdPack p.a s = (p.a.orkd s.calls, (Mem.orkdPack p.a s).2) := rfl
  unfold client
  rw [Prog.bind_eq hpack]
  cases p.a.orkd s.calls with
  | none => rfl
  | some id =>
      have hhost : Mem.hostAlloc p.a (Mem.orkdPack p.a s).2 =
          (p.a.host s.allocs, (Mem.hostAlloc p.a (Mem.orkdPack p.a s).2).2) := rfl
      dsimp only [Option.elim]
      rw [Prog.bind_eq hhost]
      split_ifs <;> rfl

theorem client_accounts (h : ¬ Dropped p s.calls s.allocs) (d : Int) :
    AccountsAt p D (client p d) Tiles.claims Tiles.ids s := by
  intro s₀ l r hs
  have hpack := Mem.orkdPack_owes (a := p.a) s hs
  change Owes p.v D s₀ l ((p.a.orkd s.calls).toList ++ r) (Mem.orkdPack p.a s).2 at hpack
  unfold Dropped at h
  rw [client_eq]
  generalize p.a.orkd s.calls = o at h hpack ⊢
  cases o with
  | none => exact hpack
  | some id =>
      have hok : p.a.host s.allocs = true := by
        by_contra hf
        exact h ⟨rfl, Bool.eq_false_iff.mpr hf⟩
      dsimp only [Option.elim]
      rw [if_pos hok]
      exact Mem.hostAlloc_owes (a := p.a) _ hpack

/-- A dropped weight stays with the daemon. -/
theorem client_dropped (h : Dropped p s.calls s.allocs) (d : Int) :
    (client p d s).1 = none ∧ ∃ id, Owes p.v D s [] [id] (client p d s).2 := by
  obtain ⟨hid, hno⟩ := h
  have hpack := Mem.orkdPack_owes (a := p.a) s (Owes.refl p.v D s)
  change Owes p.v D s [] ((p.a.orkd s.calls).toList ++ []) (Mem.orkdPack p.a s).2 at hpack
  rw [client_eq]
  generalize p.a.orkd s.calls = o at hid hpack ⊢
  cases o with
  | none => cases hid
  | some id =>
      dsimp only [Option.elim]
      rw [hno, if_neg Bool.false_ne_true]
      exact ⟨rfl, id, Mem.hostAlloc_owes (a := p.a) _ hpack⟩

/-! ### The constructors that quantise -/

/-- The tiles of an int8 weight. -/
def i8Sizes (p : Packer) (K N : Nat) : List Nat := tileBytes (i8Geom p K N) 1 1

/-- From `s` on, the quantising constructors for domain `dom` get as far as their last host allocations with a buffer. -/
structure Takes (p : Packer) (dom : Int) (K N : Nat) (s : Session) : Prop where
  rows : K % 32 = 0
  cols : N % 32 = 0
  host : p.a.host s.allocs = true ∧ p.a.host (s.allocs + 1) = true
  tiles : grants p.v p.a (.created false) dom (i8Sizes p K N) { s with allocs := s.allocs + 2 } = true
  some : i8Sizes p K N ≠ [] ∨ (K ≤ 10752 ∧ p.k.noBf = false) ∧ bfBytes (i8Geom p K N) ≠ [] ∧
    grants p.v p.a (.created false) dom (bfBytes (i8Geom p K N))
      (createTiles p.v p.a (.created false) dom (i8Sizes p K N) { s with allocs := s.allocs + 2 }).2 = true

/-- The last host allocations are granted. -/
def Held (p : Packer) (n : Nat) (s : Session) : Prop := ∀ i < n, p.a.host (s.allocs + 2 + i) = true

theorem andThen_some {m : Prog Session (Option Tiles)} {f : Tiles → Prog Session (Option Tiles)} {t : Tiles} {s' : Session}
    (h : m s = (some t, s')) : andThen m f s = f t s' := Prog.bind_eq h

theorem andThen_none {m : Prog Session (Option Tiles)} {f : Tiles → Prog Session (Option Tiles)} {s' : Session}
    (h : m s = (none, s')) : andThen m f s = (none, s') := Prog.bind_eq h

theorem placeTiles_granted (h : grants p.v p.a src dom sizes s = true) :
    placeTiles p src owns dom sizes s = (some { Tiles.blank owns dom with Bb := (createTiles p.v p.a src dom sizes s).1.1 },
      (createTiles p.v p.a src dom sizes s).2) := Prog.bind_eq (Mem.createOrNone_granted h)

instance (p : Packer) (n : Nat) (s : Session) : Decidable (Held p n s) :=
  inferInstanceAs (Decidable (∀ i < n, p.a.host (s.allocs + 2 + i) = true))

theorem attachBf_natives {want : Bool} {t : Tiles} (ht : t.Bf = none) (s : Session) :
    let r := attachBf p src dom want g t s
    r.2.allocs = s.allocs ∧
      (r.1.natives ≠ [] ↔ want = true ∧ bfBytes g ≠ [] ∧ grants p.v p.a src dom (bfBytes g) s = true) := by
  have hn : t.natives = [] := by
    unfold Tiles.natives
    rw [ht]
    rfl
  unfold attachBf
  dsimp only
  by_cases hw : want = true
  · rw [if_pos hw]
    refine ⟨Mem.createOrNone_allocs (bfBytes g) s, ?_⟩
    change ({ t with Bf := (Mem.createOrNone p.v p.a src dom (bfBytes g) s).1.map fun bs => bs.map fun b => ⟨b, true⟩ } :
      Tiles).natives ≠ [] ↔ _
    rw [natives_map]
    by_cases hg : grants p.v p.a src dom (bfBytes g) s = true
    · rw [Mem.createOrNone_granted hg, Option.getD_some, ne_eq, ne_eq, ← List.length_eq_zero_iff,
        Mem.createTiles_length hg, List.length_eq_zero_iff]
      exact ⟨fun h => ⟨hw, h, hg⟩, fun h => h.2.1⟩
    · rw [Mem.createOrNone_refused hg]
      exact ⟨fun h => absurd rfl h, fun h => absurd h.2.2 hg⟩
  · rw [if_neg hw]
    exact ⟨rfl, fun h => absurd hn h, fun h => absurd h.1 hw⟩

/-- The tiles and the full-K copy of a quantised weight, where the kernel grants the tiles. -/
theorem i8Tiles_granted (owns bf : Bool) (h : grants p.v p.a src dom (tileBytes g 1 1) s = true) :
    ∃ t s', i8Tiles p src owns dom bf g s = (some t, s') ∧ t = { Tiles.blank owns dom with Bb := t.Bb, Bf := t.Bf } ∧
      t.Bb.length = (tileBytes g 1 1).length ∧ s'.allocs = s.allocs ∧
      (t.natives ≠ [] ↔ bf = true ∧ bfBytes g ≠ [] ∧
        grants p.v p.a src dom (bfBytes g) (createTiles p.v p.a src dom (tileBytes g 1 1) s).2 = true) ∧
      Owes p.v (orkDom p.v dom) s (t.natives ++ t.Bb) [] s' := by
  have hval : placeTiles p src owns dom (tileBytes g 1 1) s = _ := placeTiles_granted h
  have howes : Owes p.v (orkDom p.v dom) s ((createTiles p.v p.a src dom (tileBytes g 1 1) s).1.1 ++ []) []
      (createTiles p.v p.a src dom (tileBytes g 1 1) s).2 :=
    Mem.createTiles_owes rfl (tileBytes g 1 1) s (Owes.refl p.v (orkDom p.v dom) s)
  have hal : (createTiles p.v p.a src dom (tileBytes g 1 1) s).2.allocs = s.allocs := Mem.createTiles_allocs _ _
  have hlen := Mem.createTiles_length h
  generalize createTiles p.v p.a src dom (tileBytes g 1 1) s = c at howes hal hlen hval ⊢
  rw [List.append_nil] at howes
  let t₀ : Tiles := { Tiles.blank owns dom with Bb := c.1.1 }
  have hnat : let r := attachBf p src dom bf g t₀ c.2
      r.2.allocs = c.2.allocs ∧
        (r.1.natives ≠ [] ↔ bf = true ∧ bfBytes g ≠ [] ∧ grants p.v p.a src dom (bfBytes g) c.2 = true) :=
    attachBf_natives rfl c.2
  have hbf : Owes p.v (orkDom p.v dom) s ((attachBf p src dom bf g t₀ c.2).1.natives ++ c.1.1) []
      (attachBf p src dom bf g t₀ c.2).2 ∧
      (attachBf p src dom bf g t₀ c.2).1 = { t₀ with Bf := (attachBf p src dom bf g t₀ c.2).1.Bf } :=
    attachBf_owes rfl rfl c.2 howes
  have hrun : i8Tiles p src owns dom bf g s =
      (some (attachBf p src dom bf g t₀ c.2).1, (attachBf p src dom bf g t₀ c.2).2) := andThen_some hval
  rw [hrun]
  generalize attachBf p src dom bf g t₀ c.2 = r at hnat hbf ⊢
  obtain ⟨howes', heq⟩ := hbf
  have hBb : r.1.Bb = c.1.1 := congrArg Tiles.Bb heq
  refine ⟨r.1, r.2, rfl, ?_, ?_, hnat.1.trans hal, hnat.2, ?_⟩
  · rw [hBb]
    exact heq
  · rw [hBb]
    exact hlen
  · rw [hBb]
    exact howes'

theorem i8Tiles_refused (owns bf : Bool) (h : ¬ grants p.v p.a src dom (tileBytes g 1 1) s = true) :
    ∃ s', i8Tiles p src owns dom bf g s = (none, s') ∧ Owes p.v (orkDom p.v dom) s [] [] s' := by
  have howes : Owes p.v (orkDom p.v dom) s
      ((Mem.createOrNone p.v p.a src dom (tileBytes g 1 1) s).1.getD [] ++ []) []
      (Mem.createOrNone p.v p.a src dom (tileBytes g 1 1) s).2 :=
    Mem.createOrNone_owes rfl (tileBytes g 1 1) s (Owes.refl p.v (orkDom p.v dom) s)
  have hnone : (Mem.createOrNone p.v p.a src dom (tileBytes g 1 1) s).1 = none := Mem.createOrNone_refused h
  have hpl : placeTiles p src owns dom (tileBytes g 1 1) s =
      (none, (Mem.createOrNone p.v p.a src dom (tileBytes g 1 1) s).2) := Prog.bind_eq (Prod.ext hnone rfl)
  rw [hnone] at howes
  exact ⟨_, andThen_none hpl, howes⟩

/-- What a weight of the quantising constructors leaves behind when it is freed: its tiles, unless it owns them. -/
theorem roundTrip_quantised {m : Prog Session (Option Tiles)} {t : Tiles} {s' : Session}
    (ht : t = { Tiles.blank owns dom with Bb := t.Bb, Bf := t.Bf }) (hm : m s = (some t, s'))
    (h : Owes p.v D s₀ (t.natives ++ t.Bb) [] s') :
    Owes p.v D s₀ (if owns then [] else t.Bb) [] (roundTrip p (whole m) s).2 := by
  have hrun : roundTrip p (whole m) s = orkMmFree p ⟨t, none⟩ s' := by
    have hwhole : whole m s = (some ⟨t, none⟩, s') := Prog.bind_eq hm
    exact Prog.bind_eq hwhole
  have hrec : t.reclaims = (if owns then t.Bb else []) ++ t.natives := by
    generalize t.Bb = Bb, t.Bf = Bf at ht
    subst ht
    exact congrArg _ (List.append_nil _)
  have hlocal : t.Local := by
    generalize t.Bb = Bb, t.Bf = Bf at ht
    subst ht
    exact ⟨rfl, rfl, rfl⟩
  have hfree : Triple (Owes p.v D s₀ ((⟨t, none⟩ : OrkW).claims ++ if owns then [] else t.Bb) ((⟨t, none⟩ : OrkW).ids ++ []))
      (orkMmFree p ⟨t, none⟩) fun _ => Owes p.v D s₀ (if owns then [] else t.Bb) [] := orkMmFree_owes _
  rw [claims_whole, ids_whole, hlocal.claims_eq, hlocal.ids_eq, hrec] at hfree
  rw [hrun]
  refine hfree s' (h.perm ?_)
  cases owns with
  | true =>
      change (t.natives ++ t.Bb).Perm ((t.Bb ++ t.natives) ++ [])
      rw [List.append_nil]
      exact List.perm_append_comm
  | false => exact List.Perm.refl _

theorem roundTrip_none {m : Prog Session (Option OrkW)} {s' : Session} (hm : m s = (none, s')) :
    roundTrip p m s = ((), s') := Prog.bind_eq hm

theorem whole_eq {m : Prog Session (Option Tiles)} {o : Option Tiles} {s' : Session} (hm : m s = (o, s')) :
    whole m s = (o.map fun t => (⟨t, none⟩ : OrkW), s') := Prog.bind_eq hm

theorem hostGroups_two (h : p.a.host s.allocs = true ∧ p.a.host (s.allocs + 1) = true) :
    hostGroups p [1, 1] s = (true, { s with allocs := s.allocs + 2 }) := by
  have h1 : ∀ s : Session, p.a.host s.allocs = true → Mem.hostAllocs p.a 1 s = (true, { s with allocs := s.allocs + 1 }) := by
    intro s h
    change ((p.a.host s.allocs && true), _) = _
    rw [h]
    rfl
  have h2 : hostGroups p [1] { s with allocs := s.allocs + 1 } = (true, { s with allocs := s.allocs + 2 }) :=
    Prog.bind_eq (h1 { s with allocs := s.allocs + 1 } h.2)
  exact (Prog.bind_eq (h1 s h.1)).trans h2

theorem hostGroups_refused (h : ¬ (p.a.host s.allocs = true ∧ p.a.host (s.allocs + 1) = true)) :
    (hostGroups p [1, 1] s).1 = false := by
  change ((if (p.a.host s.allocs && true) = true then hostGroups p [1] else pure false : Prog Session Bool)
    { s with allocs := s.allocs + 1 }).1 = false
  rw [Bool.and_true]
  by_cases h0 : p.a.host s.allocs = true
  · rw [if_pos h0]
    change ((if (p.a.host (s.allocs + 1) && true) = true then pure true else pure false : Prog Session Bool) _).1 = false
    rw [Bool.and_true, if_neg fun h1 => h ⟨h0, h1⟩]
    rfl
  · rw [if_neg h0]
    rfl

/-- A quantising constructor has taken the tiles `Bb` and the full-K copies `Bf`, and `ork_mm_free` gives all of them back
but for tiles that the weight does not own, or none where a last host allocation failed. -/
structure Quantised (p : Packer) (owns : Bool) (dom : Int) (K N n : Nat) (s : Session) (Bb Bf : List Buf) : Prop where
  some : Bf ++ Bb ≠ [] ↔ Takes p dom K N s
  tiles : Takes p dom K N s → Bb.length = (i8Sizes p K N).length
  taken : Owes p.v (orkDom p.v dom) s (Bf ++ Bb) [] (packQuantised p owns dom K N n s).2
  left : Owes p.v (orkDom p.v dom) s (if Held p n s then (if owns then [] else Bb) else Bf ++ Bb) []
    (roundTrip p (whole (packQuantised p owns dom K N n)) s).2

theorem quantised_none {n K N : Nat} {s' : Session} (hno : ¬ Takes p dom K N s)
    (hm : packQuantised p owns dom K N n s = (none, s')) (h : Owes p.v (orkDom p.v dom) s [] [] s') :
    Quantised p owns dom K N n s [] [] := by
  refine ⟨⟨fun hne => absurd rfl hne, fun ht => absurd ht hno⟩, fun ht => absurd ht hno, ?_, ?_⟩
  · rw [hm]
    exact h
  · rw [roundTrip_none (whole_eq hm), ite_self, List.append_nil, ite_self]
    exact h

theorem finish_held {n : Nat} {t : Tiles} (h : ∀ i < n, p.a.host (s.allocs + i) = true) :
    finish p [n] orkWFree t s = (some t, (Mem.hostAllocs p.a n s).2) := by
  have hall : hostGroups p [n] s = (true, (Mem.hostAllocs p.a n s).2) :=
    Prog.bind_eq (Prod.ext ((Mem.hostAllocs_iff n s).mpr h) rfl)
  exact Prog.bind_eq hall

theorem finish_refused {n : Nat} {t : Tiles} (h : ¬ ∀ i < n, p.a.host (s.allocs + i) = true) :
    finish p [n] orkWFree t s = (none, (Mem.hostAllocs p.a n s).2) := by
  have hno : (Mem.hostAllocs p.a n s).1 = false := Bool.eq_false_iff.mpr fun hall => h ((Mem.hostAllocs_iff n s).mp hall)
  have hall : hostGroups p [n] s = (false, (Mem.hostAllocs p.a n s).2) := Prog.bind_eq (Prod.ext hno rfl)
  exact Prog.bind_eq hall

/-- The part of a quantising constructor that follows its first two host allocations. -/
theorem packQuantised_eq {n K N : Nat} (hdim : K % 32 = 0 ∧ N % 32 = 0)
    (hok : p.a.host s.allocs = true ∧ p.a.host (s.allocs + 1) = true) :
    packQuantised p owns dom K N n s =
      andThen (i8Tiles p (.created false) owns dom (K ≤ 10752 ∧ p.k.noBf = false) (i8Geom p K N)) (finish p [n] orkWFree)
        { s with allocs := s.allocs + 2 } := by
  unfold packQuantised
  rw [if_neg (by omega)]
  exact Prog.bind_eq (hostGroups_two hok)

theorem quantised_placed {n K N : Nat} {t : Tiles} {s' : Session} (hdim : K % 32 = 0 ∧ N % 32 = 0)
    (hok : p.a.host s.allocs = true ∧ p.a.host (s.allocs + 1) = true)
    (hg : grants p.v p.a (.created false) dom (i8Sizes p K N) { s with allocs := s.allocs + 2 } = true)
    (hval : i8Tiles p (.created false) owns dom (K ≤ 10752 ∧ p.k.noBf = false) (i8Geom p K N)
      { s with allocs := s.allocs + 2 } = (some t, s'))
    (ht : t = { Tiles.blank owns dom with Bb := t.Bb, Bf := t.Bf }) (hlen : t.Bb.length = (i8Sizes p K N).length)
    (hal : s'.allocs = s.allocs + 2)
    (hnat : t.natives ≠ [] ↔ decide (K ≤ 10752 ∧ p.k.noBf = false) = true ∧ bfBytes (i8Geom p K N) ≠ [] ∧
      grants p.v p.a (.created false) dom (bfBytes (i8Geom p K N))
        (createTiles p.v p.a (.created false) dom (i8Sizes p K N) { s with allocs := s.allocs + 2 }).2 = true)
    (howes : Owes p.v (orkDom p.v dom) s (t.natives ++ t.Bb) [] s') :
    Quantised p owns dom K N n s t.Bb t.natives := by
  have hrun : packQuantised p owns dom K N n s = finish p [n] orkWFree t s' :=
    (packQuantised_eq hdim hok).trans (andThen_some hval)
  have hheld : Held p n s ↔ ∀ i < n, p.a.host (s'.allocs + i) = true := by
    rw [hal]
    exact Iff.rfl
  have hlast : Owes p.v (orkDom p.v dom) s (t.natives ++ t.Bb) [] (Mem.hostAllocs p.a n s').2 :=
    Mem.hostAllocs_owes n s' howes
  have hsizes : t.Bb ≠ [] ↔ i8Sizes p K N ≠ [] := by
    rw [ne_eq, ne_eq, ← List.length_eq_zero_iff, hlen, List.length_eq_zero_iff]
  refine ⟨?_, fun _ => hlen, ?_, ?_⟩
  · have happ : t.natives ++ t.Bb ≠ [] ↔ t.Bb ≠ [] ∨ t.natives ≠ [] := by
      rw [ne_eq, List.append_eq_nil_iff, not_and_or, or_comm]
    rw [happ, hsizes, hnat, decide_eq_true_eq]
    exact ⟨fun h => ⟨hdim.1, hdim.2, hok, hg, h⟩, fun h => h.some⟩
  · rw [hrun]
    by_cases hh : ∀ i < n, p.a.host (s'.allocs + i) = true
    · rw [finish_held hh]
      exact hlast
    · rw [finish_refused hh]
      exact hlast
  · by_cases hh : ∀ i < n, p.a.host (s'.allocs + i) = true
    · rw [if_pos (hheld.mpr hh)]
      exact roundTrip_quantised ht (hrun.trans (finish_held hh)) hlast
    · rw [if_neg fun h => hh (hheld.mp h), roundTrip_none (whole_eq (hrun.trans (finish_refused hh)))]
      exact hlast

theorem exists_quantised (p : Packer) (owns : Bool) (dom : Int) (K N n : Nat) (s : Session) :
    ∃ Bb Bf, Quantised p owns dom K N n s Bb Bf := by
  by_cases hdim : K % 32 = 0 ∧ N % 32 = 0
  · by_cases hok : p.a.host s.allocs = true ∧ p.a.host (s.allocs + 1) = true
    · by_cases hg : grants p.v p.a (.created false) dom (i8Sizes p K N) { s with allocs := s.allocs + 2 } = true
      · obtain ⟨t, s', hval, ht, hlen, hal, hnat, howes⟩ := i8Tiles_granted owns
          (decide (K ≤ 10752 ∧ p.k.noBf = false)) hg
        exact ⟨t.Bb, t.natives, quantised_placed hdim hok hg hval ht hlen hal hnat
          ⟨howes.live, howes.domain, howes.once, howes.remote, howes.homed⟩⟩
      · obtain ⟨s', hval, howes⟩ := i8Tiles_refused owns (decide (K ≤ 10752 ∧ p.k.noBf = false)) hg
        exact ⟨[], [], quantised_none (fun ht => hg ht.tiles) ((packQuantised_eq hdim hok).trans (andThen_none hval))
          ⟨howes.live, howes.domain, howes.once, howes.remote, howes.homed⟩⟩
    · have hhost : Owes p.v (orkDom p.v dom) s [] [] (hostGroups p [1, 1] s).2 :=
        hostGroups_owes [1, 1] s (Owes.refl p.v _ s)
      refine ⟨[], [], quantised_none (fun ht => hok ht.host) ?_ hhost⟩
      unfold packQuantised
      rw [if_neg (by omega)]
      exact Prog.bind_eq (Prod.ext (hostGroups_refused hok) rfl)
  · refine ⟨[], [], quantised_none (fun ht => hdim ⟨ht.rows, ht.cols⟩) ?_ (Owes.refl p.v _ s)⟩
    unfold packQuantised
    rw [if_pos (by omega)]
    rfl

end OrkDriver.Weights
