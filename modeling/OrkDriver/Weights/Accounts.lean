import OrkDriver.Weights.Balance

/-!
The constructors that account for every buffer they take, whatever the answers, unless a client drops a weight that the
daemon has packed.
-/

namespace OrkDriver.Weights

open OrkDriver.Lib (Prog Triple pieces pieceLen)
open OrkDriver.Mem (BufEnv Buf Source Answers Session Owes Homed orkDom orkiPgup kept_of_cpu kept_of_not)

variable {p : Packer} {D : Int} {s₀ s : Session} {l : List Buf} {r : List Nat} {K N : Nat} {P Q : Tiles → Prop}

/-! ### Rules -/

theorem loadBf_extends (hD : orkDom p.v p.dom = D) (src : Source) (K N : Nat) :
    Extends p D Tiles.Fresh Tiles.Local (loadBf p src K N) := attachBf_extends hD

theorem orkDomPrime_builds {d : Int} {m : Prog Session (Option Tiles)} (hm : Builds p D P m) :
    Builds p D P (do
      Mem.orkDomPrime p.v p.a p.k.bimportDom d
      m) :=
  Builds.after (fun _ _ _ => Mem.orkDomPrime_owes _ _) fun _ => hm

theorem hostGroups_builds {groups : List Nat} {m : Prog Session (Option Tiles)} (hm : Builds p D P m) :
    Builds p D P (do
      let ok ← hostGroups p groups
      if ok then m else pure none) :=
  Builds.after (fun _ _ _ => hostGroups_owes groups) fun _ => Builds.ite hm builds_none

theorem i8Tiles_builds {src : Source} {bf : Bool} {g : Pack.Geom} (hD : orkDom p.v p.dom = D) :
    Builds p D Tiles.Local (i8Tiles p src true p.dom bf g) :=
  Builds.andThen (placeTiles_builds hD) (attachBf_extends hD)

/-! ### int8 -/

theorem orkI8MmLoad_accounts (hD : orkDom p.v p.dom = D) (blob : Bool) (s : Session) :
    AccountsAt p D (orkI8MmLoad p K N blob) Tiles.claims Tiles.ids s := by
  refine AccountsAt.ite (fun _ => accounts_none) fun _ => AccountsAt.ite (fun _ => offline_accounts _) fun _ => ?_
  refine AccountsAt.ite (fun _ => accounts_none) fun _ => Builds.accounts ?_ s
  exact Builds.andThen (placeTiles_builds hD) (loadBf_extends hD _ K N)

theorem orkI8MmPackImport_builds (hD : orkDom p.v p.dom = D) : Builds p D Tiles.Local (orkI8MmPackImport p K N) := by
  refine Builds.ite builds_none (orkDomPrime_builds ?_)
  exact Builds.andThen (placeImported_builds hD _ _) (loadBf_extends hD _ K N)

theorem orkI8MmLoadImport_builds (hD : orkDom p.v p.dom = D) (blob : Bool) :
    Builds p D Tiles.Local (orkI8MmLoadImport p K N blob) :=
  Builds.ite builds_none (orkI8MmPackImport_builds hD)

theorem orkI8MmLoadFlags_builds (hD : orkDom p.v p.dom = D) (blob sram : Bool) :
    Builds p D Tiles.Local (orkI8MmLoadFlags p K N blob sram) :=
  Builds.ite builds_none ((placeTiles_builds hD).mono fun _ h => h.toLocal)

/-- A weight whose tiles are parts of buffers in `own_bufs`. -/
structure Tiles.Adopted (t : Tiles) : Prop extends t.Local where
  owns : t.owns = false
  noBf : t.Bf = none
  noFold : t.Bfold = []
  noOwn : t.ownBuf = none

theorem Tiles.Adopted.reclaims_eq {t : Tiles} (h : t.Adopted) : t.reclaims = t.ownBufs := by
  unfold Tiles.reclaims Tiles.natives
  rw [h.owns, h.noBf, h.noFold, h.noFull, h.noOwn]
  rfl

/-- Parts of another buffer are not given back by themselves. -/
theorem Tiles.Adopted.reclaims_views {t : Tiles} (h : t.Adopted) (imp : Buf) (o : Option (List Buf)) :
    ({ t with ownBufs := t.ownBufs ++ [imp], Bf := o.map fun bs => bs.map fun b => ⟨b, false⟩ } : Tiles).reclaims =
      t.ownBufs ++ [imp] := by
  have hn : ((o.map fun bs => bs.map fun b => (⟨b, false⟩ : BfBuf)).getD []).filter BfBuf.native = [] := by
    refine List.filter_eq_nil_iff.mpr fun b hb => ?_
    cases o with
    | none => exact absurd hb List.not_mem_nil
    | some bs =>
        obtain ⟨c, -, rfl⟩ := List.mem_map.mp hb
        exact Bool.false_ne_true
  unfold Tiles.reclaims Tiles.natives
  dsimp only
  rw [hn, h.owns, h.noFold, h.noFull, h.noOwn]
  rfl

theorem adoptBf_extends (hD : orkDom p.v p.dom = D) (h : Handed) :
    Extends p D Tiles.Adopted Tiles.Local (adoptBf p K N h) := by
  intro t ht s₀ l r
  refine Triple.ite (fun _ => Triple.pure fun s hs => ⟨hs, fun _ h => (Option.some.inj h) ▸ ht.toLocal⟩) fun _ => ?_
  refine (Mem.create_owes hD _).bind fun imp => Triple.ite (fun hc => ?_) fun hc => ?_
  · rw [kept_of_cpu hc]
    have hperm : (t.ownBufs ++ [imp]).Perm ([imp] ++ t.ownBufs) := List.perm_append_comm
    have hpost : ∀ t' : Tiles, t'.Local → t'.reclaims = t.ownBufs ++ [imp] → ∀ s,
        Owes p.v D s₀ ([imp] ++ (t.reclaims ++ l)) r s →
        Owes p.v D s₀ ((some t').elim [] Tiles.reclaims ++ l) r s ∧ ∀ t ∈ some t', t.Local := by
      intro t' hlocal hrec s hs
      refine ⟨hs.perm ?_, fun _ h => (Option.some.inj h) ▸ hlocal⟩
      rw [Option.elim_some, hrec, ht.reclaims_eq, ← List.append_assoc]
      exact hperm.symm.append_right l
    refine Mem.hostAlloc_owes.bind fun ok => Triple.ite (fun _ => Triple.pure ?_) fun _ => Triple.pure ?_
    · refine hpost _ ⟨ht.orkd, ht.codes, ht.noFull⟩ ?_
      have hviews := ht.reclaims_views imp (some ((bfBytes (i8Geom p K N)).map fun n => view imp (orkiPgup n)))
      rw [Option.map_some, List.map_map] at hviews
      exact hviews
    · refine hpost _ ⟨ht.orkd, ht.codes, ht.noFull⟩ ?_
      have hviews := ht.reclaims_views imp none
      rw [Option.map_none, ← ht.noBf] at hviews
      exact hviews
  · rw [kept_of_not hc]
    exact Triple.pure fun s hs => ⟨hs, fun _ h => (Option.some.inj h) ▸ ht.toLocal⟩

theorem adopted_builds (hD : orkDom p.v p.dom = D) (h : Handed) (imp : Buf) (s₀ : Session) (l : List Buf) (r : List Nat) :
    Triple (Owes p.v D s₀ ([imp] ++ l) r)
      (andThen (finish p [1] (orkMmFreeTiles p) { Tiles.blank false p.dom with ownBufs := [imp] }) fun t =>
        adoptBf p K N h { t with Bb := (tileBytes (i8Geom p K N) 1 1).map fun n => view imp (orkiPgup n) })
      fun o s => Owes p.v D s₀ (o.elim [] Tiles.reclaims ++ l) r s ∧ ∀ t ∈ o, t.Local := by
  have hAd : ({ Tiles.blank false p.dom with ownBufs := [imp] } : Tiles).Adopted := ⟨⟨rfl, rfl, rfl⟩, rfl, rfl, rfl, rfl⟩
  refine (finish_extends (P := Tiles.Adopted) (fun _ h => h.toLocal) [1] _ hAd s₀ l r).bind fun o => ?_
  cases o with
  | none => exact Triple.pure fun s hs => ⟨hs.1, fun _ ht => nomatch ht⟩
  | some t =>
      rintro s ⟨howes, ht⟩
      have hBb : ({ t with Bb := (tileBytes (i8Geom p K N) 1 1).map fun n => view imp (orkiPgup n) } : Tiles).Adopted :=
        { ht t rfl with }
      refine adoptBf_extends hD h _ hBb s₀ l r s ?_
      rw [hBb.reclaims_eq]
      rw [Option.elim_some, (ht t rfl).reclaims_eq] at howes
      exact howes

theorem orkI8MmAdoptImported_accounts (hD : orkDom p.v p.dom = D) (h : Handed) (mapped blob : Bool) (s : Session) :
    AccountsAt p D (orkI8MmAdoptImported p K N h mapped blob) Tiles.claims Tiles.ids s := by
  refine AccountsAt.ite (fun _ => accounts_none) fun _ => AccountsAt.ite (fun _ => ?_) fun _ => ?_
  · exact AccountsAt.ite (fun _ => orkI8MmLoad_accounts hD blob s) fun _ => accounts_none
  refine AccountsAt.ite (fun _ => accounts_none) fun _ => Builds.accounts (orkDomPrime_builds ?_) s
  intro s₀ l r
  refine (Mem.create_owes hD _).bind fun imp => Triple.ite (fun hc => ?_) fun hc => ?_
  · rw [kept_of_cpu hc]
    refine (hostGroups_owes _).bind fun ok => Triple.ite (fun _ => ?_) fun _ => ?_
    · exact adopted_builds hD h imp s₀ l r
    · exact (Mem.destroy_owes imp).bind fun _ => Triple.pure fun s hs => ⟨hs, fun _ ht => nomatch ht⟩
  · rw [kept_of_not hc]
    exact Triple.pure fun s hs => ⟨hs, fun _ ht => nomatch ht⟩

theorem orkI8MmLoadFold_builds (hD : orkDom p.v p.dom = D) (blob : Bool) :
    Builds p D Tiles.Local (orkI8MmLoadFold p K N blob) := by
  refine Builds.ite builds_none fun s₀ l r => ?_
  refine Mem.hostAlloc_owes.bind fun ok => Triple.ite (fun _ => ?_) fun _ => Triple.pure fun s hs => ⟨hs, fun _ ht => nomatch ht⟩
  refine (Mem.createOrNone_owes hD _).bind fun o => ?_
  cases o with
  | none => exact Triple.pure fun s hs => ⟨hs, fun _ ht => nomatch ht⟩
  | some bs =>
      refine Triple.pure fun s hs => ⟨hs.perm (List.Perm.of_eq ?_), fun t ht => ?_⟩
      · change bs ++ l = (bs ++ []) ++ l
        rw [List.append_nil]
      · cases ht
        exact ⟨rfl, rfl, rfl⟩

/-! ### int4 -/

theorem orkI4a8MmLoad_accounts (hD : orkDom p.v p.dom = D) (blob : Bool) (s : Session) :
    AccountsAt p D (orkI4a8MmLoad p K N blob) Tiles.claims Tiles.ids s := by
  refine AccountsAt.ite (fun _ => accounts_none) fun _ => AccountsAt.ite (fun _ => offline_accounts _) fun _ => ?_
  exact (hostGroups_builds (Builds.andThen (i8Tiles_builds hD) (finish_extends (fun _ h => h) _))).accounts s

theorem orkI4a8MmLoadTiled_accounts (hD : orkDom p.v p.dom = D) (G : Nat) (blob : Bool) (s : Session) :
    AccountsAt p D (orkI4a8MmLoadTiled p K N G blob) Tiles.claims Tiles.ids s := by
  refine AccountsAt.ite (fun _ => accounts_none) fun _ => AccountsAt.ite (fun _ => offline_accounts _) fun _ => ?_
  exact (hostGroups_builds (Builds.ite (i8Tiles_builds hD) (i8Tiles_builds hD))).accounts s

theorem orkI4a8MmLoadImport_builds (hD : orkDom p.v p.dom = D) (blob : Bool) :
    Builds p D Tiles.Local (orkI4a8MmLoadImport p K N blob) := by
  refine Builds.ite builds_none (Builds.after (fun _ _ _ => Mem.hostAlloc_owes) fun _ => Builds.ite ?_ builds_none)
  refine orkDomPrime_builds (Builds.after (fun _ _ _ => Mem.hostAlloc_owes) fun _ => Builds.ite ?_ builds_none)
  exact Builds.andThen (i8Tiles_builds hD) (finish_extends (fun _ h => h) _)

theorem orkI4MmLoad_accounts (hD : orkDom p.v p.dom = D) (blob : Bool) (s : Session) :
    AccountsAt p D (orkI4MmLoad p K N blob) Tiles.claims Tiles.ids s := by
  refine AccountsAt.ite (fun _ => accounts_none) fun _ => AccountsAt.ite (fun _ => offline_accounts _) fun _ => ?_
  exact ((placeTiles_builds hD).mono fun _ h => h.toLocal).accounts s

theorem orkI4MmLoadImport_builds (hD : orkDom p.v p.dom = D) (blob : Bool) :
    Builds p D Tiles.Local (orkI4MmLoadImport p K N blob) :=
  Builds.ite builds_none (orkDomPrime_builds ((placeImported_builds hD _ _).mono fun _ h => h.toLocal))

theorem arenaKeep_owes (nb : Buf) (full : Bool) :
    Triple (Owes p.v D s₀ ([nb] ++ l) r) (arenaKeep p nb full) fun o s =>
      Owes p.v D s₀ l r s ∧ ∀ c ∈ o, c.1.domain = D := by
  have hrest : ∀ ok : Bool, Triple (Owes p.v D s₀ ([nb] ++ l) r) (if ok = true then do
        Mem.hold nb
        Prog.modify fun s =>
          { s with
            arenaN := s.arenaN + 1
            arenaCap := if s.arenaCap ≤ s.arenaN then (if s.arenaCap = 0 then 64 else s.arenaCap * 2) else s.arenaCap }
        pure (some (nb, 0))
      else do
        Mem.destroy p.v p.a nb
        pure none) fun o s => Owes p.v D s₀ l r s ∧ ∀ c ∈ o, c.1.domain = D := by
    intro ok
    refine Triple.ite (fun _ => ?_) fun _ => ?_
    · intro s hs
      have hheld := Mem.hold_owes nb s hs
      refine ⟨⟨hheld.live, hheld.domain, hheld.once, hheld.remote, hheld.homed⟩, fun c hc => ?_⟩
      cases hc
      exact hs.domain nb List.mem_cons_self
    · exact (Mem.destroy_owes nb).bind fun _ => Triple.pure fun s hs => ⟨hs, fun _ hc => nomatch hc⟩
  exact Triple.ite (fun _ => Mem.hostAlloc_owes.bind hrest) fun _ => hrest true

/-- The chunk a weight goes to is in the domain of the weight, whether or not it is a new one. -/
theorem arenaChunk_owes (hD : orkDom p.v p.dom = D) (need : Nat) :
    Triple (Owes p.v D s₀ l r) (arenaChunk p need) fun o s =>
      Owes p.v D s₀ l r s ∧ (Homed p.v s₀ → ∀ c ∈ o, c.1.domain = D) := by
  intro s hs
  unfold arenaChunk
  cases hc : (s.arena p.dom).filter fun c => c.2 + need ≤ c.1.size with
  | some c =>
      refine ⟨hs, fun h0 c' hc' => ?_⟩
      cases hc'
      have hcur : s.arena p.dom = some c := (Option.filter_eq_some_iff.mp hc).1
      rw [hs.homed h0 _ _ hcur, hD]
  | none =>
      have hnew : ∀ full : Bool, Triple (Owes p.v D s₀ l r) (do
          let nb ← Mem.create p.v p.a .imported p.dom (max need p.k.importChunk)
          if nb.cpu then arenaKeep p nb full else pure none)
          fun o s => Owes p.v D s₀ l r s ∧ (Homed p.v s₀ → ∀ c ∈ o, c.1.domain = D) := by
        intro full
        refine (Mem.create_owes hD _).bind fun nb => Triple.ite (fun hcpu => ?_) fun hcpu => ?_
        · rw [kept_of_cpu hcpu]
          exact (arenaKeep_owes nb full).post fun o s h => ⟨h.1, fun _ => h.2⟩
        · rw [kept_of_not hcpu]
          exact Triple.pure fun s hs => ⟨hs, fun _ _ hc => nomatch hc⟩
      exact hnew _ s hs

theorem orkI4MmLoadArena_builds (hD : orkDom p.v p.dom = D) (blob : Bool) :
    Builds p D Tiles.Local (orkI4MmLoadArena p K N blob) := by
  refine Builds.ite builds_none (hostGroups_builds (orkDomPrime_builds fun s₀ l r => ?_))
  refine (arenaChunk_owes hD _).bind fun o => ?_
  cases o with
  | none => exact Triple.pure fun s hs => ⟨hs.1, fun _ ht => nomatch ht⟩
  | some c =>
      refine Triple.bind (Q := fun _ => Owes p.v D s₀ l r) (Triple.modify fun s hs => ?_) fun _ =>
        Triple.pure fun s hs => ⟨hs, fun t ht => ?_⟩
      · refine ⟨hs.1.live, hs.1.domain, hs.1.once, hs.1.remote, fun h0 d c' hc' => ?_⟩
        dsimp only at hc'
        by_cases hd : d = p.dom
        · subst hd
          rw [Function.update_self] at hc'
          cases hc'
          rw [hs.2 h0 c rfl, hD]
        · rw [Function.update_of_ne hd] at hc'
          exact hs.1.homed h0 d c' hc'
      · cases ht
        exact ⟨rfl, rfl, rfl⟩

theorem orkI4MmPackGrouped_accounts (hD : orkDom p.v p.dom = D) (G : Nat) (s : Session) :
    AccountsAt p D (orkI4MmPackGrouped p K N G) Tiles.claims Tiles.ids s := by
  refine AccountsAt.ite (fun _ => offline_accounts _) fun _ => AccountsAt.ite (fun _ => accounts_none) fun _ => ?_
  exact ((placeOwn_builds hD (placeTiles_builds hD)).mono fun _ h => h.toLocal).accounts s

/-! ### fp16 -/

theorem f16LoadCommon_builds (hD : orkDom p.v p.dom = D) (blob useImport : Bool) :
    Builds p D Tiles.Local (f16LoadCommon p K N blob useImport) := by
  refine Builds.ite builds_none (Builds.ite builds_none (Builds.after (fun _ _ _ => hostGroups_owes _) fun _ => ?_))
  refine Builds.ite ?_ builds_none
  cases useImport with
  | true => exact orkDomPrime_builds ((placeTiles_builds hD).mono fun _ h => h.toLocal)
  | false => exact (placeTiles_builds hD).mono fun _ h => h.toLocal

theorem orkF16MmScratch_builds (hD : orkDom p.v p.dom = D) : Builds p D Tiles.Local (orkF16MmScratch p K N) :=
  Builds.ite builds_none (hostGroups_builds ((placeTiles_builds hD).mono fun _ h => h.toLocal))

/-! ### Where the daemon packs -/

theorem whole_client_accounts (h : ¬ Dropped p s.calls s.allocs) (d : Int) :
    AccountsAt p D (whole (client p d)) OrkW.claims OrkW.ids s := whole_accounts (client_accounts h d)

theorem orkI8MmPack_accounts (hD : orkDom p.v p.dom = D)
    (h : ¬ (0 ≤ p.npu.fd ∧ p.daemon = true ∧ Dropped p s.calls s.allocs)) :
    AccountsAt p D (orkI8MmPack p K N) OrkW.claims OrkW.ids s := by
  refine AccountsAt.ite (fun _ => whole_accounts (offline_accounts _)) fun hfd => AccountsAt.ite (fun hd => ?_) fun _ => ?_
  · exact whole_client_accounts (fun hdrop => h ⟨by omega, hd, hdrop⟩) _
  · intro s₀ l r hs
    exact (orkiPack_owes hD .i8 K N s hs).1

theorem orkI4MmPack_accounts (hD : orkDom p.v p.dom = D)
    (h : ¬ (K % 32 = 0 ∧ N % 64 = 0 ∧ 0 ≤ p.npu.fd ∧ p.daemon = true ∧ Dropped p s.calls s.allocs)) :
    AccountsAt p D (orkI4MmPack p K N) OrkW.claims OrkW.ids s := by
  refine AccountsAt.ite (fun _ => accounts_none) fun hdim => ?_
  refine AccountsAt.ite (fun _ => whole_accounts (offline_accounts _)) fun hfd => AccountsAt.ite (fun hd => ?_) fun _ => ?_
  · exact whole_client_accounts (fun hdrop => h ⟨by omega, by omega, by omega, hd, hdrop⟩) _
  · intro s₀ l r hs
    exact (rescue_owes (orkI4MmPackTiles_builds hD K N) (fun _ _ _ => orkiI4SlicePack_owes hD K N) s hs).1

theorem orkF16MmPack_accounts (hD : orkDom p.v p.dom = D) (h : ¬ (p.daemon = true ∧ Dropped p s.calls s.allocs)) :
    AccountsAt p D (orkF16MmPack p K N) OrkW.claims OrkW.ids s := by
  refine AccountsAt.ite (fun hd => ?_) fun _ => ?_
  · exact whole_client_accounts (fun hdrop => h ⟨hd, hdrop⟩) _
  · intro s₀ l r hs
    exact (orkiPack_owes hD .f16 K N s hs).1

theorem orkI8MmImport_accounts {blob bufs : Bool}
    (h : ¬ (p.daemon = true ∧ K ≠ 0 ∧ N ≠ 0 ∧ blob = true ∧ bufs = true ∧ Dropped p s.calls s.allocs)) :
    AccountsAt p D (orkI8MmImport p K N blob bufs) Tiles.claims Tiles.ids s := by
  refine AccountsAt.ite (fun _ => accounts_none) fun hg => client_accounts (fun hdrop => h ?_) _
  simp only [not_or, Bool.not_eq_false] at hg
  exact ⟨hg.1, hg.2.1, hg.2.2.1, hg.2.2.2.1, hg.2.2.2.2, hdrop⟩

/-! ### Fused activations -/

/-- One buffer more in the fourth part of a claim. -/
theorem perm_fourth (b : Buf) (A B C R S : List Buf) :
    ([b] ++ ((A ++ (B ++ (C ++ R))) ++ S)).Perm ((A ++ (B ++ (C ++ ([b] ++ R)))) ++ S) := by
  rw [← List.append_assoc [b]]
  refine List.Perm.append_right S ?_
  have hfront : ∀ X Y : List Buf, ([b] ++ (X ++ Y)).Perm (X ++ ([b] ++ Y)) := fun X Y => List.perm_append_comm_assoc _ _ _
  refine (hfront A _).trans (List.Perm.append_left A ?_)
  exact (hfront B _).trans (List.Perm.append_left B (hfront C R))

theorem orkiF16Bfull_owes (hD : orkDom p.v p.dom = D) {w : OrkW} (hw : w.Local) :
    Triple (Owes p.v D s₀ (w.claims ++ l) (w.ids ++ r)) (orkiF16Bfull p K N w) fun o =>
      Owes p.v D s₀ (o.2.claims ++ l) (o.2.ids ++ r) := by
  refine Triple.ite (fun _ => Triple.pure fun _ h => h) fun _ => ?_
  refine (Mem.create_owes hD _).bind fun b => Triple.ite (fun hb => ?_) fun hb => ?_
  · rw [kept_of_cpu hb]
    refine Triple.pure fun s h => ?_
    have hcl : ([b] ++ w.claims).Perm ({ w with Bfull := some b } : OrkW).claims := by
      unfold OrkW.claims Tiles.reclaims
      dsimp only
      rw [hw.orkd, hw.codes, hw.noFull]
      exact perm_fourth b _ _ _ _ _
    have hids : ({ w with Bfull := some b } : OrkW).ids = w.ids := rfl
    rw [hids]
    exact h.perm (by
      rw [← List.append_assoc]
      exact hcl.append_right l)
  · rw [kept_of_not hb]
    exact Triple.pure fun _ h => h

theorem hostAllocs_state (n : Nat) (s : Session) : (Mem.hostAllocs p.a n s).2 = { s with allocs := s.allocs + n } := by
  induction n generalizing s with
  | zero => rfl
  | succ n ih =>
      refine (ih { s with allocs := s.allocs + 1 }).trans ?_
      change ({ s with allocs := s.allocs + 1 + n } : Session) = _
      rw [Nat.add_assoc, Nat.add_comm 1 n]

theorem client_remote {d : Int} {t : Tiles} (h : (client p d s).1 = some t) : t.orkd.isSome = true := by
  rw [client_eq] at h
  generalize p.a.orkd s.calls = o at h
  cases o with
  | none => cases h
  | some id =>
      dsimp only [Option.elim] at h
      split_ifs at h
      cases h
      rfl

theorem orkF16MmPack_owes (hD : orkDom p.v p.dom = D) (h : ¬ (p.daemon = true ∧ Dropped p s.calls s.allocs))
    (hs : Owes p.v D s₀ l r s) :
    let o := orkF16MmPack p K N s
    Owes p.v D s₀ (o.1.elim [] OrkW.claims ++ l) (o.1.elim [] OrkW.ids ++ r) o.2 ∧
      ∀ w ∈ o.1, if p.daemon then w.orkd.isSome = true else w.Local := by
  refine ⟨orkF16MmPack_accounts hD h s₀ l r hs, ?_⟩
  unfold orkF16MmPack
  by_cases hd : p.daemon = true
  · rw [if_pos hd]
    intro w hw
    rw [if_pos hd]
    change (client p p.dom s).1.map (fun t => (⟨t, none⟩ : OrkW)) = some w at hw
    obtain ⟨t, ht, rfl⟩ := Option.map_eq_some_iff.mp hw
    exact client_remote ht
  · rw [if_neg hd]
    intro w hw
    rw [if_neg hd]
    exact (orkiPack_owes hD .f16 K N s hs).2 w hw

/-- The calibration owes nothing, and fails for a client. -/
theorem orkF16MmBuildLut_owes (hD : orkDom p.v p.dom = D) {runs : Bool}
    (h : ¬ (p.daemon = true ∧ (∀ i < 3, p.a.host (s.allocs + i) = true) ∧ Dropped p s.calls (s.allocs + 3)))
    (hs : Owes p.v D s₀ l r s) :
    Owes p.v D s₀ l r (orkF16MmBuildLut p runs s).2 ∧ (p.daemon = true → (orkF16MmBuildLut p runs s).1 = false) := by
  have hhost : Owes p.v D s₀ l r (Mem.hostAllocs p.a 3 s).2 := Mem.hostAllocs_owes 3 s hs
  have hstate := hostAllocs_state (p := p) 3 s
  have hall := Mem.hostAllocs_iff (a := p.a) 3 s
  unfold orkF16MmBuildLut
  generalize hc : Mem.hostAllocs p.a 3 s = c at hhost hstate hall
  have hrun : Mem.hostAllocs p.a 3 s = (c.1, c.2) := hc
  rw [Prog.bind_eq hrun]
  cases hok : c.1 with
  | false => exact ⟨hhost, fun _ => rfl⟩
  | true =>
      have hno : ¬ (p.daemon = true ∧ Dropped p c.2.calls c.2.allocs) := by
        rw [hstate]
        exact fun hd => h ⟨hd.1, hall.mp hok, hd.2⟩
      obtain ⟨howes, hkind⟩ := orkF16MmPack_owes (K := 512) (N := 64) hD hno hhost
      have hpack : orkF16MmPack p 512 64 c.2 = ((orkF16MmPack p 512 64 c.2).1, (orkF16MmPack p 512 64 c.2).2) := rfl
      rw [if_pos rfl, Prog.bind_eq hpack]
      generalize orkF16MmPack p 512 64 c.2 = o at howes hkind ⊢
      obtain ⟨o, s'⟩ := o
      cases o with
      | none => exact ⟨howes, fun _ => rfl⟩
      | some w =>
          have hw := hkind w rfl
          dsimp only
          by_cases hd : p.daemon = true
          · rw [if_pos hd] at hw
            rw [if_pos hw]
            exact ⟨orkMmFree_owes w s' howes, fun _ => rfl⟩
          · rw [if_neg hd] at hw
            rw [hw.orkd]
            refine ⟨?_, fun h => absurd h hd⟩
            exact orkMmFree_owes _ _ (orkiF16Bfull_owes hD hw s' howes)

theorem orkF16MmPackFusedAct_accounts (hD : orkDom p.v p.dom = D) {fits runs : Bool}
    (h : ¬ (fits = true ∧ K % 32 = 0 ∧ N % 16 = 0 ∧ p.daemon = true ∧ (∀ i < 4, p.a.host (s.allocs + i) = true) ∧
      Dropped p s.calls (s.allocs + 4))) :
    AccountsAt p D (orkF16MmPackFusedAct p K N fits runs) OrkW.claims OrkW.ids s := by
  refine AccountsAt.ite (fun _ => accounts_none) fun hg s₀ l r hs => ?_
  have hlut : Owes p.v D s₀ l r (Mem.hostAlloc p.a s).2 := Mem.hostAlloc_owes s hs
  have hl : Mem.hostAlloc p.a s = (p.a.host s.allocs, { s with allocs := s.allocs + 1 }) := rfl
  rw [Prog.bind_eq hl]
  by_cases h0 : p.a.host s.allocs = true
  · rw [if_pos h0]
    have hno : ¬ (p.daemon = true ∧ (∀ i < 3, p.a.host (s.allocs + 1 + i) = true) ∧
        Dropped p s.calls (s.allocs + 1 + 3)) := by
      rintro ⟨hd, hall, hdrop⟩
      simp only [not_or, Bool.not_eq_false, ne_eq, not_not] at hg
      refine h ⟨hg.1, hg.2.1, hg.2.2, hd, fun i hi => ?_, by rwa [Nat.add_assoc] at hdrop⟩
      cases i with
      | zero => exact h0
      | succ i =>
          rw [Nat.add_comm i, ← Nat.add_assoc]
          exact hall i (by omega)
    have hbuild : Owes p.v D s₀ l r (orkF16MmBuildLut p runs { s with allocs := s.allocs + 1 }).2 ∧
        (p.daemon = true → (orkF16MmBuildLut p runs { s with allocs := s.allocs + 1 }).1 = false) :=
      orkF16MmBuildLut_owes hD hno hlut
    generalize hb : orkF16MmBuildLut p runs { s with allocs := s.allocs + 1 } = b at hbuild
    obtain ⟨howes, hfail⟩ := hbuild
    have hrun : orkF16MmBuildLut p runs { s with allocs := s.allocs + 1 } = (b.1, b.2) := hb
    rw [Prog.bind_eq hrun]
    cases hok : b.1 with
    | false => exact howes
    | true =>
        have hd : ¬ p.daemon = true := fun hd => by rw [hfail hd] at hok; cases hok
        have hBs : Owes p.v D s₀ l r (Mem.hostAlloc p.a b.2).2 := Mem.hostAlloc_owes b.2 howes
        change Owes p.v D s₀ (((if p.a.host b.2.allocs = true then orkF16MmPack p K N else pure none) _).1.elim [] _ ++ l)
          (((if p.a.host b.2.allocs = true then orkF16MmPack p K N else pure none) _).1.elim [] _ ++ r)
          ((if p.a.host b.2.allocs = true then orkF16MmPack p K N else pure none) _).2
        split
        · exact orkF16MmPack_accounts hD (fun h => hd h.1) s₀ l r hBs
        · exact hBs
  · rw [if_neg h0]
    exact hlut

end OrkDriver.Weights
