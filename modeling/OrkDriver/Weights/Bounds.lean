import OrkDriver.Weights.Resident

/-!
How much every constructor takes at most.
-/

namespace OrkDriver.Weights

open OrkDriver.Lib (Prog Yields Triple pieces pieceLen)
open OrkDriver.Mem (BufEnv Buf Source Answers Session Owes orkDom orkiPgup)
open OrkDriver.Pack (Dt Geom)

/-! ### Amounts -/

section

variable (p : Packer)

/-- The tiles of an int8 weight, cut where the loaders cut it. -/
def tiled8 (K N : Nat) : Nat := paged (tileBytes (i8Geom p K N) 1 1)

/-- Its full-K copy. -/
def full8 (K N : Nat) : Nat := paged (bfBytes (i8Geom p K N))

/-- The tiles of an int4 weight. -/
def tiled4 (K N : Nat) : Nat := paged (tileBytes (i4Geom p K N) 1 2)

/-- The full-K copy where `ork_w_resident_bytes` counts one. -/
def counted (K N : Nat) : Nat := if K ≤ 10752 ∧ p.k.noBf = false then full8 p K N else 0

/-- The tiles of a packed weight, cut where the context cuts it. -/
def packTiled (dt : Dt) (K N : Nat) : Nat := paged (tileBytes (Run.weightGeom p.npu p.f16 dt K N) (Run.esz dt) 1)

/-- A packed weight without rescue tiles. -/
def packAll (dt : Dt) (K N : Nat) : Nat := packTiled p dt K N + if wantsBf p dt K then full8 p K N else 0

/-- The slices of the rescue tiles. -/
def i8Slices (K N : Nat) : List (Nat × Nat) := slices ((K + 511) / 512 * 512) N 4096 (i8SliceNs p N)

def i4Slices (K N : Nat) : List (Nat × Nat) := slices ((K + 31) / 32 * 32) N 8192 8192

/-- The rescue tiles of an int8 and of an int4 weight. -/
def i8Rescue (K N : Nat) : Nat := ((i8Slices p K N).map fun d => packAll p .i8 d.1 d.2).sum

def i4Rescue (K N : Nat) : Nat := ((i4Slices K N).map fun d => tiled4 p d.1 d.2).sum

/-- Whether `orki_pack` builds rescue tiles; `bf` says that there is a full-K copy. -/
def i8Rescues (K N : Nat) (bf : Bool) : Bool :=
  (p.k.noSliceRescue = false ∧ (1 < pieces N p.npu.soc.nmax ∧ (4096 < K ∨ bf = false) ∨ p.k.sliceAll = true)) ∧ 0 < K ∧ 0 < N

/-- Whether `ork_i4_mm_pack` does. -/
def i4Rescues (K N : Nat) : Bool :=
  (p.k.noSliceRescue = false ∧ (1 < pieces N p.npu.soc.nmax ∨ 8192 < K ∨ p.k.sliceAll = true)) ∧ 0 < K ∧ 0 < N

/-- An int8 weight packed on the device, with its full-K copy or without. -/
def packed8 (K N : Nat) (bf : Bool) : Nat :=
  packTiled p .i8 K N + (if bf then full8 p K N else 0) + if i8Rescues p K N bf then i8Rescue p K N else 0

def packed4 (K N : Nat) : Nat := tiled4 p K N + if i4Rescues p K N then i4Rescue p K N else 0

/-- The full-K copy of a loaded weight. -/
def loadFull (K N : Nat) : Nat := if K % 512 = 0 ∧ K ≤ 4096 ∧ p.k.noBf = false then full8 p K N else 0

end

variable {p : Packer} {D dom : Int} {s₀ s : Session} {l : List Buf} {r : List Nat} {src : Source} {K N : Nat}

theorem paged_zero {l : List Nat} (h : ∀ n ∈ l, n = 0) : paged l = 0 := by
  refine List.sum_eq_zero fun x hx => ?_
  obtain ⟨n, hn, rfl⟩ := List.mem_map.mp hx
  rw [h n hn]
  rfl

theorem tileBytes_empty {g : Geom} {num den : Nat} (h : g.K = 0 ∨ g.N = 0) : ∀ n ∈ tileBytes g num den, n = 0 := by
  intro n hn
  obtain ⟨t, ht, rfl⟩ := List.mem_map.mp hn
  obtain ⟨ns, ks, -, -, rfl⟩ := Geom.mem_tiles.mp ht
  have hzero : (g.tile ns ks).Kp * (g.tile ns ks).Nc = 0 := by
    rcases h with h | h
    · refine Nat.mul_eq_zero.mpr (Or.inl ?_)
      change pieceLen g.K g.KS ks = 0
      rw [h]
      unfold pieceLen
      split <;> omega
    · refine Nat.mul_eq_zero.mpr (Or.inr ?_)
      change pieceLen g.N g.NMAX ns = 0
      rw [h]
      unfold pieceLen
      split <;> omega
  rw [hzero, Nat.zero_mul, Nat.zero_div]

theorem bfBytes_empty {g : Geom} (h : g.K = 0 ∨ g.N = 0) : ∀ n ∈ bfBytes g, n = 0 := by
  intro n hn
  obtain ⟨ns, -, rfl⟩ := List.mem_map.mp hn
  rcases h with h | h
  · rw [h, Nat.zero_mul]
  · refine Nat.mul_eq_zero.mpr (Or.inr ?_)
    rw [h]
    unfold pieceLen
    split <;> omega

/-- The estimate for an int8-resident weight. -/
theorem resident8_eq : orkWResidentBytes p.k.noBf (some p.npu) K N 8 (-1) = tiled8 p K N + counted p K N := by
  rw [resident_eq]
  by_cases h : K = 0 ∨ N = 0
  · have hfull : full8 p K N = 0 := paged_zero (bfBytes_empty h)
    have htiled : tiled8 p K N = 0 := paged_zero (tileBytes_empty h)
    unfold counted
    rw [if_pos h, htiled, hfull, ite_self]
  · rw [if_neg h]
    refine congrArg (tiled8 p K N + ·) (if_congr ⟨fun h => h.2, fun h => ⟨rfl, h⟩⟩ rfl rfl)

/-- The estimate at any other width. -/
theorem resident4_eq {wbits : Nat} (hw : wbits ≠ 8) :
    orkWResidentBytes p.k.noBf (some p.npu) K N wbits (-1) = tiled4 p K N := by
  rw [resident_eq]
  by_cases h : K = 0 ∨ N = 0
  · rw [if_pos h]
    exact (paged_zero (tileBytes_empty h)).symm
  · rw [if_neg h, if_neg hw, if_neg hw]
    dsimp only
    rw [if_neg fun h => hw h.1, Nat.add_zero]
    rfl

/-! ### Rescue tiles -/

theorem packSubs_weighs {pack : Nat → Nat → Prog Session (Option Tiles)} {size : Nat → Nat → Nat}
    (h : ∀ K N, Weighs Tiles.Local (size K N) (pack K N)) (dims : List (Nat × Nat)) :
    Yields (packSubs pack dims) fun r => bytes (r.1.flatMap Tiles.claims) ≤ (dims.map fun d => size d.1 d.2).sum := by
  induction dims with
  | nil => exact Yields.pure le_rfl
  | cons d rest ih =>
      refine (h d.1 d.2).bind fun o ho => ?_
      cases o with
      | none => exact Yields.pure (Nat.zero_le _)
      | some sw =>
          obtain ⟨hlocal, hle⟩ := ho sw rfl
          refine Yields.bind ih fun r hr => Yields.pure ?_
          rw [List.flatMap_cons, bytes_append, hlocal.claims_eq, List.map_cons, List.sum_cons]
          exact Nat.add_le_add hle hr

theorem slicePack_weighs {pack : Nat → Nat → Prog Session (Option Tiles)} {size : Nat → Nat → Nat}
    (h : ∀ K N, Weighs Tiles.Local (size K N) (pack K N)) (dims : List (Nat × Nat)) :
    Yields (slicePack p pack dims) fun o => bytes ((o.getD []).flatMap Tiles.claims) ≤ (dims.map fun d => size d.1 d.2).sum := by
  refine Yields.after fun ok => Yields.ite (fun _ => ?_) fun _ => Yields.pure (Nat.zero_le _)
  refine (packSubs_weighs h dims).bind fun r hr => Yields.ite (fun _ => Yields.pure hr) fun _ => ?_
  exact Yields.after fun _ => Yields.pure (Nat.zero_le _)

theorem orkiPackTiles_weighs (dt : Dt) (K N : Nat) : Weighs Tiles.Local (packAll p dt K N) (orkiPackTiles p dt K N) := by
  refine Weighs.ite (fun _ => weighs_none) fun _ => ?_
  refine Weighs.andThen (P := Tiles.Fresh) (Weighs.ite (fun _ => ?_) fun _ => ?_) fun t ht => attach_weighs ht
  · exact placeOwn_weighs (placeTiles_weighs _)
  · exact placeTiles_weighs _

theorem orkI4MmPackTiles_weighs (K N : Nat) : Weighs Tiles.Local (tiled4 p K N) (orkI4MmPackTiles p K N) :=
  Weighs.ite (fun _ => weighs_none) fun _ => Yields.mono (placeTiles_weighs _) fun _ ho t ht =>
    ⟨(ho t ht).1.toLocal, (ho t ht).2⟩

/-- A packed weight before its rescue tiles, with its full-K copy or without. -/
theorem orkiPackTiles_bytes (dt : Dt) (K N : Nat) : Yields (orkiPackTiles p dt K N) fun o => ∀ t ∈ o, t.Local ∧
    (t.Bf.isSome = true → wantsBf p dt K = true) ∧
    bytes t.reclaims ≤ packTiled p dt K N + if t.Bf.isSome then full8 p K N else 0 := by
  refine Yields.ite (fun _ => Yields.pure fun _ h => nomatch h) fun _ => ?_
  have hplace : ∀ c : Prop, ∀ _ : Decidable c, Weighs Tiles.Fresh (packTiled p dt K N)
      (if c then placeOwn p (tileBytes (Run.weightGeom p.npu p.f16 dt K N) (Run.esz dt) 1) orkiPgup
          (placeTiles p (if dt = .f16 ∧ p.k.f16ImportW = true then .imported else .created p.k.weightSram) true p.dom
            (tileBytes (Run.weightGeom p.npu p.f16 dt K N) (Run.esz dt) 1))
        else placeTiles p (if dt = .f16 ∧ p.k.f16ImportW = true then .imported else .created p.k.weightSram) true p.dom
          (tileBytes (Run.weightGeom p.npu p.f16 dt K N) (Run.esz dt) 1)) := fun c _ =>
    Weighs.ite (fun _ => placeOwn_weighs (placeTiles_weighs _)) fun _ => placeTiles_weighs _
  refine Yields.bind (hplace _ _) fun o ho => ?_
  cases o with
  | none => exact Yields.pure fun _ h => nomatch h
  | some t =>
      obtain ⟨ht, hle⟩ := ho t rfl
      have hwant : Yields (attachBf p (.created false) p.dom (wantsBf p dt K) (Run.weightGeom p.npu p.f16 dt K N) t)
          fun t' => t'.Bf.isSome = true → wantsBf p dt K = true := by
        refine Yields.ite (fun hw => Yields.after fun _ => Yields.pure fun _ => hw) fun _ => Yields.pure fun h => ?_
        rw [ht.noBf] at h
        exact absurd h Bool.false_ne_true
      intro s t' ht'
      cases ht'
      have hattached := @attachBf_bytes p p.dom (.created false) (wantsBf p dt K) (Run.weightGeom p.npu p.f16 dt K N) t ht s
      refine ⟨hattached.1, hwant s, hattached.2.le.trans ?_⟩
      exact Nat.add_le_add_right hle _

theorem rescue_claims {t : Tiles} (ht : t.Local) (sl : Option (List Tiles)) :
    (⟨t, sl⟩ : OrkW).claims = t.reclaims ++ (sl.getD []).flatMap Tiles.claims := by
  unfold OrkW.claims
  rw [ht.orkd, ht.codes]
  rfl

/-- What an int8 weight takes that is packed on the device: it depends on whether it got its full-K copy. -/
theorem orkiPack_bytes (K N : Nat) : Yields (orkiPack p .i8 K N) fun o => ∀ w ∈ o, ∃ bf : Bool,
    (bf = true → wantsBf p .i8 K = true) ∧ bytes w.claims ≤ packed8 p K N bf := by
  refine (orkiPackTiles_bytes .i8 K N).bind fun o ho => ?_
  cases o with
  | none => exact Yields.pure fun _ h => nomatch h
  | some t =>
      obtain ⟨hlocal, hbf, hle⟩ := ho t rfl
      have hsub : Yields (orkiI8SlicePack p K N) fun o => bytes ((o.getD []).flatMap Tiles.claims) ≤ i8Rescue p K N :=
        Yields.ite (fun _ => Yields.pure (Nat.zero_le _)) fun _ => slicePack_weighs (orkiPackTiles_weighs .i8) _
      have hnone : (t.Bf.isNone = true) = (t.Bf.isSome = false) := by cases t.Bf <;> simp
      refine Yields.ite (fun hr => ?_) fun _ => ?_
      · refine hsub.bind fun sl hsl => Yields.pure fun w hw => ?_
        cases hw
        refine ⟨t.Bf.isSome, hbf, ?_⟩
        have hres : i8Rescues p K N t.Bf.isSome = true := by
          rw [decide_eq_true_eq, hnone] at hr
          exact decide_eq_true ⟨⟨hr.1.2.1, hr.1.2.2⟩, hr.2⟩
        rw [rescue_claims hlocal, bytes_append]
        unfold packed8
        rw [if_pos hres]
        exact Nat.add_le_add hle hsl
      · refine Yields.pure fun w hw => ?_
        cases hw
        refine ⟨t.Bf.isSome, hbf, ?_⟩
        rw [rescue_claims hlocal, bytes_append]
        exact Nat.add_le_add hle (Nat.zero_le _)

theorem orkI4MmPack_bytes (want : Tiles → Bool) (hwant : ∀ t, (want t = true ∧ 0 < K ∧ 0 < N) → i4Rescues p K N = true) :
    Yields (rescue (orkI4MmPackTiles p K N) want K N (orkiI4SlicePack p K N)) fun o => ∀ w ∈ o,
      bytes w.claims ≤ packed4 p K N := by
  refine Yields.bind (orkI4MmPackTiles_weighs K N) fun o ho => ?_
  cases o with
  | none => exact Yields.pure fun _ h => nomatch h
  | some t =>
      obtain ⟨hlocal, hle⟩ := ho t rfl
      have hsub : Yields (orkiI4SlicePack p K N) fun o => bytes ((o.getD []).flatMap Tiles.claims) ≤ i4Rescue p K N :=
        Yields.ite (fun _ => Yields.pure (Nat.zero_le _)) fun _ => slicePack_weighs orkI4MmPackTiles_weighs _
      refine Yields.ite (fun hr => ?_) fun _ => ?_
      · refine hsub.bind fun sl hsl => Yields.pure fun w hw => ?_
        cases hw
        rw [rescue_claims hlocal, bytes_append]
        unfold packed4
        rw [if_pos (hwant t hr)]
        exact Nat.add_le_add hle hsl
      · refine Yields.pure fun w hw => ?_
        cases hw
        rw [rescue_claims hlocal, bytes_append]
        exact Nat.add_le_add hle (Nat.zero_le _)

/-- fp16 weights have neither a full-K copy nor rescue tiles at packing. -/
theorem orkiPack_f16_bytes (K N : Nat) : Yields (orkiPack p .f16 K N) fun o => ∀ w ∈ o, bytes w.claims ≤ packTiled p .f16 K N := by
  refine Yields.bind (orkiPackTiles_weighs .f16 K N) fun o ho => ?_
  cases o with
  | none => exact Yields.pure fun _ h => nomatch h
  | some t =>
      obtain ⟨hlocal, hle⟩ := ho t rfl
      refine Yields.ite (fun hr => ?_) fun _ => Yields.pure fun w hw => ?_
      · have hdt := of_decide_eq_true hr.1
        exact absurd hdt.1 (by decide)
      · cases hw
        rw [rescue_claims hlocal, bytes_append]
        exact hle

/-! ### Other ways to place tiles -/

theorem Weighs.weaken {P Q : Tiles → Prop} {n : Nat} {m : Prog Session (Option Tiles)} (h : Weighs P n m)
    (hPQ : ∀ t, P t → Q t) : Weighs Q n m :=
  Yields.mono h fun _ ho t ht => ⟨hPQ t (ho t ht).1, (ho t ht).2⟩

/-- Codes in host memory are no device bytes. -/
theorem offline_weighs (groups : List Nat) (n : Nat) : Weighs (fun _ => True) n (offline p groups) := by
  refine Yields.after fun ok => Yields.ite (fun _ => Yields.pure fun t ht => ?_) fun _ => weighs_none
  cases ht
  exact ⟨trivial, Nat.zero_le _⟩

theorem hosted_weighs {P : Tiles → Prop} {n : Nat} {groups : List Nat} {m : Prog Session (Option Tiles)} (h : Weighs P n m) :
    Weighs P n (do
      let ok ← hostGroups p groups
      if ok then m else pure none) :=
  Yields.after fun _ => Weighs.ite (fun _ => h) fun _ => weighs_none

theorem loadBf_weighs {t : Tiles} (ht : t.Fresh) : Weighs Tiles.Local (bytes t.reclaims + loadFull p K N) (loadBf p src K N t) := by
  refine Yields.mono (attach_weighs ht) fun o ho u hu => ⟨(ho u hu).1, (ho u hu).2.trans (le_of_eq ?_)⟩
  unfold loadFull
  exact congrArg _ (if_congr (by rw [decide_eq_true_eq]) rfl rfl)

/-- Where the loaders build the full-K copy, the estimate counts it. -/
theorem loadFull_le (K N : Nat) : loadFull p K N ≤ counted p K N := by
  unfold loadFull counted
  split_ifs with h h'
  · exact le_rfl
  · exact absurd ⟨by omega, h.2.2⟩ h'
  · exact Nat.zero_le _
  · exact le_rfl

/-- The tiles of a weight and its full-K copy, whether or not it owns them. -/
theorem i8Tiles_owes {owns want : Bool} {g : Geom} (hD : orkDom p.v dom = D) :
    Triple (Owes p.v D s₀ l r) (i8Tiles p src owns dom want g) fun o s => ∀ t ∈ o,
      Owes p.v D s₀ (t.natives ++ (t.Bb ++ l)) r s ∧
        bytes (t.natives ++ t.Bb) ≤ paged (tileBytes g 1 1) + if want then paged (bfBytes g) else 0 := by
  have hplace : Yields (placeTiles p src owns dom (tileBytes g 1 1)) fun o => ∀ t ∈ o, bytes t.Bb = paged (tileBytes g 1 1) := by
    refine (createOrNone_bytes _).bind fun o ho => ?_
    cases o with
    | none => exact Yields.pure fun _ h => nomatch h
    | some Bb =>
        refine Yields.pure fun t ht => ?_
        cases ht
        exact ho Bb rfl
  refine ((placeTiles_owes hD).yields hplace).bind fun o => ?_
  cases o with
  | none => exact Triple.pure fun s _ _ h => nomatch h
  | some t =>
      rintro s ⟨⟨howes, heq⟩, hsize⟩
      have hBf : t.Bf = none := by rw [heq t rfl]; rfl
      have hnat : Yields (attachBf p src dom want g t) fun t' =>
          bytes t'.natives ≤ if want then paged (bfBytes g) else 0 := by
        refine Yields.ite (fun hw => ?_) fun _ => Yields.pure ?_
        · refine (createOrNone_bytes _).bind fun o ho => Yields.pure ?_
          rw [natives_map, if_pos hw]
          cases o with
          | none => exact Nat.zero_le _
          | some bs => exact (ho bs rfl).le
        · unfold Tiles.natives
          rw [hBf]
          exact Nat.zero_le _
      have hrest : Triple (Owes p.v D s₀ (t.Bb ++ l) r) (attachBf p src dom want g t >>= fun t => pure (some t))
          fun o s => ∀ t ∈ o, Owes p.v D s₀ (t.natives ++ (t.Bb ++ l)) r s ∧
            bytes (t.natives ++ t.Bb) ≤ paged (tileBytes g 1 1) + if want then paged (bfBytes g) else 0 := by
        refine ((attachBf_owes hD hBf).yields hnat).bind fun t' => Triple.pure fun s hs u hu => ?_
        cases hu
        obtain ⟨⟨howes, heq'⟩, hle⟩ := hs
        have hBb : t'.Bb = t.Bb := by rw [heq']
        rw [hBb, bytes_append, hsize t rfl, Nat.add_comm (bytes _)]
        exact ⟨howes, Nat.add_le_add_left hle _⟩
      exact hrest s howes

/-! ### What a constructor takes for the weight it returns -/

theorem taken_of_accounts {m : Prog Session (Option OrkW)} (ha : AccountsAt p D m OrkW.claims OrkW.ids s) {w : OrkW}
    (h : (m s).1 = some w) : taken s (m s).2 = bytes w.claims := by
  have howes := ha s [] [] (Owes.refl p.v D s)
  rw [h, Option.elim_some, List.append_nil] at howes
  exact taken_of_owes howes

theorem taken_le {m : Prog Session (Option OrkW)} {n : Nat} (ha : AccountsAt p D m OrkW.claims OrkW.ids s)
    (hm : Yields m fun o => ∀ w ∈ o, bytes w.claims ≤ n) {w : OrkW} (h : (m s).1 = some w) : taken s (m s).2 ≤ n :=
  (taken_of_accounts ha h).le.trans (hm s w h)

theorem claims_le (t : Tiles) : bytes t.claims ≤ bytes t.reclaims := by
  unfold Tiles.claims
  split
  · exact Nat.zero_le _
  · exact le_rfl

theorem whole_bytes {P : Tiles → Prop} {n : Nat} {m : Prog Session (Option Tiles)} (h : Weighs P n m) :
    Yields (whole m) fun o => ∀ w ∈ o, bytes w.claims ≤ n := by
  refine Yields.bind h fun o ho => Yields.pure fun w hw => ?_
  obtain ⟨t, ht, rfl⟩ := Option.map_eq_some_iff.mp hw
  rw [claims_whole]
  exact (claims_le t).trans (ho t ht).2

theorem taken_whole_le {P : Tiles → Prop} {n : Nat} {m : Prog Session (Option Tiles)}
    (ha : AccountsAt p D m Tiles.claims Tiles.ids s) (hm : Weighs P n m) {w : OrkW} (h : (whole m s).1 = some w) :
    taken s (whole m s).2 ≤ n :=
  taken_le (whole_accounts ha) (whole_bytes hm) h

theorem taken_builds_le {P : Tiles → Prop} {n : Nat} {m : Prog Session (Option Tiles)} (hb : Builds p D Tiles.Local m)
    (hm : Weighs P n m) {w : OrkW} (h : (whole m s).1 = some w) : taken s (whole m s).2 ≤ n :=
  taken_whole_le (hb.accounts s) hm h

/-- A weight of the daemon has no buffers here. -/
theorem taken_client {d : Int} {w : OrkW} (h : (whole (client p d) s).1 = some w) : taken s (whole (client p d) s).2 = 0 := by
  have hsome : ∃ t, (client p d s).1 = some t ∧ (⟨t, none⟩ : OrkW) = w := Option.map_eq_some_iff.mp h
  obtain ⟨t, ht, rfl⟩ := hsome
  have hkept : ¬ Dropped p s.calls s.allocs := fun hdrop => by
    rw [(client_dropped (D := 0) hdrop d).1] at ht
    cases ht
  rw [taken_of_accounts (D := 0) (whole_accounts (client_accounts hkept d)) h, claims_whole]
  unfold Tiles.claims
  rw [client_remote ht]
  rfl

/-- The constructors that quantise, whether or not the weight owns its tiles. -/
theorem taken_quantised_le {owns : Bool} {n : Nat} {w : OrkW} (h : (whole (packQuantised p owns dom K N n) s).1 = some w) :
    taken s (whole (packQuantised p owns dom K N n) s).2 ≤ tiled8 p K N + counted p K N := by
  have hrun : Triple (Owes p.v (orkDom p.v dom) s [] []) (packQuantised p owns dom K N n) fun o s' => ∀ t ∈ o,
      taken s s' ≤ tiled8 p K N + counted p K N := by
    refine Triple.ite (fun _ => Triple.pure fun s _ _ h => nomatch h) fun _ => (hostGroups_owes _).bind fun ok =>
      Triple.ite (fun _ => ?_) fun _ => Triple.pure fun s _ _ h => nomatch h
    refine (i8Tiles_owes rfl).bind fun o => ?_
    cases o with
    | none => exact Triple.pure fun s _ _ h => nomatch h
    | some t =>
        intro s' hs'
        obtain ⟨howes, hle⟩ := hs' t rfl
        have hfin : Triple (Owes p.v (orkDom p.v dom) s (t.natives ++ (t.Bb ++ [])) []) (finish p [n] orkWFree t)
            fun o s' => ∀ t ∈ o, taken s s' ≤ tiled8 p K N + counted p K N := by
          refine (hostGroups_owes [n]).bind fun ok => Triple.ite (fun _ => Triple.pure fun s' howes' _ _ => ?_) fun _ =>
            Triple.bind (Q := fun _ _ => True) (fun _ _ => trivial) fun _ => Triple.pure fun s _ _ h => nomatch h
          rw [taken_of_owes howes', List.append_nil]
          refine hle.trans (Nat.add_le_add_left (le_of_eq ?_) _)
          exact if_congr (by rw [decide_eq_true_eq]) rfl rfl
        exact hfin s' howes
  have hsome : ∃ t, (packQuantised p owns dom K N n s).1 = some t ∧ (⟨t, none⟩ : OrkW) = w := Option.map_eq_some_iff.mp h
  obtain ⟨t, ht, -⟩ := hsome
  exact hrun s (Owes.refl p.v _ s) t ht

end OrkDriver.Weights
