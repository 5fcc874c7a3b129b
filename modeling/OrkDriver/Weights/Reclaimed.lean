import OrkDriver.Weights.Accounts

/-!
Every weight constructor, and exactly when constructing a weight and freeing it gives back what was taken.
-/

namespace OrkDriver.Weights

open OrkDriver.Lib (Prog)
open OrkDriver.Mem (BufEnv Buf Source Answers Session Owes orkDom)

/-- The constructors with their arguments, and with what their blobs and environments are worth to them. -/
inductive Ctor
  | i8MmPack (K N : Nat)
  | i8MmLoad (K N : Nat) (blob : Bool)
  | i8MmPackImport (K N : Nat)
  | i8MmLoadImport (K N : Nat) (blob : Bool)
  | i8MmLoadFlags (K N : Nat) (blob sram : Bool)
  | i8MmAdoptImported (K N : Nat) (h : Handed) (mapped blob : Bool)
  | i8MmImport (K N : Nat) (blob bufs : Bool)
  | i8MmPackF32 (K N : Nat)
  | i8MmPackDequant (K N : Nat)
  | i8MmLoadFold (K N : Nat) (blob : Bool)
  | i4a8MmPackIm (K N : Nat) (imatrix : Bool)
  | i4a8MmPack (K N : Nat)
  | i4a8MmLoad (K N : Nat) (blob : Bool)
  | i4a8MmLoadTiled (K N G : Nat) (blob : Bool)
  | i4a8MmLoadImport (K N : Nat) (blob : Bool)
  | i4MmPack (K N : Nat)
  | i4MmPackToI8 (K N : Nat)
  | i4MmLoad (K N : Nat) (blob : Bool)
  | i4MmLoadImport (K N : Nat) (blob : Bool)
  | i4MmLoadArena (K N : Nat) (blob : Bool)
  | i4MmPackGrouped (K N G : Nat)
  | f16MmPack (K N : Nat)
  | f16MmLoad (K N : Nat) (blob : Bool)
  | f16MmLoadImport (K N : Nat) (blob : Bool)
  | f16MmScratch (K N : Nat)
  | f16MmPackFusedAct (K N : Nat) (fits runs : Bool)

def Ctor.build (p : Packer) : Ctor → Prog Session (Option OrkW)
  | .i8MmPack K N => orkI8MmPack p K N
  | .i8MmLoad K N blob => whole (orkI8MmLoad p K N blob)
  | .i8MmPackImport K N => whole (orkI8MmPackImport p K N)
  | .i8MmLoadImport K N blob => whole (orkI8MmLoadImport p K N blob)
  | .i8MmLoadFlags K N blob sram => whole (orkI8MmLoadFlags p K N blob sram)
  | .i8MmAdoptImported K N h mapped blob => whole (orkI8MmAdoptImported p K N h mapped blob)
  | .i8MmImport K N blob bufs => whole (orkI8MmImport p K N blob bufs)
  | .i8MmPackF32 K N => whole (orkI8MmPackF32 p K N)
  | .i8MmPackDequant K N => whole (orkI8MmPackDequant p K N)
  | .i8MmLoadFold K N blob => whole (orkI8MmLoadFold p K N blob)
  | .i4a8MmPackIm K N imatrix => whole (orkI4a8MmPackIm p K N imatrix)
  | .i4a8MmPack K N => whole (orkI4a8MmPack p K N)
  | .i4a8MmLoad K N blob => whole (orkI4a8MmLoad p K N blob)
  | .i4a8MmLoadTiled K N G blob => whole (orkI4a8MmLoadTiled p K N G blob)
  | .i4a8MmLoadImport K N blob => whole (orkI4a8MmLoadImport p K N blob)
  | .i4MmPack K N => orkI4MmPack p K N
  | .i4MmPackToI8 K N => orkI4MmPackToI8 p K N
  | .i4MmLoad K N blob => whole (orkI4MmLoad p K N blob)
  | .i4MmLoadImport K N blob => whole (orkI4MmLoadImport p K N blob)
  | .i4MmLoadArena K N blob => whole (orkI4MmLoadArena p K N blob)
  | .i4MmPackGrouped K N G => whole (orkI4MmPackGrouped p K N G)
  | .f16MmPack K N => orkF16MmPack p K N
  | .f16MmLoad K N blob => whole (orkF16MmLoad p K N blob)
  | .f16MmLoadImport K N blob => whole (orkF16MmLoadImport p K N blob)
  | .f16MmScratch K N => whole (orkF16MmScratch p K N)
  | .f16MmPackFusedAct K N fits runs => orkF16MmPackFusedAct p K N fits runs

/-- When a quantising constructor for domain `dom` meets what is asked of it: it takes no buffer, or its last host
allocations are granted, it owns its tiles or has none, and the domain is the one asked for. -/
def QuantisedWell (p : Packer) (owns : Bool) (dom : Int) (K N n : Nat) (s : Session) : Prop :=
  Takes p dom K N s → Held p n s ∧ (owns = true ∨ i8Sizes p K N = []) ∧ orkDom p.v dom = orkDom p.v p.dom

/-- When constructing a weight from state `s` on and freeing it gives everything back, with the buffers in the domain that
the weights of `p` are in. -/
def Ctor.Reclaimed (p : Packer) (s : Session) : Ctor → Prop
  | .i8MmPack _ _ | .i4MmPackToI8 _ _ => ¬ (0 ≤ p.npu.fd ∧ p.daemon = true ∧ Dropped p s.calls s.allocs)
  | .i8MmImport K N blob bufs =>
    ¬ (p.daemon = true ∧ K ≠ 0 ∧ N ≠ 0 ∧ blob = true ∧ bufs = true ∧ Dropped p s.calls s.allocs)
  | .i8MmPackF32 K N | .i8MmPackDequant K N => QuantisedWell p false 0 K N 1 s
  | .i4a8MmPackIm K N imatrix => QuantisedWell p true p.dom K N (4 + p.k.nf4.toNat + imatrix.toNat) s
  | .i4a8MmPack K N => QuantisedWell p true p.dom K N (4 + p.k.nf4.toNat) s
  | .i4MmPack K N => ¬ (K % 32 = 0 ∧ N % 64 = 0 ∧ 0 ≤ p.npu.fd ∧ p.daemon = true ∧ Dropped p s.calls s.allocs)
  | .f16MmPack _ _ => ¬ (p.daemon = true ∧ Dropped p s.calls s.allocs)
  | .f16MmPackFusedAct K N fits _ =>
    ¬ (fits = true ∧ K % 32 = 0 ∧ N % 16 = 0 ∧ p.daemon = true ∧ (∀ i < 4, p.a.host (s.allocs + i) = true) ∧
      Dropped p s.calls (s.allocs + 4))
  | _ => True

variable {p : Packer} {D : Int} {s : Session} {K N n : Nat}

theorem balances_quantised (owns : Bool) (dom : Int) :
    Balances p (orkDom p.v p.dom) (whole (packQuantised p owns dom K N n)) s ↔ QuantisedWell p owns dom K N n s := by
  obtain ⟨Bb, Bf, hq⟩ := exists_quantised p owns dom K N n s
  have hres := restored_iff hq.left
  have hpl : Placed p.v (orkDom p.v p.dom) s (packQuantised p owns dom K N n s).2 ↔
      Bf ++ Bb = [] ∨ orkDom p.v dom = orkDom p.v p.dom := placed_iff hq.taken
  have hbal : Balances p (orkDom p.v p.dom) (whole (packQuantised p owns dom K N n)) s ↔
      (if Held p n s then (if owns then [] else Bb) else Bf ++ Bb) = [] ∧
        (Bf ++ Bb = [] ∨ orkDom p.v dom = orkDom p.v p.dom) := by
    rw [← hpl]
    exact ⟨fun h => ⟨(hres.mp h.restored).1, h.placed⟩, fun h => ⟨hres.mpr ⟨h.1, rfl⟩, h.2⟩⟩
  rw [hbal]
  unfold QuantisedWell
  by_cases ht : Takes p dom K N s
  · have hne := hq.some.mpr ht
    have hBb : Bb = [] ↔ i8Sizes p K N = [] := by
      rw [← List.length_eq_zero_iff, hq.tiles ht, List.length_eq_zero_iff]
    by_cases hh : Held p n s
    · rw [if_pos hh, ← hBb]
      cases owns with
      | true => simp [ht, hh, hne]
      | false => simp [ht, hh, hne]
    · rw [if_neg hh]
      exact ⟨fun h => absurd h.1 hne, fun h => absurd (h ht).1 hh⟩
  · have hnil : Bf ++ Bb = [] := by
      by_contra hne
      exact ht (hq.some.mp hne)
    have hBb := (List.append_eq_nil_iff.mp hnil).2
    refine ⟨fun _ h => absurd h ht, fun _ => ⟨?_, Or.inl hnil⟩⟩
    rw [hnil, hBb, ite_self, ite_self]

/-! ### Dropped weights -/

/-- A constructor that returns nothing while the daemon has a weight more. -/
theorem not_balances {m : Prog Session (Option OrkW)} {id : Nat} {s' : Session} (hm : m s = (none, s'))
    (h : Owes p.v D s [] [id] s') : ¬ Balances p D m s := by
  intro hb
  have hr := hb.restored
  rw [roundTrip_none hm] at hr
  cases ((restored_iff h).mp hr).2

theorem whole_client_dropped (h : Dropped p s.calls s.allocs) (d : Int) :
    ∃ id s', whole (client p d) s = (none, s') ∧ Owes p.v D s [] [id] s' := by
  obtain ⟨hnone, id, howes⟩ := client_dropped h (p := p) (D := D) d
  exact ⟨id, _, whole_eq (Prod.ext hnone rfl), howes⟩

theorem fusedAct_dropped {fits runs : Bool} (hfits : fits = true) (hK : K % 32 = 0) (hN : N % 16 = 0) (hd : p.daemon = true)
    (hall : ∀ i < 4, p.a.host (s.allocs + i) = true) (h : Dropped p s.calls (s.allocs + 4)) :
    ∃ id s', orkF16MmPackFusedAct p K N fits runs s = (none, s') ∧ Owes p.v D s [] [id] s' := by
  obtain ⟨id, s', hpack, howes⟩ := whole_client_dropped (p := p) (D := D) (s := { s with allocs := s.allocs + 4 }) h p.dom
  refine ⟨id, s', ?_, ⟨howes.live, howes.domain, howes.once, howes.remote, howes.homed⟩⟩
  have hhost : Mem.hostAllocs p.a 3 { s with allocs := s.allocs + 1 } = (true, { s with allocs := s.allocs + 4 }) := by
    refine Prod.ext ((Mem.hostAllocs_iff 3 _).mpr fun i hi => ?_) (hostAllocs_state 3 _)
    have := hall (i + 1) (by omega)
    rwa [Nat.add_comm i, ← Nat.add_assoc] at this
  have hbuild : orkF16MmBuildLut p runs { s with allocs := s.allocs + 1 } = (false, s') := by
    refine (Prog.bind_eq hhost).trans ?_
    have hp : orkF16MmPack p 512 64 { s with allocs := s.allocs + 4 } = (none, s') := by
      unfold orkF16MmPack
      rw [if_pos hd]
      exact hpack
    exact Prog.bind_eq hp
  have hlut : Mem.hostAlloc p.a s = (true, { s with allocs := s.allocs + 1 }) := Prod.ext (hall 0 (by omega)) rfl
  unfold orkF16MmPackFusedAct
  rw [if_neg (by simp only [hfits, hK, hN]; decide)]
  exact (Prog.bind_eq hlut).trans (Prog.bind_eq hbuild)

/-! ### Every constructor -/

theorem balances_of_builds {m : Prog Session (Option Tiles)} (h : Builds p D Tiles.Local m) : Balances p D (whole m) s :=
  (whole_accounts (h.accounts s)).balances

theorem balances_of_accounts {m : Prog Session (Option Tiles)} (h : AccountsAt p D m Tiles.claims Tiles.ids s) :
    Balances p D (whole m) s := (whole_accounts h).balances

/-- A constructor that accounts for everything unless `c` holds, and where `c` holds drops a weight of the daemon. -/
theorem balances_iff_not {c : Prop} {m : Prog Session (Option OrkW)} (ha : ¬ c → AccountsAt p D m OrkW.claims OrkW.ids s)
    (hd : c → ∃ id s', m s = (none, s') ∧ Owes p.v D s [] [id] s') : Balances p D m s ↔ ¬ c := by
  constructor
  · intro hb hc
    obtain ⟨id, s', hm, howes⟩ := hd hc
    exact not_balances hm howes hb
  · exact fun hc => (ha hc).balances

theorem i8MmPack_balances_iff (hD : orkDom p.v p.dom = D) :
    Balances p D (orkI8MmPack p K N) s ↔ ¬ (0 ≤ p.npu.fd ∧ p.daemon = true ∧ Dropped p s.calls s.allocs) := by
  refine balances_iff_not (orkI8MmPack_accounts hD) ?_
  rintro ⟨hfd, hd, hdrop⟩
  unfold orkI8MmPack
  rw [if_neg (by omega), if_pos hd]
  exact whole_client_dropped hdrop _

theorem Ctor.balances_iff (c : Ctor) (hD : orkDom p.v p.dom = D) : Balances p D (c.build p) s ↔ c.Reclaimed p s := by
  cases c with
  | i8MmPack K N => exact i8MmPack_balances_iff hD
  | i8MmLoad K N blob => exact iff_of_true (balances_of_accounts (orkI8MmLoad_accounts hD blob s)) trivial
  | i8MmPackImport K N => exact iff_of_true (balances_of_builds (orkI8MmPackImport_builds hD)) trivial
  | i8MmLoadImport K N blob => exact iff_of_true (balances_of_builds (orkI8MmLoadImport_builds hD blob)) trivial
  | i8MmLoadFlags K N blob sram => exact iff_of_true (balances_of_builds (orkI8MmLoadFlags_builds hD blob sram)) trivial
  | i8MmAdoptImported K N h mapped blob =>
      exact iff_of_true (balances_of_accounts (orkI8MmAdoptImported_accounts hD h mapped blob s)) trivial
  | i8MmImport K N blob bufs =>
      refine balances_iff_not (fun h => whole_accounts (orkI8MmImport_accounts h)) ?_
      rintro ⟨hd, hK, hN, hblob, hbufs, hdrop⟩
      have hgo : orkI8MmImport p K N blob bufs = client p p.dom := by
        unfold orkI8MmImport
        rw [if_neg (by simp [hd, hK, hN, hblob, hbufs])]
      change ∃ id s', whole (orkI8MmImport p K N blob bufs) s = (none, s') ∧ _
      rw [hgo]
      exact whole_client_dropped hdrop _
  | i8MmPackF32 K N => subst hD; exact balances_quantised false 0
  | i8MmPackDequant K N => subst hD; exact balances_quantised false 0
  | i8MmLoadFold K N blob => exact iff_of_true (balances_of_builds (orkI8MmLoadFold_builds hD blob)) trivial
  | i4a8MmPackIm K N imatrix => subst hD; exact balances_quantised true p.dom
  | i4a8MmPack K N => subst hD; exact balances_quantised true p.dom
  | i4a8MmLoad K N blob => exact iff_of_true (balances_of_accounts (orkI4a8MmLoad_accounts hD blob s)) trivial
  | i4a8MmLoadTiled K N G blob =>
      exact iff_of_true (balances_of_accounts (orkI4a8MmLoadTiled_accounts hD G blob s)) trivial
  | i4a8MmLoadImport K N blob => exact iff_of_true (balances_of_builds (orkI4a8MmLoadImport_builds hD blob)) trivial
  | i4MmPack K N =>
      refine balances_iff_not (orkI4MmPack_accounts hD) ?_
      rintro ⟨hK, hN, hfd, hd, hdrop⟩
      change ∃ id s', orkI4MmPack p K N s = (none, s') ∧ _
      unfold orkI4MmPack
      rw [if_neg (by omega), if_neg (by omega), if_pos hd]
      exact whole_client_dropped hdrop _
  | i4MmPackToI8 K N => exact i8MmPack_balances_iff hD
  | i4MmLoad K N blob => exact iff_of_true (balances_of_accounts (orkI4MmLoad_accounts hD blob s)) trivial
  | i4MmLoadImport K N blob => exact iff_of_true (balances_of_builds (orkI4MmLoadImport_builds hD blob)) trivial
  | i4MmLoadArena K N blob => exact iff_of_true (balances_of_builds (orkI4MmLoadArena_builds hD blob)) trivial
  | i4MmPackGrouped K N G => exact iff_of_true (balances_of_accounts (orkI4MmPackGrouped_accounts hD G s)) trivial
  | f16MmPack K N =>
      refine balances_iff_not (orkF16MmPack_accounts hD) ?_
      rintro ⟨hd, hdrop⟩
      change ∃ id s', orkF16MmPack p K N s = (none, s') ∧ _
      unfold orkF16MmPack
      rw [if_pos hd]
      exact whole_client_dropped hdrop _
  | f16MmLoad K N blob => exact iff_of_true (balances_of_builds (f16LoadCommon_builds hD blob false)) trivial
  | f16MmLoadImport K N blob => exact iff_of_true (balances_of_builds (f16LoadCommon_builds hD blob true)) trivial
  | f16MmScratch K N => exact iff_of_true (balances_of_builds (orkF16MmScratch_builds hD)) trivial
  | f16MmPackFusedAct K N fits runs =>
      refine balances_iff_not (orkF16MmPackFusedAct_accounts hD) ?_
      rintro ⟨hfits, hK, hN, hd, hall, hdrop⟩
      exact fusedAct_dropped hfits hK hN hd hall hdrop

/-- From every state, constructing a weight in the pack domain `d` and freeing it gives everything back exactly if
`Reclaimed` says so. -/
theorem construct_free_iff (p : Packer) (d : Int) (c : Ctor) (s : Session) :
    let q := p.setPackDomain d
    (p.v.pin < 0 → p.v.base ≤ 0 → 0 ≤ d → orkDom q.v q.dom = d) ∧
      (Balances q (orkDom q.v q.dom) (c.build q) s ↔ c.Reclaimed q s) := by
  intro q
  refine ⟨fun hpin hbase hd => ?_, ?_⟩
  · have hset : q.packDomain = d := if_neg (by omega)
    have hdom : ∀ x : Int, 0 ≤ x → orkDom p.v x = x := by
      intro x hx
      unfold orkDom
      rw [if_neg (by omega), if_neg (by omega), if_pos hx]
    change orkDom p.v (orkDom p.v q.packDomain) = d
    rw [hset, hdom d hd, hdom d hd]
  · exact c.balances_iff rfl

/-- A context on the device, with a kernel and a C library that grant everything. -/
def granting : Packer where
  v := ⟨2 ^ 30, 0, -1, 0, 0⟩
  a := ⟨fun _ => ⟨true, false, true, true, 0⟩, fun _ => ⟨true, true, true, true, true, true, 0⟩, fun _ => true,
    fun _ => true, fun _ => none⟩
  npu := ⟨3, Npu.socRk3588, 0⟩
  f16 := ⟨0, 0⟩
  packDomain := -1
  daemon := false
  k := ⟨false, false, false, false, false, false, false, false, 0, false, false, false, true, false⟩

/-- A process that has asked for nothing yet. -/
def unused : Session where
  proc := .start
  numbered := ⟨⟨fun _ hb => absurd hb List.not_mem_nil, fun _ hh => absurd hh List.not_mem_nil, fun _ => Nat.two_pow_pos 64⟩,
    List.nodup_nil⟩
  calls := 0
  allocs := 0
  doubled := false
  ctx := []
  anchored := []
  arena := fun _ => none
  arenaN := 0
  arenaCap := 0
  remote := []

/-- `ork_i8_mm_pack_f32` of a 32 by 32 weight in pack domain 1: its tile is in domain 0 and stays when it is freed. -/
theorem packF32_not_balanced :
    ¬ Balances (granting.setPackDomain 1) 1 (Ctor.build (granting.setPackDomain 1) (.i8MmPackF32 32 32)) unused := by
  intro h
  have hwell := (balances_quantised false 0).mp h
  have htakes : Takes (granting.setPackDomain 1) 0 32 32 unused :=
    ⟨rfl, rfl, ⟨rfl, rfl⟩, by decide, Or.inl (by decide)⟩
  exact absurd (hwell htakes).2.2 (by decide)

end OrkDriver.Weights
