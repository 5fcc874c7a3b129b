import OrkDriver.Weights.Padding

/-!
A kernel that grants a list of requests, and what the steps of the constructors take under it.
-/

namespace OrkDriver.Weights

open OrkDriver.Lib (Prog Yields Triple pieces pieceLen)
open OrkDriver.Mem (BufEnv Buf Source Answers Session orkDom orkiPgup Device Fate)
open OrkDriver.Pack (Dt Geom)

/-! ### The kernel -/

/-- A process whose buffers are all in domain 0, with no ceiling. -/
def roomy : BufEnv := ⟨2 ^ 64 - 1, 0, 0, 0, 0⟩

/-- What the kernel is asked for: a buffer of this size, which it grants, or one it refuses. -/
abbrev Requests := List (Option Nat)

/-- The kernel grants the requests, each buffer at the end of the address space; the C library grants everything. -/
def obliging (reqs : Requests) : Answers where
  create n := ⟨(reqs.getD n none).isSome, false, true, true, 2 ^ 64 - orkiPgup ((reqs.getD n none).getD 0)⟩
  imp n := ⟨(reqs.getD n none).isSome, true, true, true, true, true, 2 ^ 64 - orkiPgup ((reqs.getD n none).getD 0)⟩
  destroy _ := true
  host _ := true
  orkd _ := none

/-- The same weights under it. -/
def Packer.granted (p : Packer) (reqs : Requests) : Packer := { p with v := roomy, a := obliging reqs }

/-- The requests still to come. -/
def Ready (reqs rest : Requests) (s : Session) : Prop := reqs.drop s.calls = rest

/-- A dma-buf that is adopted is one. -/
def Given : Source → Prop
  | .adopted dbuf => 0 ≤ dbuf
  | _ => True

theorem given_created (sram : Bool) : Given (.created sram) := trivial

theorem given_imported : Given .imported := trivial

variable {p : Packer} {reqs rest : Requests} {src : Source} {dom : Int} {size : Nat} {s : Session} {sizes : List Nat}
  {g : Geom} {t : Tiles}

theorem Ready.asked {o : Option Nat} (h : Ready reqs (o :: rest) s) : reqs.getD s.calls none = o := by
  have hhead : (reqs.drop s.calls)[0]? = some o := by
    unfold Ready at h
    rw [h]
    rfl
  rw [List.getElem?_drop, Nat.add_zero] at hhead
  rw [List.getD_eq_getElem?_getD, hhead]
  rfl

theorem Ready.next {o : Option Nat} (h : Ready reqs (o :: rest) s) : reqs.drop (s.calls + 1) = rest := by
  unfold Ready at h
  rw [← List.tail_drop, h]
  rfl

theorem orkDom_roomy (dom : Int) : orkDom roomy dom = 0 := rfl

theorem reserve_roomy (d : Device) (dom : Int) (need : Nat) : ∃ d', d.orkIovaReserve roomy dom need = some d' := by
  unfold Device.orkIovaReserve
  have hlt : (d.iovaBytes dom + need) % 2 ^ 64 < 2 ^ 64 := Nat.mod_lt _ (Nat.two_pow_pos 64)
  have hroom : ¬ roomy.ceiling < (d.iovaBytes dom + need) % 2 ^ 64 := by
    change ¬ 2 ^ 64 - 1 < _
    omega
  rw [if_neg hroom]
  by_cases ht : Mem.Tracked dom
  · rw [if_neg (not_not.mpr ht)]
    exact ⟨_, rfl⟩
  · rw [if_pos ht]
    exact ⟨_, rfl⟩

/-- A buffer at the end of the address space fits. -/
theorem dmaFits_end (n : Nat) : Mem.orkiDmaFits32 (2 ^ 64 - orkiPgup n) (orkiPgup n) = true := by
  have hlt := Mem.orkiPgup_lt n
  unfold Mem.orkiDmaFits32
  have hsum : 2 ^ 64 - orkiPgup n + orkiPgup n = 2 ^ 64 := by omega
  rw [hsum]
  rfl

theorem createFate_made (size : Nat) (sram : Bool) :
    Mem.createFate roomy (orkiPgup size) sram ⟨true, false, true, true, 2 ^ 64 - orkiPgup size⟩ = .made := by
  unfold Mem.createFate
  dsimp only
  rw [dmaFits_end]
  rfl

theorem importFate_made (size : Nat) :
    Mem.importFate (orkiPgup size) ⟨true, true, true, true, true, true, 2 ^ 64 - orkiPgup size⟩ = .made := by
  unfold Mem.importFate
  dsimp only
  rw [dmaFits_end]
  rfl

/-- What comes of a fate once the bytes are reserved. -/
theorem settle_made (d : Device) (dom : Int) (need : Nat) :
    (match d.orkIovaReserve roomy (orkDom roomy dom) need with
      | none => (Buf.zero, d)
      | some d => d.settle (orkDom roomy dom) need .made).1.cpu = true := by
  obtain ⟨d', hd⟩ := reserve_roomy d (orkDom roomy dom) need
  rw [hd]
  rfl

theorem create_ready (hsrc : Given src) :
    Triple (Ready reqs (some size :: rest)) (Mem.create roomy (obliging reqs) src dom size) fun b s =>
      b.cpu = true ∧ Ready reqs rest s := by
  intro s hs
  refine ⟨?_, hs.next⟩
  have hc : (obliging reqs).create s.calls = ⟨true, false, true, true, 2 ^ 64 - orkiPgup size⟩ := by
    unfold obliging
    dsimp only
    rw [hs.asked]
    rfl
  have hi : (obliging reqs).imp s.calls = ⟨true, true, true, true, true, true, 2 ^ 64 - orkiPgup size⟩ := by
    unfold obliging
    dsimp only
    rw [hs.asked]
    rfl
  cases src with
  | created sram =>
      change (Mem.orkiBcreate roomy s.proc.dev size sram dom ((obliging reqs).create s.calls)).1.cpu = true
      unfold Mem.orkiBcreate
      rw [hc, createFate_made]
      exact settle_made _ dom _
  | imported =>
      change (Mem.orkiBimportF roomy s.proc.dev size dom ((obliging reqs).imp s.calls)).1.cpu = true
      unfold Mem.orkiBimportF
      rw [hi, importFate_made]
      exact settle_made _ dom _
  | adopted dbuf =>
      change (Mem.orkiBimportFd roomy s.proc.dev dbuf size dom ((obliging reqs).imp s.calls)).1.cpu = true
      unfold Mem.orkiBimportFd
      rw [if_neg (Int.not_lt.mpr hsrc), hi, importFate_made]
      exact settle_made _ dom _

theorem create_refused {sram : Bool} :
    Triple (Ready reqs (none :: rest)) (Mem.create roomy (obliging reqs) (.created sram) dom size) fun b s =>
      b.cpu = false ∧ Ready reqs rest s := by
  intro s hs
  refine ⟨?_, hs.next⟩
  obtain ⟨d', hd⟩ := reserve_roomy s.proc.dev (orkDom roomy dom) (orkiPgup size)
  have hc : (obliging reqs).create s.calls = ⟨false, false, true, true, 2 ^ 64 - orkiPgup 0⟩ := by
    unfold obliging
    dsimp only
    rw [hs.asked]
    rfl
  have hfate : ∀ dma, Mem.createFate roomy (orkiPgup size) sram ⟨false, false, true, true, dma⟩ = .refused := by
    intro dma
    unfold Mem.createFate
    dsimp only
    rw [Bool.and_false]
    rfl
  change (Mem.orkiBcreate roomy s.proc.dev size sram dom ((obliging reqs).create s.calls)).1.cpu = false
  unfold Mem.orkiBcreate
  rw [hc, hfate, hd]
  rfl

theorem createTiles_ready (hsrc : Given src) :
    Triple (Ready reqs (sizes.map some ++ rest)) (Mem.createTiles roomy (obliging reqs) src dom sizes) fun r s =>
      r.2 = true ∧ Ready reqs rest s := by
  induction sizes with
  | nil => exact Triple.pure fun _ h => ⟨rfl, h⟩
  | cons n ns ih =>
      refine (create_ready hsrc).bind fun b => Triple.ite (fun _ => ?_) fun hb => fun s hs => absurd hs.1 hb
      refine (ih.pre fun s hs => hs.2).bind fun o => Triple.pure fun s hs => hs

theorem createOrNone_ready (hsrc : Given src) :
    Triple (Ready reqs (sizes.map some ++ rest)) (Mem.createOrNone roomy (obliging reqs) src dom sizes) fun o s =>
      o.isSome = true ∧ Ready reqs rest s := by
  refine (createTiles_ready hsrc).bind fun o => Triple.ite (fun _ => ?_) fun ho => fun s hs => absurd hs.1 ho
  exact Triple.pure fun s hs => ⟨rfl, hs.2⟩

theorem hostAllocs_ready (n : Nat) :
    Triple (Ready reqs rest) (Mem.hostAllocs (obliging reqs) n) fun ok s => ok = true ∧ Ready reqs rest s := by
  induction n with
  | zero => exact Triple.pure fun _ h => ⟨rfl, h⟩
  | succ n ih =>
      refine Triple.bind (Q := fun ok s => ok = true ∧ Ready reqs rest s) (fun s hs => ⟨rfl, hs⟩) fun one => ?_
      rintro s ⟨rfl, hs⟩
      exact (ih.bind (R := fun ok s => ok = true ∧ Ready reqs rest s) fun o => Triple.pure fun s hs => hs) s hs

theorem hostGroups_ready (groups : List Nat) :
    Triple (Ready reqs rest) (hostGroups (p.granted reqs) groups) fun ok s => ok = true ∧ Ready reqs rest s := by
  induction groups with
  | nil => exact Triple.pure fun _ h => ⟨rfl, h⟩
  | cons n ns ih =>
      refine (hostAllocs_ready n).bind fun ok => Triple.ite (fun _ => ?_) fun hok => fun s hs => absurd hs.1 hok
      exact ih.pre fun s hs => hs.2

/-- Domain 0 needs no anchor. -/
theorem orkDomPrime_ready (bimp : Bool) (dom : Int) :
    Triple (Ready reqs rest) (Mem.orkDomPrime roomy (obliging reqs) bimp dom) fun _ => Ready reqs rest := by
  intro s hs
  unfold Mem.orkDomPrime
  rw [if_pos (Or.inl (orkDom_roomy dom).le)]
  exact hs

/-! ### The steps -/

/-- Under a kernel that grants `asks`, `m` makes a weight for which `P` holds. -/
def Makes (reqs asks : Requests) (P : Tiles → Prop) (m : Prog Session (Option Tiles)) : Prop :=
  ∀ rest, Triple (Ready reqs (asks ++ rest)) m fun o s => (∃ t, o = some t ∧ P t) ∧ Ready reqs rest s

/-- The weight is without its full-K copy and takes `n` bytes. -/
def Plain (n : Nat) (t : Tiles) : Prop := t.Fresh ∧ bytes t.reclaims = n

/-- The weight takes `n` bytes. -/
def Whole (n : Nat) (t : Tiles) : Prop := t.Local ∧ bytes t.reclaims = n

section

variable {asks asks' : Requests} {P Q : Tiles → Prop} {m : Prog Session (Option Tiles)} {n : Nat}

theorem Makes.andThen {f : Tiles → Prog Session (Option Tiles)} (hm : Makes reqs asks P m)
    (hf : ∀ t, P t → Makes reqs asks' Q (f t)) : Makes reqs (asks ++ asks') Q (andThen m f) := by
  intro rest
  rw [List.append_assoc]
  refine (hm (asks' ++ rest)).bind fun o => ?_
  rintro s ⟨⟨t, rfl, ht⟩, hs⟩
  exact hf t ht rest s hs

theorem Makes.after {α : Type} {c : Prog Session α} {f : α → Prog Session (Option Tiles)} {R : α → Prop}
    (hc : ∀ rest, Triple (Ready reqs rest) c fun a s => R a ∧ Ready reqs rest s) (hf : ∀ a, R a → Makes reqs asks P (f a)) :
    Makes reqs asks P (c >>= f) := by
  intro rest
  refine (hc (asks ++ rest)).bind fun a => ?_
  rintro s ⟨ha, hs⟩
  exact hf a ha rest s hs

theorem Makes.mono (h : Makes reqs asks P m) (hPQ : ∀ t, P t → Q t) : Makes reqs asks Q m := by
  intro rest
  refine (h rest).post fun o s hs => ?_
  obtain ⟨⟨t, ho, ht⟩, hs⟩ := hs
  exact ⟨⟨t, ho, hPQ t ht⟩, hs⟩

theorem Makes.congr {m' : Prog Session (Option Tiles)} (h : Makes reqs asks P m) (hm : m' = m) : Makes reqs asks P m' :=
  hm ▸ h

theorem Plain.whole {t : Tiles} (h : Plain n t) : Whole n t := ⟨h.1.toLocal, h.2⟩

theorem makes_some {t : Tiles} (ht : P t) : Makes reqs [] P (pure (some t)) :=
  fun _ => Triple.pure fun _ hs => ⟨⟨t, rfl, ht⟩, hs⟩

/-- The C library grants everything. -/
theorem finish_makes {groups : List Nat} {cleanup : Tiles → Prog Session Unit} (ht : P t) :
    Makes reqs [] P (finish (p.granted reqs) groups cleanup t) := by
  refine Makes.after (R := fun ok => ok = true) (fun rest => hostGroups_ready groups) fun ok hok => ?_
  subst hok
  exact makes_some ht

theorem hosted_makes {groups : List Nat} (h : Makes reqs asks P m) :
    Makes reqs asks P (do
      let ok ← hostGroups (p.granted reqs) groups
      if ok then m else pure none) := by
  refine Makes.after (R := fun ok => ok = true) (fun rest => hostGroups_ready groups) fun ok hok => ?_
  subst hok
  exact h

theorem primed_makes {bimp : Bool} (h : Makes reqs asks P m) :
    Makes reqs asks P (do
      Mem.orkDomPrime (p.granted reqs).v (p.granted reqs).a bimp dom
      m) :=
  Makes.after (R := fun _ => True) (fun _ => (orkDomPrime_ready bimp dom).post fun _ _ hs => ⟨trivial, hs⟩) fun _ _ => h

end

theorem placeTiles_makes (hsrc : Given src) :
    Makes reqs (sizes.map some) (Plain (paged sizes)) (placeTiles (p.granted reqs) src true dom sizes) := by
  intro rest
  have hsome : Triple (Ready reqs (sizes.map some ++ rest)) (placeTiles (p.granted reqs) src true dom sizes) fun o s =>
      o.isSome = true ∧ Ready reqs rest s := by
    refine (createOrNone_ready hsrc).bind fun o => ?_
    cases o with
    | none => exact fun s hs => absurd hs.1 Bool.false_ne_true
    | some Bb => exact Triple.pure fun s hs => ⟨rfl, hs.2⟩
  refine (hsome.yields (placeTiles_bytes sizes)).post fun o s hs => ?_
  obtain ⟨⟨ho, hs⟩, hsize⟩ := hs
  obtain ⟨t, rfl⟩ := Option.isSome_iff_exists.mp ho
  exact ⟨⟨t, rfl, hsize t rfl⟩, hs⟩

theorem orkiPgup_paged (h : paged sizes + 4095 < 2 ^ 64) : orkiPgup (paged sizes) = paged sizes := by
  obtain ⟨m, hm⟩ := dvd_paged sizes
  unfold orkiPgup
  rw [Nat.mod_eq_of_lt h]
  omega

theorem placeOwn_makes {shown : Nat → Nat} {m : Prog Session (Option Tiles)} (h : paged sizes + 4095 < 2 ^ 64) :
    Makes reqs [some (paged sizes)] (Plain (paged sizes)) (placeOwn (p.granted reqs) sizes shown m) := by
  intro rest
  refine ((create_ready (given_created false)).yields (create_size _)).bind fun own => Triple.ite (fun _ => ?_) fun ho => fun s hs =>
    absurd hs.1.1 ho
  refine Triple.pure fun s hs => ⟨⟨_, rfl, ⟨⟨rfl, rfl, rfl⟩, rfl⟩, ?_⟩, hs.1.2⟩
  change own.size + 0 = paged sizes
  rw [Nat.add_zero, hs.2 hs.1.1]
  exact orkiPgup_paged h

theorem importChunks_ready (csz : Nat → Nat → Nat) (rem : Nat) (cur : Option (Buf × Nat × Nat)) (sizes : List Nat) :
    Triple (Ready reqs ((chunkSizes csz rem (cur.map Prod.snd) sizes).map some ++ rest))
      (importChunks (p.granted reqs) csz rem cur sizes) fun r s => r.2.2 = true ∧ Ready reqs rest s := by
  induction sizes generalizing rem cur with
  | nil => exact Triple.pure fun _ hs => ⟨rfl, hs⟩
  | cons ts sizes ih =>
      unfold importChunks
      rw [chunkSizes_cons]
      cases cur.filter fun c => c.2.1 + ts ≤ c.2.2 with
      | some c => exact (ih _ (some (c.1, c.2.1 + ts, c.2.2))).bind fun o => Triple.pure fun _ hs => hs
      | none =>
          refine (create_ready given_imported).bind fun b => Triple.ite (fun _ => ?_) fun hb => fun s hs => absurd hs.1 hb
          exact ((ih _ (some (b, ts, csz rem ts))).pre fun s hs => hs.2).bind fun o => Triple.pure fun _ hs => hs

theorem placeImported_makes (csz : Nat → Nat → Nat) (hno : p.k.noConsolidateImport = false) :
    Makes reqs ((chunkSizes csz (paged sizes) none (sizes.map orkiPgup)).map some) (Plain (chunkBytes csz sizes))
      (placeImported (p.granted reqs) csz sizes) := by
  intro rest
  unfold placeImported
  have hgo : ¬ (p.granted reqs).k.noConsolidateImport = true := Bool.eq_false_iff.mp hno
  rw [if_neg hgo]
  refine ((importChunks_ready csz _ none _).yields (importChunks_sizes csz _ none _)).bind fun o =>
    Triple.ite (fun _ => ?_) fun ho => fun s hs => absurd hs.1.1 ho
  refine Triple.pure fun s hs => ⟨⟨_, rfl, ⟨⟨rfl, rfl, rfl⟩, rfl⟩, ?_⟩, hs.1.2⟩
  exact bytes_of_sizes (hs.2 hs.1.1)

/-- What `attachBf` asks for. -/
def bfAsks (want : Bool) (g : Geom) : Requests := if want then (bfBytes g).map some else []

theorem attach_makes {want : Bool} {n : Nat} (hsrc : Given src) (ht : Plain n t) :
    Makes reqs (bfAsks want g) (fun t => Whole (n + if want then paged (bfBytes g) else 0) t ∧ t.Bf.isSome = want) (do
      let t ← attachBf (p.granted reqs) src dom want g t
      pure (some t)) := by
  intro rest
  obtain ⟨hfresh, rfl⟩ := ht
  have hmade : Triple (Ready reqs (bfAsks want g ++ rest)) (attachBf (p.granted reqs) src dom want g t) fun t' s =>
      t'.Bf.isSome = want ∧ Ready reqs rest s := by
    unfold attachBf bfAsks
    cases want with
    | false => exact Triple.pure fun s hs => ⟨congrArg Option.isSome hfresh.noBf, hs⟩
    | true =>
        refine (createOrNone_ready hsrc).bind fun o => Triple.pure fun s hs => ⟨?_, hs.2⟩
        change (o.map _).isSome = true
        rw [Option.isSome_map]
        exact hs.1
  refine (hmade.yields (attachBf_bytes hfresh)).bind fun t' => Triple.pure fun s hs =>
    ⟨⟨t', rfl, ⟨hs.2.1, ?_⟩, hs.1.1⟩, hs.1.2⟩
  rw [hs.2.2, hs.1.1]

/-- The kernel refuses the first of the copies. -/
theorem attach_refused {sram : Bool} {n : Nat} (hg : bfBytes g ≠ []) (ht : Plain n t) :
    Makes reqs [none] (fun t => Whole n t ∧ t.Bf.isSome = false) (do
      let t ← attachBf (p.granted reqs) (.created sram) dom true g t
      pure (some t)) := by
  intro rest
  obtain ⟨size, sizes, hsizes⟩ := List.exists_cons_of_ne_nil hg
  have hnone : Triple (Ready reqs ([none] ++ rest)) (attachBf (p.granted reqs) (.created sram) dom true g t) fun t' s =>
      t' = { t with Bf := none } ∧ Ready reqs rest s := by
    unfold attachBf
    rw [hsizes, if_pos rfl]
    refine Triple.bind (Q := fun o s => o = none ∧ Ready reqs rest s) ?_ fun o => ?_
    · refine Triple.bind (Q := fun r s => r = ([], false) ∧ Ready reqs rest s) ?_ fun r => ?_
      · refine create_refused.bind fun b => Triple.ite (fun hb => fun s hs => ?_) fun _ => Triple.pure fun s hs => ⟨rfl, hs.2⟩
        exact absurd (hb.symm.trans hs.1) (by decide)
      · rintro s ⟨rfl, hs⟩
        exact ⟨rfl, hs⟩
    · rintro s ⟨rfl, hs⟩
      exact ⟨rfl, hs⟩
  refine hnone.bind fun t' => ?_
  rintro s ⟨rfl, hs⟩
  have hsame : ({ t with Bf := none } : Tiles) = t := by
    have hbf := ht.1.noBf
    cases t
    cases hbf
    rfl
  rw [hsame]
  exact ⟨⟨t, rfl, ht.whole, congrArg Option.isSome ht.1.noBf⟩, hs⟩

/-! ### Packed weights -/

/-- What the tiles of an int8 weight are asked for with. -/
def packAsks (p : Packer) (K N : Nat) : Requests :=
  let sizes := tileBytes (Run.weightGeom p.npu p.f16 .i8 K N) 1 1
  if p.k.consolidateI8 then [some (paged sizes)] else sizes.map some

/-- A packed int8 weight with its full-K copy, where it wants one. -/
def wholeAsks (p : Packer) (K N : Nat) : Requests := packAsks p K N ++ bfAsks (wantsBf p .i8 K) (i8Geom p K N)

section

variable {K N : Nat}

/-- Tiles in one buffer do not wrap around. -/
theorem paged_fits {g : Geom} {den : Nat} (hKS : 0 < g.KS) (hNMAX : g.NMAX = 8192) (hK : g.K < 2 ^ 31) (hN : g.N < 2 ^ 31) :
    paged (tileBytes g 1 den) + 4095 < 2 ^ 64 := by
  have hle := paged_le (tileBytes g 1 den)
  have hpart : (tileBytes g 1 den).sum ≤ (tileBytes g 1 1).sum := by
    refine List.sum_le_sum fun t _ => ?_
    rw [Nat.div_one]
    exact Nat.div_le_self _ _
  rw [tileBytes_sum hKS (by omega), Nat.mul_one] at hpart
  rw [tileBytes_length, hNMAX] at hle
  have hprod : g.K * g.N ≤ 2 ^ 31 * 2 ^ 31 := Nat.mul_le_mul hK.le hN.le
  have hpieces : pieces g.N 8192 * pieces g.K g.KS ≤ 2 ^ 19 * 2 ^ 31 := by
    refine Nat.mul_le_mul ?_ ?_
    · unfold pieces
      omega
    · have hmul : g.K ≤ g.KS * g.K := Nat.le_mul_of_pos_left g.K hKS
      have hdiv : (g.K + g.KS - 1) / g.KS ≤ g.K + 1 := Nat.div_le_of_le_mul (by
        rw [Nat.mul_succ]
        omega)
      exact hdiv.trans hK
  omega

theorem packTiled_fits (hsoc : p.npu.soc ∈ Npu.socTable) (hK : K < 2 ^ 31) (hN : N < 2 ^ 31) :
    packTiled p .i8 K N + 4095 < 2 ^ 64 :=
  paged_fits p.npu.int8Ks_spec.1 (Pack.socTable_nmax hsoc) hK hN

/-- `orki_pack` of an int8 weight up to its rescue tiles, the shape accepted. -/
theorem orkiPackTiles_eq (hrows : K % 32 = 0) (hcols : N % 32 = 0) : orkiPackTiles p .i8 K N =
    andThen
      (if p.k.consolidateI8 = true then
        placeOwn p (tileBytes (Run.weightGeom p.npu p.f16 .i8 K N) 1 1) orkiPgup
          (placeTiles p (.created p.k.weightSram) true p.dom (tileBytes (Run.weightGeom p.npu p.f16 .i8 K N) 1 1))
      else placeTiles p (.created p.k.weightSram) true p.dom (tileBytes (Run.weightGeom p.npu p.f16 .i8 K N) 1 1))
      (fun t => do
        let t ← attachBf p (.created false) p.dom (wantsBf p .i8 K) (i8Geom p K N) t
        pure (some t)) := by
  unfold orkiPackTiles
  have hok : ¬ (K % 32 ≠ 0 ∨ N % Run.ntSz .i8 ≠ 0) := by
    have hnt : Run.ntSz .i8 = 32 := rfl
    rw [hnt]
    omega
  rw [if_neg hok]
  refine congrArg₂ andThen ?_ rfl
  exact if_congr ⟨fun h => h.2, fun h => ⟨rfl, h⟩⟩ rfl rfl

/-- The tiles of an int8 weight, each with a buffer of its own or all in one. -/
theorem packTiles_makes (hsoc : p.npu.soc ∈ Npu.socTable) (hK : K < 2 ^ 31) (hN : N < 2 ^ 31) (hrows : K % 32 = 0)
    (hcols : N % 32 = 0) {asks : Requests} {Q : Tiles → Prop}
    (hf : ∀ t, Plain (packTiled p .i8 K N) t → Makes reqs asks Q (do
      let t ← attachBf (p.granted reqs) (.created false) (p.granted reqs).dom (wantsBf p .i8 K) (i8Geom p K N) t
      pure (some t))) : Makes reqs (packAsks p K N ++ asks) Q (orkiPackTiles (p.granted reqs) .i8 K N) := by
  rw [orkiPackTiles_eq hrows hcols]
  refine Makes.andThen ?_ hf
  unfold packAsks
  by_cases hc : p.k.consolidateI8 = true
  · have hc' : (p.granted reqs).k.consolidateI8 = true := hc
    rw [if_pos hc, if_pos hc']
    exact placeOwn_makes (packTiled_fits hsoc hK hN)
  · have hc' : ¬ (p.granted reqs).k.consolidateI8 = true := hc
    rw [if_neg hc, if_neg hc']
    exact placeTiles_makes (given_created _)

theorem orkiPackTiles_makes (hsoc : p.npu.soc ∈ Npu.socTable) (hK : K < 2 ^ 31) (hN : N < 2 ^ 31) (hrows : K % 32 = 0)
    (hcols : N % 32 = 0) : Makes reqs (wholeAsks p K N)
      (fun t => Whole (packAll p .i8 K N) t ∧ t.Bf.isSome = wantsBf p .i8 K) (orkiPackTiles (p.granted reqs) .i8 K N) :=
  packTiles_makes hsoc hK hN hrows hcols fun _ ht => attach_makes (given_created _) ht

/-- The kernel refuses the full-K copy. -/
theorem orkiPackTiles_refused (hsoc : p.npu.soc ∈ Npu.socTable) (hK : K < 2 ^ 31) (hN : N < 2 ^ 31) (hrows : K % 32 = 0)
    (hcols : N % 32 = 0) (hpos : 0 < N) (hwant : wantsBf p .i8 K = true) : Makes reqs (packAsks p K N ++ [none])
      (fun t => Whole (packTiled p .i8 K N) t ∧ t.Bf.isSome = false) (orkiPackTiles (p.granted reqs) .i8 K N) := by
  refine packTiles_makes hsoc hK hN hrows hcols fun t ht => ?_
  rw [hwant]
  refine attach_refused ?_ ht
  have hn : p.npu.soc.nmax = 8192 := Pack.socTable_nmax hsoc
  have hlen : (bfBytes (i8Geom p K N)).length = pieces N p.npu.soc.nmax := bfBytes_length
  have hsome : 0 < pieces N p.npu.soc.nmax := (Lib.lt_pieces_iff (by omega)).mpr (by omega)
  exact List.ne_nil_of_length_pos (by omega)

theorem orkI4MmPackTiles_makes (hrows : K % 32 = 0) (hcols : N % 64 = 0) :
    Makes reqs ((tileBytes (i4Geom p K N) 1 2).map some) (Whole (tiled4 p K N)) (orkI4MmPackTiles (p.granted reqs) K N) := by
  unfold orkI4MmPackTiles
  rw [if_neg (by omega)]
  exact (placeTiles_makes (given_created _)).mono fun _ ht => ht.whole

/-- Rescue tiles one after another. -/
theorem packSubs_makes {pack : Nat → Nat → Prog Session (Option Tiles)} {asks : Nat × Nat → Requests} {size : Nat × Nat → Nat}
    {dims : List (Nat × Nat)} (h : ∀ d ∈ dims, Makes reqs (asks d) (Whole (size d)) (pack d.1 d.2)) (rest : Requests) :
    Triple (Ready reqs (dims.flatMap asks ++ rest)) (packSubs pack dims) fun r s =>
      (r.2 = true ∧ bytes (r.1.flatMap Tiles.claims) = (dims.map size).sum) ∧ Ready reqs rest s := by
  induction dims with
  | nil => exact Triple.pure fun _ hs => ⟨⟨rfl, rfl⟩, hs⟩
  | cons d dims ih =>
      rw [List.flatMap_cons, List.append_assoc]
      refine (h d List.mem_cons_self _).bind fun o => ?_
      rintro s ⟨⟨t, rfl, hlocal, hsize⟩, hs⟩
      have hrest : Triple (Ready reqs (dims.flatMap asks ++ rest)) (packSubs pack dims >>= fun r => pure (t :: r.1, r.2))
          fun r s => (r.2 = true ∧ bytes (r.1.flatMap Tiles.claims) = ((d :: dims).map size).sum) ∧ Ready reqs rest s := by
        refine (ih fun d hd => h d (List.mem_cons_of_mem _ hd)).bind fun r => Triple.pure fun s hs => ⟨⟨hs.1.1, ?_⟩, hs.2⟩
        rw [List.flatMap_cons, bytes_append, hlocal.claims_eq, hsize, hs.1.2, List.map_cons, List.sum_cons]
      exact hrest s hs

theorem slicePack_makes {pack : Nat → Nat → Prog Session (Option Tiles)} {asks : Nat × Nat → Requests} {size : Nat × Nat → Nat}
    {dims : List (Nat × Nat)} (h : ∀ d ∈ dims, Makes reqs (asks d) (Whole (size d)) (pack d.1 d.2)) (rest : Requests) :
    Triple (Ready reqs (dims.flatMap asks ++ rest)) (slicePack (p.granted reqs) pack dims) fun o s =>
      (∃ l, o = some l ∧ bytes (l.flatMap Tiles.claims) = (dims.map size).sum) ∧ Ready reqs rest s := by
  refine (hostGroups_ready [1, 2]).bind fun ok => Triple.ite (fun _ => ?_) fun hok => fun s hs => absurd hs.1 hok
  refine ((packSubs_makes h rest).pre fun s hs => hs.2).bind fun r => Triple.ite (fun _ => ?_) fun hr => fun s hs =>
    absurd hs.1.1 hr
  exact Triple.pure fun s hs => ⟨⟨_, rfl, hs.1.2⟩, hs.2⟩

/-- A weight and its rescue tiles. -/
theorem rescue_makes {m : Prog Session (Option Tiles)} {want : Tiles → Bool} {pack : Prog Session (Option (List Tiles))}
    {asks subs : Requests} {n k : Nat} {resc : Prop} [Decidable resc]
    (hm : Makes reqs asks (fun t => Whole n t ∧ (want t = true ∧ 0 < K ∧ 0 < N ↔ resc)) m)
    (hpack : resc → ∀ rest, Triple (Ready reqs (subs ++ rest)) pack fun o s =>
      (∃ l, o = some l ∧ bytes (l.flatMap Tiles.claims) = k) ∧ Ready reqs rest s) :
    Triple (Ready reqs (asks ++ if resc then subs else [])) (rescue m want K N pack) fun o _ =>
      ∃ w, o = some w ∧ bytes w.claims = n + if resc then k else 0 := by
  refine (hm _).bind fun o => ?_
  rintro s ⟨⟨t, rfl, ⟨hlocal, hsize⟩, hwant⟩, hs⟩
  by_cases hr : resc
  · have hrun : Triple (Ready reqs (subs ++ [])) (if want t = true ∧ 0 < K ∧ 0 < N then pack >>= fun sl => pure (some ⟨t, sl⟩)
        else pure (some ⟨t, none⟩) : Prog Session (Option OrkW)) fun o _ =>
        ∃ w, o = some w ∧ bytes w.claims = n + if resc then k else 0 := by
      rw [if_pos (hwant.mpr hr), if_pos hr]
      refine (hpack hr []).bind fun sl => ?_
      rintro s ⟨⟨l, rfl, hl⟩, -⟩
      refine ⟨_, rfl, ?_⟩
      rw [rescue_claims hlocal, bytes_append, Option.getD_some, hsize, hl]
    rw [if_pos hr] at hs
    refine hrun s ?_
    rw [List.append_nil]
    exact hs
  · have hno : ¬ (want t = true ∧ 0 < K ∧ 0 < N) := fun h => hr (hwant.mp h)
    change ∃ w, (((if want t = true ∧ 0 < K ∧ 0 < N then pack >>= fun sl => pure (some ⟨t, sl⟩)
        else pure (some ⟨t, none⟩) : Prog Session (Option OrkW)) s).1 = some w ∧ _)
    rw [if_neg hno, if_neg hr]
    refine ⟨_, rfl, ?_⟩
    rw [rescue_claims hlocal, bytes_append, hsize]
    rfl

end

end OrkDriver.Weights
