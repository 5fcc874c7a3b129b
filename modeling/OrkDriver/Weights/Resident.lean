import OrkDriver.Weights.Reclaimed

/-!
`ork_w_resident_bytes` (`npu/core/buf.c`), the estimate of what a weight will occupy, and what the steps of the
constructors do take.
-/

namespace OrkDriver.Weights

open OrkDriver.Lib (Prog Yields Triple pieces pieceLen)
open OrkDriver.Mem (BufEnv Buf Source Answers Session Owes orkDom orkiPgup Device Fate)
open OrkDriver.Pack (Geom)

/-! ### Bytes -/

/-- Bytes of buffers. -/
def bytes (l : List Buf) : Nat := (l.map Buf.size).sum

/-- Bytes of buffers asked for with these sizes. -/
def paged (sizes : List Nat) : Nat := (sizes.map orkiPgup).sum

/-- Bytes of the buffers that are live in `s` beyond `s₀`, those the context took over apart. -/
def taken (s₀ s : Session) : Nat := bytes s.proc.live + bytes s₀.ctx - (bytes s₀.proc.live + bytes s.ctx)

/-- `ork_w_resident_bytes`; `noBf` says that `ORK_NO_BF` is set. -/
def orkWResidentBytes (noBf : Bool) (c : Option Npu.OrkNpu) (K N wbits : Nat) (wantBf : Int) : Nat :=
  if K = 0 ∨ N = 0 then 0
  else
    let g : Geom := ⟨if wbits = 8 then 1024 else Core.orkI4Ks, (c.map fun c => c.soc.nmax).getD 8192, K, N⟩
    let tot := paged (tileBytes g 1 (if wbits = 8 then 1 else 2))
    let bf := if wantBf < 0 then !noBf else decide (wantBf ≠ 0)
    if wbits = 8 ∧ K ≤ 10752 ∧ bf = true then tot + paged (bfBytes g) else tot

theorem bytes_append (l m : List Buf) : bytes (l ++ m) = bytes l + bytes m := by
  unfold bytes
  rw [List.map_append, List.sum_append]

theorem bytes_singleton (b : Buf) : bytes [b] = b.size := Nat.add_zero _

theorem bytes_perm {l m : List Buf} (h : l.Perm m) : bytes l = bytes m := (h.map Buf.size).sum_eq

theorem bytes_of_sizes {l : List Buf} {sizes : List Nat} (h : l.map Buf.size = sizes.map orkiPgup) : bytes l = paged sizes :=
  congrArg List.sum h

theorem paged_append (a b : List Nat) : paged (a ++ b) = paged a + paged b := by
  unfold paged
  rw [List.map_append, List.sum_append]

theorem orkiPgup_of_dvd {n : Nat} (h : 4096 ∣ n) : orkiPgup n ≤ n := by
  unfold orkiPgup
  obtain ⟨m, rfl⟩ := h
  have := Nat.mod_le (4096 * m + 4095) (2 ^ 64)
  omega

theorem dvd_paged (sizes : List Nat) : 4096 ∣ paged sizes := by
  refine List.dvd_sum fun x hx => ?_
  obtain ⟨n, -, rfl⟩ := List.mem_map.mp hx
  exact Nat.dvd_mul_left _ _

theorem orkiPgup_orkiPgup (n : Nat) : orkiPgup (orkiPgup n) = orkiPgup n := by
  unfold orkiPgup
  omega

theorem paged_paged (sizes : List Nat) : paged (sizes.map orkiPgup) = paged sizes := by
  unfold paged
  rw [List.map_map]
  refine congrArg List.sum (List.map_congr_left fun n _ => ?_)
  exact orkiPgup_orkiPgup n

variable {v : BufEnv} {a : Answers} {p : Packer} {D dom : Int} {s₀ s : Session} {l : List Buf} {r : List Nat} {src : Source}

theorem taken_of_owes (h : Owes v D s₀ l r s) : taken s₀ s = bytes l := by
  obtain ⟨k, hctx, hlive⟩ := h.live
  unfold taken
  rw [hctx, bytes_perm hlive, bytes_append, bytes_append, bytes_append]
  omega

/-- The estimate for a weight on the context, following `ORK_NO_BF`. -/
theorem resident_eq {noBf : Bool} {c : Npu.OrkNpu} {K N wbits : Nat} :
    orkWResidentBytes noBf (some c) K N wbits (-1) =
      if K = 0 ∨ N = 0 then 0
      else
        let g : Geom := ⟨if wbits = 8 then 1024 else Core.orkI4Ks, c.soc.nmax, K, N⟩
        paged (tileBytes g 1 (if wbits = 8 then 1 else 2)) +
          if wbits = 8 ∧ K ≤ 10752 ∧ noBf = false then paged (bfBytes g) else 0 := by
  unfold orkWResidentBytes
  refine if_congr Iff.rfl rfl ?_
  dsimp only [Option.map_some, Option.getD_some]
  have hbf : ((if (-1 : Int) < 0 then !noBf else decide ((-1 : Int) ≠ 0)) = true) ↔ noBf = false := by
    cases noBf <;> decide
  by_cases hw : wbits = 8 ∧ K ≤ 10752 ∧ noBf = false
  · rw [if_pos hw, if_pos ⟨hw.1, hw.2.1, hbf.mpr hw.2.2⟩]
  · rw [if_neg hw, if_neg fun h => hw ⟨h.1, h.2.1, hbf.mp h.2.2⟩, Nat.add_zero]

/-! ### The shared steps -/

theorem settle_size (d : Device) {dom : Int} {need : Nat} (f : Fate) :
    (d.settle dom need f).1.cpu = true → (d.settle dom need f).1.size = need := by
  cases f with
  | made => exact fun _ => rfl
  | refused => exact fun h => absurd h Bool.false_ne_true
  | stray => exact fun h => absurd h Bool.false_ne_true
  | strayHeld => exact fun h => absurd h Bool.false_ne_true

theorem create_size (size : Nat) : Yields (Mem.create v a src dom size) fun b => b.cpu = true → b.size = orkiPgup size := by
  intro s
  cases src with
  | created sram =>
      change (Mem.orkiBcreate v s.proc.dev size sram dom (a.create s.calls)).1.cpu = true →
        (Mem.orkiBcreate v s.proc.dev size sram dom (a.create s.calls)).1.size = _
      unfold Mem.orkiBcreate
      split
      · exact fun h => absurd h Bool.false_ne_true
      · exact settle_size _ _
  | imported =>
      change (Mem.orkiBimportF v s.proc.dev size dom (a.imp s.calls)).1.cpu = true →
        (Mem.orkiBimportF v s.proc.dev size dom (a.imp s.calls)).1.size = _
      unfold Mem.orkiBimportF
      split_ifs
      · exact fun h => absurd h Bool.false_ne_true
      · exact fun h => absurd h Bool.false_ne_true
      · exact fun h => absurd h Bool.false_ne_true
      · split
        · exact fun h => absurd h Bool.false_ne_true
        · exact settle_size _ _
  | adopted dbuf =>
      change (Mem.orkiBimportFd v s.proc.dev dbuf size dom (a.imp s.calls)).1.cpu = true →
        (Mem.orkiBimportFd v s.proc.dev dbuf size dom (a.imp s.calls)).1.size = _
      unfold Mem.orkiBimportFd
      split_ifs
      · exact fun h => absurd h Bool.false_ne_true
      · exact fun h => absurd h Bool.false_ne_true
      · split
        · exact fun h => absurd h Bool.false_ne_true
        · exact settle_size _ _

theorem createTiles_sizes (sizes : List Nat) :
    Yields (Mem.createTiles v a src dom sizes) fun r => r.2 = true → r.1.map Buf.size = sizes.map orkiPgup := by
  induction sizes with
  | nil => exact Yields.pure fun _ => rfl
  | cons n ns ih =>
      refine (create_size n).bind fun b hb => Yields.ite (fun hcpu => ?_) fun _ => Yields.pure fun h => absurd h Bool.false_ne_true
      refine ih.bind fun o ho => Yields.pure fun h => ?_
      rw [List.map_cons, List.map_cons, hb hcpu, ho h]

theorem createOrNone_bytes (sizes : List Nat) :
    Yields (Mem.createOrNone v a src dom sizes) fun o => ∀ bs ∈ o, bytes bs = paged sizes := by
  refine (createTiles_sizes sizes).bind fun o ho => Yields.ite (fun h => ?_) fun _ => ?_
  · exact Yields.pure fun bs hbs => Option.some.inj hbs ▸ bytes_of_sizes (ho h)
  · exact Yields.after fun _ => Yields.pure fun _ h => nomatch h

/-- Whatever it finds, a weight made by `m` satisfies `P` and reclaims at most `n` bytes. -/
def Weighs (P : Tiles → Prop) (n : Nat) (m : Prog Session (Option Tiles)) : Prop :=
  Yields m fun o => ∀ t ∈ o, P t ∧ bytes t.reclaims ≤ n

variable {P Q : Tiles → Prop} {n k : Nat} {m m' : Prog Session (Option Tiles)}

theorem weighs_none : Weighs P n (pure none) := Yields.pure fun _ h => nomatch h

theorem Weighs.ite {c : Prop} [Decidable c] (ht : c → Weighs P n m) (he : ¬ c → Weighs P n m') :
    Weighs P n (if c then m else m') := Yields.ite ht he

theorem Weighs.mono (h : Weighs P n m) (hk : n ≤ k) : Weighs P k m :=
  Yields.mono h fun _ ho t ht => ⟨(ho t ht).1, (ho t ht).2.trans hk⟩

theorem Weighs.andThen {f : Tiles → Prog Session (Option Tiles)} (hm : Weighs P n m)
    (hf : ∀ t, P t → Weighs Q (bytes t.reclaims + k) (f t)) : Weighs Q (n + k) (andThen m f) := by
  refine Yields.bind hm fun o ho => ?_
  cases o with
  | none => exact weighs_none
  | some t =>
      obtain ⟨ht, hle⟩ := ho t rfl
      exact (hf t ht).mono (Nat.add_le_add_right hle k)

theorem reclaims_tiles {owns : Bool} (h : owns = true) (dom : Int) (Bb : List Buf) :
    bytes ({ Tiles.blank owns dom with Bb := Bb } : Tiles).reclaims = bytes Bb := by
  subst h
  exact congrArg bytes (List.append_nil Bb)

theorem placeTiles_bytes (sizes : List Nat) :
    Yields (placeTiles p src true dom sizes) fun o => ∀ t ∈ o, t.Fresh ∧ bytes t.reclaims = paged sizes := by
  refine (createOrNone_bytes sizes).bind fun o ho => ?_
  cases o with
  | none => exact Yields.pure fun _ h => nomatch h
  | some Bb =>
      refine Yields.pure fun t ht => ?_
      cases ht
      exact ⟨⟨⟨rfl, rfl, rfl⟩, rfl⟩, (reclaims_tiles rfl dom Bb).trans (ho Bb rfl)⟩

theorem placeTiles_weighs (sizes : List Nat) : Weighs Tiles.Fresh (paged sizes) (placeTiles p src true dom sizes) :=
  Yields.mono (placeTiles_bytes sizes) fun _ ho t ht => ⟨(ho t ht).1, (ho t ht).2.le⟩

/-- One buffer with the tiles as its parts takes no more than a buffer for each. -/
theorem placeOwn_weighs {sizes : List Nat} {shown : Nat → Nat} (hm : Weighs Tiles.Fresh (paged sizes) m) :
    Weighs Tiles.Fresh (paged sizes) (placeOwn p sizes shown m) := by
  refine (create_size _).bind fun own hown => Yields.ite (fun hcpu => ?_) fun _ => hm
  refine Yields.pure fun t ht => ?_
  cases ht
  refine ⟨⟨⟨rfl, rfl, rfl⟩, rfl⟩, ?_⟩
  change own.size + 0 ≤ paged sizes
  rw [Nat.add_zero, hown hcpu]
  exact orkiPgup_of_dvd (dvd_paged sizes)

/-- The sizes of the chunks that the loop of a consolidated import asks for: `cur` is how much of the current chunk is used
and its size, and the rest is as in `importChunks`. -/
def chunkSizes (csz : Nat → Nat → Nat) : Nat → Option (Nat × Nat) → List Nat → List Nat
  | _, _, [] => []
  | rem, cur, ts :: rest =>
    match cur.filter fun c => c.1 + ts ≤ c.2 with
    | some (coff, sz) => chunkSizes csz (rem - ts) (some (coff + ts, sz)) rest
    | none => csz rem ts :: chunkSizes csz (rem - ts) (some (ts, csz rem ts)) rest

/-- The turn of the chunk loop for one tile, as `importChunks` takes it. -/
theorem chunkSizes_cons (csz : Nat → Nat → Nat) (rem : Nat) (cur : Option (Buf × Nat × Nat)) (ts : Nat) (sizes : List Nat) :
    chunkSizes csz rem (cur.map Prod.snd) (ts :: sizes) =
      match cur.filter fun c => c.2.1 + ts ≤ c.2.2 with
      | some c => chunkSizes csz (rem - ts) (some (c.2.1 + ts, c.2.2)) sizes
      | none => csz rem ts :: chunkSizes csz (rem - ts) (some (ts, csz rem ts)) sizes := by
  cases cur with
  | none => rfl
  | some c =>
      rw [chunkSizes]
      by_cases hc : c.2.1 + ts ≤ c.2.2
      · rw [Option.map_some, Option.filter_some_pos (by simpa using hc), Option.filter_some_pos (by simpa using hc)]
      · rw [Option.map_some, Option.filter_some_neg (by simpa using hc), Option.filter_some_neg (by simpa using hc)]

theorem importChunks_sizes (csz : Nat → Nat → Nat) (rem : Nat) (cur : Option (Buf × Nat × Nat)) (sizes : List Nat) :
    Yields (importChunks p csz rem cur sizes) fun r => r.2.2 = true →
      r.2.1.map Buf.size = (chunkSizes csz rem (cur.map Prod.snd) sizes).map orkiPgup := by
  induction sizes generalizing rem cur with
  | nil => exact Yields.pure fun _ => rfl
  | cons ts rest ih =>
      unfold importChunks
      rw [chunkSizes_cons]
      cases cur.filter fun c => c.2.1 + ts ≤ c.2.2 with
      | some c => exact (ih _ (some (c.1, c.2.1 + ts, c.2.2))).bind fun o ho => Yields.pure ho
      | none =>
          refine (create_size _).bind fun b hb => Yields.ite (fun hcpu => ?_) fun _ => Yields.pure fun h => absurd h Bool.false_ne_true
          refine (ih _ (some (b, ts, csz rem ts))).bind fun o ho => Yields.pure fun h => ?_
          rw [List.map_cons, List.map_cons, hb hcpu, ho h]
          rfl

/-- Bytes of the chunks of a consolidated import. -/
def chunkBytes (csz : Nat → Nat → Nat) (sizes : List Nat) : Nat :=
  paged (chunkSizes csz (paged sizes) none (sizes.map orkiPgup))

theorem placeImported_weighs (csz : Nat → Nat → Nat) (sizes : List Nat) :
    Weighs Tiles.Fresh (if p.k.noConsolidateImport then paged sizes else max (paged sizes) (chunkBytes csz sizes))
      (placeImported p csz sizes) := by
  unfold placeImported
  by_cases hno : p.k.noConsolidateImport = true
  · rw [if_pos hno, if_pos hno]
    exact placeTiles_weighs sizes
  rw [if_neg hno, if_neg hno]
  refine (importChunks_sizes csz _ none _).bind fun o ho => Yields.ite (fun h => ?_) fun _ => ?_
  · refine Yields.pure fun t ht => ?_
    cases ht
    refine ⟨⟨⟨rfl, rfl, rfl⟩, rfl⟩, le_trans (le_of_eq ?_) (le_max_right _ _)⟩
    exact bytes_of_sizes (ho h)
  · exact Yields.after fun _ => (placeTiles_weighs sizes).mono (le_max_left _ _)

/-- What the full-K copies take where they are made. -/
theorem attachBf_bytes {want : Bool} {g : Geom} {t : Tiles} (ht : t.Fresh) :
    Yields (attachBf p src dom want g t) fun t' => t'.Local ∧
      bytes t'.reclaims = bytes t.reclaims + if t'.Bf.isSome then paged (bfBytes g) else 0 := by
  refine Yields.ite (fun _ => ?_) fun _ => Yields.pure ⟨ht.toLocal, ?_⟩
  · refine (createOrNone_bytes _).bind fun o ho => Yields.pure ⟨⟨ht.orkd, ht.codes, ht.noFull⟩, ?_⟩
    rw [← bytes_perm (ht.reclaims_perm), bytes_append, natives_map, Nat.add_comm]
    refine congrArg _ ?_
    cases o with
    | none => rfl
    | some bs => exact ho bs rfl
  · rw [ht.noBf]
    rfl

/-- No more than where they are wanted. -/
theorem attachBf_le {want : Bool} {g : Geom} {t : Tiles} (ht : t.Fresh) :
    Yields (attachBf p src dom want g t) fun t' => t'.Local ∧
      bytes t'.reclaims ≤ bytes t.reclaims + if want then paged (bfBytes g) else 0 := by
  by_cases hw : want = true
  · refine (attachBf_bytes ht).mono fun t' h => ⟨h.1, ?_⟩
    rw [h.2, if_pos hw]
    split <;> omega
  · unfold attachBf
    rw [if_neg hw, if_neg hw]
    exact Yields.pure ⟨ht.toLocal, le_rfl⟩

theorem attach_weighs {want : Bool} {g : Geom} {t : Tiles} (ht : t.Fresh) :
    Weighs Tiles.Local (bytes t.reclaims + if want then paged (bfBytes g) else 0) (do
      let t ← attachBf p src dom want g t
      pure (some t)) := by
  refine (attachBf_le ht).bind fun t' h => Yields.pure fun u hu => ?_
  cases hu
  exact h

theorem finish_weighs {groups : List Nat} {cleanup : Tiles → Prog Session Unit} {t : Tiles} (ht : P t) :
    Weighs P (bytes t.reclaims + 0) (finish p groups cleanup t) := by
  refine Yields.after fun ok => Yields.ite (fun _ => Yields.pure fun u hu => ?_) fun _ => Yields.after fun _ => weighs_none
  cases hu
  exact ⟨ht, le_rfl⟩

theorem i8Tiles_weighs {want : Bool} {g : Geom} :
    Weighs Tiles.Local (paged (tileBytes g 1 1) + if want then paged (bfBytes g) else 0) (i8Tiles p src true dom want g) :=
  (placeTiles_weighs _).andThen fun _ ht => attach_weighs ht

end OrkDriver.Weights
