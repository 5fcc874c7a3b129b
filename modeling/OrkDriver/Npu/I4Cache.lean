import OrkDriver.Npu.I4Synth

/-!
When the cached int4 synthesis (`orki_i4_synth`) leaves the words of the full one: the cache knows the overrides by their
low 31 bits only.
-/

namespace OrkDriver.Npu

/-! ### Register writes as a function of the register -/

/-- The register of a write. -/
def RegOvr.key (w : RegOvr) : BitVec 32 × BitVec 32 := (w.blk, w.reg)

/-- The pair of words that writes `v` to a register. -/
def encode (k : BitVec 32 × BitVec 32) (v : BitVec 32) : BitVec 32 × BitVec 32 :=
  (k.2 ||| (v &&& 0xffff#32) <<< 16, k.1 <<< 16 ||| (v >>> 16 &&& 0xffff#32))

/-- The last value a list of writes gives a register. -/
def lastOf : List RegOvr → BitVec 32 × BitVec 32 → Option (BitVec 32)
  | [], _ => none
  | w :: ws, k => (lastOf ws k).or (if w.key = k then some w.val else none)

theorem lastOf_append (ws ws' : List RegOvr) (k : BitVec 32 × BitVec 32) :
    lastOf (ws ++ ws') k = (lastOf ws' k).or (lastOf ws k) := by
  induction ws with
  | nil => simp [lastOf]
  | cons w ws ih => rw [List.cons_append, lastOf, lastOf, ih, Option.or_assoc]

/-- A pair of words is the code of what it says. -/
theorem encode_self (w : BitVec 32 × BitVec 32) : encode (keyOf w) (valOf w) = w := by
  have hmask : ∀ i (h : i < 32), (0xffff#32)[i] = decide (i < 16) := by decide
  unfold encode keyOf valOf
  refine Prod.ext ?_ ?_
  · ext i hi
    simp [hmask]
    grind
  · ext i hi
    simp [hmask]
    grind

/-- After a list of writes every pair of words is the code of the last value given, or of its own. -/
theorem setrAll_eq (ws : List RegOvr) (rc : List (BitVec 32 × BitVec 32)) :
    setrAll ws rc = rc.map fun w => encode (keyOf w) ((lastOf ws (keyOf w)).getD (valOf w)) := by
  induction ws generalizing rc with
  | nil =>
    simp only [setrAll, List.foldl_nil, lastOf, Option.getD_none, encode_self, List.map_id']
  | cons x ws ih =>
    have hstep : setrAll (x :: ws) rc = setrAll ws (orkiSetr rc x.blk x.reg x.val) := rfl
    rw [hstep, ih, orkiSetr, List.map_map]
    refine List.map_congr_left fun w _ => ?_
    rw [Function.comp_apply, lastOf]
    by_cases hw : keyOf w = (x.blk, x.reg)
    · obtain ⟨hkey, hval⟩ := keyOf_setr x.val hw
      have hk : x.key = keyOf w := hw.symm
      rw [if_pos hw, if_pos hk, hkey, hval, hw]
      cases lastOf ws (x.blk, x.reg) <;> rfl
    · have hk : ¬ x.key = keyOf w := fun h => hw h.symm
      rw [if_neg hw, if_neg hk, Option.or_none]

theorem keyOf_encode (w : BitVec 32 × BitVec 32) (v : BitVec 32) :
    keyOf (encode (keyOf w) v) = keyOf w ∧ valOf (encode (keyOf w) v) = v := keyOf_setr v rfl

theorem setrAll_append (ws ws' : List RegOvr) (rc : List (BitVec 32 × BitVec 32)) :
    setrAll (ws ++ ws') rc = setrAll ws' (setrAll ws rc) := List.foldl_append

theorem keys_setrAll (ws : List RegOvr) (rc : List (BitVec 32 × BitVec 32)) :
    (setrAll ws rc).map keyOf = rc.map keyOf := by
  rw [setrAll_eq, List.map_map]
  exact List.map_congr_left fun w _ => (keyOf_encode w _).1

/-- Two lists of writes leave the same words when they leave the same value in every register of the image. -/
theorem setrAll_eq_iff (ws ws' : List RegOvr) (rc : List (BitVec 32 × BitVec 32)) : setrAll ws rc = setrAll ws' rc ↔
    ∀ w ∈ rc, (lastOf ws (keyOf w)).getD (valOf w) = (lastOf ws' (keyOf w)).getD (valOf w) := by
  rw [setrAll_eq, setrAll_eq, List.map_inj_left]
  refine forall₂_congr fun w _ => ⟨fun h => ?_, fun h => by rw [h]⟩
  have hval := congrArg valOf h
  rwa [(keyOf_encode w _).2, (keyOf_encode w _).2] at hval

/-! ### The patch -/

theorem getElem?_foldl_set {α : Type*} (sl : List Nat) (rc : List α) (e : α) (j : Nat) :
    (sl.foldl (fun rc i => rc.set i e) rc)[j]? = if j ∈ sl ∧ j < rc.length then some e else rc[j]? := by
  induction sl generalizing rc with
  | nil => simp
  | cons i sl ih =>
    rw [List.foldl_cons, ih, List.length_set, List.getElem?_set]
    by_cases hj : j ∈ sl ∧ j < rc.length
    · rw [if_pos hj, if_pos ⟨List.mem_cons_of_mem i hj.1, hj.2⟩]
    · rw [if_neg hj]
      by_cases hi : i = j
      · subst hi
        by_cases hl : i < rc.length
        · rw [if_pos rfl, if_pos hl, if_pos ⟨List.mem_cons_self, hl⟩]
        · rw [if_pos rfl, if_neg hl, if_neg fun h => hl h.2, List.getElem?_eq_none (Nat.le_of_not_lt hl)]
      · rw [if_neg hi, if_neg fun h => hj ⟨(List.mem_cons.mp h.1).resolve_left (Ne.symm hi), h.2⟩]

/-- Writing the slots of a register is writing the register. -/
theorem i4tPut_eq {rc : List (BitVec 32 × BitVec 32)} {w : RegOvr} {sl : List Nat}
    (h : ∀ i, i ∈ sl ↔ i < rc.length ∧ (rc[i]?.map keyOf) = some w.key) :
    i4tPut rc w sl = orkiSetr rc w.blk w.reg w.val := by
  refine List.ext_getElem? fun j => ?_
  rw [i4tPut, getElem?_foldl_set, orkiSetr, List.getElem?_map]
  cases hj : rc[j]? with
  | none =>
    have hl : ¬ j < rc.length := by simpa using hj
    rw [if_neg fun hc => hl hc.2]
    rfl
  | some x =>
    have hl : j < rc.length := (List.getElem?_eq_some_iff.mp hj).1
    rw [Option.map_some]
    by_cases hx : keyOf x = (w.blk, w.reg)
    · rw [if_pos ⟨(h j).mpr ⟨hl, by rw [hj, Option.map_some, hx]; rfl⟩, hl⟩, if_pos hx]
    · rw [if_neg hx, if_neg]
      rintro ⟨hmem, -⟩
      have := ((h j).mp hmem).2
      rw [hj, Option.map_some] at this
      exact hx (Option.some.inj this)

/-- The slots stay the slots as long as the registers do. -/
theorem mem_i4tFind {rc rc' : List (BitVec 32 × BitVec 32)} (hkeys : rc'.map keyOf = rc.map keyOf) (w : RegOvr) (i : Nat) :
    i ∈ i4tFind rc w ↔ i < rc'.length ∧ (rc'[i]?.map keyOf) = some w.key := by
  have hlen : rc'.length = rc.length := by simpa using congrArg List.length hkeys
  have hget : rc'[i]?.map keyOf = rc[i]?.map keyOf := by
    rw [← List.getElem?_map, ← List.getElem?_map, hkeys]
  unfold i4tFind
  rw [List.mem_filter, List.mem_range, hlen, hget, decide_eq_true_eq]
  rfl

/-- An entry as the calls leave it. -/
structure I4Tmpl.Made (mregs : BitVec 32) (t : I4Tmpl) : Prop where
  plain : t.made.fovr = []
  image : t.rc = orkiI4SynthFull mregs t.made
  slots : t.sl = (i4Addr t.made).map (i4tFind t.rc)

/-- Patching an entry is writing the addresses into its image. -/
theorem patch_eq {mregs : BitVec 32} {t : I4Tmpl} (h : t.Made mregs) (c : I4Call) :
    patch t c = setrAll (i4Addr c) t.rc := by
  have hput : ∀ rc w w', rc.map keyOf = t.rc.map keyOf → w.key = RegOvr.key w' →
      i4tPut rc w (i4tFind t.rc w') = orkiSetr rc w.blk w.reg w.val := by
    intro rc w w' hkeys hw
    refine i4tPut_eq fun i => ?_
    rw [mem_i4tFind hkeys, hw]
  have hkeep : ∀ rc b o v, rc.map keyOf = t.rc.map keyOf → (orkiSetr rc b o v).map keyOf = t.rc.map keyOf := by
    intro rc b o v hkeys
    exact (keys_setrAll [⟨b, o, v⟩] rc).trans hkeys
  rw [patch, h.slots]
  simp only [i4Addr, List.map_cons, List.map_nil, List.zip_cons_cons, List.zip_nil_left, List.foldl_cons, List.foldl_nil,
    setrAll]
  have hA := hput t.rc ⟨0x201, 0x1070, c.aA⟩ ⟨0x201, 0x1070, t.made.aA⟩ rfl rfl
  have hB := hput (orkiSetr t.rc 0x201 0x1070 c.aA) ⟨0x201, 0x1110, c.aB⟩ ⟨0x201, 0x1110, t.made.aB⟩
    (hkeep _ _ _ _ rfl) rfl
  have hC := hput (orkiSetr (orkiSetr t.rc 0x201 0x1070 c.aA) 0x201 0x1110 c.aB) ⟨0x1001, 0x4020, c.aC⟩
    ⟨0x1001, 0x4020, t.made.aC⟩ (hkeep _ _ _ _ (hkeep _ _ _ _ rfl)) rfl
  rw [hA, hB, hC]

/-! ### What the overrides come to -/

/-- `0x1040`, `0x1010` and `0x1078` of a batch: the override, or what the call has without. -/
def cbufCon0Of (mregs : BitVec 32) (c : I4Call) : BitVec 32 :=
  (c.env.r1040.or (splitKnob c.env.dbnk)).getD
    (if mregs &&& 0x20 ≠ 0 then BitVec.ofInt 32 (i4Schedule c.mc c.K) else 0xb1)

def convCon2Of (mregs : BitVec 32) (c : I4Call) : BitVec 32 :=
  c.env.r1010.getD (if mregs &&& 0x10 ≠ 0 then BitVec.ofInt 32 (16 * (2 * c.mc + 1)) else 0x20)

def dmaCon0Of (c : I4Call) : BitVec 32 := c.env.burst.getD 0x000f000f

/-- The overrides of two calls of one shape come to the same. -/
def SameKnobs (mregs : BitVec 32) (c c' : I4Call) : Prop :=
  1 < c.mc → cbufCon0Of mregs c = cbufCon0Of mregs c' ∧ convCon2Of mregs c = convCon2Of mregs c' ∧ dmaCon0Of c = dmaCon0Of c'

/-- The three registers. -/
def cbuf0 : BitVec 32 × BitVec 32 := (0x201, 0x1040)

def conv2 : BitVec 32 × BitVec 32 := (0x201, 0x1010)

def dma0 : BitVec 32 × BitVec 32 := (0x201, 0x1078)

theorem lastOf_ite (p : Prop) [Decidable p] (ws : List RegOvr) (k : BitVec 32 × BitVec 32) :
    lastOf (if p then ws else []) k = if p then lastOf ws k else none := by
  split_ifs <;> rfl

theorem lastOf_option (o : Option (BitVec 32)) (b r : BitVec 32) (k : BitVec 32 × BitVec 32) :
    lastOf (o.map fun v => ⟨b, r, v⟩).toList k = if (b, r) = k then o else none := by
  cases o with
  | none => simp [lastOf]
  | some v =>
    change (none : Option (BitVec 32)).or (if (b, r) = k then some v else none) = _
    rw [Option.none_or]

/-- What the overrides leave in a register. -/
theorem lastOf_override (e : I4Overrides) (k : BitVec 32 × BitVec 32) : lastOf (i4Override e) k =
    if cbuf0 = k then e.r1040.or (splitKnob e.dbnk) else if conv2 = k then e.r1010 else if dma0 = k then e.burst
      else none := by
  have hab : cbuf0 ≠ conv2 := by decide
  have hac : cbuf0 ≠ dma0 := by decide
  have hbc : conv2 ≠ dma0 := by decide
  unfold i4Override
  rw [lastOf_append, lastOf_append, lastOf_append, lastOf_option, lastOf_option, lastOf_option, lastOf_option]
  change (if dma0 = k then e.burst else none).or ((if conv2 = k then e.r1010 else none).or
    ((if cbuf0 = k then e.r1040 else none).or (if cbuf0 = k then splitKnob e.dbnk else none))) = _
  by_cases h0 : cbuf0 = k
  · subst h0
    simp [hab.symm, hac.symm]
  · by_cases h1 : conv2 = k
    · subst h1
      simp [h0, hbc.symm]
    · simp [h0, h1]

/-- What a batch has in the three registers without the overrides. -/
theorem lastOf_batch (mregs : BitVec 32) (mc K N : Int) (dense : BitVec 32) :
    ((lastOf (i4Batch mregs mc K N dense) cbuf0).or (lastOf (i4Shape K N) cbuf0) =
      if mregs &&& 0x20 ≠ 0 then some (BitVec.ofInt 32 (i4Schedule mc K)) else none) ∧
    ((lastOf (i4Batch mregs mc K N dense) conv2).or (lastOf (i4Shape K N) conv2) =
      if mregs &&& 0x10 ≠ 0 then some (BitVec.ofInt 32 (16 * (2 * mc + 1))) else none) ∧
    (lastOf (i4Batch mregs mc K N dense) dma0).or (lastOf (i4Shape K N) dma0) = none := by
  simp only [i4Batch, i4Shape, lastOf_append, lastOf_ite]
  refine ⟨?_, ?_, ?_⟩ <;> simp [lastOf, RegOvr.key, cbuf0, conv2, dma0]

/-- What the image has in the three registers. -/
theorem regcmdI4_values : regcmdI4.all (fun w => (keyOf w = cbuf0 → valOf w = 0xb1) ∧ (keyOf w = conv2 → valOf w = 0x20) ∧
    (keyOf w = dma0 → valOf w = 0x000f000f)) = true := by decide

theorem regcmdI4_has : (regcmdI4.any fun w => keyOf w = cbuf0) = true ∧ (regcmdI4.any fun w => keyOf w = conv2) = true ∧
    (regcmdI4.any fun w => keyOf w = dma0) = true := by decide

/-! ### A cached image and the full one -/

/-- Every call writes the addresses to the same registers, and to none of the three. -/
theorem lastOf_addr (c c' : I4Call) (k : BitVec 32 × BitVec 32) (o : Option (BitVec 32)) :
    (lastOf (i4Addr c) k).or ((lastOf (i4Addr c') k).or o) = (lastOf (i4Addr c) k).or o := by
  have hwrites : ∀ d : I4Call, lastOf (i4Addr d) k = ((if (0x1001, 0x4020) = k then some d.aC else none).or
      (if (0x201, 0x1110) = k then some d.aB else none)).or (if (0x201, 0x1070) = k then some d.aA else none) := by
    intro d
    simp only [i4Addr, lastOf, RegOvr.key, Option.none_or]
    rfl
  rw [hwrites, hwrites]
  by_cases hC : ((0x1001, 0x4020) : BitVec 32 × BitVec 32) = k
  · rw [if_pos hC, if_pos hC]
    rfl
  rw [if_neg hC, if_neg hC, Option.none_or, Option.none_or]
  by_cases hB : ((0x201, 0x1110) : BitVec 32 × BitVec 32) = k
  · rw [if_pos hB, if_pos hB]
    rfl
  rw [if_neg hB, if_neg hB, Option.none_or, Option.none_or]
  by_cases hA : ((0x201, 0x1070) : BitVec 32 × BitVec 32) = k
  · rw [if_pos hA, if_pos hA]
    rfl
  · rw [if_neg hA, if_neg hA, Option.none_or]

theorem lastOf_addr_knob (c : I4Call) : lastOf (i4Addr c) cbuf0 = none ∧ lastOf (i4Addr c) conv2 = none ∧
    lastOf (i4Addr c) dma0 = none := by
  refine ⟨?_, ?_, ?_⟩ <;> simp [i4Addr, lastOf, RegOvr.key, cbuf0, conv2, dma0]

/-- What a batch has in a register before the overrides. -/
def i4Base (mregs : BitVec 32) (c : I4Call) (k : BitVec 32 × BitVec 32) : Option (BitVec 32) :=
  (lastOf (i4Batch mregs c.mc c.K c.N c.dense) k).or (lastOf (i4Shape c.K c.N) k)

theorem lastOf_body {mregs : BitVec 32} {c : I4Call} (hmc : 1 < c.mc) (k : BitVec 32 × BitVec 32) :
    lastOf (i4Body mregs c) k = (lastOf (i4Override c.env) k).or (i4Base mregs c k) := by
  rw [i4Body, if_pos hmc, lastOf_append, lastOf_append, Option.or_assoc]
  rfl

/-- The three values of a batch are what its writes leave in the image. -/
theorem body_knobs {mregs : BitVec 32} {c : I4Call} (hmc : 1 < c.mc) :
    (lastOf (i4Body mregs c) cbuf0).getD 0xb1 = cbufCon0Of mregs c ∧
    (lastOf (i4Body mregs c) conv2).getD 0x20 = convCon2Of mregs c ∧
    (lastOf (i4Body mregs c) dma0).getD 0x000f000f = dmaCon0Of c := by
  have hab : cbuf0 ≠ conv2 := by decide
  have hac : cbuf0 ≠ dma0 := by decide
  have hbc : conv2 ≠ dma0 := by decide
  obtain ⟨h0, h1, h2⟩ := lastOf_batch mregs c.mc c.K c.N c.dense
  rw [lastOf_body hmc, lastOf_body hmc, lastOf_body hmc, i4Base, i4Base, i4Base, h0, h1, h2, lastOf_override, lastOf_override,
    lastOf_override, if_pos rfl, if_neg hab, if_pos rfl, if_neg hac, if_neg hbc, if_pos rfl]
  refine ⟨?_, ?_, ?_⟩
  · rw [cbufCon0Of, Option.getD_or]
    split_ifs <;> rfl
  · rw [convCon2Of, Option.getD_or]
    split_ifs <;> rfl
  · rw [dmaCon0Of, Option.or_none]

/-- An entry that answers has the call's shape and packing. -/
theorem I4Tmpl.hits_shape {c : I4Call} {t : I4Tmpl} (h : t.hits c = true) :
    t.made.mc = c.mc ∧ t.made.K = c.K ∧ t.made.N = c.N ∧ t.made.dense = c.dense := by
  obtain ⟨hmc, hK, hN, hov⟩ := of_decide_eq_true h
  refine ⟨hmc, hK, hN, ?_⟩
  have hlast := congrArg List.getLast? hov
  simpa [i4Ov] using hlast

/-- A patched entry is the full synthesis of the call just when their overrides come to the same. -/
theorem patch_full_iff {mregs : BitVec 32} {t : I4Tmpl} {c : I4Call} (ht : t.Made mregs) (hhit : t.hits c = true)
    (hplain : c.fovr = []) : patch t c = orkiI4SynthFull mregs c ↔ SameKnobs mregs t.made c := by
  obtain ⟨hmc, hK, hN, hdense⟩ := I4Tmpl.hits_shape hhit
  have hcancel : patch t c = orkiI4SynthFull mregs c ↔ ∀ w ∈ regcmdI4, lastOf (i4Addr c) (keyOf w) = none →
      (lastOf (i4Body mregs t.made) (keyOf w)).getD (valOf w) = (lastOf (i4Body mregs c) (keyOf w)).getD (valOf w) := by
    rw [patch_eq ht, ht.image, orkiI4SynthFull, orkiI4SynthFull, ht.plain, hplain, List.append_nil, List.append_nil,
      ← setrAll_append, setrAll_eq_iff]
    refine forall₂_congr fun w _ => ?_
    rw [lastOf_append, lastOf_append, lastOf_append, lastOf_addr]
    cases lastOf (i4Addr c) (keyOf w) with
    | none => simp
    | some v => simp
  rw [hcancel]
  by_cases hb : 1 < c.mc
  · have hb' : 1 < t.made.mc := hmc ▸ hb
    have hbase : ∀ k, i4Base mregs t.made k = i4Base mregs c k := by
      intro k
      rw [i4Base, i4Base, hmc, hK, hN, hdense]
    obtain ⟨hm0, hm1, hm2⟩ := @body_knobs mregs t.made hb'
    obtain ⟨hc0, hc1, hc2⟩ := @body_knobs mregs c hb
    obtain ⟨ha0, ha1, ha2⟩ := lastOf_addr_knob c
    have hval := List.all_eq_true.mp regcmdI4_values
    constructor
    · intro h _
      obtain ⟨i0, i1, i2⟩ := regcmdI4_has
      obtain ⟨w0, hw0, hk0⟩ := List.any_eq_true.mp i0
      obtain ⟨w1, hw1, hk1⟩ := List.any_eq_true.mp i1
      obtain ⟨w2, hw2, hk2⟩ := List.any_eq_true.mp i2
      have e0 := of_decide_eq_true hk0
      have e1 := of_decide_eq_true hk1
      have e2 := of_decide_eq_true hk2
      have r0 := h w0 hw0 (e0 ▸ ha0)
      have r1 := h w1 hw1 (e1 ▸ ha1)
      have r2 := h w2 hw2 (e2 ▸ ha2)
      rw [e0, (of_decide_eq_true (hval w0 hw0)).1 e0, hm0, hc0] at r0
      rw [e1, (of_decide_eq_true (hval w1 hw1)).2.1 e1, hm1, hc1] at r1
      rw [e2, (of_decide_eq_true (hval w2 hw2)).2.2 e2, hm2, hc2] at r2
      exact ⟨r0, r1, r2⟩
    · intro hsame w hw _
      obtain ⟨s0, s1, s2⟩ := hsame hb'
      obtain ⟨v0, v1, v2⟩ := of_decide_eq_true (hval w hw)
      by_cases h0 : keyOf w = cbuf0
      · rw [v0 h0, h0, hm0, hc0, s0]
      by_cases h1 : keyOf w = conv2
      · rw [v1 h1, h1, hm1, hc1, s1]
      by_cases h2 : keyOf w = dma0
      · rw [v2 h2, h2, hm2, hc2, s2]
      rw [lastOf_body hb, lastOf_body hb', lastOf_override, lastOf_override, hbase, if_neg (Ne.symm h0), if_neg (Ne.symm h1),
        if_neg (Ne.symm h2), if_neg (Ne.symm h0), if_neg (Ne.symm h1), if_neg (Ne.symm h2)]
  · have hbody : i4Body mregs t.made = i4Body mregs c := by
      rw [i4Body, i4Body, hmc, hK, hN, if_neg hb, if_neg hb]
    rw [hbody]
    exact ⟨fun _ h => absurd (hmc ▸ h) hb, fun _ _ _ _ => rfl⟩

/-! ### A thread's calls -/

/-- Every way of the cache is as a call left it. -/
def I4Cache.Sound (mregs : BitVec 32) (s : I4Cache) : Prop :=
  (∀ t, s.way0 = some t → t.Made mregs) ∧ ∀ t, s.way1 = some t → t.Made mregs

theorem I4Cache.sound_empty (mregs : BitVec 32) : I4Cache.empty.Sound mregs :=
  ⟨fun _ h => (Option.some_ne_none _ h.symm).elim, fun _ h => (Option.some_ne_none _ h.symm).elim⟩

/-- The next way over is filled with the image of a plain call, or emptied. -/
theorem I4Cache.Sound.fill {mregs : BitVec 32} {s : I4Cache} {c : I4Call} {rc : List (BitVec 32 × BitVec 32)}
    (hs : s.Sound mregs) (hplain : c.fovr = []) (hrc : rc = orkiI4SynthFull mregs c) : (s.fill c rc).Sound mregs := by
  have hnew : ∀ t, (if ((i4Addr c).map (i4tFind rc)).all (fun l => 1 ≤ l.length ∧ l.length ≤ 4) then
      some (⟨c, rc, (i4Addr c).map (i4tFind rc)⟩ : I4Tmpl) else none) = some t → t.Made mregs := by
    intro t ht
    split_ifs at ht
    cases ht
    exact ⟨hplain, hrc, rfl⟩
  unfold I4Cache.fill
  dsimp only
  split
  · exact ⟨hs.1, hnew⟩
  · exact ⟨hnew, hs.2⟩

/-- The entry found is one of the two ways, and answers. -/
theorem I4Cache.Sound.of_find {mregs : BitVec 32} {s : I4Cache} {c : I4Call} {t : I4Tmpl} (hs : s.Sound mregs)
    (h : s.find c = some t) : t.Made mregs ∧ t.hits c = true := by
  rw [I4Cache.find, Option.or_eq_some_iff] at h
  obtain h | ⟨-, h⟩ := h
  · obtain ⟨hw, hhit⟩ := Option.filter_eq_some_iff.mp h
    exact ⟨hs.1 t hw, hhit⟩
  · obtain ⟨hw, hhit⟩ := Option.filter_eq_some_iff.mp h
    exact ⟨hs.2 t hw, hhit⟩

/-- One call: its words are the full synthesis just when the entry that answers, if one does, came to the same. -/
theorem orkiI4Synth_iff {mregs : BitVec 32} {s : I4Cache} (hs : s.Sound mregs) (c : I4Call) :
    (orkiI4Synth mregs s c).1 = orkiI4SynthFull mregs c ↔
      (c.fovr = [] → ∀ t, s.find c = some t → SameKnobs mregs t.made c) := by
  unfold orkiI4Synth
  by_cases hplain : c.fovr = []
  · rw [if_pos hplain]
    cases hfind : s.find c with
    | none =>
      dsimp only
      exact iff_of_true rfl fun _ _ h => (Option.some_ne_none _ h.symm).elim
    | some t =>
      obtain ⟨hmade, hhit⟩ := hs.of_find hfind
      refine (patch_full_iff hmade hhit hplain).trans ⟨fun h _ t' ht' => ?_, fun h => h hplain t rfl⟩
      cases ht'
      exact h
  · rw [if_neg hplain]
    dsimp only
    exact iff_of_true rfl fun h => absurd h hplain

/-- A call keeps the cache sound. -/
theorem orkiI4Synth_sound {mregs : BitVec 32} {s : I4Cache} (hs : s.Sound mregs) (c : I4Call) :
    (orkiI4Synth mregs s c).2.Sound mregs := by
  unfold orkiI4Synth
  split
  · exact hs
  · dsimp only
    split_ifs with hplain
    · exact hs.fill hplain rfl
    · exact hs

theorem i4Turns_iff {mregs : BitVec 32} {s : I4Cache} (hs : s.Sound mregs) (cs : List I4Call) :
    (∀ turn ∈ i4Turns mregs s cs, turn.words = orkiI4SynthFull mregs turn.call) ↔
      ∀ turn ∈ i4Turns mregs s cs, turn.call.fovr = [] → ∀ t, turn.before.find turn.call = some t →
        SameKnobs mregs t.made turn.call := by
  induction cs generalizing s with
  | nil => exact ⟨fun _ _ h => absurd h List.not_mem_nil, fun _ _ h => absurd h List.not_mem_nil⟩
  | cons c cs ih =>
    rw [i4Turns, List.forall_mem_cons, List.forall_mem_cons]
    exact and_congr (orkiI4Synth_iff hs c) (ih (orkiI4Synth_sound hs c))

/-- A thread's words are those of the full synthesis, call by call, just when no call is answered from an entry whose
overrides came to other register values. -/
theorem orkiI4Synth_transparent_iff (mregs : BitVec 32) (cs : List I4Call) :
    (∀ turn ∈ i4Turns mregs .empty cs, turn.words = orkiI4SynthFull mregs turn.call) ↔
      ∀ turn ∈ i4Turns mregs .empty cs, turn.call.fovr = [] → ∀ t, turn.before.find turn.call = some t →
        SameKnobs mregs t.made turn.call := i4Turns_iff (I4Cache.sound_empty mregs) cs

theorem i4tFind_congr {rc rc' : List (BitVec 32 × BitVec 32)} (hkeys : rc'.map keyOf = rc.map keyOf) (w : RegOvr) :
    i4tFind rc' w = i4tFind rc w := by
  have hlen : rc'.length = rc.length := by simpa using congrArg List.length hkeys
  unfold i4tFind
  rw [hlen]
  apply List.filter_congr
  intro i _
  rw [← List.getElem?_map, ← List.getElem?_map, hkeys]

/-- The first plain call of a thread fills the first way. -/
theorem fills_empty (mregs : BitVec 32) {c : I4Call} (hplain : c.fovr = [])
    (hslots : ((i4Addr c).map (i4tFind regcmdI4)).all (fun l => 1 ≤ l.length ∧ l.length ≤ 4) = true) :
    ∃ t, (orkiI4Synth mregs .empty c).2.way0 = some t ∧ t.made = c := by
  have hkeys : (orkiI4SynthFull mregs c).map keyOf = regcmdI4.map keyOf := keys_setrAll _ _
  have hsl : (i4Addr c).map (i4tFind (orkiI4SynthFull mregs c)) = (i4Addr c).map (i4tFind regcmdI4) :=
    List.map_congr_left fun w _ => i4tFind_congr hkeys w
  have hmiss : (if c.fovr = [] then I4Cache.empty.find c else none) = none := by rw [if_pos hplain]; rfl
  unfold orkiI4Synth
  rw [hmiss]
  dsimp only
  rw [if_pos hplain]
  unfold I4Cache.fill
  dsimp only
  rw [hsl, if_pos hslots, if_neg (show ¬ I4Cache.empty.tcw = true from Bool.false_ne_true)]
  exact ⟨_, rfl, rfl⟩

/-- The burst word shipped, and the one with the 4K bypass on: the cache takes them for one. -/
theorem bypass_collides :
    ¬ ∀ turn ∈ i4Turns 0x5f .empty [⟨2, 64, 64, 0, 0, 0, ⟨none, none, none, some 0x000f000f⟩, 0, []⟩,
        ⟨2, 64, 64, 0, 0, 0, ⟨none, none, none, some 0x800f000f⟩, 0, []⟩],
      turn.words = orkiI4SynthFull 0x5f turn.call := by
  rw [i4Turns_iff (I4Cache.sound_empty _)]
  intro hall
  obtain ⟨t, hway, hmade⟩ := @fills_empty 0x5f ⟨2, 64, 64, 0, 0, 0, ⟨none, none, none, some 0x000f000f⟩, 0, []⟩ rfl
    (by decide)
  have hsame := hall _ (List.mem_cons_of_mem _ List.mem_cons_self) rfl t ?_
  · rw [hmade] at hsame
    exact absurd (hsame (by decide)).2.2 (by decide)
  · have hhit : t.hits ⟨2, 64, 64, 0, 0, 0, ⟨none, none, none, some 0x800f000f⟩, 0, []⟩ = true := by
      rw [I4Tmpl.hits, hmade]
      decide
    rw [I4Cache.find, hway, Option.filter_some_pos hhit]
    rfl

end OrkDriver.Npu
