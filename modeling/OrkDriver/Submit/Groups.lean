import Mathlib.Algebra.Ring.Nat
import OrkDriver.Lib.Offsets
import OrkDriver.Submit.Partition

/-!
The group table of a grouped run (`ork_submit_seq` of `npu.c`): where each group of the run starts, and the same of the
run with a witness matmul behind every group that ends in another operation.
-/

namespace OrkDriver.Submit

open OrkDriver.Lib OrkDriver.Pack

/-! ### The code -/

/-- `ORK_SEQ_HWBATCH`. -/
def hwBatch : Nat := 256

/-- `gs[++ng] = v`, none past the `ORK_SEQ_HWBATCH + 1` entries of the table. -/
def pushStart (gs : List Nat) (v : Nat) : Option (List Nat) := if gs.length < hwBatch + 1 then some (gs ++ [v]) else none

/-- The loop over the run behind its first operation: `p` is the next one's number, `prev` the one before it. -/
def scanGroups (prev : SeqOp) : List SeqOp → Nat → List Nat → Option (List Nat)
  | [], p, gs => pushStart gs p
  | o :: rest, p, gs => (if o.group ≠ prev.group then pushStart gs p else some gs).bind (scanGroups o rest (p + 1))

/-- The table `gs` of a run. -/
def groupStarts : List SeqOp → Option (List Nat)
  | [] => none
  | o :: rest => scanGroups o rest 1 [0]

/-- The operations of group `g` by the table. -/
def groupOps (run : List SeqOp) (gs : List Nat) (g : Nat) : List SeqOp :=
  (run.drop (gs.getD g 0)).take (gs.getD (g + 1) 0 - gs.getD g 0)

/-- `ops[i+gs[g+1]-1].kind != ORK_OP_MM_I8`. -/
def needsWitness (ops : List SeqOp) : Bool := (ops.getLast?.bind SeqOp.kind) ≠ some .mmI8

/-- The matmul appended behind a group: `ww` and one row of zeros. -/
def witnessOp (ww : SeqWeight) : SeqOp := ⟨some .mmI8, some ww, 1, 0⟩

/-- `of`, `ao` and `ags`. -/
structure Augmented where
  full : Bool
  ao : List SeqOp
  ags : List Nat

def pushOp (a : Augmented) (o : SeqOp) : Augmented :=
  if a.full then a else if hwBatch ≤ a.ao.length then { a with full := true } else { a with ao := a.ao ++ [o] }

/-- `ags[++ang] = an`. -/
def closeGroup (a : Augmented) : Option Augmented := (pushStart a.ags a.ao.length).map fun ags => { a with ags }

/-- One turn of the loop over the groups. -/
def augmentGroup (ww : SeqWeight) (a : Augmented) (ops : List SeqOp) : Option Augmented :=
  if a.full then some a
  else
    let a := ops.foldl pushOp a
    if !a.full && needsWitness ops then
      if hwBatch ≤ a.ao.length then some { a with full := true }
      else closeGroup { a with ao := a.ao ++ [witnessOp ww] }
    else closeGroup a

/-- The run with its witnesses, none if a table is written past its end. -/
def augment (ww : SeqWeight) (run : List SeqOp) (gs : List Nat) : Option Augmented :=
  ((List.range (gs.length - 1)).map (groupOps run gs)).foldlM (augmentGroup ww) ⟨false, [], [0]⟩

/-! ### The groups of a run -/

def sameGroup (a b : SeqOp) : Bool := a.group = b.group

/-- The longest runs of one label. -/
def groupsOf (run : List SeqOp) : List (List SeqOp) := run.splitBy sameGroup

/-- A group with its witness. -/
def sealed (ww : SeqWeight) (ops : List SeqOp) : List SeqOp := ops ++ if needsWitness ops then [witnessOp ww] else []

theorem pushStart_eq_some {gs : List Nat} {v : Nat} (h : gs.length ≤ hwBatch) : pushStart gs v = some (gs ++ [v]) := by
  rw [pushStart, if_pos (Nat.lt_succ_of_le h)]

theorem pushStart_eq_none {gs : List Nat} {v : Nat} (h : hwBatch < gs.length) : pushStart gs v = none := by
  rw [pushStart, if_neg (Nat.not_lt.mpr h)]

theorem splitByLoop_length_pos {α : Type*} {r : α → α → Bool} (l : List α) (a : α) (g : List α) :
    0 < (List.splitBy.loop r l a g []).length := by
  induction l generalizing a g with
  | nil => simp [List.splitBy.loop]
  | cons b l ih =>
    rw [List.splitBy.loop]
    split
    · exact ih b _
    · rw [splitByLoop_eq_append, List.length_append]
      exact Nat.lt_add_left _ (ih b _)

/-- The scan with the group `acc ++ [prev]` open, which started at `q`: it writes where the later groups start, if they
fit. -/
theorem scanGroups_eq (rest : List SeqOp) (prev : SeqOp) (acc : List SeqOp) (gs : List Nat) (q : Nat) :
    scanGroups prev rest (q + acc.length + 1) (gs ++ [q]) =
      let groups := List.splitBy.loop sameGroup rest prev acc []
      if gs.length + groups.length ≤ hwBatch then some (gs ++ cuts q groups) else none := by
  induction rest generalizing prev acc gs q with
  | nil =>
    have hcuts : cuts q [(prev :: acc).reverse] = [q, q + acc.length + 1] := by
      simp [Nat.add_assoc]
    show pushStart (gs ++ [q]) _ = if gs.length + 1 ≤ hwBatch then some (gs ++ cuts q [(prev :: acc).reverse]) else none
    rw [hcuts]
    split_ifs with h
    · rw [pushStart_eq_some (by simpa using h), List.append_assoc]
      rfl
    · exact pushStart_eq_none (by simpa using h)
  | cons o rest ih =>
    rw [scanGroups, List.splitBy.loop]
    by_cases hsame : prev.group = o.group
    · have hs : sameGroup prev o = true := by simpa [sameGroup] using hsame
      rw [if_neg (by simp [hsame]), hs]
      exact ih o (prev :: acc) gs q
    · have hs : sameGroup prev o = false := by simpa [sameGroup] using hsame
      rw [if_pos (Ne.symm hsame), hs]
      dsimp only
      rw [splitByLoop_eq_append, List.reverse_singleton, List.singleton_append, List.length_cons]
      have hpos := splitByLoop_length_pos (r := sameGroup) rest o []
      by_cases hroom : gs.length + 1 ≤ hwBatch
      · have hrest := ih o [] (gs ++ [q]) (q + acc.length + 1)
        have hcuts : cuts q ((prev :: acc).reverse :: List.splitBy.loop sameGroup rest o [] []) =
            q :: cuts (q + acc.length + 1) (List.splitBy.loop sameGroup rest o [] []) := by
          simp [Nat.add_assoc]
        rw [pushStart_eq_some (by simpa using hroom), Option.bind_some, hcuts]
        refine hrest.trans ?_
        dsimp only
        rw [List.length_append, List.length_singleton, List.append_assoc, List.singleton_append,
          show gs.length + 1 + (List.splitBy.loop sameGroup rest o [] []).length =
            gs.length + ((List.splitBy.loop sameGroup rest o [] []).length + 1) by omega]
      · rw [pushStart_eq_none (by simpa using hroom), if_neg (by omega)]
        rfl

/-- The table holds the starts of the groups, as long as there are no more than `ORK_SEQ_HWBATCH` of them. -/
theorem groupStarts_eq {run : List SeqOp} (hne : run ≠ []) :
    groupStarts run = if (groupsOf run).length ≤ hwBatch then some (cuts 0 (groupsOf run)) else none := by
  cases run with
  | nil => exact absurd rfl hne
  | cons o rest =>
    have h := scanGroups_eq rest o [] [] 0
    simp only [List.length_nil, Nat.zero_add, List.nil_append] at h
    exact h

/-! ### The witnesses -/

theorem foldl_pushOp_full {a : Augmented} (h : a.full = true) (ops : List SeqOp) : ops.foldl pushOp a = a := by
  induction ops with
  | nil => rfl
  | cons o ops ih =>
    rw [List.foldl_cons, pushOp, if_pos h]
    exact ih

/-- What the copying loop leaves: everything copied, or the mark that the batch is full. -/
theorem foldl_pushOp {a : Augmented} (h : a.full = false) (hlen : a.ao.length ≤ hwBatch) (ops : List SeqOp) :
    (ops.foldl pushOp a).ags = a.ags ∧
      ((ops.foldl pushOp a).full = true ↔ hwBatch < a.ao.length + ops.length) ∧
      ((ops.foldl pushOp a).full = false → (ops.foldl pushOp a).ao = a.ao ++ ops) := by
  induction ops generalizing a with
  | nil => exact ⟨rfl, by simpa [h] using hlen, fun _ => (List.append_nil _).symm⟩
  | cons o ops ih =>
    rw [List.foldl_cons, pushOp, if_neg (by simp [h])]
    split_ifs with hroom
    · rw [foldl_pushOp_full rfl]
      exact ⟨rfl, by simp; omega, nofun⟩
    · have hrest := ih (a := { a with ao := a.ao ++ [o] }) h (by simp; omega)
      refine ⟨hrest.1, hrest.2.1.trans (by simp; omega), fun hf => ?_⟩
      rw [hrest.2.2 hf, List.append_assoc]
      rfl

/-- How long the groups are with their witnesses. -/
def sealedLength (groups : List (List SeqOp)) : Nat :=
  (groups.map fun ops => ops.length + if needsWitness ops then 1 else 0).sum

theorem sealedLength_concat (groups : List (List SeqOp)) (ops : List SeqOp) :
    sealedLength (groups ++ [ops]) = sealedLength groups + (ops.length + if needsWitness ops then 1 else 0) := by
  simp [sealedLength]

theorem length_flatten_sealed (ww : SeqWeight) (groups : List (List SeqOp)) :
    ((groups.map (sealed ww)).flatten).length = sealedLength groups := by
  induction groups with
  | nil => rfl
  | cons ops groups ih =>
    rw [List.map_cons, List.flatten_cons, List.length_append, ih, sealedLength, sealedLength, List.map_cons, List.sum_cons]
    congr 1
    rw [sealed, List.length_append]
    split_ifs <;> rfl

/-- What the table and the copied run are after the groups `done`, unless the batch is full. -/
structure Filled (ww : SeqWeight) (done : List (List SeqOp)) (a : Augmented) : Prop where
  short : a.ags.length ≤ done.length + 1
  overflow : a.full = true ↔ hwBatch < sealedLength done
  exactly : a.full = false → a.ao = (done.map (sealed ww)).flatten ∧ a.ags = cuts 0 (done.map (sealed ww))

theorem cuts_concat {α : Type*} (p : Nat) (bs : List (List α)) (b : List α) :
    cuts p (bs ++ [b]) = cuts p bs ++ [p + bs.flatten.length + b.length] := by
  induction bs generalizing p with
  | nil => rfl
  | cons c bs ih => simp [ih, Nat.add_assoc]

theorem closeGroup_filled {ww : SeqWeight} {done : List (List SeqOp)} {ops : List SeqOp} {a : Augmented}
    (hd : done.length < hwBatch) (hags : a.ags.length ≤ done.length + 1)
    (hfull : a.full = true ↔ hwBatch < sealedLength (done ++ [ops]))
    (h : a.full = false → a.ao = (done.map (sealed ww)).flatten ++ sealed ww ops ∧
      a.ags = cuts 0 (done.map (sealed ww))) : ∃ a', closeGroup a = some a' ∧ Filled ww (done ++ [ops]) a' := by
  refine ⟨{ a with ags := a.ags ++ [a.ao.length] }, ?_, ?_, hfull, ?_⟩
  · rw [closeGroup, pushStart_eq_some (hags.trans hd)]
    rfl
  · simpa using hags
  · intro hf
    obtain ⟨hao, hags⟩ := h hf
    constructor
    · simp [hao]
    · rw [List.map_append, List.map_singleton, cuts_concat, ← hags]
      simp [hao]

/-- One group more. -/
theorem augmentGroup_filled {ww : SeqWeight} {done : List (List SeqOp)} {a : Augmented} (ops : List SeqOp)
    (hd : done.length < hwBatch) (h : Filled ww done a) :
    ∃ a', augmentGroup ww a ops = some a' ∧ Filled ww (done ++ [ops]) a' := by
  have hlong := sealedLength_concat done ops
  unfold augmentGroup
  cases hf : a.full with
  | true =>
    have := h.overflow.mp hf
    exact ⟨a, rfl, (h.short).trans (by simp), by simp [hf]; omega, fun h' => absurd (hf.symm.trans h') (by simp)⟩
  | false =>
    rw [if_neg (by simp)]
    dsimp only
    obtain ⟨hao', hags'⟩ := h.exactly hf
    have hlen : a.ao.length = sealedLength done := by rw [hao', length_flatten_sealed]
    have hroom : ¬ hwBatch < sealedLength done := fun hc => by simp [h.overflow.mpr hc] at hf
    obtain ⟨hags, hfull, hao⟩ := foldl_pushOp hf (by omega) ops
    generalize ops.foldl pushOp a = b at hags hao hfull ⊢
    have hshort : b.ags.length ≤ done.length + 1 := hags ▸ h.short
    cases hneed : needsWitness ops with
    | true =>
      rw [hneed, if_pos rfl] at hlong
      cases hbf : b.full with
      | true =>
        have := hfull.mp hbf
        exact closeGroup_filled hd hshort (by simp [hbf]; omega) fun h' => absurd (hbf.symm.trans h') (by simp)
      | false =>
        have hb : ¬ hwBatch < a.ao.length + ops.length := fun hc => by simp [hfull.mpr hc] at hbf
        have hbao : b.ao.length = a.ao.length + ops.length := by rw [hao hbf, List.length_append]
        rw [if_pos (by simp)]
        split_ifs with hlast
        · exact ⟨_, rfl, by simpa using Nat.le_succ_of_le hshort, by simp; omega, nofun⟩
        · refine closeGroup_filled hd hshort (by simp; omega) fun _ => ⟨?_, hags.trans hags'⟩
          simp [hao hbf, hao', sealed, hneed]
    | false =>
      rw [hneed, if_neg (by simp)] at hlong
      rw [if_neg (by simp)]
      refine closeGroup_filled hd hshort (hfull.trans (by omega)) fun h' => ⟨?_, hags.trans hags'⟩
      simp [hao h', hao', sealed, hneed]

theorem foldlM_augmentGroup {ww : SeqWeight} (groups : List (List SeqOp)) {done : List (List SeqOp)} {a : Augmented}
    (hd : done.length + groups.length ≤ hwBatch) (h : Filled ww done a) :
    ∃ a', groups.foldlM (augmentGroup ww) a = some a' ∧ Filled ww (done ++ groups) a' := by
  induction groups generalizing done a with
  | nil => exact ⟨a, rfl, by rwa [List.append_nil]⟩
  | cons ops groups ih =>
    rw [List.length_cons] at hd
    obtain ⟨b, hb, hfill⟩ := augmentGroup_filled ops (by omega) h
    obtain ⟨a', ha', hfill'⟩ := ih (by simp; omega) hfill
    refine ⟨a', ?_, by rwa [List.append_assoc] at hfill'⟩
    rw [List.foldlM_cons, hb]
    exact ha'

/-- Read through the table, the run falls into its groups. -/
theorem map_groupOps {run : List SeqOp} : (List.range ((cuts 0 (groupsOf run)).length - 1)).map
    (groupOps run (cuts 0 (groupsOf run))) = groupsOf run := by
  have hd := delimits_cuts (groupsOf run) (List.nil_notMem_splitBy _ _)
  have hflat : (groupsOf run).flatten = run := List.flatten_splitBy _ _
  apply List.ext_getElem
  · simp
  · intro g h1 h2
    have hslice := hd.slice g h2
    rw [hflat] at hslice
    rw [List.getElem_map, List.getElem_range]
    exact hslice

theorem augment_cuts (ww : SeqWeight) (run : List SeqOp) (h : (groupsOf run).length ≤ hwBatch) :
    ∃ a, augment ww run (cuts 0 (groupsOf run)) = some a ∧ Filled ww (groupsOf run) a := by
  rw [augment, map_groupOps]
  have hnone : Filled ww [] (⟨false, [], [0]⟩ : Augmented) := ⟨by simp, by simp [sealedLength], fun _ => ⟨rfl, rfl⟩⟩
  exact foldlM_augmentGroup (groupsOf run) (by simpa using h) hnone

/-! ### When the table is enough -/

/-- What the group table is for: each group of the run between two entries, with and without the witnesses. -/
def Tabled (run : List SeqOp) : Prop :=
  ∃ gs, groupStarts run = some gs ∧ Delimits gs (groupsOf run) ∧ (groupsOf run).flatten = run ∧
    ∀ ww, ∃ a, augment ww run gs = some a ∧ (a.full = false →
      Delimits a.ags ((groupsOf run).map (sealed ww)) ∧ a.ao = ((groupsOf run).map (sealed ww)).flatten)

theorem sealed_ne_nil {ww : SeqWeight} {ops : List SeqOp} (h : ops ≠ []) : sealed ww ops ≠ [] := by
  simp [sealed, h]

theorem nil_notMem_map_sealed (ww : SeqWeight) (run : List SeqOp) : [] ∉ (groupsOf run).map (sealed ww) := by
  intro h
  obtain ⟨ops, hops, he⟩ := List.mem_map.mp h
  exact sealed_ne_nil (List.ne_nil_of_mem_splitBy hops) he

/-- The table of a grouped run is written inside its bounds, and delimits its groups, exactly when it has no more groups
than a batch has operations. -/
theorem tabled_iff (o : SeqOp) (rest : List SeqOp) :
    Tabled (o :: rest) ↔ (groupsOf (o :: rest)).length ≤ hwBatch := by
  have heq := groupStarts_eq (List.cons_ne_nil o rest)
  constructor
  · rintro ⟨gs, hgs, -⟩
    by_contra h
    rw [if_neg h, hgs] at heq
    cases heq
  · intro h
    rw [if_pos h] at heq
    refine ⟨_, heq, delimits_cuts _ (List.nil_notMem_splitBy _ _), List.flatten_splitBy _ _, fun ww => ?_⟩
    obtain ⟨a, ha, hfill⟩ := augment_cuts ww (o :: rest) h
    refine ⟨a, ha, fun hf => ?_⟩
    obtain ⟨hao, hags⟩ := hfill.exactly hf
    exact ⟨hags ▸ delimits_cuts _ (nil_notMem_map_sealed ww _), hao⟩

/-- `n` SiLUs, neighbours under different labels. -/
def alternating (n : Nat) : List SeqOp := (List.range n).map fun i => ⟨some .siluI8, none, 1, i % 2 + 1⟩

/-- 257 groups of one operation: the end of the last one is written behind the table. -/
theorem not_tabled_alternating : ¬ Tabled (alternating 257) := by
  have hlen : (groupsOf (alternating 257)).length = 257 := by decide +kernel
  have hover : groupStarts (alternating 257) = none := by
    rw [groupStarts_eq (by decide), hlen]
    exact if_neg (by decide)
  rintro ⟨gs, hgs, -⟩
  rw [hover] at hgs
  cases hgs

end OrkDriver.Submit
