import Mathlib.Data.List.Nodup
import OrkDriver.Core.Seq
import OrkDriver.Lib.Cut
import OrkDriver.Lib.Span

/-!
Where the ops of a heterogeneous chain go: one core each, in list order there, and a slot of their own in the shared
output.
-/

namespace OrkDriver.Core

open OrkDriver.Lib OrkDriver.Npu OrkDriver.Pack

variable {ops : Nat → SeqOp} {n ngroups : Nat} {gstart : Nat → Nat} {coreOf : Nat → Nat}

/-! ### One op -/

/-- The bytes of a slot. -/
def SeqSlot.bytes (s : SeqSlot) : Nat := s.nout * s.oesz8

/-- What building an op comes to: its program, the two offsets moved on by what the sizing pass counts for it. -/
theorem orkiSeqBuildOp_spec (o : SeqOp) (gi core astage coff pp : Nat) (next : Option (Nat × SeqKind)) :
    ∃ x, orkiSeqBuildOp o gi core astage coff pp next = (x, astage + o.need.1, coff + o.need.2) ∧
      (x.gi = gi ∧ x.core = core ∧ x.pp = pp ∧ x.next = next) ∧
      (x.aoff = astage ∧ x.slot.ooff = coff ∧ x.slot.bytes = o.need.2) ∧
      x.slot.oM = o.rows ∧ x.slot.nout = o.rows * o.cols ∧ x.slot.dst = o.C ∧
      (x.slot.oesz8, x.place) = match o.kind with
        | .mmI8 => (4, .rows o.cols)
        | .siluI16 => (2, .surfaces (o.rows * 16))
        | _ => (1, .surfaces (o.rows * 16)) := by
  unfold orkiSeqBuildOp SeqOp.need
  have hstride : (orkiI8Synth o.rows o.depth o.cols 0 0 0 0).stride = o.cols := rfl
  cases o.kind <;> dsimp only
  case mmI8 => exact ⟨_, rfl, ⟨rfl, rfl, rfl, rfl⟩, ⟨rfl, rfl, rfl⟩, rfl, rfl, rfl, by rw [hstride]⟩
  case siluI16 => exact ⟨_, rfl, ⟨rfl, rfl, rfl, rfl⟩, ⟨rfl, rfl, rfl⟩, rfl, rfl, rfl, rfl⟩
  all_goals exact ⟨_, rfl, ⟨rfl, rfl, rfl, rfl⟩, ⟨rfl, rfl, Nat.mul_one _⟩, rfl, rfl, rfl, rfl⟩

/-! ### The groups -/

/-- The groups cut `[0, n)` up. -/
structure Grouped (n ngroups : Nat) (gstart : Nat → Nat) : Prop where
  first : gstart 0 = 0
  last : gstart ngroups = n
  step : ∀ g < ngroups, gstart g < gstart (g + 1)

theorem Grouped.mono (h : Grouped n ngroups gstart) {f g : Nat} (hfg : f ≤ g) (hg : g ≤ ngroups) :
    gstart f ≤ gstart g := by
  induction g, hfg using Nat.le_induction with
  | base => exact Nat.le_refl _
  | succ g _ ih => exact Nat.le_trans (ih (by omega)) (Nat.le_of_lt (h.step g (by omega)))

theorem mem_groupOps (h : Grouped n ngroups gstart) {g p : Nat} (hg : g < ngroups) :
    p ∈ groupOps gstart g ↔ gstart g ≤ p ∧ p < gstart (g + 1) := by
  have hstep := h.step g hg
  rw [groupOps, List.mem_range'_1]
  omega

theorem flatMap_groupOps (h : Grouped n ngroups gstart) {k : Nat} (hk : k ≤ ngroups) :
    (List.range k).flatMap (groupOps gstart) = List.range (gstart k) :=
  flatMap_range' h.first fun g hg => Nat.le_of_lt (h.step g (Nat.lt_of_lt_of_le hg hk))

/-- Later groups have later ops. -/
theorem Grouped.lt_of_group_lt (h : Grouped n ngroups gstart) {f g p q : Nat} (hfg : f < g) (hg : g < ngroups)
    (hp : p ∈ groupOps gstart f) (hq : q ∈ groupOps gstart g) : p < q := by
  have hp := (mem_groupOps h (by omega)).mp hp
  have hq := (mem_groupOps h hg).mp hq
  have hmono := h.mono (f := f + 1) hfg (by omega)
  omega

/-! ### The ops of a core -/

theorem mem_coreGroups {i g : Nat} : g ∈ coreGroups ngroups coreOf i ↔ g < ngroups ∧ coreOf g = i := by
  rw [coreGroups, List.mem_filter, List.mem_range, decide_eq_true_iff]

theorem mem_coreOps (h : Grouped n ngroups gstart) {i g p : Nat} :
    (g, p) ∈ coreOps ngroups gstart coreOf i ↔
      (g < ngroups ∧ coreOf g = i) ∧ gstart g ≤ p ∧ p < gstart (g + 1) := by
  rw [coreOps, List.mem_flatMap]
  constructor
  · rintro ⟨f, hf, hp⟩
    obtain ⟨q, hq, heq⟩ := List.mem_map.mp hp
    cases heq
    have hf := mem_coreGroups.mp hf
    exact ⟨hf, (mem_groupOps h hf.1).mp hq⟩
  · rintro ⟨hg, hp⟩
    exact ⟨g, mem_coreGroups.mpr hg, List.mem_map.mpr ⟨p, (mem_groupOps h hg.1).mpr hp, rfl⟩⟩

/-- The ops of a core come in list order. -/
theorem coreOps_increasing (h : Grouped n ngroups gstart) (i : Nat) :
    ((coreOps ngroups gstart coreOf i).map Prod.snd).Pairwise (· < ·) := by
  have hmap : (coreOps ngroups gstart coreOf i).map Prod.snd =
      (coreGroups ngroups coreOf i).flatMap (groupOps gstart) := by
    rw [coreOps, List.map_flatMap]
    congr 1
    funext g
    rw [List.map_map]
    exact List.map_id _
  rw [hmap, List.pairwise_flatMap]
  constructor
  · exact fun g _ => List.pairwise_lt_range'
  · have hsorted : (coreGroups ngroups coreOf i).Pairwise (· < ·) := List.pairwise_lt_range.filter _
    refine hsorted.imp_of_mem fun {f g} _ hg hfg p hp q hq => ?_
    exact h.lt_of_group_lt hfg (mem_coreGroups.mp hg).1 hp hq

/-! ### Building -/

/-- The interval of a slot. -/
def SeqProg.slice (x : SeqProg) : Nat × Nat := (x.slot.ooff, x.slot.ooff + x.slot.bytes)

theorem slice_le (x : SeqProg) : x.slice.1 ≤ x.slice.2 := Nat.le_add_right _ _

variable (ops ngroups gstart coreOf) in
/-- The programs of a core: its ops one by one, numbered from `pp` on, end to end in the output. -/
theorem buildCore_spec (i : Nat) (l : List (Nat × Nat)) (pp astage coff : Nat) :
    ((buildCore ops ngroups gstart coreOf i l pp astage coff).1.map SeqProg.gi = l.map Prod.snd ∧
      (buildCore ops ngroups gstart coreOf i l pp astage coff).1.map SeqProg.pp = List.range' pp l.length) ∧
    (∀ x ∈ (buildCore ops ngroups gstart coreOf i l pp astage coff).1, x.core = i ∧
      ∃ a c nx, x = (orkiSeqBuildOp (ops x.gi) x.gi i a c x.pp nx).1) ∧
    Span coff ((buildCore ops ngroups gstart coreOf i l pp astage coff).1.map SeqProg.slice)
      (buildCore ops ngroups gstart coreOf i l pp astage coff).2 := by
  induction l generalizing pp astage coff with
  | nil => exact ⟨⟨rfl, rfl⟩, fun x hx => absurd hx List.not_mem_nil, .nil coff⟩
  | cons gp l ih =>
      obtain ⟨g, p⟩ := gp
      unfold buildCore
      dsimp only
      generalize (if pp + 1 < (coreNeed ops ngroups gstart coreOf i).1 then
        some (pp + 1, nextKind ops ngroups gstart coreOf i g p) else none) = next
      obtain ⟨x, hx, ⟨hgi, hcore, hpp, -⟩, ⟨-, hooff, hbytes⟩, -⟩ := orkiSeqBuildOp_spec (ops p) p i astage coff pp next
      rw [hx]
      obtain ⟨⟨hgis, hpps⟩, hall, hspan⟩ := ih (pp + 1) (astage + (ops p).need.1) (coff + (ops p).need.2)
      refine ⟨⟨?_, ?_⟩, ?_, ?_⟩
      · rw [List.map_cons, List.map_cons, hgis, hgi]
      · rw [List.map_cons, hpps, hpp, List.length_cons, List.range'_succ]
      · intro y hy
        rcases List.mem_cons.mp hy with rfl | hy
        · refine ⟨hcore, astage, coff, next, ?_⟩
          rw [hgi, hpp, hx]
        · exact hall y hy
      · rw [List.map_cons, SeqProg.slice, hooff, hbytes]
        exact .cons hspan

variable (ops ngroups gstart coreOf) in
theorem buildCores_span (is : List Nat) (coff : Nat) :
    Span coff ((buildCores ops ngroups gstart coreOf is coff).1.map SeqProg.slice)
      (buildCores ops ngroups gstart coreOf is coff).2 := by
  induction is generalizing coff with
  | nil => exact .nil coff
  | cons i is ih =>
      unfold buildCores
      dsimp only
      rw [List.map_append]
      exact (buildCore_spec ops ngroups gstart coreOf i _ 0 0 coff).2.2.append (ih _)

theorem mem_buildCores {is : List Nat} {coff : Nat} {x : SeqProg}
    (hx : x ∈ (buildCores ops ngroups gstart coreOf is coff).1) :
    x.core ∈ is ∧ ∃ a c nx, x = (orkiSeqBuildOp (ops x.gi) x.gi x.core a c x.pp nx).1 := by
  induction is generalizing coff with
  | nil => exact absurd hx List.not_mem_nil
  | cons i is ih =>
      rcases List.mem_append.mp hx with hx | hx
      · obtain ⟨hcore, hbuilt⟩ := (buildCore_spec ops ngroups gstart coreOf i _ 0 0 coff).2.1 x hx
        rw [hcore]
        exact ⟨List.mem_cons_self, hbuilt⟩
      · obtain ⟨hcore, hbuilt⟩ := ih hx
        exact ⟨List.mem_cons_of_mem _ hcore, hbuilt⟩

theorem buildCores_gi (is : List Nat) (coff : Nat) :
    (buildCores ops ngroups gstart coreOf is coff).1.map SeqProg.gi =
      is.flatMap fun i => (coreOps ngroups gstart coreOf i).map Prod.snd := by
  induction is generalizing coff with
  | nil => rfl
  | cons i is ih =>
      unfold buildCores
      dsimp only
      rw [List.map_append, (buildCore_spec ops ngroups gstart coreOf i _ 0 0 coff).1.1, ih, List.flatMap_cons]

variable (ops ngroups gstart coreOf) in
/-- The programs of one core are those built for it. -/
theorem filter_buildCores {is : List Nat} (hnd : is.Nodup) {i : Nat} (hi : i ∈ is) (coff : Nat) :
    ∃ c, (buildCores ops ngroups gstart coreOf is coff).1.filter (fun x => x.core = i) =
      (buildCore ops ngroups gstart coreOf i (coreOps ngroups gstart coreOf i) 0 0 c).1 := by
  induction is generalizing coff with
  | nil => cases hi
  | cons k is ih =>
      obtain ⟨hk, hnd⟩ := List.nodup_cons.mp hnd
      have hcores : ∀ c, ∀ x ∈ (buildCore ops ngroups gstart coreOf k (coreOps ngroups gstart coreOf k) 0 0 c).1,
          x.core = k := fun c x hx => ((buildCore_spec ops ngroups gstart coreOf k _ 0 0 c).2.1 x hx).1
      unfold buildCores
      dsimp only
      rw [List.filter_append]
      by_cases hik : i = k
      · subst hik
        refine ⟨coff, ?_⟩
        rw [List.filter_eq_self.mpr fun x hx => decide_eq_true (hcores coff x hx), List.filter_eq_nil_iff.mpr,
          List.append_nil]
        intro x hx hcore
        exact hk (of_decide_eq_true hcore ▸ (mem_buildCores hx).1)
      · have hnone : (buildCore ops ngroups gstart coreOf k (coreOps ngroups gstart coreOf k) 0 0 coff).1.filter
            (fun x => x.core = i) = [] :=
          List.filter_eq_nil_iff.mpr fun x hx hcore => hik ((of_decide_eq_true hcore).symm.trans (hcores coff x hx))
        rw [hnone, List.nil_append]
        exact ih hnd ((List.mem_cons.mp hi).resolve_left hik) _

/-- Every op is built once. -/
theorem buildCores_perm (h : Grouped n ngroups gstart) {nc : Nat} (hcore : ∀ g < ngroups, coreOf g < nc) (coff : Nat) :
    ((buildCores ops ngroups gstart coreOf (List.range nc) coff).1.map SeqProg.gi).Perm (List.range n) := by
  rw [buildCores_gi]
  refine (List.perm_ext_iff_of_nodup ?_ List.nodup_range).mpr fun p => ?_
  · refine List.nodup_flatMap.mpr ⟨fun i _ => ?_, ?_⟩
    · exact (coreOps_increasing h i).imp Nat.ne_of_lt
    · refine List.nodup_range.imp fun {i j} hij p hi hj => hij ?_
      obtain ⟨⟨f, p'⟩, hf, rfl⟩ := List.mem_map.mp hi
      obtain ⟨⟨g, q⟩, hg, hpq⟩ := List.mem_map.mp hj
      obtain ⟨⟨hfn, rfl⟩, hp⟩ := (mem_coreOps h).mp hf
      obtain ⟨⟨hgn, rfl⟩, hq⟩ := (mem_coreOps h).mp hg
      dsimp only at hpq
      subst hpq
      congr 1
      rcases Nat.lt_trichotomy f g with hfg | hfg | hfg
      · exact absurd (h.lt_of_group_lt hfg hgn ((mem_groupOps h hfn).mpr hp) ((mem_groupOps h hgn).mpr hq)) (Nat.lt_irrefl _)
      · exact hfg
      · exact absurd (h.lt_of_group_lt hfg hfn ((mem_groupOps h hgn).mpr hq) ((mem_groupOps h hfn).mpr hp)) (Nat.lt_irrefl _)
  · rw [← h.last, ← flatMap_groupOps h (Nat.le_refl _)]
    simp only [List.mem_flatMap, List.mem_range]
    constructor
    · rintro ⟨i, -, hp⟩
      obtain ⟨⟨g, q⟩, hgq, rfl⟩ := List.mem_map.mp hp
      obtain ⟨⟨hg, -⟩, hq⟩ := (mem_coreOps h).mp hgq
      exact ⟨g, hg, (mem_groupOps h hg).mpr hq⟩
    · rintro ⟨g, hg, hp⟩
      exact ⟨coreOf g, hcore g hg, List.mem_map.mpr ⟨(g, p), (mem_coreOps h).mpr ⟨⟨hg, rfl⟩, (mem_groupOps h hg).mp hp⟩, rfl⟩⟩

variable (ops) in
/-- The output ends where the sizing pass says. -/
theorem buildCores_end (h : Grouped n ngroups gstart) {nc : Nat} (hcore : ∀ g < ngroups, coreOf g < nc) :
    (buildCores ops ngroups gstart coreOf (List.range nc) 0).2 = outNeed ops ngroups gstart ∧
      ((List.range n).map fun p => (ops p).need.2).sum = outNeed ops ngroups gstart := by
  have hall : ((List.range n).map fun p => (ops p).need.2).sum = outNeed ops ngroups gstart := by
    rw [outNeed, ← h.last, ← flatMap_groupOps h (Nat.le_refl _), List.map_flatMap, List.flatMap_def, List.sum_flatten, List.map_map]
    rfl
  refine ⟨?_, hall⟩
  have hsum := (buildCores_span ops ngroups gstart coreOf (List.range nc) 0).sum fun p hp => by
      obtain ⟨x, -, rfl⟩ := List.mem_map.mp hp
      exact slice_le x
  rw [hsum, Nat.zero_add, ← hall, List.map_map]
  have hbytes : ((buildCores ops ngroups gstart coreOf (List.range nc) 0).1.map
      ((fun p => p.2 - p.1) ∘ SeqProg.slice)) =
      ((buildCores ops ngroups gstart coreOf (List.range nc) 0).1.map SeqProg.gi).map fun p => (ops p).need.2 := by
    rw [List.map_map]
    refine List.map_congr_left fun x hx => ?_
    obtain ⟨-, a, c, nx, hbuilt⟩ := mem_buildCores hx
    obtain ⟨y, hy, -, ⟨-, -, hbytes⟩, -⟩ := orkiSeqBuildOp_spec (ops x.gi) x.gi x.core a c x.pp nx
    have hxy : x = y := by rw [hbuilt, hy]
    change x.slot.ooff + x.slot.bytes - x.slot.ooff = (ops x.gi).need.2
    rw [Nat.add_sub_cancel_left, ← hbytes, ← hxy]
  rw [hbytes]
  exact ((buildCores_perm h hcore 0).map _).sum_eq

end OrkDriver.Core
