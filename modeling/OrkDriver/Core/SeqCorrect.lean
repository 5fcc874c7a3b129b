import OrkDriver.Core.SeqPlaced
import OrkDriver.Lib.Loops

/-!
What a heterogeneous chain guarantees: placement, output slots, and the copies of `ork_dyn_seq_end`.
-/

namespace OrkDriver.Core

open OrkDriver.Lib OrkDriver.Npu OrkDriver.Pack

variable {ops : Nat → SeqOp} {n ngroups : Nat} {gstart : Nat → Nat} {coreOf : Nat → Nat}

/-! ### Cores -/

theorem leastLoaded_lt {nc : Nat} (h : 0 < nc) (load : Nat → Nat) : leastLoaded nc load < nc := by
  unfold leastLoaded
  have hfold : ∀ (l : List Nat) (best : Nat), best < nc → (∀ i ∈ l, i < nc) →
      l.foldl (fun best i => if load i < load best then i else best) best < nc := by
    intro l
    induction l with
    | nil => exact fun best hb _ => hb
    | cons i l ih =>
        intro best hb hl
        rw [List.foldl_cons]
        refine ih _ ?_ fun j hj => hl j (List.mem_cons_of_mem _ hj)
        split
        · exact hl i List.mem_cons_self
        · exact hb
  exact hfold _ 0 h fun i hi => List.mem_range.mp hi

/-- Every group gets one of the cores. -/
theorem assignGroups_lt {nc : Nat} (h : 0 < nc) (g : Nat) : (assignGroups ops ngroups gstart nc).1 g < nc := by
  unfold assignGroups
  generalize List.range ngroups = l
  have hfold : ∀ (l : List Nat) (s : (Nat → Nat) × (Nat → Nat)), (∀ g, s.1 g < nc) → (l.foldl (fun s g =>
      (Function.update s.1 g (leastLoaded nc s.2), Function.update s.2 (leastLoaded nc s.2)
        (s.2 (leastLoaded nc s.2) + ((groupOps gstart g).map fun p => (ops p).cost).sum))) s).1 g < nc := by
    intro l
    induction l with
    | nil => exact fun s hs => hs g
    | cons f l ih =>
        intro s hs
        rw [List.foldl_cons]
        apply ih
        intro k
        by_cases hk : k = f
        · rw [hk]
          dsimp only
          rw [Function.update_self]
          exact leastLoaded_lt h _
        · dsimp only
          rw [Function.update_of_ne hk]
          exact hs k
  exact hfold l _ fun _ => h

theorem seqCores_pos {cores : Nat} (hc : 0 < cores) (hg : 0 < ngroups) (nc : Int) (silu : Bool) :
    0 < seqCores cores ngroups nc silu := by
  unfold seqCores
  dsimp only
  have hnc : 0 < if nc < 1 ∨ cores < nc then cores else nc.toNat := by
    split <;> omega
  generalize (if nc < 1 ∨ (cores : Int) < nc then cores else nc.toNat) = m at hnc
  split
  · exact Nat.one_pos
  · split <;> omega

/-! ### Layouts -/

/-- The layouts of the three kinds of output, `N` a whole number of surfaces. -/
inductive SeqLaid (M N : Nat) : Nat → Place → Prop
  | dense : SeqLaid M N 4 (.rows N)
  | int16 : 8 ∣ N → SeqLaid M N 2 (.surfaces (M * 16))
  | int8 : 16 ∣ N → SeqLaid M N 1 (.surfaces (M * 16))

variable {M N esz m m' k k' b b' : Nat} {place : Place}

/-- An element in surfaces of `q` elements, `q * esz` being 16. -/
theorem surface_lt {q : Nat} (hq : q * esz = 16) (hN : q ∣ N) (hm : m < M) (hk : k < N) (hb : b < esz) :
    k / q * (M * 16) + m * 16 + k % q * esz + b < M * N * esz := by
  have hqpos : 0 < q := by
    rcases Nat.eq_zero_or_pos q with h | h
    · rw [h, Nat.zero_mul] at hq
      cases hq
    · exact h
  obtain ⟨t, rfl⟩ := hN
  have hin : k % q * esz + b < 16 := hq ▸ digits_lt (Nat.mod_lt _ hqpos) hb
  have hrow : m * 16 + (k % q * esz + b) < M * 16 := digits_lt hm hin
  have hsurf : k / q * (M * 16) + (m * 16 + (k % q * esz + b)) < t * (M * 16) :=
    digits_lt (Nat.div_lt_of_lt_mul hk) hrow
  calc k / q * (M * 16) + m * 16 + k % q * esz + b
      = k / q * (M * 16) + (m * 16 + (k % q * esz + b)) := by rw [Nat.add_assoc, Nat.add_assoc]
    _ < t * (M * 16) := hsurf
    _ = M * (q * t) * esz := by rw [← hq]; ring

theorem surface_inj {q : Nat} (hq : q * esz = 16) (hm : m < M) (hm' : m' < M) (hb : b < esz) (hb' : b' < esz)
    (h : k / q * (M * 16) + m * 16 + k % q * esz + b = k' / q * (M * 16) + m' * 16 + k' % q * esz + b') :
    (m = m' ∧ k = k') ∧ b = b' := by
  have hqpos : 0 < q := by
    rcases Nat.eq_zero_or_pos q with h | h
    · rw [h, Nat.zero_mul] at hq
      cases hq
    · exact h
  have hin : k % q * esz + b < 16 := hq ▸ digits_lt (Nat.mod_lt _ hqpos) hb
  have hin' : k' % q * esz + b' < 16 := hq ▸ digits_lt (Nat.mod_lt _ hqpos) hb'
  rw [Nat.add_assoc _ _ b, Nat.add_assoc _ _ b', Nat.add_assoc, Nat.add_assoc] at h
  obtain ⟨hdiv, hrest⟩ := digits_inj (digits_lt hm hin) (digits_lt hm' hin') h
  obtain ⟨hrow, hrest⟩ := digits_inj hin hin' hrest
  obtain ⟨hmod, hbyte⟩ := digits_inj hb hb' hrest
  refine ⟨⟨hrow, ?_⟩, hbyte⟩
  rw [← Nat.div_add_mod k q, ← Nat.div_add_mod k' q, hdiv, hmod]

/-- Every byte of the output lies inside its slot. -/
theorem place_lt (h : SeqLaid M N esz place) (hm : m < M) (hk : k < N) (hb : b < esz) :
    place.at esz m k + b < M * N * esz := by
  cases h with
  | dense => exact digits_lt (digits_lt hm hk) hb
  | int16 hN => exact surface_lt rfl hN hm hk hb
  | int8 hN => exact surface_lt rfl hN hm hk hb

/-- No two bytes of the output share a place. -/
theorem place_inj (h : SeqLaid M N esz place) (hm : m < M) (hm' : m' < M) (hk : k < N) (hk' : k' < N) (hb : b < esz)
    (hb' : b' < esz) (heq : place.at esz m k + b = place.at esz m' k' + b') : (m = m' ∧ k = k') ∧ b = b' := by
  cases h with
  | dense =>
      obtain ⟨hel, hbyte⟩ := digits_inj hb hb' heq
      exact ⟨digits_inj hk hk' hel, hbyte⟩
  | int16 hN => exact surface_inj rfl hm hm' hb hb' heq
  | int8 hN => exact surface_inj rfl hm hm' hb hb' heq

/-! ### The copy of one op -/

/-- A slot as `orki_seq_build_op` leaves it. -/
structure SeqSlot.Holds (s : SeqSlot) (M N : Nat) (place : Place) : Prop where
  oM : s.oM = M
  nout : s.nout = M * N
  pos : 0 < M
  laid : SeqLaid M N s.oesz8 place

variable {β : Type*} {s : SeqSlot}

theorem SeqSlot.Holds.cols (h : s.Holds M N place) : s.nout / s.oM = N := by
  rw [h.oM, h.nout, Nat.mul_div_cancel_left N h.pos]

/-- The copy reads each byte where the program's layout has it and writes it to its place in rows. -/
theorem mem_seqCopy (h : s.Holds M N place) (out : Nat → β) (w : Nat × β) : w ∈ seqCopy s out ↔
    ∃ m k b, (m < M ∧ k < N ∧ b < s.oesz8) ∧
      w = (s.dst + ((m * N + k) * s.oesz8 + b), out (s.ooff + (place.at s.oesz8 m k + b))) := by
  have hcols := h.cols
  rw [h.oM] at hcols
  unfold seqCopy
  dsimp only
  rw [h.oM, if_pos (Nat.ne_of_gt h.pos), hcols]
  have hlaid := h.laid
  generalize s.oesz8 = esz at hlaid ⊢
  cases hlaid with
  | dense =>
      rw [if_pos rfl, List.mem_map]
      constructor
      · rintro ⟨j, hj, rfl⟩
        have hj := List.mem_range.mp hj
        have hN : 0 < N := Nat.pos_of_ne_zero fun hN => by
          rw [hN, Nat.mul_zero, Nat.zero_mul] at hj
          exact absurd hj (Nat.not_lt_zero _)
        have hrow : j / 4 / N < M := by
          rw [Nat.div_lt_iff_lt_mul hN, Nat.div_lt_iff_lt_mul (by decide)]
          exact hj
        refine ⟨j / 4 / N, j / 4 % N, j % 4, ⟨hrow, Nat.mod_lt _ hN, Nat.mod_lt _ (by decide)⟩, ?_⟩
        have hback : (j / 4 / N * N + j / 4 % N) * 4 + j % 4 = j := by
          rw [Nat.div_add_mod' (j / 4) N, Nat.div_add_mod' j 4]
        change _ = (s.dst + ((j / 4 / N * N + j / 4 % N) * 4 + j % 4),
          out (s.ooff + ((j / 4 / N * N + j / 4 % N) * 4 + j % 4)))
        rw [hback]
      · rintro ⟨m, k, b, ⟨hm, hk, hb⟩, rfl⟩
        exact ⟨(m * N + k) * 4 + b, List.mem_range.mpr (digits_lt (digits_lt hm hk) hb), rfl⟩
  | int16 hN =>
      rw [if_neg (by decide), if_pos rfl]
      simp only [List.mem_flatMap, List.mem_map, List.mem_range]
      constructor
      · rintro ⟨m, hm, k, hk, b, hb, rfl⟩
        exact ⟨m, k, b, ⟨hm, hk, hb⟩, rfl⟩
      · rintro ⟨m, k, b, ⟨hm, hk, hb⟩, rfl⟩
        exact ⟨m, hm, k, hk, b, hb, rfl⟩
  | int8 hN =>
      rw [if_neg (by decide), if_neg (by decide)]
      simp only [List.mem_flatMap, List.mem_map, List.mem_range]
      constructor
      · rintro ⟨m, hm, k, hk, rfl⟩
        refine ⟨m, k, 0, ⟨hm, hk, Nat.one_pos⟩, ?_⟩
        rw [Nat.mul_one, Nat.add_zero]
        change _ = (_, out (s.ooff + (k / 16 * (M * 16) + m * 16 + k % 16 * 1 + 0)))
        rw [Nat.mul_one, Nat.add_zero]
        rfl
      · rintro ⟨m, k, b, ⟨hm, hk, hb⟩, rfl⟩
        obtain rfl : b = 0 := by omega
        refine ⟨m, hm, k, hk, ?_⟩
        rw [Nat.mul_one, Nat.add_zero]
        change _ = (_, out (s.ooff + (k / 16 * (M * 16) + m * 16 + k % 16 * 1 + 0)))
        rw [Nat.mul_one, Nat.add_zero]
        rfl

theorem stores_seqCopy (h : s.Holds M N place) (out mem : Nat → β) (hm : m < M) (hk : k < N) (hb : b < s.oesz8) :
    stores mem (seqCopy s out) (s.dst + ((m * N + k) * s.oesz8 + b)) = out (s.ooff + (place.at s.oesz8 m k + b)) := by
  refine stores.of_mem ⟨_, (mem_seqCopy h out _).mpr ⟨m, k, b, ⟨hm, hk, hb⟩, rfl⟩, rfl⟩ fun w hw hidx => ?_
  obtain ⟨m', k', b', ⟨hm', hk', hb'⟩, rfl⟩ := (mem_seqCopy h out w).mp hw
  obtain ⟨hel, rfl⟩ := digits_inj hb' hb (Nat.add_left_cancel hidx)
  obtain ⟨rfl, rfl⟩ := digits_inj hk' hk hel
  rfl

theorem stores_seqCopy_frame (h : s.Holds M N place) (out mem : Nat → β) {p : Nat}
    (hp : p < s.dst ∨ s.dst + s.bytes ≤ p) : stores mem (seqCopy s out) p = mem p := by
  refine stores.of_forall_ne fun w hw heq => ?_
  obtain ⟨m', k', b', ⟨hm', hk', hb'⟩, rfl⟩ := (mem_seqCopy h out w).mp hw
  have hlt : (m' * N + k') * s.oesz8 + b' < M * N * s.oesz8 := digits_lt (digits_lt hm' hk') hb'
  rw [SeqSlot.bytes, h.nout] at hp
  dsimp only at heq
  omega

/-! ### What acceptance says -/

/-- Bytes of an output element. -/
def SeqOp.elemSize (o : SeqOp) : Nat :=
  match o.kind with
  | .mmI8 => 4
  | .siluI16 => 2
  | _ => 1

/-- The slot and layout of a built op that was accepted. -/
theorem holds_of_ok {o : SeqOp} {d d' : Option Nat} (hok : orkiSeqOpOk o d = some d') {x : SeqProg}
    {gi core a c pp : Nat} {nx : Option (Nat × SeqKind)} (hx : x = (orkiSeqBuildOp o gi core a c pp nx).1) :
    x.slot.Holds o.rows o.cols x.place ∧ x.slot.oesz8 = o.elemSize ∧ x.slot.dst = o.C ∧ x.slot.bytes = o.need.2 := by
  obtain ⟨y, hy, -, ⟨-, -, hbytes⟩, hM, hN, hC, hkind⟩ := orkiSeqBuildOp_spec o gi core a c pp nx
  obtain rfl : x = y := by rw [hx, hy]
  unfold orkiSeqOpOk at hok
  unfold SeqOp.elemSize
  refine ⟨⟨hM, hN, ?_, ?_⟩, ?_, hC, hbytes⟩
  · unfold SeqOp.rows
    cases hk : o.kind <;> rw [hk] at hok <;> dsimp only at hok
    case mmI8 =>
      cases hw : o.w <;> rw [hw] at hok <;> dsimp only at hok
      · cases hok
      · split at hok
        · cases hok
        · split at hok
          · cases hok
          · omega
    case other => cases hok
    all_goals
      split at hok
      · cases hok
      · omega
  · unfold SeqOp.cols
    cases hk : o.kind <;> rw [hk] at hok hkind <;> dsimp only at hok hkind <;> obtain ⟨hesz, hplace⟩ := Prod.mk.inj hkind <;>
      rw [hesz, hplace]
    case mmI8 =>
      unfold SeqOp.cols
      rw [hk]
      exact .dense
    case siluI16 =>
      refine .int16 ?_
      change 8 ∣ o.N.toNat
      split at hok
      · cases hok
      · omega
    case other => cases hok
    all_goals
      refine .int8 ?_
      change 16 ∣ o.N.toNat
      split at hok
      · cases hok
      · omega
  · cases hk : o.kind <;> rw [hk] at hkind <;> exact (Prod.mk.inj hkind).1

/-- What an accepted sequence was built from. -/
theorem begin_spec {c : OrkNpu} {v : SeqEnv} {nc : Int} {h : SeqChain} (hc : c.soc ∈ socTable)
    (hbegin : orkI8DynBeginSeqMc c v n ops ngroups gstart nc = some h) :
    Grouped n ngroups gstart ∧ (∀ p < n, ∃ d d', orkiSeqOpOk (ops p) d = some d') ∧
      ∃ (k : Nat) (coreOf : Nat → Nat), (∀ g, coreOf g < k) ∧
        h = ⟨n, k, (buildCores ops ngroups gstart coreOf (List.range k) 0).1,
          (buildCores ops ngroups gstart coreOf (List.range k) 0).1.foldl (fun f x => Function.update f x.gi x.slot)
            fun _ => ⟨0, 0, 0, 0, 0⟩,
          outNeed ops ngroups gstart, if outNeed ops ngroups gstart < 4096 then 4096 else outNeed ops ngroups gstart⟩ := by
  have hcores : 0 < c.soc.cores := by
    have hall : ∀ s ∈ socTable, 0 < s.cores := by decide
    exact hall _ hc
  unfold orkI8DynBeginSeqMc at hbegin
  by_cases hsize : n < 1 ∨ 256 < n ∨ ngroups < 1 ∨ n < ngroups
  · rw [if_pos hsize] at hbegin
    cases hbegin
  · rw [if_neg hsize] at hbegin
    split at hbegin
    · cases hbegin
    · split at hbegin
      · cases hbegin
      · next hgroups =>
          obtain ⟨⟨hfirst, hlast⟩, hstep⟩ := Decidable.not_not.mp hgroups
          split at hbegin
          · next silu hdom hsilu =>
              dsimp only at hbegin
              split at hbegin
              · cases hbegin
                refine ⟨⟨hfirst, hlast, fun g hg => (hstep g hg).1⟩,
                  fun p hp => exists_step_of_foldlM hdom (List.mem_range.mpr hp), _, _, fun g => ?_, rfl⟩
                exact assignGroups_lt (seqCores_pos hcores (by omega) nc _) g
              · cases hbegin
          · cases hbegin

/-! ### The guarantee -/

/-- What holds of a chain that was begun for `ops`. -/
structure SeqSound (h : SeqChain) (ops : Nat → SeqOp) : Prop where
  /-- Each op is one program, on one core. -/
  placed : ∀ p < h.S, ∃ x ∈ h.progs, (x.gi = p ∧ x.core < h.nc) ∧ ∀ y ∈ h.progs, y.gi = p → y = x
  built : ∀ x ∈ h.progs, x.gi < h.S
  /-- The chain of a core is numbered from 0 on and keeps the list order. -/
  ordered : ∀ i < h.nc, (h.chain i).map SeqProg.pp = List.range (h.chain i).length ∧
    ((h.chain i).map SeqProg.gi).Pairwise (· < ·)
  /-- The slots lie inside the output and apart, and their sizes sum to what the allocation is sized from. -/
  inside : ∀ p < h.S, (h.slot p).ooff + (h.slot p).bytes ≤ h.outNeed
  apart : ∀ p < h.S, ∀ q < h.S, p ≠ q → (h.slot p).ooff + (h.slot p).bytes ≤ (h.slot q).ooff ∨
    (h.slot q).ooff + (h.slot q).bytes ≤ (h.slot p).ooff
  sum : ((List.range h.S).map fun p => (h.slot p).bytes).sum = h.outNeed
  allocated : h.outSize = max h.outNeed 4096
  /-- Whatever the order in which the programs write, each copy puts every byte of element `(m, k)` at its place in rows,
  and it stays there if no later op has a C that overlaps. -/
  copied : ∀ {β : Type} (val : Nat → Nat → Nat → Nat → β) (out₀ mem : Nat → β) (l : List (Nat × β)),
    l.Perm (h.progs.flatMap fun x => x.outputs (val x.gi)) → ∀ p < h.S, (ops p).C ≠ 0 → ∀ m < (ops p).rows,
      ∀ k < (ops p).cols, ∀ b < (ops p).elemSize,
      seqCopied h (stores out₀ l) mem (p + 1) ((ops p).C + ((m * (ops p).cols + k) * (ops p).elemSize + b)) = val p m k b ∧
      ((∀ q < h.S, p < q → (ops p).C + (h.slot p).bytes ≤ (ops q).C ∨ (ops q).C + (h.slot q).bytes ≤ (ops p).C) →
        ∀ landed, (orkDynSeqEnd h landed (stores out₀ l) mem).2
          ((ops p).C + ((m * (ops p).cols + k) * (ops p).elemSize + b)) = val p m k b)

section

variable {h : SeqChain} (hnd : (h.progs.map SeqProg.gi).Nodup)
  (hslot : h.slot = h.progs.foldl (fun f x => Function.update f x.gi x.slot) fun _ => ⟨0, 0, 0, 0, 0⟩)

include hnd in
theorem gi_inj {x y : SeqProg} (hx : x ∈ h.progs) (hy : y ∈ h.progs) (hxy : x.gi = y.gi) : x = y :=
  List.inj_on_of_nodup_map hnd hx hy hxy

include hnd hslot in
/-- The handle's record of an op is that of its program. -/
theorem slot_of_mem {x : SeqProg} (hx : x ∈ h.progs) : h.slot x.gi = x.slot := by
  have hstores : h.slot = stores (fun _ => ⟨0, 0, 0, 0, 0⟩) (h.progs.map fun x => (x.gi, x.slot)) := by
    rw [hslot, stores, List.foldl_map]
  rw [hstores]
  refine stores.of_mem ⟨_, List.mem_map_of_mem hx, rfl⟩ fun w hw hgi => ?_
  obtain ⟨y, hy, rfl⟩ := List.mem_map.mp hw
  rw [gi_inj hnd hy hx hgi]

/-- A byte a program writes. -/
theorem mem_outputs {x : SeqProg} {val : Nat → Nat → Nat → β} (hx : x.slot.Holds M N x.place) (w : Nat × β) :
    w ∈ x.outputs val ↔ ∃ m k b, (m < M ∧ k < N ∧ b < x.slot.oesz8) ∧
      w = (x.slot.ooff + (x.place.at x.slot.oesz8 m k + b), val m k b) := by
  unfold SeqProg.outputs
  rw [hx.cols, hx.oM]
  simp only [List.mem_flatMap, List.mem_map, List.mem_range]
  constructor
  · rintro ⟨m, hm, k, hk, b, hb, rfl⟩
    exact ⟨m, k, b, ⟨hm, hk, hb⟩, rfl⟩
  · rintro ⟨m, k, b, ⟨hm, hk, hb⟩, rfl⟩
    exact ⟨m, hm, k, hk, b, hb, rfl⟩

/-- The outputs of two programs do not meet. -/
def SeqProg.Apart (x y : SeqProg) : Prop := x.slice.2 ≤ y.slice.1 ∨ y.slice.2 ≤ x.slice.1

instance : Std.Symm SeqProg.Apart := ⟨fun _ _ => Or.symm⟩

/-- In whatever order the programs write, each finds its output in its slot. -/
theorem stores_outputs {ops : Nat → SeqOp} {val : Nat → Nat → Nat → Nat → β} {l : List (Nat × β)}
    (hholds : ∀ x ∈ h.progs, x.slot.Holds (ops x.gi).rows (ops x.gi).cols x.place)
    (hapart : ∀ x ∈ h.progs, ∀ y ∈ h.progs, x ≠ y → x.Apart y)
    (hl : l.Perm (h.progs.flatMap fun x => x.outputs (val x.gi))) (out₀ : Nat → β) {x : SeqProg} (hx : x ∈ h.progs)
    (hm : m < (ops x.gi).rows) (hk : k < (ops x.gi).cols) (hb : b < x.slot.oesz8) :
    stores out₀ l (x.slot.ooff + (x.place.at x.slot.oesz8 m k + b)) = val x.gi m k b := by
  have hmem : ∀ w, w ∈ l ↔ ∃ y ∈ h.progs, w ∈ y.outputs (val y.gi) := fun w => by rw [hl.mem_iff, List.mem_flatMap]
  have hwrite : (x.slot.ooff + (x.place.at x.slot.oesz8 m k + b), val x.gi m k b) ∈ l :=
    (hmem _).mpr ⟨x, hx, (mem_outputs (hholds x hx) _).mpr ⟨m, k, b, ⟨hm, hk, hb⟩, rfl⟩⟩
  refine stores.of_mem ⟨_, hwrite, rfl⟩ fun w hw hidx => ?_
  obtain ⟨y, hy, hwy⟩ := (hmem w).mp hw
  obtain ⟨m', k', b', ⟨hm', hk', hb'⟩, rfl⟩ := (mem_outputs (hholds y hy) w).mp hwy
  have hxlt := place_lt (hholds x hx).laid hm hk hb
  have hylt := place_lt (hholds y hy).laid hm' hk' hb'
  dsimp only at hidx
  by_cases hxy : x = y
  · subst hxy
    obtain ⟨⟨rfl, rfl⟩, rfl⟩ := place_inj (hholds x hx).laid hm' hm hk' hk hb' hb (Nat.add_left_cancel hidx)
    rfl
  · exfalso
    have hxy := hapart x hx y hy hxy
    have hxend : x.slice.2 = x.slot.ooff + (ops x.gi).rows * (ops x.gi).cols * x.slot.oesz8 := by
      rw [SeqProg.slice, SeqSlot.bytes, (hholds x hx).nout]
    have hyend : y.slice.2 = y.slot.ooff + (ops y.gi).rows * (ops y.gi).cols * y.slot.oesz8 := by
      rw [SeqProg.slice, SeqSlot.bytes, (hholds y hy).nout]
    unfold SeqProg.Apart at hxy
    rw [hxend, hyend] at hxy
    change x.slot.ooff + _ ≤ y.slot.ooff ∨ y.slot.ooff + _ ≤ x.slot.ooff at hxy
    omega

end

/-- The copies of the first `k` ops, one at a time. -/
theorem seqCopied_succ (h : SeqChain) (out mem : Nat → β) (k : Nat) :
    seqCopied h out mem (k + 1) =
      if (h.slot k).dst = 0 then seqCopied h out mem k
      else stores (seqCopied h out mem k) (seqCopy (h.slot k) out) := by
  unfold seqCopied
  rw [List.range_succ, List.foldl_append]
  rfl

/-- What no op from `k` on overwrites stays. -/
theorem seqCopied_frame {h : SeqChain} {ops : Nat → SeqOp} (hholds : ∀ q < h.S, ∃ place,
    (h.slot q).Holds (ops q).rows (ops q).cols place) (out mem : Nat → β) {j k : Nat} (hjk : j ≤ k) (hk : k ≤ h.S)
    {a : Nat} (ha : ∀ q, j ≤ q → q < k → a < (h.slot q).dst ∨ (h.slot q).dst + (h.slot q).bytes ≤ a) :
    seqCopied h out mem k a = seqCopied h out mem j a := by
  induction k, hjk using Nat.le_induction with
  | base => rfl
  | succ k hjk ih =>
      have hprev := ih (by omega) fun q hq hqk => ha q hq (by omega)
      rw [seqCopied_succ]
      split
      · exact hprev
      · obtain ⟨place, hplace⟩ := hholds k (by omega)
        rw [stores_seqCopy_frame hplace _ _ (ha k hjk (by omega))]
        exact hprev

/-- Whatever is accepted, for every core count. -/
theorem orkI8DynBeginSeqMc_sound {c : OrkNpu} {v : SeqEnv} {nc : Int} {h : SeqChain} (hc : c.soc ∈ socTable)
    (hbegin : orkI8DynBeginSeqMc c v n ops ngroups gstart nc = some h) : SeqSound h ops := by
  obtain ⟨hg, hok, k, coreOf, hcore, rfl⟩ := begin_spec hc hbegin
  generalize hH : (⟨n, k, (buildCores ops ngroups gstart coreOf (List.range k) 0).1,
    (buildCores ops ngroups gstart coreOf (List.range k) 0).1.foldl (fun f x => Function.update f x.gi x.slot)
      fun _ => ⟨0, 0, 0, 0, 0⟩,
    outNeed ops ngroups gstart, if outNeed ops ngroups gstart < 4096 then 4096 else outNeed ops ngroups gstart⟩ :
      SeqChain) = H
  have hS : H.S = n := by rw [← hH]
  have hnc : H.nc = k := by rw [← hH]
  have hprogs : H.progs = (buildCores ops ngroups gstart coreOf (List.range k) 0).1 := by rw [← hH]
  have hslot : H.slot = H.progs.foldl (fun f x => Function.update f x.gi x.slot) fun _ => ⟨0, 0, 0, 0, 0⟩ := by
    rw [← hH]
  have hneed : H.outNeed = outNeed ops ngroups gstart := by rw [← hH]
  have hsize : H.outSize = if H.outNeed < 4096 then 4096 else H.outNeed := by rw [← hH]
  -- each op is built once
  have hperm : (H.progs.map SeqProg.gi).Perm (List.range n) := by
    rw [hprogs]
    exact buildCores_perm hg (fun g _ => hcore g) 0
  have hnd : (H.progs.map SeqProg.gi).Nodup := hperm.nodup_iff.mpr List.nodup_range
  have hgi : ∀ x ∈ H.progs, x.gi < n := fun x hx =>
    List.mem_range.mp (hperm.mem_iff.mp (List.mem_map_of_mem hx))
  have hex : ∀ p < n, ∃ x ∈ H.progs, x.gi = p := fun p hp =>
    List.mem_map.mp (hperm.mem_iff.mpr (List.mem_range.mpr hp))
  have hmem : ∀ x ∈ H.progs, x.core ∈ List.range k ∧
      ∃ a c nx, x = (orkiSeqBuildOp (ops x.gi) x.gi x.core a c x.pp nx).1 := by
    rw [hprogs]
    exact fun x hx => mem_buildCores hx
  have hfacts : ∀ x ∈ H.progs, x.slot.Holds (ops x.gi).rows (ops x.gi).cols x.place ∧
      x.slot.oesz8 = (ops x.gi).elemSize ∧ x.slot.dst = (ops x.gi).C ∧ x.slot.bytes = (ops x.gi).need.2 := by
    intro x hx
    obtain ⟨-, a, c', nx, hbuilt⟩ := hmem x hx
    obtain ⟨d, d', hd⟩ := hok x.gi (hgi x hx)
    exact holds_of_ok hd hbuilt
  have hrec : ∀ x ∈ H.progs, H.slot x.gi = x.slot := fun x hx => slot_of_mem hnd hslot hx
  have hspan : Span 0 (H.progs.map SeqProg.slice) H.outNeed := by
    rw [hneed, hprogs, ← (buildCores_end ops hg fun g _ => hcore g).1]
    exact buildCores_span ops ngroups gstart coreOf _ 0
  have hle : ∀ p ∈ H.progs.map SeqProg.slice, p.1 ≤ p.2 := fun p hp => by
    obtain ⟨x, -, rfl⟩ := List.mem_map.mp hp
    exact slice_le x
  have hapart : ∀ x ∈ H.progs, ∀ y ∈ H.progs, x ≠ y → x.Apart y := by
    have hpair : H.progs.Pairwise SeqProg.Apart :=
      (List.pairwise_map.mp (hspan.pairwise hle)).imp fun hxy => Or.inl hxy
    exact fun x hx y hy hxy => hpair.forall hx hy hxy
  have hholds : ∀ q < H.S, ∃ place, (H.slot q).Holds (ops q).rows (ops q).cols place := by
    intro q hq
    obtain ⟨x, hx, rfl⟩ := hex q (hS ▸ hq)
    exact ⟨x.place, hrec x hx ▸ (hfacts x hx).1⟩
  constructor
  case placed =>
    intro p hp
    obtain ⟨x, hx, rfl⟩ := hex p (hS ▸ hp)
    exact ⟨x, hx, ⟨rfl, hnc ▸ List.mem_range.mp (hmem x hx).1⟩, fun y hy hyx => gi_inj hnd hy hx hyx⟩
  case built => exact fun x hx => hS ▸ hgi x hx
  case ordered =>
    intro i hi
    obtain ⟨c', hchain⟩ := filter_buildCores ops ngroups gstart coreOf List.nodup_range (List.mem_range.mpr (hnc ▸ hi : i < k)) 0
    obtain ⟨⟨hgis, hpps⟩, -, -⟩ := buildCore_spec ops ngroups gstart coreOf i (coreOps ngroups gstart coreOf i) 0 0 c'
    unfold SeqChain.chain
    rw [hprogs, hchain]
    constructor
    · have hlen := congrArg List.length hpps
      rw [List.length_map, List.length_range'] at hlen
      rw [hpps, hlen, List.range_eq_range']
    · rw [hgis]
      exact coreOps_increasing hg i
  case inside =>
    intro p hp
    obtain ⟨x, hx, rfl⟩ := hex p (hS ▸ hp)
    rw [hrec x hx]
    exact (hspan.bounds hle x.slice (List.mem_map_of_mem hx)).2
  case apart =>
    intro p hp q hq hpq
    obtain ⟨x, hx, rfl⟩ := hex p (hS ▸ hp)
    obtain ⟨y, hy, rfl⟩ := hex q (hS ▸ hq)
    rw [hrec x hx, hrec y hy]
    exact hapart x hx y hy fun hxy => hpq (congrArg SeqProg.gi hxy)
  case sum =>
    rw [hS, hneed, ← (buildCores_end ops hg fun g _ => hcore g).2]
    congr 1
    refine List.map_congr_left fun p hp => ?_
    obtain ⟨x, hx, rfl⟩ := hex p (List.mem_range.mp hp)
    rw [hrec x hx]
    exact (hfacts x hx).2.2.2
  case allocated =>
    rw [hsize]
    split <;> omega
  case copied =>
    intro β val out₀ mem l hl p hp hC m hm j hj b hb
    obtain ⟨x, hx, rfl⟩ := hex p (hS ▸ hp)
    obtain ⟨hx', hesz, hdst, -⟩ := hfacts x hx
    rw [← hesz] at hb
    have hcopy : seqCopied H (stores out₀ l) mem (x.gi + 1)
        ((ops x.gi).C + ((m * (ops x.gi).cols + j) * (ops x.gi).elemSize + b)) = val x.gi m j b := by
      rw [seqCopied_succ, hrec x hx, hdst, if_neg hC, ← hdst, ← hesz, stores_seqCopy hx' _ _ hm hj hb]
      exact stores_outputs (fun y hy => (hfacts y hy).1) hapart hl out₀ hx hm hj hb
    refine ⟨hcopy, fun hlater landed => ?_⟩
    change seqCopied H (stores out₀ l) mem H.S _ = _
    rw [seqCopied_frame hholds _ _ (show x.gi + 1 ≤ H.S from hp) (Nat.le_refl _), hcopy]
    intro q hq hqS
    obtain ⟨y, hy, rfl⟩ := hex q (hS ▸ hqS)
    have hsep := hlater y.gi hqS hq
    rw [hrec x hx, hrec y hy] at hsep
    rw [hrec y hy, (hfacts y hy).2.2.1]
    have hlt : (m * (ops x.gi).cols + j) * x.slot.oesz8 + b < x.slot.bytes := by
      rw [SeqSlot.bytes, hx'.nout]
      exact digits_lt (digits_lt hm hj) hb
    rw [hesz] at hlt
    omega

/-- An element-wise product, and matmuls of one row. -/
def gluOps : Nat → SeqOp
  | 0 => ⟨.ewmulI8, none, 2, 32, 1, 0, 0, 0, 4096⟩
  | 1 => ⟨.mmI8, some ⟨.i8, 512, 32, 1, 1, 0⟩, 1, 0, 0, 0, 0, 0, 8192⟩
  | _ => ⟨.mmI8, some ⟨.i8, 512, 64, 1, 1, 0⟩, 2, 0, 0, 0, 0, 0, 12288⟩

/-- Three ops in two groups on all cores. -/
theorem orkI8DynBeginSeqMc_sound_glu : ∃ h, orkI8DynBeginSeqMc ⟨3, socRk3588, 0⟩ ⟨true, true, fun _ => 512, true, true⟩ 3
    gluOps 2 (fun g => [0, 2, 3].getD g 0) 0 = some h ∧ SeqSound h gluOps := by
  have hsome : (orkI8DynBeginSeqMc ⟨3, socRk3588, 0⟩ ⟨true, true, fun _ => 512, true, true⟩ 3 gluOps 2
      (fun g => [0, 2, 3].getD g 0) 0).isSome = true := by decide
  obtain ⟨h, hh⟩ := Option.isSome_iff_exists.mp hsome
  exact ⟨h, hh, orkI8DynBeginSeqMc_sound (by decide) hh⟩

/-- A single small matmul: 128 bytes of output in an allocation of 4096. -/
theorem orkI8DynBeginSeqMc_floor :
    (orkI8DynBeginSeqMc ⟨3, socRk3588, 0⟩ ⟨true, true, fun _ => 512, true, true⟩ 1 (fun _ => gluOps 1) 1 (fun g => g) 1).map
      (fun h => (((List.range h.S).map fun p => (h.slot p).bytes).sum, h.outSize)) = some (128, 4096) := by
  decide

end OrkDriver.Core
