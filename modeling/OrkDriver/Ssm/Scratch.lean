import OrkDriver.Ssm.Accesses

/-!
Every loop nest of the scan stays inside the pool, the int8 stage exactly if a chunk is no longer than the state.
-/

namespace OrkDriver.Ssm

open OrkDriver.Lib (digits_lt)

section Loops

variable {n : Nat} {f : Nat → List Act} {a : Act} {P : Act → Prop}

theorem mem_loop : a ∈ loop n f ↔ ∃ i < n, a ∈ f i := by
  unfold loop
  simp only [List.mem_flatMap, List.mem_range]

theorem forall_loop : (∀ a ∈ loop n f, P a) ↔ ∀ i < n, ∀ a ∈ f i, P a := by
  simp only [mem_loop]
  constructor
  · intro h i hi a ha
    exact h a ⟨i, hi, ha⟩
  · rintro h a ⟨i, hi, ha⟩
    exact h i hi a ha

theorem forall_nil : ∀ a ∈ ([] : List Act), P a := by simp

theorem perform_all : ∀ (as : List Act) (t : Nat), perform (fun _ => false) t as = (as, false) := by
  intro as
  induction as with
  | nil => exact fun _ => rfl
  | cons a as ih =>
      intro t
      unfold perform
      by_cases ha : a.fallible = true
      · rw [if_pos ha, if_neg Bool.false_ne_true, ih]
      · rw [if_neg ha, ih]

theorem mem_of_mem_perform (fails : Nat → Bool) : ∀ (as : List Act) (t : Nat), ∀ a ∈ (perform fails t as).1, a ∈ as := by
  intro as
  induction as with
  | nil => exact fun _ _ h => h
  | cons b as ih =>
      intro t a ha
      unfold perform at ha
      split_ifs at ha
      · rw [List.mem_singleton.mp ha]
        exact List.mem_cons_self
      · rcases List.mem_cons.mp ha with rfl | ha
        · exact List.mem_cons_self
        · exact List.mem_cons_of_mem _ (ih (t + 1) a ha)
      · rcases List.mem_cons.mp ha with rfl | ha
        · exact List.mem_cons_self
        · exact List.mem_cons_of_mem _ (ih t a ha)

/-- Some run of the operations makes every access. -/
theorem forall_perform_iff {as : List Act} :
    (∀ fails, ∀ a ∈ (perform fails 0 as).1, P a) ↔ ∀ a ∈ as, P a := by
  constructor
  · intro h a ha
    apply h fun _ => false
    rwa [perform_all]
  · exact fun h fails a ha => h a (mem_of_mem_perform fails as 0 a ha)

end Loops

/-! ### What a pool holds -/

/-- How many elements an allocation has. -/
def Shape.count (z : Shape) (i8 : Bool) : Buf → Nat
  | .w .pSi8 => if i8 then z.nh else 0
  | .w _ => z.slots
  | .aS | .aO | .bC => z.slots * z.csz * z.nc
  | .bS => z.slots * z.nc * z.csz
  | .G | .aD => z.slots * z.csz * z.csz
  | .bD | .Yd | .tmp | .xbar => z.slots * z.csz * z.nr
  | .aC => z.slots * z.nr * z.csz
  | .cs | .stp => z.slots * z.nr * z.nc
  | .bO => z.slots * z.nc * z.nr
  | .Acs => z.slots * z.csz
  | .state => z.nh * z.nr * z.nc
  | .Acl | .tk => z.slots
  | .Aclp => z.nh
  | .ai8 | .ci32 => if i8 then z.nh * z.csz * z.nc else 0
  | .ascale => if i8 then z.nh * z.csz else 0
  | .bscale => if i8 then z.nh * z.nc else 0
  | .f32t => if i8 then z.nc * z.csz else 0
  | .tki8 => if i8 then z.nh else 0

section Pool

variable {z : Shape} {mask : Int} {i : Nat} {b : Buf}

theorem Buf.elem_pos : ∀ b : Buf, 0 < b.elem := by
  intro b
  cases b <;> exact Nat.succ_pos _

theorem bytes_eq (z : Shape) (i8 : Bool) : ∀ b, z.bytes i8 b = z.count i8 b * b.elem := by
  intro b
  cases i8 with
  | false =>
      cases b with
      | w p => cases p <;> simp [Shape.bytes, Shape.count, Buf.elem]
      | _ => simp [Shape.bytes, Shape.count, Buf.elem]
  | true =>
      cases b with
      | w p => cases p <;> rfl
      | _ => simp [Shape.bytes, Shape.count, Buf.elem]

/-- An index is inside an allocation exactly if it is below the number of elements. -/
theorem room_iff : (i + 1) * b.elem ≤ (Pool.fresh z mask).bytes b ↔ i < z.count (gramI8 mask) b := by
  change (i + 1) * b.elem ≤ z.bytes (gramI8 mask) b ↔ _
  rw [bytes_eq, Nat.mul_le_mul_right_iff b.elem_pos]
  rfl

theorem inBounds_touch : (Pool.fresh z mask).InBounds (.touch b i) ↔ i < z.count (gramI8 mask) b := room_iff

theorem inBounds_repack {p : ScratchW} {h K N : Nat} :
    (Pool.fresh z mask).InBounds (.repack p h K N) ↔ h < z.count (gramI8 mask) (.w p) ∧ z.dims p = (K, N) :=
  and_congr_left' room_iff

theorem inBounds_attempt : (Pool.fresh z mask).InBounds .attempt := trivial

end Pool

/-- The accesses stay inside a fresh pool. -/
abbrev Inside (z : Shape) (mask : Int) (as : List Act) : Prop := ∀ a ∈ as, (Pool.fresh z mask).InBounds a

theorem inside_append {z : Shape} {mask : Int} {as bs : List Act} :
    Inside z mask (as ++ bs) ↔ Inside z mask as ∧ Inside z mask bs := List.forall_mem_append

theorem inside_cons {z : Shape} {mask : Int} {a : Act} {as : List Act} :
    Inside z mask (a :: as) ↔ (Pool.fresh z mask).InBounds a ∧ Inside z mask as := List.forall_mem_cons

theorem inside_loop {z : Shape} {mask : Int} {n : Nat} {f : Nat → List Act} (h : ∀ i < n, Inside z mask (f i)) :
    Inside z mask (loop n f) := forall_loop.mpr h

/-- Element `i` of the block of slot `a`. -/
theorem block_lt {q m n a i : Nat} (ha : a < q) (hi : i < m * n) : a * m * n + i < q * m * n := by
  rw [Nat.mul_assoc a, Nat.mul_assoc q]
  exact digits_lt ha hi

theorem last_lt {q m a : Nat} (ha : a < q) (hm : 0 < m) : a * m + m - 1 < q * m := by
  have hle : a * m + m ≤ q * m :=
    calc a * m + m = (a + 1) * m := (Nat.succ_mul a m).symm
      _ ≤ q * m := Nat.mul_le_mul_right m ha
  omega

section Nests

variable {z : Shape} {mask : Int} {S : Nat} (hS : S < z.slots)

include hS

theorem prep_inside (hcs : 0 < z.csz) : Inside z mask (prep z S) := by
  unfold prep
  simp only [inside_append, inside_cons, Inside, forall_loop, inBounds_touch, Shape.count]
  refine ⟨fun l hl => ⟨digits_lt hS hl, fun i1 hi1 => ⟨digits_lt (digits_lt hS hl) hi1, forall_nil⟩⟩, ?_⟩
  exact ⟨last_lt hS hcs, hS, forall_nil⟩

theorem gramOperands_inside : Inside z mask (gramOperands z S) := by
  unfold gramOperands
  simp only [inside_append, inside_cons, Inside, forall_loop, inBounds_touch, Shape.count]
  constructor
  · intro l hl n hn
    exact ⟨digits_lt (digits_lt hS hl) hn, digits_lt (digits_lt hS hl) hn, forall_nil⟩
  · intro n hn sp hsp
    exact ⟨digits_lt (digits_lt hS hn) hsp, forall_nil⟩

theorem inputOperands_inside : Inside z mask (inputOperands z S) := by
  unfold inputOperands
  simp only [inside_append, inside_cons, Inside, forall_loop, inBounds_touch, Shape.count]
  constructor
  · intro i1 hi1 sp hsp
    exact ⟨digits_lt (digits_lt hS hsp) hi1, digits_lt (digits_lt hS hi1) hsp, forall_nil⟩
  · intro l hl i1 hi1
    exact ⟨digits_lt (digits_lt hS hl) hi1, digits_lt (digits_lt hS hl) hi1, forall_nil⟩

theorem stateOperand_inside {src : Buf} {q : Nat} (hq : z.count (gramI8 mask) src = q * z.nr * z.nc) (hSq : S < q) :
    Inside z mask (stateOperand z src S) := by
  unfold stateOperand
  simp only [inside_cons, Inside, forall_loop, inBounds_touch, hq]
  intro n hn i1 hi1
  exact ⟨digits_lt (digits_lt hSq hi1) hn, digits_lt (digits_lt hS hn) hi1, forall_nil⟩

theorem maskOperand_inside : Inside z mask (maskOperand z S) := by
  unfold maskOperand
  simp only [inside_append, inside_cons, Inside, forall_loop, inBounds_touch, Shape.count]
  intro l hl sp hsp
  refine ⟨?_, digits_lt (digits_lt hS hl) hsp, forall_nil⟩
  split_ifs
  · simp only [inside_cons, inBounds_touch, Shape.count]
    exact ⟨digits_lt (digits_lt hS hl) hsp, digits_lt hS hl, digits_lt hS hsp, forall_nil⟩
  · exact forall_nil

theorem decayOperand_inside : Inside z mask (decayOperand z S) := by
  unfold decayOperand
  simp only [inside_append, inside_cons, Inside, forall_loop, inBounds_touch, Shape.count]
  intro sp hsp
  refine ⟨⟨last_lt hS (Nat.zero_lt_of_lt hsp), digits_lt hS hsp, forall_nil⟩, fun n hn => ?_⟩
  exact ⟨digits_lt (digits_lt hS hsp) hn, forall_nil⟩

theorem post_inside (nt base : Nat) : Inside z mask (post z nt base S) := by
  unfold post
  simp only [Inside, forall_loop]
  intro l hl
  split_ifs
  · exact forall_nil
  · simp only [inside_cons, Inside, forall_loop, inBounds_touch, Shape.count]
    refine ⟨digits_lt hS hl, fun i1 hi1 => ?_⟩
    exact ⟨digits_lt (digits_lt hS hl) hi1, digits_lt (digits_lt hS hl) hi1, forall_nil⟩

end Nests

/-! ### The stages -/

section Stages

variable {z : Shape} {mask : Int} {slots M K N : Nat} {p : ScratchW} {A B C : Buf}

/-- A stage stays inside where its operands hold as many matrices as it has slots, of its own sizes. -/
theorem stg_inside (hslots : slots ≤ z.slots) (hp : p ≠ .pSi8) (hdims : z.dims p = (K, N))
    (hA : z.count (gramI8 mask) A = z.slots * M * K) (hB : z.count (gramI8 mask) B = z.slots * K * N)
    (hC : z.count (gramI8 mask) C = z.slots * M * N) : Inside z mask (stg slots p M K N A B C) := by
  have hptr : z.count (gramI8 mask) (.w p) = z.slots := by
    cases p with
    | pSi8 => exact absurd rfl hp
    | _ => rfl
  unfold stg
  simp only [inside_append, inside_cons, Inside, forall_loop, inBounds_touch, inBounds_repack, hptr, hA, hB, hC]
  refine ⟨⟨fun h hh => ?_, fun h hh => ?_⟩, inBounds_attempt, forall_nil⟩
  · have hh := Nat.lt_of_lt_of_le hh hslots
    exact ⟨⟨⟨hh, hdims⟩, fun i hi => ⟨block_lt hh hi, forall_nil⟩⟩, hh, forall_nil⟩
  · have hh := Nat.lt_of_lt_of_le hh hslots
    exact ⟨⟨hh, fun i hi => ⟨block_lt hh hi, forall_nil⟩⟩, fun i hi => ⟨block_lt hh hi, forall_nil⟩⟩

theorem gramStg_inside (hslots : slots ≤ z.slots) :
    Inside z mask (stg slots .pS z.csz z.nc z.csz .aS .bS .G) :=
  stg_inside hslots nofun rfl rfl rfl rfl

theorem stgs_inside (hslots : slots ≤ z.slots) : Inside z mask (stgs z slots) :=
  inside_append.mpr ⟨stg_inside hslots nofun rfl rfl rfl rfl, stg_inside hslots nofun rfl rfl rfl rfl⟩

theorem outStg_inside (hslots : slots ≤ z.slots) :
    Inside z mask (stg slots .pO z.csz z.nc z.nr .aO .bO .tmp) :=
  stg_inside hslots nofun rfl rfl rfl rfl

theorem i8Runs_inside {nh : Nat} {perhead : Bool} (htk : z.count (gramI8 mask) .tki8 = nh)
    (hA : nh * M * K ≤ z.count (gramI8 mask) .ai8) (hC : nh * M * N ≤ z.count (gramI8 mask) .ci32) :
    Inside z mask (i8Runs perhead nh M K N) := by
  unfold i8Runs
  cases perhead with
  | true =>
      simp only [if_true, inside_append, inside_cons, Inside, forall_loop, inBounds_touch]
      intro h hh
      refine ⟨⟨fun i hi => ⟨?_, forall_nil⟩, fun i hi => ⟨?_, forall_nil⟩⟩, inBounds_attempt, forall_nil⟩
      · exact Nat.lt_of_lt_of_le (block_lt hh hi) hA
      · exact Nat.lt_of_lt_of_le (block_lt hh hi) hC
  | false =>
      rw [if_neg Bool.false_ne_true]
      simp only [inside_append, inside_cons, Inside, forall_loop, inBounds_touch, htk]
      refine ⟨fun h hh => ⟨hh, fun i hi => ⟨?_, forall_nil⟩, fun i hi => ⟨?_, forall_nil⟩⟩, inBounds_attempt, forall_nil⟩
      · exact Nat.lt_of_lt_of_le (block_lt hh hi) hA
      · exact Nat.lt_of_lt_of_le (block_lt hh hi) hC

end Stages

section GramI8

variable {z : Shape} {mask : Int} {perhead : Bool}

/-- The scale of the last column of the last head. -/
theorem bscale_mem (hnh : 0 < z.nh) (hcs : 0 < z.csz) :
    Act.touch .bscale ((z.nh - 1) * z.csz + (z.csz - 1)) ∈
      ssmStgI8 perhead .pSi8 z.csz z.nc z.csz .aS .bS .G z.nh := by
  unfold ssmStgI8
  simp only [List.mem_append, List.mem_cons, mem_loop]
  refine .inl (.inl (.inr ⟨z.nh - 1, Nat.sub_one_lt_of_lt hnh, .inl (.inl (.inl ?_))⟩))
  exact ⟨z.csz - 1, Nat.sub_one_lt_of_lt hcs, .inr (.inl rfl)⟩

/-- `ci32` and `bscale` are sized for `nc` columns, the stage has `CS`. -/
theorem ssmStgI8_inside_iff (hi8 : gramI8 mask = true) (hslots : z.nh ≤ z.slots) (hnh : 0 < z.nh) (hcs : 0 < z.csz) :
    Inside z mask (ssmStgI8 perhead .pSi8 z.csz z.nc z.csz .aS .bS .G z.nh) ↔ z.csz ≤ z.nc := by
  constructor
  · intro hin
    have hlt := inBounds_touch.mp (hin _ (bscale_mem hnh hcs))
    simp only [Shape.count, hi8, if_true] at hlt
    have hlast : (z.nh - 1) * z.csz + (z.csz - 1) + 1 = z.nh * z.csz :=
      calc (z.nh - 1) * z.csz + (z.csz - 1) + 1 = (z.nh - 1) * z.csz + z.csz := by
            rw [Nat.add_assoc, Nat.sub_add_cancel hcs]
        _ = (z.nh - 1 + 1) * z.csz := (Nat.succ_mul _ _).symm
        _ = z.nh * z.csz := by rw [Nat.sub_add_cancel hnh]
    apply Nat.le_of_mul_le_mul_left _ hnh
    rw [← hlast]
    exact hlt
  · intro hle
    have hrow : z.nh * z.csz ≤ z.nh * z.nc := Nat.mul_le_mul_left _ hle
    have hcells : z.nh * z.csz * z.csz ≤ z.nh * z.csz * z.nc := Nat.mul_le_mul_left _ hle
    have hruns : Inside z mask (i8Runs perhead z.nh z.csz z.nc z.csz) := by
      apply i8Runs_inside
      · simp only [Shape.count, hi8, if_true]
      · simp only [Shape.count, hi8, if_true]
        exact Nat.le_refl _
      · simp only [Shape.count, hi8, if_true]
        exact hcells
    unfold ssmStgI8
    simp only [inside_append, inside_cons]
    refine ⟨⟨⟨inBounds_attempt, ?_⟩, hruns⟩, ?_⟩
    · simp only [inside_append, inside_cons, Inside, forall_loop, inBounds_touch, inBounds_repack, Shape.count, hi8,
        if_true]
      intro h hh
      have hh' := Nat.lt_of_lt_of_le hh hslots
      refine ⟨⟨⟨fun n hn => ⟨fun k hk => ⟨?_, forall_nil⟩, ?_, forall_nil⟩, fun k hk n hn => ⟨?_, ?_, forall_nil⟩⟩, ⟨hh, rfl⟩,
        fun m hm => ⟨fun k hk => ⟨?_, forall_nil⟩, ?_, fun k hk => ⟨?_, ?_, forall_nil⟩⟩⟩, hh, forall_nil⟩
      · exact block_lt hh' (digits_lt hk hn)
      · exact Nat.lt_of_lt_of_le (digits_lt hh hn) hrow
      · exact block_lt hh' (digits_lt hk hn)
      · exact Nat.lt_of_lt_of_le (digits_lt hh hn) hrow
      · exact block_lt hh' (digits_lt hm hk)
      · exact digits_lt hh hm
      · exact block_lt hh' (digits_lt hm hk)
      · exact block_lt hh (digits_lt hm hk)
    · simp only [inside_cons, Inside, forall_loop, inBounds_touch, Shape.count, hi8, if_true]
      intro h hh m hm n hn
      refine ⟨?_, digits_lt hh hm, ?_, ?_, forall_nil⟩
      · exact Nat.lt_of_lt_of_le (block_lt hh (digits_lt hm hn)) hcells
      · exact Nat.lt_of_lt_of_le (digits_lt hh hn) hrow
      · exact block_lt (Nat.lt_of_lt_of_le hh hslots) (digits_lt hm hn)

end GramI8

/-! ### The schedules -/

section Serial

variable {z : Shape} {mask : Int} (hslots : z.slots = z.nh)

include hslots

theorem startSeq_inside : Inside z mask (startSeq z) := by
  unfold startSeq
  simp only [inside_append, inside_cons, Inside, forall_loop, inBounds_touch, Shape.count, hslots]
  exact ⟨⟨fun i hi => ⟨hi, forall_nil⟩, fun i hi => ⟨hi, forall_nil⟩⟩, fun h hh => ⟨hh, forall_nil⟩⟩

theorem carry_inside : Inside z mask (carry z) := by
  unfold carry
  simp only [inside_cons, Inside, forall_loop, inBounds_touch, Shape.count, hslots]
  exact fun h hh => ⟨hh, fun i hi => ⟨block_lt hh hi, block_lt hh hi, forall_nil⟩⟩

theorem startChunk_inside (hcs : 0 < z.csz) (cc : Nat) : Inside z mask (startChunk z cc) := by
  unfold startChunk
  refine inside_append.mpr ⟨inside_loop fun h hh => prep_inside (hslots ▸ hh) hcs, ?_⟩
  split_ifs
  · exact carry_inside hslots
  · exact forall_nil

theorem endChunk_inside (nt cc : Nat) : Inside z mask (endChunk z nt cc) := by
  unfold endChunk
  simp only [inside_append]
  refine ⟨⟨⟨⟨stgs_inside hslots.ge, outStg_inside hslots.ge⟩, ?_⟩, ?_⟩, ?_⟩
  · exact inside_loop fun h hh => post_inside (hslots ▸ hh) nt _
  · simp only [inside_cons, Inside, forall_loop, inBounds_touch, Shape.count, hslots]
    exact fun i hi => ⟨hi, hi, forall_nil⟩
  · simp only [inside_cons, Inside, forall_loop, inBounds_touch, Shape.count, hslots]
    exact fun h hh => ⟨hh, hh, forall_nil⟩

theorem ssmMarshalGi_inside : Inside z mask (ssmMarshalGi z) := by
  apply inside_loop
  intro h hh
  have hS : h < z.slots := hslots ▸ hh
  simp only [inside_append]
  exact ⟨⟨inputOperands_inside hS, stateOperand_inside hS rfl hh⟩, decayOperand_inside hS⟩

theorem pipelined_inside (hcs : 0 < z.csz) (NC nt : Nat) : Inside z mask (pipelined z NC nt) := by
  unfold pipelined
  refine inside_append.mpr ⟨inside_append.mpr ⟨startSeq_inside hslots, inside_loop fun cc _ => ?_⟩, carry_inside hslots⟩
  simp only [inside_append]
  refine ⟨⟨⟨⟨⟨startChunk_inside hslots hcs cc, ?_⟩, ssmMarshalGi_inside hslots⟩, gramStg_inside hslots.ge⟩, ?_⟩,
    endChunk_inside hslots nt cc⟩
  · exact inside_loop fun h hh => gramOperands_inside (hslots ▸ hh)
  · exact inside_loop fun h hh => maskOperand_inside (hslots ▸ hh)

theorem serial_inside_iff {i8 perhead : Bool} {NC : Nat} (hi8 : i8 = true → gramI8 mask = true) (hnh : 0 < z.nh)
    (hcs : 0 < z.csz) (hNC : 0 < NC) (nt : Nat) :
    Inside z mask (serial z i8 perhead NC nt) ↔ (i8 = true → z.csz ≤ z.nc) := by
  have hgram : Inside z mask (if i8 then ssmStgI8 perhead .pSi8 z.csz z.nc z.csz .aS .bS .G z.nh
      else stg z.nh .pS z.csz z.nc z.csz .aS .bS .G) ↔ (i8 = true → z.csz ≤ z.nc) := by
    cases i8 with
    | true =>
        rw [if_pos rfl, ssmStgI8_inside_iff (hi8 rfl) hslots.ge hnh hcs]
        exact ⟨fun h _ => h, fun h => h rfl⟩
    | false => exact iff_of_true (gramStg_inside hslots.ge) nofun
  rw [← hgram]
  unfold serial
  constructor
  · intro hin a ha
    apply hin a
    refine List.mem_append_left _ (List.mem_append_right _ (mem_loop.mpr ⟨0, hNC, ?_⟩))
    exact List.mem_append_left _ (List.mem_append_left _ (List.mem_append_right _ ha))
  · intro hin
    refine inside_append.mpr ⟨inside_append.mpr ⟨startSeq_inside hslots, inside_loop fun cc _ => ?_⟩,
      carry_inside hslots⟩
    simp only [inside_append]
    refine ⟨⟨⟨⟨startChunk_inside hslots hcs cc, ?_⟩, hin⟩, ?_⟩, endChunk_inside hslots nt cc⟩
    · apply inside_loop
      intro h hh
      have hS : h < z.slots := hslots ▸ hh
      simp only [inside_append]
      exact ⟨⟨gramOperands_inside hS, inputOperands_inside hS⟩, stateOperand_inside hS rfl hh⟩
    · apply inside_loop
      intro h hh
      have hS : h < z.slots := hslots ▸ hh
      exact inside_append.mpr ⟨maskOperand_inside hS, decayOperand_inside hS⟩

end Serial

section Batched

variable {z : Shape} {mask : Int} {NC : Nat} (hslots : z.slots = NC * z.nh)

include hslots

theorem batched_inside (hcs : 0 < z.csz) (hNC : 1 < NC) (nt : Nat) : Inside z mask (batched z NC nt) := by
  have hS : ∀ {cc h : Nat}, cc < NC → h < z.nh → cc * z.nh + h < z.slots := by
    intro cc h hcc hh
    rw [hslots]
    exact digits_lt hcc hh
  have hall : z.nh * NC ≤ z.slots := by
    rw [hslots, Nat.mul_comm]
  have hnh : z.nh ≤ z.slots := by
    rw [hslots]
    exact Nat.le_mul_of_pos_left _ (Nat.zero_lt_of_lt hNC)
  unfold batched
  simp only [inside_append]
  refine ⟨⟨⟨⟨⟨⟨⟨⟨⟨?_, gramStg_inside hall⟩, ?_⟩, stgs_inside hall⟩, ?_⟩, ?_⟩, ?_⟩, outStg_inside hall⟩, ?_⟩, ?_⟩
  · apply inside_loop
    intro cc hcc
    refine inside_append.mpr ⟨inside_loop fun h hh => prep_inside (hS hcc hh) hcs,
      inside_loop fun h hh => ?_⟩
    exact inside_append.mpr ⟨gramOperands_inside (hS hcc hh), inputOperands_inside (hS hcc hh)⟩
  · refine inside_loop fun cc hcc => inside_loop fun h hh => ?_
    exact inside_append.mpr ⟨maskOperand_inside (hS hcc hh), decayOperand_inside (hS hcc hh)⟩
  · simp only [inside_cons, Inside, forall_loop, inBounds_touch, Shape.count]
    exact fun h hh i hi => ⟨block_lt (Nat.lt_of_lt_of_le hh hnh) hi, forall_nil⟩
  · simp only [inside_cons, Inside, forall_loop, inBounds_touch, Shape.count]
    intro c hc h hh
    have hfrom := hS (Nat.lt_of_lt_of_le hc (Nat.sub_le NC 1)) hh
    have hto := hS (Nat.add_lt_of_lt_sub hc) hh
    exact ⟨hfrom, fun i hi => ⟨block_lt hfrom hi, block_lt hfrom hi, block_lt hto hi, forall_nil⟩⟩
  · refine inside_loop fun cc hcc => inside_loop fun h hh => ?_
    exact stateOperand_inside (hS hcc hh) rfl (hS hcc hh)
  · exact inside_loop fun cc hcc => inside_loop fun h hh => post_inside (hS hcc hh) nt _
  · simp only [inside_cons, Inside, forall_loop, inBounds_touch, Shape.count]
    intro h hh
    have hlast := hS (Nat.sub_one_lt_of_lt hNC) hh
    exact ⟨hlast, fun i hi => ⟨block_lt hlast hi, block_lt hlast hi, forall_nil⟩⟩

end Batched

/-! ### Every context -/

section Contexts

variable {k : Knobs} {a : ScanArgs} {z : Shape} {c : Option Pool} {p : Pool} {alloc : Bool}

theorem orkSsmCs_pos : 0 < orkSsmCs k := by
  unfold orkSsmCs
  dsimp only
  split_ifs <;> omega

theorem ScanArgs.Accepted.chunks_pos (ha : a.Accepted) : 0 < chunks k a := by
  obtain ⟨⟨-, -, -, -, hnt, -⟩, -⟩ := ha
  apply Nat.div_pos _ orkSsmCs_pos
  have := orkSsmCs_pos (k := k)
  omega

/-- A kept pool is as it was made. -/
def Kept (k : Knobs) (c : Option Pool) : Prop := ∀ p, c = some p → p = .fresh p.key (orkSsmI8Mask k)

theorem Kept.ensure (hc : Kept k c) (h : ssmPoolEnsure k z alloc c = some p) : p = .fresh z (orkSsmI8Mask k) := by
  unfold ssmPoolEnsure at h
  cases c with
  | none =>
      split_ifs at h
      exact (Option.some.inj h).symm
  | some q =>
      dsimp only at h
      split_ifs at h with hkey
      · obtain rfl := Option.some.inj h
        rw [← hkey]
        exact hc q rfl
      · exact (Option.some.inj h).symm

theorem Kept.exists_ensure (hc : Kept k c) (z : Shape) :
    ssmPoolEnsure k z true c = some (.fresh z (orkSsmI8Mask k)) := by
  have hsome : ∃ p, ssmPoolEnsure k z true c = some p := by
    unfold ssmPoolEnsure
    cases c with
    | none => exact ⟨_, rfl⟩
    | some q =>
        by_cases hkey : q.key = z
        · exact ⟨_, if_pos hkey⟩
        · exact ⟨_, (if_neg hkey).trans (if_pos rfl)⟩
  obtain ⟨p, hp⟩ := hsome
  rw [hp, ← hc.ensure hp]

theorem Kept.next (hc : Kept k c) (e : Event) : Kept k (next k c e) := by
  cases e with
  | free =>
      intro q hq
      cases hq
  | scan a alloc fails =>
      change Kept k (orkSsmScanF32 k a alloc fails c).2
      unfold orkSsmScanF32
      by_cases ha : a.Accepted
      · rw [if_neg (not_not_intro ha)]
        cases h : ssmPoolEnsure k (scanShape k a) alloc c with
        | none =>
            intro q hq
            cases hq
        | some p =>
            dsimp only
            split_ifs
            · intro q hq
              cases hq
            · rintro q ⟨⟩
              rw [hc.ensure h]
              rfl
      · rw [if_pos ha]
        exact hc

theorem Reachable.kept (hc : (system k).Reachable c) : Kept k c := by
  apply hc.invariant
  · rintro c rfl
    exact nofun
  · rintro c e _ - hI - ⟨-, rfl⟩
    exact hI.next e

/-- After a scan that went well the pool is warm. -/
theorem reachable_warm (ha : a.Accepted) :
    (system k).Reachable (some (.fresh (scanShape k a) (orkSsmI8Mask k))) := by
  have hstart : (system k).Reachable none := .init rfl
  apply Transition.System.ReachableOn.step hstart trivial (e := .scan a true fun _ => false)
  refine ⟨trivial, ?_⟩
  change _ = (orkSsmScanF32 k a true (fun _ => false) none).2
  unfold orkSsmScanF32
  rw [if_neg (not_not_intro ha), (Reachable.kept hstart).exists_ensure]
  dsimp only
  rw [perform_all, if_neg Bool.false_ne_true]

theorem scanActs_inside_iff (ha : a.Accepted) :
    Inside (scanShape k a) (orkSsmI8Mask k) (scanActs k (.fresh (scanShape k a) (orkSsmI8Mask k)) a) ↔
      gramI8 (orkSsmI8Mask k) = false ∨ orkSsmPipeline k ≠ 0 ∨ (orkSsmCs k : Int) ≤ a.nc := by
  have hNC : 0 < chunks k a := ha.chunks_pos
  obtain ⟨⟨hnc, -, hnh, -, -, hns⟩, -⟩ := ha
  have hcs : 0 < (scanShape k a).csz := orkSsmCs_pos
  have hseq : 0 < a.ns.toNat := by omega
  have hconst : ∀ (n : Nat) (as : List Act), 0 < n →
      (Inside (scanShape k a) (orkSsmI8Mask k) (loop n fun _ => as) ↔ Inside (scanShape k a) (orkSsmI8Mask k) as) := by
    intro n as hn
    exact ⟨fun h => forall_loop.mp h 0 hn, fun h => inside_loop fun _ _ => h⟩
  unfold scanActs
  rw [hconst _ _ hseq]
  by_cases hbatch : orkSsmBatch k ≠ 0 ∧ 1 < chunks k a ∧ gramI8 (orkSsmI8Mask k) = false
  · have hnb : (scanShape k a).nb = chunks k a := if_pos hbatch
    rw [if_pos (hnb ▸ hbatch.2.1)]
    refine iff_of_true (batched_inside ?_ hcs hbatch.2.1 _) (.inl hbatch.2.2)
    rw [Shape.slots, hnb, Nat.mul_comm]
  · have hnb : (scanShape k a).nb = 1 := if_neg hbatch
    have hslots : (scanShape k a).slots = (scanShape k a).nh := by rw [Shape.slots, hnb, Nat.mul_one]
    rw [if_neg (by rw [hnb]; exact Nat.lt_irrefl 1)]
    split_ifs with hpipe
    · exact iff_of_true (pipelined_inside hslots hcs _ _) (.inr (.inl hpipe))
    · have hheads : 0 < (scanShape k a).nh := (by omega : 0 < a.nh.toNat)
      refine (serial_inside_iff hslots (fun h => h) hheads hcs hNC _).trans ?_
      have hnc : (scanShape k a).csz ≤ (scanShape k a).nc ↔ (orkSsmCs k : Int) ≤ a.nc :=
        (Int.le_toNat (by omega)).trans Iff.rfl
      rw [hnc]
      change (gramI8 (orkSsmI8Mask k) = true → _) ↔ _
      cases gramI8 (orkSsmI8Mask k) with
      | false => exact iff_of_true nofun (.inl rfl)
      | true =>
          constructor
          · exact fun h => .inr (.inr (h rfl))
          · rintro (h | h | h)
            · exact absurd h (by decide)
            · exact absurd h hpipe
            · exact fun _ => h

/-- Whatever scans went before, an accepted scan stays inside its pool exactly if its first stage is not int8 or the
chunks are no longer than the state. -/
theorem staysInside_iff (hc : (system k).Reachable c) (ha : a.Accepted) :
    StaysInside k a c ↔
      gramI8 (orkSsmI8Mask k) = false ∨ orkSsmPipeline k ≠ 0 ∨ (orkSsmCs k : Int) ≤ a.nc := by
  have hkept := Reachable.kept hc
  rw [← scanActs_inside_iff ha]
  constructor
  · intro h
    exact forall_perform_iff.mp (h true _ (hkept.exists_ensure _))
  · intro h alloc p hp
    obtain rfl := hkept.ensure hp
    exact forall_perform_iff.mpr h

end Contexts

/-- 128 columns, a state of 64. -/
theorem not_staysInside_short_state : ¬ ∀ (k : Knobs) (a : ScanArgs) (c : Option Pool), (system k).Reachable c →
    a.Accepted → StaysInside k a c := by
  intro h
  have hbad := h ⟨some 1, none, none, none, false⟩ ⟨64, 16, 1, 1, 1, 1⟩ none (.init rfl) (by decide)
    true _ rfl
  have hcond := (scanActs_inside_iff (by decide)).mp (forall_perform_iff.mp hbad)
  exact absurd hcond (by decide)

/-- The second scan of a model whose state is as long as a chunk, on the pool of the first. -/
theorem staysInside_warm :
    StaysInside ⟨some 1, none, none, none, false⟩ ⟨128, 64, 24, 1, 300, 1⟩
      (some (.fresh ⟨128, 64, 24, 128, 1⟩ 1)) :=
  (staysInside_iff (reachable_warm (k := ⟨some 1, none, none, none, false⟩) (a := ⟨128, 64, 24, 1, 300, 1⟩)
    (by decide)) (by decide)).mpr (by decide)


end OrkDriver.Ssm
