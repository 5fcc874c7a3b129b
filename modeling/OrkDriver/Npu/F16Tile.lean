import Mathlib.Data.List.TakeWhile
import Mathlib.Data.Nat.Find
import OrkDriver.Npu.Heights

/-!
The fp16 row tile (`orki_f16_mtile_n`) and the bank split in the words of an fp16 program (`orki_f16_synth`).
-/

namespace OrkDriver.Npu

/-! ### The tile -/

/-- `orki_f16_mtile_n`; the loop runs down. -/
def orkiF16MtileN (e : F16Knobs) (K M N : Nat) : Nat :=
  let sched := orkiF16Sched K
  let cap := orkiF16McapN e K sched N
  if M < 1 ∨ cap < 1 then 0
  else Nat.findGreatest (fun t => orkiF16McOk K N sched t = true ∧ (M % t = 0 ∨ orkiF16McOk K N sched (M % t) = true))
    (if M < cap then M else cap)

/-- A height one program may have: its operands fit the bank split, and it is below the cap. -/
def LegalHeight (e : F16Knobs) (K N h : Nat) : Prop :=
  orkiF16McOk K N (orkiF16Sched K) h = true ∧ h ≤ f16McapNarrown e K (orkiF16Sched K) N

/-- `M` rows can go in programs of `t` rows and one of the rest. -/
def TilesRows (e : F16Knobs) (K N M t : Nat) : Prop := LegalHeight e K N t ∧ (M % t = 0 ∨ LegalHeight e K N (M % t))

/-! ### The words of a program -/

/-- `REGCMD`: pairs of words, the low half of the value over the register, the block over the high half. -/
def regcmd : List (BitVec 32 × BitVec 32) :=
  [(0x00b11040, 0x02010000), (0x00001104, 0x02010000), (0x00001100, 0x02010000), (0x0120100c, 0x02012000),
    (0x000e4004, 0x10010000), (0x0120100c, 0x02012000), (0x00501010, 0x02010000), (0x00091014, 0x02010000),
    (0x00041020, 0x02010001), (0x00201024, 0x0201001f), (0x00011028, 0x02010000), (0x0004102c, 0x02010000),
    (0x04001030, 0x02010000), (0x00401034, 0x02010000), (0x00101038, 0x02010101), (0x00b11040, 0x02010000),
    (0x00011044, 0x02010000), (0x000b104c, 0x02010000), (0x00001050, 0x02010001), (0x00001054, 0x02010001),
    (0x00001058, 0x02010001), (0x0000105c, 0x02010001), (0x00001060, 0x02010000), (0x00001064, 0x02010000),
    (0x00001068, 0x02010000), (0x50001070, 0x0201ffff), (0x00001074, 0x02010000), (0x000f1078, 0x0201000f),
    (0x0004107c, 0x02010000), (0x00001080, 0x02010000), (0x00041084, 0x02010001), (0x00201088, 0x02010000),
    (0x00001100, 0x02010000), (0x00001104, 0x02010000), (0x60001110, 0x0201ffff), (0x00001140, 0x02010000),
    (0x00001144, 0x02010000), (0x00001148, 0x02010000), (0x0000114c, 0x02010000), (0x00001150, 0x02010000),
    (0x00001154, 0x02010000), (0x00001158, 0x02010000), (0x0000115c, 0x02010000), (0x00001160, 0x02010000),
    (0x00001164, 0x02010000), (0x00001168, 0x02010000), (0x0000116c, 0x02010000), (0x00001170, 0x02010000),
    (0x00001174, 0x02010000), (0x00001178, 0x02010000), (0x0000117c, 0x02010000), (0x00001180, 0x02010000),
    (0x00001184, 0x02010000), (0x02013010, 0x08010000), (0x00003014, 0x08010003), (0x000f3018, 0x08010000),
    (0x0000301c, 0x08010000), (0x00003030, 0x08010000), (0x01e4400c, 0x10010000), (0x00024010, 0x1001a800),
    (0x00004014, 0x10010000), (0x30004020, 0x1001ffff), (0x00104024, 0x10010000), (0x00004030, 0x10010000),
    (0x00034034, 0x10010000), (0x00034038, 0x10010003), (0x000f403c, 0x1001000f), (0x00534040, 0x10010000),
    (0x00004044, 0x10010000), (0x00004048, 0x10010000), (0x0000404c, 0x10010000), (0x036e4050, 0x10010000),
    (0x00004054, 0x10010000), (0x000f4058, 0x10010000), (0x0000405c, 0x10010003), (0x00534060, 0x10010000),
    (0x00004064, 0x10010000), (0x00004068, 0x10010000), (0x0000406c, 0x10010000), (0x03834070, 0x10010000),
    (0x00004074, 0x10010000), (0x00014078, 0x10010000), (0x0000407c, 0x10010000), (0x00004080, 0x10010000),
    (0x00014084, 0x10010000), (0x00004088, 0x10010000), (0x00004090, 0x10010000), (0x00004094, 0x10010000),
    (0x00004098, 0x10010000), (0x0000409c, 0x10010000), (0x000040a0, 0x10010000), (0x000040a4, 0x10010000),
    (0x000040a8, 0x10010000), (0x000040ac, 0x10010000), (0x004040c0, 0x10010000), (0x000040c4, 0x10010000),
    (0x00004100, 0x10010000), (0x00004104, 0x10010000), (0x00004108, 0x10010000), (0x0000410c, 0x10010000),
    (0x00004110, 0x10010000), (0x00004114, 0x10010000), (0x00004118, 0x10010000), (0x0000411c, 0x10010000),
    (0x00004120, 0x10010000), (0x00004124, 0x10010000), (0x00004128, 0x10010000), (0x0000412c, 0x10010000),
    (0x00000000, 0x00000000), (0x00000014, 0x01010000), (0x00000000, 0x00410000), (0x000d0008, 0x00810000)]

/-- The block and the register of a pair of words. -/
def keyOf (w : BitVec 32 × BitVec 32) : BitVec 32 × BitVec 32 := (w.2 >>> 16, w.1 &&& 0xffff#32)

/-- The value a pair of words writes. -/
def valOf (w : BitVec 32 × BitVec 32) : BitVec 32 := w.1 >>> 16 ||| w.2 <<< 16

/-- `orki_setr`. -/
def orkiSetr (rc : List (BitVec 32 × BitVec 32)) (b o v : BitVec 32) : List (BitVec 32 × BitVec 32) :=
  rc.map fun w => if keyOf w = (b, o) then (o ||| (v &&& 0xffff#32) <<< 16, b <<< 16 ||| (v >>> 16 &&& 0xffff#32)) else w

/-- `struct ork_regovr`. -/
structure RegOvr where
  blk : BitVec 32
  reg : BitVec 32
  val : BitVec 32

/-- What `0x1040` is set to with the K-reduction schedule. -/
def schedSplit (K mc : Nat) : Int :=
  let mg := if (mc + 63) / 64 < 1 then 1 else (mc + 63) / 64
  let v := schedBase 256 K - schedSlope 256 K * (mg - 1 : Nat)
  if v < 0x1b then 0x1b else v

/-- The writes of `orki_f16_synth` that say the shape. -/
def f16Shape (mc K N : Nat) : List RegOvr :=
  let u := fun n : Nat => BitVec.ofNat 32 n
  [⟨0x201, 0x1024, u (K - 1) <<< 16 ||| u K⟩, ⟨0x201, 0x1030, u (K * N * 2)⟩, ⟨0x201, 0x1034, u (K * 2)⟩,
    ⟨0x201, 0x1044, u (K / 32)⟩, ⟨0x201, 0x1088, u K⟩, ⟨0x201, 0x107c, u (K / 8)⟩,
    ⟨0x201, 0x1020, 0x10000#32 ||| u mc⟩, ⟨0x201, 0x1084, 0x10000#32 ||| u mc⟩, ⟨0x201, 0x102c, u mc⟩,
    ⟨0x1001, 0x4034, u (mc - 1)⟩, ⟨0x1001, 0x405c, u (mc - 1) <<< 16⟩, ⟨0x801, 0x3014, u (mc - 1) <<< 16⟩,
    ⟨0x1001, 0x403c, u (N - 1) <<< 16 ||| u (N - 1)⟩, ⟨0x1001, 0x4058, u (N - 1)⟩,
    ⟨0x1001, 0x4038, u (N / 4 - 1) <<< 16 ||| u (N / 4 - 1)⟩, ⟨0x201, 0x1038, 0x1010000#32 ||| u N⟩,
    ⟨0x801, 0x3018, u (N - 1)⟩]

/-- The writes that say the schedule. -/
def f16Schedule (mc K : Nat) (sched : Bool) (cbuf : Nat) : List RegOvr :=
  if sched then
    let R := pow2Floor (if cbuf / K < 1 then 1 else cbuf / K)
    let rows := if mc + 1 < R then mc + 1 else R
    [⟨0x201, 0x1010, BitVec.ofNat 32 (16 * rows)⟩, ⟨0x201, 0x1040, BitVec.ofInt 32 (schedSplit K mc)⟩]
  else [⟨0x201, 0x1010, BitVec.ofNat 32 (16 * (mc + 1))⟩]

/-- The register writes of `orki_f16_synth`, in its order; the last are those of `ork_f16_fuzz_add`. -/
def f16Writes (mc K N : Nat) (aA aB aC : BitVec 32) (sched : Bool) (cbuf : Nat) (ovr : List RegOvr) : List RegOvr :=
  f16Shape mc K N ++ f16Schedule mc K sched cbuf ++
    [⟨0x201, 0x1070, aA⟩, ⟨0x201, 0x1110, aB⟩, ⟨0x1001, 0x4020, aC⟩] ++ ovr

/-- The words `orki_f16_synth` leaves. -/
def f16Words (mc K N : Nat) (aA aB aC : BitVec 32) (sched : Bool) (cbuf : Nat) (ovr : List RegOvr) :
    List (BitVec 32 × BitVec 32) :=
  (f16Writes mc K N aA aB aC sched cbuf ovr).foldl (fun rc w => orkiSetr rc w.blk w.reg w.val) regcmd

/-- `RK_CNA_CBUF_CON0`. -/
def cbufCon0 : BitVec 32 × BitVec 32 := (0x201, 0x1040)

/-- The operands of a program of `h` rows in the banks of a split: the activations from bank 0, the weight window behind
the data banks, within the 12 banks of 32 KB; a weight of up to four banks has two at least. -/
def BanksSuffice (K N h : Nat) (v : BitVec 32) : Prop :=
  let data := v.toNat % 16
  let weight := v.toNat / 16 % 16
  (h * K * 2 + 32767) / 32768 ≤ data ∧ 1 ≤ weight ∧ data + min ((K * N * 2 + 32767) / 32768) weight ≤ 12 ∧
    (K * N * 2 ≤ 4 * 32768 → 2 ≤ weight)

/-! ### Words -/

theorem keyOf_setr {b o : BitVec 32} (v : BitVec 32) {w : BitVec 32 × BitVec 32} (hw : keyOf w = (b, o)) :
    keyOf (o ||| (v &&& 0xffff#32) <<< 16, b <<< 16 ||| (v >>> 16 &&& 0xffff#32)) = (b, o) ∧
      valOf (o ||| (v &&& 0xffff#32) <<< 16, b <<< 16 ||| (v >>> 16 &&& 0xffff#32)) = v := by
  obtain ⟨rfl, rfl⟩ := Prod.ext_iff.mp hw
  have hmask : ∀ i (h : i < 32), (0xffff#32)[i] = decide (i < 16) := by decide
  constructor
  · unfold keyOf
    refine Prod.ext ?_ ?_
    · ext i hi
      simp
      grind
    · ext i hi
      simp [hmask]
      grind
  · unfold valOf keyOf
    ext i hi
    simp [hmask]
    grind

/-- Register `k` is among the words, and wherever it is its value is `v`. -/
def Carries (k : BitVec 32 × BitVec 32) (v : BitVec 32) (rc : List (BitVec 32 × BitVec 32)) : Prop :=
  (∃ w ∈ rc, keyOf w = k) ∧ ∀ w ∈ rc, keyOf w = k → valOf w = v

namespace Carries

variable {k : BitVec 32 × BitVec 32} {v v' b o : BitVec 32} {rc : List (BitVec 32 × BitVec 32)}

theorem keep (h : Carries k v rc) (hk : (b, o) ≠ k) : Carries k v (orkiSetr rc b o v') := by
  obtain ⟨⟨w, hw, hkey⟩, hall⟩ := h
  constructor
  · refine ⟨w, List.mem_map.mpr ⟨w, hw, if_neg fun heq => hk (heq.symm.trans hkey)⟩, hkey⟩
  · intro x hx hx'
    obtain ⟨y, hy, rfl⟩ := List.mem_map.mp hx
    split_ifs at hx' ⊢ with heq
    · exact absurd ((keyOf_setr v' heq).1.symm.trans hx') hk
    · exact hall y hy hx'

theorem set (h : ∃ w ∈ rc, keyOf w = (b, o)) : Carries (b, o) v (orkiSetr rc b o v) := by
  obtain ⟨w, hw, hkey⟩ := h
  constructor
  · exact ⟨_, List.mem_map.mpr ⟨w, hw, if_pos hkey⟩, (keyOf_setr v hkey).1⟩
  · intro x hx hx'
    obtain ⟨y, hy, rfl⟩ := List.mem_map.mp hx
    split_ifs at hx' ⊢ with heq
    · exact (keyOf_setr v heq).2
    · exact absurd hx' heq

theorem foldl {l : List RegOvr} (h : Carries k v rc) (hl : ∀ w ∈ l, (w.blk, w.reg) ≠ k) :
    Carries k v (l.foldl (fun rc w => orkiSetr rc w.blk w.reg w.val) rc) := by
  induction l generalizing rc with
  | nil => exact h
  | cons w l ih => exact ih (h.keep (hl w List.mem_cons_self)) fun x hx => hl x (List.mem_cons_of_mem w hx)

end Carries

theorem regcmd_carries : Carries cbufCon0 0xb1 regcmd := by
  have hany : regcmd.any (fun w => keyOf w = cbufCon0) = true := by decide
  have hall : regcmd.all (fun w => keyOf w = cbufCon0 → valOf w = 0xb1) = true := by decide
  constructor
  · obtain ⟨w, hw, hkey⟩ := List.any_eq_true.mp hany
    exact ⟨w, hw, of_decide_eq_true hkey⟩
  · exact fun w hw => of_decide_eq_true (List.all_eq_true.mp hall w hw)

theorem Carries.schedule {rc : List (BitVec 32 × BitVec 32)} (h : Carries cbufCon0 0xb1 rc) (mc K : Nat) (sched : Bool)
    (cbuf : Nat) : Carries cbufCon0 (if sched then BitVec.ofInt 32 (schedSplit K mc) else 0xb1)
      ((f16Schedule mc K sched cbuf).foldl (fun rc w => orkiSetr rc w.blk w.reg w.val) rc) := by
  have hne : ((0x201 : BitVec 32), (0x1010 : BitVec 32)) ≠ cbufCon0 := by decide
  cases sched with
  | true => exact Carries.set (h.keep hne).1
  | false => exact h.keep hne

/-- What the words set the bank split to. -/
theorem f16Words_carries (mc K N : Nat) (aA aB aC : BitVec 32) (sched : Bool) (cbuf : Nat) {ovr : List RegOvr}
    (h : ∀ w ∈ ovr, (w.blk, w.reg) ≠ cbufCon0) : Carries cbufCon0
      (if sched then BitVec.ofInt 32 (schedSplit K mc) else 0xb1) (f16Words mc K N aA aB aC sched cbuf ovr) := by
  have hshape : ∀ w ∈ f16Shape mc K N, (w.blk, w.reg) ≠ cbufCon0 := by simp [f16Shape, cbufCon0]
  unfold f16Words f16Writes
  rw [List.foldl_append, List.foldl_append, List.foldl_append]
  apply Carries.foldl _ h
  apply Carries.foldl _ (by simp [cbufCon0])
  apply Carries.schedule
  exact Carries.foldl regcmd_carries hshape

/-! ### Banks -/

theorem sched_constants {K : Nat} (h : orkiF16Sched K = true) :
    (0x1b ≤ schedBase 256 K ∧ schedBase 256 K ≤ 0xb8) ∧ 1 ≤ schedSlope 256 K ∧
      1 ≤ ((List.range 16).takeWhile fun i => decide (0x20 ≤ schedBase 256 K - schedSlope 256 K * i)).length := by
  rcases orkiF16Sched_cases h with rfl | rfl | rfl | rfl <;> decide

theorem schedSplit_bounds {K : Nat} (h : orkiF16Sched K = true) (mc : Nat) :
    0x1b ≤ schedSplit K mc ∧ schedSplit K mc ≤ 0xb8 := by
  obtain ⟨⟨-, hhi⟩, hslope, -⟩ := sched_constants h
  have hstep : ∀ m : Nat, 0 ≤ schedSlope 256 K * m := fun m => Int.mul_nonneg (by omega) (Int.natCast_nonneg m)
  have h0 := hstep (1 - 1)
  have h1 := hstep ((mc + 63) / 64 - 1)
  unfold schedSplit
  dsimp only
  split_ifs <;> omega

theorem of_lt_takeWhile {α : Type*} {p : α → Bool} {l : List α} {i : Nat} (h : i < (l.takeWhile p).length)
    (hl : i < l.length) : p l[i] = true := by
  rw [← (List.takeWhile_prefix p).getElem h]
  exact List.mem_takeWhile_imp (List.getElem_mem h)

/-- What the loop of `f16_mcap_narrown` counts. -/
theorem of_lt_groups {p : Int → Bool} {i : Nat}
    (h : i < (((List.range 16).map fun a : Nat => (a : Int)).takeWhile p).length) : p i = true := by
  have hl := Nat.lt_of_lt_of_le h (List.takeWhile_prefix p).length_le
  have hp := of_lt_takeWhile h hl
  rwa [List.getElem_map, List.getElem_range] at hp

/-- Below the cap of a small weight there are two banks for it. -/
theorem schedSplit_narrow {e : F16Knobs} {K N h : Nat} (hs : orkiF16Sched K = true) (hK : 1 ≤ K) (hN : 1 ≤ N)
    (hfit : K * N * 2 ≤ 4 * 32768) (hh : h ≤ f16McapNarrown e K true N) : 0x20 ≤ schedSplit K h := by
  obtain ⟨-, hslope, hmg⟩ := sched_constants hs
  obtain ⟨mgmax, hdef⟩ : ∃ m, ((List.range 16).takeWhile fun i =>
      decide (0x20 ≤ schedBase 256 K - schedSlope 256 K * i)).length = m := ⟨_, rfl⟩
  rw [hdef] at hmg
  have hgroups : ∀ i < mgmax, 0x20 ≤ schedBase 256 K - schedSlope 256 K * i := by
    intro i hi
    rw [← hdef] at hi
    have hp := of_lt_groups hi
    exact of_decide_eq_true hp
  have hcap : h ≤ mgmax * 64 := by
    unfold f16McapNarrown at hh
    dsimp only at hh
    rw [decide_eq_false (by omega), if_neg (by decide), if_neg (by omega), if_neg (by omega), hdef, if_neg (by omega)] at hh
    split_ifs at hh <;> omega
  have hv : 0x20 ≤ schedBase 256 K - schedSlope 256 K * ((if (h + 63) / 64 < 1 then 1 else (h + 63) / 64) - 1 : Nat) :=
    hgroups _ (by split_ifs <;> omega)
  unfold schedSplit
  dsimp only
  rw [if_neg (by omega)]
  exact hv

theorem f16BankSplit_eq (K mc : Nat) (sched : Bool) : f16BankSplit K mc sched =
    ((if sched then schedSplit K mc else 0xb1).toNat % 16, (if sched then schedSplit K mc else 0xb1).toNat / 16 % 16) :=
  rfl

theorem banks_of_legal {e : F16Knobs} {K N h : Nat} (hl : LegalHeight e K N h) :
    BanksSuffice K N h (if orkiF16Sched K then BitVec.ofInt 32 (schedSplit K h) else 0xb1) := by
  obtain ⟨hok, hcap⟩ := hl
  unfold orkiF16McOk at hok
  split_ifs at hok with hpos
  obtain ⟨hdata, hsum⟩ := of_decide_eq_true hok
  rw [f16BankSplit_eq] at hdata hsum
  have hmin : ∀ w d : Nat, (if d < w then d else w) = min d w := by
    intro w d
    split_ifs <;> omega
  rw [hmin] at hsum
  unfold BanksSuffice
  dsimp only at hdata hsum ⊢
  cases hs : orkiF16Sched K with
  | false =>
      rw [hs] at hdata hsum
      simp only [Bool.false_eq_true, if_false] at hdata hsum ⊢
      exact ⟨hdata, by decide, hsum, fun _ => by decide⟩
  | true =>
      rw [hs] at hdata hsum hcap
      obtain ⟨hlo, hhi⟩ := schedSplit_bounds hs h
      have hword : (BitVec.ofInt 32 (schedSplit K h)).toNat = (schedSplit K h).toNat := by
        rw [BitVec.toNat_ofInt]
        omega
      simp only [if_true] at hdata hsum ⊢
      have hweight : 1 ≤ (schedSplit K h).toNat / 16 % 16 := by
        clear hdata hsum
        omega
      rw [hword]
      refine ⟨hdata, hweight, hsum, fun hfit => ?_⟩
      clear hdata hsum
      have := schedSplit_narrow hs (by omega) (by omega) hfit hcap
      omega

/-! ### The tile -/

theorem legalHeight_iff (e : F16Knobs) (K N h : Nat) : LegalHeight e K N h ↔
    orkiF16McOk K N (orkiF16Sched K) h = true ∧ h ≤ orkiF16McapN e K (orkiF16Sched K) N := by
  refine and_congr_right fun hok => ⟨fun hle => ?_, fun hle => Nat.le_trans hle (lowerTo_le _ _)⟩
  exact le_lowerTo hok hle

theorem not_mcOk_zero (K N : Nat) (sched : Bool) : orkiF16McOk K N sched 0 = false := by
  unfold orkiF16McOk
  rw [if_pos (.inl Nat.one_pos)]

theorem tilesRows_iff (e : F16Knobs) (K N M t : Nat) : TilesRows e K N M t ↔
    t ≤ orkiF16McapN e K (orkiF16Sched K) N ∧ orkiF16McOk K N (orkiF16Sched K) t = true ∧
      (M % t = 0 ∨ orkiF16McOk K N (orkiF16Sched K) (M % t) = true) := by
  unfold TilesRows
  rw [legalHeight_iff, legalHeight_iff]
  constructor
  · rintro ⟨⟨hok, hle⟩, hrem⟩
    exact ⟨hle, hok, hrem.imp_right And.left⟩
  · rintro ⟨hle, hok, hrem⟩
    have ht : 0 < t := by
      rcases Nat.eq_zero_or_pos t with rfl | ht
      · rw [not_mcOk_zero] at hok
        cases hok
      · exact ht
    exact ⟨⟨hok, hle⟩, hrem.imp_right fun hr => ⟨hr, Nat.le_trans (Nat.mod_lt M ht).le hle⟩⟩

theorem TilesRows.pos {e : F16Knobs} {K N M t : Nat} (h : TilesRows e K N M t) : 0 < t := by
  rcases Nat.eq_zero_or_pos t with rfl | ht
  · have hok := h.1.1
    rw [not_mcOk_zero] at hok
    cases hok
  · exact ht

/-- The search ends at the largest tile, or at 0 where there is none. -/
theorem orkiF16MtileN_largest (e : F16Knobs) (K N M : Nat) :
    orkiF16MtileN e K M N = 0 ∧ (∀ t ≤ M, ¬ TilesRows e K N M t) ∨
      (0 < orkiF16MtileN e K M N ∧ orkiF16MtileN e K M N ≤ M) ∧ TilesRows e K N M (orkiF16MtileN e K M N) ∧
        ∀ t ≤ M, TilesRows e K N M t → t ≤ orkiF16MtileN e K M N := by
  have hcap : 0 < orkiF16McapN e K (orkiF16Sched K) N := lowerTo_pos (f16McapNarrown_pos e K _ N)
  rcases Nat.eq_zero_or_pos M with rfl | hM
  · left
    refine ⟨?_, fun t ht h => absurd h.pos (by omega)⟩
    unfold orkiF16MtileN
    rw [if_pos (.inl Nat.one_pos)]
  have hdef : orkiF16MtileN e K M N = Nat.findGreatest (fun t => orkiF16McOk K N (orkiF16Sched K) t = true ∧
      (M % t = 0 ∨ orkiF16McOk K N (orkiF16Sched K) (M % t) = true)) (min M (orkiF16McapN e K (orkiF16Sched K) N)) := by
    unfold orkiF16MtileN
    dsimp only
    rw [if_neg (by omega)]
    congr 1
    split_ifs <;> omega
  rcases Nat.eq_zero_or_pos (orkiF16MtileN e K M N) with h0 | hpos
  · refine .inl ⟨h0, fun t ht h => ?_⟩
    obtain ⟨hle, hok⟩ := (tilesRows_iff e K N M t).mp h
    rw [hdef] at h0
    exact Nat.findGreatest_eq_zero_iff.mp h0 h.pos (le_min ht hle) hok
  · have hle : orkiF16MtileN e K M N ≤ min M (orkiF16McapN e K (orkiF16Sched K) N) := by
      rw [hdef]
      exact Nat.findGreatest_le _
    refine .inr ⟨⟨hpos, hle.trans (min_le_left _ _)⟩, ?_, fun t ht h => ?_⟩
    · refine (tilesRows_iff e K N M _).mpr ⟨hle.trans (min_le_right _ _), ?_⟩
      rw [hdef] at hpos ⊢
      exact Nat.findGreatest_of_ne_zero rfl (Nat.ne_of_gt hpos)
    · obtain ⟨hle, hok⟩ := (tilesRows_iff e K N M t).mp h
      rw [hdef]
      exact Nat.le_findGreatest (le_min ht hle) hok

/-- The tile is the largest there is, and 0 only if there is none; every legal height has its banks. -/
theorem orkiF16MtileN_spec (e : F16Knobs) (K N M : Nat) :
    (orkiF16MtileN e K M N = 0 ∧ (∀ t ≤ M, ¬ TilesRows e K N M t) ∨
      (0 < orkiF16MtileN e K M N ∧ orkiF16MtileN e K M N ≤ M) ∧ TilesRows e K N M (orkiF16MtileN e K M N) ∧
        ∀ t ≤ M, TilesRows e K N M t → t ≤ orkiF16MtileN e K M N) ∧
    ∀ h, LegalHeight e K N h → ∀ (aA aB aC : BitVec 32) (cbuf : Nat) (ovr : List RegOvr),
      (∀ w ∈ ovr, (w.blk, w.reg) ≠ cbufCon0) → ∃ v, BanksSuffice K N h v ∧
        Carries cbufCon0 v (f16Words h K N aA aB aC (orkiF16Sched K) cbuf ovr) := by
  refine ⟨orkiF16MtileN_largest e K N M, fun h hl aA aB aC cbuf ovr hovr => ?_⟩
  exact ⟨_, banks_of_legal hl, f16Words_carries h K N aA aB aC _ cbuf hovr⟩

/-- 128 rows at `K = 1024`, `N = 16`: eight data banks, four for the weight. -/
theorem orkiF16MtileN_spec_1024 : ∃ v, BanksSuffice 1024 16 128 v ∧
    Carries cbufCon0 v (f16Words 128 1024 16 0 0 0 (orkiF16Sched 1024) 32768 []) := by
  refine (orkiF16MtileN_spec ⟨0, 0⟩ 1024 16 128).2 128 ?_ 0 0 0 32768 [] fun w hw => absurd hw List.not_mem_nil
  unfold LegalHeight
  decide

end OrkDriver.Npu
