import Mathlib.Tactic.Positivity
import OrkDriver.Lib.Block

/-!
`ork_i8_npu_row_max` (`npu/i8/run.c`): the maximum of each row, by halving all rows at once on the device down to 16
elements, the rest on the CPU.
-/

namespace OrkDriver.Norm

open OrkDriver.Lib

/-! ### The code -/

/-- `ORK_SDP_MAXM`. -/
def orkSdpMaxm : Nat := 8176

/-- The shapes that the element-wise ops of the device take: rows up to the cap, and whole atoms of 16 channels. -/
def opAccepts (M N : Nat) : Prop := ¬ (M < 1 ∨ orkSdpMaxm < M ∨ N < 16 ∨ 8192 < N ∨ N % 16 ≠ 0)

instance (M N : Nat) : Decidable (opAccepts M N) := inferInstanceAs (Decidable (¬ _))

/-- `RMCUBE(m,n)`. -/
def rmcube (M m n : Nat) : Nat := n / 16 * (M * 16) + m * 16 + n % 16

/-- A device op of `M` rows and `h` channels, its second operand `off` bytes behind its first. -/
def maxOp (M h off : Nat) (cur oth : Nat → Int) : Nat → Int :=
  stores oth ((List.range M).flatMap fun m => (List.range h).map fun n =>
    (rmcube M m n, max (cur (rmcube M m n)) (cur (off + rmcube M m n))))

/-- What a run finds: PPU fusion, whether buffers are granted, and which submits are accepted. -/
structure RowMaxEnv where
  fuse : Bool
  granted : Bool
  submits : Nat → Bool

/-- The loop, from submit `i` on: the width it ends with and the buffer, or the failed submit. -/
def halve (v : RowMaxEnv) (M : Nat) (i curN : Nat) (cur oth : Nat → Int) : Option (Nat × (Nat → Int)) :=
  if 16 < curN then
    let h := curN / 2
    if v.submits i then halve v M (i + 1) h (maxOp M h (h / 16 * M * 16) cur oth) cur else none
  else some (curN, cur)
termination_by curN
decreasing_by omega

/-- The widths of the ops of the loop. -/
def opWidths (curN : Nat) : List Nat := if 16 < curN then curN / 2 :: opWidths (curN / 2) else []
termination_by curN
decreasing_by omega

/-- `int mx=-128; for(..) if(v>mx) mx=v;` -/
def tailMax (n : Nat) (f : Nat → Int) : Int := (List.range n).foldl (fun mx i => if mx < f i then f i else mx) (-128)

/-- The first buffer: `memset`, and the matrix as a cube. -/
def rmFill (M N : Nat) (a : Nat → Int8) : Nat → Int :=
  stores (fun _ => 0) ((List.range M).flatMap fun m => (List.range N).map fun n => (rmcube M m n, (a (m * N + n)).toInt))

/-- `ork_i8_npu_row_max`. -/
def orkI8NpuRowMax (v : RowMaxEnv) (a : Nat → Int8) (M N : Nat) (out : Nat → Int) : Int × (Nat → Int) :=
  if v.fuse = false then (-3, out)
  else if ¬ opAccepts M N then (-2, out)
  else if v.granted = false then (-2, out)
  else
    match halve v M 0 N (rmFill M N a) (fun _ => 0) with
    | none => (-1, out)
    | some (n, r) => (0, fun m => if m < M then tailMax n fun j => r (rmcube M m j) else out m)

/-! ### Rows of a cube -/

section

variable {M N h m n off curN i : Nat} {cur oth : Nat → Int} {v : RowMaxEnv}

theorem rmcube_inj {m' n' : Nat} (hm : m < M) (hm' : m' < M) (h : rmcube M m n = rmcube M m' n') : m = m' ∧ n = n' := by
  have hmod := Nat.mod_lt n (show 0 < 16 by decide)
  have hmod' := Nat.mod_lt n' (show 0 < 16 by decide)
  unfold rmcube at h
  rw [Nat.add_assoc, Nat.add_assoc] at h
  obtain ⟨hdiv, hin⟩ := digits_inj (digits_lt hm hmod) (digits_lt hm' hmod') h
  obtain ⟨hrow, hcol⟩ := digits_inj hmod hmod' hin
  refine ⟨hrow, ?_⟩
  rw [← Nat.div_add_mod' n 16, ← Nat.div_add_mod' n' 16, hdiv, hcol]

theorem rmcube_add (M m n b : Nat) : b * M * 16 + rmcube M m n = rmcube M m (16 * b + n) := by
  unfold rmcube
  rw [Nat.mul_add_div (by decide), Nat.mul_add_mod, Nat.add_mul, Nat.mul_assoc b]
  omega

/-- Stores to the cells of a cube. -/
theorem stores_rmcube {f : Nat → Nat → Int} (mem : Nat → Int) (hm : m < M) (hn : n < N) :
    stores mem ((List.range M).flatMap fun m => (List.range N).map fun n => (rmcube M m n, f m n)) (rmcube M m n) = f m n := by
  apply stores.of_mem
  · exact ⟨_, List.mem_flatMap.mpr ⟨m, List.mem_range.mpr hm, List.mem_map_of_mem (List.mem_range.mpr hn)⟩, rfl⟩
  · intro x hx haddr
    obtain ⟨m', hm', hx⟩ := List.mem_flatMap.mp hx
    obtain ⟨n', -, rfl⟩ := List.mem_map.mp hx
    obtain ⟨rfl, rfl⟩ := rmcube_inj (List.mem_range.mp hm') hm haddr
    rfl

/-- An op of the loop takes the channels of its second operand from whole atoms on. -/
theorem maxOp_cell (cur oth : Nat → Int) (hm : m < M) (hn : n < h) :
    maxOp M h (h / 16 * M * 16) cur oth (rmcube M m n) =
      max (cur (rmcube M m n)) (cur (rmcube M m (16 * (h / 16) + n))) := by
  unfold maxOp
  rw [stores_rmcube oth hm hn, rmcube_add]

/-! ### Maxima -/

theorem tailMax_le_iff {f : Nat → Int} {b : Int} : tailMax n f ≤ b ↔ -128 ≤ b ∧ ∀ j < n, f j ≤ b := by
  unfold tailMax
  induction n with
  | zero => simp
  | succ n ih =>
    rw [List.range_succ, List.foldl_append, List.foldl_cons, List.foldl_nil]
    constructor
    · intro hle
      split at hle
      next hlt =>
        obtain ⟨hb, hall⟩ := ih.mp (by omega)
        refine ⟨hb, fun j hj => ?_⟩
        rcases Nat.lt_succ_iff_lt_or_eq.mp hj with hj | rfl
        · exact hall j hj
        · exact hle
      next hge =>
        obtain ⟨hb, hall⟩ := ih.mp hle
        refine ⟨hb, fun j hj => ?_⟩
        rcases Nat.lt_succ_iff_lt_or_eq.mp hj with hj | rfl
        · exact hall j hj
        · omega
    · rintro ⟨hb, hall⟩
      have hle := ih.mpr ⟨hb, fun j hj => hall j (Nat.lt_succ_of_lt hj)⟩
      split
      · exact hall n (Nat.lt_succ_self n)
      · exact hle

theorem tailMax_congr {f g : Nat → Int} (h : ∀ j < n, f j = g j) : tailMax n f = tailMax n g := by
  apply eq_of_forall_ge_iff
  intro b
  rw [tailMax_le_iff, tailMax_le_iff]
  exact and_congr_right fun _ => forall₂_congr fun j hj => by rw [h j hj]

/-- Halving a row by maxima keeps its maximum. -/
theorem tailMax_halve {f : Nat → Int} : tailMax h (fun j => max (f j) (f (h + j))) = tailMax (2 * h) f := by
  apply eq_of_forall_ge_iff
  intro b
  rw [tailMax_le_iff, tailMax_le_iff]
  apply and_congr_right
  intro _
  constructor
  · intro hall j hj
    rcases Nat.lt_or_ge j h with hlt | hge
    · exact (le_max_left _ _).trans (hall j hlt)
    · have hle := (le_max_right _ _).trans (hall (j - h) (by omega))
      rwa [Nat.add_sub_cancel' hge] at hle
  · intro hall j hj
    exact max_le (hall j (by omega)) (hall (h + j) (by omega))

/-- A maximum of bytes is one of them. -/
theorem exists_eq_tailMax {f : Nat → Int} (hf : ∀ j, -128 ≤ f j) (hn : 0 < n) : ∃ j < n, tailMax n f = f j := by
  by_contra hnone
  have hlt : ∀ j < n, f j < tailMax n f := by
    intro j hj
    have hle := (tailMax_le_iff.mp (le_refl (tailMax n f))).2 j hj
    exact lt_of_le_of_ne hle fun heq => hnone ⟨j, hj, heq.symm⟩
  have hle : tailMax n f ≤ tailMax n f - 1 := by
    have h0 := hlt 0 hn
    have := hf 0
    exact tailMax_le_iff.mpr ⟨by omega, fun j hj => by have := hlt j hj; omega⟩
  omega

/-! ### Widths -/

/-- Halving such a width ends at 16. -/
def IsAtomPower (N : Nat) : Prop := ∃ k, N = 16 * 2 ^ k

theorem IsAtomPower.double (h : IsAtomPower n) : IsAtomPower (2 * n) := by
  obtain ⟨k, rfl⟩ := h
  exact ⟨k + 1, by rw [pow_succ', Nat.mul_left_comm]⟩

theorem IsAtomPower.half (h : IsAtomPower n) (hn : 16 < n) : n = 2 * (n / 2) ∧ IsAtomPower (n / 2) := by
  obtain ⟨k, rfl⟩ := h
  cases k with
  | zero => omega
  | succ k =>
    have heq : 16 * 2 ^ (k + 1) = 2 * (16 * 2 ^ k) := by rw [pow_succ', Nat.mul_left_comm]
    rw [heq, Nat.mul_div_cancel_left _ (by decide)]
    exact ⟨rfl, k, rfl⟩

theorem IsAtomPower.opWidths (h : IsAtomPower N) (hM : opAccepts M N) : ∀ w ∈ opWidths N, opAccepts M w := by
  induction N using Nat.strong_induction_on with
  | _ N ih =>
    intro w hw
    rw [Norm.opWidths] at hw
    split at hw
    next hN =>
      obtain ⟨heq, hhalf⟩ := h.half hN
      have hacc : opAccepts M (N / 2) := by
        obtain ⟨k, hk⟩ := hhalf
        have hpos : 0 < 2 ^ k := by positivity
        unfold opAccepts at hM ⊢
        omega
      rcases List.mem_cons.mp hw with rfl | hw
      · exact hacc
      · exact ih (N / 2) (by omega) hhalf hacc w hw
    next => exact absurd hw List.not_mem_nil

theorem isAtomPower_of_opWidths (hN : opAccepts M N) (h : ∀ w ∈ opWidths N, opAccepts M w) : IsAtomPower N := by
  induction N using Nat.strong_induction_on with
  | _ N ih =>
    rw [opWidths] at h
    split at h
    next hlt =>
      have hhalf := h (N / 2) List.mem_cons_self
      have hpow := ih (N / 2) (by omega) hhalf fun w hw => h w (List.mem_cons_of_mem _ hw)
      have heq : 2 * (N / 2) = N := by
        unfold opAccepts at hN
        omega
      exact heq ▸ hpow.double
    next hlt =>
      unfold opAccepts at hN
      exact ⟨0, by omega⟩

/-! ### The loop -/

theorem halve_exact (h : IsAtomPower curN) {r : Nat → Int} (hr : halve v M i curN cur oth = some (n, r)) (hm : m < M) :
    tailMax n (fun j => r (rmcube M m j)) = tailMax curN fun j => cur (rmcube M m j) := by
  induction curN using Nat.strong_induction_on generalizing i cur oth with
  | _ curN ih =>
    rw [halve] at hr
    split at hr
    next hlt =>
      obtain ⟨heq, hhalf⟩ := h.half hlt
      dsimp only at hr
      split at hr
      next =>
        rw [ih (curN / 2) (by omega) hhalf hr]
        have h16 : 16 * (curN / 2 / 16) = curN / 2 := by
          obtain ⟨k, hk⟩ := hhalf
          omega
        conv_rhs => rw [heq, ← tailMax_halve]
        apply tailMax_congr
        intro j hj
        rw [maxOp_cell _ _ hm hj, h16]
      next => cases hr
    next =>
      obtain ⟨rfl, rfl⟩ := Prod.mk.inj (Option.some.inj hr)
      rfl

/-- A loop in which no submit is refused ends. -/
theorem halve_isSome (hv : ∀ i, v.submits i = true) : (halve v M i curN cur oth).isSome := by
  induction curN using Nat.strong_induction_on generalizing i cur oth with
  | _ curN ih =>
    rw [halve]
    split
    next hlt =>
      dsimp only
      rw [if_pos (hv i)]
      exact ih (curN / 2) (by omega)
    next => rfl

theorem halve_pos (hpos : 0 < curN) {r : Nat → Int} (hr : halve v M i curN cur oth = some (n, r)) : 0 < n := by
  induction curN using Nat.strong_induction_on generalizing i cur oth with
  | _ curN ih =>
    rw [halve] at hr
    split at hr
    next hlt =>
      dsimp only at hr
      split at hr
      next => exact ih (curN / 2) (by omega) (by omega) hr
      next => cases hr
    next =>
      obtain ⟨rfl, rfl⟩ := Prod.mk.inj (Option.some.inj hr)
      exact hpos

/-- A row of equal elements stays one. -/
theorem halve_flat {x : Int} (hflat : ∀ j < curN, cur (rmcube M m j) = x) {r : Nat → Int}
    (hr : halve v M i curN cur oth = some (n, r)) (hm : m < M) : ∀ j < n, r (rmcube M m j) = x := by
  induction curN using Nat.strong_induction_on generalizing i cur oth with
  | _ curN ih =>
    rw [halve] at hr
    split at hr
    next hlt =>
      dsimp only at hr
      split at hr
      next =>
        refine ih (curN / 2) (by omega) (fun j hj => ?_) hr
        rw [maxOp_cell _ _ hm hj, hflat j (by omega), hflat _ (by omega), max_self]
      next => cases hr
    next =>
      obtain ⟨rfl, rfl⟩ := Prod.mk.inj (Option.some.inj hr)
      exact hflat

/-- A width that does not halve to 16 loses the last element of a row. -/
theorem halve_loses (hcur : 16 ∣ curN) (hnot : ¬ IsAtomPower curN) {x : Int}
    (hflat : ∀ j < curN - 1, cur (rmcube M m j) = x) {r : Nat → Int} (hr : halve v M i curN cur oth = some (n, r))
    (hm : m < M) : ∀ j < n, r (rmcube M m j) = x := by
  induction curN using Nat.strong_induction_on generalizing i cur oth with
  | _ curN ih =>
    rw [halve] at hr
    split at hr
    next hlt =>
      have heq : 2 * (curN / 2) = curN := by omega
      dsimp only at hr
      split at hr
      next =>
        by_cases h16 : 16 ∣ curN / 2
        · refine ih (curN / 2) (by omega) h16 (fun hpow => hnot (heq ▸ hpow.double)) (fun j hj => ?_) hr
          rw [maxOp_cell _ _ hm (by omega), hflat j (by omega), hflat _ (by omega), max_self]
        · -- the second operand starts below the half, so that it ends below the last element
          refine halve_flat (fun j hj => ?_) hr hm
          rw [maxOp_cell _ _ hm hj, hflat j (by omega), hflat _ (by omega), max_self]
      next => cases hr
    next hge =>
      obtain ⟨rfl, rfl⟩ := Prod.mk.inj (Option.some.inj hr)
      intro j hj
      have hN : curN = 0 ∨ curN = 16 := by omega
      rcases hN with rfl | rfl
      · omega
      · exact absurd ⟨0, rfl⟩ hnot

end

/-! ### The run -/

/-- What the row maximum promises of a shape: every width is one the device takes, a run that is not refused
returns 0, and then each row's output is the greatest of its elements. -/
structure ReducesExactly (M N : Nat) : Prop where
  widths : ∀ h ∈ opWidths N, opAccepts M h
  returns : ∀ (v : RowMaxEnv) (a : Nat → Int8) (out : Nat → Int), v.fuse = true → v.granted = true →
    (∀ i, v.submits i = true) → (orkI8NpuRowMax v a M N out).1 = 0
  exact : ∀ (v : RowMaxEnv) (a : Nat → Int8) (out : Nat → Int), (orkI8NpuRowMax v a M N out).1 = 0 →
    ∀ m < M, (∃ n < N, (orkI8NpuRowMax v a M N out).2 m = (a (m * N + n)).toInt) ∧
      ∀ n < N, (a (m * N + n)).toInt ≤ (orkI8NpuRowMax v a M N out).2 m

section

variable {M N : Nat} {v : RowMaxEnv} {a : Nat → Int8} {out : Nat → Int}

/-- A run that returns 0 took the tail of what the loop left. -/
theorem orkI8NpuRowMax_zero (h : (orkI8NpuRowMax v a M N out).1 = 0) : opAccepts M N ∧
    ∃ n r, halve v M 0 N (rmFill M N a) (fun _ => 0) = some (n, r) ∧
      ∀ m < M, (orkI8NpuRowMax v a M N out).2 m = tailMax n fun j => r (rmcube M m j) := by
  unfold orkI8NpuRowMax at h ⊢
  split at h
  next => cases h
  next hf =>
    split at h
    next => cases h
    next hacc =>
      split at h
      next => cases h
      next hg =>
        rw [if_neg hf, if_neg hacc, if_neg hg]
        split at h
        next => cases h
        next n r hr =>
          exact ⟨not_not.mp hacc, n, r, hr, fun m hm => if_pos hm⟩

theorem orkI8NpuRowMax_returns (hacc : opAccepts M N) (hf : v.fuse = true) (hg : v.granted = true)
    (hs : ∀ i, v.submits i = true) (a : Nat → Int8) (out : Nat → Int) : (orkI8NpuRowMax v a M N out).1 = 0 := by
  have hsome : (halve v M 0 N (rmFill M N a) fun _ => 0).isSome := halve_isSome hs
  obtain ⟨⟨n, r⟩, hr⟩ := Option.isSome_iff_exists.mp hsome
  unfold orkI8NpuRowMax
  rw [if_neg (by rw [hf]; decide), if_neg (not_not_intro hacc), if_neg (by rw [hg]; decide), hr]

theorem rmFill_cell {m n : Nat} (hm : m < M) (hn : n < N) : rmFill M N a (rmcube M m n) = (a (m * N + n)).toInt :=
  stores_rmcube _ hm hn

/-- The promise is kept exactly by the widths of 16, 32, 64 and so on. -/
theorem reducesExactly_iff (hacc : opAccepts M N) : ReducesExactly M N ↔ IsAtomPower N := by
  constructor
  · intro h
    exact isAtomPower_of_opWidths hacc h.widths
  · intro hpow
    refine ⟨hpow.opWidths hacc, fun v a out hf hg hs => orkI8NpuRowMax_returns hacc hf hg hs a out, ?_⟩
    intro v a out hret m hm
    obtain ⟨-, n, r, hr, hout⟩ := orkI8NpuRowMax_zero hret
    have hmax : (orkI8NpuRowMax v a M N out).2 m = tailMax N fun j => (a (m * N + j)).toInt := by
      rw [hout m hm, halve_exact hpow hr hm]
      exact tailMax_congr fun j hj => rmFill_cell hm hj
    have hN : 0 < N := by
      unfold opAccepts at hacc
      omega
    rw [hmax]
    exact ⟨exists_eq_tailMax (fun j => Int8.le_toInt _) hN, (tailMax_le_iff.mp (le_refl _)).2⟩

/-- At any other width the run itself fails: some matrix gets a wrong maximum. -/
theorem exists_wrong_max (hacc : opAccepts M N) (hnot : ¬ IsAtomPower N) (out : Nat → Int) :
    ∃ a : Nat → Int8, (orkI8NpuRowMax ⟨true, true, fun _ => true⟩ a M N out).1 = 0 ∧
      ∃ n < N, (orkI8NpuRowMax ⟨true, true, fun _ => true⟩ a M N out).2 0 < (a n).toInt := by
  -- one row that has its only large element last
  let a : Nat → Int8 := fun x => if x = N - 1 then 0 else -128
  have hret := orkI8NpuRowMax_returns (v := ⟨true, true, fun _ => true⟩) hacc rfl rfl (fun _ => rfl) a out
  obtain ⟨-, n, r, hr, hout⟩ := orkI8NpuRowMax_zero hret
  have hM : 0 < M := by
    unfold opAccepts at hacc
    omega
  have hN : 16 ∣ N ∧ 16 ≤ N := by
    unfold opAccepts at hacc
    omega
  have hflat : ∀ j < N - 1, rmFill M N a (rmcube M 0 j) = -128 := by
    intro j hj
    rw [rmFill_cell hM (by omega), Nat.zero_mul, Nat.zero_add]
    have hne : j ≠ N - 1 := by omega
    change (if j = N - 1 then (0 : Int8) else -128).toInt = -128
    rw [if_neg hne]
    rfl
  have hlost := halve_loses hN.1 hnot hflat hr hM
  refine ⟨a, hret, N - 1, by omega, ?_⟩
  have hle : tailMax n (fun j => r (rmcube M 0 j)) ≤ -128 :=
    tailMax_le_iff.mpr ⟨le_refl _, fun j hj => (hlost j hj).le⟩
  rw [hout 0 hM]
  change _ < (if N - 1 = N - 1 then (0 : Int8) else -128).toInt
  rw [if_pos rfl]
  exact lt_of_le_of_lt hle (by decide)

end

theorem reducesExactly_iff_32 : ReducesExactly 1 32 ↔ IsAtomPower 32 := reducesExactly_iff (by decide)

/-- 48 elements: the second half of the first op starts at element 16, the last eight are never read. -/
theorem not_reducesExactly_48 : ¬ ReducesExactly 1 48 := by
  intro h
  have hwidths := h.widths 24 (by decide +kernel)
  exact absurd hwidths (by decide)

end OrkDriver.Norm
