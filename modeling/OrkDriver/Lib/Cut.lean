import Mathlib.Algebra.Order.Group.Nat
import Mathlib.Order.Basic
import Mathlib.Tactic.Ring

/-!
Cutting `[0, n)` into pieces of one size, the last of them ragged.
-/

namespace OrkDriver.Lib

/-- Quotient and remainder determine each other. -/
theorem digits_inj {m a b r s : Nat} (hr : r < m) (hs : s < m) (h : a * m + r = b * m + s) : a = b ∧ r = s := by
  have hab : a = b := by
    have hdiv := congrArg (· / m) h
    simpa only [Nat.mul_comm _ m, Nat.mul_add_div (Nat.zero_lt_of_lt hr), Nat.div_eq_of_lt hr, Nat.div_eq_of_lt hs,
      Nat.add_zero] using hdiv
  subst hab
  exact ⟨rfl, Nat.add_left_cancel h⟩

theorem digits_lt {m q a r : Nat} (ha : a < q) (hr : r < m) : a * m + r < q * m :=
  calc a * m + r < a * m + m := Nat.add_lt_add_left hr _
    _ = (a + 1) * m := (Nat.succ_mul a m).symm
    _ ≤ q * m := Nat.mul_le_mul_right m ha

theorem digits_div_mod {m r : Nat} (hr : r < m) (a : Nat) : (a * m + r) / m = a ∧ (a * m + r) % m = r := by
  constructor
  · rw [Nat.mul_comm, Nat.mul_add_div (Nat.zero_lt_of_lt hr), Nat.div_eq_of_lt hr, Nat.add_zero]
  · rw [Nat.mul_comm, Nat.mul_add_mod, Nat.mod_eq_of_lt hr]

/-- A point below the last of some places lies between two of them. -/
theorem exists_between {f : Nat → Nat} {n x : Nat} (h0 : f 0 ≤ x) (hn : x < f n) : ∃ i < n, f i ≤ x ∧ x < f (i + 1) := by
  induction n with
  | zero => exact absurd h0 (Nat.not_le.mpr hn)
  | succ n ih =>
      rcases Nat.lt_or_ge x (f n) with hlt | hge
      · obtain ⟨i, hi, hmem⟩ := ih hlt
        exact ⟨i, Nat.lt_succ_of_lt hi, hmem⟩
      · exact ⟨n, Nat.lt_succ_self n, hge, hn⟩

theorem between_unique {f : Nat → Nat} (hf : Monotone f) {i j x : Nat} (hi : f i ≤ x ∧ x < f (i + 1))
    (hj : f j ≤ x ∧ x < f (j + 1)) : i = j := by
  rcases Nat.lt_trichotomy i j with hlt | rfl | hlt
  · exact absurd (lt_of_lt_of_le hi.2 (hf hlt)) (Nat.not_lt.mpr hj.1)
  · rfl
  · exact absurd (lt_of_lt_of_le hj.2 (hf hlt)) (Nat.not_lt.mpr hi.1)

/-- How many pieces there are. -/
def pieces (n size : Nat) : Nat := (n + size - 1) / size

/-- Length of piece `i`. -/
def pieceLen (n size i : Nat) : Nat := if n - i * size < size then n - i * size else size

section

variable {n size i x : Nat}

theorem lt_pieces_iff (h : 0 < size) : i < pieces n size ↔ i * size < n := by
  unfold pieces
  rw [Nat.lt_div_iff_mul_lt h]
  omega

theorem pieceLen_le_size : pieceLen n size i ≤ size := by
  unfold pieceLen
  split <;> omega

theorem pieceLen_pos (h : 0 < size) (hi : i < pieces n size) : 0 < pieceLen n size i := by
  rw [lt_pieces_iff h] at hi
  unfold pieceLen
  split <;> omega

/-- A piece ends inside the whole. -/
theorem piece_le (h : 0 < size) (hi : i < pieces n size) : i * size + pieceLen n size i ≤ n := by
  rw [lt_pieces_iff h] at hi
  unfold pieceLen
  split <;> omega

theorem pieceLen_of_le (h : n ≤ size) : pieceLen n size 0 = n := by
  unfold pieceLen
  split <;> omega

theorem le_of_pieces_eq_one (h : 0 < size) (h1 : pieces n size = 1) : n ≤ size := by
  have hlt := (lt_pieces_iff (n := n) (i := 1) h).not.mp (by omega)
  rwa [Nat.one_mul, Nat.not_lt] at hlt

/-- Every piece but the last is whole. -/
theorem pieceLen_eq_size (hi : (i + 1) * size ≤ n) : pieceLen n size i = size := by
  rw [Nat.succ_mul] at hi
  unfold pieceLen
  rw [if_neg (by omega)]

theorem div_lt_pieces (h : 0 < size) (hx : x < n) : x / size < pieces n size :=
  (lt_pieces_iff h).mpr (lt_of_le_of_lt (Nat.div_mul_le_self x size) hx)

theorem mod_lt_pieceLen (h : 0 < size) (hx : x < n) : x % size < pieceLen n size (x / size) := by
  have hmod := Nat.mod_lt x h
  have hdiv := Nat.div_add_mod' x size
  unfold pieceLen
  split <;> omega

/-- Piece and offset of a point are its quotient and remainder. -/
theorem piece_unique {r : Nat} (hr : r < pieceLen n size i) : (i * size + r) / size = i ∧ (i * size + r) % size = r :=
  digits_div_mod (lt_of_lt_of_le hr pieceLen_le_size) i

/-- The piece that contains a point. -/
theorem mem_piece_iff (h : 0 < size) (hx : x < n) :
    i * size ≤ x ∧ x < i * size + pieceLen n size i ↔ i = x / size := by
  have hmod := mod_lt_pieceLen h hx
  have hdiv := Nat.div_add_mod' x size
  constructor
  · rintro ⟨hle, hlt⟩
    have hr : x - i * size < pieceLen n size i := by omega
    have := (piece_unique hr).1
    rw [Nat.add_sub_cancel' hle] at this
    exact this.symm
  · rintro rfl
    omega

theorem pieceLen_sum (h : i < pieces n size) (h0 : 0 < size) : ((List.range i).map (pieceLen n size)).sum = i * size := by
  rw [lt_pieces_iff h0] at h
  induction i with
  | zero => rw [Nat.zero_mul, List.range_zero, List.map_nil, List.sum_nil]
  | succ i ih =>
      have hmul : i * size + size < n := by rwa [← Nat.succ_mul]
      rw [List.range_succ, List.map_append, List.sum_append, ih (by omega), List.map_cons, List.map_nil, List.sum_cons,
        List.sum_nil, Nat.add_zero, pieceLen_eq_size (Nat.le_of_lt h), Nat.succ_mul]

theorem sum_pieceLen (h : 0 < size) : ((List.range (pieces n size)).map (pieceLen n size)).sum = n := by
  rcases Nat.eq_zero_or_pos (pieces n size) with h0 | h0
  · have hn : ¬ 0 < n := fun hn => by
      have := (lt_pieces_iff (i := 0) h).mpr (by omega : 0 * size < n)
      omega
    rw [h0]
    exact (Nat.eq_zero_of_not_pos hn).symm
  · obtain ⟨p, hp⟩ := Nat.exists_eq_succ_of_ne_zero (Nat.ne_of_gt h0)
    have hlast : p < pieces n size := by omega
    have hlow : p * size < n := (lt_pieces_iff h).mp hlast
    have hhigh : ¬ (p + 1) * size < n := fun hlt => by
      have := (lt_pieces_iff h).mpr hlt
      omega
    rw [hp, Nat.succ_eq_add_one, List.range_succ, List.map_append, List.sum_append, pieceLen_sum hlast h]
    change p * size + (pieceLen n size p + 0) = n
    rw [Nat.add_mul] at hhigh
    unfold pieceLen
    split <;> omega

/-- The lengths there are: the first piece's, and the ragged one's. -/
theorem forall_pieceLen_iff {P : Nat → Prop} (h : 0 < size) (hn : 0 < n) :
    (∀ i < pieces n size, P (pieceLen n size i)) ↔ P (min n size) ∧ (n % size = 0 ∨ P (n % size)) := by
  have hlen : ∀ i < pieces n size, pieceLen n size i = min n size ∨
      (pieceLen n size i = n % size ∧ n % size ≠ 0) := by
    intro i hi
    rw [lt_pieces_iff h] at hi
    by_cases hfull : n - i * size < size
    · right
      have hmod : n % size = n - i * size := by
        have hsplit : n = i * size + (n - i * size) := by omega
        have hdigits := (digits_div_mod hfull i).2
        rwa [← hsplit] at hdigits
      unfold pieceLen
      rw [if_pos hfull, hmod]
      omega
    · left
      unfold pieceLen
      rw [if_neg hfull]
      omega
  constructor
  · intro hall
    have hfirst : 0 < pieces n size := by
      rw [lt_pieces_iff h, Nat.zero_mul]
      exact hn
    refine ⟨?_, (Nat.eq_zero_or_pos (n % size)).imp_right fun hpos => ?_⟩
    · have hp := hall 0 hfirst
      unfold pieceLen at hp
      rw [Nat.zero_mul, Nat.sub_zero] at hp
      rcases Nat.lt_or_ge n size with hlt | hge
      · rwa [if_pos hlt, ← Nat.min_eq_left hlt.le] at hp
      · rwa [if_neg (Nat.not_lt.mpr hge), ← Nat.min_eq_right hge] at hp
    · have hdiv := Nat.div_add_mod' n size
      have hmod := Nat.mod_lt n h
      have hi : n / size < pieces n size := by
        rw [lt_pieces_iff h]
        omega
      have hp := hall _ hi
      unfold pieceLen at hp
      rwa [if_pos (by omega), show n - n / size * size = n % size by omega] at hp
  · rintro ⟨hfirst, hlast⟩ i hi
    rcases hlen i hi with heq | ⟨heq, hne⟩
    · rwa [heq]
    · rw [heq]
      exact hlast.resolve_left hne

theorem dvd_pieceLen {d : Nat} (hn : d ∣ n) (hs : d ∣ size) : d ∣ pieceLen n size i := by
  unfold pieceLen
  split
  · exact Nat.dvd_sub hn (Nat.dvd_mul_left_of_dvd hs i)
  · exact hs

end

/-- Cutting `[0, n)` at `i * n / k`, the widths differ by at most one. -/
theorem balanced_width {n k i : Nat} (hk : 0 < k) :
    n / k ≤ (i + 1) * n / k - i * n / k ∧ (i + 1) * n / k - i * n / k ≤ n / k + 1 := by
  have hadd := Nat.add_div (a := i * n) (b := n) hk
  rw [← Nat.succ_mul, Nat.succ_eq_add_one] at hadd
  rw [hadd]
  generalize i * n / k = a
  generalize n / k = q
  split_ifs <;> omega

/-- The first is a narrowest. -/
theorem balanced_first (n k : Nat) : (0 + 1) * n / k - 0 * n / k = n / k := by
  rw [Nat.zero_add, Nat.one_mul, Nat.zero_mul, Nat.zero_div, Nat.sub_zero]

/-- The last is a widest. -/
theorem balanced_last {n k : Nat} (hk : 0 < k) :
    (k - 1 + 1) * n / k - (k - 1) * n / k = if n % k = 0 then n / k else n / k + 1 := by
  have hdiv := Nat.div_add_mod n k
  have hmod := Nat.mod_lt n hk
  have hsplit : (k - 1) * n = k * ((k - 1) * (n / k)) + (k - 1) * (n % k) := by
    calc (k - 1) * n = (k - 1) * (k * (n / k) + n % k) := by rw [hdiv]
      _ = _ := by rw [Nat.mul_add, Nat.mul_left_comm]
  have hrest : (k - 1) * (n % k) / k = if n % k = 0 then 0 else n % k - 1 := by
    split_ifs with h0
    · rw [h0, Nat.mul_zero, Nat.zero_div]
    · have hpred : (k - 1) * (n % k) = k * (n % k - 1) + (k - n % k) := by
        obtain ⟨r, hr⟩ := Nat.exists_eq_succ_of_ne_zero h0
        obtain ⟨d, hd⟩ := Nat.exists_eq_add_of_lt (hr ▸ hmod)
        rw [hr, hd, Nat.succ_eq_add_one]
        have h1 : r + 1 + d + 1 - 1 = r + d + 1 := by omega
        have h2 : r + 1 + d + 1 - (r + 1) = d + 1 := by omega
        rw [h1, h2, Nat.add_sub_cancel]
        ring
      rw [hpred, Nat.mul_add_div hk, Nat.div_eq_of_lt (by omega), Nat.add_zero]
  rw [Nat.sub_add_cancel hk, Nat.mul_div_cancel_left n hk, hsplit, Nat.mul_add_div hk, hrest]
  have hall : n = (k - 1) * (n / k) + n / k + n % k := by
    rw [← Nat.succ_mul, Nat.succ_eq_add_one, Nat.sub_add_cancel hk]
    exact hdiv.symm
  generalize n / k = q at *
  generalize (k - 1) * q = a at *
  split_ifs with h0 <;> omega

/-- Two sizes cut `[0, n)` into the same pieces. -/
def SameCut (n size size' : Nat) : Prop := size = size' ∨ n ≤ size ∧ n ≤ size'

instance (n size size' : Nat) : Decidable (SameCut n size size') := inferInstanceAs (Decidable (_ ∨ _))

namespace SameCut

variable {n size size' : Nat}

theorem lt_pieces_iff (h : SameCut n size size') (hs : 0 < size) (hs' : 0 < size') (i : Nat) :
    i < pieces n size ↔ i < pieces n size' := by
  rcases h with rfl | ⟨h, h'⟩
  · rfl
  · rw [Lib.lt_pieces_iff hs, Lib.lt_pieces_iff hs']
    cases i with
    | zero => rw [Nat.zero_mul, Nat.zero_mul]
    | succ i =>
        have hle : size ≤ (i + 1) * size := Nat.le_mul_of_pos_left size (Nat.succ_pos i)
        have hle' : size' ≤ (i + 1) * size' := Nat.le_mul_of_pos_left size' (Nat.succ_pos i)
        constructor <;> intro hlt <;> omega

theorem pieces_eq (h : SameCut n size size') (hs : 0 < size) (hs' : 0 < size') : pieces n size = pieces n size' :=
  eq_of_forall_lt_iff fun i => h.lt_pieces_iff hs hs' i

/-- Same cuts give pieces at the same places, of the same lengths. -/
theorem piece_eq (h : SameCut n size size') (hs : 0 < size) {i : Nat} (hi : i < pieces n size) :
    i * size = i * size' ∧ pieceLen n size i = pieceLen n size' i := by
  rcases h with rfl | ⟨h, h'⟩
  · exact ⟨rfl, rfl⟩
  · rw [Lib.lt_pieces_iff hs] at hi
    cases i with
    | zero => exact ⟨by omega, by rw [pieceLen_of_le h, pieceLen_of_le h']⟩
    | succ i =>
        have hle : size ≤ (i + 1) * size := Nat.le_mul_of_pos_left size (Nat.succ_pos i)
        omega

end SameCut

end OrkDriver.Lib
