import Mathlib.Algebra.Order.Floor.Semiring
import OrkDriver.Gptq.Schedule
import OrkDriver.Lib.Stores

/-!
`ork_i4_gptq` (`ork_gptq.c`): damping, factorisation, scale search and the error-feedback sweep, in exact arithmetic.
-/

namespace OrkDriver.Gptq

open OrkDriver.Lib Finset

/-- What the field does not fix: the square root, `lround`, the rounding of a value stored as a float, and the whole
factorisation in single precision. -/
structure Arith (α : Type*) where
  sqrt : α → α
  lround : α → ℤ
  f32 : α → α
  factorF32 : ℕ → Mat α → Option (Mat α)

/-- The variables of the clip search, with the bounds that their parsing checks. -/
structure ClipGrid (α : Type*) [Field α] [LinearOrder α] where
  clip : Bool
  clipN : ℕ
  clipSlack : ℕ
  clipStep : α
  clipMin : α
  clipN_ok : clipN = 0 ∨ 1 < clipN ∧ clipN ≤ 64
  clipSlack_ok : 0 < clipSlack ∧ clipSlack ≤ 32
  clipStep_ok : 0 < clipStep ∧ clipStep < 1 / 5
  clipMin_ok : 0 < clipMin ∧ clipMin < 1

/-- The `ORK_GPTQ_*` variables. -/
structure Knobs (α : Type*) [Field α] [LinearOrder α] where
  backfront : Bool
  fp32 : Bool
  grid : ClipGrid α

/-! ### Groups and orders -/

/-- `G`. -/
def groupSize (K : ℕ) (group : ℤ) : ℕ := if 0 < group ∧ group < K then group.toNat else K

/-- `ng`. -/
def groups (K G : ℕ) : ℕ := (K + G - 1) / G

/-- `rev`. -/
def reverses (backfront : Bool) (K G : ℕ) : Bool := backfront && (groups K G = 1 || K % G = 0)

/-- `GQ_C` of `n = K` columns and `GQ_G` of `n = ng` groups. -/
def callers (rev : Bool) (n j : ℕ) : ℕ := if rev then n - 1 - j else j

section

variable {α : Type*} [Field α] [LinearOrder α] (ar : Arith α) (gr : ClipGrid α)

/-! ### Damping and factorisation -/

/-- `lam`. -/
def damping (K : ℕ) (H : Mat α) (damp : α) : α :=
  let dmean := (List.range K).foldl (fun s i => s + H i i) 0 / K
  if damp * dmean ≤ 0 then 1 / 10 ^ 6 else damp * dmean

/-- `Hd`, as it is copied. -/
def copyH (rev : Bool) (K : ℕ) (H : Mat α) : Mat α := fun i j => if rev then H (K - 1 - i) (K - 1 - j) else H i j

/-- `Wd`, as it is copied. -/
def copyW (rev : Bool) (K : ℕ) (W : Mat α) : Mat α := fun n i => if rev then W n (K - 1 - i) else W n i

/-- An iteration of the loop over the diagonal: a dead input channel gets a unit diagonal and loses its weights. -/
def dampStep (K N : ℕ) (lam : α) (p : Mat α × Mat α) (i : ℕ) : Mat α × Mat α :=
  if p.1 i i ≤ 0 then
    (((List.range K).foldl (fun A j => (A.set i j 0).set j i 0) p.1).set i i 1,
      (List.range N).foldl (fun A n => A.set n i 0) p.2)
  else (p.1.set i i (p.1 i i + lam), p.2)

/-- `Hd` and `Wd` before the factorisation. -/
def prepare (rev : Bool) (K N : ℕ) (W H : Mat α) (damp : α) : Mat α × Mat α :=
  (List.range K).foldl (dampStep K N (damping K H damp)) (copyH rev K H, copyW rev K W)

/-- `Hin`: the upper factor of the inverse of `Hd`. -/
def factor (fp32 : Bool) {K : ℕ} (s : Schedule K) (Hd : Mat α) : Option (Mat α) :=
  if fp32 then ar.factorF32 K fun i j => ar.f32 (Hd i j)
  else do
    let L ← cholLower ar.sqrt s.row K Hd
    cholUpper ar.sqrt s.row K (invFromChol s.solve s.mul K L fun _ _ => 0)

/-! ### The scale of a group -/

/-- `if (q > 7) q = 7; if (q < -8) q = -8`. -/
def clampCode (q : ℤ) : ℤ :=
  let q := if 7 < q then 7 else q
  if q < -8 then -8 else q

/-- `mx` over the columns `[j, j1)` of a row. -/
def absMax (row : ℕ → α) (j j1 : ℕ) : α :=
  (List.range' j (j1 - j)).foldl (fun mx c => if mx < |row c| then |row c| else mx) 0

/-- `e` of a scale. -/
def clipError (row : ℕ → α) (j j1 : ℕ) (s2 : α) : α :=
  (List.range' j (j1 - j)).foldl (fun e c =>
    let dd := row c - clampCode (ar.lround (row c / s2)) * s2
    e + dd * dd) 0

/-- The clip search from point `t` on. -/
def clipLoop (row : ℕ → α) (j j1 : ℕ) : ℕ → ℕ → α → α → ℕ → α
  | 0, _, best, _, _ => best
  | fuel + 1, t, best, be, bt =>
    let a := 1 - gr.clipStep * t
    if a ≤ gr.clipMin then best
    else if 0 < gr.clipN ∧ gr.clipN ≤ t then best
    else
      let s2 := a * absMax row j j1 / 7
      if s2 ≤ 0 then clipLoop row j j1 fuel (t + 1) best be bt
      else
        let e := clipError ar row j j1 s2
        if be < 0 ∨ e < be then clipLoop row j j1 fuel (t + 1) s2 e t
        else if gr.clipSlack ≤ t - bt ∧ 8 ≤ t + 1 then best
        else clipLoop row j j1 fuel (t + 1) best be bt

/-- `absmax/7`. -/
def plainScale (row : ℕ → α) (j j1 : ℕ) : α :=
  if absMax row j j1 / 7 ≤ 0 then 1 / 10 ^ 12 else absMax row j j1 / 7

/-- The points of the grid with a positive fraction. -/
def gridPoints [FloorSemiring α] : ℕ := ⌈1 / gr.clipStep⌉₊

/-- `sc`. -/
def groupScale [FloorSemiring α] (row : ℕ → α) (j j1 : ℕ) : α :=
  if gr.clip then clipLoop ar gr row j j1 (gridPoints gr + 1) 0 (plainScale row j j1) (-1) 0 else plainScale row j j1

/-! ### The sweep -/

/-- The weights, and what was stored to the codes and the scales so far. -/
structure Sweep (α : Type*) where
  Wd : Mat α
  codes : List (ℕ × ℤ)
  scales : List (ℕ × α)

section

variable [FloorSemiring α] (rev : Bool) (K N G : ℕ) (Hin : Mat α) (scales0 : ℕ → α)

/-- The scales of the group that starts at `j`, if one does. -/
def scaleStep (st : Sweep α) (j : ℕ) : Sweep α :=
  if j % G = 0 then
    { st with scales := st.scales ++ (List.range N).map fun n =>
        (n * groups K G + callers rev (groups K G) (j / G),
          ar.f32 (groupScale ar gr (st.Wd n) j (if K < j + G then K else j + G))) }
  else st

/-- `d`. -/
def divisor (Hin : Mat α) (j : ℕ) : α := if Hin j j = 0 then 1 / 10 ^ 12 else Hin j j

/-- Row `n` of column `j`. -/
def rowStep (j : ℕ) (st : Sweep α) (n : ℕ) : Sweep α :=
  let sc := stores scales0 st.scales (n * groups K G + callers rev (groups K G) (j / G))
  let w := st.Wd n j
  let q := clampCode (ar.lround (w / sc))
  let err := (w - q * sc) / divisor Hin j
  { st with
    Wd := (List.range' (j + 1) (K - (j + 1))).foldl (fun A c => A.set n c (A n c - err * Hin j c)) st.Wd
    codes := st.codes ++ [(n * K + callers rev K j, q)] }

/-- Column `j`. -/
def colStep (st : Sweep α) (j : ℕ) : Sweep α :=
  (List.range N).foldl (rowStep ar rev K G Hin scales0 j) (scaleStep ar gr rev K N G st j)

end

/-- `ork_i4_gptq` up to what it stores; an error is its return value. -/
def gptqRun [FloorSemiring α] (kn : Knobs α) {K : ℕ} (s : Schedule K) (N : ℕ) (W H : Mat α) (group : ℤ) (damp : α) (scales0 : ℕ → α) :
    Except ℤ (Sweep α) :=
  if K = 0 ∨ N = 0 then .error (-1)
  else
    let G := groupSize K group
    let rev := reverses kn.backfront K G
    let p := prepare rev K N W H damp
    match factor ar kn.fp32 s p.1 with
    | none => .error (-3)
    | some Hin => .ok ((List.range K).foldl (colStep ar kn.grid rev K N G Hin scales0) ⟨p.2, [], []⟩)

/-- `ork_i4_gptq`: its return value, and the codes and scales afterwards. -/
def orkI4Gptq [FloorSemiring α] (kn : Knobs α) {K : ℕ} (s : Schedule K) (N : ℕ) (W H : Mat α) (group : ℤ) (damp : α) (codes : ℕ → ℤ)
    (scales : ℕ → α) : ℤ × (ℕ → ℤ) × (ℕ → α) :=
  match gptqRun ar kn s N W H group damp scales with
  | .error rc => (rc, codes, scales)
  | .ok st => (0, stores codes st.codes, stores scales st.scales)

end

end OrkDriver.Gptq
