import OrkDriver.Core.DynBegin

/-!
`ork_dyn_progress` and `ork_dyn_end` (`npu/core/dyn_ctl.c`), over outputs that become visible in any order.
-/

namespace OrkDriver.Core

open OrkDriver.Lib OrkDriver.Pack

variable {R : Type*}

/-- What a handle goes through. In round `r` the write to cell `x` of op `i` becomes visible at moment `land r i x`, if
ever; a moment passes with every look at an op, and at moment 0 the worker of a core reads. `passes` and `term` say how
long the waiting of a round lasts and whether a signal ends it, `torn` how far a failed de-tile gets, and `patience` when
the verification of an fp16 op gives up. -/
structure DynRun (R : Type*) where
  land : Nat → Nat → Nat → Option Nat
  value : Nat → Nat → R
  stale : Nat → Nat → R
  passes : Nat → Nat
  term : Nat → Bool
  torn : Nat → Nat → Nat
  patience : Nat → Nat

namespace DynRun

variable (v : DynRun R)

def landed (r t i x : Nat) : Bool := (v.land r i x).any fun s => s ≤ t

/-- The output of op `i` as it reads. -/
def content (r t i : Nat) : Nat → R := fun x => if v.landed r t i x then v.value i x else v.stale i x

/-- All that a program writes is visible. -/
def wrote (r t i : Nat) (o : Output) : Bool :=
  (List.range o.rows).all fun a => (List.range o.cols).all fun b => v.landed r t i (o.cell (o.m0 + a) (o.n0 + b))

end DynRun

/-- What the polling keeps: the moment, `edone`, `i4_detiled`, and the arrays of the caller. -/
structure Poll (R : Type*) where
  now : Nat
  edone : Nat → Bool
  detiled : Nat
  C : Nat → Nat → R

/-- What `ork_dyn_end` leaves: the value it returns, the round and moment of its verdict, and the arrays. -/
structure Ended (R : Type*) where
  ret : Int
  round : Nat
  now : Nat
  C : Nat → Nat → R

/-- Stores into array `a`. -/
def put (C : Nat → Nat → R) (a : Nat) (l : List (Nat × R)) : Nat → Nat → R := Function.update C a (stores (C a) l)

/-- The outputs of an op that is not copied back. -/
def DynEntry.inPlace (e : DynEntry) : List Move :=
  e.outs.flatMap fun o => (List.range o.rows).flatMap fun a => (List.range o.cols).map fun b =>
    (o.cell (o.m0 + a) (o.n0 + b), [o.cell (o.m0 + a) (o.n0 + b)])

namespace DynChain

variable (h : DynChain) (v : DynRun R) (r : Nat)

/-- `ork_dyn_done_i`: true exactly when all outputs of the op have been written. -/
def done (t i : Nat) : Bool := (h.entry i).outs.all (v.wrote r t i)

/-- `orki_bch_db_cells` in mode 1: the last program of the core. -/
def gate (t i : Nat) : Bool := ((h.entry i).outs.getLast?).all (v.wrote r t i)

/-- `ork_dyn_progress` from op `i` on: how many ops are done, up to the first that is not, and the moment of its last
look. -/
def progressFrom : Nat → Nat → Nat → Nat × Nat
  | 0, i, t => (i, t)
  | n + 1, i, t => if h.done v r t i then progressFrom n (i + 1) (t + 1) else (i, t)

/-- `ork_dyn_progress`. -/
def orkDynProgress (t : Nat) : Int := ((h.progressFrom v r h.S 0 t).1 : Int) - 1

/-- One look at an op that is not known to be done. -/
def look (s : Poll R) (i : Nat) : Poll R :=
  if s.edone i then s else { s with edone := Function.update s.edone i (h.done v r s.now i), now := s.now + 1 }

def lookAll (s : Poll R) : Poll R := (List.range h.S).foldl (h.look v r) s

variable [AddCommMonoid R]

/-- `orki_bch_verify_worker`: verify and de-tile in one pass; what fails leaves C partly written. -/
def verify (s : Poll R) (i : Nat) : Poll R :=
  let e := h.entry i
  if s.edone i then s
  else if h.done v r s.now i then
    { s with
      edone := Function.update s.edone i true
      detiled := s.detiled + 1
      C := put s.C e.arr (moved (v.content r s.now i) e.tiles) }
  else { s with C := put s.C e.arr (moved (v.content r s.now i) (e.tiles.take (v.torn s.now i))) }

/-- A pass over the cores of a batched chain: all the gates, and if they all pass the verification of all. -/
def verifyAll (s : Poll R) : Poll R :=
  if ∀ i < h.S, s.edone i = true ∨ h.gate v r (s.now + i) i = true then
    (List.range h.S).foldl (h.verify v r) { s with now := s.now + h.S }
  else { s with now := s.now + h.S }

def pass (s : Poll R) : Poll R := if h.i4batch ∧ 1 < h.S then h.verifyAll v r s else h.lookAll v r s

/-- Passes, until all ops are done or the waiting ends. -/
def pollLoop : Nat → Poll R → Poll R
  | 0, s => h.pass v r s
  | n + 1, s =>
    let s := h.pass v r s
    if ∀ i < h.S, s.edone i = true then s else pollLoop n s

/-- The polling of a round; int16 outputs get one more look, in which a value collision is adjudicated. -/
def pollRound (s : Poll R) : Poll R :=
  let s := h.pollLoop v r (v.passes r) { s with edone := fun _ => false }
  if h.geom.half then h.lookAll v r s else s

/-- `recov_max`. -/
def recovMax : Nat := if 0 < h.mcNc ∧ h.mcDt ≠ .f16 ∧ h.probe = false then 6 else 0

/-- The rounds: the last round, how many ops it found done, and the state. A round that missed is re-seeded and submitted
again. -/
def rounds (v : DynRun R) : Nat → Nat → Poll R → Nat × Nat × Poll R
  | left, r, s =>
    let s := h.pollRound v r s
    let p := h.progressFrom v r h.S 0 s.now
    let s := { s with now := p.2 }
    if h.S ≤ p.1 ∨ v.term r = true then (r, p.1, s)
    else
      match left with
      | 0 => (r, p.1, s)
      | left + 1 => rounds v left (r + 1) { s with now := 0, detiled := 0 }

/-- The worker of the core sums its K-slices itself. -/
def taken (i : Nat) : Bool := h.prepolled && decide (1 < (h.entry i).op.oSk)

/-- The copy-back of an fp16 K-split waits for the partials. -/
def drains (i : Nat) : Bool :=
  decide (h.mcDt = .f16 ∧ 1 < (h.entry i).op.oSk) && (h.entry i).op.dst.isSome && !h.taken i

/-- When the output of an op is copied back. -/
def copyTime (v : DynRun R) (now i : Nat) : Nat := if h.drains i then max now (v.patience i) else now

/-- C as the workers of the column split leave it. -/
def workers (C : Nat → Nat → R) : Nat → Nat → R :=
  (List.range h.S).foldl (fun C i => if h.taken i then
    Function.update C (h.entry i).arr (workerAccumulate (h.entry i).op (v.content 0 0 i) (C (h.entry i).arr)) else C) C

/-- What is moved for op `i` at moment `t`. -/
def moveAt (t : Nat) (C : Nat → Nat → R) (i : Nat) (l : List Move) : Nat → Nat → R :=
  put C (h.entry i).arr (moved (v.content r t i) l)

/-- The copy-back, unless the verification has de-tiled every op. -/
def copyBack (s : Poll R) : Nat → Nat → R :=
  let C := if h.i4batch ∧ s.detiled < h.S then
      (List.range h.S).foldl (fun C i => h.moveAt v r s.now C i (h.entry i).tiles) s.C
    else s.C
  let C := (List.range h.S).foldl (fun C i => if h.taken i then C else
    h.moveAt v r (h.copyTime v s.now i) C i (orkDynWriteback h.geom (h.entry i).op)) C
  if h.direct then (List.range h.S).foldl (fun C i => h.moveAt v r s.now C i (h.entry i).inPlace) C else C

/-- `ork_dyn_end`. -/
def orkDynEnd (C : Nat → Nat → R) : Ended R :=
  let p := if h.prepolled then (0, h.S, ⟨1, fun _ => true, 0, h.workers v C⟩)
    else h.rounds v h.recovMax 0 ⟨1, fun _ => false, 0, C⟩
  let s : Poll R := p.2.2
  let fail := ∃ i < h.S, h.drains i = true ∧ h.done v p.1 (h.copyTime v s.now i) i = false
  ⟨if fail then -1 else (p.2.1 : Int) - 1, p.1, s.now, h.copyBack v p.1 s⟩

end DynChain

end OrkDriver.Core
