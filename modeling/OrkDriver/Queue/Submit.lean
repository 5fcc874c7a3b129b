import OrkDriver.Core.DynBegin
import OrkDriver.Lib.Transition

/-!
The submit queue over the doorbell chains (`npu/i8/queue.c`), and the device that walks the chain it flies.
-/

namespace OrkDriver.Queue

open OrkDriver.Lib OrkDriver.Npu OrkDriver.Pack OrkDriver.Run OrkDriver.I4 OrkDriver.Core

variable {R : Type*}

/-- `ork_mm_task_i8`, as the begin for its precision reads it. -/
inductive QTask (R : Type*) where
  | wide (t : DynTask R)
  | i4 (t : Task4)

namespace QTask

/-- `w->N`. -/
def width : QTask R → Nat
  | wide t => t.w.N
  | i4 t => t.w.N

def isWide : QTask R → Bool
  | wide _ => true
  | i4 _ => false

def asWide (d : DynTask R) : QTask R → DynTask R
  | wide t => t
  | i4 _ => d

def asI4 (d : Task4) : QTask R → Task4
  | wide _ => d
  | i4 t => t

end QTask

/-- What a begin finds: whether `ork_dyn_begin` gets its buffers and its submit, the number in `ORK_DYN_RESERVE` (0 if
unset) and whether the spin tail gets its buffers; what the multi-core begins find. -/
structure Grant (R : Type*) where
  one : Bool
  reserve : Int
  spin : Bool
  v : ColsplitEnv R
  granted4 : Bool
  fits4 : Bool

/-- `ork_dyn_begin`, on tasks of any precision. -/
def beginOne (c : OrkNpu) (g : Grant R) (S : Nat) (ts : Nat → QTask R) : Option DynChain :=
  match ts 0 with
  | .wide t0 =>
      if (∀ i < S, (ts i).isWide = true) ∧ g.one = true then orkDynBegin c S fun i => (ts i).asWide t0 else none
  | .i4 _ => none

/-- `ork_dyn_begin_mc`: the begins take no task of another precision than the first. -/
def orkDynBeginMc (c : OrkNpu) (g : Grant R) (S : Nat) (ts : Nat → QTask R) (nc : Int) : Option DynChain :=
  match ts 0 with
  | .wide t0 =>
      if ∀ i < S, (ts i).isWide = true then orkiDynBeginMcImpl c g.v S (fun i => (ts i).asWide t0) nc else none
  | .i4 t0 =>
      if ∀ i < S, (ts i).isWide = false then orkI4DynBeginMc c g.granted4 g.fits4 S (fun i => (ts i).asI4 t0) nc else none

/-- `spin_end` of a chain of `P` programs: the reserve, if it is more than the chain and the tail is built. -/
def Grant.spinEnd (g : Grant R) (P : Nat) : Nat :=
  let reserve := min (if (P : Int) < g.reserve then g.reserve.toNat else P) 1024
  if P < reserve ∧ g.spin = true then reserve else 0

/-! ### A chain in flight -/

/-- A handle in flight: the tasks `base ..< base + cnt` of the queue, the program the sequencer is at, which programs
link to the next, and how many words of the output of each op have landed. -/
structure Flight where
  h : DynChain
  base : Nat
  cnt : Nat
  spinEnd : Nat
  pc : Nat
  live : Nat → Bool
  words : Nat → Nat

/-- What the device does: the sequencer follows a link, the output of op `i` lands up to word `k`, a dropped round of
several cores is seeded and submitted again. -/
inductive Progress where
  | next
  | land (i k : Nat)
  | recover

namespace Flight

def start (h : DynChain) (base cnt spinEnd : Nat) : Flight :=
  ⟨h, base, cnt, spinEnd, 0, fun p => decide (p + 1 < if spinEnd = 0 then h.S else spinEnd), fun _ => 0⟩

variable (f : Flight)

/-- `h->mc`. -/
def mc : Bool := decide (0 < f.h.mcNc)

/-- The end of what can be halted; `P` is `S`, since nothing is appended to a chunk. -/
def lim : Nat := if f.spinEnd = 0 then f.h.S else f.spinEnd

/-- `no` of `ork_dyn_done_i`: the words up to the doorbell of op `i`. -/
def no (i : Nat) : Nat := if (f.h.entry i).op.nout = 0 then f.h.geom.N else (f.h.entry i).op.nout

/-- The words op `i` writes: on one core those of its program. -/
def full (i : Nat) : Nat := if f.mc then f.no i else ((f.h.entry i).outs.map fun o => o.rows * o.cols).sum

/-- `ork_dyn_done_i`. -/
def done (i : Nat) : Bool := decide (f.no i ≤ f.words i)

def frontierFrom : Nat → Nat → Nat
  | 0, i => i
  | n + 1, i => if f.done i then frontierFrom n (i + 1) else i

/-- `ork_dyn_progress`. -/
def orkDynProgress : Int := (f.frontierFrom f.h.S 0 : Int) - 1

/-- `ork_dyn_halt`, none for -1. -/
def orkDynHalt (p : Int) : Option Flight :=
  if f.mc = true ∨ p < 0 ∨ (f.lim : Int) - 1 ≤ p then none
  else some { f with live := Function.update f.live p.toNat false }

/-- The spin teardown of `ork_dyn_end`. -/
def teardown : Flight := { f with live := fun p => f.live p && decide (p < f.h.S ∨ f.spinEnd ≤ p) }

/-- What `ork_dyn_end` returns when it stops waiting. -/
def orkDynEnd : Int := if f.h.prepolled then (f.h.S : Int) - 1 else f.orkDynProgress

/-- On one core an output lands once the sequencer is at its program. -/
def advance : Progress → Flight
  | .next => if f.live f.pc then { f with pc := f.pc + 1 } else f
  | .land i k =>
      if i < f.h.S ∧ (f.mc = true ∨ i ≤ f.pc) ∧ f.words i ≤ k ∧ k ≤ f.full i then
        { f with words := Function.update f.words i k }
      else f
  | .recover => if f.mc then { f with words := fun _ => 0 } else f

def advances (ms : List Progress) : Flight := ms.foldl advance f

/-- All outputs for task `t` of the chunk have landed. -/
def complete (t : Nat) : Bool :=
  (List.range f.h.S).all fun i => decide ((f.h.entry i).arr ≠ t ∨ f.full i ≤ f.words i)

/-- The tasks that are complete, by their place in the queue. -/
def completed : List Nat := ((List.range f.cnt).filter f.complete).map (f.base + ·)

end Flight

/-! ### The queue -/

/-- `ORK_DYN_HEADROOM`. -/
def orkDynHeadroom : Int := 2

/-- A drain under way: `done`, and what it has seen: the tasks that were complete when their chunk was closed, and its
calls of `ork_dyn_end`. -/
structure Tally where
  done : Int
  complete : List Nat
  calls : Nat

/-- A drain that has returned `tally.done`: how many tasks had been pushed, and how many of them submitted. -/
structure Drained where
  n : Nat
  submitted : Nat
  tally : Tally

/-- `ork_dyn_queue`, with the drain under way. The last three fields only record: how many tasks were pushed before
`tasks`, the numbers of the submitted tasks in the order of their submission, and the drains. -/
structure DynQueue (R : Type*) where
  c : OrkNpu
  chunkMax : Nat
  ncore : Nat
  tasks : List (QTask R)
  submitted : Nat
  h : Option Flight
  drain : Option Tally
  first : Nat
  log : List Nat
  drains : List Drained

/-- `ork_dyn_max_steps`. -/
def orkDynMaxSteps : Int := 1024

/-- `ork_dyn_queue_create`. -/
def orkDynQueueCreate (c : OrkNpu) (chunkMax ncore : Int) : DynQueue R :=
  let chunkMax := if chunkMax ≤ 0 ∨ orkDynMaxSteps < chunkMax then orkDynMaxSteps else chunkMax
  let ncore := if ncore ≤ 0 then 1 else ncore
  let ncore := if c.soc.cores < ncore then (c.soc.cores : Int) else ncore
  ⟨c, chunkMax.toNat, ncore.toNat, [], 0, none, none, 0, [], []⟩

namespace DynQueue

variable (q : DynQueue R)

/-- `ork_dyn_queue_push`; `room` tells whether the array can grow. -/
def orkDynQueuePush (t : QTask R) (room : Bool) : DynQueue R :=
  if room then { q with tasks := q.tasks ++ [t] } else q

/-- The tasks the next flush hands over. -/
def chunk : List (QTask R) := (q.tasks.drop q.submitted).take q.chunkMax

/-- The begin a flush calls. -/
def beginChunk (g : Grant R) (S : Nat) (ts : Nat → QTask R) : Option DynChain :=
  if 1 < q.ncore then orkDynBeginMc q.c g S ts q.ncore else beginOne q.c g S ts

/-- `ork_dyn_queue_flush`. -/
def orkDynQueueFlush (g : Grant R) : DynQueue R :=
  if q.h.isSome ∨ q.tasks.length ≤ q.submitted then q
  else
    match q.chunk with
    | [] => q
    | t :: l =>
        match q.beginChunk g (l.length + 1) fun i => (t :: l).getD i t with
        | none => q
        | some h =>
            { q with
              h := some (.start h q.submitted (l.length + 1) (if 1 < q.ncore then 0 else g.spinEnd h.S))
              submitted := q.submitted + (l.length + 1)
              log := q.log ++ List.range' (q.first + q.submitted) (l.length + 1) }

/-- `ork_dyn_queue_idle`; `past` if the linger window has elapsed, `ms` what the device does between the look at the
frontier and the store. -/
def orkDynQueueIdle (past : Bool) (ms : List Progress) : DynQueue R :=
  match q.h with
  | none => q
  | some f =>
      if q.submitted < q.tasks.length ∨ past = false ∨ f.mc = true then q
      else
        let p := f.orkDynProgress + 1 + orkDynHeadroom
        if (f.lim : Int) - 1 ≤ p then q
        else { q with h := some (((f.advances ms).orkDynHalt p).getD (f.advances ms)) }

/-- The head of the loop of `ork_dyn_queue_drain`: on into `ork_dyn_end`, or return. -/
def settle (d : Tally) : DynQueue R :=
  match q.h with
  | some f => { q with h := some f.teardown, drain := some d }
  | none =>
      { q with
        tasks := []
        submitted := 0
        drain := none
        first := q.first + q.tasks.length
        drains := q.drains ++ [⟨q.tasks.length, q.submitted, d⟩] }

/-- `ork_dyn_queue_drain`, up to its loop. -/
def orkDynQueueDrain (g : Grant R) : DynQueue R :=
  (if q.h.isSome then q else q.orkDynQueueFlush g).settle ⟨0, [], 0⟩

/-- `ork_dyn_end` returns, and the loop goes round. -/
def drainPass (g : Grant R) (f : Flight) (d : Tally) : DynQueue R :=
  let r := f.orkDynEnd
  let d : Tally := ⟨if 0 ≤ r then d.done + (r + 1) else d.done, d.complete ++ f.completed, d.calls + 1⟩
  let q := { q with h := none }
  (if q.submitted < q.tasks.length then q.orkDynQueueFlush g else q).settle d

end DynQueue

/-- The calls, the passes of the loop of a drain, and what the device does meanwhile. -/
inductive Call (R : Type*) where
  | push (t : QTask R) (room : Bool)
  | flush (g : Grant R)
  | idle (past : Bool) (ms : List Progress)
  | drain (g : Grant R)
  | pass (g : Grant R)
  | device (m : Progress)

/-- The caller makes no other call before its drain has returned. -/
def DynQueue.enabled (q : DynQueue R) : Call R → Prop
  | .pass _ => q.drain.isSome = true
  | .device _ => True
  | _ => q.drain = none

def DynQueue.next (q : DynQueue R) : Call R → DynQueue R
  | .push t room => q.orkDynQueuePush t room
  | .flush g => q.orkDynQueueFlush g
  | .idle past ms => q.orkDynQueueIdle past ms
  | .drain g => q.orkDynQueueDrain g
  | .pass g =>
      match q.h, q.drain with
      | some f, some d => q.drainPass g f d
      | _, _ => q
  | .device m => { q with h := q.h.map (·.advance m) }

/-- A queue of `ork_dyn_queue_create` and all that can happen to it. -/
def system (c : OrkNpu) (chunkMax ncore : Int) : Transition.System (DynQueue R) (Call R) :=
  Transition.System.ofNext (· = orkDynQueueCreate c chunkMax ncore) DynQueue.enabled DynQueue.next

end OrkDriver.Queue
