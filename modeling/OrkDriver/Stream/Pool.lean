import Mathlib.Data.List.MinMax
import OrkDriver.Lib.Cut
import OrkDriver.Lib.SwapRemove
import OrkDriver.Mem.Buffers
import OrkDriver.Npu.Soc

/-!
The streaming pool of `npu.c` (`ork_stream_pool_*`): weights kept in host memory and mapped into the device's address
window while they are wanted.
-/

namespace OrkDriver.Stream

open OrkDriver.Lib (pieces pieceLen)
open OrkDriver.Mem (orkiPgup)
open OrkDriver.Npu (Soc)

/-! ### Staging slots -/

/-- What MEM_CREATE hands out for an imported dma-buf; the kernel counts handles from 1. -/
structure Mapping where
  handle : Nat
  obj : Nat
  dma : Nat
  handle_ne_zero : handle ≠ 0

/-- The kernel's answers to the mapping requests in the order they are made, `none` where PRIME or MEM_CREATE fails:
whatever the capacity of the window is. -/
abbrev Kernel := Nat → Option Mapping

/-- The fields of `struct buf` that a staging slot uses. -/
structure StageBuf where
  size : Nat
  handle : Nat
  obj : Nat
  dma : Nat
  deriving DecidableEq

/-- `orki_bstage_alloc`. -/
def orkiBstageAlloc (size : Nat) : StageBuf := ⟨orkiPgup size, 0, 0, 0⟩

/-- The stores of `orki_bstage_map`. -/
def StageBuf.map (b : StageBuf) (m : Mapping) : StageBuf := { b with handle := m.handle, obj := m.obj, dma := m.dma }

/-- `orki_bstage_unmap`; a MEM_DESTROY that fails is only counted. -/
def orkiBstageUnmap (b : StageBuf) : StageBuf :=
  if b.obj = 0 ∧ b.handle = 0 then b else { b with dma := 0, obj := 0, handle := 0 }

/-- `struct ork_stage`, with an empty list for a null `Bf`. -/
structure OrkStage where
  K : Nat
  N : Nat
  Sk : Nat
  Sn : Nat
  Bb : List StageBuf
  Bf : List StageBuf
  mapped : Bool

def OrkStage.bufs (s : OrkStage) : List StageBuf := s.Bb ++ s.Bf

/-- `ork_stage_create`; `bb` and `bf` say whether the buffers of `Bb` and of `Bf` could be allocated. -/
def orkStageCreate (soc : Soc) (K N : Nat) (bb bf : Bool) : Option OrkStage :=
  if K % 32 ≠ 0 ∨ N % 32 ≠ 0 ∨ bb = false then none
  else
    let Sk := pieces K 1024
    let Sn := pieces N soc.nmax
    some {
      K := K, N := N, Sk := Sk, Sn := Sn
      Bb := (List.range Sn).flatMap fun ns => (List.range Sk).map fun ks =>
        orkiBstageAlloc (pieceLen K 1024 ks * pieceLen N soc.nmax ns)
      Bf := if K % 512 = 0 ∧ K ≤ 4096 ∧ bf = true then
          (List.range Sn).map fun ns => orkiBstageAlloc (K * pieceLen N soc.nmax ns)
        else []
      mapped := false }

/-- `for(i=0; i<n && ok; i++) if(orki_bstage_map(c->fd,&b[i])) ok=0;` from request `t` on: the flag, the buffers and the
number of the next request. -/
def mapBufs (k : Kernel) : Nat → List StageBuf → Bool × List StageBuf × Nat
  | t, [] => (true, [], t)
  | t, b :: bs =>
      match k t with
      | none => (false, b :: bs, t + 1)
      | some m => ((mapBufs k (t + 1) bs).1, b.map m :: (mapBufs k (t + 1) bs).2.1, (mapBufs k (t + 1) bs).2.2)

/-- The two unmapping loops. -/
def OrkStage.unmapBufs (s : OrkStage) : OrkStage :=
  { s with Bb := s.Bb.map orkiBstageUnmap, Bf := s.Bf.map orkiBstageUnmap }

/-- `ork_stage_map`: whether it returns 0, the slot and the number of the next request. -/
def orkStageMap (k : Kernel) (t : Nat) (s : OrkStage) : Bool × OrkStage × Nat :=
  if s.mapped = true then (true, s, t)
  else
    let bb := mapBufs k t s.Bb
    let bf := if bb.1 = true then mapBufs k bb.2.2 s.Bf else (false, s.Bf, bb.2.2)
    if bf.1 = true then (true, { s with Bb := bb.2.1, Bf := bf.2.1, mapped := true }, bf.2.2)
    -- the window is full half way: the roll back, so that a retry starts clean
    else (false, { s with Bb := bb.2.1, Bf := bf.2.1 }.unmapBufs, bf.2.2)

/-- `ork_stage_unmap`. -/
def orkStageUnmap (s : OrkStage) : OrkStage :=
  if s.mapped = true then { s.unmapBufs with mapped := false } else s

/-- `ork_stage_run`, with what `ork_i8_mm_run` returns. -/
def orkStageRun (s : OrkStage) (rc : Int) : Int := if s.mapped = false then -1 else rc

/-! ### The pool -/

/-- `struct ork_stream_entry`; `id` stands for its address. -/
structure StreamEntry where
  id : Nat
  stg : OrkStage
  K : Nat
  N : Nat
  mapped : Bool
  lastUse : Nat

/-- `struct ork_stream_pool`. `made` counts the entries there ever were, `calls` the mapping requests. -/
structure Pool where
  e : List StreamEntry
  cap : Nat
  clock : Nat
  made : Nat
  calls : Nat

/-- `ork_stream_pool_create`. -/
def orkStreamPoolCreate : Pool := ⟨[], 16, 0, 0, 0⟩

/-- A store through the pointer to an entry. -/
def Pool.store (p : Pool) (e : StreamEntry) : Pool :=
  { p with e := p.e.map fun x => if x.id = e.id then e else x }

/-- An `ork_*_stream_pool_add*` call: `accepted` says that the blob or the matrix passed its own checks, the others what
the host could allocate. -/
structure AddCall where
  K : Nat
  N : Nat
  accepted : Bool
  bb : Bool
  bf : Bool
  entry : Bool
  grown : Bool

/-- `orki_pool_new_entry`. -/
def orkiPoolNewEntry (soc : Soc) (p : Pool) (r : AddCall) : Option Pool := do
  let stg ← orkStageCreate soc r.K r.N r.bb r.bf
  if r.entry = false ∨ p.cap ≤ p.e.length ∧ r.grown = false then none
  else
    some { p with
      e := p.e ++ [⟨p.made, stg, r.K, r.N, false, 0⟩]
      cap := if p.cap ≤ p.e.length then p.cap * 2 else p.cap
      made := p.made + 1 }

/-- `ork_i8_stream_pool_add`, `ork_i8_stream_pool_add_raw` and `ork_i4a8_stream_pool_add`. -/
def streamPoolAdd (soc : Soc) (p : Pool) (r : AddCall) : Option Pool :=
  if r.accepted = false then none else orkiPoolNewEntry soc p r

/-- One round of the scan of `pool_unmap_lru`. -/
def lruScan (keep : Nat) (lru : Option StreamEntry) (e : StreamEntry) : Option StreamEntry :=
  if e.mapped = true ∧ e.id ≠ keep ∧ ∀ l ∈ lru, e.lastUse < l.lastUse then some e else lru

/-- `ork_stage_unmap(p->c,lru->stg); lru->mapped=0`. -/
def StreamEntry.unmap (e : StreamEntry) : StreamEntry := { e with stg := orkStageUnmap e.stg, mapped := false }

/-- `pool_unmap_lru`, nothing where it returns 0. -/
def poolUnmapLru (p : Pool) (keep : Nat) : Option Pool :=
  (p.e.foldl (lruScan keep) none).map fun lru => p.store lru.unmap

/-- `ork_stream_pool_map`. -/
def orkStreamPoolMap (k : Kernel) (p : Pool) (e : StreamEntry) : Pool :=
  if e.mapped = true then p
  else
    let r := orkStageMap k p.calls e.stg
    { p.store { e with stg := r.2.1, mapped := r.1 } with calls := r.2.2 }

/-- The loop of `ork_stream_pool_run`, at most `fuel` rounds of it: whether the entry got mapped, the entry, the pool. -/
def makeRoom (k : Kernel) : Nat → Pool → StreamEntry → Option (Bool × StreamEntry × Pool)
  | 0, _, _ => none
  | fuel + 1, p, e =>
      let r := orkStageMap k p.calls e.stg
      let e' := { e with stg := r.2.1 }
      let p' := { p.store e' with calls := r.2.2 }
      if r.1 = true then some (true, { e' with mapped := true }, p'.store { e' with mapped := true })
      else
        match poolUnmapLru p' e'.id with
        | none => some (false, e', p')
        | some p'' => makeRoom k fuel p'' e'

/-- The mapping half of `ork_stream_pool_run`. -/
def acquire (k : Kernel) (fuel : Nat) (p : Pool) (e : StreamEntry) : Option (Bool × StreamEntry × Pool) :=
  if e.mapped = true then some (true, e, p) else makeRoom k fuel p e

/-- `e->last_use=++p->clock`. -/
def Pool.touch (p : Pool) (e : StreamEntry) : Pool :=
  { p.store { e with lastUse := p.clock + 1 } with clock := p.clock + 1 }

/-- `ork_stream_pool_run`; `rc` is what `ork_i8_mm_run` returns. -/
def orkStreamPoolRun (k : Kernel) (fuel : Nat) (p : Pool) (e : StreamEntry) (rc : Int) : Option (Int × Pool) :=
  (acquire k fuel p e).map fun r => if r.1 = true then (orkStageRun r.2.1.stg rc, r.2.2.touch r.2.1) else (-1, r.2.2)

/-- `ork_stream_pool_unmap`. -/
def orkStreamPoolUnmap (p : Pool) (e : StreamEntry) : Pool := if e.mapped = false then p else p.store e.unmap

/-- `ork_stream_pool_remove`: the last entry takes the place of the one that leaves. -/
def orkStreamPoolRemove (p : Pool) (e : StreamEntry) : Pool := { p with e := p.e.swapRemove fun x => x.id == e.id }

end OrkDriver.Stream
