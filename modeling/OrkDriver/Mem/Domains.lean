import Mathlib.Data.List.Nodup
import Mathlib.Data.Fin.Basic
import Mathlib.Data.List.FinRange
import OrkDriver.Mem.Buffers

/-!
`orki_dom_activate` of `npu/core/domain.c`: the scratch buffers of a context, parked and restored when the IOMMU domain
changes, and their teardown in `ork_npu_free` (`npu/core/device.c`).
-/

namespace OrkDriver.Mem

open Transition

/-! ### The scratch set -/

/-- The buffers of a scratch set, `ORK_MAXCORE` of each per-core kind. -/
inductive Slot
  | regcmd
  | task
  | af
  | cc
  | mtkAll
  | mrc (i : Fin 4)
  | mtk (i : Fin 4)
  | maf (i : Fin 4)
  | mcc (i : Fin 4)
  deriving DecidableEq

/-- The fields a context and a parked set have in common. -/
structure Scratch where
  regcmd : Buf
  task : Buf
  Af : Buf
  Cc : Buf
  ccsz : Nat
  warmed : Int
  mrc : Fin 4 → Buf
  mtk : Fin 4 → Buf
  maf : Fin 4 → Buf
  mcc : Fin 4 → Buf
  mtkAll : Buf
  mccsz : Fin 4 → Nat
  mwarm : Fin 4 → Int
  mcAlloc : Int

/-- `struct ork_dom_scratch` -/
structure OrkDomScratch extends Scratch where
  used : Bool

namespace Scratch

def zero : Scratch :=
  ⟨.zero, .zero, .zero, .zero, 0, 0, fun _ => .zero, fun _ => .zero, fun _ => .zero, fun _ => .zero, .zero, fun _ => 0,
    fun _ => 0, 0⟩

def get (s : Scratch) : Slot → Buf
  | .regcmd => s.regcmd
  | .task => s.task
  | .af => s.Af
  | .cc => s.Cc
  | .mtkAll => s.mtkAll
  | .mrc i => s.mrc i
  | .mtk i => s.mtk i
  | .maf i => s.maf i
  | .mcc i => s.mcc i

def put (s : Scratch) (b : Buf) : Slot → Scratch
  | .regcmd => { s with regcmd := b }
  | .task => { s with task := b }
  | .af => { s with Af := b }
  | .cc => { s with Cc := b }
  | .mtkAll => { s with mtkAll := b }
  | .mrc i => { s with mrc := Function.update s.mrc i b }
  | .mtk i => { s with mtk := Function.update s.mtk i b }
  | .maf i => { s with maf := Function.update s.maf i b }
  | .mcc i => { s with mcc := Function.update s.mcc i b }

/-- The order of the teardown. -/
def slots : List Slot :=
  [.regcmd, .task, .af, .cc, .mtkAll] ++ (List.finRange 4).flatMap fun i => [.mrc i, .mtk i, .maf i, .mcc i]

theorem get_put_self (s : Scratch) (b : Buf) (k : Slot) : (s.put b k).get k = b := by
  cases k <;> first | rfl | exact Function.update_self _ _ _

theorem get_put_ne (s : Scratch) (b : Buf) {k l : Slot} (h : l ≠ k) : (s.put b k).get l = s.get l := by
  cases k <;> cases l <;> first
    | rfl
    | exact absurd rfl h
    | exact Function.update_of_ne (fun hij => h (congrArg _ hij)) _ _

theorem get_zero (k : Slot) : zero.get k = .zero := by
  cases k <;> rfl

theorem mem_slots (k : Slot) : k ∈ slots := by
  unfold slots
  rw [List.mem_append, List.mem_flatMap]
  cases k with
  | mrc i => exact Or.inr ⟨i, List.mem_finRange i, List.mem_cons_self⟩
  | mtk i => exact Or.inr ⟨i, List.mem_finRange i, by simp only [List.mem_cons, true_or, or_true]⟩
  | maf i => exact Or.inr ⟨i, List.mem_finRange i, by simp only [List.mem_cons, true_or, or_true]⟩
  | mcc i => exact Or.inr ⟨i, List.mem_finRange i, by simp only [List.mem_cons, true_or, or_true]⟩
  | regcmd => exact Or.inl (by decide)
  | task => exact Or.inl (by decide)
  | af => exact Or.inl (by decide)
  | cc => exact Or.inl (by decide)
  | mtkAll => exact Or.inl (by decide)

theorem nodup_slots : slots.Nodup := by decide

end Scratch

def OrkDomScratch.zero : OrkDomScratch := ⟨.zero, false⟩

/-! ### The context -/

/-- The part of `struct ork_npu` the switch works on, `dom_save` with the entries it has room for, and the process
around it: the device, the registry of live handles, the MEM_DESTROY calls made so far (the latest first). -/
structure OrkNpu where
  scratch : Scratch
  domActive : Nat
  domCap : Nat
  domSave : Nat → OrkDomScratch
  dev : Device
  registry : List Nat
  destroyed : List Nat

/-- The answers to one scratch allocation, whichever way it goes. -/
structure ScratchOutcome where
  create : CreateOutcome
  imported : ImportOutcome

/-- `bimp` is `ORK_BIMPORT_DOM`. -/
def orkiBscratch (v : BufEnv) (bimp : Bool) (d : Device) (size : Nat) (sram : Bool) (dom : Int) (o : ScratchOutcome) :
    Buf × Device :=
  if bimp && decide (0 < orkDom v dom) then orkiBimportF v d size dom o.imported
  else orkiBcreate v d size sram dom o.create

namespace OrkNpu

/-- `calloc` of a context. -/
def start : OrkNpu := ⟨.zero, 0, 0, fun _ => .zero, ⟨fun _ => 0, [], 0, false⟩, [], []⟩

/-- What a creation returned, the buffer registered as live. -/
def register (c : OrkNpu) (r : Buf × Device) : OrkNpu :=
  { c with dev := r.2, registry := if r.1.cpu then r.1.handle :: c.registry else c.registry }

/-- `c->slot = orki_bscratch(...)` -/
def fill (v : BufEnv) (bimp : Bool) (c : OrkNpu) (k : Slot) (size : Nat) (sram : Bool) (dom : Int)
    (o : ScratchOutcome) : OrkNpu :=
  let r := orkiBscratch v bimp c.dev size sram dom o
  { c.register r with scratch := c.scratch.put r.1 k }

/-- `orki_bdestroy(fd, b)`: the process after it. -/
def bdestroy (c : OrkNpu) (b : Buf) (ok : Bool) : OrkNpu :=
  if !b.cpu then c
  else
    { c with
      dev := (orkiBdestroy c.dev b ok).2
      registry := c.registry.erase b.handle
      destroyed := b.handle :: c.destroyed }

/-- `orki_bdestroy(fd, &c->slot)` -/
def unmap (c : OrkNpu) (k : Slot) (ok : Bool) : OrkNpu :=
  { c.bdestroy (c.scratch.get k) ok with scratch := c.scratch.put (orkiBdestroy c.dev (c.scratch.get k) ok).1 k }

/-- The doubling of `orki_dom_reserve`. -/
def growCap : Nat → Nat → Nat → Nat
  | 0, nc, _ => nc
  | n + 1, nc, need => if nc < need then growCap n (nc * 2) need else nc

/-- `none` is -1: a `realloc` failed. -/
def orkiDomReserve (c : OrkNpu) (need : Nat) (oom : Bool) : Option OrkNpu :=
  if need ≤ c.domCap then some c
  else if oom then none
  else
    let nc := growCap need (if c.domCap = 0 then 2 else c.domCap) need
    some { c with
      domCap := nc
      domSave := fun d => if c.domCap ≤ d ∧ d < nc then .zero else c.domSave d }

/-- The active set copied into its save slot. -/
def park (c : Scratch) : OrkDomScratch :=
  { used := true
    regcmd := c.regcmd, task := c.task, Af := c.Af, Cc := c.Cc, ccsz := c.ccsz, warmed := c.warmed
    mrc := c.mrc, mtk := c.mtk, maf := c.maf
    mcc := c.mcc, mtkAll := c.mtkAll, mccsz := c.mccsz
    mwarm := c.mwarm, mcAlloc := c.mcAlloc }

/-- A save slot copied into the active set. -/
def restore (neo : OrkDomScratch) : Scratch :=
  { regcmd := neo.regcmd, task := neo.task, Af := neo.Af, Cc := neo.Cc, ccsz := neo.ccsz, warmed := neo.warmed
    mrc := neo.mrc, mtk := neo.mtk, maf := neo.maf
    mcc := neo.mcc, mtkAll := neo.mtkAll, mccsz := neo.mccsz
    mwarm := neo.mwarm, mcAlloc := neo.mcAlloc }

/-- The swap. -/
def swap (c : OrkNpu) (dom : Nat) : OrkNpu :=
  { c with
    domSave := Function.update c.domSave c.domActive (park c.scratch)
    scratch := restore (c.domSave dom)
    domActive := dom }

/-- The three buffers a domain gets when it is first touched. -/
def furnish (v : BufEnv) (bimp : Bool) (c : OrkNpu) (dom : Int) (o : Fin 3 → ScratchOutcome) : OrkNpu :=
  let c := c.fill v bimp .regcmd 2097152 false dom (o 0)
  let c := c.fill v bimp .task 524288 false dom (o 1)
  c.fill v bimp .af (4 * 32768 * 2) false dom (o 2)

/-- The retirement barrier and the reap of a stuck job before the swap touch no buffer. -/
def orkiDomActivate (v : BufEnv) (bimp : Bool) (c : OrkNpu) (dom : Int) (oom : Bool) (o : Fin 3 → ScratchOutcome) :
    OrkNpu :=
  let dom := dom.toNat
  if dom = c.domActive then c
  else
    match c.orkiDomReserve ((if c.domActive < dom then dom else c.domActive) + 1) oom with
    | none => c
    | some c =>
      let neo := c.domSave dom
      let c := c.swap dom
      if !neo.used && !c.scratch.regcmd.cpu then c.furnish v bimp dom o else c

/-- `ork_npu_free` as far as the scratch goes: the active set, the parked ones, and the final reap of whatever is still
registered. `ok` are the kernel's answers. -/
def orkNpuFree (c : OrkNpu) (ok : Nat → Bool) : OrkNpu :=
  let destroySet := fun (c : OrkNpu) (s : Scratch) =>
    Scratch.slots.foldl (fun c k => c.bdestroy (s.get k) (ok (s.get k).handle)) c
  let a := destroySet c c.scratch
  let p := (List.range c.domCap).foldl (fun a d =>
    if d = c.domActive ∨ (c.domSave d).used = false then a else destroySet a (c.domSave d).toScratch) a
  { p with registry := [], destroyed := p.registry ++ p.destroyed }

end OrkNpu

/-! ### Runs -/

/-- What happens between two switches: a buffer of the active set grown, allocated where it was missing, or dropped;
its sizes and warm marks written; room made for more domains. -/
inductive DomCall
  | activate (dom : Int) (oom : Bool) (o : Fin 3 → ScratchOutcome)
  | grow (k : Slot) (size : Nat) (sram : Bool) (dom : Int) (ok : Bool) (o : ScratchOutcome)
  | fill (k : Slot) (size : Nat) (sram : Bool) (dom : Int) (o : ScratchOutcome)
  | drop (k : Slot) (ok : Bool)
  | note (ccsz : Nat) (warmed : Int) (mccsz : Fin 4 → Nat) (mwarm : Fin 4 → Int) (mcAlloc : Int)
  | reserve (need : Nat) (oom : Bool)

def DomCall.apply (v : BufEnv) (bimp : Bool) (c : OrkNpu) : DomCall → OrkNpu
  | .activate dom oom o => c.orkiDomActivate v bimp dom oom o
  | .grow k size sram dom ok o => (c.unmap k ok).fill v bimp k size sram dom o
  | .fill k size sram dom o => c.fill v bimp k size sram dom o
  | .drop k ok => { c.unmap k ok with scratch := (c.unmap k ok).scratch.put .zero k }
  | .note ccsz warmed mccsz mwarm mcAlloc =>
    { c with
      scratch :=
        { c.scratch with ccsz := ccsz, warmed := warmed, mccsz := mccsz, mwarm := mwarm, mcAlloc := mcAlloc } }
  | .reserve need oom => (c.orkiDomReserve need oom).getD c

/-- A context, and for each domain the set that was visible when it was last left. -/
structure Tenancy where
  npu : OrkNpu
  left : Nat → Option Scratch

def DomCall.next (v : BufEnv) (bimp : Bool) (t : Tenancy) (e : DomCall) : Tenancy :=
  let c := e.apply v bimp t.npu
  ⟨c, if c.domActive = t.npu.domActive then t.left else Function.update t.left t.npu.domActive (some t.npu.scratch)⟩

/-- Every sequence of calls on a new context. -/
def tenancies (v : BufEnv) (bimp : Bool) : System Tenancy DomCall :=
  .ofNext (· = ⟨.start, fun _ => none⟩) (fun _ _ => True) (DomCall.next v bimp)

/-- The set of a domain, active or parked. -/
def OrkNpu.view (c : OrkNpu) (d : Nat) : Scratch := if d = c.domActive then c.scratch else (c.domSave d).toScratch

end OrkDriver.Mem
