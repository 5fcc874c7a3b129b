import OrkDriver.Lib.SwapRemove
import OrkDriver.Lib.Transition
import OrkDriver.Run.Weight

/-!
Precompiled chains (`npu/i8/queue.c`): a chain of int8 rows built once and run again and again, over the table of DMA
buffers of `npu/core/buf.c`.
-/

namespace OrkDriver.Core

open OrkDriver.Lib OrkDriver.Npu OrkDriver.Run

variable {R : Type*}

/-! ### The table of DMA buffers -/

/-- `struct buf` of an entry of `dma_tab`, sizes and addresses in int32 words. A buffer imported from a dma-buf is mapped
cached, one of `ork_dma_alloc` is not. -/
structure DmaBuf where
  cpu : Nat
  size : Nat
  dma : Nat
  domain : Nat
  imported : Bool
  deriving DecidableEq

/-- The entries of `dma_tab`. -/
def dmaTabEntries : Nat := 64

/-- The entry an address lies in. -/
def orkiDmaFind (tab : List DmaBuf) (p : Nat) : Option Nat :=
  tab.findIdx? fun b => decide (b.cpu ≤ p ∧ p < b.cpu + b.size)

/-- The last entry moves into the place of the one that goes. -/
def orkDmaFree (tab : List DmaBuf) (ptr : Nat) : List DmaBuf := tab.swapRemove fun b => b.cpu == ptr

/-! ### Compiling -/

/-- `ork_mm_task_i8`, with the domain of its weight; `C` is an address of the CPU. -/
structure PcTask (R : Type*) where
  w : OrkW R
  domain : Nat
  M : Nat
  C : Nat

/-- The device buffers of a chain. -/
inductive PcBuf
  | pool
  | tk
  | ascr (i : Nat)
  deriving DecidableEq

/-- What a compile finds: whether the handle, the pool, the task buffer and each activation buffer are granted, whether
the check lets a program through, the domain that is active after the switch, and what a program does that is not in the
domain of the submit with all it reads. -/
structure PcEnv (R : Type*) where
  calloc : Bool
  pool : Bool
  tk : Bool
  ascr : Nat → Bool
  valid : Nat → Program → Bool
  active : Nat
  stray : Nat → (Nat → Nat → R) → Nat → Nat → R

/-- A compiled chain. `out` is the buffer C lay in, which is where `outptr` is mapped; `outbuf` is its place in the table
at that time. -/
structure PcChain (R : Type*) where
  S : Nat
  N : Nat
  dom : Nat
  active : Nat
  prog : Nat → Program
  weight : Nat → Nat → R
  wdom : Nat → Nat
  out : Nat → DmaBuf
  outbuf : Nat → Nat

/-- What `ork_pc_compile` asks of a task. -/
def pcAccepts (tab : List DmaBuf) (t : PcTask R) : Prop :=
  (t.w.dt = .i8 ∧ t.M = 1 ∧ t.w.Sn = 1) ∧ (t.w.K % 512 = 0 ∧ t.w.K ≤ 4096) ∧ (t.w.Sk = 1 ∨ t.w.Bf.isSome) ∧
    (orkiDmaFind tab t.C).isSome

instance (tab : List DmaBuf) (t : PcTask R) : Decidable (pcAccepts tab t) := inferInstanceAs (Decidable (_ ∧ _ ∧ _ ∧ _))

/-- The buffer of C, and its place. -/
def outEntry (tab : List DmaBuf) (t : PcTask R) : Nat × DmaBuf :=
  let k := (orkiDmaFind tab t.C).getD 0
  (k, tab.getD k ⟨0, 0, 0, 0, false⟩)

/-- `w->Bf[0]`, or `w->Bb[0]` without it. -/
def pcTile (w : OrkW R) : Nat → R :=
  match w.Bf with
  | some f => f 0
  | none => w.Bb 0

/-- The address of C on the device. -/
def outWord (tab : List DmaBuf) (t : PcTask R) : Nat := (outEntry tab t).2.dma + (t.C - (outEntry tab t).2.cpu)

/-- The program of a task: the columns are those of the first task. -/
def pcProg (tab : List DmaBuf) (N : Nat) (t : PcTask R) : Program := orkiI8Synth 1 t.w.K N 0 0 (outWord tab t) 0

/-- What the compile leaves in the handle. -/
def pcChain (v : PcEnv R) (tab : List DmaBuf) (S : Nat) (tasks : Nat → PcTask R) : PcChain R where
  S := S
  N := (tasks 0).w.N
  dom := (tasks 0).domain
  active := v.active
  prog i := pcProg tab (tasks 0).w.N (tasks i)
  weight i := pcTile (tasks i).w
  wdom i := (tasks i).domain
  out i := (outEntry tab (tasks i)).2
  outbuf i := (outEntry tab (tasks i)).1

/-- `orki_bdestroy` of some of the live buffers. -/
def destroyed (live l : List PcBuf) : List PcBuf := live.filter fun b => decide (b ∉ l)

/-- One turn of the compile loop over what is live, an error carrying what it leaves. -/
def compileTask (v : PcEnv R) (prog : Nat → Program) (live : List PcBuf) (i : Nat) :
    Except (List PcBuf) (List PcBuf) :=
  if v.ascr i = false then .error (destroyed live ((List.range i).map PcBuf.ascr ++ [.pool]))
  else if v.valid i (prog i) = false then
    .error (destroyed (.ascr i :: live) ((List.range (i + 1)).map PcBuf.ascr ++ [.pool]))
  else .ok (.ascr i :: live)

/-- `ork_pc_compile`: the chain and the buffers it holds, or the buffers a NULL leaves behind. -/
def orkPcCompile (v : PcEnv R) (tab : List DmaBuf) (S : Nat) (tasks : Nat → PcTask R) :
    Except (List PcBuf) (PcChain R × List PcBuf) :=
  if S < 1 ∨ 512 < S ∨ ∃ i < S, ¬ pcAccepts tab (tasks i) then .error []
  else if v.calloc = false then .error []
  else if v.pool = false then .error []
  else if v.tk = false then .error (destroyed [.pool] [.pool])
  else
    match (List.range S).foldlM (compileTask v (pcChain v tab S tasks).prog) [.tk, .pool] with
    | .error live => .error live
    | .ok live => .ok (pcChain v tab S tasks, live)

/-! ### Running -/

/-- Where a call of `ork_pc_run` stands: none is on, or one has just returned; it waits for the warm pass, is about to
submit, or polls. -/
inductive PcPhase
  | resting
  | returned (last : Int)
  | warming
  | seeded
  | polling
  deriving DecidableEq

/-- The table, the words of each domain and what the CPU has of them in its cache, the activation buffers, the programs the
device has yet to run, and the A of the last run. -/
structure PcState (R : Type*) where
  tab : List DmaBuf
  mem : Nat → Nat → R
  cache : Nat → Nat → R
  ascr : Nat → Nat → R
  queue : List Nat
  warmed : Bool
  phase : PcPhase
  A : Nat → Nat → R

/-- No call is on. -/
def PcState.atRest (s : PcState R) : Prop :=
  match s.phase with
  | .resting => True
  | .returned _ => True
  | _ => False

instance (s : PcState R) : Decidable s.atRest := by
  unfold PcState.atRest
  exact match s.phase with
    | .resting => inferInstanceAs (Decidable True)
    | .returned _ => inferInstanceAs (Decidable True)
    | .warming => inferInstanceAs (Decidable False)
    | .seeded => inferInstanceAs (Decidable False)
    | .polling => inferInstanceAs (Decidable False)

/-- What happens between and during the calls: the table is changed, anything else runs and leaves memory and caches as it
likes; a call stages the A it finds (`accepted` answers the warm submit, if there is one), looks at the warm pass, submits
and polls, a look with the deadline behind it giving up; the device runs the next program, or is reset. -/
inductive PcEvent (R : Type*)
  | dmaAlloc (b : DmaBuf)
  | dmaFree (ptr : Nat)
  | other (mem cache : Nat → Nat → R)
  | run (A : Nat → Nat → R) (accepted : Bool)
  | warmLook (timeout : Bool)
  | submit (accepted : Bool)
  | look (timeout : Bool)
  | exec
  | reset

namespace PcChain

variable (pc : PcChain R)

/-- Word `n` of the output of a task, as the CPU addresses it. -/
def seedAt (i : Nat) : Nat := (pc.prog i).c + pc.N - 1

/-- `ORK_PC_SEED`: the last word of every output. -/
def orkPcSeed (sent : R) (m : Nat → Nat → R) : Nat → Nat → R := fun d x =>
  if ∃ i < pc.S, d = (pc.out i).domain ∧ x = pc.seedAt i then sent else m d x

/-- Whether everything program `i` needs is in the domain of the submit. -/
def within (i : Nat) : Bool := pc.active = pc.dom ∧ pc.wdom i = pc.dom

/-- The device runs program `i`. -/
def execAt [NonUnitalNonAssocSemiring R] (v : PcEnv R) (s : PcState R) (i : Nat) : Nat → Nat → R :=
  if pc.within i then
    Function.update s.mem pc.dom ((pc.prog i).run 32 (s.ascr i) (pc.weight i) (s.mem pc.dom))
  else v.stray i s.mem

/-- An output is seen to have landed: its last word, read past the cache. -/
def landed [DecidableEq R] (sent : R) (s : PcState R) (i : Nat) : Bool :=
  decide (s.mem (pc.out i).domain (pc.seedAt i) ≠ sent)

/-- The highest task that has landed, -1 if none. -/
def highest [DecidableEq R] (sent : R) (s : PcState R) : Int :=
  (List.range pc.S).foldl (fun hi i => if pc.landed sent s i = true then (i : Int) else hi) (-1)

/-- MEM_SYNC from the device of the entries `outbuf` points to; `imports` tells whether it reaches the cached mapping of an
imported buffer. -/
def syncOut (imports : Bool) (s : PcState R) : Nat → Nat → R := fun d x =>
  if ∃ i < pc.S, ∃ b ∈ s.tab[pc.outbuf i]?, (b.imported = true → imports = true) ∧ d = b.domain ∧ b.dma ≤ x ∧
      x < b.dma + b.size then s.mem d x
  else s.cache d x

/-- What the CPU reads as word `n` of the C of a task. -/
def seen (s : PcState R) (i n : Nat) : R :=
  if (pc.out i).imported = true then s.cache (pc.out i).domain ((pc.prog i).c + n)
  else s.mem (pc.out i).domain ((pc.prog i).c + n)

/-- The events that can happen. Buffers that hold a C are not freed. -/
def Enabled (s : PcState R) : PcEvent R → Prop
  | .dmaAlloc _ => s.atRest ∧ s.tab.length < dmaTabEntries
  | .dmaFree ptr => s.atRest ∧ ∀ i < pc.S, (pc.out i).cpu ≠ ptr
  | .other _ _ => s.atRest
  | .run _ _ => s.atRest
  | .warmLook _ => s.phase = .warming
  | .submit _ => s.phase = .seeded
  | .look _ => s.phase = .polling
  | .exec => s.queue ≠ []
  | .reset => True

instance (s : PcState R) (e : PcEvent R) : Decidable (pc.Enabled s e) := by
  unfold Enabled
  cases e <;> infer_instance

variable [NonUnitalNonAssocSemiring R] [DecidableEq R]

/-- `ork_pc_run` and what goes on around it. -/
def next (v : PcEnv R) (sent : R) (imports : Bool) (s : PcState R) : PcEvent R → PcState R
  | .dmaAlloc b => { s with tab := s.tab ++ [b] }
  | .dmaFree ptr => { s with tab := orkDmaFree s.tab ptr }
  | .other mem cache => { s with mem := mem, cache := cache, phase := .resting }
  | .run A accepted =>
    let s' := { s with
      A := A
      ascr := fun i k => if i < pc.S ∧ k < (pc.prog i).Kp then A i k else s.ascr i k
      mem := pc.orkPcSeed sent s.mem
      cache := pc.orkPcSeed sent s.cache }
    if s.warmed then { s' with phase := .seeded }
    else if accepted then { s' with queue := s.queue ++ List.range pc.S, phase := .warming }
    else { s' with warmed := true, phase := .seeded }
  | .warmLook timeout =>
    if (∀ i < pc.S, pc.landed sent s i = true) ∨ timeout = true then
      { s with
        mem := pc.orkPcSeed sent s.mem
        cache := pc.orkPcSeed sent s.cache
        warmed := true
        phase := .seeded }
    else s
  | .submit accepted =>
    if accepted then { s with queue := s.queue ++ List.range pc.S, phase := .polling }
    else { s with phase := .returned (-1) }
  | .look timeout =>
    if pc.highest sent s ≥ (pc.S : Int) - 1 ∨ timeout = true then
      { s with cache := pc.syncOut imports s, phase := .returned (pc.highest sent s) }
    else s
  | .exec =>
    match s.queue with
    | [] => s
    | i :: rest => { s with mem := pc.execAt v s i, queue := rest }
  | .reset => { s with queue := [] }

end PcChain

/-- A chain that has just been compiled: nothing has run yet. -/
def PcState.compiled (tab : List DmaBuf) (mem cache ascr : Nat → Nat → R) (queue : List Nat) : PcState R :=
  ⟨tab, mem, cache, ascr, queue, false, .resting, ascr⟩

end OrkDriver.Core
