import Mathlib.Algebra.Ring.Nat
import Mathlib.Logic.Function.Basic
import OrkDriver.Lib.Transition

/-!
`npu/core/buf.c` and the IOVA guard of `npu/core/domain.c`: creating, importing and destroying device buffers, the
per-domain byte counters, and the kernel handles behind them.
-/

namespace OrkDriver.Mem

open Transition

/-! ### Buffers and counters -/

/-- `ORK_IOVA_NDOM` -/
def orkIovaNdom : Int := 64

/-- What the process was started with: the ceiling of the guard, the SRAM the kernel grants, `ORK_PIN_DOM` (-1 when
unset), `ORK_DOM_BASE` and `ORK_IOMMU_DOMAIN`. -/
structure BufEnv where
  ceiling : Nat
  sramTotal : Nat
  pin : Int
  base : Int
  dflt : Int

/-- The IOMMU domain a request for domain `dom` is made in. -/
def orkDom (v : BufEnv) (dom : Int) : Int :=
  let d := if 0 ≤ v.pin then v.pin else if 0 ≤ dom then dom else v.dflt
  if 0 < v.base then d + v.base else d

/-- `size_t` rounded up to a page. -/
def orkiPgup (s : Nat) : Nat := (s + 4095) % 2 ^ 64 / 4096 * 4096

/-- `struct buf`: `cpu` says that it is mapped. Kernel objects are told apart by `handle`, which is never used again. -/
structure Buf where
  handle : Nat
  cpu : Bool
  size : Nat
  domain : Int
  deriving DecidableEq

/-- What a failed creation returns. -/
def Buf.zero : Buf := ⟨0, false, 0, 0⟩

/-- The counters, and the kernel's side: the handles this process has open and the next one it gives out. `underflow`
records that more was given back than a counter held. -/
structure Device where
  iovaBytes : Int → Nat
  opened : List Nat
  next : Nat
  underflow : Bool

/-- Domains the guard has a counter for. -/
def Tracked (dom : Int) : Prop := 0 ≤ dom ∧ dom < orkIovaNdom

instance Tracked.decidable (dom : Int) : Decidable (Tracked dom) := inferInstanceAs (Decidable (_ ∧ _))

/-- A device address plus a size in the 32-bit field of a register command. -/
def orkiDmaFits32 (dma size : Nat) : Bool := decide ((dma + size) % 2 ^ 64 ≤ 2 ^ 32)

namespace Device

def orkIovaReserve (v : BufEnv) (d : Device) (dom : Int) (need : Nat) : Option Device :=
  if ¬ Tracked dom then some d
  else if v.ceiling < (d.iovaBytes dom + need) % 2 ^ 64 then none
  else some { d with iovaBytes := Function.update d.iovaBytes dom ((d.iovaBytes dom + need) % 2 ^ 64) }

def orkIovaRelease (d : Device) (dom : Int) (bytes : Nat) : Device :=
  if ¬ Tracked dom then d
  else
    { d with
      iovaBytes := Function.update d.iovaBytes dom (if bytes < d.iovaBytes dom then d.iovaBytes dom - bytes else 0)
      underflow := d.underflow || decide (d.iovaBytes dom < bytes) }

/-- The kernel hands out a handle. -/
def opens (d : Device) : Device := { d with opened := d.next :: d.opened, next := d.next + 1 }

/-- MEM_DESTROY of a handle; the answer is only logged. -/
def closes (d : Device) (h : Nat) (ok : Bool) : Device := if ok then { d with opened := d.opened.filter (· ≠ h) } else d

end Device

/-! ### Creation -/

/-- How a creation ends once its bytes are reserved: before there is a kernel object, the bytes given back; with an
object and the bytes given back; with an object and the bytes kept; with a buffer. -/
inductive Fate
  | refused
  | stray
  | strayHeld
  | made
  deriving DecidableEq

def Device.settle (d : Device) (dom : Int) (need : Nat) : Fate → Buf × Device
  | .refused => (.zero, d.orkIovaRelease dom need)
  | .stray => (.zero, d.opens.orkIovaRelease dom need)
  | .strayHeld => (.zero, d.opens)
  | .made => (⟨d.next, true, need, dom⟩, d.opens)

/-- The kernel's answers to one `orki_bcreate`: to the first MEM_CREATE, to the one in DRAM where that is tried, to
MEM_MAP, to the mmap, and the address. -/
structure CreateOutcome where
  create : Bool
  retry : Bool
  map : Bool
  mmap : Bool
  dma : Nat

/-- `sram` is the TRY_ALLOC_SRAM flag as the caller gave it. -/
def createFate (v : BufEnv) (need : Nat) (sram : Bool) (o : CreateOutcome) : Fate :=
  if !(o.create || (sram && decide (v.sramTotal ≠ 0) && o.retry)) then .refused
  else if !o.map then .stray
  else if !o.mmap then .stray
  else if !orkiDmaFits32 o.dma need then .strayHeld
  else .made

def orkiBcreate (v : BufEnv) (d : Device) (size : Nat) (sram : Bool) (domain : Int) (o : CreateOutcome) : Buf × Device :=
  match d.orkIovaReserve v (orkDom v domain) (orkiPgup size) with
  | none => (.zero, d)
  | some d => d.settle (orkDom v domain) (orkiPgup size) (createFate v (orkiPgup size) sram o)

/-- The answers to one import: the heap, the allocation from it, the mmap, ACT_SET_DOMAIN, PRIME_FD_TO_HANDLE,
MEM_CREATE on that handle, and the address. -/
structure ImportOutcome where
  heap : Bool
  alloc : Bool
  mmap : Bool
  setDomain : Bool
  prime : Bool
  create : Bool
  dma : Nat

/-- The imported object is the handle PRIME_FD_TO_HANDLE opens; MEM_CREATE maps that same handle. -/
def importFate (need : Nat) (o : ImportOutcome) : Fate :=
  if !o.setDomain then .refused
  else if !o.prime then .refused
  else if !o.create then .stray
  else if !orkiDmaFits32 o.dma need then .strayHeld
  else .made

def orkiBimportF (v : BufEnv) (d : Device) (size : Nat) (domain : Int) (o : ImportOutcome) : Buf × Device :=
  if !o.heap then (.zero, d)
  else if !o.alloc then (.zero, d)
  else if !o.mmap then (.zero, d)
  else
    match d.orkIovaReserve v (orkDom v domain) (orkiPgup size) with
    | none => (.zero, d)
    | some d => d.settle (orkDom v domain) (orkiPgup size) (importFate (orkiPgup size) o)

def orkiBimportFd (v : BufEnv) (d : Device) (dbuf : Int) (size : Nat) (domain : Int) (o : ImportOutcome) : Buf × Device :=
  if dbuf < 0 then (.zero, d)
  else if !o.mmap then (.zero, d)
  else
    match d.orkIovaReserve v (orkDom v domain) (orkiPgup size) with
    | none => (.zero, d)
    | some d => d.settle (orkDom v domain) (orkiPgup size) (importFate (orkiPgup size) o)

/-- `ok` is the kernel's answer to MEM_DESTROY. -/
def orkiBdestroy (d : Device) (b : Buf) (ok : Bool) : Buf × Device :=
  if !b.cpu then (b, d)
  else ({ b with cpu := false }, (d.closes b.handle ok).orkIovaRelease b.domain b.size)

/-! ### Runs -/

/-- A process: the device, the buffers its creations returned and that were not destroyed, the handles MEM_DESTROY
was refused for. -/
structure Process where
  dev : Device
  live : List Buf
  stuck : List Nat

/-- A call of one of the four, with the kernel's answers. -/
inductive BufCall
  | bcreate (size : Nat) (sram : Bool) (domain : Int) (o : CreateOutcome)
  | bimport (size : Nat) (domain : Int) (o : ImportOutcome)
  | bimportFd (dbuf : Int) (size : Nat) (domain : Int) (o : ImportOutcome)
  | bdestroy (handle : Nat) (ok : Bool)

/-- What a creation returned joins the live buffers, if it is one. -/
def Process.keep (s : Process) (r : Buf × Device) : Process :=
  { s with dev := r.2, live := if r.1.cpu then r.1 :: s.live else s.live }

def BufCall.next (v : BufEnv) (s : Process) : BufCall → Process
  | .bcreate size sram domain o => s.keep (orkiBcreate v s.dev size sram domain o)
  | .bimport size domain o => s.keep (orkiBimportF v s.dev size domain o)
  | .bimportFd dbuf size domain o => s.keep (orkiBimportFd v s.dev dbuf size domain o)
  | .bdestroy h ok =>
    match s.live.find? (·.handle == h) with
    | none => s
    | some b =>
      { dev := (orkiBdestroy s.dev b ok).2
        live := s.live.eraseP (·.handle == h)
        stuck := if ok then s.stuck else b.handle :: s.stuck }

def Process.start : Process := ⟨⟨fun _ => 0, [], 0, false⟩, [], []⟩

/-- Bytes of the live buffers of a domain. -/
def liveBytes (l : List Buf) (dom : Int) : Nat := ((l.filter fun b => b.domain == dom).map Buf.size).sum

/-- The books of a process balance: every counter is what is live in its domain, every open handle is that of a live
buffer (or the kernel refused to close it), and no counter was ever taken below zero. -/
structure Balanced (s : Process) : Prop where
  bytes : ∀ dom, Tracked dom → s.dev.iovaBytes dom = liveBytes s.live dom
  handles : ∀ h ∈ s.dev.opened, (∃ b ∈ s.live, b.handle = h) ∨ h ∈ s.stuck
  noUnderflow : s.dev.underflow = false

/-- The bytes of a request do not wrap the counter. -/
def NoWrap (d : Device) (dom : Int) (need : Nat) : Prop := Tracked dom → d.iovaBytes dom + need < 2 ^ 64

/-- A creation that gets as far as the reservation does not wrap the counter and does not fail with an object. -/
def Settles (v : BufEnv) (d : Device) (dom : Int) (need : Nat) (f : Fate) : Prop :=
  d.orkIovaReserve v dom need ≠ none → NoWrap d dom need ∧ (f = .refused ∨ f = .made)

/-- The calls that keep the books: no creation that fails does so after its kernel object exists. -/
def Kept (v : BufEnv) (s : Process) : BufCall → Prop
  | .bcreate size sram domain o =>
    Settles v s.dev (orkDom v domain) (orkiPgup size) (createFate v (orkiPgup size) sram o)
  | .bimport size domain o =>
    o.heap = true ∧ o.alloc = true ∧ o.mmap = true →
      Settles v s.dev (orkDom v domain) (orkiPgup size) (importFate (orkiPgup size) o)
  | .bimportFd dbuf size domain o =>
    ¬ dbuf < 0 ∧ o.mmap = true →
      Settles v s.dev (orkDom v domain) (orkiPgup size) (importFate (orkiPgup size) o)
  | .bdestroy _ _ => True

/-! ### One call -/

variable {v : BufEnv} {s : Process} {d : Device} {dom : Int} {need : Nat} {f : Fate}

theorem orkiPgup_lt (n : Nat) : orkiPgup n < 2 ^ 64 :=
  Nat.lt_of_le_of_lt (Nat.div_mul_le_self _ _) (Nat.mod_lt _ (Nat.two_pow_pos 64))

/-- What the handle numbering and the width of the counters give. -/
structure Sound (s : Process) : Prop where
  live : ∀ b ∈ s.live, b.handle < s.dev.next ∧ b.cpu = true
  stuck : ∀ h ∈ s.stuck, h < s.dev.next
  width : ∀ dom, s.dev.iovaBytes dom < 2 ^ 64

theorem liveBytes_cons (b : Buf) (l : List Buf) (dom : Int) :
    liveBytes (b :: l) dom = (if b.domain = dom then b.size else 0) + liveBytes l dom := by
  unfold liveBytes
  by_cases h : b.domain = dom
  · rw [if_pos h, List.filter_cons_of_pos (p := fun b : Buf => b.domain == dom) (beq_iff_eq.mpr h), List.map_cons, List.sum_cons]
  · rw [if_neg h, List.filter_cons_of_neg (p := fun b : Buf => b.domain == dom) (fun hb => h (beq_iff_eq.mp hb)), Nat.zero_add]

/-- Taking the first buffer with a handle out takes its bytes out. -/
theorem liveBytes_eraseP {l : List Buf} {h : Nat} {b : Buf} (hf : l.find? (·.handle == h) = some b) (dom : Int) :
    liveBytes l dom = (if b.domain = dom then b.size else 0) + liveBytes (l.eraseP (·.handle == h)) dom := by
  induction l with
  | nil => cases hf
  | cons a l ih =>
      by_cases ha : (a.handle == h) = true
      · rw [List.find?_cons_of_pos (p := fun b : Buf => b.handle == h) ha] at hf
        cases hf
        rw [List.eraseP_cons_of_pos (p := fun b : Buf => b.handle == h) ha, liveBytes_cons]
      · rw [List.find?_cons_of_neg (p := fun b : Buf => b.handle == h) ha] at hf
        rw [List.eraseP_cons_of_neg (p := fun b : Buf => b.handle == h) ha, liveBytes_cons, liveBytes_cons, ih hf]
        omega

/-- What a reservation changes. -/
theorem reserve_eq_some (h : s.dev.orkIovaReserve v dom need = some d) :
    d.opened = s.dev.opened ∧ d.next = s.dev.next ∧ d.underflow = s.dev.underflow ∧
      (∀ e, e ≠ dom ∨ ¬ Tracked dom → d.iovaBytes e = s.dev.iovaBytes e) ∧
      (Tracked dom → d.iovaBytes dom = (s.dev.iovaBytes dom + need) % 2 ^ 64) := by
  unfold Device.orkIovaReserve at h
  split at h
  · next ht =>
    cases h
    exact ⟨rfl, rfl, rfl, fun _ _ => rfl, fun ht' => absurd ht' ht⟩
  · next ht =>
    split at h
    · cases h
    · cases h
      refine ⟨rfl, rfl, rfl, fun e he => ?_, fun _ => Function.update_self _ _ _⟩
      exact Function.update_of_ne (he.resolve_right ht) _ _

/-- What giving bytes back changes. -/
theorem release_spec (d : Device) (dom : Int) (n : Nat) :
    (d.orkIovaRelease dom n).opened = d.opened ∧ (d.orkIovaRelease dom n).next = d.next ∧
      (∀ e, e ≠ dom ∨ ¬ Tracked dom → (d.orkIovaRelease dom n).iovaBytes e = d.iovaBytes e) ∧
      (Tracked dom → (d.orkIovaRelease dom n).iovaBytes dom = d.iovaBytes dom - n ∧
        (d.orkIovaRelease dom n).underflow = (d.underflow || decide (d.iovaBytes dom < n))) ∧
      (¬ Tracked dom → (d.orkIovaRelease dom n).underflow = d.underflow) := by
  unfold Device.orkIovaRelease
  by_cases ht : Tracked dom
  · rw [if_neg (not_not.mpr ht)]
    refine ⟨rfl, rfl, fun e he => Function.update_of_ne (he.resolve_right (not_not.mpr ht)) _ _, fun _ => ⟨?_, rfl⟩,
      fun h => absurd ht h⟩
    dsimp only
    rw [Function.update_self]
    split <;> omega
  · rw [if_pos ht]
    exact ⟨rfl, rfl, fun _ _ => rfl, fun h => absurd h ht, fun _ => rfl⟩

theorem closes_spec (d : Device) (h : Nat) (ok : Bool) : (d.closes h ok).iovaBytes = d.iovaBytes ∧
    (d.closes h ok).underflow = d.underflow ∧ ∀ h' ∈ (d.closes h ok).opened, h' ∈ d.opened ∧ (ok = true → h' ≠ h) := by
  cases ok with
  | true => exact ⟨rfl, rfl, fun h' hh => ⟨(List.mem_filter.mp hh).1, fun _ => of_decide_eq_true (List.mem_filter.mp hh).2⟩⟩
  | false => exact ⟨rfl, rfl, fun h' hh => ⟨hh, nofun⟩⟩

/-- Bytes given back right after they were reserved. -/
theorem reserve_release (hr : s.dev.orkIovaReserve v dom need = some d) (hw : NoWrap s.dev dom need) (e : Int) :
    (d.orkIovaRelease dom need).iovaBytes e = s.dev.iovaBytes e ∧
      (d.orkIovaRelease dom need).underflow = s.dev.underflow := by
  obtain ⟨-, -, hu, hne, hself⟩ := reserve_eq_some hr
  obtain ⟨-, -, hne', htr, hnt⟩ := release_spec d dom need
  by_cases ht : Tracked dom
  · obtain ⟨hbytes, hund⟩ := htr ht
    rw [hself ht, Nat.mod_eq_of_lt (hw ht)] at hbytes hund
    constructor
    · by_cases he : e = dom
      · rw [he, hbytes, Nat.add_sub_cancel]
      · rw [hne' e (Or.inl he), hne e (Or.inl he)]
    · rw [hund, hu, decide_eq_false (by omega), Bool.or_false]
  · exact ⟨by rw [hne' e (Or.inr ht), hne e (Or.inr ht)], by rw [hnt ht, hu]⟩

/-- A fate that is neither a refusal nor a buffer leaves the new handle open with no buffer. -/
theorem not_balanced_stray (hs : Sound s) {t : Process} (hopen : s.dev.next ∈ t.dev.opened) (hlive : t.live = s.live)
    (hstuck : t.stuck = s.stuck) : ¬ Balanced t := by
  intro hb
  rcases hb.handles _ hopen with ⟨b, hmem, hh⟩ | hmem
  · rw [hlive] at hmem
    exact Nat.lt_irrefl _ (hh ▸ (hs.live b hmem).1)
  · rw [hstuck] at hmem
    exact Nat.lt_irrefl _ (hs.stuck _ hmem)

/-- A reservation that wrapped leaves the books wrong, whatever comes after it. -/
theorem noWrap_of_balanced (hs : Sound s) (hb : Balanced s) (hneed : need < 2 ^ 64)
    (hr : s.dev.orkIovaReserve v dom need = some d) (hafter : Balanced (s.keep (d.settle dom need f))) :
    NoWrap s.dev dom need := by
  intro ht
  by_contra hwrap
  have hwidth := hs.width dom
  obtain ⟨-, -, -, -, hself⟩ := reserve_eq_some hr
  have hbytes : d.iovaBytes dom = s.dev.iovaBytes dom + need - 2 ^ 64 := by
    rw [hself ht, Nat.mod_eq_sub_mod (Nat.le_of_not_lt hwrap), Nat.mod_eq_of_lt (by omega)]
  cases f with
  | refused =>
      have hund := hafter.noUnderflow
      change (d.orkIovaRelease dom need).underflow = false at hund
      rw [((release_spec d dom need).2.2.2.1 ht).2, decide_eq_true (by omega), Bool.or_true] at hund
      cases hund
  | stray =>
      have hund := hafter.noUnderflow
      change (d.opens.orkIovaRelease dom need).underflow = false at hund
      have hlt : d.opens.iovaBytes dom < need := by
        change d.iovaBytes dom < need
        omega
      rw [((release_spec d.opens dom need).2.2.2.1 ht).2, decide_eq_true hlt, Bool.or_true] at hund
      cases hund
  | strayHeld =>
      have h := hafter.bytes dom ht
      change d.iovaBytes dom = liveBytes s.live dom at h
      rw [← hb.bytes dom ht] at h
      omega
  | made =>
      have h := hafter.bytes dom ht
      change d.iovaBytes dom = liveBytes (⟨d.next, true, need, dom⟩ :: s.live) dom at h
      rw [liveBytes_cons, if_pos rfl, ← hb.bytes dom ht] at h
      dsimp only at h
      omega

theorem balanced_settle_iff (hs : Sound s) (hb : Balanced s) (hneed : need < 2 ^ 64)
    (hr : s.dev.orkIovaReserve v dom need = some d) :
    Balanced (s.keep (d.settle dom need f)) ↔ NoWrap s.dev dom need ∧ (f = .refused ∨ f = .made) := by
  obtain ⟨hopened, hnext, hund, hne, hself⟩ := reserve_eq_some hr
  constructor
  · intro hafter
    refine ⟨noWrap_of_balanced hs hb hneed hr hafter, ?_⟩
    cases f with
    | refused => exact Or.inl rfl
    | made => exact Or.inr rfl
    | stray =>
        refine absurd hafter (not_balanced_stray hs ?_ rfl rfl)
        change s.dev.next ∈ (d.opens.orkIovaRelease dom need).opened
        rw [(release_spec d.opens dom need).1, ← hnext]
        exact List.mem_cons_self
    | strayHeld =>
        refine absurd hafter (not_balanced_stray hs ?_ rfl rfl)
        change s.dev.next ∈ d.opens.opened
        rw [← hnext]
        exact List.mem_cons_self
  · rintro ⟨hw, rfl | rfl⟩
    · constructor
      · intro e he
        exact (reserve_release hr hw e).1.trans (hb.bytes e he)
      · intro h hh
        change h ∈ (d.orkIovaRelease dom need).opened at hh
        rw [(release_spec d dom need).1, hopened] at hh
        exact hb.handles h hh
      · exact (reserve_release hr hw dom).2.trans hb.noUnderflow
    · constructor
      · intro e he
        change d.iovaBytes e = liveBytes (⟨d.next, true, need, dom⟩ :: s.live) e
        rw [liveBytes_cons, ← hb.bytes e he]
        dsimp only
        by_cases hed : e = dom
        · subst hed
          rw [hself he, Nat.mod_eq_of_lt (hw he), if_pos rfl, Nat.add_comm]
        · rw [hne e (Or.inl hed), if_neg fun h => hed h.symm, Nat.zero_add]
      · intro h hh
        change h ∈ d.next :: d.opened at hh
        rcases List.mem_cons.mp hh with rfl | hh
        · exact Or.inl ⟨_, List.mem_cons_self, rfl⟩
        · rw [hopened] at hh
          rcases hb.handles h hh with ⟨b, hmem, hbh⟩ | hmem
          · exact Or.inl ⟨b, List.mem_cons_of_mem _ hmem, hbh⟩
          · exact Or.inr hmem
      · change d.underflow = false
        rw [hund]
        exact hb.noUnderflow

variable (v dom f) in
/-- A creation from its reservation on. -/
theorem balanced_create_iff (hs : Sound s) (hb : Balanced s) (hneed : need < 2 ^ 64) :
    Balanced (s.keep (match s.dev.orkIovaReserve v dom need with
      | none => (.zero, s.dev)
      | some d => d.settle dom need f)) ↔ Settles v s.dev dom need f := by
  unfold Settles
  cases hr : s.dev.orkIovaReserve v dom need with
  | none => exact ⟨fun _ h => absurd rfl h, fun _ => hb⟩
  | some d =>
      exact (balanced_settle_iff hs hb hneed hr).trans ⟨fun h _ => h, fun h => h nofun⟩

theorem balanced_destroy (hs : Sound s) (hb : Balanced s) (h : Nat) (ok : Bool) :
    Balanced ((BufCall.bdestroy h ok).next v s) := by
  unfold BufCall.next
  dsimp only
  cases hf : s.live.find? (·.handle == h) with
  | none => exact hb
  | some b =>
      have hmem := List.mem_of_find?_eq_some hf
      have hbh : b.handle = h := beq_iff_eq.mp (List.find?_some (p := fun b : Buf => b.handle == h) hf)
      have hcpu := (hs.live b hmem).2
      have hdev : (orkiBdestroy s.dev b ok).2 = (s.dev.closes b.handle ok).orkIovaRelease b.domain b.size := by
        unfold orkiBdestroy
        rw [hcpu]
        rfl
      obtain ⟨hbytes, hunder, hclosed⟩ := closes_spec s.dev b.handle ok
      obtain ⟨hopened, -, hne, htr, hnt⟩ := release_spec (s.dev.closes b.handle ok) b.domain b.size
      have hsum := liveBytes_eraseP hf
      constructor
      · intro e he
        dsimp only
        rw [hdev]
        by_cases hed : e = b.domain
        · subst hed
          rw [(htr he).1, hbytes, hb.bytes _ he, hsum, if_pos rfl, Nat.add_sub_cancel_left]
        · rw [hne e (Or.inl hed), hbytes, hb.bytes e he, hsum, if_neg fun h => hed h.symm, Nat.zero_add]
      · intro h' hh'
        dsimp only at hh' ⊢
        rw [hdev, hopened] at hh'
        have hrest : h' ≠ h → (∃ b ∈ s.live, b.handle = h') ∨ h' ∈ s.stuck →
            (∃ b ∈ s.live.eraseP (·.handle == h), b.handle = h') ∨ h' ∈ s.stuck := by
          rintro hne' (⟨a, ha, rfl⟩ | hst)
          · exact Or.inl ⟨a, (List.mem_eraseP_of_neg (p := fun b : Buf => b.handle == h) fun hah => hne' (beq_iff_eq.mp hah)).mpr ha, rfl⟩
          · exact Or.inr hst
        obtain ⟨hin, hgone⟩ := hclosed h' hh'
        cases ok with
        | true => exact hrest (hbh ▸ hgone rfl) (hb.handles h' hin)
        | false =>
            by_cases hne' : h' = h
            · exact Or.inr (List.mem_cons.mpr (Or.inl (hne'.trans hbh.symm)))
            · rcases hrest hne' (hb.handles h' hin) with hl | hst
              · exact Or.inl hl
              · exact Or.inr (List.mem_cons_of_mem _ hst)
      · dsimp only
        rw [hdev]
        by_cases ht : Tracked b.domain
        · have hle : b.size ≤ (s.dev.closes b.handle ok).iovaBytes b.domain := by
            rw [hbytes, hb.bytes _ ht, hsum, if_pos rfl]
            exact Nat.le_add_right _ _
          rw [(htr ht).2, hunder, hb.noUnderflow, decide_eq_false (Nat.not_lt.mpr hle)]
          rfl
        · rw [hnt ht, hunder]
          exact hb.noUnderflow

/-- A call keeps balanced books balanced exactly if it is one of those that do. -/
theorem balanced_next_iff (hs : Sound s) (hb : Balanced s) (e : BufCall) : Balanced (e.next v s) ↔ Kept v s e := by
  cases e with
  | bcreate size sram domain o => exact balanced_create_iff _ _ _ hs hb (orkiPgup_lt size)
  | bimport size domain o =>
      have hcreate := balanced_create_iff v (orkDom v domain) (importFate (orkiPgup size) o) hs hb
        (orkiPgup_lt size)
      unfold BufCall.next Kept orkiBimportF
      dsimp only
      cases hheap : o.heap with
      | false => exact ⟨fun _ h => (nomatch h.1), fun _ => hb⟩
      | true =>
          cases halloc : o.alloc with
          | false => exact ⟨fun _ h => (nomatch h.2.1), fun _ => hb⟩
          | true =>
              cases hmmap : o.mmap with
              | false => exact ⟨fun _ h => (nomatch h.2.2), fun _ => hb⟩
              | true => exact hcreate.trans ⟨fun h _ => h, fun h => h ⟨rfl, rfl, rfl⟩⟩
  | bimportFd dbuf size domain o =>
      have hcreate := balanced_create_iff v (orkDom v domain) (importFate (orkiPgup size) o) hs hb
        (orkiPgup_lt size)
      unfold BufCall.next Kept orkiBimportFd
      dsimp only
      by_cases hd : dbuf < 0
      · rw [if_pos hd]
        exact ⟨fun _ h => absurd hd h.1, fun _ => hb⟩
      · rw [if_neg hd]
        cases hmmap : o.mmap with
        | false => exact ⟨fun _ h => (nomatch h.2), fun _ => hb⟩
        | true => exact hcreate.trans ⟨fun h _ => h, fun h => h ⟨hd, rfl⟩⟩
  | bdestroy h ok => exact ⟨fun _ => trivial, fun _ => balanced_destroy hs hb h ok⟩

/-! ### Whole runs -/

theorem width_release (hw : ∀ e, d.iovaBytes e < 2 ^ 64) (n : Nat) (e : Int) :
    (d.orkIovaRelease dom n).iovaBytes e < 2 ^ 64 := by
  obtain ⟨-, -, hne, htr, -⟩ := release_spec d dom n
  by_cases he : e = dom ∧ Tracked dom
  · rw [he.1, (htr he.2).1]
    exact Nat.lt_of_le_of_lt (Nat.sub_le _ _) (hw dom)
  · rw [hne e (not_and_or.mp he)]
    exact hw e

theorem sound_create (hs : Sound s) : Sound (s.keep (match s.dev.orkIovaReserve v dom need with
    | none => (.zero, s.dev)
    | some d => d.settle dom need f)) := by
  cases hr : s.dev.orkIovaReserve v dom need with
  | none => exact ⟨hs.live, hs.stuck, hs.width⟩
  | some d =>
      obtain ⟨-, hnext, -, hne, hself⟩ := reserve_eq_some hr
      have hwidth : ∀ e, d.iovaBytes e < 2 ^ 64 := fun e => by
        by_cases he : e = dom ∧ Tracked dom
        · rw [he.1, hself he.2]
          exact Nat.mod_lt _ (Nat.two_pow_pos 64)
        · rw [hne e (not_and_or.mp he)]
          exact hs.width e
      have hlt : ∀ {h : Nat}, h < s.dev.next → h < d.next + 1 := fun h => Nat.lt_succ_of_lt (hnext ▸ h)
      cases f with
      | refused =>
          refine ⟨fun b hb => ?_, fun h hh => ?_, width_release hwidth need⟩
          · change b.handle < (d.orkIovaRelease dom need).next ∧ _
            rw [(release_spec d dom need).2.1, hnext]
            exact hs.live b hb
          · change h < (d.orkIovaRelease dom need).next
            rw [(release_spec d dom need).2.1, hnext]
            exact hs.stuck h hh
      | stray =>
          refine ⟨fun b hb => ?_, fun h hh => ?_, width_release (d := d.opens) hwidth need⟩
          · change b.handle < (d.opens.orkIovaRelease dom need).next ∧ _
            rw [(release_spec d.opens dom need).2.1]
            exact ⟨hlt (hs.live b hb).1, (hs.live b hb).2⟩
          · change h < (d.opens.orkIovaRelease dom need).next
            rw [(release_spec d.opens dom need).2.1]
            exact hlt (hs.stuck h hh)
      | strayHeld => exact ⟨fun b hb => ⟨hlt (hs.live b hb).1, (hs.live b hb).2⟩, fun h hh => hlt (hs.stuck h hh), hwidth⟩
      | made =>
          refine ⟨fun b hb => ?_, fun h hh => hlt (hs.stuck h hh), hwidth⟩
          change b ∈ (⟨d.next, true, need, dom⟩ :: s.live : List Buf) at hb
          rcases List.mem_cons.mp hb with rfl | hb
          · exact ⟨Nat.lt_succ_self _, rfl⟩
          · exact ⟨hlt (hs.live b hb).1, (hs.live b hb).2⟩

theorem sound_destroy (hs : Sound s) (h : Nat) (ok : Bool) : Sound ((BufCall.bdestroy h ok).next v s) := by
  unfold BufCall.next
  dsimp only
  cases hf : s.live.find? (·.handle == h) with
  | none => exact hs
  | some b =>
      have hmem := List.mem_of_find?_eq_some hf
      have hdev : (orkiBdestroy s.dev b ok).2 = (s.dev.closes b.handle ok).orkIovaRelease b.domain b.size := by
        unfold orkiBdestroy
        rw [(hs.live b hmem).2]
        rfl
      have hnext : (orkiBdestroy s.dev b ok).2.next = s.dev.next := by
        rw [hdev, (release_spec _ _ _).2.1]
        unfold Device.closes
        split <;> rfl
      refine ⟨fun a ha => ?_, fun h' hh => ?_, fun e => ?_⟩
      · dsimp only at ha ⊢
        rw [hnext]
        exact hs.live a (List.mem_of_mem_eraseP ha)
      · dsimp only at hh ⊢
        rw [hnext]
        cases ok with
        | true => exact hs.stuck h' hh
        | false =>
            rcases List.mem_cons.mp hh with rfl | hh
            · exact (hs.live b hmem).1
            · exact hs.stuck h' hh
      · dsimp only
        rw [hdev]
        refine width_release (fun e => ?_) _ e
        rw [(closes_spec s.dev b.handle ok).1]
        exact hs.width e

theorem sound_next (hs : Sound s) (e : BufCall) : Sound (e.next v s) := by
  have hkeep : Sound (s.keep (Buf.zero, s.dev)) := ⟨hs.live, hs.stuck, hs.width⟩
  cases e with
  | bcreate size sram domain o => exact sound_create hs
  | bdestroy h ok => exact sound_destroy hs h ok
  | bimport size domain o =>
      unfold BufCall.next orkiBimportF
      dsimp only
      split
      · exact hkeep
      · split
        · exact hkeep
        · split
          · exact hkeep
          · exact sound_create hs
  | bimportFd dbuf size domain o =>
      unfold BufCall.next orkiBimportFd
      dsimp only
      split
      · exact hkeep
      · split
        · exact hkeep
        · exact sound_create hs

/-- The books balance throughout a run exactly if every call of the run keeps them where it is made: no creation fails
after its kernel object exists, and no request wraps the counter. -/
theorem iovaBytes_balanced_iff (v : BufEnv) (calls : List BufCall) :
    (∀ l, l <+: calls → Balanced (l.foldl (BufCall.next v) .start)) ↔
      System.Runs (Kept v) (fun _ _ => True) (BufCall.next v) .start calls := by
  refine System.Runs.iff_forall_prefix (I := Sound) (fun s e hs _ => sound_next hs e)
    (fun s e hs hb => balanced_next_iff hs hb e) ?_ ?_ calls
  · exact ⟨fun b hb => absurd hb List.not_mem_nil, fun h hh => absurd hh List.not_mem_nil,
      fun _ => Nat.two_pow_pos 64⟩
  · exact ⟨fun _ _ => rfl, fun h hh => absurd hh List.not_mem_nil, rfl⟩

/-- One page whose mmap fails after MEM_CREATE granted it: the object stays open. One whose address does not fit the
register field: the bytes stay counted as well. -/
theorem iovaBytes_unbalanced :
    (¬ Balanced ((BufCall.bcreate 4096 false 0 ⟨true, false, true, false, 0⟩).next ⟨2 ^ 30, 0, -1, 0, 0⟩ .start)) ∧
      ¬ Balanced ((BufCall.bcreate 4096 false 0 ⟨true, false, true, true, 2 ^ 32⟩).next ⟨2 ^ 30, 0, -1, 0, 0⟩ .start) := by
  constructor
  · intro hb
    have hlive : ((BufCall.bcreate 4096 false 0 ⟨true, false, true, false, 0⟩).next ⟨2 ^ 30, 0, -1, 0, 0⟩ .start).live = [] :=
      by decide
    rcases hb.handles 0 (by decide) with ⟨b, hmem, -⟩ | hmem
    · rw [hlive] at hmem
      exact absurd hmem List.not_mem_nil
    · exact absurd hmem (by decide)
  · intro hb
    exact absurd (hb.bytes 0 (by decide)) (by decide)

end OrkDriver.Mem
