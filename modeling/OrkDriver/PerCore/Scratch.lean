import OrkDriver.Mem.Domains
import OrkDriver.Pack.Tiles

/-!
The per-core scratch of a context: the command, task and activation buffers of `orki_mc_ensure`, the output buffers
with the sizes kept beside them, and the set each IOMMU domain has parked.
-/

namespace OrkDriver.PerCore

open OrkDriver.Pack (pgup)

/-- `struct buf` of a scratch buffer: its bytes, the domain it was asked for and the opening of the device it was
created on. -/
structure Buf where
  size : Nat
  domain : Nat
  fd : Nat
  deriving DecidableEq

/-- The buffers of a core that `orki_mc_ensure` creates. -/
inductive Slot
  | mrc
  | mtk
  | maf
  deriving DecidableEq

/-- The part of `struct ork_dom_scratch` that is kept per core. -/
structure Scratch where
  buf : Slot → Nat → Option Buf
  mtkAll : Option Buf
  mcc : Nat → Option Buf
  mccsz : Nat → Nat

def Scratch.zero : Scratch := ⟨fun _ _ => none, none, fun _ => none, fun _ => 0⟩

/-- `fd` is the opening of the device in use, none for -1; openings are numbered by `opens`. -/
structure OrkNpu where
  fd : Option Nat
  opens : Nat
  work : Scratch
  domActive : Nat
  domCap : Nat
  domSave : Nat → Scratch

/-- A context that has just opened the device. -/
def fresh : OrkNpu := ⟨some 0, 1, .zero, 0, 0, fun _ => .zero⟩

namespace Scratch

def put (w : Scratch) (s : Slot) (i : Nat) (b : Option Buf) : Scratch :=
  { w with buf := fun s' j => if s' = s ∧ j = i then b else w.buf s' j }

def putMcc (w : Scratch) (i : Nat) (b : Option Buf) (sz : Nat) : Scratch :=
  { w with mcc := Function.update w.mcc i b, mccsz := Function.update w.mccsz i sz }

/-- `c->maf[i].size` and its like: what no buffer holds is zeroed. -/
def size (w : Scratch) (s : Slot) (i : Nat) : Nat := (w.buf s i).elim 0 Buf.size

end Scratch

namespace OrkNpu

/-- Whether the kernel can have granted a buffer: on a closed device it grants none. -/
def grants (c : OrkNpu) (granted : Bool) : Bool := c.fd.isSome && granted

/-- `orki_bcreate` and `orki_bscratch` for the active domain, the kernel's answer given. -/
def orkiBcreate (c : OrkNpu) (size : Nat) (granted : Bool) : Option Buf :=
  match c.fd with
  | none => none
  | some fd => if granted then some ⟨pgup size, c.domActive, fd⟩ else none

/-- None where an array cannot grow. -/
def orkiDomReserve (c : OrkNpu) (need : Nat) (room : Bool) : Option OrkNpu :=
  if need ≤ c.domCap then some c
  else if ¬ room then none
  else
    let nc := Mem.OrkNpu.growCap need (if c.domCap = 0 then 2 else c.domCap) need
    some { c with domCap := nc, domSave := fun d => if c.domCap ≤ d ∧ d < nc then .zero else c.domSave d }

def orkiDomActivate (c : OrkNpu) (dom : Int) (room : Bool) : OrkNpu :=
  let dom := dom.toNat
  if dom = c.domActive then c
  else
    match c.orkiDomReserve (max dom c.domActive + 1) room with
    | none => c
    | some c =>
      { c with
        work := c.domSave dom
        domActive := dom
        domSave := Function.update c.domSave c.domActive c.work }

end OrkNpu

/-- The kernel's answers for the three buffers of a core. -/
structure McGrant where
  mrc : Bool
  mtk : Bool
  maf : Bool

def McGrant.all : McGrant := ⟨true, true, true⟩

namespace OrkNpu

/-- One round of the loop of `orki_mc_ensure`: the presence of the command buffer stands for all three. -/
def mcEnsureCore (c : OrkNpu) (i : Nat) (g : McGrant) : Bool × OrkNpu :=
  if (c.work.buf .mrc i).isSome then (true, c)
  else
    let mrc := c.orkiBcreate 65536 g.mrc
    let mtk := c.orkiBcreate 65536 g.mtk
    let maf := c.orkiBcreate (4 * 32768 * 2) g.maf
    (mrc.isSome && mtk.isSome && maf.isSome,
      { c with work := ((c.work.put .mrc i mrc).put .mtk i mtk).put .maf i maf })

/-- The cores below `n`, up to the first that fails. -/
def mcEnsureCores (c : OrkNpu) (g : Nat → McGrant) : Nat → Bool × OrkNpu
  | 0 => (true, c)
  | n + 1 =>
    let r := mcEnsureCores c g n
    if r.1 then r.2.mcEnsureCore n (g n) else r

/-- True where the source returns 0. -/
def orkiMcEnsure (c : OrkNpu) (nc : Nat) (all : Bool) (g : Nat → McGrant) : Bool × OrkNpu :=
  let c := if c.work.mtkAll.isSome then c
    else { c with work := { c.work with mtkAll := c.orkiBcreate 160 all } }
  if c.work.mtkAll.isNone then (false, c) else c.mcEnsureCores g nc

end OrkNpu

/-- Where a site notes the size it asked for: before it looks at the buffer it got, or once it has one. -/
inductive Noted
  | before
  | after
  deriving DecidableEq

namespace OrkNpu

/-- `if(c->maf[i].size<need){ orki_bdestroy(..); c->maf[i]=orki_bcreate(..); }` and its like. -/
def grow (c : OrkNpu) (s : Slot) (i need : Nat) (granted : Bool) : Bool × OrkNpu :=
  if c.work.size s i < need then
    ((c.orkiBcreate need granted).isSome, { c with work := c.work.put s i (c.orkiBcreate need granted) })
  else (true, c)

/-- `if(c->mccsz[i]<need){ orki_bdestroy(..); c->mcc[i]=orki_bcreate(..); c->mccsz[i]=need; }`, with the check of the
new buffer after or before the size is noted. -/
def growMcc (c : OrkNpu) (r : Noted) (i need : Nat) (granted : Bool) : Bool × OrkNpu :=
  if c.work.mccsz i < need then
    let b := c.orkiBcreate need granted
    (b.isSome,
      { c with work := c.work.putMcc i b (if r = .before ∨ b.isSome then need else c.work.mccsz i) })
  else (true, c)

/-- `if(!c->mrc[i].cpu||!c->maf[i].cpu||!c->mtk[i].cpu||!c->mcc[i].cpu) return -1;` -/
def present (c : OrkNpu) (i : Nat) : Bool :=
  (c.work.buf .mrc i).isSome && (c.work.buf .maf i).isSome && (c.work.buf .mtk i).isSome && (c.work.mcc i).isSome

/-- The output buffer of a core given back after a coalesced run. -/
def release (c : OrkNpu) (i : Nat) : OrkNpu :=
  if (c.work.mcc i).isSome then { c with work := c.work.putMcc i none 0 } else c

/-- The size part of `ork_npu_enter`. -/
def orkNpuEnter (c : OrkNpu) (sclr : Bool) : OrkNpu :=
  if sclr then { c with work := { c.work with mccsz := fun _ => 0 } } else c

/-- True where the device was opened again. -/
def orkCtxFdReap (c : OrkNpu) (opened : Bool) : Bool × OrkNpu :=
  if c.fd.isNone then (false, c)
  else if ¬ opened then (false, { c with fd := none })
  else (true, ⟨some c.opens, c.opens + 1, .zero, 0, 0, fun _ => .zero⟩)

end OrkNpu

/-! ### What an operation on the context does to the scratch, one step at a time -/

inductive Event
  | activate (dom : Int) (room : Bool)
  | enter (sclr : Bool)
  | ensure (nc : Nat) (all : Bool) (g : Nat → McGrant)
  | grow (s : Slot) (i need : Nat) (granted : Bool)
  | growMcc (r : Noted) (i need : Nat) (granted : Bool)
  | present (i : Nat)
  | release (i : Nat)
  | reap (opened : Bool)

/-- What the step returns and the context after it. -/
def OrkNpu.exec (c : OrkNpu) : Event → Bool × OrkNpu
  | .activate dom room => (true, c.orkiDomActivate dom room)
  | .enter sclr => (true, c.orkNpuEnter sclr)
  | .ensure nc all g => c.orkiMcEnsure nc all g
  | .grow s i need granted => c.grow s i need granted
  | .growMcc r i need granted => c.growMcc r i need granted
  | .present i => (c.present i, c)
  | .release i => (true, c.release i)
  | .reap opened => c.orkCtxFdReap opened

/-! ### Live buffers -/

/-- A buffer of the opening in use, in domain `d`. -/
def Buf.At (b : Buf) (d : Nat) (fd : Option Nat) : Prop := b.domain = d ∧ fd = some b.fd

/-- Wherever a size is noted, there is a live output buffer of that size. -/
def Scratch.Sized (w : Scratch) (d : Nat) (fd : Option Nat) : Prop :=
  ∀ i, 0 < w.mccsz i → ∃ b, w.mcc i = some b ∧ b.At d fd ∧ w.mccsz i ≤ b.size

def OrkNpu.SizesLive (c : OrkNpu) : Prop := c.work.Sized c.domActive c.fd

/-- Every core below `nc` has its three buffers, live in the active domain. -/
def OrkNpu.Furnished (c : OrkNpu) (nc : Nat) : Prop :=
  ∀ i < nc, ∀ s, ∃ b, c.work.buf s i = some b ∧ b.At c.domActive c.fd

/-- Nothing noted and no command buffer: nothing a later operation would take for granted. -/
def Scratch.Bare (w : Scratch) : Prop := ∀ i, w.mccsz i = 0 ∧ w.buf .mrc i = none

/-- `orki_mc_ensure` comes to core `i`. -/
def OrkNpu.Reaches (c : OrkNpu) (all : Bool) (g : Nat → McGrant) (i : Nat) : Prop :=
  (c.work.mtkAll.isSome ∨ c.grants all) ∧
    ∀ j < i, (c.work.buf .mrc j).isSome ∨ c.grants ((g j).mrc && (g j).mtk && (g j).maf)

/-- The step leaves no size without its buffer and no command buffer without the two beside it: an output buffer is
refused only where no size is noted, neither an old one nor the new one; a core for which `orki_mc_ensure` gets the
command buffer gets all three; a task or activation buffer that has to grow is granted, or its core has no command
buffer; and the device opens again, unless there is nothing to lose. -/
def OrkNpu.Spares (c : OrkNpu) : Event → Prop
  | .ensure nc all g =>
    ∀ i < nc, c.Reaches all g i → c.work.buf .mrc i = none → c.grants (g i).mrc → (g i).mtk ∧ (g i).maf
  | .grow .mrc i need granted =>
    c.work.size .mrc i < need → c.grants granted → (c.work.buf .mtk i).isSome ∧ (c.work.buf .maf i).isSome
  | .grow s i need granted => c.work.size s i < need → (c.work.buf .mrc i).isSome → c.grants granted
  | .growMcc r i need granted => c.work.mccsz i < need → c.grants granted ∨ (r = .after ∧ c.work.mccsz i = 0)
  | .reap opened => c.fd.isSome → opened ∨ c.work.Bare ∧ ∀ d, d ≠ c.domActive → (c.domSave d).Bare
  | _ => True

/-! ### What a step preserves -/

/-- The command buffer of a core stands for all three. -/
structure Scratch.Whole (w : Scratch) (d : Nat) (fd : Option Nat) : Prop where
  here : fd.isSome → ∀ s i b, w.buf s i = some b → b.At d fd
  all : ∀ i, (w.buf .mrc i).isSome → fd.isSome ∧ (w.buf .mtk i).isSome ∧ (w.buf .maf i).isSome

def Scratch.Sound (w : Scratch) (d : Nat) (fd : Option Nat) : Prop := w.Sized d fd ∧ w.Whole d fd

structure OrkNpu.Sound (c : OrkNpu) : Prop where
  work : c.work.Sound c.domActive c.fd
  parked : ∀ d, d ≠ c.domActive → (c.domSave d).Sound d c.fd

variable {c : OrkNpu} {w : Scratch} {d : Nat} {fd : Option Nat}

theorem Scratch.zero_sound (d : Nat) (fd : Option Nat) : Scratch.zero.Sound d fd := by
  refine ⟨fun i h => absurd h (Nat.lt_irrefl 0), ?_, ?_⟩
  · intro _ s i b h
    cases h
  · intro i h
    cases h

theorem fresh_sound : fresh.Sound := ⟨Scratch.zero_sound 0 _, fun d _ => Scratch.zero_sound d _⟩

theorem orkiBcreate_isSome (c : OrkNpu) (n : Nat) (g : Bool) : (c.orkiBcreate n g).isSome = c.grants g := by
  unfold OrkNpu.orkiBcreate OrkNpu.grants
  cases c.fd with
  | none => rfl
  | some fd => cases g <;> rfl

theorem orkiBcreate_at {n : Nat} {g : Bool} {b : Buf} (h : c.orkiBcreate n g = some b) :
    b.At c.domActive c.fd ∧ n ≤ b.size := by
  unfold OrkNpu.orkiBcreate at h
  cases hfd : c.fd with
  | none =>
    rw [hfd] at h
    cases h
  | some fd =>
    rw [hfd] at h
    cases g with
    | false => cases h
    | true =>
      cases h
      exact ⟨⟨rfl, rfl⟩, Pack.le_pgup n⟩

theorem grants_isSome {g : Bool} (h : c.grants g = true) : c.fd.isSome = true := (Bool.and_eq_true_iff.mp h).1

/-- A buffer put into a place: the sizes are not touched, and the three buffers of the core are judged anew. -/
theorem Scratch.Sound.put (h : w.Sound d fd) {s : Slot} {i : Nat} {o : Option Buf}
    (hat : fd.isSome → ∀ b, o = some b → b.At d fd)
    (hall : ((w.put s i o).buf .mrc i).isSome →
      fd.isSome ∧ ((w.put s i o).buf .mtk i).isSome ∧ ((w.put s i o).buf .maf i).isSome) :
    (w.put s i o).Sound d fd := by
  refine ⟨h.1, ?_, ?_⟩
  · intro hfd s' j b hb
    by_cases hp : s' = s ∧ j = i
    · simp only [Scratch.put, if_pos hp] at hb
      exact hat hfd b hb
    · simp only [Scratch.put, if_neg hp] at hb
      exact h.2.here hfd s' j b hb
  · intro j hj
    by_cases hji : j = i
    · subst hji
      exact hall hj
    · have hne : ∀ s', (w.put s i o).buf s' j = w.buf s' j := fun s' => if_neg fun hp => hji hp.2
      rw [hne] at hj
      rw [hne, hne]
      exact h.2.all j hj

/-- An output buffer replaced with its size: the size is noted only beside a buffer of that size. -/
theorem Scratch.Sound.putMcc (h : w.Sound d fd) {i sz : Nat} {o : Option Buf}
    (ho : 0 < sz → ∃ b, o = some b ∧ b.At d fd ∧ sz ≤ b.size) : (w.putMcc i o sz).Sound d fd := by
  refine ⟨?_, ⟨h.2.here, h.2.all⟩⟩
  intro j hj
  by_cases hji : j = i
  · subst hji
    simp only [Scratch.putMcc, Function.update_self] at hj ⊢
    exact ho hj
  · simp only [Scratch.putMcc, Function.update_of_ne hji] at hj ⊢
    exact h.1 j hj

/-- Sets that agree on the cores are sound together. -/
theorem Scratch.Sound.mtkAll (h : w.Sound d fd) (o : Option Buf) : ({ w with mtkAll := o } : Scratch).Sound d fd :=
  ⟨h.1, ⟨h.2.here, h.2.all⟩⟩

theorem Scratch.Sound.enter (h : w.Sound d fd) : ({ w with mccsz := fun _ => 0 } : Scratch).Sound d fd :=
  ⟨fun _ hi => absurd hi (Nat.lt_irrefl 0), ⟨h.2.here, h.2.all⟩⟩

/-- Nothing is lost by a device that goes away under a bare set. -/
theorem Scratch.Bare.sound (h : w.Bare) (d : Nat) : w.Sound d none := by
  refine ⟨?_, nofun, ?_⟩
  · intro i hi
    rw [(h i).1] at hi
    exact absurd hi (Nat.lt_irrefl 0)
  · intro i hi
    rw [(h i).2] at hi
    cases hi

theorem OrkNpu.Sound.withWork (h : c.Sound) {w : Scratch} (hw : w.Sound c.domActive c.fd) :
    ({ c with work := w } : OrkNpu).Sound := ⟨hw, h.parked⟩

/-! ### `orki_mc_ensure` -/

theorem mcEnsureCore_frame (c : OrkNpu) (i : Nat) (g : McGrant) :
    (c.mcEnsureCore i g).2.fd = c.fd ∧ (c.mcEnsureCore i g).2.domActive = c.domActive ∧
      ∀ s j, j ≠ i → (c.mcEnsureCore i g).2.work.buf s j = c.work.buf s j := by
  unfold OrkNpu.mcEnsureCore
  split_ifs
  · exact ⟨rfl, rfl, fun _ _ _ => rfl⟩
  · refine ⟨rfl, rfl, fun s j hj => ?_⟩
    simp only [Scratch.put, hj, and_false, if_false]

theorem mcEnsureCore_ok (c : OrkNpu) (i : Nat) (g : McGrant) :
    (c.mcEnsureCore i g).1 = ((c.work.buf .mrc i).isSome || c.grants (g.mrc && g.mtk && g.maf)) := by
  unfold OrkNpu.mcEnsureCore
  split_ifs with h
  · rw [h, Bool.true_or]
  · simp only [orkiBcreate_isSome, OrkNpu.grants, Bool.eq_false_of_not_eq_true h, Bool.false_or]
    cases c.fd.isSome <;> simp

/-- The core ends with all three buffers or with no command buffer, unless the command buffer alone is granted. -/
theorem mcEnsureCore_sound (h : c.Sound) {i : Nat} {g : McGrant}
    (hg : c.work.buf .mrc i = none → c.grants g.mrc → g.mtk ∧ g.maf) : (c.mcEnsureCore i g).2.Sound := by
  unfold OrkNpu.mcEnsureCore
  split_ifs with hp
  · exact h
  · have hnone : c.work.buf .mrc i = none := Option.not_isSome_iff_eq_none.mp hp
    have hbuf : ∀ s, (((c.work.put .mrc i (c.orkiBcreate 65536 g.mrc)).put .mtk i
        (c.orkiBcreate 65536 g.mtk)).put .maf i (c.orkiBcreate (4 * 32768 * 2) g.maf)).buf s i =
          match s with
          | .mrc => c.orkiBcreate 65536 g.mrc
          | .mtk => c.orkiBcreate 65536 g.mtk
          | .maf => c.orkiBcreate (4 * 32768 * 2) g.maf := by
      intro s
      cases s <;> simp [Scratch.put]
    refine h.withWork ⟨h.work.1, ?_, ?_⟩
    · intro hfd s j b hb
      by_cases hji : j = i
      · subst hji
        rw [hbuf] at hb
        cases s <;> exact (orkiBcreate_at hb).1
      · simp only [Scratch.put, hji, and_false, if_false] at hb
        exact h.work.2.here hfd s j b hb
    · intro j hj
      by_cases hji : j = i
      · subst hji
        simp only [hbuf, orkiBcreate_isSome] at hj ⊢
        obtain ⟨ht, ha⟩ := hg hnone hj
        have hfd := grants_isSome hj
        exact ⟨hfd, by rw [OrkNpu.grants, hfd, ht]; rfl, by rw [OrkNpu.grants, hfd, ha]; rfl⟩
      · simp only [Scratch.put, hji, and_false, if_false] at hj ⊢
        exact h.work.2.all j hj

theorem mcEnsureCores_frame (c : OrkNpu) (g : Nat → McGrant) (n : Nat) :
    (c.mcEnsureCores g n).2.fd = c.fd ∧ (c.mcEnsureCores g n).2.domActive = c.domActive ∧
      ∀ s j, n ≤ j → (c.mcEnsureCores g n).2.work.buf s j = c.work.buf s j := by
  induction n with
  | zero => exact ⟨rfl, rfl, fun _ _ _ => rfl⟩
  | succ n ih =>
    obtain ⟨hfd, hdom, hbuf⟩ := ih
    simp only [OrkNpu.mcEnsureCores]
    split_ifs
    · obtain ⟨hfd', hdom', hbuf'⟩ := mcEnsureCore_frame (c.mcEnsureCores g n).2 n (g n)
      refine ⟨hfd'.trans hfd, hdom'.trans hdom, fun s j hj => ?_⟩
      rw [hbuf' s j (Nat.ne_of_gt hj), hbuf s j (Nat.le_of_succ_le hj)]
    · exact ⟨hfd, hdom, fun s j hj => hbuf s j (Nat.le_of_succ_le hj)⟩

theorem mcEnsureCores_sound (h : c.Sound) (g : Nat → McGrant) {n : Nat}
    (hg : ∀ i < n, (∀ j < i, (c.work.buf .mrc j).isSome ∨ c.grants ((g j).mrc && (g j).mtk && (g j).maf)) →
      c.work.buf .mrc i = none → c.grants (g i).mrc → (g i).mtk ∧ (g i).maf) :
    (c.mcEnsureCores g n).2.Sound ∧
      ((c.mcEnsureCores g n).1 = true → ∀ i < n, ((c.mcEnsureCores g n).2.work.buf .mrc i).isSome ∧
        ((c.work.buf .mrc i).isSome ∨ c.grants ((g i).mrc && (g i).mtk && (g i).maf))) := by
  induction n with
  | zero => exact ⟨h, fun _ i hi => absurd hi (Nat.not_lt_zero i)⟩
  | succ n ih =>
    obtain ⟨hs, hok⟩ := ih fun i hi => hg i (Nat.lt_succ_of_lt hi)
    obtain ⟨hfd, hdom, hbuf⟩ := mcEnsureCores_frame c g n
    simp only [OrkNpu.mcEnsureCores]
    split_ifs with hgo
    · have hgr : ∀ b, (c.mcEnsureCores g n).2.grants b = c.grants b := by
        intro b
        rw [OrkNpu.grants, hfd]
        rfl
      refine ⟨mcEnsureCore_sound hs ?_, ?_⟩
      · rw [hbuf _ n (Nat.le_refl n), hgr]
        exact hg n (Nat.lt_succ_self n) fun j hj => (hok hgo j hj).2
      · intro hlast i hi
        obtain ⟨_, _, hother⟩ := mcEnsureCore_frame (c.mcEnsureCores g n).2 n (g n)
        rcases Nat.lt_succ_iff_lt_or_eq.mp hi with hlt | rfl
        · rw [hother _ i (Nat.ne_of_lt hlt)]
          exact hok hgo i hlt
        · have hokn := hlast
          rw [mcEnsureCore_ok, hbuf _ i (Nat.le_refl i), hgr, Bool.or_eq_true] at hokn
          refine ⟨?_, hokn⟩
          unfold OrkNpu.mcEnsureCore at hlast ⊢
          split_ifs with hp
          · exact hp
          · rw [if_neg hp] at hlast
            simp only [Bool.and_eq_true] at hlast
            simp [Scratch.put, hlast.1.1]
    · exact ⟨hs, fun hgo' => absurd hgo' hgo⟩

/-- A sound set whose command buffers are there below `n` is furnished below `n`. -/
theorem OrkNpu.Sound.furnished (h : c.Sound) {n : Nat} (hn : ∀ i < n, (c.work.buf .mrc i).isSome) : c.Furnished n := by
  intro i hi s
  obtain ⟨hfd, ht, ha⟩ := h.work.2.all i (hn i hi)
  have hs : (c.work.buf s i).isSome := by
    cases s with
    | mrc => exact hn i hi
    | mtk => exact ht
    | maf => exact ha
  obtain ⟨b, hb⟩ := Option.isSome_iff_exists.mp hs
  exact ⟨b, hb, h.work.2.here hfd s i b hb⟩

/-- Where it returns 0 every core asked for is furnished, and the set stays sound unless a core's command buffer is
granted alone. -/
theorem orkiMcEnsure_sound (h : c.Sound) {nc : Nat} {all : Bool} {g : Nat → McGrant} (hg : c.Spares (.ensure nc all g)) :
    (c.orkiMcEnsure nc all g).2.Sound ∧
      ((c.orkiMcEnsure nc all g).1 = true → (c.orkiMcEnsure nc all g).2.Furnished nc) := by
  have hrun : ∀ c' : OrkNpu, c'.Sound → c'.fd = c.fd → c'.work.buf = c.work.buf → (c.work.mtkAll.isSome ∨ c.grants all) →
      (c'.mcEnsureCores g nc).2.Sound ∧ ((c'.mcEnsureCores g nc).1 = true → (c'.mcEnsureCores g nc).2.Furnished nc) := by
    intro c' hs hfd hbuf hall
    have hgr : ∀ b, c'.grants b = c.grants b := by
      intro b
      rw [OrkNpu.grants, hfd]
      rfl
    obtain ⟨hs', hok⟩ := mcEnsureCores_sound hs g (n := nc) fun i hi hbefore => by
      rw [hbuf, hgr]
      refine hg i hi ⟨hall, fun j hj => ?_⟩
      have hj' := hbefore j hj
      rw [hbuf, hgr] at hj'
      exact hj'
    exact ⟨hs', fun hgo => hs'.furnished fun i hi => (hok hgo i hi).1⟩
  unfold OrkNpu.orkiMcEnsure
  dsimp only
  by_cases hp : c.work.mtkAll.isSome = true
  · rw [if_pos hp, if_neg (by rw [Option.isNone_iff_eq_none]; exact Option.isSome_iff_ne_none.mp hp)]
    exact hrun c h rfl rfl (Or.inl hp)
  · rw [if_neg hp]
    have hs : ({ c with work := { c.work with mtkAll := c.orkiBcreate 160 all } } : OrkNpu).Sound :=
      h.withWork (h.work.mtkAll _)
    split_ifs with hn
    · exact ⟨hs, nofun⟩
    · refine hrun _ hs rfl rfl (Or.inr ?_)
      rw [← orkiBcreate_isSome c 160 all]
      exact Option.isSome_iff_ne_none.mpr fun hnone => hn (Option.isNone_iff_eq_none.mpr hnone)

/-! ### The other steps -/

theorem orkiDomReserve_sound (h : c.Sound) {need : Nat} {room : Bool} {c' : OrkNpu}
    (hr : c.orkiDomReserve need room = some c') : c'.Sound ∧ c'.domActive = c.domActive := by
  unfold OrkNpu.orkiDomReserve at hr
  by_cases hcap : need ≤ c.domCap
  · rw [if_pos hcap] at hr
    cases hr
    exact ⟨h, rfl⟩
  · rw [if_neg hcap] at hr
    cases room with
    | false => cases hr
    | true =>
      cases hr
      refine ⟨⟨h.work, fun d hd => ?_⟩, rfl⟩
      dsimp only
      generalize Mem.OrkNpu.growCap need (if c.domCap = 0 then 2 else c.domCap) need = nc
      split_ifs
      · exact Scratch.zero_sound d _
      · exact h.parked d hd

/-- The set of the domain left is parked whole and the one restored is the one its domain parked. -/
theorem orkiDomActivate_sound (h : c.Sound) (dom : Int) (room : Bool) : (c.orkiDomActivate dom room).Sound := by
  unfold OrkNpu.orkiDomActivate
  dsimp only
  split_ifs with hsame
  · exact h
  · cases hr : c.orkiDomReserve (max dom.toNat c.domActive + 1) room with
    | none => exact h
    | some c' =>
      obtain ⟨hs, hact⟩ := orkiDomReserve_sound h hr
      refine ⟨hs.parked _ (hact ▸ hsame), fun d _ => ?_⟩
      dsimp only
      by_cases hd : d = c'.domActive
      · subst hd
        rw [Function.update_self]
        exact hs.work
      · rw [Function.update_of_ne hd]
        exact hs.parked d hd

theorem grow_sound (h : c.Sound) {s : Slot} {i need : Nat} {granted : Bool} (hg : c.Spares (.grow s i need granted)) :
    (c.grow s i need granted).2.Sound := by
  unfold OrkNpu.grow
  split_ifs with hlt
  · refine h.withWork (h.work.put (fun _ b hb => (orkiBcreate_at hb).1) ?_)
    cases s with
    | mrc =>
      intro hm
      simp only [Scratch.put, and_self, if_true, orkiBcreate_isSome] at hm
      simp only [Scratch.put, reduceCtorEq, false_and, if_false]
      exact ⟨grants_isSome hm, hg hlt hm⟩
    | mtk =>
      intro hm
      simp only [Scratch.put, reduceCtorEq, false_and, if_false] at hm
      simp only [Scratch.put, and_self, if_true, reduceCtorEq, false_and, if_false, orkiBcreate_isSome]
      obtain ⟨hfd, _, ha⟩ := h.work.2.all i hm
      exact ⟨hfd, hg hlt hm, ha⟩
    | maf =>
      intro hm
      simp only [Scratch.put, reduceCtorEq, false_and, if_false] at hm
      simp only [Scratch.put, and_self, if_true, reduceCtorEq, false_and, if_false, orkiBcreate_isSome]
      obtain ⟨hfd, ht, _⟩ := h.work.2.all i hm
      exact ⟨hfd, ht, hg hlt hm⟩
  · exact h

theorem growMcc_sound (h : c.Sound) {r : Noted} {i need : Nat} {granted : Bool}
    (hg : c.Spares (.growMcc r i need granted)) : (c.growMcc r i need granted).2.Sound := by
  unfold OrkNpu.growMcc
  split_ifs with hlt
  · refine h.withWork (h.work.putMcc fun hpos => ?_)
    cases hb : c.orkiBcreate need granted with
    | some b =>
      obtain ⟨hat, hsz⟩ := orkiBcreate_at hb
      exact ⟨b, rfl, hat, by simpa using hsz⟩
    | none =>
      have hno : c.grants granted = false := by rw [← orkiBcreate_isSome c need granted, hb]; rfl
      rcases hg hlt with hyes | ⟨rfl, h0⟩
      · exact absurd (hno.symm.trans hyes) Bool.false_ne_true
      · rw [hb, if_neg (by simp), h0] at hpos
        exact absurd hpos (Nat.lt_irrefl 0)
  · exact h

theorem release_sound (h : c.Sound) (i : Nat) : (c.release i).Sound := by
  unfold OrkNpu.release
  split_ifs
  · exact h.withWork (h.work.putMcc fun hpos => absurd hpos (Nat.lt_irrefl 0))
  · exact h

theorem orkCtxFdReap_sound (h : c.Sound) {opened : Bool} (hg : c.Spares (.reap opened)) :
    (c.orkCtxFdReap opened).2.Sound := by
  unfold OrkNpu.orkCtxFdReap
  by_cases hfd : c.fd.isNone = true
  · rw [if_pos hfd]
    exact h
  · rw [if_neg hfd]
    have hopen : c.fd.isSome = true := by
      cases hc : c.fd with
      | none => exact absurd (by rw [hc]; rfl) hfd
      | some fd => rfl
    cases opened with
    | false =>
      obtain ⟨hw, hp⟩ := (hg hopen).resolve_left Bool.false_ne_true
      exact ⟨hw.sound _, fun d hd => (hp d hd).sound d⟩
    | true => exact ⟨Scratch.zero_sound _ _, fun d _ => Scratch.zero_sound d _⟩

/-- One step that spares the scratch keeps every set sound. -/
theorem exec_sound (h : c.Sound) {e : Event} (hg : c.Spares e) : (c.exec e).2.Sound := by
  cases e with
  | activate dom room => exact orkiDomActivate_sound h dom room
  | enter sclr =>
    simp only [OrkNpu.exec, OrkNpu.orkNpuEnter]
    split_ifs
    · exact h.withWork h.work.enter
    · exact h
  | ensure nc all g => exact (orkiMcEnsure_sound h hg).1
  | grow s i need granted => exact grow_sound h hg
  | growMcc r i need granted => exact growMcc_sound h hg
  | present i => exact h
  | release i => exact release_sound h i
  | reap opened => exact orkCtxFdReap_sound h hg

end OrkDriver.PerCore
