import Mathlib.Algebra.Order.Field.Rat
import Mathlib.Data.List.Basic
import Mathlib.Tactic.NormNum

/-!
The two process-wide caches of `npu/norm.c`: the all-ones weight of `norm_reduce_w` and the calibrated weight of
`rsqrt_lut_ensure`. Both are keyed by the address of a context, and `ork_npu_free` does not know them.
-/

namespace OrkDriver.Norm

/-! ### The code -/

/-- A weight packed by the norms: which weight it is, and which context it was packed on. -/
structure NormW where
  id : Nat
  home : Nat
  deriving DecidableEq

/-- `orki_rs`. -/
structure RsqrtCache where
  c : Nat
  nf : Int
  eps : ℚ
  lo : ℚ
  hi : ℚ
  wS : Option NormW
  valid : Bool

/-- The process: the context that lives at an address, the weights whose buffers are allocated, and the two caches.
A context is known by its number in the order of creation, so that one made at the address of a freed one is another. -/
structure Process where
  contexts : Nat → Option Nat
  made : Nat
  packed : Nat
  held : List NormW
  onesW : Option NormW
  onesN : Int
  onesCtx : Nat
  rs : RsqrtCache

def Process.start : Process :=
  { contexts := fun _ => none, made := 0, packed := 0, held := [], onesW := none, onesN := 0, onesCtx := 0,
    rs := { c := 0, nf := 0, eps := 0, lo := 0, hi := 0, wS := none, valid := false } }

/-- `ork_npu_init` that returns a context at address `a`. -/
def orkNpuInit (s : Process) (a : Nat) : Process :=
  { s with contexts := fun b => if b = a then some s.made else s.contexts b, made := s.made + 1 }

/-- `ork_npu_free`: every buffer made on the context goes with it. -/
def orkNpuFree (s : Process) (a : Nat) : Process :=
  { s with
    contexts := fun b => if b = a then none else s.contexts b
    held := s.held.filter fun w => s.contexts a ≠ some w.home }

/-- `ork_mm_free`. -/
def orkMmFree (s : Process) (w : NormW) : Process := { s with held := s.held.filter (· ≠ w) }

/-- `ork_f16_mm_pack` on context number `k`, when it succeeds. -/
def orkF16MmPack (s : Process) (k : Nat) : NormW × Process :=
  let w : NormW := { id := s.packed, home := k }
  (w, { s with packed := s.packed + 1, held := w :: s.held })

/-- What a helper did: the weight it gives its caller, and the weights it freed, each with the address of the context it
freed it through. -/
structure Served where
  weight : Option NormW
  freed : List (Nat × NormW)
  process : Process

/-- What a call finds: whether the norms of the device are enabled, and whether the probe of the LUT, `malloc` and the
pack succeed. -/
structure NormEnv where
  enabled : Bool
  lut : Bool
  alloc : Bool
  pack : Bool

/-- The number of the context at `a` that a pack lands on, where `malloc` and the pack succeed. -/
def packsOn (s : Process) (v : NormEnv) (a : Nat) : Option Nat := if v.alloc = true ∧ v.pack = true then s.contexts a else none

/-- `norm_reduce_w` on a miss: the weight it had goes first. -/
def dropOnes (s : Process) : Process :=
  match s.onesW with
  | none => s
  | some w => { orkMmFree s w with onesW := none }

/-- `norm_reduce_w`, on the context at address `a`. -/
def normReduceW (s : Process) (v : NormEnv) (a : Nat) (n : Int) : Served :=
  if s.onesW.isSome ∧ s.onesN = n ∧ s.onesCtx = a then { weight := s.onesW, freed := [], process := s }
  else
    let freed := s.onesW.toList.map fun w => (s.onesCtx, w)
    match packsOn s v a with
    | none => { weight := none, freed, process := dropOnes s }
    | some k =>
      let p := orkF16MmPack (dropOnes s) k
      { weight := some p.1, freed, process := { p.2 with onesW := some p.1, onesN := n, onesCtx := a } }

/-- `ork_norm_reduce_npu`, up to its run. -/
def orkNormReduceNpu (s : Process) (v : NormEnv) (a : Nat) (n : Int) : Served :=
  if v.enabled = false ∨ n % 32 ≠ 0 then { weight := none, freed := [], process := s } else normReduceW s v a n

/-- The test for a hit in `rsqrt_lut_ensure`. -/
def rsqrtHit (s : Process) (a : Nat) (nf : Int) (eps lo hi : ℚ) : Prop :=
  s.rs.valid = true ∧ s.rs.c = a ∧ s.rs.nf = nf ∧ s.rs.eps = eps ∧ s.rs.lo ≤ lo ∧ hi ≤ s.rs.hi

instance (s : Process) (a : Nat) (nf : Int) (eps lo hi : ℚ) : Decidable (rsqrtHit s a nf eps lo hi) :=
  inferInstanceAs (Decidable (_ ∧ _))

/-- `rsqrt_lut_ensure`; where it returns 0, its caller uses the weight of the cache. -/
def rsqrtLutEnsure (s : Process) (v : NormEnv) (a : Nat) (nf : Int) (eps ssLo ssHi : ℚ) : Served :=
  if rsqrtHit s a nf eps ssLo ssHi then { weight := s.rs.wS, freed := [], process := s }
  else
    let lo := ssLo * (9 / 10)
    let hi := ssHi * (115 / 100)
    let fl := nf * eps
    let lo := if lo < fl then fl else lo
    let lo := if hi ≤ lo then hi / 2 else lo
    if hi ≤ 0 ∨ v.lut = false then { weight := none, freed := [], process := s }
    else match packsOn s v a with
      | none => { weight := none, freed := [], process := s }
      | some k =>
        let p := orkF16MmPack s k
        { weight := some p.1
          freed := s.rs.wS.toList.map fun w => (s.rs.c, w)
          process :=
            { s.rs.wS.elim p.2 (orkMmFree p.2) with
              rs := { c := a, nf, eps, lo, hi, wS := some p.1, valid := true } } }

/-- The smallest and the largest sum of squares, as `ork_norm_rsqrt_npu` finds them. -/
def ssRange (ss : List ℚ) : ℚ × ℚ :=
  ss.foldl (fun p x => (if x < p.1 then x else p.1, if p.2 < x then x else p.2)) (10 ^ 30, 0)

/-- `ork_norm_rsqrt_npu`, up to its run. -/
def orkNormRsqrtNpu (s : Process) (v : NormEnv) (a : Nat) (nf : Int) (eps : ℚ) (ss : List ℚ) : Served :=
  if (ssRange ss).2 ≤ 0 then { weight := none, freed := [], process := s }
  else rsqrtLutEnsure s v a nf eps (ssRange ss).1 (ssRange ss).2

/-! ### Histories -/

/-- What a program does. A norm is a reduction and, where that gave its sums, a reciprocal root of them. -/
inductive NormEvent
  | init (a : Nat)
  | free (a : Nat)
  | reduce (a : Nat) (n : Int) (v : NormEnv)
  | rsqrt (a : Nat) (nf : Int) (eps : ℚ) (ss : List ℚ) (v : NormEnv)

/-- The helper's part of an event. -/
def NormEvent.served (s : Process) : NormEvent → Served
  | .init a => { weight := none, freed := [], process := orkNpuInit s a }
  | .free a => { weight := none, freed := [], process := orkNpuFree s a }
  | .reduce a n v => orkNormReduceNpu s v a n
  | .rsqrt a nf eps ss v => orkNormRsqrtNpu s v a nf eps ss

/-- A context is made at an address where none lives, and used and freed while it lives. -/
def NormEvent.Legal (s : Process) : NormEvent → Prop
  | .init a => s.contexts a = none
  | .free a | .reduce a _ _ | .rsqrt a _ _ _ _ => (s.contexts a).isSome

instance (s : Process) : (e : NormEvent) → Decidable (e.Legal s)
  | .init a => inferInstanceAs (Decidable (s.contexts a = none))
  | .free a | .reduce a _ _ | .rsqrt a _ _ _ _ => inferInstanceAs (Decidable ((s.contexts a).isSome = true))

/-- A history of a process. -/
def LegalFrom (s : Process) : List NormEvent → Prop
  | [] => True
  | e :: es => e.Legal s ∧ LegalFrom (e.served s).process es

/-- Some property of an event and the state before it, all along a history. -/
def AlongFrom (P : Process → NormEvent → Prop) (s : Process) : List NormEvent → Prop
  | [] => True
  | e :: es => P s e ∧ AlongFrom P (e.served s).process es

/-- A helper serves its caller well: the weight it gives was packed on the context that lives at `a` and is allocated,
and the weights it freed it freed through the contexts they were packed on. -/
def Served.Sound (s : Process) (a : Nat) (r : Served) : Prop :=
  (∀ w, r.weight = some w → r.process.contexts a = some w.home ∧ w ∈ r.process.held) ∧
    ∀ p ∈ r.freed, s.contexts p.1 = some p.2.home

/-- An event in which the helper serves well. -/
def NormEvent.Sound (s : Process) : NormEvent → Prop
  | .init _ | .free _ => True
  | .reduce a n v => (orkNormReduceNpu s v a n).Sound s a
  | .rsqrt a nf eps ss v => (orkNormRsqrtNpu s v a nf eps ss).Sound s a

/-- The context that a cached weight was packed on still lives. -/
def Living (s : Process) (cached : Option NormW) : Prop := ∀ w, cached = some w → ∃ b, s.contexts b = some w.home

/-- An event that finds its cache empty or filled by a living context, or gives up before it uses the cache. -/
def NormEvent.Current (s : Process) : NormEvent → Prop
  | .init _ | .free _ => True
  | .reduce _ n v => v.enabled = false ∨ n % 32 ≠ 0 ∨ Living s s.onesW
  | .rsqrt a nf eps ss v =>
    (ssRange ss).2 ≤ 0 ∨
      (¬ rsqrtHit s a nf eps (ssRange ss).1 (ssRange ss).2 ∧ (v.lut = false ∨ v.alloc = false ∨ v.pack = false)) ∨
      Living s s.rs.wS

/-! ### What a history keeps -/

/-- A weight in a cache with context address `c`: while the context it was packed on lives, that is the one at `c` and
the weight is allocated. -/
structure Cached (s : Process) (c : Nat) (w : NormW) : Prop where
  home_lt : w.home < s.made
  id_lt : w.id < s.packed
  held : ∀ b, s.contexts b = some w.home → b = c ∧ w ∈ s.held

structure Sane (s : Process) : Prop where
  number_lt : ∀ a k, s.contexts a = some k → k < s.made
  number_inj : ∀ a b k, s.contexts a = some k → s.contexts b = some k → a = b
  ones : ∀ w, s.onesW = some w → Cached s s.onesCtx w
  rs : ∀ w, s.rs.wS = some w → Cached s s.rs.c w
  valid : s.rs.valid = true → s.rs.wS ≠ none
  apart : ∀ w, s.onesW = some w → s.rs.wS ≠ some w

theorem sane_start : Sane Process.start where
  number_lt := nofun
  number_inj := nofun
  ones := nofun
  rs := nofun
  valid := nofun
  apart := nofun

theorem Cached.orkNpuInit {s : Process} {a c : Nat} {w : NormW} (h : Cached s c w) : Cached (orkNpuInit s a) c w where
  home_lt := Nat.lt_succ_of_lt h.home_lt
  id_lt := h.id_lt
  held := by
    intro b hb
    have := h.home_lt
    simp only [Norm.orkNpuInit] at hb
    split_ifs at hb with hba
    · injection hb with hb
      omega
    · exact h.held b hb

theorem Cached.orkNpuFree {s : Process} {a c : Nat} {w : NormW} (h : Cached s c w)
    (inj : ∀ a b k, s.contexts a = some k → s.contexts b = some k → a = b) : Cached (orkNpuFree s a) c w where
  home_lt := h.home_lt
  id_lt := h.id_lt
  held := by
    intro b hb
    simp only [Norm.orkNpuFree] at hb
    split_ifs at hb with hba
    refine ⟨(h.held b hb).1, List.mem_filter.mpr ⟨(h.held b hb).2, decide_eq_true fun ha => ?_⟩⟩
    exact hba (inj b a w.home hb ha)

theorem Cached.orkMmFree {s : Process} {c : Nat} {w x : NormW} (h : Cached s c w) (hx : w ≠ x) :
    Cached (orkMmFree s x) c w where
  home_lt := h.home_lt
  id_lt := h.id_lt
  held := fun b hb => ⟨(h.held b hb).1, List.mem_filter.mpr ⟨(h.held b hb).2, decide_eq_true hx⟩⟩

theorem Cached.orkF16MmPack {s : Process} {c k : Nat} {w : NormW} (h : Cached s c w) :
    Cached (orkF16MmPack s k).2 c w where
  home_lt := h.home_lt
  id_lt := Nat.lt_succ_of_lt h.id_lt
  held := fun b hb => ⟨(h.held b hb).1, List.mem_cons_of_mem _ (h.held b hb).2⟩

theorem Sane.cached_new {s : Process} (h : Sane s) {a k : Nat} (ha : s.contexts a = some k) :
    Cached (orkF16MmPack s k).2 a (orkF16MmPack s k).1 where
  home_lt := h.number_lt a k ha
  id_lt := Nat.lt_succ_self _
  held := fun b hb => ⟨h.number_inj b a k hb ha, List.mem_cons_self⟩

theorem Cached.ne_new {s : Process} {c k : Nat} {w : NormW} (h : Cached s c w) : w ≠ (Norm.orkF16MmPack s k).1 :=
  fun e => absurd (congrArg NormW.id e) (Nat.ne_of_lt h.id_lt)

theorem Sane.orkNpuInit {s : Process} (h : Sane s) {a : Nat} : Sane (orkNpuInit s a) where
  number_lt := by
    intro b k hb
    simp only [Norm.orkNpuInit] at hb ⊢
    split_ifs at hb with hba
    · injection hb with hb
      omega
    · exact Nat.lt_succ_of_lt (h.number_lt b k hb)
  number_inj := by
    intro b b' k hb hb'
    simp only [Norm.orkNpuInit] at hb hb'
    split_ifs at hb hb' with h₁ h₂ h₂
    · exact h₁.trans h₂.symm
    · injection hb with hb
      exact absurd (h.number_lt b' k hb') (by omega)
    · injection hb' with hb'
      exact absurd (h.number_lt b k hb) (by omega)
    · exact h.number_inj b b' k hb hb'
  ones := fun w hw => (h.ones w hw).orkNpuInit
  rs := fun w hw => (h.rs w hw).orkNpuInit
  valid := h.valid
  apart := h.apart

theorem Sane.orkNpuFree {s : Process} (h : Sane s) (a : Nat) : Sane (orkNpuFree s a) where
  number_lt := by
    intro b k hb
    simp only [Norm.orkNpuFree] at hb
    split_ifs at hb
    exact h.number_lt b k hb
  number_inj := by
    intro b b' k hb hb'
    simp only [Norm.orkNpuFree] at hb hb'
    split_ifs at hb hb'
    exact h.number_inj b b' k hb hb'
  ones := fun w hw => (h.ones w hw).orkNpuFree h.number_inj
  rs := fun w hw => (h.rs w hw).orkNpuFree h.number_inj
  valid := h.valid
  apart := h.apart

theorem Sane.dropOnes {s : Process} (h : Sane s) : Sane (dropOnes s) := by
  unfold Norm.dropOnes
  split
  · exact h
  · next x ho =>
    refine { h with ones := nofun, apart := nofun, rs := fun w hw => ?_ }
    have hwx : w ≠ x := fun e => h.apart x ho (e ▸ hw)
    have hc := (h.rs w hw).orkMmFree hwx
    exact ⟨hc.home_lt, hc.id_lt, hc.held⟩

@[simp] theorem dropOnes_contexts (s : Process) : (dropOnes s).contexts = s.contexts := by
  unfold dropOnes
  split <;> rfl

theorem Sane.fill_ones {s : Process} (h : Sane s) {a k : Nat} (n : Int) (ha : s.contexts a = some k) :
    Sane { (orkF16MmPack s k).2 with onesW := some (orkF16MmPack s k).1, onesN := n, onesCtx := a } where
  number_lt := h.number_lt
  number_inj := h.number_inj
  ones := by
    intro w hw
    injection hw with hw
    subst hw
    have hc := h.cached_new ha
    exact ⟨hc.home_lt, hc.id_lt, hc.held⟩
  rs := by
    intro w hw
    have hc := (h.rs w hw).orkF16MmPack (k := k)
    exact ⟨hc.home_lt, hc.id_lt, hc.held⟩
  valid := h.valid
  apart := by
    intro w hw hr
    injection hw with hw
    exact (h.rs w hr).ne_new hw.symm

theorem Sane.fill_rs {s : Process} (h : Sane s) {a k : Nat} (nf : Int) (eps lo hi : ℚ) (ha : s.contexts a = some k) :
    Sane { s.rs.wS.elim (orkF16MmPack s k).2 (orkMmFree (orkF16MmPack s k).2) with
           rs := { c := a, nf, eps, lo, hi, wS := some (orkF16MmPack s k).1, valid := true } } := by
  have hnew := h.cached_new ha
  cases ho : s.rs.wS with
  | none =>
    refine { number_lt := h.number_lt, number_inj := h.number_inj, ones := fun w hw => ?_, rs := fun w hw => ?_,
             valid := nofun, apart := fun w hw hr => ?_ }
    · have hc := (h.ones w hw).orkF16MmPack (k := k)
      exact ⟨hc.home_lt, hc.id_lt, hc.held⟩
    · injection hw with hw
      subst hw
      exact ⟨hnew.home_lt, hnew.id_lt, hnew.held⟩
    · injection hr with hr
      exact (h.ones w hw).ne_new hr.symm
  | some x =>
    refine { number_lt := h.number_lt, number_inj := h.number_inj, ones := fun w hw => ?_, rs := fun w hw => ?_,
             valid := nofun, apart := fun w hw hr => ?_ }
    · have hwx : w ≠ x := fun e => h.apart w hw (e ▸ ho)
      have hc := ((h.ones w hw).orkF16MmPack (k := k)).orkMmFree hwx
      exact ⟨hc.home_lt, hc.id_lt, hc.held⟩
    · injection hw with hw
      subst hw
      have hc := hnew.orkMmFree ((h.rs x ho).ne_new (k := k)).symm
      exact ⟨hc.home_lt, hc.id_lt, hc.held⟩
    · injection hr with hr
      exact (h.ones w hw).ne_new hr.symm

theorem contexts_of_packsOn {s : Process} {v : NormEnv} {a k : Nat} (h : packsOn s v a = some k) :
    s.contexts a = some k := by
  unfold packsOn at h
  split_ifs at h
  exact h

theorem Sane.normReduceW {s : Process} (h : Sane s) (v : NormEnv) (a : Nat) (n : Int) :
    Sane (normReduceW s v a n).process := by
  unfold Norm.normReduceW
  split_ifs with hit
  · exact h
  · cases hk : packsOn s v a with
    | none => exact h.dropOnes
    | some k =>
      apply h.dropOnes.fill_ones n
      rw [dropOnes_contexts]
      exact contexts_of_packsOn hk

theorem Sane.orkNormReduceNpu {s : Process} (h : Sane s) (v : NormEnv) (a : Nat) (n : Int) :
    Sane (orkNormReduceNpu s v a n).process := by
  unfold Norm.orkNormReduceNpu
  split_ifs
  · exact h
  · exact h.normReduceW v a n

theorem Sane.rsqrtLutEnsure {s : Process} (h : Sane s) (v : NormEnv) (a : Nat) (nf : Int) (eps lo hi : ℚ) :
    Sane (rsqrtLutEnsure s v a nf eps lo hi).process := by
  unfold Norm.rsqrtLutEnsure
  dsimp only
  split_ifs with hit hfail
  · exact h
  · exact h
  all_goals
    cases hk : packsOn s v a with
    | none => exact h
    | some k => exact h.fill_rs nf eps _ _ (contexts_of_packsOn hk)

theorem Sane.orkNormRsqrtNpu {s : Process} (h : Sane s) (v : NormEnv) (a : Nat) (nf : Int) (eps : ℚ) (ss : List ℚ) :
    Sane (orkNormRsqrtNpu s v a nf eps ss).process := by
  unfold Norm.orkNormRsqrtNpu
  split_ifs
  · exact h
  · exact h.rsqrtLutEnsure v a nf eps _ _

theorem Sane.served {s : Process} (h : Sane s) (e : NormEvent) : Sane (e.served s).process := by
  cases e with
  | init a => exact h.orkNpuInit
  | free a => exact h.orkNpuFree a
  | reduce a n v => exact h.orkNormReduceNpu v a n
  | rsqrt a nf eps ss v => exact h.orkNormRsqrtNpu v a nf eps ss

/-! ### When a helper serves well -/

theorem Sane.living_ones {s : Process} (h : Sane s) {w : NormW} (hw : s.onesW = some w) :
    Living s s.onesW ↔ s.contexts s.onesCtx = some w.home := by
  constructor
  · intro hl
    obtain ⟨b, hb⟩ := hl w hw
    rwa [← ((h.ones w hw).held b hb).1]
  · intro hc x hx
    rw [hw] at hx
    injection hx with hx
    exact ⟨_, hx ▸ hc⟩

theorem Sane.living_rs {s : Process} (h : Sane s) {w : NormW} (hw : s.rs.wS = some w) :
    Living s s.rs.wS ↔ s.contexts s.rs.c = some w.home := by
  constructor
  · intro hl
    obtain ⟨b, hb⟩ := hl w hw
    rwa [← ((h.rs w hw).held b hb).1]
  · intro hc x hx
    rw [hw] at hx
    injection hx with hx
    exact ⟨_, hx ▸ hc⟩

/-- What a helper freed, when it is the weight of its cache. -/
theorem freed_sound_iff {s : Process} {c : Nat} {cached : Option NormW} :
    (∀ p ∈ cached.toList.map fun w => (c, w), s.contexts p.1 = some p.2.home) ↔
      ∀ w, cached = some w → s.contexts c = some w.home := by
  cases cached with
  | none => exact ⟨fun _ => nofun, fun _ => nofun⟩
  | some w =>
    constructor
    · intro h x hx
      injection hx with hx
      exact hx ▸ h (c, w) List.mem_cons_self
    · intro h p hp
      rw [Option.toList_some, List.map_singleton, List.mem_singleton] at hp
      rw [hp]
      exact h w rfl

theorem Sane.living_ones_iff {s : Process} (h : Sane s) :
    Living s s.onesW ↔ ∀ w, s.onesW = some w → s.contexts s.onesCtx = some w.home :=
  ⟨fun hl _ hw => (h.living_ones hw).mp hl, fun hc w hw => ⟨_, hc w hw⟩⟩

theorem Sane.living_rs_iff {s : Process} (h : Sane s) :
    Living s s.rs.wS ↔ ∀ w, s.rs.wS = some w → s.contexts s.rs.c = some w.home :=
  ⟨fun hl _ hw => (h.living_rs hw).mp hl, fun hc w hw => ⟨_, hc w hw⟩⟩

theorem normReduceW_sound_iff {s : Process} (h : Sane s) (v : NormEnv) (a : Nat) (n : Int) :
    (normReduceW s v a n).Sound s a ↔ Living s s.onesW := by
  unfold normReduceW
  split_ifs with hit
  · obtain ⟨hsome, -, rfl⟩ := hit
    rw [h.living_ones_iff]
    constructor
    · intro hs w hw
      exact (hs.1 w hw).1
    · intro hl
      exact ⟨fun w hw => ⟨hl w hw, ((h.ones w hw).held _ (hl w hw)).2⟩, nofun⟩
  · rw [h.living_ones_iff, ← freed_sound_iff]
    cases hk : packsOn s v a with
    | none => exact ⟨fun hs => hs.2, fun hf => ⟨nofun, hf⟩⟩
    | some k =>
      refine ⟨fun hs => hs.2, fun hf => ⟨fun w hw => ?_, hf⟩⟩
      injection hw with hw
      subst hw
      refine ⟨?_, List.mem_cons_self⟩
      exact (congrFun (dropOnes_contexts s) a).trans (contexts_of_packsOn hk)

/-- Where no pack lands, `rsqrt_lut_ensure` has given up before. -/
theorem packsOn_eq_none_iff {s : Process} {v : NormEnv} {a : Nat} (ha : (s.contexts a).isSome) :
    packsOn s v a = none ↔ v.alloc = false ∨ v.pack = false := by
  unfold packsOn
  split_ifs with h
  · rw [h.1, h.2]
    exact ⟨fun e => absurd ha (by rw [e]; exact Bool.false_ne_true), fun e => absurd e (by decide)⟩
  · rw [← Bool.not_eq_true, ← Bool.not_eq_true]
    exact ⟨fun _ => Decidable.not_and_iff_not_or_not.mp h, fun _ => rfl⟩

theorem elim_orkMmFree (s : Process) (w : Option NormW) :
    (w.elim s (orkMmFree s)).contexts = s.contexts ∧
      ∀ x, w ≠ some x → x ∈ s.held → x ∈ (w.elim s (orkMmFree s)).held := by
  cases w with
  | none => exact ⟨rfl, fun _ _ h => h⟩
  | some y => exact ⟨rfl, fun x hx h => List.mem_filter.mpr ⟨h, decide_eq_true fun e => hx (by rw [e])⟩⟩

theorem rsqrtLutEnsure_sound_iff {s : Process} (h : Sane s) (v : NormEnv) {a : Nat} (ha : (s.contexts a).isSome)
    (nf : Int) (eps lo : ℚ) {hi : ℚ} (hhi : 0 < hi) :
    (rsqrtLutEnsure s v a nf eps lo hi).Sound s a ↔
      (¬ rsqrtHit s a nf eps lo hi ∧ (v.lut = false ∨ v.alloc = false ∨ v.pack = false)) ∨ Living s s.rs.wS := by
  have hscaled : ¬ hi * (115 / 100) ≤ 0 := not_le.mpr (mul_pos hhi (by norm_num))
  by_cases hit : rsqrtHit s a nf eps lo hi
  · rw [rsqrtLutEnsure, if_pos hit, h.living_rs_iff]
    have hc : s.rs.c = a := hit.2.1
    constructor
    · intro hs
      exact .inr fun w hw => hc ▸ (hs.1 w hw).1
    · rintro (⟨hn, -⟩ | hl)
      · exact absurd hit hn
      · exact ⟨fun w hw => ⟨hc ▸ hl w hw, ((h.rs w hw).held _ (hl w hw)).2⟩, nofun⟩
  · rw [rsqrtLutEnsure, if_neg hit]
    dsimp only
    by_cases hlut : v.lut = false
    · rw [if_pos (.inr hlut)]
      exact ⟨fun _ => .inl ⟨hit, .inl hlut⟩, fun _ => ⟨nofun, nofun⟩⟩
    · rw [if_neg (not_or.mpr ⟨hscaled, hlut⟩)]
      cases hk : packsOn s v a with
      | none =>
        have hf := (packsOn_eq_none_iff ha).mp hk
        exact ⟨fun _ => .inl ⟨hit, .inr hf⟩, fun _ => ⟨nofun, nofun⟩⟩
      | some k =>
        have hf : ¬ (v.alloc = false ∨ v.pack = false) := fun e => by
          rw [(packsOn_eq_none_iff ha).mpr e] at hk
          cases hk
        rw [h.living_rs_iff, ← freed_sound_iff]
        constructor
        · intro hs
          exact .inr hs.2
        · rintro (⟨-, hgave⟩ | hfreed)
          · exact absurd hgave (not_or.mpr ⟨hlut, hf⟩)
          · refine ⟨fun w hw => ?_, hfreed⟩
            injection hw with hw
            subst hw
            have hel := elim_orkMmFree (orkF16MmPack s k).2 s.rs.wS
            constructor
            · exact (congrFun hel.1 a).trans (contexts_of_packsOn hk)
            · exact hel.2 _ (fun e => (h.rs _ e).ne_new rfl) List.mem_cons_self

theorem NormEvent.sound_iff {s : Process} (h : Sane s) {e : NormEvent} (hl : e.Legal s) : e.Sound s ↔ e.Current s := by
  cases e with
  | init a => exact Iff.rfl
  | free a => exact Iff.rfl
  | reduce a n v =>
    unfold NormEvent.Sound NormEvent.Current orkNormReduceNpu
    dsimp only
    split_ifs with hoff
    · exact ⟨fun _ => hoff.imp_right .inl, fun _ => ⟨nofun, nofun⟩⟩
    · rw [normReduceW_sound_iff h]
      exact ⟨fun hs => .inr (.inr hs), fun hc => (hc.resolve_left fun e => hoff (.inl e)).resolve_left fun e => hoff (.inr e)⟩
  | rsqrt a nf eps ss v =>
    unfold NormEvent.Sound NormEvent.Current orkNormRsqrtNpu
    dsimp only
    split_ifs with hhi
    · exact ⟨fun _ => .inl hhi, fun _ => ⟨nofun, nofun⟩⟩
    · rw [rsqrtLutEnsure_sound_iff h v hl nf eps _ (not_le.mp hhi)]
      exact ⟨.inr, fun hc => hc.resolve_left hhi⟩

theorem along_iff {s : Process} (h : Sane s) {es : List NormEvent} (hl : LegalFrom s es) :
    AlongFrom (fun s e => e.Sound s) s es ↔ AlongFrom (fun s e => e.Current s) s es := by
  induction es generalizing s with
  | nil => exact Iff.rfl
  | cons e es ih => exact and_congr (NormEvent.sound_iff h hl.1) (ih (h.served e) hl.2)

/-- In a history of creations, norms and destructions the caches serve well throughout exactly when each norm that uses
a cache finds it empty or filled by a context that still lives. -/
theorem contextCaches_sound_iff {es : List NormEvent} (hl : LegalFrom Process.start es) :
    AlongFrom (fun s e => e.Sound s) Process.start es ↔ AlongFrom (fun s e => e.Current s) Process.start es :=
  along_iff sane_start hl

/-- Everything works. -/
def normEnvOk : NormEnv := { enabled := true, lut := true, alloc := true, pack := true }

theorem contextCaches_sound_iff_twice :
    AlongFrom (fun s e => e.Sound s) Process.start [.init 5, .reduce 5 64 normEnvOk, .reduce 5 96 normEnvOk] := by
  apply (contextCaches_sound_iff ?_).mpr
  · refine ⟨trivial, .inr (.inr nofun), .inr (.inr fun w hw => ?_), trivial⟩
    injection hw with hw
    exact ⟨5, hw ▸ rfl⟩
  · exact ⟨rfl, rfl, rfl, trivial⟩

/-- A context at the address of a freed one is served the weight of the freed one; one at another address frees it
through the freed one. -/
theorem stale_contextCaches :
    (LegalFrom Process.start
        [.init 5, .reduce 5 64 normEnvOk, .rsqrt 5 64 0 [4] normEnvOk, .free 5, .init 5, .reduce 5 64 normEnvOk] ∧
      ¬ AlongFrom (fun s e => e.Sound s) Process.start
        [.init 5, .reduce 5 64 normEnvOk, .rsqrt 5 64 0 [4] normEnvOk, .free 5, .init 5, .reduce 5 64 normEnvOk]) ∧
    LegalFrom Process.start [.init 5, .rsqrt 5 64 0 [4] normEnvOk, .free 5, .init 6, .rsqrt 6 64 0 [4] normEnvOk] ∧
      ¬ AlongFrom (fun s e => e.Sound s) Process.start
        [.init 5, .rsqrt 5 64 0 [4] normEnvOk, .free 5, .init 6, .rsqrt 6 64 0 [4] normEnvOk] := by
  refine ⟨⟨⟨rfl, rfl, rfl, ?_, ?_, ?_, trivial⟩, fun h => ?_⟩, ⟨rfl, rfl, ?_, ?_, ?_, trivial⟩, fun h => ?_⟩
  case refine_4 =>
    have hs := (h.2.2.2.2.2.1.1 ⟨0, 0⟩ (by decide +kernel)).1
    exact absurd hs (by decide +kernel)
  case refine_8 =>
    have hs := h.2.2.2.2.1.2 (5, ⟨0, 0⟩) (by decide +kernel)
    exact absurd hs (by decide)
  all_goals decide +kernel

end OrkDriver.Norm
