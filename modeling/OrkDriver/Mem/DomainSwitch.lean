import Mathlib.Data.List.ProdSigma
import OrkDriver.Mem.Domains

/-!
Every domain has a scratch set of its own: the switch shows it as it was left, no buffer is in two sets, and the
teardown destroys each once.
-/

namespace OrkDriver.Mem

open Transition

variable {v : BufEnv} {bimp : Bool} {c : OrkNpu} {d : Nat} {k l : Slot} {b : Buf}

/-! ### Owners of the live handles -/

/-- The live handles: each mapped buffer of a set has one that is registered and in no other place, and what was
destroyed is not registered. -/
structure Owned (view : Nat → Scratch) (next : Nat) (registry destroyed : List Nat) : Prop where
  single : ∀ d k d' k', ((view d).get k).cpu = true → ((view d').get k').cpu = true →
    ((view d).get k).handle = ((view d').get k').handle → d = d' ∧ k = k'
  registered : ∀ d k, ((view d).get k).cpu = true → ((view d).get k).handle ∈ registry
  lt : ∀ h ∈ registry, h < next
  registryNodup : registry.Nodup
  gone : ∀ h ∈ destroyed, h ∉ registry ∧ h < next
  destroyedNodup : destroyed.Nodup

def OrkNpu.Own (c : OrkNpu) : Prop := Owned c.view c.dev.next c.registry c.destroyed

/-- One buffer of one set is replaced by one that is not mapped. -/
theorem Owned.unmapped {view : Nat → Scratch} {next : Nat} {r g : List Nat} (h : Owned view next r g) (d : Nat)
    (k : Slot) (hb : b.cpu = false) : Owned (Function.update view d ((view d).put b k)) next r g := by
  have hget : ∀ d' k', ((Function.update view d ((view d).put b k) d').get k').cpu = true →
      (Function.update view d ((view d).put b k) d').get k' = (view d').get k' := by
    intro d' k' hcpu
    by_cases hd : d' = d
    · subst hd
      rw [Function.update_self] at hcpu ⊢
      by_cases hk : k' = k
      · rw [hk, Scratch.get_put_self, hb] at hcpu
        cases hcpu
      · exact Scratch.get_put_ne _ _ hk
    · rw [Function.update_of_ne hd]
  constructor
  case single =>
    intro d₁ k₁ d₂ k₂ h₁ h₂ heq
    have g₁ := hget d₁ k₁ h₁
    have g₂ := hget d₂ k₂ h₂
    rw [g₁] at h₁ heq
    rw [g₂] at h₂ heq
    exact h.single d₁ k₁ d₂ k₂ h₁ h₂ heq
  case registered =>
    intro d₁ k₁ h₁
    have g₁ := hget d₁ k₁ h₁
    rw [g₁] at h₁ ⊢
    exact h.registered d₁ k₁ h₁
  case lt => exact h.lt
  case registryNodup => exact h.registryNodup
  case gone => exact h.gone
  case destroyedNodup => exact h.destroyedNodup

/-- The buffer of one place is destroyed and its place unmapped. -/
theorem Owned.destroyed {view : Nat → Scratch} {next : Nat} {r g : List Nat} (h : Owned view next r g) (d : Nat)
    (k : Slot) (hb : b.cpu = false) (hcpu : ((view d).get k).cpu = true) :
    Owned (Function.update view d ((view d).put b k)) next (r.erase ((view d).get k).handle)
      (((view d).get k).handle :: g) := by
  have hmem := h.registered d k hcpu
  have hget : ∀ d' k', ((Function.update view d ((view d).put b k) d').get k').cpu = true →
      (Function.update view d ((view d).put b k) d').get k' = (view d').get k' ∧ (d', k') ≠ (d, k) := by
    intro d' k' hcpu'
    by_cases hd : d' = d
    · subst hd
      rw [Function.update_self] at hcpu' ⊢
      by_cases hk : k' = k
      · rw [hk, Scratch.get_put_self, hb] at hcpu'
        cases hcpu'
      · exact ⟨Scratch.get_put_ne _ _ hk, fun he => hk (Prod.mk.inj he).2⟩
    · rw [Function.update_of_ne hd]
      exact ⟨rfl, fun he => hd (Prod.mk.inj he).1⟩
  constructor
  case single =>
    intro d₁ k₁ d₂ k₂ h₁ h₂ heq
    have g₁ := (hget d₁ k₁ h₁).1
    have g₂ := (hget d₂ k₂ h₂).1
    rw [g₁] at h₁ heq
    rw [g₂] at h₂ heq
    exact h.single d₁ k₁ d₂ k₂ h₁ h₂ heq
  case registered =>
    intro d₁ k₁ h₁
    obtain ⟨heq, hne⟩ := hget d₁ k₁ h₁
    rw [heq] at h₁ ⊢
    refine (List.mem_erase_of_ne fun hh => ?_).mpr (h.registered d₁ k₁ h₁)
    obtain ⟨rfl, rfl⟩ := h.single d₁ k₁ d k h₁ hcpu hh
    exact hne rfl
  case lt => exact fun x hx => h.lt x (List.mem_of_mem_erase hx)
  case registryNodup => exact h.registryNodup.erase _
  case gone =>
    intro x hx
    rcases List.mem_cons.mp hx with rfl | hx
    · exact ⟨fun hin => h.registryNodup.not_mem_erase hin, h.lt _ hmem⟩
    · exact ⟨fun hin => (h.gone x hx).1 (List.mem_of_mem_erase hin), (h.gone x hx).2⟩
  case destroyedNodup => exact List.nodup_cons.mpr ⟨fun hin => (h.gone _ hin).1 hmem, h.destroyedNodup⟩

/-- A new buffer takes one place. -/
theorem Owned.filled {view : Nat → Scratch} {next : Nat} {r g : List Nat} (h : Owned view next r g) (d : Nat)
    (k : Slot) (hb : b.handle = next) :
    Owned (Function.update view d ((view d).put b k)) (next + 1) (next :: r) g := by
  have hget : ∀ d' k', (Function.update view d ((view d).put b k) d').get k' = b ∧ d' = d ∧ k' = k ∨
      (Function.update view d ((view d).put b k) d').get k' = (view d').get k' := by
    intro d' k'
    by_cases hd : d' = d
    · subst hd
      rw [Function.update_self]
      by_cases hk : k' = k
      · subst hk
        exact Or.inl ⟨Scratch.get_put_self _ _ _, rfl, rfl⟩
      · exact Or.inr (Scratch.get_put_ne _ _ hk)
    · rw [Function.update_of_ne hd]
      exact Or.inr rfl
  have hnew : ∀ d' k', ((view d').get k').cpu = true → ((view d').get k').handle ≠ next := fun d' k' hc he =>
    Nat.lt_irrefl _ (he ▸ h.lt _ (h.registered d' k' hc))
  constructor
  case single =>
    intro d₁ k₁ d₂ k₂ h₁ h₂ heq
    rcases hget d₁ k₁ with ⟨g₁, hd₁, hk₁⟩ | g₁
    · rcases hget d₂ k₂ with ⟨g₂, hd₂, hk₂⟩ | g₂
      · exact ⟨hd₁.trans hd₂.symm, hk₁.trans hk₂.symm⟩
      · rw [g₁, g₂, hb] at heq
        rw [g₂] at h₂
        exact absurd heq.symm (hnew d₂ k₂ h₂)
    · rcases hget d₂ k₂ with ⟨g₂, hd₂, hk₂⟩ | g₂
      · rw [g₁, g₂, hb] at heq
        rw [g₁] at h₁
        exact absurd heq (hnew d₁ k₁ h₁)
      · rw [g₁] at h₁ heq
        rw [g₂] at h₂ heq
        exact h.single d₁ k₁ d₂ k₂ h₁ h₂ heq
  case registered =>
    intro d₁ k₁ h₁
    rcases hget d₁ k₁ with ⟨g₁, -, -⟩ | g₁
    · rw [g₁, hb]
      exact List.mem_cons_self
    · rw [g₁] at h₁ ⊢
      exact List.mem_cons_of_mem _ (h.registered d₁ k₁ h₁)
  case lt =>
    intro x hx
    rcases List.mem_cons.mp hx with rfl | hx
    · exact Nat.lt_succ_self _
    · exact Nat.lt_succ_of_lt (h.lt x hx)
  case registryNodup => exact List.nodup_cons.mpr ⟨fun hin => Nat.lt_irrefl _ (h.lt _ hin), h.registryNodup⟩
  case gone =>
    intro x hx
    obtain ⟨hnot, hlt⟩ := h.gone x hx
    refine ⟨fun hin => ?_, Nat.lt_succ_of_lt hlt⟩
    rcases List.mem_cons.mp hin with rfl | hin
    · exact Nat.lt_irrefl _ hlt
    · exact hnot hin
  case destroyedNodup => exact h.destroyedNodup

theorem Owned.mono {view : Nat → Scratch} {next next' : Nat} {r g : List Nat} (h : Owned view next r g)
    (hle : next ≤ next') : Owned view next' r g :=
  { h with
    lt := fun x hx => Nat.lt_of_lt_of_le (h.lt x hx) hle
    gone := fun x hx => ⟨(h.gone x hx).1, Nat.lt_of_lt_of_le (h.gone x hx).2 hle⟩ }

/-! ### The primitive steps -/

theorem settle_cases {v : BufEnv} {dev d : Device} {dom : Int} {need : Nat} (hr : dev.orkIovaReserve v dom need = some d)
    (f : Fate) :
    (d.settle dom need f).1 = .zero ∧ dev.next ≤ (d.settle dom need f).2.next ∨
      (d.settle dom need f).1.cpu = true ∧ (d.settle dom need f).1.handle = dev.next ∧
        (d.settle dom need f).2.next = dev.next + 1 := by
  have hnext : d.next = dev.next := (reserve_eq_some (s := ⟨dev, [], []⟩) hr).2.1
  cases f with
  | refused =>
      refine Or.inl ⟨rfl, ?_⟩
      change dev.next ≤ (d.orkIovaRelease dom need).next
      rw [(release_spec d _ need).2.1, hnext]
  | stray =>
      refine Or.inl ⟨rfl, ?_⟩
      change dev.next ≤ (d.opens.orkIovaRelease dom need).next
      rw [(release_spec d.opens _ need).2.1, ← hnext]
      exact Nat.le_succ _
  | strayHeld =>
      refine Or.inl ⟨rfl, ?_⟩
      rw [← hnext]
      exact Nat.le_succ _
  | made => exact Or.inr ⟨rfl, hnext, congrArg (· + 1) hnext⟩

/-- A scratch allocation is refused, or it returns the next handle. -/
theorem orkiBscratch_cases (v : BufEnv) (bimp : Bool) (dev : Device) (size : Nat) (sram : Bool) (dom : Int)
    (o : ScratchOutcome) :
    (orkiBscratch v bimp dev size sram dom o).1 = .zero ∧ dev.next ≤ (orkiBscratch v bimp dev size sram dom o).2.next ∨
      (orkiBscratch v bimp dev size sram dom o).1.cpu = true ∧
        (orkiBscratch v bimp dev size sram dom o).1.handle = dev.next ∧
        (orkiBscratch v bimp dev size sram dom o).2.next = dev.next + 1 := by
  unfold orkiBscratch
  split
  · unfold orkiBimportF
    split
    · exact Or.inl ⟨rfl, Nat.le_refl _⟩
    · split
      · exact Or.inl ⟨rfl, Nat.le_refl _⟩
      · split
        · exact Or.inl ⟨rfl, Nat.le_refl _⟩
        · split
          · exact Or.inl ⟨rfl, Nat.le_refl _⟩
          · next hr => exact settle_cases hr _
  · unfold orkiBcreate
    split
    · exact Or.inl ⟨rfl, Nat.le_refl _⟩
    · next hr => exact settle_cases hr _

/-- A change of the active set alone, in terms of the views. -/
theorem view_update (c c' : OrkNpu) (hact : c'.domActive = c.domActive) (hsave : c'.domSave = c.domSave) :
    c'.view = Function.update c.view c.domActive c'.scratch := by
  funext d
  unfold OrkNpu.view
  rw [hact, hsave]
  by_cases hd : d = c.domActive
  · rw [if_pos hd, hd, Function.update_self]
  · rw [if_neg hd, Function.update_of_ne hd, if_neg hd]

theorem view_active (c : OrkNpu) : c.view c.domActive = c.scratch := if_pos rfl

theorem own_fill (h : c.Own) (k : Slot) (size : Nat) (sram : Bool) (dom : Int) (o : ScratchOutcome) :
    (c.fill v bimp k size sram dom o).Own := by
  unfold OrkNpu.Own
  rw [view_update c (c.fill v bimp k size sram dom o) rfl rfl]
  change Owned (Function.update c.view c.domActive (c.scratch.put (orkiBscratch v bimp c.dev size sram dom o).1 k))
    (orkiBscratch v bimp c.dev size sram dom o).2.next
    (if (orkiBscratch v bimp c.dev size sram dom o).1.cpu then
      (orkiBscratch v bimp c.dev size sram dom o).1.handle :: c.registry else c.registry) c.destroyed
  rw [← view_active c]
  rcases orkiBscratch_cases v bimp c.dev size sram dom o with ⟨hz, hle⟩ | ⟨hcpu, hh, hn⟩
  · rw [hz]
    exact (Owned.unmapped h c.domActive k rfl).mono hle
  · rw [hcpu, hh, hn]
    exact Owned.filled h c.domActive k hh

theorem own_unmap (h : c.Own) (k : Slot) (ok : Bool) : (c.unmap k ok).Own := by
  have hact : (c.unmap k ok).domActive = c.domActive ∧ (c.unmap k ok).domSave = c.domSave := by
    unfold OrkNpu.unmap OrkNpu.bdestroy
    split <;> exact ⟨rfl, rfl⟩
  unfold OrkNpu.Own
  rw [view_update c (c.unmap k ok) hact.1 hact.2]
  unfold OrkNpu.unmap OrkNpu.bdestroy orkiBdestroy
  cases hcpu : (c.scratch.get k).cpu with
  | false =>
      have hput := Owned.unmapped h c.domActive k hcpu
      rw [view_active] at hput
      exact hput
  | true =>
      have hput := Owned.destroyed (b := { c.scratch.get k with cpu := false }) h c.domActive k rfl
        (by rw [view_active]; exact hcpu)
      rw [view_active] at hput
      have hnext : ((c.dev.closes (c.scratch.get k).handle ok).orkIovaRelease (c.scratch.get k).domain
          (c.scratch.get k).size).next = c.dev.next := by
        rw [(release_spec _ _ _).2.1]
        unfold Device.closes
        split <;> rfl
      simp only [Bool.not_true, Bool.false_eq_true, if_false]
      rw [hnext]
      exact hput

/-! ### The switch -/

theorem park_eq (s : Scratch) : OrkNpu.park s = ⟨s, true⟩ := rfl

theorem restore_eq (s : OrkDomScratch) : OrkNpu.restore s = s.toScratch := rfl

theorem le_growCap {n nc need : Nat} (h : need ≤ nc + n) (hnc : 0 < nc) : need ≤ OrkNpu.growCap n nc need := by
  induction n generalizing nc with
  | zero => exact h
  | succ n ih =>
      unfold OrkNpu.growCap
      split
      · exact ih (by omega) (by omega)
      · next hlt => exact Nat.le_of_not_lt hlt

/-- Slots `dom_save` has no room for yet are empty. -/
def OrkNpu.Beyond (c : OrkNpu) : Prop := ∀ d, c.domCap ≤ d → c.domSave d = .zero

/-- Making room changes no set. -/
theorem orkiDomReserve_spec {need : Nat} {oom : Bool} {c' : OrkNpu} (hb : c.Beyond)
    (h : c.orkiDomReserve need oom = some c') :
    ∃ cap, c.domCap ≤ cap ∧ need ≤ cap ∧ c' = { c with domCap := cap } := by
  unfold OrkNpu.orkiDomReserve at h
  by_cases hle : need ≤ c.domCap
  · rw [if_pos hle] at h
    cases h
    exact ⟨c.domCap, Nat.le_refl _, hle, rfl⟩
  · rw [if_neg hle] at h
    cases oom with
    | true => cases h
    | false =>
        rw [if_neg Bool.false_ne_true] at h
        cases h
        generalize hfirst : (if c.domCap = 0 then 2 else c.domCap) = first
        have hpos : 0 < first := by
          rw [← hfirst]
          split <;> omega
        have hneed : need ≤ OrkNpu.growCap need first need := le_growCap (Nat.le_add_left _ _) hpos
        refine ⟨_, by omega, hneed, ?_⟩
        congr 1
        funext d
        split
        · next hd => exact (hb d hd.1).symm
        · rfl

/-- The swap leaves every domain its set. -/
theorem view_swap {dom : Nat} (hne : dom ≠ c.domActive) : (c.swap dom).view = c.view := by
  funext d
  unfold OrkNpu.view
  change (if d = dom then OrkNpu.restore (c.domSave dom) else
    (Function.update c.domSave c.domActive (OrkNpu.park c.scratch) d).toScratch) = _
  by_cases hd : d = dom
  · rw [if_pos hd, hd, if_neg hne, restore_eq]
  · rw [if_neg hd]
    by_cases ha : d = c.domActive
    · rw [if_pos ha, ha, Function.update_self]
      rfl
    · rw [if_neg ha, Function.update_of_ne ha]

theorem own_furnish (h : c.Own) (dom : Int) (o : Fin 3 → ScratchOutcome) : (c.furnish v bimp dom o).Own :=
  own_fill (own_fill (own_fill h _ _ _ _ _) _ _ _ _ _) _ _ _ _ _

variable (v bimp) in
/-- What an activation of another domain does, once there is room for it. -/
theorem activate_spec {dom : Int} (oom : Bool) (o : Fin 3 → ScratchOutcome) (hb : c.Beyond)
    (hne : dom.toNat ≠ c.domActive) :
    c.orkiDomActivate v bimp dom oom o = c ∨ ∃ cap, c.domActive < cap ∧ dom.toNat < cap ∧ c.domCap ≤ cap ∧
      c.orkiDomActivate v bimp dom oom o =
        if !(c.domSave dom.toNat).used && !(c.domSave dom.toNat).regcmd.cpu then
          ({ c with domCap := cap }.swap dom.toNat).furnish v bimp dom.toNat o
        else { c with domCap := cap }.swap dom.toNat := by
  unfold OrkNpu.orkiDomActivate
  dsimp only
  rw [if_neg hne]
  cases hr : c.orkiDomReserve ((if c.domActive < dom.toNat then dom.toNat else c.domActive) + 1) oom with
  | none => exact Or.inl rfl
  | some c' =>
      obtain ⟨cap, hcap, hneed, rfl⟩ := orkiDomReserve_spec hb hr
      refine Or.inr ⟨cap, ?_, ?_, hcap, rfl⟩
      · split at hneed <;> omega
      · split at hneed <;> omega

/-! ### The invariant of a run -/

/-- What a tenancy keeps: the owners of the buffers, and for each parked domain what its slot holds. -/
structure Kempt (t : Tenancy) : Prop where
  own : t.npu.Own
  beyond : t.npu.Beyond
  never : ∀ d, d ≠ t.npu.domActive → t.left d = none → t.npu.domSave d = .zero
  parked : ∀ d s, d ≠ t.npu.domActive → t.left d = some s → t.npu.domSave d = OrkNpu.park s

/-- A call that works on the active set only. -/
theorem kempt_local {t : Tenancy} (h : Kempt t) {c : OrkNpu} (hown : c.Own) (hact : c.domActive = t.npu.domActive)
    (hsave : c.domSave = t.npu.domSave) (hcap : c.domCap = t.npu.domCap) :
    Kempt ⟨c, if c.domActive = t.npu.domActive then t.left
      else Function.update t.left t.npu.domActive (some t.npu.scratch)⟩ := by
  rw [if_pos hact]
  constructor
  case own => exact hown
  case beyond =>
    intro d hd
    dsimp only
    rw [hsave]
    exact h.beyond d (hcap ▸ hd)
  case never =>
    intro d hd hl
    dsimp only at hd hl ⊢
    rw [hsave]
    exact h.never d (hact ▸ hd) hl
  case parked =>
    intro d s hd hl
    dsimp only at hd hl ⊢
    rw [hsave]
    exact h.parked d s (hact ▸ hd) hl

theorem unmap_rest (c : OrkNpu) (k : Slot) (ok : Bool) : (c.unmap k ok).domActive = c.domActive ∧
    (c.unmap k ok).domSave = c.domSave ∧ (c.unmap k ok).domCap = c.domCap := by
  unfold OrkNpu.unmap OrkNpu.bdestroy
  split <;> exact ⟨rfl, rfl, rfl⟩

/-- The active set with one place emptied, after its buffer was destroyed. -/
theorem own_drop (h : c.Own) (k : Slot) (ok : Bool) :
    ({ c.unmap k ok with scratch := (c.unmap k ok).scratch.put .zero k } : OrkNpu).Own := by
  have hu := own_unmap h k ok
  have hput := Owned.unmapped (b := .zero) hu (c.unmap k ok).domActive k rfl
  rw [view_active] at hput
  unfold OrkNpu.Own
  rw [view_update (c.unmap k ok) { c.unmap k ok with scratch := (c.unmap k ok).scratch.put .zero k } rfl rfl]
  exact hput

/-- Sizes and marks are no buffers. -/
theorem own_note (h : c.Own) (ccsz : Nat) (warmed : Int) (mccsz : Fin 4 → Nat) (mwarm : Fin 4 → Int) (mcAlloc : Int) :
    ({ c with scratch := { c.scratch with ccsz := ccsz, warmed := warmed, mccsz := mccsz, mwarm := mwarm, mcAlloc := mcAlloc } } :
      OrkNpu).Own := by
  have hget : ∀ d k, ((({ c with scratch := { c.scratch with ccsz := ccsz, warmed := warmed, mccsz := mccsz, mwarm := mwarm, mcAlloc := mcAlloc } } :
      OrkNpu).view d).get k) = (c.view d).get k := by
    intro d k
    unfold OrkNpu.view
    dsimp only
    split
    · cases k <;> rfl
    · rfl
  exact { h with
    single := fun d k d' k' => by
      rw [hget, hget]
      exact h.single d k d' k'
    registered := fun d k => by
      rw [hget]
      exact h.registered d k }

theorem kempt_activate {t : Tenancy} (h : Kempt t) (dom : Int) (oom : Bool) (o : Fin 3 → ScratchOutcome) :
    Kempt ((DomCall.activate dom oom o).next v bimp t) := by
  unfold DomCall.next DomCall.apply
  dsimp only
  by_cases hne : dom.toNat = t.npu.domActive
  · have hsame : t.npu.orkiDomActivate v bimp dom oom o = t.npu := if_pos hne
    rw [hsame]
    exact kempt_local h h.own rfl rfl rfl
  · rcases activate_spec v bimp oom o h.beyond hne with hsame | ⟨cap, hlt, hdom, hle, heq⟩
    · rw [hsame]
      exact kempt_local h h.own rfl rfl rfl
    · have hswap : (OrkNpu.swap { t.npu with domCap := cap } dom.toNat).Own := by
        unfold OrkNpu.Own
        rw [view_swap (c := { t.npu with domCap := cap }) hne]
        exact h.own
      have hown : (t.npu.orkiDomActivate v bimp dom oom o).Own := by
        rw [heq]
        split
        · exact own_furnish hswap _ _
        · exact hswap
      have hact : (t.npu.orkiDomActivate v bimp dom oom o).domActive = dom.toNat := by
        rw [heq]
        split <;> rfl
      have hcap : (t.npu.orkiDomActivate v bimp dom oom o).domCap = cap := by
        rw [heq]
        split <;> rfl
      have hsave : (t.npu.orkiDomActivate v bimp dom oom o).domSave =
          Function.update t.npu.domSave t.npu.domActive (OrkNpu.park t.npu.scratch) := by
        rw [heq]
        split <;> rfl
      rw [hact, if_neg hne]
      constructor
      case own => exact hown
      case beyond =>
        intro d hd
        dsimp only at hd ⊢
        rw [hcap] at hd
        rw [hsave, Function.update_of_ne (by omega)]
        exact h.beyond d (Nat.le_trans hle hd)
      case never =>
        intro d hd hl
        dsimp only at hd hl ⊢
        rw [hact] at hd
        by_cases ha : d = t.npu.domActive
        · rw [ha, Function.update_self] at hl
          cases hl
        · rw [Function.update_of_ne ha] at hl
          rw [hsave, Function.update_of_ne ha]
          exact h.never d ha hl
      case parked =>
        intro d s hd hl
        dsimp only at hd hl ⊢
        rw [hact] at hd
        by_cases ha : d = t.npu.domActive
        · rw [ha, Function.update_self] at hl
          cases hl
          rw [hsave, ha, Function.update_self]
        · rw [Function.update_of_ne ha] at hl
          rw [hsave, Function.update_of_ne ha]
          exact h.parked d s ha hl

theorem kempt_next {t : Tenancy} (h : Kempt t) (e : DomCall) : Kempt (e.next v bimp t) := by
  cases e with
  | activate dom oom o => exact kempt_activate h dom oom o
  | grow k size sram dom ok o =>
      obtain ⟨hact, hsave, hcap⟩ := unmap_rest t.npu k ok
      exact kempt_local h (own_fill (own_unmap h.own k ok) k size sram dom o) hact hsave hcap
  | fill k size sram dom o => exact kempt_local h (own_fill h.own k size sram dom o) rfl rfl rfl
  | drop k ok =>
      obtain ⟨hact, hsave, hcap⟩ := unmap_rest t.npu k ok
      exact kempt_local h (own_drop h.own k ok) hact hsave hcap
  | note ccsz warmed mccsz mwarm mcAlloc =>
      exact kempt_local h (own_note h.own ccsz warmed mccsz mwarm mcAlloc) rfl rfl rfl
  | reserve need oom =>
      unfold DomCall.next DomCall.apply
      dsimp only
      cases hr : t.npu.orkiDomReserve need oom with
      | none => exact kempt_local h h.own rfl rfl rfl
      | some c =>
          obtain ⟨cap, hcap, -, rfl⟩ := orkiDomReserve_spec h.beyond hr
          dsimp only [Option.getD_some]
          rw [if_pos rfl]
          exact ⟨h.own, fun d hd => h.beyond d (Nat.le_trans hcap hd), h.never, h.parked⟩

theorem kempt_of_reachable {t : Tenancy} (h : (tenancies v bimp).Reachable t) : Kempt t := by
  refine System.ReachableOn.invariant (fun t ht => ?_) (fun t e u _ ht _ hstep => ?_) h
  · obtain rfl := ht
    have hno : ∀ d k, (((OrkNpu.start.view d).get k).cpu) = false := fun d k => by
      unfold OrkNpu.view
      split <;> exact congrArg Buf.cpu (Scratch.get_zero k)
    refine ⟨⟨fun d k d' k' hc => ?_, fun d k hc => ?_, fun x hx => absurd hx List.not_mem_nil, List.nodup_nil,
      fun x hx => absurd hx List.not_mem_nil, List.nodup_nil⟩, fun _ _ => rfl, fun _ _ _ => rfl, fun _ _ _ hl => nomatch hl⟩
    · rw [hno] at hc
      cases hc
    · rw [hno] at hc
      cases hc
  · obtain ⟨-, rfl⟩ := hstep
    exact kempt_next ht e

/-! ### The teardown -/

variable (ok : Nat → Bool)

/-- Destroying a list of structures, each on its own. -/
def destroyList (c : OrkNpu) (bs : List Buf) : OrkNpu := bs.foldl (fun c b => c.bdestroy b (ok b.handle)) c

theorem destroyList_spec (c : OrkNpu) (bs : List Buf) :
    (destroyList ok c bs).destroyed = ((bs.filter Buf.cpu).map Buf.handle).reverse ++ c.destroyed ∧
      (destroyList ok c bs).registry = c.registry.diff ((bs.filter Buf.cpu).map Buf.handle) := by
  induction bs generalizing c with
  | nil => exact ⟨rfl, rfl⟩
  | cons b bs ih =>
      obtain ⟨hd, hr⟩ := ih (c.bdestroy b (ok b.handle))
      unfold destroyList at hd hr ⊢
      rw [List.foldl_cons, hd, hr]
      unfold OrkNpu.bdestroy
      cases hcpu : b.cpu with
      | false =>
          rw [List.filter_cons_of_neg (by rw [hcpu]; exact Bool.false_ne_true)]
          exact ⟨rfl, rfl⟩
      | true =>
          rw [List.filter_cons_of_pos hcpu, List.map_cons, List.reverse_cons, List.append_assoc, List.diff_cons]
          exact ⟨rfl, rfl⟩

/-- The places the teardown walks: those of the active domain, then those of each parked one. -/
def places (c : OrkNpu) : List (Nat × Slot) :=
  (c.domActive :: (List.range c.domCap).filter fun d => !decide (d = c.domActive ∨ (c.domSave d).used = false)) ×ˢ
    Scratch.slots

def OrkNpu.at (c : OrkNpu) (p : Nat × Slot) : Buf := (c.view p.1).get p.2

theorem nodup_places (c : OrkNpu) : (places c).Nodup := by
  refine List.Nodup.product (List.nodup_cons.mpr ⟨fun hmem => ?_, List.nodup_range.filter _⟩) Scratch.nodup_slots
  have hkeep := (List.mem_filter.mp hmem).2
  rw [decide_eq_true (Or.inl rfl)] at hkeep
  cases hkeep

theorem mem_places {t : Tenancy} (h : Kempt t) (d : Nat) (k : Slot) (hcpu : (t.npu.at (d, k)).cpu = true) :
    (d, k) ∈ places t.npu := by
  refine List.mem_product.mpr ⟨?_, Scratch.mem_slots k⟩
  by_cases ha : d = t.npu.domActive
  · exact ha ▸ List.mem_cons_self
  · have hsave : (t.npu.domSave d).toScratch.get k = t.npu.at (d, k) := by
      unfold OrkNpu.at OrkNpu.view
      rw [if_neg ha]
    have hne : t.npu.domSave d ≠ .zero := fun hz => by
      rw [← hsave, hz] at hcpu
      rw [show OrkDomScratch.zero.toScratch = Scratch.zero from rfl, Scratch.get_zero] at hcpu
      cases hcpu
    refine List.mem_cons_of_mem _ (List.mem_filter.mpr ⟨List.mem_range.mpr ?_, ?_⟩)
    · by_contra hge
      exact hne (h.beyond d (Nat.le_of_not_lt hge))
    · cases hl : t.left d with
      | none => exact absurd (h.never d ha hl) hne
      | some s =>
          rw [h.parked d s ha hl, Bool.not_eq_true', decide_eq_false_iff_not]
          rintro (he | hu)
          · exact ha he
          · cases hu

theorem destroyList_append (c : OrkNpu) (l m : List Buf) :
    destroyList ok c (l ++ m) = destroyList ok (destroyList ok c l) m := List.foldl_append

theorem foldl_slots (c : OrkNpu) (s : Scratch) :
    Scratch.slots.foldl (fun c k => c.bdestroy (s.get k) (ok (s.get k).handle)) c =
      destroyList ok c (Scratch.slots.map s.get) := by
  unfold destroyList
  rw [List.foldl_map]

theorem orkNpuFree_eq (c : OrkNpu) : c.orkNpuFree ok =
    { destroyList ok c ((places c).map c.at) with
      registry := []
      destroyed := (destroyList ok c ((places c).map c.at)).registry ++
        (destroyList ok c ((places c).map c.at)).destroyed } := by
  have hfold : ∀ (ds : List Nat) (a : OrkNpu), ds.foldl (fun a d =>
      if d = c.domActive ∨ (c.domSave d).used = false then a
      else Scratch.slots.foldl (fun e k => e.bdestroy ((c.domSave d).get k) (ok ((c.domSave d).get k).handle)) a) a =
      destroyList ok a (((ds.filter fun d => !decide (d = c.domActive ∨ (c.domSave d).used = false)) ×ˢ
        Scratch.slots).map c.at) := by
    intro ds
    induction ds with
    | nil => exact fun a => rfl
    | cons d ds ih =>
        intro a
        rw [List.foldl_cons]
        by_cases hskip : d = c.domActive ∨ (c.domSave d).used = false
        · rw [if_pos hskip, ih, List.filter_cons_of_neg (by rw [decide_eq_true hskip]; exact Bool.false_ne_true)]
        · have hview : (Scratch.slots.map fun k => (d, k)).map c.at = Scratch.slots.map (c.domSave d).get := by
            rw [List.map_map]
            refine List.map_congr_left fun k _ => ?_
            change (c.view d).get k = _
            unfold OrkNpu.view
            rw [if_neg fun he => hskip (Or.inl he)]
          rw [if_neg hskip, ih, List.filter_cons_of_pos (by rw [decide_eq_false hskip]; rfl), List.product_cons,
            List.map_append, hview, destroyList_append, foldl_slots]
  have hall : (List.range c.domCap).foldl (fun a d =>
      if d = c.domActive ∨ (c.domSave d).used = false then a
      else Scratch.slots.foldl (fun e k => e.bdestroy ((c.domSave d).get k) (ok ((c.domSave d).get k).handle)) a)
      (Scratch.slots.foldl (fun e k => e.bdestroy (c.scratch.get k) (ok (c.scratch.get k).handle)) c) =
      destroyList ok c ((places c).map c.at) := by
    have hview : (Scratch.slots.map fun k => (c.domActive, k)).map c.at = Scratch.slots.map c.scratch.get := by
      rw [List.map_map]
      refine List.map_congr_left fun k _ => ?_
      change (c.view c.domActive).get k = _
      rw [view_active]
    unfold places
    rw [hfold, List.product_cons, List.map_append, hview, destroyList_append, foldl_slots]
  unfold OrkNpu.orkNpuFree
  dsimp only
  rw [hall]

/-- The teardown calls MEM_DESTROY once for the buffer of every place of every domain, and for no handle twice. -/
theorem orkNpuFree_once {t : Tenancy} (h : Kempt t) : (t.npu.orkNpuFree ok).destroyed.Nodup ∧
    ∀ d k, (t.npu.at (d, k)).cpu = true → (t.npu.at (d, k)).handle ∉ t.npu.destroyed ∧
      (t.npu.at (d, k)).handle ∈ (t.npu.orkNpuFree ok).destroyed := by
  obtain ⟨hd, hr⟩ := destroyList_spec ok t.npu ((places t.npu).map t.npu.at)
  rw [orkNpuFree_eq]
  dsimp only
  rw [hd, hr]
  have hown := h.own
  generalize hH : (((places t.npu).map t.npu.at).filter Buf.cpu).map Buf.handle = H
  have hmemH : ∀ x, x ∈ H ↔ ∃ p ∈ places t.npu, (t.npu.at p).cpu = true ∧ (t.npu.at p).handle = x := by
    intro x
    rw [← hH, List.mem_map]
    constructor
    · rintro ⟨b, hb, rfl⟩
      obtain ⟨hb, hcpu⟩ := List.mem_filter.mp hb
      obtain ⟨p, hp, rfl⟩ := List.mem_map.mp hb
      exact ⟨p, hp, hcpu, rfl⟩
    · rintro ⟨p, hp, hcpu, rfl⟩
      exact ⟨_, List.mem_filter.mpr ⟨List.mem_map_of_mem hp, hcpu⟩, rfl⟩
  have hnodup : H.Nodup := by
    rw [← hH, List.filter_map, List.map_map]
    refine List.Nodup.map_on (fun p hp q hq heq => ?_) ((nodup_places t.npu).filter _)
    obtain ⟨hd, hk⟩ := hown.single p.1 p.2 q.1 q.2 (List.mem_filter.mp hp).2 (List.mem_filter.mp hq).2 heq
    exact Prod.ext hd hk
  have hreg : ∀ x ∈ H, x ∈ t.npu.registry := fun x hx => by
    obtain ⟨p, -, hcpu, rfl⟩ := (hmemH x).mp hx
    exact hown.registered p.1 p.2 hcpu
  constructor
  · refine List.nodup_append'.mpr ⟨hown.registryNodup.diff, List.nodup_append'.mpr ⟨List.nodup_reverse.mpr hnodup,
      hown.destroyedNodup, fun x hx hg => ?_⟩, fun x hx hg => ?_⟩
    · exact (hown.gone x hg).1 (hreg x (List.mem_reverse.mp hx))
    · obtain ⟨hin, hout⟩ := (hown.registryNodup.mem_sdiff_iff).mp hx
      rcases List.mem_append.mp hg with hg | hg
      · exact hout (List.mem_reverse.mp hg)
      · exact (hown.gone x hg).1 hin
  · intro d k hcpu
    refine ⟨fun hg => (hown.gone _ hg).1 (hown.registered d k hcpu), ?_⟩
    refine List.mem_append_right _ (List.mem_append_left _ (List.mem_reverse.mpr ?_))
    exact (hmemH _).mpr ⟨(d, k), mem_places h d k hcpu, hcpu, rfl⟩

/-! ### What a run guarantees -/

/-- The buffers a first activation creates, or nothing where the creation failed. -/
def Created (next : Nat) (b : Buf) : Prop := b = .zero ∨ b.cpu = true ∧ next ≤ b.handle

variable (v bimp) in
theorem created_fill (c : OrkNpu) (k : Slot) (size : Nat) (sram : Bool) (dom : Int) (o : ScratchOutcome) :
    Created c.dev.next (orkiBscratch v bimp c.dev size sram dom o).1 ∧
      c.dev.next ≤ (c.fill v bimp k size sram dom o).dev.next := by
  change _ ∧ c.dev.next ≤ (orkiBscratch v bimp c.dev size sram dom o).2.next
  rcases orkiBscratch_cases v bimp c.dev size sram dom o with ⟨hz, hle⟩ | ⟨hcpu, hh, hn⟩
  · exact ⟨Or.inl hz, hle⟩
  · exact ⟨Or.inr ⟨hcpu, Nat.le_of_eq hh.symm⟩, by rw [hn]; exact Nat.le_succ _⟩

theorem Created.mono {m n : Nat} (h : Created n b) (hle : m ≤ n) : Created m b :=
  h.imp id fun hc => ⟨hc.1, Nat.le_trans hle hc.2⟩

theorem furnish_scratch (hz : c.scratch = .zero) (dom : Int) (o : Fin 3 → ScratchOutcome) :
    ∃ r k a, (c.furnish v bimp dom o).scratch = { Scratch.zero with regcmd := r, task := k, Af := a } ∧
      Created c.dev.next r ∧ Created c.dev.next k ∧ Created c.dev.next a := by
  obtain ⟨h₁, le₁⟩ := created_fill v bimp c .regcmd 2097152 false dom (o 0)
  obtain ⟨h₂, le₂⟩ := created_fill v bimp (c.fill v bimp .regcmd 2097152 false dom (o 0)) .task 524288
    false dom (o 1)
  obtain ⟨h₃, -⟩ := created_fill v bimp ((c.fill v bimp .regcmd 2097152 false dom (o 0)).fill v bimp .task
    524288 false dom (o 1)) .af (4 * 32768 * 2) false dom (o 2)
  refine ⟨_, _, _, ?_, h₁, h₂.mono le₁, h₃.mono (Nat.le_trans le₁ le₂)⟩
  unfold OrkNpu.furnish OrkNpu.fill
  dsimp only
  rw [hz]
  rfl

/-- Each domain has its own scratch set. -/
structure Separate (v : BufEnv) (bimp : Bool) (t : Tenancy) : Prop where
  /-- An activation that takes effect shows the set as it was when the domain was last left; the first one shows the
  regcmd, task and feature buffers created for it and nothing else. -/
  activation : ∀ dom oom o, dom.toNat ≠ t.npu.domActive →
    (t.npu.orkiDomActivate v bimp dom oom o).domActive = dom.toNat →
    (∀ s, t.left dom.toNat = some s → (t.npu.orkiDomActivate v bimp dom oom o).scratch = s) ∧
      (t.left dom.toNat = none → ∃ r k a,
        (t.npu.orkiDomActivate v bimp dom oom o).scratch = { Scratch.zero with regcmd := r, task := k, Af := a } ∧
          Created t.npu.dev.next r ∧ Created t.npu.dev.next k ∧ Created t.npu.dev.next a)
  /-- No buffer is in two places, of one domain or of two. -/
  apart : ∀ d k d' k', (t.npu.at (d, k)).cpu = true → (t.npu.at (d', k')).cpu = true →
    (t.npu.at (d, k)).handle = (t.npu.at (d', k')).handle → d = d' ∧ k = k'
  /-- `ork_npu_free` destroys each buffer of each domain, and nothing twice. -/
  teardown : ∀ ok, (t.npu.orkNpuFree ok).destroyed.Nodup ∧
    ∀ d k, (t.npu.at (d, k)).cpu = true → (t.npu.at (d, k)).handle ∉ t.npu.destroyed ∧
      (t.npu.at (d, k)).handle ∈ (t.npu.orkNpuFree ok).destroyed

theorem activate_scratch {t : Tenancy} (h : Kempt t) {dom : Int} {oom : Bool} {o : Fin 3 → ScratchOutcome}
    (hne : dom.toNat ≠ t.npu.domActive) (hact : (t.npu.orkiDomActivate v bimp dom oom o).domActive = dom.toNat) :
    (∀ s, t.left dom.toNat = some s → (t.npu.orkiDomActivate v bimp dom oom o).scratch = s) ∧
      (t.left dom.toNat = none → ∃ r k a,
        (t.npu.orkiDomActivate v bimp dom oom o).scratch = { Scratch.zero with regcmd := r, task := k, Af := a } ∧
          Created t.npu.dev.next r ∧ Created t.npu.dev.next k ∧ Created t.npu.dev.next a) := by
  rcases activate_spec v bimp oom o h.beyond hne with hsame | ⟨cap, -, -, -, heq⟩
  · rw [hsame] at hact
    exact absurd hact.symm hne
  · rw [heq]
    constructor
    · intro s hl
      rw [h.parked _ s hne hl, if_neg (by rw [park_eq]; exact Bool.false_ne_true)]
      change OrkNpu.restore (t.npu.domSave dom.toNat) = s
      rw [h.parked _ s hne hl, restore_eq, park_eq]
    · intro hl
      have hfirst : (!(t.npu.domSave dom.toNat).used && !(t.npu.domSave dom.toNat).regcmd.cpu) = true := by
        rw [h.never _ hne hl]
        rfl
      rw [if_pos hfirst]
      apply furnish_scratch
      change OrkNpu.restore (t.npu.domSave dom.toNat) = _
      rw [h.never _ hne hl, restore_eq]
      rfl

/-- Every allocation of the examples is granted. -/
def grantedAll : ScratchOutcome := ⟨⟨true, false, true, true, 0⟩, ⟨true, true, true, true, true, true, 0⟩⟩

local instance neZero_cores : NeZero 4 := ⟨by decide⟩

/-- The initial buffers, domain 1, a feature buffer grown there, domain 0 and back. -/
def switching : List DomCall :=
  [.fill .regcmd 2097152 false (-1) grantedAll, .fill .task 524288 false (-1) grantedAll,
    .activate 1 false fun _ => grantedAll, .grow (.maf 0) 8192 false 1 true grantedAll,
    .activate 0 false fun _ => grantedAll, .activate 1 false fun _ => grantedAll]

end OrkDriver.Mem
