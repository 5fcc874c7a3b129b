import OrkDriver.Chain.LutCache

/-!
Which runs leave every chain the activation table it asked for in the SRAM of its core.
-/

namespace OrkDriver.Chain

open Transition

variable {build : BuildCurve} {sticky : Bool} {s : LutState} {e : LutEvent}

/-! ### What the pieces of a call leave alone -/

theorem patch_phase (s : LutState) (a : LutArray) (cc : Fin 4) : (s.patch a cc).phase = s.phase := by
  unfold LutState.patch
  split <;> rfl

theorem patch_sram (s : LutState) (a : LutArray) (cc : Fin 4) : (s.patch a cc).sram = s.sram := by
  unfold LutState.patch
  split <;> rfl

theorem patch_chainLrc (s : LutState) (a : LutArray) (cc : Fin 4) : (s.patch a cc).chainLrc cc = s.copy a cc := by
  unfold LutState.patch LutState.copy
  split
  · rfl
  · exact Function.update_self _ _ _

variable (sticky) in
theorem patch_devloaded (s : LutState) (a : LutArray) (cc : Fin 4) :
    (sticky && (s.patch a cc).chainLutDevloaded cc) = s.skips sticky a cc := by
  unfold LutState.patch LutState.skips
  split
  · next h => rw [decide_eq_true h, Bool.and_true]
  · next h =>
      rw [decide_eq_false h, Bool.and_false]
      dsimp only
      rw [Function.update_self, Bool.and_false]

theorem selfHeal_phase (s : LutState) (reset : Bool) : (s.selfHeal reset).phase = s.phase := by
  cases reset <;> rfl

theorem orkNpuEnter_phase (s : LutState) (rst : Bool) : (s.orkNpuEnter rst).phase = s.phase := by
  cases rst <;> rfl

theorem writeOnce_phase (s : LutState) (a : LutArray) (x : Scales) (t : Lut) (forget : Bool) :
    (s.writeOnce a x t forget).phase = s.phase := by
  unfold LutState.writeOnce
  split <;> rfl

/-- The six entry points are two: an array written in place, or only when the scales are new. -/
theorem buildCurve_eq (s : LutState) (q : ChainCall) :
    s.buildCurve build q =
      match q.scales with
      | none => s.write q.array (q.table build)
      | some x => s.writeOnce q.array x (q.table build) (!q.inPlace) := by
  cases q <;> rfl

theorem buildCurve_phase (s : LutState) (q : ChainCall) : (s.buildCurve build q).phase = s.phase := by
  rw [buildCurve_eq]
  cases q.scales with
  | none => rfl
  | some x => exact writeOnce_phase s _ _ _ _

/-- The table part of a call, by what it finds. -/
theorem loadLut_eq {a : LutArray} {want : Lut} (hss : s.ss = some (a, want)) (cc : Fin 4) (warmed : Bool)
    (o : SubmitFate) :
    s.loadLut sticky cc warmed o =
      if s.skips sticky a cc then
        { s.patch a cc with phase := Function.update s.phase cc (.loaded want (if warmed then 1 else 2)) }
      else
        match o with
        | .accepted =>
          { s.patch a cc with
            sram := Function.update (s.patch a cc).sram cc (some (s.copy a cc))
            chainLutDevloaded := Function.update (s.patch a cc).chainLutDevloaded cc true
            phase := Function.update s.phase cc (.loaded want (if warmed then 1 else 2)) }
        | .rejected reset => (s.patch a cc).selfHeal reset := by
  unfold LutState.loadLut
  rw [hss]
  cases o <;> simp only [patch_devloaded, patch_phase, patch_chainLrc]

/-! ### When the tables stay -/

theorem resident_of_idle (h : ∀ cc, s.phase cc = .idle) : Resident s := by
  intro cc want reps hcc
  rw [h cc] at hcc
  cases hcc

/-- A core that starts waiting for its chain, the others as they were. -/
theorem resident_update_iff {t : LutState} (hR : Resident s) {cc : Fin 4} {want : Lut} {reps : Nat}
    (hphase : t.phase = Function.update s.phase cc (.loaded want reps)) (hsram : ∀ c, c ≠ cc → t.sram c = s.sram c) :
    Resident t ↔ t.sram cc = some want := by
  constructor
  · intro h
    apply h cc want reps
    rw [hphase, Function.update_self]
  · intro h c w n hc
    rw [hphase] at hc
    by_cases hcc : c = cc
    · rw [hcc, Function.update_self] at hc
      cases hc
      rw [hcc]
      exact h
    · rw [Function.update_of_ne hcc] at hc
      rw [hsram c hcc]
      exact hR c w n hc

/-- A reset takes every table. -/
theorem resident_none_iff (h : s.sram = fun _ => none) : Resident s ↔ ∀ cc, s.phase cc = .idle := by
  refine ⟨fun hR cc => ?_, resident_of_idle⟩
  cases hp : s.phase cc with
  | idle => rfl
  | loaded want reps =>
      have hres := hR cc want reps hp
      rw [h] at hres
      cases hres

theorem resident_selfHeal_iff (hR : Resident s) (reset : Bool) :
    Resident (s.selfHeal reset) ↔ (reset = true → ∀ cc, s.phase cc = .idle) := by
  cases reset with
  | false => exact ⟨fun _ h => (nomatch h), fun _ => hR⟩
  | true => exact (resident_none_iff rfl).trans ⟨fun h _ => h, fun h => h rfl⟩

theorem resident_load_iff (hR : Resident s) (cc : Fin 4) (warmed : Bool) (o : SubmitFate) :
    Resident (s.loadLut sticky cc warmed o) ↔ Fit sticky s (.load cc warmed o) := by
  unfold Fit
  cases hss : s.ss with
  | none =>
      unfold LutState.loadLut
      rw [hss]
      exact ⟨fun _ a want h => (nomatch h), fun _ => hR⟩
  | some aw =>
      obtain ⟨a, want⟩ := aw
      rw [loadLut_eq hss]
      suffices hwant : Resident _ ↔
          if s.skips sticky a cc then s.sram cc = some want
          else match o with
            | .accepted => s.copy a cc = want
            | .rejected reset => reset = true → ∀ c, s.phase c = .idle from
        hwant.trans ⟨fun h b w hbw => by cases hbw; exact h, fun h => h a want rfl⟩
      by_cases hskip : s.skips sticky a cc = true
      · rw [if_pos hskip, if_pos hskip]
        have hiff := resident_update_iff (t := { s.patch a cc with
          phase := Function.update s.phase cc (.loaded want (if warmed then 1 else 2)) }) hR rfl
          fun c _ => congrFun (patch_sram s a cc) c
        rw [hiff, show ({ s.patch a cc with
          phase := Function.update s.phase cc (.loaded want (if warmed then 1 else 2)) } : LutState).sram =
          s.sram from patch_sram s a cc]
      · rw [if_neg hskip, if_neg hskip]
        cases o with
        | accepted =>
            dsimp only
            rw [patch_sram]
            refine (resident_update_iff hR rfl fun c hc => Function.update_of_ne hc _ _).trans ?_
            dsimp only
            rw [Function.update_self, Option.some.injEq]
        | rejected reset =>
            have hpatch : Resident (s.patch a cc) := by
              intro c w n hc
              rw [patch_phase] at hc
              rw [patch_sram]
              exact hR c w n hc
            dsimp only
            rw [resident_selfHeal_iff hpatch, patch_phase]

theorem resident_submit_iff (hR : Resident s) {cc : Fin 4} (hcc : s.phase cc ≠ .idle) (o : SubmitFate) :
    Resident (s.submitChain cc o) ↔ Fit sticky s (.submit cc o) := by
  unfold Fit LutState.submitChain
  cases hp : s.phase cc with
  | idle => exact absurd hp hcc
  | loaded want reps =>
      dsimp only
      have hkeep : ∀ t : LutState, t.sram = s.sram →
          t.phase = Function.update s.phase cc (if reps ≤ 1 then .idle else .loaded want (reps - 1)) → Resident t := by
        intro t hsram hphase c w n hc
        rw [hsram]
        rw [hphase] at hc
        by_cases hc' : c = cc
        · rw [hc', Function.update_self] at hc
          split at hc
          · cases hc
          · cases hc
            rw [hc']
            exact hR cc want reps hp
        · rw [Function.update_of_ne hc'] at hc
          exact hR c w n hc
      cases o with
      | accepted => exact ⟨fun _ h => (nomatch h), fun _ => hkeep _ rfl rfl⟩
      | rejected reset =>
          cases reset with
          | false => exact ⟨fun _ h => (nomatch h), fun _ => hkeep _ rfl rfl⟩
          | true =>
              refine (resident_none_iff rfl).trans ?_
              rw [hp]
              dsimp only [Phase.last]
              constructor
              · refine fun h _ => ⟨?_, fun c hc => ?_⟩
                · have hself := h cc
                  rw [Function.update_self] at hself
                  split at hself
                  · next hlast => exact decide_eq_true hlast
                  · cases hself
                · have hother := h c
                  rw [Function.update_of_ne hc] at hother
                  exact hother
              · intro h c
                obtain ⟨hlast, hothers⟩ := h rfl
                by_cases hc : c = cc
                · rw [hc, Function.update_self, if_pos (of_decide_eq_true hlast)]
                · rw [Function.update_of_ne hc]
                  exact hothers c hc

/-- One event leaves the started chains their tables exactly if it is fit. -/
theorem resident_next_iff (hen : e.enabled s) (hR : Resident s) :
    Resident (e.next build sticky s) ↔ Fit sticky s e := by
  cases e with
  | call q rst =>
      refine ⟨fun _ => trivial, fun _ => resident_of_idle fun cc => ?_⟩
      change ((s.buildCurve build q).orkNpuEnter rst).phase cc = .idle
      rw [orkNpuEnter_phase, buildCurve_phase]
      exact hen cc
  | load cc warmed o => exact resident_load_iff hR cc warmed o
  | submit cc o => exact resident_submit_iff hR hen o
  | enter rst =>
      refine ⟨fun _ => trivial, fun _ => resident_of_idle fun cc => ?_⟩
      change (s.orkNpuEnter rst).phase cc = .idle
      rw [orkNpuEnter_phase]
      exact hen cc
  | standalone cc t => exact ⟨fun _ => trivial, fun _ => resident_of_idle hen⟩
  | bareReset => exact ⟨fun _ => trivial, fun _ => resident_of_idle hen⟩

/-- Every executed chain had its table, and every started one has it. -/
structure Served (s : LutState) : Prop where
  resident : Resident s
  ran : ∀ x ∈ s.ran, x.resident = some x.want

theorem patch_ran (s : LutState) (a : LutArray) (cc : Fin 4) : (s.patch a cc).ran = s.ran := by
  unfold LutState.patch
  split <;> rfl

theorem selfHeal_ran (s : LutState) (reset : Bool) : (s.selfHeal reset).ran = s.ran := by
  cases reset <;> rfl

theorem orkNpuEnter_ran (s : LutState) (rst : Bool) : (s.orkNpuEnter rst).ran = s.ran := by
  cases rst <;> rfl

theorem writeOnce_ran (s : LutState) (a : LutArray) (x : Scales) (t : Lut) (forget : Bool) :
    (s.writeOnce a x t forget).ran = s.ran := by
  unfold LutState.writeOnce
  split <;> rfl

theorem buildCurve_ran (s : LutState) (q : ChainCall) : (s.buildCurve build q).ran = s.ran := by
  rw [buildCurve_eq]
  cases q.scales with
  | none => rfl
  | some x => exact writeOnce_ran s _ _ _ _

theorem loadLut_ran (s : LutState) (cc : Fin 4) (warmed : Bool) (o : SubmitFate) :
    (s.loadLut sticky cc warmed o).ran = s.ran := by
  cases hss : s.ss with
  | none =>
      unfold LutState.loadLut
      rw [hss]
  | some aw =>
      rw [loadLut_eq hss]
      split
      · exact patch_ran s _ cc
      · cases o with
        | accepted => exact patch_ran s _ cc
        | rejected reset =>
            dsimp only
            rw [selfHeal_ran, patch_ran]

theorem ran_next (hs : Served s) (e : LutEvent) : ∀ x ∈ (e.next build sticky s).ran, x.resident = some x.want := by
  have hsame : ∀ t : LutState, t.ran = s.ran → ∀ x ∈ t.ran, x.resident = some x.want := fun t ht => ht ▸ hs.ran
  cases e with
  | call q rst =>
      apply hsame
      change ((s.buildCurve build q).orkNpuEnter rst).ran = s.ran
      rw [orkNpuEnter_ran, buildCurve_ran]
  | load cc warmed o => exact hsame _ (loadLut_ran s cc warmed o)
  | submit cc o =>
      unfold LutEvent.next LutState.submitChain
      dsimp only
      cases hp : s.phase cc with
      | idle => exact hs.ran
      | loaded want reps =>
          cases o with
          | accepted =>
              intro x hx
              rcases List.mem_cons.mp hx with rfl | hx
              · exact hs.resident cc want reps hp
              · exact hs.ran x hx
          | rejected reset => exact hsame _ (selfHeal_ran s reset)
  | enter rst => exact hsame _ (orkNpuEnter_ran s rst)
  | standalone cc t => exact hs.ran
  | bareReset => exact hs.ran

theorem served_next_iff (hen : e.enabled s) (hs : Served s) : Served (e.next build sticky s) ↔ Fit sticky s e :=
  ⟨fun h => (resident_next_iff hen hs.resident).mp h.resident,
    fun h => ⟨(resident_next_iff hen hs.resident).mpr h, ran_next hs e⟩⟩

theorem served_start : Served .start := ⟨fun _ _ _ h => (nomatch h), fun _ hx => absurd hx List.not_mem_nil⟩

/-! ### Calm runs -/

/-- What the marks mean: the copy of a core is the array it is marked with, a loaded mark says that the copy is in the
SRAM, a memo that the array holds the curve of its scales. -/
structure Coherent (build : BuildCurve) (sticky : Bool) (s : LutState) : Prop where
  copy : ∀ cc a, s.chainLutP cc = some a → s.chainLrc cc = s.arr a
  mark : sticky = true → ∀ cc, s.chainLutDevloaded cc = true → s.sram cc = some (s.chainLrc cc)
  want : ∀ a w, s.ss = some (a, w) → s.arr a = w
  memo : ∀ q : ChainCall, q.scales = some (s.memo q.array) → s.memo q.array ≠ LutState.memoStart q.array →
    s.arr q.array = q.table build

theorem Coherent.ofCopy {a : LutArray} (h : Coherent build sticky s) (cc : Fin 4) : s.copy a cc = s.arr a := by
  unfold LutState.copy
  split
  · next hp => exact h.copy cc a hp
  · rfl

theorem fit_of_calm (h : Coherent build sticky s) (hc : Calm build sticky s e) : Fit sticky s e := by
  cases e with
  | load cc warmed o =>
      intro a want hss
      have hcopy : s.copy a cc = want := (h.ofCopy cc).trans (h.want a want hss)
      by_cases hskip : s.skips sticky a cc = true
      · rw [if_pos hskip]
        unfold LutState.skips at hskip
        simp only [Bool.and_eq_true, decide_eq_true_eq] at hskip
        obtain ⟨⟨hsticky, hdev⟩, hp⟩ := hskip
        rw [h.mark hsticky cc hdev, h.copy cc a hp, h.want a want hss]
      · rw [if_neg hskip]
        cases o with
        | accepted => exact hcopy
        | rejected reset =>
            intro hreset
            subst hreset
            exact (hc rfl).1
  | submit cc o => exact fun ho => (hc ho).1
  | call q rst => exact trivial
  | enter rst => exact trivial
  | standalone cc t => exact trivial
  | bareReset => exact trivial

theorem coherent_orkNpuEnter (h : Coherent build sticky s) (rst : Bool) : Coherent build sticky (s.orkNpuEnter rst) := by
  cases rst with
  | false => exact h
  | true => exact ⟨h.copy, fun _ _ hdev => (nomatch hdev), h.want, h.memo⟩

theorem coherent_patch (h : Coherent build sticky s) (a : LutArray) (cc : Fin 4) :
    Coherent build sticky (s.patch a cc) := by
  unfold LutState.patch
  by_cases hp : s.chainLutP cc = some a
  · rw [if_pos hp]
    exact h
  · rw [if_neg hp]
    constructor
    case copy =>
      intro c b hb
      dsimp only at hb ⊢
      by_cases hc : c = cc
      · rw [hc, Function.update_self] at hb
        cases hb
        rw [hc, Function.update_self]
      · rw [Function.update_of_ne hc] at hb ⊢
        exact h.copy c b hb
    case mark =>
      intro hsticky c hdev
      dsimp only at hdev ⊢
      by_cases hc : c = cc
      · rw [hc, Function.update_self] at hdev
        cases hdev
      · rw [Function.update_of_ne hc] at hdev ⊢
        exact h.mark hsticky c hdev
    case want => exact h.want
    case memo => exact h.memo

theorem coherent_selfHeal (h : Coherent build sticky s) {reset : Bool}
    (hmarks : reset = true → sticky = true → ∀ c, s.chainLutDevloaded c = false) :
    Coherent build sticky (s.selfHeal reset) := by
  cases reset with
  | false => exact h
  | true =>
      refine ⟨h.copy, fun hsticky c hdev => ?_, h.want, h.memo⟩
      change s.chainLutDevloaded c = true at hdev
      rw [hmarks rfl hsticky c] at hdev
      cases hdev

/-- Two calls that share an array and compare the same scales ask for the same table. -/
theorem table_eq_of_scales {q r : ChainCall} {x : Scales} (harr : q.array = r.array) (hq : q.scales = some x)
    (hr : r.scales = some x) : q.table build = r.table build := by
  cases q <;> cases r <;> first | (cases harr; done) | (cases hq; cases hr; rfl) | cases hq

theorem array_ne_of_scales {q r : ChainCall} {x : Scales} (hq : q.scales = some x) (hr : r.scales = none) :
    q.array ≠ r.array := by
  cases q <;> cases r <;> first | (cases hq; done) | (cases hr; done) | nofun

theorem coherent_write (h : Coherent build sticky s) (q : ChainCall) (hq : q.scales = none)
    (hmarks : ∀ cc, s.chainLutP cc = some q.array → s.arr q.array = q.table build) :
    Coherent build sticky { s.write q.array (q.table build) with ss := some (q.array, q.table build) } := by
  constructor
  case copy =>
    intro cc a ha
    change s.chainLutP cc = some a at ha
    change s.chainLrc cc = Function.update s.arr q.array (q.table build) a
    by_cases haq : a = q.array
    · subst haq
      rw [Function.update_self, h.copy cc _ ha, hmarks cc ha]
    · rw [Function.update_of_ne haq]
      exact h.copy cc a ha
  case mark => exact h.mark
  case want =>
    intro a w haw
    cases haw
    exact Function.update_self _ _ _
  case memo =>
    intro r hr hne
    change Function.update s.arr q.array (q.table build) r.array = r.table build
    rw [Function.update_of_ne (array_ne_of_scales hr hq)]
    exact h.memo r hr hne

theorem coherent_writeOnce (h : Coherent build sticky s) (q : ChainCall) {x : Scales} (hq : q.scales = some x)
    (hx : x ≠ LutState.memoStart q.array)
    (hmarks : q.inPlace = true → ∀ cc, s.chainLutP cc = some q.array → s.arr q.array = q.table build) :
    Coherent build sticky
      { s.writeOnce q.array x (q.table build) (!q.inPlace) with ss := some (q.array, q.table build) } := by
  unfold LutState.writeOnce
  by_cases hsame : x = s.memo q.array
  · rw [if_pos hsame]
    refine ⟨h.copy, h.mark, fun a w haw => ?_, h.memo⟩
    cases haw
    exact h.memo q (hsame ▸ hq) (hsame ▸ hx)
  · rw [if_neg hsame]
    constructor
    case copy =>
      intro cc a ha
      change (if (!q.inPlace) = true then fun _ => none else s.chainLutP) cc = some a at ha
      change s.chainLrc cc = Function.update s.arr q.array (q.table build) a
      cases hin : q.inPlace with
      | false =>
          rw [hin] at ha
          cases ha
      | true =>
          rw [hin] at ha
          change s.chainLutP cc = some a at ha
          by_cases haq : a = q.array
          · subst haq
            rw [Function.update_self, h.copy cc _ ha, hmarks hin cc ha]
          · rw [Function.update_of_ne haq]
            exact h.copy cc a ha
    case mark => exact h.mark
    case want =>
      intro a w haw
      cases haw
      exact Function.update_self _ _ _
    case memo =>
      intro r hr hne
      change r.scales = some (Function.update s.memo q.array x r.array) at hr
      change Function.update s.memo q.array x r.array ≠ _ at hne
      change Function.update s.arr q.array (q.table build) r.array = r.table build
      by_cases hrq : r.array = q.array
      · rw [hrq, Function.update_self] at hr ⊢
        exact table_eq_of_scales hrq.symm hq hr
      · rw [Function.update_of_ne hrq] at hr hne ⊢
        exact h.memo r hr hne

theorem coherent_load (h : Coherent build sticky s) {cc : Fin 4} {warmed : Bool} {o : SubmitFate}
    (hc : Calm build sticky s (.load cc warmed o)) : Coherent build sticky (s.loadLut sticky cc warmed o) := by
  cases hss : s.ss with
  | none =>
      unfold LutState.loadLut
      rw [hss]
      exact h
  | some aw =>
      obtain ⟨a, want⟩ := aw
      have hp := coherent_patch h a cc
      rw [loadLut_eq hss]
      by_cases hskip : s.skips sticky a cc = true
      · rw [if_pos hskip]
        exact ⟨hp.copy, hp.mark, hp.want, hp.memo⟩
      · rw [if_neg hskip]
        cases o with
        | accepted =>
            refine ⟨hp.copy, fun hsticky c hdev => ?_, hp.want, hp.memo⟩
            dsimp only at hdev ⊢
            by_cases hcc : c = cc
            · rw [hcc, Function.update_self, patch_chainLrc]
            · rw [Function.update_of_ne hcc] at hdev ⊢
              exact hp.mark hsticky c hdev
        | rejected reset =>
            refine coherent_selfHeal hp fun hreset hsticky c => ?_
            subst hreset
            by_cases hcc : c = cc
            · have hoff := patch_devloaded sticky s a cc
              rw [Bool.eq_false_iff.mpr hskip, hsticky, Bool.true_and] at hoff
              rw [hcc]
              exact hoff
            · have hother := (hc rfl).2 hsticky c hcc
              unfold LutState.patch
              split
              · exact hother
              · exact (Function.update_of_ne hcc _ _).trans hother

theorem coherent_submit (h : Coherent build sticky s) {cc : Fin 4} {o : SubmitFate}
    (hc : Calm build sticky s (.submit cc o)) : Coherent build sticky (s.submitChain cc o) := by
  unfold LutState.submitChain
  cases s.phase cc with
  | idle => exact h
  | loaded want reps =>
      cases o with
      | accepted => exact ⟨h.copy, h.mark, h.want, h.memo⟩
      | rejected reset =>
          have hheal : Coherent build sticky (s.selfHeal reset) := coherent_selfHeal h fun hreset => by
            subst hreset
            exact (hc rfl).2
          exact ⟨hheal.copy, hheal.mark, hheal.want, hheal.memo⟩

theorem coherent_next (h : Coherent build sticky s) (hc : Calm build sticky s e) :
    Coherent build sticky (e.next build sticky s) := by
  cases e with
  | call q rst =>
      have hbuilt : Coherent build sticky { s.buildCurve build q with ss := some (q.array, q.table build) } := by
        rw [buildCurve_eq]
        cases hq : q.scales with
        | none => exact coherent_write h q hq (hc.2 (by cases q <;> first | rfl | cases hq))
        | some x => exact coherent_writeOnce h q hq (fun hx => hc.1 (hx ▸ hq)) hc.2
      have henter := coherent_orkNpuEnter hbuilt rst
      cases rst with
      | false => exact henter
      | true => exact henter
  | load cc warmed o => exact coherent_load h hc
  | submit cc o => exact coherent_submit h hc
  | enter rst =>
      have henter := coherent_orkNpuEnter h rst
      exact ⟨henter.copy, henter.mark, fun _ _ hno => (nomatch hno), henter.memo⟩
  | standalone cc t =>
      refine ⟨h.copy, fun hsticky c hdev => ?_, fun _ _ hno => (nomatch hno), h.memo⟩
      change s.chainLutDevloaded c = true at hdev
      change Function.update s.sram cc (some t) c = some (s.chainLrc c)
      by_cases hcc : c = cc
      · rw [hcc, hc hsticky] at hdev
        cases hdev
      · rw [Function.update_of_ne hcc]
        exact h.mark hsticky c hdev
  | bareReset =>
      refine ⟨h.copy, fun hsticky c hdev => ?_, fun _ _ hno => (nomatch hno), h.memo⟩
      change s.chainLutDevloaded c = true at hdev
      rw [hc hsticky c] at hdev
      cases hdev

theorem coherent_start : Coherent build sticky .start :=
  ⟨fun _ _ h => (nomatch h), fun _ _ h => (nomatch h), fun _ _ h => (nomatch h), fun _ _ h => absurd rfl h⟩

/-! ### Whole runs -/

/-- In every run the tables are those asked for as long as the events are fit, and no longer; and every calm run is. -/
theorem chain_lut_served_iff (build : BuildCurve) (sticky : Bool) {es : List LutEvent}
    (hruns : System.Runs (fun _ _ => True) LutEvent.enabled (LutEvent.next build sticky) .start es) :
    ((∀ l, l <+: es → Served (l.foldl (LutEvent.next build sticky) .start)) ↔
        System.Runs (Fit sticky) LutEvent.enabled (LutEvent.next build sticky) .start es) ∧
      (System.Runs (Calm build sticky) LutEvent.enabled (LutEvent.next build sticky) .start es →
        ∀ l, l <+: es → Served (l.foldl (LutEvent.next build sticky) .start)) := by
  have hiff := System.Runs.iff_forall_prefix_of_enabled (I := fun _ => True) (fun _ _ _ _ _ => trivial)
    (fun s e hen _ hs => (served_next_iff hen hs : Served (e.next build sticky s) ↔ Fit sticky s e)) trivial served_start hruns
  refine ⟨hiff, fun hcalm => hiff.mpr ?_⟩
  exact System.Runs.of_invariant (I := Coherent build sticky) (fun _ _ _ hp hI => coherent_next hI hp)
    (fun _ _ _ hI hp => fit_of_calm hI hp) coherent_start hcalm

/-- The curves at an in_scale of 0, where every entry is `f(0)` over out_scale, for an out_scale that is one over a whole
number. -/
def flatCurve : BuildCurve
  | .silu, _ => fun _ => 0
  | .exp, x => fun _ => max (-32768) (min 32767 x.outScale⁻¹.floor)

/-- Two cores side by side, then a standalone activation, then another curve on the first core. -/
def alternating : List LutEvent :=
  [.call (.rrBiased 0 1 3) true, .load 0 true .accepted, .load 1 true .accepted, .submit 1 .accepted,
    .submit 0 .accepted, .standalone 0 fun _ => 7, .call (.rrBiased 0 (1 / 2) 3) false, .load 0 false .accepted,
    .submit 0 .accepted, .submit 0 .accepted]

theorem chain_lut_served_alternating :
    Served (alternating.foldl (LutEvent.next flatCurve false) .start) := by
  have hen : System.Runs (fun _ _ => True) LutEvent.enabled (LutEvent.next flatCurve false) .start alternating := by
    decide +kernel
  refine (chain_lut_served_iff flatCurve false hen).2 (System.Runs.of_forall ?_ hen) _ (List.prefix_refl _)
  have hnew : ∀ x : ℚ, some (⟨0, x, 3⟩ : Scales) ≠ some (LutState.memoStart .rrBiased) := fun x h =>
    absurd (congrArg Scales.inScale (Option.some.inj h)) (show (0 : ℚ) ≠ -1 by decide)
  simp only [alternating, List.forall_mem_cons]
  refine ⟨fun _ => ⟨hnew _, nofun⟩, fun _ => nofun, fun _ => nofun, fun _ => nofun, fun _ => nofun, fun _ => nofun,
    fun _ => ⟨hnew _, nofun⟩, fun _ => nofun, fun _ => nofun, fun _ => nofun, nofun⟩

/-- The first entries of what the executed chains asked for and of what they found. -/
def LutState.seen (s : LutState) : List (Int × Option Int) := s.ran.map fun x => (x.want 0, x.resident.map fun t => t 0)

theorem Served.seen (h : Served s) : ∀ x ∈ s.seen, x.2 = some x.1 := by
  intro x hx
  obtain ⟨r, hr, rfl⟩ := List.mem_map.mp hx
  dsimp only
  rw [h.ran r hr]
  rfl

/-- The unbiased round robin called again with another out_scale runs on the table of the first call; with the sticky
caching a reset between two calls leaves the second without a table; the reset after a rejected first submit leaves a
cold chain without a table. -/
theorem chain_lut_stale :
    ¬ Served ([.call (.rr 0 1) true, .load 0 true .accepted, .submit 0 .accepted, .call (.rr 0 (1 / 2)) false,
      .load 0 true .accepted, .submit 0 .accepted].foldl (LutEvent.next flatCurve false) .start) ∧
    ¬ Served ([.call (.rr 0 1) true, .load 0 true .accepted, .submit 0 .accepted, .bareReset, .call (.rr 0 1) false,
      .load 0 true .accepted, .submit 0 .accepted].foldl (LutEvent.next flatCurve true) .start) ∧
    ¬ Served ([.call (.rr 0 1) true, .load 0 false .accepted, .submit 0 (.rejected true),
      .submit 0 .accepted].foldl (LutEvent.next flatCurve false) .start) := by
  refine ⟨fun h => ?_, fun h => ?_, fun h => ?_⟩
  · exact absurd h.seen (by decide +kernel)
  · exact absurd h.seen (by decide)
  · exact absurd h.seen (by decide)

end OrkDriver.Chain
