import OrkDriver.Core.Precompiled

/-!
What precompiled chains deliver over a whole history of runs and table changes, and what a failed compile leaves behind.
-/

namespace OrkDriver.Core

open Transition OrkDriver.Lib OrkDriver.Npu OrkDriver.Pack OrkDriver.Run

variable {R : Type*}

/-! ### Failed compiles -/

section

variable {v : PcEnv R} {tab : List DmaBuf} {S : Nat} {tasks : Nat → PcTask R}

/-- The buffers that are live after `n` turns. -/
def liveAfter (n : Nat) : List PcBuf := ((List.range n).map PcBuf.ascr).reverse ++ [.tk, .pool]

theorem liveAfter_succ (n : Nat) : liveAfter (n + 1) = .ascr n :: liveAfter n := by
  unfold liveAfter
  rw [List.range_succ, List.map_append, List.reverse_append]
  rfl

/-- Both error paths of the loop give back the activation buffers and the pool. -/
theorem destroyed_liveAfter (n : Nat) : destroyed (liveAfter n) ((List.range n).map PcBuf.ascr ++ [.pool]) = [.tk] := by
  unfold destroyed liveAfter
  rw [List.filter_append]
  have hascr : (((List.range n).map PcBuf.ascr).reverse.filter fun b =>
      decide (b ∉ (List.range n).map PcBuf.ascr ++ [.pool])) = [] := by
    apply List.filter_eq_nil_iff.mpr
    intro b hb
    rw [decide_eq_true_eq, not_not]
    exact List.mem_append_left _ (List.mem_reverse.mp hb)
  have htk : PcBuf.tk ∉ (List.range n).map PcBuf.ascr ++ [.pool] := by
    intro h
    rcases List.mem_append.mp h with h | h
    · obtain ⟨i, -, hi⟩ := List.mem_map.mp h
      cases hi
    · cases List.mem_singleton.mp h
  have hpool : PcBuf.pool ∈ (List.range n).map PcBuf.ascr ++ [.pool] := List.mem_append_right _ List.mem_cons_self
  rw [hascr, List.nil_append, List.filter_cons, if_pos (decide_eq_true htk), List.filter_cons,
    if_neg (by rw [decide_eq_true_eq, not_not]; exact hpool), List.filter_nil]

theorem compileTask_spec (prog : Nat → Program) (n : Nat) :
    compileTask v prog (liveAfter n) n = .ok (liveAfter (n + 1)) ∨ compileTask v prog (liveAfter n) n = .error [.tk] := by
  unfold compileTask
  split
  · exact Or.inr (congrArg _ (destroyed_liveAfter n))
  · split
    · refine Or.inr (congrArg _ ?_)
      rw [← liveAfter_succ]
      exact destroyed_liveAfter (n + 1)
    · exact Or.inl (congrArg _ (liveAfter_succ n).symm)

/-- The loop ends with everything live, or leaves the task buffer. -/
theorem compileLoop_spec (prog : Nat → Program) (n : Nat) :
    (List.range n).foldlM (compileTask v prog) [.tk, .pool] = .ok (liveAfter n) ∨
      (List.range n).foldlM (compileTask v prog) [.tk, .pool] = .error [.tk] := by
  induction n with
  | zero => exact Or.inl rfl
  | succ n ih =>
      rw [List.range_succ, List.foldlM_append]
      rcases ih with h | h
      · rw [h]
        change [n].foldlM (compileTask v prog) (liveAfter n) = _ ∨ [n].foldlM (compileTask v prog) (liveAfter n) = _
        rw [List.foldlM_cons]
        rcases compileTask_spec (v := v) prog n with hn | hn
        · rw [hn]
          exact Or.inl rfl
        · rw [hn]
          exact Or.inr rfl
      · rw [h]
        exact Or.inr rfl

/-- The compile gets as far as the activation buffers. -/
def Reaches (v : PcEnv R) (tab : List DmaBuf) (S : Nat) (tasks : Nat → PcTask R) : Prop :=
  (1 ≤ S ∧ S ≤ 512 ∧ ∀ i < S, pcAccepts tab (tasks i)) ∧ v.calloc = true ∧ v.pool = true ∧ v.tk = true

theorem orkPcCompile_error {left : List PcBuf} (h : orkPcCompile v tab S tasks = .error left) :
    left = [] ↔ ¬ Reaches v tab S tasks := by
  unfold orkPcCompile at h
  split at h
  · next hno =>
    refine iff_of_true (Except.error.inj h).symm fun hr => ?_
    obtain ⟨⟨h1, h2, hall⟩, -⟩ := hr
    rcases hno with h0 | h0 | ⟨i, hi, hi'⟩
    · omega
    · omega
    · exact hi' (hall i hi)
  split at h
  · next hno => exact iff_of_true (Except.error.inj h).symm fun hr => by rw [hr.2.1] at hno; cases hno
  split at h
  · next hno => exact iff_of_true (Except.error.inj h).symm fun hr => by rw [hr.2.2.1] at hno; cases hno
  split at h
  · next hno =>
    refine iff_of_true ?_ fun hr => by rw [hr.2.2.2] at hno; cases hno
    exact (Except.error.inj h).symm.trans (by decide)
  · next hargs hcalloc hpool htk =>
    have hr : Reaches v tab S tasks := by
      refine ⟨⟨by omega, by omega, fun i hi => ?_⟩, Bool.not_eq_false _ ▸ hcalloc, Bool.not_eq_false _ ▸ hpool,
        Bool.not_eq_false _ ▸ htk⟩
      exact not_not.mp fun hi' => hargs (Or.inr (Or.inr ⟨i, hi, hi'⟩))
    refine iff_of_false ?_ (not_not.mpr hr)
    rcases compileLoop_spec (v := v) (pcChain v tab S tasks).prog S with hloop | hloop
    · rw [hloop] at h
      cases h
    · rw [hloop] at h
      cases h
      nofun

theorem orkPcCompile_ok {pc : PcChain R} {live : List PcBuf} (h : orkPcCompile v tab S tasks = .ok (pc, live)) :
    pc = pcChain v tab S tasks ∧ 1 ≤ S ∧ ∀ i < S, pcAccepts tab (tasks i) := by
  unfold orkPcCompile at h
  split at h
  · cases h
  · next hargs =>
    split at h
    · cases h
    split at h
    · cases h
    split at h
    · cases h
    have hall : ∀ i < S, pcAccepts tab (tasks i) := fun i hi =>
      not_not.mp fun hi' => hargs (Or.inr (Or.inr ⟨i, hi, hi'⟩))
    rcases compileLoop_spec (v := v) (pcChain v tab S tasks).prog S with hloop | hloop
    · rw [hloop] at h
      cases h
      exact ⟨rfl, by omega, hall⟩
    · rw [hloop] at h
      cases h

end

/-! ### One chain -/

/-- The programs of a chain are alike and write apart from each other, in the domain they are submitted to. -/
structure PcChain.Wired (pc : PcChain R) (imports : Bool) : Prop where
  pos : 1 ≤ pc.S
  shape : ∀ i < pc.S, (pc.prog i).mc = 1 ∧ (pc.prog i).a = 0 ∧ (pc.prog i).Nc = pc.N ∧ (pc.prog i).stride = pc.N
  within : ∀ i < pc.S, pc.within i = true
  out : ∀ i < pc.S, (pc.out i).domain = pc.dom
  apart : ∀ i < pc.S, ∀ j < pc.S, i ≠ j →
    (pc.prog i).c + pc.N ≤ (pc.prog j).c ∨ (pc.prog j).c + pc.N ≤ (pc.prog i).c
  room : ∀ i < pc.S, (pc.out i).imported = true →
    imports = true ∧ (pc.out i).dma ≤ (pc.prog i).c ∧ (pc.prog i).c + pc.N ≤ (pc.out i).dma + (pc.out i).size

namespace PcChain

variable {pc : PcChain R} {v : PcEnv R} {imports : Bool} {sent : R} {s : PcState R} {i j n x : Nat}

/-- The last word of an output is none of another's. -/
theorem Wired.seedAt_ne (h : pc.Wired imports) (hi : i < pc.S) (hj : j < pc.S) (hij : i ≠ j) (hn : n < pc.N) :
    (pc.prog i).c + n ≠ pc.seedAt j := by
  unfold seedAt
  rcases h.apart i hi j hj hij with hle | hle <;> omega

theorem Wired.cell_ne (h : pc.Wired imports) (hi : i < pc.S) (hj : j < pc.S) (hij : i ≠ j) (hn : n < pc.N) {n' : Nat}
    (hn' : n' < pc.N) : (pc.prog i).c + n ≠ (pc.prog j).c + n' := by
  rcases h.apart i hi j hj hij with hle | hle <;> omega

theorem orkPcSeed_seedAt (hi : i < pc.S) (m : Nat → Nat → R) :
    pc.orkPcSeed sent m (pc.out i).domain (pc.seedAt i) = sent :=
  if_pos ⟨i, hi, rfl, rfl⟩

variable [NonUnitalNonAssocSemiring R]

/-- What program `i` computes from the A of the last run. -/
def value (pc : PcChain R) (s : PcState R) (i n : Nat) : R := (pc.prog i).value 32 (s.A i) (pc.weight i) 0 n

theorem execAt_cell (h : pc.Wired imports) (hi : i < pc.S) (hA : ∀ k < (pc.prog i).Kp, s.ascr i k = s.A i k)
    (hn : n < pc.N) : pc.execAt v s i pc.dom ((pc.prog i).c + n) = pc.value s i n := by
  obtain ⟨hmc, ha, hNc, hstride⟩ := h.shape i hi
  have hcell := Program.run_cell (p := pc.prog i) (A := s.ascr i) (W := pc.weight i) 32 (by omega) (s.mem pc.dom)
    (r := 0) (n := n) (by omega) (by omega)
  rw [Nat.zero_mul, Nat.add_zero] at hcell
  rw [execAt, if_pos (h.within i hi), Function.update_self, hcell]
  refine dot_congr (fun k hk => ?_) fun _ _ => rfl
  rw [ha, Nat.zero_mul, Nat.zero_add]
  exact hA k hk

theorem execAt_frame (h : pc.Wired imports) (hi : i < pc.S) (hx : ∀ n < pc.N, (pc.prog i).c + n ≠ x) :
    pc.execAt v s i pc.dom x = s.mem pc.dom x := by
  obtain ⟨hmc, -, hNc, -⟩ := h.shape i hi
  rw [execAt, if_pos (h.within i hi), Function.update_self]
  apply Program.run_frame
  intro r n hr hn
  obtain rfl : r = 0 := by omega
  rw [Nat.zero_mul, Nat.add_zero]
  exact hx n (by omega)

/-! ### What a run keeps -/

/-- The first `j` programs of a pass are done, the others have not touched their sentinels. -/
structure Flight (pc : PcChain R) (sent : R) (s : PcState R) (j : Nat) : Prop where
  le : j ≤ pc.S
  queue : s.queue = (List.range pc.S).drop j ∨ s.queue = []
  done : ∀ i < j, ∀ n < pc.N, s.mem pc.dom ((pc.prog i).c + n) = pc.value s i n
  kept : ∀ i, j ≤ i → i < pc.S → s.mem pc.dom (pc.seedAt i) = sent
  staged : ∀ i < pc.S, ∀ k < (pc.prog i).Kp, s.ascr i k = s.A i k

/-- Every output holds its product, as the CPU reads it. -/
def Holding (pc : PcChain R) (s : PcState R) : Prop := ∀ i < pc.S, ∀ n < pc.N, pc.seen s i n = pc.value s i n

/-- What is known in each phase. -/
def Standing (pc : PcChain R) (sent : R) (s : PcState R) : PcPhase → Prop
  | .resting => True
  | .returned r => r = (pc.S : Int) - 1 → s.queue = [] ∧ pc.Holding s
  | .warming => ∃ j, pc.Flight sent s j
  | .seeded => pc.Flight sent s 0 ∧ s.queue = []
  | .polling => ∃ j, pc.Flight sent s j

/-- The invariant of the histories of a chain: the buffers that need a sync are where `outbuf` points. -/
structure Inv (pc : PcChain R) (sent : R) (s : PcState R) : Prop where
  table : ∀ i < pc.S, (pc.out i).imported = true → s.tab[pc.outbuf i]? = some (pc.out i)
  standing : pc.Standing sent s s.phase

/-- The device runs the next program of a pass. -/
theorem Flight.exec (h : pc.Wired imports) (hf : pc.Flight sent s j) {rest : List Nat} (hq : s.queue = i :: rest) :
    pc.Flight sent { s with mem := pc.execAt v s i, queue := rest } (j + 1) := by
  have hdrop : i :: rest = (List.range pc.S).drop j := by
    rcases hf.queue with hq' | hq'
    · rw [← hq, hq']
    · rw [hq'] at hq
      cases hq
  have hj : j < pc.S := by
    refine Nat.not_le.mp fun hle => ?_
    rw [List.drop_eq_nil_of_le (by rwa [List.length_range])] at hdrop
    cases hdrop
  rw [List.drop_eq_getElem_cons (by rwa [List.length_range]), List.getElem_range] at hdrop
  obtain ⟨rfl, rfl⟩ := List.cons_eq_cons.mp hdrop
  constructor
  case le => exact hj
  case queue => exact Or.inl rfl
  case done =>
    intro i' hi' n hn
    change pc.execAt v s i pc.dom ((pc.prog i').c + n) = pc.value s i' n
    rcases Nat.lt_or_eq_of_le (Nat.le_of_lt_succ hi') with hlt | rfl
    · rw [execAt_frame h hj fun n' hn' => h.cell_ne hj (by omega) (by omega) hn' hn]
      exact hf.done i' hlt n hn
    · exact execAt_cell h hj (hf.staged _ hj) hn
  case kept =>
    intro i' hi' hS
    change pc.execAt v s i pc.dom (pc.seedAt i') = sent
    rw [execAt_frame h hj fun n' hn' => h.seedAt_ne hj hS (by omega) hn']
    exact hf.kept i' (by omega) hS
  case staged => exact hf.staged

/-- The table, the cache and the phase do not matter to a pass, nor does a reset. -/
theorem Flight.congr (hf : pc.Flight sent s j) {t : PcState R} (hmem : t.mem = s.mem) (hascr : t.ascr = s.ascr)
    (hA : t.A = s.A) (hq : t.queue = s.queue ∨ t.queue = []) : pc.Flight sent t j := by
  constructor
  case le => exact hf.le
  case queue =>
    rcases hq with hq | hq
    · rw [hq]
      exact hf.queue
    · exact Or.inr hq
  case done =>
    intro i hi n hn
    rw [hmem, value, hA]
    exact hf.done i hi n hn
  case kept =>
    rw [hmem]
    exact hf.kept
  case staged =>
    rw [hascr, hA]
    exact hf.staged

/-- Nor does the table to what is known at rest. -/
theorem Standing.retable (hrest : s.atRest) (hst : pc.Standing sent s s.phase) (tab : List DmaBuf) :
    pc.Standing sent { s with tab := tab } s.phase := by
  unfold PcState.atRest at hrest
  cases hphase : s.phase <;> rw [hphase] at hrest hst
  case resting => exact trivial
  case returned => exact hst
  all_goals exact hrest.elim

/-- Seeding starts a pass over. -/
theorem flight_seed (h : pc.Wired imports) {t : PcState R} (hq : t.queue = List.range pc.S ∨ t.queue = [])
    (hmem : t.mem = pc.orkPcSeed sent s.mem) (hA : ∀ i < pc.S, ∀ k < (pc.prog i).Kp, t.ascr i k = t.A i k) :
    pc.Flight sent t 0 := by
  constructor
  case le => exact Nat.zero_le _
  case queue => exact hq
  case done => nofun
  case kept =>
    intro i _ hi
    rw [hmem, ← h.out i hi]
    exact orkPcSeed_seedAt hi s.mem
  case staged => exact hA

variable [DecidableEq R]

theorem Flight.of_landed (h : pc.Wired imports) (hf : pc.Flight sent s j) (hl : pc.landed sent s (pc.S - 1) = true) :
    j = pc.S ∧ s.queue = [] := by
  have hpos := h.pos
  have hj : j = pc.S := by
    refine Nat.le_antisymm hf.le (Nat.not_lt.mp fun hlt => ?_)
    have hne := of_decide_eq_true hl
    rw [h.out _ (by omega)] at hne
    exact hne (hf.kept (pc.S - 1) (by omega) (by omega))
  refine ⟨hj, ?_⟩
  rcases hf.queue with hq | hq
  · rw [hq, hj]
    exact List.drop_eq_nil_of_le (Nat.le_of_eq List.length_range)
  · exact hq

omit [NonUnitalNonAssocSemiring R] in
/-- The poll ends at the last task only if that has landed. -/
theorem landed_of_highest (hpos : 1 ≤ pc.S) (hhi : (pc.S : Int) - 1 ≤ pc.highest sent s) :
    pc.landed sent s (pc.S - 1) = true := by
  have hlt : ∀ n : Nat, (List.range n).foldl (fun hi i => if pc.landed sent s i = true then (i : Int) else hi) (-1) < n := by
    intro n
    induction n with
    | zero => exact Int.negSucc_lt_zero 0
    | succ n ih =>
        rw [List.range_succ, List.foldl_append, List.foldl_cons, List.foldl_nil]
        split <;> omega
  obtain ⟨n, hn⟩ := Nat.exists_eq_add_of_le' hpos
  have hhi' := hhi
  rw [highest, hn, List.range_succ, List.foldl_append, List.foldl_cons, List.foldl_nil] at hhi'
  rw [hn, Nat.add_sub_cancel]
  by_cases hl : pc.landed sent s n = true
  · exact hl
  · rw [if_neg hl] at hhi'
    have := hlt n
    omega

omit [NonUnitalNonAssocSemiring R] [DecidableEq R] in
/-- After the sync the CPU reads what is in memory. -/
theorem seen_syncOut (h : pc.Wired imports) (hi : i < pc.S) (hn : n < pc.N)
    (htab : (pc.out i).imported = true → s.tab[pc.outbuf i]? = some (pc.out i)) (p : PcPhase) :
    pc.seen { s with cache := pc.syncOut imports s, phase := p } i n = s.mem pc.dom ((pc.prog i).c + n) := by
  unfold seen
  rw [h.out i hi]
  split
  · next himp =>
    obtain ⟨himports, hlo, hhi⟩ := h.room i hi himp
    exact if_pos ⟨i, hi, pc.out i, htab himp, fun _ => himports, (h.out i hi).symm, by omega, by omega⟩
  · rfl

/-- The steps after which the cached addresses and pointers still hold: no free moves an imported buffer that holds a C, and
no pass is seeded while programs of an earlier one are pending. -/
def Kept (pc : PcChain R) (s : PcState R) : PcEvent R → Prop
  | .dmaFree ptr => ptr ∈ s.tab.map DmaBuf.cpu → ∀ i < pc.S, (pc.out i).imported = true → pc.outbuf i + 1 < s.tab.length
  | .run _ _ => s.queue = []
  | .warmLook timeout => timeout = true → s.queue = []
  | _ => True

instance (pc : PcChain R) (s : PcState R) : (e : PcEvent R) → Decidable (pc.Kept s e)
  | .dmaFree _ => inferInstanceAs (Decidable (_ → _))
  | .run _ _ => inferInstanceAs (Decidable (_ = _))
  | .warmLook _ => inferInstanceAs (Decidable (_ → _))
  | .dmaAlloc _ | .other _ _ | .submit _ | .look _ | .exec | .reset => inferInstanceAs (Decidable True)

theorem orkDmaFree_of_not_mem {tab : List DmaBuf} {ptr : Nat} (h : ptr ∉ tab.map DmaBuf.cpu) : orkDmaFree tab ptr = tab := by
  have hnone : tab.findIdx? (fun b => b.cpu == ptr) = none := by
    apply List.findIdx?_eq_none_iff.mpr
    intro b hb
    exact beq_eq_false_iff_ne.mpr fun hcpu => h (hcpu ▸ List.mem_map_of_mem hb)
  rw [orkDmaFree, List.swapRemove, hnone]

/-- One step. -/
theorem inv_next (h : pc.Wired imports) {e : PcEvent R} (he : pc.Enabled s e) (hk : pc.Kept s e) (hs : pc.Inv sent s) :
    pc.Inv sent (pc.next v sent imports s e) := by
  have hpos := h.pos
  obtain ⟨htab, hst⟩ := hs
  cases e with
  | dmaAlloc b =>
      refine ⟨fun i hi himp => ?_, Standing.retable he.1 hst _⟩
      have hget := htab i hi himp
      obtain ⟨hlt, -⟩ := List.getElem?_eq_some_iff.mp hget
      exact (List.getElem?_append_left hlt).trans hget
  | dmaFree ptr =>
      refine ⟨fun i hi himp => ?_, Standing.retable he.1 hst _⟩
      by_cases hmem : ptr ∈ s.tab.map DmaBuf.cpu
      · refine List.getElem?_swapRemove (hk hmem i hi himp) (htab i hi himp) ?_
        exact fun hcpu => he.2 i hi (beq_iff_eq.mp hcpu)
      · exact (congrArg (·[pc.outbuf i]?) (orkDmaFree_of_not_mem hmem)).trans (htab i hi himp)
  | other mem cache => exact ⟨htab, trivial⟩
  | run A accepted =>
      have hq : s.queue = [] := hk
      have hstaged : ∀ i < pc.S, ∀ k < (pc.prog i).Kp,
          (if i < pc.S ∧ k < (pc.prog i).Kp then A i k else s.ascr i k) = A i k := fun i hi k hk' => if_pos ⟨hi, hk'⟩
      unfold next
      dsimp only
      split
      · exact ⟨htab, flight_seed h (Or.inr hq) rfl hstaged, hq⟩
      · split
        · exact ⟨htab, 0, flight_seed h (Or.inl (by rw [hq, List.nil_append])) rfl hstaged⟩
        · exact ⟨htab, flight_seed h (Or.inr hq) rfl hstaged, hq⟩
  | warmLook timeout =>
      have hphase : s.phase = .warming := he
      rw [hphase] at hst
      obtain ⟨j, hf⟩ := hst
      unfold next
      dsimp only
      split
      · next hend =>
        have hq : s.queue = [] := by
          rcases hend with hall | htime
          · exact (hf.of_landed h (hall _ (by omega))).2
          · exact hk htime
        exact ⟨htab, flight_seed h (Or.inr hq) rfl hf.staged, hq⟩
      · refine ⟨htab, ?_⟩
        rw [hphase]
        exact ⟨j, hf⟩
  | submit accepted =>
      have hphase : s.phase = .seeded := he
      rw [hphase] at hst
      obtain ⟨hf, hq⟩ := hst
      unfold next
      dsimp only
      split
      · refine ⟨htab, 0, hf.le, Or.inl ?_, hf.done, hf.kept, hf.staged⟩
        rw [hq, List.nil_append, List.drop_zero]
      · refine ⟨htab, fun hr => ?_⟩
        omega
  | look timeout =>
      have hphase : s.phase = .polling := he
      rw [hphase] at hst
      obtain ⟨j, hf⟩ := hst
      unfold next
      dsimp only
      split
      · refine ⟨htab, fun hr => ?_⟩
        obtain ⟨hj, hq⟩ := hf.of_landed h (landed_of_highest hpos (Int.le_of_eq hr.symm))
        refine ⟨hq, fun i hi n hn => ?_⟩
        rw [seen_syncOut h hi hn (htab i hi)]
        exact hf.done i (hj ▸ hi) n hn
      · refine ⟨htab, ?_⟩
        rw [hphase]
        exact ⟨j, hf⟩
  | exec =>
      unfold next
      dsimp only
      cases hq : s.queue with
      | nil => exact absurd hq he
      | cons i rest =>
          dsimp only
          refine ⟨htab, ?_⟩
          dsimp only
          cases hphase : s.phase with
          | resting => exact trivial
          | returned r =>
              intro hr
              rw [hphase] at hst
              rw [(hst hr).1] at hq
              cases hq
          | seeded =>
              rw [hphase] at hst
              rw [hst.2] at hq
              cases hq
          | warming =>
              rw [hphase] at hst
              obtain ⟨j, hf⟩ := hst
              exact ⟨j + 1, (hf.exec h hq).congr rfl rfl rfl (Or.inl rfl)⟩
          | polling =>
              rw [hphase] at hst
              obtain ⟨j, hf⟩ := hst
              exact ⟨j + 1, (hf.exec h hq).congr rfl rfl rfl (Or.inl rfl)⟩
  | reset =>
      refine ⟨htab, ?_⟩
      change pc.Standing sent { s with queue := [] } s.phase
      cases hphase : s.phase with
      | resting => exact trivial
      | returned r =>
          rw [hphase] at hst
          exact fun hr => ⟨rfl, (hst hr).2⟩
      | seeded =>
          rw [hphase] at hst
          exact ⟨hst.1.congr rfl rfl rfl (Or.inr rfl), rfl⟩
      | warming =>
          rw [hphase] at hst
          obtain ⟨j, hf⟩ := hst
          exact ⟨j, hf.congr rfl rfl rfl (Or.inr rfl)⟩
      | polling =>
          rw [hphase] at hst
          obtain ⟨j, hf⟩ := hst
          exact ⟨j, hf.congr rfl rfl rfl (Or.inr rfl)⟩

end PcChain

/-! ### Whole histories -/

section

variable {v : PcEnv R} {imports : Bool} {tab : List DmaBuf} {S : Nat} {tasks : Nat → PcTask R}

/-- The tasks a chain serves: as wide as the first, weights and outputs in the domain of the first, which is the active one,
outputs apart from each other; and of an output in an imported buffer, that it fits there and that the sync reaches it. -/
structure PcUniform (v : PcEnv R) (imports : Bool) (tab : List DmaBuf) (S : Nat) (tasks : Nat → PcTask R) : Prop where
  active : v.active = (tasks 0).domain
  cols : ∀ i < S, (tasks i).w.N = (tasks 0).w.N
  weights : ∀ i < S, (tasks i).domain = (tasks 0).domain
  outputs : ∀ i < S, (outEntry tab (tasks i)).2.domain = (tasks 0).domain
  apart : ∀ i < S, ∀ j < S, i ≠ j → outWord tab (tasks i) + (tasks i).w.N ≤ outWord tab (tasks j) ∨
    outWord tab (tasks j) + (tasks j).w.N ≤ outWord tab (tasks i)
  imported : ∀ i < S, (outEntry tab (tasks i)).2.imported = true →
    imports = true ∧ (tasks i).C + (tasks i).w.N ≤ (outEntry tab (tasks i)).2.cpu + (outEntry tab (tasks i)).2.size

/-- What the lookup of C finds. -/
theorem outEntry_spec {t : PcTask R} (h : pcAccepts tab t) :
    tab[(outEntry tab t).1]? = some (outEntry tab t).2 ∧ (outEntry tab t).2.cpu ≤ t.C := by
  obtain ⟨k, hk⟩ := Option.isSome_iff_exists.mp h.2.2.2
  obtain ⟨hlt, hp, -⟩ := List.findIdx?_eq_some_iff_getElem.mp hk
  have hentry : outEntry tab t = (k, tab[k]) := by
    unfold outEntry
    rw [hk]
    dsimp only [Option.getD_some]
    rw [List.getD_eq_getElem?_getD, List.getElem?_eq_getElem hlt, Option.getD_some]
  rw [hentry]
  exact ⟨List.getElem?_eq_getElem hlt, (of_decide_eq_true hp).1⟩

theorem PcUniform.wired (h : PcUniform v imports tab S tasks) (hS : 1 ≤ S) (hall : ∀ i < S, pcAccepts tab (tasks i)) :
    (pcChain v tab S tasks).Wired imports := by
  constructor
  case pos => exact hS
  case shape => exact fun i _ => ⟨rfl, rfl, rfl, rfl⟩
  case within => exact fun i hi => decide_eq_true ⟨h.active, h.weights i hi⟩
  case out => exact h.outputs
  case apart =>
    intro i hi j hj hij
    have hapart := h.apart i hi j hj hij
    rwa [h.cols i hi, h.cols j hj] at hapart
  case room =>
    intro i hi himp
    obtain ⟨himports, hroom⟩ := h.imported i hi himp
    rw [h.cols i hi] at hroom
    have hle := (outEntry_spec (hall i hi)).2
    refine ⟨himports, Nat.le_add_right _ _, ?_⟩
    change (outEntry tab (tasks i)).2.dma + ((tasks i).C - (outEntry tab (tasks i)).2.cpu) + (tasks 0).w.N ≤
      (outEntry tab (tasks i)).2.dma + (outEntry tab (tasks i)).2.size
    omega

variable [NonUnitalNonAssocSemiring R] {c : OrkNpu} {e : F16Knobs} {w : OrkW R} {B : Nat → R}

omit [NonUnitalNonAssocSemiring R] in
/-- The tile the program of a task reads holds all of its matrix. -/
theorem pcTile_tiled (hc : c.soc ∈ socTable) (hw : Holds (weightGeom c e .i8 w.K w.N) B w) (hdt : w.dt = .i8)
    (hSn : w.Sn = 1) (hSk : w.Sk = 1 ∨ w.Bf.isSome) : Tiled 32 B w.N ⟨0, w.N, 0, w.K⟩ (pcTile w) := by
  have hg := weightGeom_blocks hc e .i8 w.K w.N
  have hnb : ntSz w.dt = 32 := by rw [hdt]; rfl
  have hN : pieceLen (weightGeom c e .i8 w.K w.N).N (weightGeom c e .i8 w.K w.N).NMAX 0 = w.N :=
    pieceLen_of_le (le_of_pieces_eq_one hg.NMAX_pos (hw.Sn.symm.trans hSn))
  have hns : 0 < (weightGeom c e .i8 w.K w.N).Sn := by rw [← hw.Sn, hSn]; exact Nat.one_pos
  unfold pcTile
  cases hBf : w.Bf with
  | some f =>
      have htile := hw.Bf f hBf 0 hns
      rw [hnb] at htile
      dsimp only [fullTile] at htile
      rw [hN, Nat.zero_mul] at htile
      exact htile
  | none =>
      have hSk1 : w.Sk = 1 := by
        rcases hSk with h | h
        · exact h
        · rw [hBf] at h
          cases h
      have hK : pieceLen (weightGeom c e .i8 w.K w.N).K (weightGeom c e .i8 w.K w.N).KS 0 = w.K :=
        pieceLen_of_le (le_of_pieces_eq_one hg.KS_pos (hw.Sk.symm.trans hSk1))
      have hks : 0 < (weightGeom c e .i8 w.K w.N).Sk := by rw [← hw.Sk, hSk1]; exact Nat.one_pos
      have htile := hw.Bb 0 0 hns hks
      rw [hnb] at htile
      dsimp only [Geom.tile] at htile
      rw [hN, hK, Nat.zero_mul, Nat.zero_mul, Nat.zero_mul] at htile
      exact htile

theorem pcChain_value {i n : Nat} (htile : Tiled 32 B (tasks i).w.N ⟨0, (tasks i).w.N, 0, (tasks i).w.K⟩ (pcTile (tasks i).w))
    (s : PcState R) (hn : n < (tasks i).w.N) :
    (pcChain v tab S tasks).value s i n = matmul (s.A i) B (tasks i).w.K (tasks i).w.N 0 n := by
  refine dot_congr (fun k _ => ?_) fun k hk => ?_
  · change s.A i (0 + 0 * (tasks i).w.K + k) = _
    rw [Nat.zero_add]
  · have hcell := htile k n hk hn
    rw [Nat.zero_add, Nat.zero_add] at hcell
    rw [← hcell]
    exact congrArg (pcTile (tasks i).w) (Nat.zero_add _)

/-- When a run has returned S-1, every C is the product. -/
def PcDelivered (pc : PcChain R) (tasks : Nat → PcTask R) (B : Nat → Nat → R) (s : PcState R) : Prop :=
  s.phase = .returned ((pc.S : Int) - 1) → ∀ i < pc.S, ∀ n < (tasks i).w.N,
    pc.seen s i n = matmul (s.A i) (B i) (tasks i).w.K (tasks i).w.N 0 n

end

section

variable [NonUnitalNonAssocSemiring R] [DecidableEq R]

/-- A failed compile leaves nothing behind exactly if it fails before the activation buffers. A chain that serves its tasks
delivers in every history that keeps the table entries of the outputs in place and starts no pass over an unfinished one. -/
theorem ork_pc_delivers {c : OrkNpu} (hc : c.soc ∈ socTable) (e : F16Knobs) (v : PcEnv R) (sent : R) (imports : Bool)
    (tab : List DmaBuf) (S : Nat) (tasks : Nat → PcTask R) (B : Nat → Nat → R)
    (hw : ∀ i < S, Holds (weightGeom c e .i8 (tasks i).w.K (tasks i).w.N) (B i) (tasks i).w) :
    (∀ left, orkPcCompile v tab S tasks = .error left → (left = [] ↔ ¬ Reaches v tab S tasks)) ∧
      ∀ pc live, orkPcCompile v tab S tasks = .ok (pc, live) → PcUniform v imports tab S tasks →
        ∀ mem cache ascr queue es,
          System.Runs pc.Kept pc.Enabled (pc.next v sent imports) (.compiled tab mem cache ascr queue) es →
            PcDelivered pc tasks B (es.foldl (pc.next v sent imports) (.compiled tab mem cache ascr queue)) := by
  refine ⟨fun left h => orkPcCompile_error h, fun pc live h hu mem cache ascr queue es hruns hret i hi n hn => ?_⟩
  obtain ⟨rfl, hS, hall⟩ := orkPcCompile_ok h
  have hwired := hu.wired hS hall
  have hstart : (pcChain v tab S tasks).Inv sent (.compiled tab mem cache ascr queue) :=
    ⟨fun i hi _ => (outEntry_spec (hall i hi)).1, trivial⟩
  have hinv := System.Runs.invariant (I := (pcChain v tab S tasks).Inv sent)
    (fun s e hen hk hs => PcChain.inv_next hwired hen hk hs) hstart hruns
  have hst := hinv.standing
  rw [hret] at hst
  obtain ⟨-, hhold⟩ := hst rfl
  obtain ⟨⟨hdt, -, hSn⟩, -, hSk, -⟩ := hall i hi
  have hn0 : n < (tasks 0).w.N := by rwa [← hu.cols i hi]
  rw [hhold i hi n hn0]
  exact pcChain_value (pcTile_tiled hc (hw i hi) hdt hSn hSk) _ hn

end

/-- A weight of ones. -/
def onesW : OrkW Int := ⟨.i8, 512, 32, 1, 1, fun _ _ => 1, none⟩

/-- Two rows into an imported buffer, next to a buffer of something else. -/
def twoRows : Nat → PcTask Int := fun i => ⟨onesW, 0, 1, 200 + 32 * i⟩

def twoRowsTab : List DmaBuf := [⟨200, 64, 2000, 0, true⟩, ⟨0, 100, 1000, 0, false⟩]

/-- Every buffer granted and every program let through, but the activation buffers only if `ascr`. -/
def grants (ascr : Bool) : PcEnv Int := ⟨true, true, true, fun _ => ascr, fun _ _ => true, 0, fun _ m => m⟩

theorem onesW_holds : Holds (weightGeom ⟨3, socRk3588, 0⟩ ⟨0, 0⟩ .i8 512 32) (fun _ => 1) onesW where
  K := rfl
  N := rfl
  Sk := by decide
  Sn := by decide
  K32 := by decide
  Nnb := by decide
  Bb _ _ _ _ := fun _ _ _ _ => rfl
  Bf _ h := nomatch h

theorem ork_pc_delivers_two_rows :
    PcDelivered (pcChain (grants true) twoRowsTab 2 twoRows) twoRows (fun _ _ => 1)
      ([.dmaFree 0, .run (fun _ _ => 1) true, .exec, .exec, .warmLook false, .submit true, .exec, .exec, .look false].foldl
        ((pcChain (grants true) twoRowsTab 2 twoRows).next (grants true) 0 true)
        (.compiled twoRowsTab (fun _ _ => 7) (fun _ _ => 7) (fun _ _ => 7) [])) :=
  (ork_pc_delivers (c := ⟨3, socRk3588, 0⟩) (by decide) ⟨0, 0⟩ (grants true) 0 true twoRowsTab 2 twoRows (fun _ _ => 1)
    fun _ _ => onesW_holds).2 _ _ rfl
    { active := rfl
      cols := fun _ _ => rfl
      weights := fun _ _ => rfl
      outputs := by decide
      apart := by decide
      imported := by decide } _ _ _ _ _ (by decide +kernel)

/-- The buffer of a task array whose activation buffers are refused stays behind. -/
theorem ork_pc_compile_leaks : ¬ ∀ (v : PcEnv Int) (tab : List DmaBuf) (S : Nat) (tasks : Nat → PcTask Int) (left : List PcBuf),
    orkPcCompile v tab S tasks = .error left → left = [] := by
  intro h
  have := h (grants false) twoRowsTab 2 twoRows [.tk] rfl
  cases this

end OrkDriver.Core
