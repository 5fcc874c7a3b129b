import OrkDriver.Core.McChainLayout
import OrkDriver.Lib.Span

/-!
The chains of `orki_dyn_begin_mc_impl` as a whole: nothing is written that was not counted, every program links to the next
of its core, and no two write the same byte.
-/

namespace OrkDriver.Core

open OrkDriver.Lib OrkDriver.Npu OrkDriver.Pack OrkDriver.Run

variable {R : Type*} {c : OrkNpu} {v : McEnv} {x : McCtx} {tasks : Nat → DynTask R}

/-! ### What is written -/

/-- The programs a core has so far: those of `l`, numbered and linked in order, their activations within the buffer, their
ops where `base` says. -/
structure Wrote (x : McCtx) (tasks : Nat → DynTask R) (base : Nat → Nat) (l : List (Nat × Emit)) (progs : List McProg)
    (pp : Nat) : Prop where
  emits : progs.map (fun q => (q.gi, q.e)) = l
  count : pp = progs.length
  links : progs.map (fun q => (q.pp, q.next)) =
    (List.range progs.length).map fun j => (j, if j + 1 < x.Pcore then some (j + 1) else none)
  acts : ∀ q ∈ progs, q.aoff + (q.e.p.a + q.e.p.mc * q.e.p.Kp) * esz (tasks q.gi).w.dt ≤ x.AF
  outs : ∀ q ∈ progs, q.ooff = base q.gi

/-- There is no scratch for the outputs. -/
def McCtx.Homeless (x : McCtx) : Prop := x.direct = false ∧ x.CC = none

section

variable {base : Nat → Nat} {l : List (Nat × Emit)} {b b' : McState} {gi aoff ooff : Nat}

theorem mcEmit_spec {e : Emit} (h : mcEmit v x gi aoff ooff b e = some b') (hw : Wrote x tasks base l b.progs b.pp)
    (hact : aoff + (e.p.a + e.p.mc * e.p.Kp) * esz (tasks gi).w.dt ≤ x.AF) (hout : ooff = base gi) :
    Wrote x tasks base (l ++ [(gi, e)]) b'.progs b'.pp ∧ b'.astage = b.astage ∧
      ¬ (x.Homeless ∧ ooff + e.p.c * 4 = 0) := by
  unfold mcEmit at h
  split at h
  · cases h
  · next hok =>
    obtain rfl := Option.some.inj h
    refine ⟨?_, rfl, ?_⟩
    · constructor
      case emits =>
        rw [List.map_append, hw.emits]
        rfl
      case count =>
        rw [List.length_append, hw.count]
        rfl
      case links =>
        rw [List.map_append, hw.links, List.length_append, List.length_singleton, List.range_succ, List.map_append, hw.count]
        rfl
      case acts =>
        intro q hq
        rcases List.mem_append.mp hq with hq | hq
        · exact hw.acts q hq
        · obtain rfl := List.mem_singleton.mp hq
          exact hact
      case outs =>
        intro q hq
        rcases List.mem_append.mp hq with hq | hq
        · exact hw.outs q hq
        · obtain rfl := List.mem_singleton.mp hq
          exact hout
    · rintro ⟨⟨hdir, hnone⟩, hzero⟩
      apply hok
      rw [McCtx.refuses, hdir, hnone, hzero]
      rfl

/-- All programs of an op whose activations are staged as they are. -/
theorem mcEmits_spec {emits : List Emit} (h : emits.foldlM (mcEmit v x gi aoff ooff) b = some b')
    (hw : Wrote x tasks base l b.progs b.pp)
    (hact : ∀ e ∈ emits, aoff + (e.p.a + e.p.mc * e.p.Kp) * esz (tasks gi).w.dt ≤ x.AF) (hout : ooff = base gi) :
    Wrote x tasks base (l ++ emits.map fun e => (gi, e)) b'.progs b'.pp ∧
      ∀ e ∈ emits.head?, ¬ (x.Homeless ∧ ooff + e.p.c * 4 = 0) := by
  induction emits generalizing b l with
  | nil =>
      obtain rfl := Option.some.inj h
      exact ⟨by rwa [List.map_nil, List.append_nil], nofun⟩
  | cons e emits ih =>
      rw [List.foldlM_cons] at h
      cases he : mcEmit v x gi aoff ooff b e with
      | none =>
          rw [he] at h
          cases h
      | some b1 =>
          rw [he] at h
          obtain ⟨hw1, -, hno⟩ := mcEmit_spec he hw (hact e List.mem_cons_self) hout
          obtain ⟨hw2, -⟩ := ih h hw1 fun e' he' => hact e' (List.mem_cons_of_mem _ he')
          rw [List.append_assoc] at hw2
          refine ⟨hw2, fun e' he' => ?_⟩
          obtain rfl := Option.some.inj he'
          exact hno

/-- All K-slices of an op. -/
theorem mcSlices_spec {t : DynTask R} (ht : tasks gi = t) (hesz : esz t.w.dt = 1) {slices : List Nat}
    (h : slices.foldlM (mcSlice c v x gi ooff t) b = some b') (hw : Wrote x tasks base l b.progs b.pp) (hout : ooff = base gi) :
    Wrote x tasks base (l ++ slices.map fun ks => (gi, ksplitEmit c t.w t.M ks)) b'.progs b'.pp ∧
      ∀ ks ∈ slices.head?, ¬ (x.Homeless ∧ ooff + (ksplitEmit c t.w t.M ks).p.c * 4 = 0) := by
  induction slices generalizing b l with
  | nil =>
      obtain rfl := Option.some.inj h
      exact ⟨by rwa [List.map_nil, List.append_nil], nofun⟩
  | cons ks slices ih =>
      rw [List.foldlM_cons] at h
      cases he : mcSlice c v x gi ooff t b ks with
      | none =>
          rw [he] at h
          cases h
      | some b1 =>
          rw [he] at h
          unfold mcSlice at he
          dsimp only at he
          split at he
          · cases he
          split at he
          · cases he
          next hAF =>
          have hact : b.astage + ((ksplitEmit c t.w t.M ks).p.a + (ksplitEmit c t.w t.M ks).p.mc *
              (ksplitEmit c t.w t.M ks).p.Kp) * esz (tasks gi).w.dt ≤ x.AF := by
            rw [ht, hesz, Nat.mul_one]
            change b.astage + (0 + t.M * pieceLen t.w.K c.int8Ks ks) ≤ x.AF
            omega
          obtain ⟨hw1, -, hno⟩ := mcEmit_spec he hw hact hout
          obtain ⟨hw2, -⟩ := ih h hw1
          rw [List.append_assoc] at hw2
          refine ⟨hw2, fun ks' hks' => ?_⟩
          obtain rfl := Option.some.inj hks'
          exact hno

/-- The activations of a program are among the rows of its op. -/
theorem opEmits_acts {w : OrkW R} {M : Nat} {direct : Bool} (hK : ¬ 4096 < w.K) {e : Emit} (he : e ∈ opEmits c w M direct) :
    e.p.a + e.p.mc * e.p.Kp ≤ M * w.K := by
  unfold opEmits at he
  rw [if_neg hK] at he
  split at he
  · obtain ⟨i, hi, rfl⟩ := List.mem_map.mp he
    have hend := piece_le (orkiMtileCap_pos w.K) (List.mem_range.mp hi)
    simp only [orkiI8Synth]
    rw [← Nat.add_mul]
    exact Nat.mul_le_mul_right w.K hend
  · obtain ⟨ns, -, rfl⟩ := List.mem_map.mp he
    dsimp only
    split <;> exact Nat.le_of_eq (Nat.zero_add _)

/-- The first program of an op writes from its start on. -/
theorem opEmits_head {w : OrkW R} {M : Nat} {direct : Bool} {e : Emit} (he : e ∈ (opEmits c w M direct).head?) : e.p.c = 0 := by
  have hzero : ∀ {f : Nat → Emit} {n : Nat}, ((List.range n).map f).head? = some e → e = f 0 := by
    intro f n h
    cases n with
    | zero => cases h
    | succ n =>
        rw [List.range_succ_eq_map] at h
        exact (Option.some.inj h).symm
  unfold opEmits at he
  split at he
  · obtain rfl := hzero he
    simp only [ksplitEmit, orkiI8Synth, Nat.zero_mul]
  split at he
  · obtain rfl := hzero he
    simp only [orkiI8Synth, Nat.zero_mul]
  · obtain rfl := hzero he
    dsimp only
    simp only [Nat.zero_mul, Nat.mul_zero, ite_self]
    split <;> rfl

/-- An op without programs has no output. -/
theorem opEmits_nil {w : OrkW R} (hw : Resident c w) {M : Nat} {direct : Bool} (h : opEmits c w M direct = []) :
    mcOutBytes w M = 0 := by
  have hcount := opEmits_length c w M direct
  rw [h, List.length_nil] at hcount
  unfold mcCount at hcount
  unfold mcOutBytes mcSlices
  split at hcount
  · have := hw.Sk_pos
    omega
  · split at hcount
    · next h64 =>
        have := (lt_pieces_iff (i := 0) (orkiMtileCap_pos w.K)).mpr (show 0 * orkiMtileCap w.K < M by omega)
        omega
    · rw [hw.Sn_eq] at hcount
      have hN : w.N = 0 := Nat.eq_zero_of_not_pos fun hpos =>
        Nat.not_lt_zero _ (Nat.lt_of_lt_of_eq (div_lt_pieces hw.nmax_pos hpos) hcount.symm)
      rw [hN, Nat.mul_zero, Nat.zero_mul]

/-- One task: all its programs are written, and the next task's output starts where this one's ends. -/
theorem mcBuildOp_spec {t0 : DynTask R} (hres : Resident c (tasks gi).w) (hacc : mcAccepts c t0 (tasks gi))
    (h : mcBuildOp c v x tasks b gi = some b') (hw : Wrote x tasks base l b.progs b.pp) (hbase : b.coff = base gi) :
    Wrote x tasks base (l ++ (opEmits c (tasks gi).w (tasks gi).M x.direct).map fun e => (gi, e)) b'.progs b'.pp ∧
      b'.coff = b.coff + mcOutBytes (tasks gi).w (tasks gi).M ∧
      (x.Homeless → b.coff = 0 → opEmits c (tasks gi).w (tasks gi).M x.direct = [] ∧ b'.coff = 0) := by
  obtain ⟨-, -, -, -, hdeep, -⟩ := hacc
  unfold mcBuildOp at h
  dsimp only at h
  obtain ⟨b1, hb1, rfl⟩ := Option.map_eq_some_iff.mp h
  have hmain : Wrote x tasks base (l ++ (opEmits c (tasks gi).w (tasks gi).M x.direct).map fun e => (gi, e)) b1.progs b1.pp ∧
      ∀ e ∈ (opEmits c (tasks gi).w (tasks gi).M x.direct).head?, ¬ (x.Homeless ∧ b.coff + e.p.c * 4 = 0) := by
    by_cases hK : 4096 < (tasks gi).w.K
    · rw [if_pos hK] at hb1
      have hesz : esz (tasks gi).w.dt = 1 := by rw [(hdeep hK).1]; rfl
      obtain ⟨hw1, hno⟩ := mcSlices_spec rfl hesz hb1 hw hbase
      have hemits : opEmits c (tasks gi).w (tasks gi).M x.direct =
          (List.range (tasks gi).w.Sk).map (ksplitEmit c (tasks gi).w (tasks gi).M) := if_pos hK
      rw [hemits, List.map_map, List.head?_map]
      refine ⟨hw1, fun e he => ?_⟩
      obtain ⟨ks, hks, rfl⟩ := Option.map_eq_some_iff.mp he
      exact hno ks hks
    · rw [if_neg hK] at hb1
      have hplain : ∀ emits, opEmits c (tasks gi).w (tasks gi).M x.direct = emits →
          mcPlain v x gi (tasks gi) emits b = some b1 →
          Wrote x tasks base (l ++ emits.map fun e => (gi, e)) b1.progs b1.pp ∧
            ∀ e ∈ emits.head?, ¬ (x.Homeless ∧ b.coff + e.p.c * 4 = 0) := by
        intro emits hemits hb1
        unfold mcPlain at hb1
        dsimp only at hb1
        split at hb1
        · cases hb1
        next hAF =>
        refine mcEmits_spec hb1 hw (fun e he => ?_) hbase
        have := Nat.mul_le_mul_right (esz (tasks gi).w.dt) (opEmits_acts hK (hemits ▸ he))
        omega
      unfold opEmits at hplain ⊢
      rw [if_neg hK] at hplain ⊢
      split at hb1
      · next h64 =>
        rw [if_pos h64] at hplain ⊢
        exact hplain _ rfl hb1
      · next h64 =>
        rw [if_neg h64] at hplain ⊢
        exact hplain _ rfl hb1
  refine ⟨hmain.1, rfl, fun hhome hzero => ?_⟩
  have hnil : opEmits c (tasks gi).w (tasks gi).M x.direct = [] := by
    apply List.head?_eq_none_iff.mp
    refine Option.eq_none_iff_forall_ne_some.mpr fun e he => hmain.2 e he ⟨hhome, ?_⟩
    rw [hzero, opEmits_head he, Nat.zero_mul]
  exact ⟨hnil, by rw [hzero, opEmits_nil hres hnil]⟩

end

/-! ### A core -/

/-- The programs of the tasks `gis`. -/
def taskEmits (c : OrkNpu) (tasks : Nat → DynTask R) (direct : Bool) (gis : List Nat) : List (Nat × Emit) :=
  gis.flatMap fun gi => (opEmits c (tasks gi).w (tasks gi).M direct).map fun e => (gi, e)

theorem taskEmits_snoc (direct : Bool) (gis : List Nat) (gi : Nat) : taskEmits c tasks direct (gis ++ [gi]) =
    taskEmits c tasks direct gis ++ (opEmits c (tasks gi).w (tasks gi).M direct).map fun e => (gi, e) := by
  rw [taskEmits, List.flatMap_append, List.flatMap_singleton]
  rfl

theorem tasksOf_succ {lo hi : Nat} (h : lo ≤ hi) : tasksOf lo (hi + 1) = tasksOf lo hi ++ [hi] := by
  unfold tasksOf
  rw [Nat.succ_sub h, List.range'_1_concat, Nat.add_sub_cancel' h]

variable (tasks) in
theorem mcTotal_succ {lo hi : Nat} (h : lo ≤ hi) (f : OrkW R → Nat → Nat) :
    mcTotal tasks f lo (hi + 1) = mcTotal tasks f lo hi + f (tasks hi).w (tasks hi).M := by
  unfold mcTotal
  rw [tasksOf_succ h, List.map_append, List.sum_append, List.map_singleton, List.sum_singleton]

theorem mcTotal_self (lo : Nat) (f : OrkW R → Nat → Nat) : mcTotal tasks f lo lo = 0 := by
  unfold mcTotal tasksOf
  rw [Nat.sub_self]
  rfl

variable (tasks) in
theorem mcTotal_mono {lo i j : Nat} (hlo : lo ≤ i) (hij : i ≤ j) (f : OrkW R → Nat → Nat) :
    mcTotal tasks f lo i ≤ mcTotal tasks f lo j := by
  induction j, hij using Nat.le_induction with
  | base => exact Nat.le_refl _
  | succ j hij ih =>
      rw [mcTotal_succ tasks (Nat.le_trans hlo hij)]
      exact Nat.le_trans ih (Nat.le_add_right _ _)

/-- The counting loop and the emitting loop agree. -/
theorem taskEmits_length {lo hi : Nat} (h : lo ≤ hi) (direct : Bool) :
    (taskEmits c tasks direct (tasksOf lo hi)).length = mcTotal tasks mcCount lo hi := by
  induction hi, h using Nat.le_induction with
  | base =>
      rw [mcTotal_self, tasksOf, Nat.sub_self]
      rfl
  | succ hi h ih => rw [tasksOf_succ h, taskEmits_snoc, List.length_append, ih, List.length_map, opEmits_length, mcTotal_succ tasks h]

/-- The loop over the tasks of a core: every task is written where the tasks before it end. -/
theorem mcBuild_spec {t0 : DynTask R} {lo hi : Nat} (hle : lo ≤ hi) {b : McState}
    (hres : ∀ gi < hi, Resident c (tasks gi).w) (hacc : ∀ gi < hi, mcAccepts c t0 (tasks gi))
    (h : (tasksOf lo hi).foldlM (mcBuildOp c v x tasks) ⟨0, 0, 0, []⟩ = some b) :
    Wrote x tasks (mcTotal tasks mcOutBytes lo) (taskEmits c tasks x.direct (tasksOf lo hi)) b.progs b.pp ∧
      b.coff = mcTotal tasks mcOutBytes lo hi ∧ (x.Homeless → taskEmits c tasks x.direct (tasksOf lo hi) = [] ∧ b.coff = 0) := by
  induction hi, hle using Nat.le_induction generalizing b with
  | base =>
      rw [tasksOf, Nat.sub_self] at h ⊢
      obtain rfl := Option.some.inj h
      refine ⟨⟨rfl, rfl, rfl, fun q hq => absurd hq List.not_mem_nil, fun q hq => absurd hq List.not_mem_nil⟩, ?_,
        fun _ => ⟨rfl, rfl⟩⟩
      exact (mcTotal_self lo _).symm
  | succ hi hle ih =>
      rw [tasksOf_succ hle, List.foldlM_append] at h
      obtain ⟨b1, hb1, hlast⟩ := Option.bind_eq_some_iff.mp h
      obtain ⟨hw, hcoff, hhome⟩ := ih (fun gi hgi => hres gi (Nat.lt_succ_of_lt hgi))
        (fun gi hgi => hacc gi (Nat.lt_succ_of_lt hgi)) hb1
      rw [List.foldlM_cons] at hlast
      obtain ⟨b2, hb2, hend⟩ := Option.bind_eq_some_iff.mp hlast
      obtain rfl := Option.some.inj hend
      obtain ⟨hw2, hcoff2, hhome2⟩ := mcBuildOp_spec (hres hi (Nat.lt_succ_self hi)) (hacc hi (Nat.lt_succ_self hi)) hb2 hw hcoff
      rw [tasksOf_succ hle, taskEmits_snoc, mcTotal_succ tasks hle]
      refine ⟨hw2, by rw [hcoff2, hcoff], fun hx => ?_⟩
      obtain ⟨hnil, hzero⟩ := hhome hx
      obtain ⟨hnil2, hzero2⟩ := hhome2 hx hzero
      exact ⟨by rw [hnil, hnil2]; rfl, hzero2⟩

/-- A core whose chain was built for tasks `lo` to `hi`. -/
structure McCore.Sound (c : OrkNpu) (v : McEnv) (tasks : Nat → DynTask R) (direct : Bool) (i lo hi : Nat) (k : McCore) : Prop where
  emits : k.progs.map (fun q => (q.gi, q.e)) = taskEmits c tasks direct (tasksOf lo hi)
  count : k.progs.length = mcTotal tasks mcCount lo hi
  links : k.progs.map (fun q => (q.pp, q.next)) =
    (List.range k.progs.length).map fun j => (j, if j + 1 < k.progs.length then some (j + 1) else none)
  fits : k.progs.length * regcmdBytes ≤ (v.bufs i).mrc ∧ k.progs.length * rknpuTaskBytes ≤ (v.bufs i).mtk
  acts : ∀ q ∈ k.progs, q.aoff + (q.e.p.a + q.e.p.mc * q.e.p.Kp) * esz (tasks q.gi).w.dt ≤ k.AF
  outs : ∀ q ∈ k.progs, q.ooff = mcTotal tasks mcOutBytes lo q.gi
  room : direct = false → k.progs ≠ [] → ∃ bytes ∈ k.CC, mcTotal tasks mcOutBytes lo hi ≤ bytes

theorem pageUp_le (n : Nat) : n ≤ pageUp n := by
  unfold pageUp
  omega

/-- A scratch that is there after the sizing has room for all outputs of the core. -/
theorem mcScratch_spec {direct : Bool} {i lo hi : Nat} {CC : Option Nat} (h : mcScratch v tasks direct i lo hi = some CC)
    (hdir : direct = false) : ∀ bytes ∈ CC, mcTotal tasks mcOutBytes lo hi ≤ bytes := by
  unfold mcScratch at h
  rw [hdir, if_neg Bool.false_ne_true] at h
  split at h
  · split at h
    · obtain rfl := Option.some.inj h
      intro bytes hbytes
      obtain rfl := Option.some.inj hbytes
      exact pageUp_le _
    · cases h
  · next hsz =>
    obtain rfl := Option.some.inj h
    exact fun bytes hbytes => Nat.le_trans (Nat.not_lt.mp hsz) ((v.bufs i).le bytes hbytes)

theorem mcCore_sound {t0 : DynTask R} {direct : Bool} {i lo hi : Nat} {CC : Option Nat} {k : McCore} (hle : lo ≤ hi)
    (hres : ∀ gi < hi, Resident c (tasks gi).w) (hacc : ∀ gi < hi, mcAccepts c t0 (tasks gi))
    (hCC : mcScratch v tasks direct i lo hi = some CC) (h : mcCore c v tasks direct CC i lo hi = some k) :
    k.Sound c v tasks direct i lo hi := by
  unfold mcCore at h
  dsimp only at h
  split at h
  · cases h
  next hfit =>
  obtain ⟨AF, -, h⟩ := Option.bind_eq_some_iff.mp h
  obtain ⟨b, hb, rfl⟩ := Option.map_eq_some_iff.mp h
  obtain ⟨hw, -, hhome⟩ := mcBuild_spec hle hres hacc hb
  have hlen : b.progs.length = mcTotal tasks mcCount lo hi := by
    rw [← taskEmits_length (c := c) hle direct, ← hw.emits, List.length_map]
  constructor
  case emits => exact hw.emits
  case count => exact hlen
  case links =>
    rw [hlen]
    exact hlen ▸ hw.links
  case fits =>
    rw [hlen]
    omega
  case acts => exact hw.acts
  case outs => exact hw.outs
  case room =>
    intro hdir hne
    cases hsome : CC with
    | some bytes => exact ⟨bytes, rfl, mcScratch_spec hCC hdir bytes hsome⟩
    | none =>
        have hnil := (hhome ⟨hdir, hsome⟩).1
        rw [← hw.emits, List.map_eq_nil_iff] at hnil
        exact absurd hnil hne

theorem opEmits_nodup (hnmax : 0 < c.soc.nmax) (w : OrkW R) (M : Nat) (direct : Bool) : (opEmits c w M direct).Nodup := by
  unfold opEmits
  split
  · exact List.nodup_range.map fun ks ks' h => congrArg Emit.ks h
  split
  · exact List.nodup_range.map fun i j h => Nat.eq_of_mul_eq_mul_right (orkiMtileCap_pos w.K) (congrArg Emit.m0 h)
  · exact List.nodup_range.map fun i j h => Nat.eq_of_mul_eq_mul_right hnmax (congrArg Emit.n0 h)

theorem mem_tasksOf {lo hi gi : Nat} : gi ∈ tasksOf lo hi ↔ lo ≤ gi ∧ gi < hi := by
  rw [tasksOf, List.mem_range'_1]
  omega

theorem mem_taskEmits {direct : Bool} {gis : List Nat} {p : Nat × Emit} : p ∈ taskEmits c tasks direct gis ↔
    p.1 ∈ gis ∧ p.2 ∈ opEmits c (tasks p.1).w (tasks p.1).M direct := by
  unfold taskEmits
  rw [List.mem_flatMap]
  constructor
  · rintro ⟨gi, hgi, hp⟩
    obtain ⟨e, he, rfl⟩ := List.mem_map.mp hp
    exact ⟨hgi, he⟩
  · rintro ⟨hgi, he⟩
    exact ⟨p.1, hgi, List.mem_map_of_mem he⟩

theorem taskEmits_nodup (hnmax : 0 < c.soc.nmax) (direct : Bool) {gis : List Nat} (h : gis.Nodup) :
    (taskEmits c tasks direct gis).Nodup := by
  unfold taskEmits
  refine List.nodup_flatMap.mpr ⟨fun gi _ => ?_, h.imp fun {gi gj} hij p hp hq => hij ?_⟩
  · exact (opEmits_nodup hnmax _ _ _).map fun e e' he => congrArg Prod.snd he
  · obtain ⟨e, -, rfl⟩ := List.mem_map.mp hp
    obtain ⟨e', -, he'⟩ := List.mem_map.mp hq
    exact (congrArg Prod.fst he').symm

namespace McCore.Sound

variable {direct : Bool} {i lo hi : Nat} {k : McCore}

theorem mem (h : k.Sound c v tasks direct i lo hi) {q : McProg} (hq : q ∈ k.progs) :
    (lo ≤ q.gi ∧ q.gi < hi) ∧ q.e ∈ opEmits c (tasks q.gi).w (tasks q.gi).M direct := by
  have hmem : (q.gi, q.e) ∈ taskEmits c tasks direct (tasksOf lo hi) := by
    rw [← h.emits]
    exact List.mem_map_of_mem (f := fun q : McProg => (q.gi, q.e)) hq
  obtain ⟨hgi, he⟩ := mem_taskEmits.mp hmem
  exact ⟨mem_tasksOf.mp hgi, he⟩

theorem exists_mem (h : k.Sound c v tasks direct i lo hi) {gi : Nat} {e : Emit} (hgi : lo ≤ gi ∧ gi < hi)
    (he : e ∈ opEmits c (tasks gi).w (tasks gi).M direct) : ∃ q ∈ k.progs, q.gi = gi ∧ q.e = e := by
  have hmem : (gi, e) ∈ k.progs.map fun q => (q.gi, q.e) := by
    rw [h.emits]
    exact mem_taskEmits.mpr ⟨mem_tasksOf.mpr hgi, he⟩
  obtain ⟨q, hq, hqe⟩ := List.mem_map.mp hmem
  exact ⟨q, hq, congrArg Prod.fst hqe, congrArg Prod.snd hqe⟩

theorem unique (hnmax : 0 < c.soc.nmax) (h : k.Sound c v tasks direct i lo hi) {q q' : McProg} (hq : q ∈ k.progs)
    (hq' : q' ∈ k.progs) (hgi : q.gi = q'.gi) (he : q.e = q'.e) : q = q' := by
  have hnd : (k.progs.map fun q => (q.gi, q.e)).Nodup := by
    rw [h.emits]
    exact taskEmits_nodup hnmax direct List.nodup_range'
  exact List.inj_on_of_nodup_map hnd hq hq' (Prod.ext hgi he)

end McCore.Sound

/-! ### All cores -/

/-- Where a byte of an output lies: in the C of a task, or in the scratch of a core. -/
inductive McByte
  | inC (gi off : Nat)
  | scratch (core off : Nat)
  deriving DecidableEq

namespace McChains

/-- Byte `b` of element `(m, n)`, as program `q` of core `i` writes it. -/
def byteAt (H : McChains) (i : Nat) (q : McProg) (m n b : Nat) : McByte :=
  if H.direct then .inC q.gi (q.e.cell m n * 4 + b) else .scratch i (q.ooff + (q.e.cell m n * 4 + b))

/-- A byte is inside the C of its task, or inside the scratch of its core. -/
def Inside (H : McChains) (tasks : Nat → DynTask R) : McByte → Prop
  | .inC gi off => off < (tasks gi).M * (tasks gi).w.N * 4
  | .scratch i off => ∃ bytes ∈ (H.core i).CC, off < bytes

/-- What the chains of a dispatch are to be: the programs of its tasks, core after core; each core as it was counted; every
partial of every element written once, inside its buffer, and to bytes of its own. -/
structure Sound (H : McChains) (c : OrkNpu) (v : McEnv) (S : Nat) (tasks : Nat → DynTask R) : Prop where
  parts : ((List.range H.n).flatMap fun i => (H.core i).progs.map fun q => (q.gi, q.e)) =
    taskEmits c tasks H.direct (List.range S)
  cores : ∀ i < H.n, (H.core i).Sound c v tasks H.direct i (coreTask S H.n i) (coreTask S H.n (i + 1))
  cover : ∀ gi < S, ∀ ks < mcSlices (tasks gi).w, ∀ m < (tasks gi).M, ∀ n < (tasks gi).w.N, ∃ i < H.n, ∃ q ∈ (H.core i).progs,
    (q.gi = gi ∧ q.e.Covers ks m n) ∧
      ∀ j < H.n, ∀ q' ∈ (H.core j).progs, q'.gi = gi → q'.e.Covers ks m n → j = i ∧ q' = q
  inside : ∀ i < H.n, ∀ q ∈ (H.core i).progs, ∀ ks m n b, q.e.Covers ks m n → b < 4 → H.Inside tasks (H.byteAt i q m n b)
  apart : ∀ i < H.n, ∀ j < H.n, ∀ q ∈ (H.core i).progs, ∀ q' ∈ (H.core j).progs, ∀ ks m n b ks' m' n' b',
    q.e.Covers ks m n → q'.e.Covers ks' m' n' → b < 4 → b' < 4 → H.byteAt i q m n b = H.byteAt j q' m' n' b' →
      (q.gi = q'.gi ∧ ks = ks') ∧ (m = m' ∧ n = n') ∧ b = b'

end McChains

theorem coreTask_mono (S n : Nat) : Monotone (coreTask S n) :=
  fun _ _ h => Nat.div_le_div_right (Nat.mul_le_mul_right S h)

theorem coreTask_zero (S n : Nat) : coreTask S n 0 = 0 := by
  unfold coreTask
  rw [Nat.zero_mul, Nat.zero_div]

theorem coreTask_last {n : Nat} (hn : 0 < n) (S : Nat) : coreTask S n n = S := Nat.mul_div_cancel_left S hn

section

variable {H : McChains} {S n : Nat} {t0 : DynTask R}

/-- Chains built core by core are sound. -/
theorem McChains.sound (hn : 0 < H.n) (hres : ∀ gi < S, Resident c (tasks gi).w) (hacc : ∀ gi < S, mcAccepts c t0 (tasks gi))
    (hnmax : 0 < c.soc.nmax) (hdir : H.direct = true → ∀ gi < S, (tasks gi).w.K ≤ 4096)
    (hcores : ∀ i < H.n, (H.core i).Sound c v tasks H.direct i (coreTask S H.n i) (coreTask S H.n (i + 1))) :
    H.Sound c v S tasks := by
  have hlt : ∀ {i gi : Nat}, i < H.n → gi < coreTask S H.n (i + 1) → gi < S := fun hi hgi => by
    have := coreTask_mono S H.n (Nat.succ_le_of_lt hi)
    rw [coreTask_last hn] at this
    exact Nat.lt_of_lt_of_le hgi this
  have hcell : ∀ {i : Nat} {q : McProg}, i < H.n → q ∈ (H.core i).progs → ∀ ks m n, q.e.Covers ks m n →
      q.e.cell m n < mcSlices (tasks q.gi).w * (tasks q.gi).M * (tasks q.gi).w.N := by
    intro i q hi hq ks m n hcov
    obtain ⟨hgi, he⟩ := (hcores i hi).mem hq
    obtain ⟨⟨hks, hrow, hcol⟩, hat⟩ := opEmits_spec (hres _ (hlt hi hgi.2)) (hacc _ (hlt hi hgi.2)) he
    rw [hat _ _ _ hcov]
    obtain ⟨rfl, hm, hn⟩ := hcov
    exact opCell_lt hnmax hks (by omega) (by omega)
  constructor
  case parts =>
    have hall : taskEmits c tasks H.direct (List.range S) = taskEmits c tasks H.direct
        ((List.range H.n).flatMap fun i => tasksOf (coreTask S H.n i) (coreTask S H.n (i + 1))) := by
      congr 1
      have hflat := flatMap_range' (coreTask_zero S H.n) (k := H.n) fun i _ => coreTask_mono S H.n (Nat.le_succ i)
      rw [coreTask_last hn] at hflat
      exact hflat.symm
    rw [hall, taskEmits, List.flatMap_assoc]
    exact List.flatMap_congr fun i hi => (hcores i (List.mem_range.mp hi)).emits
  case cores => exact hcores
  case cover =>
    intro gi hgi ks hks m hm n hn'
    obtain ⟨i, hi, hmem⟩ := exists_between (f := coreTask S H.n) (n := H.n) (x := gi)
      (by rw [coreTask_zero]; exact Nat.zero_le _) (by rw [coreTask_last hn]; exact hgi)
    obtain ⟨e, he, hcov, huniq⟩ := opEmits_once H.direct (hres gi hgi) (hacc gi hgi) hks hm hn'
    obtain ⟨q, hq, rfl, rfl⟩ := (hcores i hi).exists_mem hmem he
    refine ⟨i, hi, q, hq, ⟨rfl, hcov⟩, fun j hj q' hq' hgi' hcov' => ?_⟩
    obtain ⟨hmem', he'⟩ := (hcores j hj).mem hq'
    rw [hgi'] at hmem' he'
    obtain rfl := between_unique (coreTask_mono S H.n) hmem' hmem
    exact ⟨rfl, (hcores j hj).unique hnmax hq' hq hgi' (huniq _ he' hcov')⟩
  case inside =>
    intro i hi q hq ks m n b hcov hb
    obtain ⟨hgi, -⟩ := (hcores i hi).mem hq
    have hlt' := hcell hi hq ks m n hcov
    unfold byteAt
    cases hd : H.direct with
    | true =>
        rw [if_pos rfl]
        have hK := hdir hd q.gi (hlt hi hgi.2)
        rw [mcSlices, if_neg (by omega), Nat.one_mul] at hlt'
        show _ < _
        omega
    | false =>
        rw [if_neg Bool.false_ne_true]
        obtain ⟨bytes, hbytes, hroom⟩ := (hcores i hi).room hd (List.ne_nil_of_mem hq)
        refine ⟨bytes, hbytes, ?_⟩
        have hstart := (hcores i hi).outs q hq
        have hnext := mcTotal_succ tasks hgi.1 mcOutBytes
        have hend := mcTotal_mono tasks (i := q.gi + 1) (Nat.le_succ_of_le hgi.1) hgi.2 mcOutBytes
        rw [mcOutBytes] at hnext
        omega
  case apart =>
    intro i hi j hj q hq q' hq' ks m n b ks' m' n' b' hcov hcov' hb hb' heq
    obtain ⟨hgi, he⟩ := (hcores i hi).mem hq
    obtain ⟨hgi', he'⟩ := (hcores j hj).mem hq'
    have hlt1 := hcell hi hq ks m n hcov
    have hlt2 := hcell hj hq' ks' m' n' hcov'
    have hsame : q.gi = q'.gi → q.e.cell m n * 4 + b = q'.e.cell m' n' * 4 + b' →
        (q.gi = q'.gi ∧ ks = ks') ∧ (m = m' ∧ n = n') ∧ b = b' := by
      intro hqq hoff
      obtain ⟨hc, hbb⟩ := digits_inj hb hb' hoff
      rw [← hqq] at he'
      obtain ⟨h1, h2, h3⟩ := (opEmits_laid (hres _ (hlt hi hgi.2)) (hacc _ (hlt hi hgi.2))).apart _ he _ he' _ _ _ _ _ _ hcov hcov' hc
      exact ⟨⟨hqq, h1⟩, ⟨h2, h3⟩, hbb⟩
    unfold byteAt at heq
    cases hd : H.direct with
    | true =>
        rw [hd, if_pos rfl, if_pos rfl] at heq
        obtain ⟨hqq, hoff⟩ := McByte.inC.inj heq
        exact hsame hqq hoff
    | false =>
        rw [hd, if_neg Bool.false_ne_true, if_neg Bool.false_ne_true] at heq
        obtain ⟨rfl, hoff⟩ := McByte.scratch.inj heq
        rw [(hcores i hi).outs q hq, (hcores i hi).outs q' hq'] at hoff
        have hnext := mcTotal_succ tasks hgi.1 mcOutBytes
        have hnext' := mcTotal_succ tasks hgi'.1 mcOutBytes
        rw [mcOutBytes] at hnext hnext'
        rcases Nat.lt_trichotomy q.gi q'.gi with hlt' | hqq | hlt'
        · have hmono := mcTotal_mono tasks (i := q.gi + 1) (Nat.le_succ_of_le hgi.1) hlt' mcOutBytes
          omega
        · rw [hqq] at hoff
          exact hsame hqq (Nat.add_left_cancel hoff)
        · have hmono := mcTotal_mono tasks (i := q'.gi + 1) (Nat.le_succ_of_le hgi'.1) hlt' mcOutBytes
          omega

end

/-- The chains that `orki_dyn_begin_mc_impl` builds are sound, whatever the tasks, the cores and the buffers. -/
theorem orkiDynBeginMcChains_sound {S : Nat} {nc : Int} {H : McChains} (hres : ∀ gi < S, Resident c (tasks gi).w)
    (h : orkiDynBeginMcChains c v S tasks nc = some H) : H.Sound c v S tasks := by
  unfold orkiDynBeginMcChains at h
  split at h
  · cases h
  next hS =>
  split at h
  · cases h
  dsimp only at h
  split at h
  · cases h
  next hok =>
  have hacc := (not_not.mp hok).1
  have h0 : 0 < S := by omega
  have hpos : 0 < mcCores c nc := by
    have hall : ∀ s ∈ socTable, 0 < s.cores := by decide
    have hc := hall _ (hres 0 h0).soc
    unfold mcCores
    split <;> omega
  have hn : 0 < if S < mcCores c nc then S else mcCores c nc := by split <;> omega
  generalize (if S < mcCores c nc then S else mcCores c nc) = n at h hn
  split at h
  · next hcores =>
    obtain rfl := Option.some.inj h
    have hdirect : directC S tasks = true → ∀ gi < S, (tasks gi).w.K ≤ 4096 :=
      fun hdir gi hgi => (of_decide_eq_true hdir gi hgi).2.2
    refine McChains.sound hn hres hacc (hres 0 h0).nmax_pos hdirect fun i hi => ?_
    change i < n at hi
    obtain ⟨k, hk⟩ := Option.isSome_iff_exists.mp (hcores i hi)
    dsimp only
    rw [hk]
    obtain ⟨CC, hCC, hcore⟩ := Option.bind_eq_some_iff.mp hk
    have hlast : coreTask S n (i + 1) ≤ S := by
      have := coreTask_mono S n (Nat.succ_le_of_lt hi)
      rwa [coreTask_last hn] at this
    exact mcCore_sound (coreTask_mono S n (Nat.le_succ i)) (fun gi hgi => hres gi (Nat.lt_of_lt_of_le hgi hlast))
      (fun gi hgi => hacc gi (Nat.lt_of_lt_of_le hgi hlast)) hCC hcore
  · cases h

/-- A weight of zeros. -/
def zeroW (c : OrkNpu) (K N : Nat) : OrkW Int :=
  ⟨.i8, K, N, pieces K c.int8Ks, pieces N c.soc.nmax, fun _ _ => 0, some fun _ _ => 0⟩

theorem zeroW_resident {K N : Nat} (hsoc : c.soc ∈ socTable) (hpos : 0 < K) (hK : 32 ∣ K) (hN : 32 ∣ N) :
    Resident c (zeroW c K N) where
  soc := hsoc
  pos := hpos
  cut := ⟨⟨0, 0⟩, fun _ => 0, {
    K := rfl
    N := rfl
    Sk := rfl
    Sn := rfl
    K32 := hK
    Nnb := hN
    Bb _ _ _ _ _ _ _ _ := rfl
    Bf f hf _ _ _ _ _ _ := by
      obtain rfl := Option.some.inj hf
      rfl }⟩

/-- One op of each kind: plain, in N-slices, in K-slices, and with more rows than a program takes. -/
def mixedTasks (c : OrkNpu) : Nat → DynTask Int
  | 0 => ⟨zeroW c 512 32, 0, 4, fun _ => 0, none, 0⟩
  | 1 => ⟨zeroW c 512 8224, 0, 2, fun _ => 0, none, 0⟩
  | 2 => ⟨zeroW c 4608 32, 0, 3, fun _ => 0, none, 0⟩
  | _ => ⟨zeroW c 512 32, 0, 2000, fun _ => 0, none, 0⟩

/-- The buffers of a context that has just been opened, everything granted. -/
def freshBufs : McEnv :=
  ⟨true, true, fun _ => ⟨65536, 65536, 262144, none, 0, nofun⟩, fun _ => true, fun _ => true, fun _ _ => true⟩

theorem orkiDynBeginMcChains_sound_mixed :
    ∃ H, orkiDynBeginMcChains ⟨3, socRk3588, 0⟩ freshBufs 4 (mixedTasks ⟨3, socRk3588, 0⟩) 2 = some H ∧
      H.Sound ⟨3, socRk3588, 0⟩ freshBufs 4 (mixedTasks ⟨3, socRk3588, 0⟩) := by
  have hsome : (orkiDynBeginMcChains ⟨3, socRk3588, 0⟩ freshBufs 4 (mixedTasks ⟨3, socRk3588, 0⟩) 2).isSome = true := by
    decide
  obtain ⟨H, hH⟩ := Option.isSome_iff_exists.mp hsome
  refine ⟨H, hH, orkiDynBeginMcChains_sound (fun gi hgi => ?_) hH⟩
  have hsoc : (⟨3, socRk3588, 0⟩ : OrkNpu).soc ∈ socTable := by decide
  match gi, hgi with
  | 0, _ => exact zeroW_resident hsoc (by decide) (by decide) (by decide)
  | 1, _ => exact zeroW_resident hsoc (by decide) (by decide) (by decide)
  | 2, _ => exact zeroW_resident hsoc (by decide) (by decide) (by decide)
  | 3, _ => exact zeroW_resident hsoc (by decide) (by decide) (by decide)

end OrkDriver.Core
