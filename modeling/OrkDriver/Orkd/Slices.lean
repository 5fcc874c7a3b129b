import Mathlib.Data.UInt
import Mathlib.Tactic.Ring
import OrkDriver.Lib.Span
import OrkDriver.Orkd.Items

/-!
The quanta of one RUN: they lay its rows end to end, and what they leave in C is the whole matmul.
-/

namespace OrkDriver.Orkd

open OrkDriver.Lib

/-- The row intervals dispatched so far for the item numbered `n`. -/
def slicesOf (l : List Slice) (n : Nat) : List (Int × Int) :=
  (l.filter fun p => p.seq = n).map fun p => (p.m0, p.m0 + p.rows)

theorem slicesOf_snoc (l : List Slice) (p : Slice) :
    slicesOf (l ++ [p]) p.seq = slicesOf l p.seq ++ [(p.m0, p.m0 + p.rows)] := by
  simp [slicesOf]

theorem slicesOf_snoc_of_ne (l : List Slice) {p : Slice} {n : Nat} (h : p.seq ≠ n) :
    slicesOf (l ++ [p]) n = slicesOf l n := by
  simp [slicesOf, h]

theorem slicesOf_eq_nil {l : List Slice} {n : Nat} (h : ∀ p ∈ l, p.seq ≠ n) : slicesOf l n = [] := by
  simpa [slicesOf] using h

/-! ### The driver's matmul -/

/-- What a matmul of `M` rows of `A` against a weight leaves in its result, word by word. -/
abbrev Matmul := CWeight → Stream → Int → Nat → UInt32

/-- `M` rows are the row-wise concatenation of the matmuls of their blocks. -/
def RowWise (mm : Matmul) : Prop :=
  ∀ (cw : CWeight) (A : Stream) (m n : Int), 0 ≤ m → 0 ≤ n →
    (∀ k : Nat, (k : Int) < m * cw.N → mm cw A (m + n) k = mm cw A m k) ∧
    ∀ k : Nat, (k : Int) < n * cw.N →
      mm cw A (m + n) ((m * cw.N).toNat + k) = mm cw (A.drop (m * cw.K * cw.dtype.esz).toNat) n k

/-- The NPU computes `mm`: a quantum that answers 0 leaves the matmul of its rows. -/
def NpuRuns (mm : Matmul) (s : Sys) : Event → Prop
  | .dispatch rc out => ∀ i w cw n, dispatchOne s.d = .quantum i w cw n → rc = 0 → ∀ k : Nat, (k : Int) < n * w.N →
      out k = mm cw (w.A.drop (w.m0 * w.K * w.dtype.esz).toNat) n k
  | _ => True

/-- `C` holds the first `m` rows of what the RUN `a` asks for. -/
def RowsOf (mm : Matmul) (a : Accepted) (m : Int) (C : Nat → UInt32) : Prop :=
  ∀ k : Nat, (k : Int) < m * a.cw.N → C k = mm a.cw a.A m k

/-- A quantum appends its rows to those already there. -/
theorem RowsOf.runQuantum {mm : Matmul} (hmm : RowWise mm) {s : Sys} {w : Work} {a : Accepted} {cw : CWeight}
    (hitem : ItemOk s w a) (hcw : cw = a.cw) {n rc : Int} {out : Nat → UInt32} (hn : 0 < w.m0 → 0 ≤ n)
    (hrows : w.rc = 0 → RowsOf mm a w.m0 w.C)
    (hout : rc = 0 → ∀ k : Nat, (k : Int) < n * w.N →
      out k = mm cw (w.A.drop (w.m0 * w.K * w.dtype.esz).toNat) n k)
    (hrc : (runQuantum n rc out w).rc = 0) : RowsOf mm a (w.m0 + n) (runQuantum n rc out w).C := by
  subst hcw
  have hzero : w.rc = 0 ∧ rc = 0 := by
    simp only [Orkd.runQuantum] at hrc
    split at hrc
    · rename_i h
      exact absurd hrc h.1
    · rename_i h
      exact ⟨hrc, Classical.byContradiction fun hne => h ⟨hne, hrc⟩⟩
  have hnew := hout hzero.2
  rw [hitem.N, hitem.K, hitem.dtype, ← hitem.A] at hnew
  intro k hk
  simp only [Orkd.runQuantum, hitem.N]
  rcases hitem.m0.1.eq_or_lt with hfirst | hpos
  · -- the first quantum starts at the first word, even when it runs backwards
    rw [← hfirst] at hk hnew ⊢
    simp only [Int.zero_add, Int.zero_mul, Int.toNat_zero] at hk hnew ⊢
    have hA : a.A.drop 0 = a.A := by
      funext j
      simp only [Stream.drop, Nat.zero_add]
    rw [if_pos ⟨Int.natCast_nonneg k, hk⟩, Int.sub_zero, Int.toNat_natCast, hnew k hk, hA]
  · obtain ⟨hold, hblock⟩ := hmm a.cw a.A w.m0 n hitem.m0.1 (hn hpos)
    split
    · rename_i hin
      have hN : 0 ≤ w.m0 * a.cw.N := by
        by_contra hneg
        have hN' : a.cw.N < 0 := by
          by_contra hN'
          exact hneg (Int.mul_nonneg hitem.m0.1 (not_lt.mp hN'))
        have hle : (w.m0 + n) * a.cw.N ≤ 0 :=
          Int.mul_nonpos_of_nonneg_of_nonpos (Int.add_nonneg hitem.m0.1 (hn hpos)) hN'.le
        omega
      have hk' : ((((k : Int) - w.m0 * a.cw.N).toNat : Nat) : Int) < n * a.cw.N := by
        have hadd : (w.m0 + n) * a.cw.N = w.m0 * a.cw.N + n * a.cw.N := Int.add_mul _ _ _
        omega
      have hidx : (w.m0 * a.cw.N).toNat + ((k : Int) - w.m0 * a.cw.N).toNat = k := by omega
      rw [hnew _ hk', ← hblock _ hk', hidx]
    · rename_i hout'
      have hk' : (k : Int) < w.m0 * a.cw.N := by
        by_contra hge
        exact hout' ⟨not_lt.mp hge, hk⟩
      rw [hrows hzero.1 k hk', hold k hk']

/-! ### The invariant -/

/-- The record of the quanta fits the items: queued, finished, and those that were given up on the way. -/
structure Sliced (mm : Matmul) (s : Sys) : Prop where
  slice_lt : ∀ p ∈ s.hist.slices, p.seq < s.d.q.wseq
  tiled : ∀ a ∈ s.hist.accepted, ∃ m, m ≤ max 0 a.M ∧ Tiles 0 (slicesOf s.hist.slices a.seq) m
  active : ∀ w, s.d.q.Used w → Tiles 0 (slicesOf s.hist.slices w.seq) w.m0
  rows : ∀ w, s.d.q.Used w → ∀ a ∈ s.hist.accepted, a.seq = w.seq → w.rc = 0 → RowsOf mm a w.m0 w.C
  free : ∀ w ∈ s.hist.finished, ∀ v, s.d.q.Used v → v.seq ≠ w.seq
  done : ∀ w ∈ s.hist.finished, ∃ a ∈ s.hist.accepted, a.seq = w.seq ∧ Tiles 0 (slicesOf s.hist.slices w.seq) a.M ∧
    (w.rc = 0 → RowsOf mm a a.M w.C)
  replied : ∀ r ∈ s.hist.answered, (∃ w ∈ s.hist.finished, r.seq = w.seq ∧ r.reply = runReply w) ∨
    ∃ tag, r.reply = sendError tag .ebadh "weight freed"

namespace Sliced

variable {mm : Matmul} {s t : Sys}

/-- Steps that dispatch nothing and accept nothing. -/
theorem of_used (h : Sliced mm s) (hacc : t.hist.accepted = s.hist.accepted) (hsl : t.hist.slices = s.hist.slices)
    (hfin : t.hist.finished = s.hist.finished) (hw : t.d.q.wseq = s.d.q.wseq)
    (hused : ∀ w, t.d.q.Used w → s.d.q.Used w)
    (hans : ∀ r ∈ t.hist.answered, r ∈ s.hist.answered ∨ ∃ tag, r.reply = sendError tag .ebadh "weight freed") :
    Sliced mm t where
  slice_lt := by rw [hsl, hw]; exact h.slice_lt
  tiled := by rw [hacc, hsl]; exact h.tiled
  active w hu := by rw [hsl]; exact h.active w (hused w hu)
  rows w hu := by rw [hacc]; exact h.rows w (hused w hu)
  free w hw' v hv := h.free w (hfin ▸ hw') v (hused v hv)
  done := by rw [hacc, hsl, hfin]; exact h.done
  replied r hr := by
    rw [hfin]
    rcases hans r hr with hr | herr
    · exact h.replied r hr
    · exact .inr herr

theorem accept (h : Sliced mm s) (fd : Nat) : Sliced mm (acceptStep s fd) := by
  unfold acceptStep
  split
  · exact h.of_used rfl rfl rfl rfl (fun w hw => hw) fun r hr => .inl hr
  · exact h.of_used rfl rfl rfl rfl (fun w hw => hw) fun r hr => .inl hr

theorem drop (h : Sliced mm s) (i : Nat) : Sliced mm (dropStep s i) := by
  refine h.of_used rfl rfl rfl (by rw [dropStep, Daemon.drop_q]; rfl) (fun w hw => ?_) fun r hr => .inl hr
  rw [dropStep, Daemon.drop_q, Queue.used_wkPurgeFd] at hw
  exact hw.1

theorem finishMessage (h : Sliced mm s) (i : Nat) (b : Bool) : Sliced mm (Orkd.finishMessage s i b) := by
  cases b with
  | true => exact h.drop i
  | false => exact h

theorem serve (h : Sliced mm s) (hl : Ledger s) {i : Nat} {m : Option OrkdMsgType} {inp : Stream} {tag : UInt64}
    {o : Outcome} (hok : EffectOk s.d (s.d.cl i) m inp tag o.effect) :
    Sliced mm (serveWith s i (s.connOf i) tag o) := by
  cases he : o.effect with
  | enqueue w cw =>
      rw [he] at hok
      cases hok with
      | enqueue hq =>
          obtain ⟨j, hj⟩ := hq.room
          obtain ⟨q', hq'⟩ := Queue.exists_wkAlloc hj w
          obtain ⟨hwseq, hused⟩ := Queue.wkAlloc_spec hq'
          have hqt : (serveWith s i (s.connOf i) tag o).d.q = q' := by
            simp only [serveWith, Daemon.applyEffect_q, he, hq', Option.getD_some]
          have hhist : (serveWith s i (s.connOf i) tag o).hist =
              { s.hist with accepted := s.hist.accepted ++ [⟨s.d.q.wseq, s.connOf i, tag, cw, w.A, w.M⟩] } := by
            simp only [serveWith, he, History.note]
          have hnone : slicesOf s.hist.slices s.d.q.wseq = [] :=
            slicesOf_eq_nil fun p hp => Nat.ne_of_lt (h.slice_lt p hp)
          constructor
          · rw [hqt, hhist, hwseq]
            exact fun p hp => Nat.lt_succ_of_lt (h.slice_lt p hp)
          · rw [hhist]
            intro a ha
            rcases List.mem_append.mp ha with ha | ha
            · exact h.tiled a ha
            · obtain rfl := List.mem_singleton.mp ha
              refine ⟨0, le_max_left _ _, ?_⟩
              rw [hnone]
              exact .nil 0
          · rw [hqt, hhist]
            intro v hv
            rcases (hused v).mp hv with hv | rfl
            · exact h.active v hv
            · rw [hnone, hq.m0]
              exact .nil 0
          · rw [hqt, hhist]
            intro v hv a ha hseq
            rcases (hused v).mp hv with hv | rfl <;> rcases List.mem_append.mp ha with ha | ha
            · exact h.rows v hv a ha hseq
            · obtain rfl := List.mem_singleton.mp ha
              exact absurd hseq (Nat.ne_of_gt (Queue.used_seq_lt hv))
            · exact absurd hseq (Nat.ne_of_lt (hl.seq_lt a ha))
            · intro _ k hk
              simp only [hq.m0, Int.zero_mul] at hk
              exact absurd hk (Int.not_lt.mpr (Int.natCast_nonneg k))
          · rw [hqt, hhist]
            intro f hf v hv
            rcases (hused v).mp hv with hv | rfl
            · exact h.free f hf v hv
            · obtain ⟨a, ha, hseq, -⟩ := h.done f hf
              rw [← hseq]
              exact (Nat.ne_of_lt (hl.seq_lt a ha)).symm
          · rw [hhist]
            intro f hf
            obtain ⟨a, ha, hdone⟩ := h.done f hf
            exact ⟨a, List.mem_append_left _ ha, hdone⟩
          · rw [hhist]
            exact h.replied
  | _ =>
      refine h.of_used ?_ ?_ ?_ ?_ ?_ ?_ <;> simp only [serveWith, Daemon.applyEffect_q, he, History.note]
      · exact fun w hw => hw
      · exact fun r hr => .inl hr

end Sliced

/-- The rows left, when a quantum of them ends the item. -/
theorem quantumRows_last {q : Queue} {w : Work} (h : ¬ w.m0 + quantumRows q w < w.M) :
    w.m0 + quantumRows q w = w.M := by
  unfold quantumRows orkdQuantumRows at *
  dsimp only at *
  split at h
  · omega
  · split at h
    · rename_i hlt
      rw [if_pos hlt]
      omega
    · rename_i hge
      rw [if_neg hge]
      omega

namespace Sliced

variable {mm : Matmul} {s t : Sys}

/-- What a quantum of `n` rows of `w` adds to the record; `t` has the items of `s`, `w` apart. -/
theorem quantum (h : Sliced mm s) {i : Fin orkdQmax} {w : Work} (hslot : s.d.q.slot i = some w) {n : Int}
    (hm0 : 0 ≤ w.m0) (hn : 0 < w.m0 → 0 ≤ n) (hM : ∀ a ∈ s.hist.accepted, a.seq = w.seq → w.m0 + n ≤ max 0 a.M)
    (hacc : t.hist.accepted = s.hist.accepted) (hsl : t.hist.slices = s.hist.slices ++ [⟨w.seq, w.m0, n⟩])
    (hwseq : t.d.q.wseq = s.d.q.wseq) :
    Tiles 0 (slicesOf t.hist.slices w.seq) (w.m0 + n) ∧
      (∀ v : Work, v.seq ≠ w.seq → slicesOf t.hist.slices v.seq = slicesOf s.hist.slices v.seq) ∧
      (∀ p ∈ t.hist.slices, p.seq < t.d.q.wseq) ∧
      ∀ a ∈ t.hist.accepted, ∃ m, m ≤ max 0 a.M ∧ Tiles 0 (slicesOf t.hist.slices a.seq) m := by
  have hother : ∀ k, k ≠ w.seq → slicesOf t.hist.slices k = slicesOf s.hist.slices k := by
    intro k hk
    rw [hsl]
    exact slicesOf_snoc_of_ne _ fun h => hk h.symm
  have htiles : Tiles 0 (slicesOf t.hist.slices w.seq) (w.m0 + n) := by
    have hsnoc := slicesOf_snoc s.hist.slices ⟨w.seq, w.m0, n⟩
    dsimp only at hsnoc
    rw [hsl, hsnoc]
    exact (h.active w ⟨i, hslot⟩).snoc hm0 fun hpos => Int.le_add_of_nonneg_right (hn hpos)
  refine ⟨htiles, fun v hv => hother v.seq hv, ?_, ?_⟩
  · rw [hsl, hwseq]
    intro p hp
    rcases List.mem_append.mp hp with hp | hp
    · exact h.slice_lt p hp
    · obtain rfl := List.mem_singleton.mp hp
      exact Queue.used_seq_lt ⟨i, hslot⟩
  · rw [hacc]
    intro a ha
    by_cases hseq : a.seq = w.seq
    · rw [hseq]
      exact ⟨_, hM a ha hseq, htiles⟩
    · rw [hother a.seq hseq]
      exact h.tiled a ha

theorem keep (h : Sliced mm s) (hmm : RowWise mm) (hi : Items s) (hl : Ledger s) {i : Fin orkdQmax} {w : Work}
    {cw : CWeight} (hslot : s.d.q.slot i = some w) (hlt : w.m0 + quantumRows s.d.q w < w.M)
    (hcw : ∀ a ∈ s.hist.accepted, ItemOk s w a → cw = a.cw) {rc : Int} {out : Nat → UInt32}
    (hout : rc = 0 → ∀ k : Nat, (k : Int) < quantumRows s.d.q w * w.N →
      out k = mm cw (w.A.drop (w.m0 * w.K * w.dtype.esz).toNat) (quantumRows s.d.q w) k) :
    Sliced mm (keepItem (beginQuantum s w (quantumRows s.d.q w)) i (quantumRows s.d.q w) rc out) := by
  obtain ⟨a, ha, hitem⟩ := hi w ⟨i, hslot⟩
  have hpos := quantumRows_pos hlt
  have hsame : ∀ b ∈ s.hist.accepted, b.seq = w.seq → b = a := fun b hb hseq =>
    hl.accepted_inj hb ha (hseq.trans hitem.seq.symm)
  obtain ⟨htiles, hother, hslice, htiled⟩ := h.quantum
    (t := keepItem (beginQuantum s w (quantumRows s.d.q w)) i (quantumRows s.d.q w) rc out) hslot hitem.m0.1
    (fun _ => hpos.le)
    (fun b hb hseq => by rw [hsame b hb hseq, hitem.M]; exact le_trans hlt.le (le_max_right _ _)) rfl rfl rfl
  have hused := fun v => Queue.used_modify hslot (runQuantum_seq (quantumRows s.d.q w) rc out) v
  refine ⟨hslice, htiled, fun v hv => ?_, fun v hv b hb hseq => ?_, fun f hf v hv => ?_, fun f hf => ?_, h.replied⟩
  · rcases (hused v).mp hv with rfl | ⟨hv, hne⟩
    · exact htiles
    · rw [hother v hne]
      exact h.active v hv
  · rcases (hused v).mp hv with rfl | ⟨hv, -⟩
    · obtain rfl := hsame b hb hseq
      exact RowsOf.runQuantum hmm hitem (hcw b ha hitem) (fun _ => hpos.le)
        (h.rows w ⟨i, hslot⟩ b ha hitem.seq) hout
    · exact h.rows v hv b hb hseq
  · rcases (hused v).mp hv with rfl | ⟨hv, -⟩
    · exact h.free f hf w ⟨i, hslot⟩
    · exact h.free f hf v hv
  · rw [hother f (h.free f hf w ⟨i, hslot⟩).symm]
    exact h.done f hf

theorem finish (h : Sliced mm s) (hmm : RowWise mm) (hi : Items s) (hl : Ledger s) {i : Fin orkdQmax} {w : Work}
    {cw : CWeight} (hslot : s.d.q.slot i = some w) (hlast : w.m0 + quantumRows s.d.q w = w.M)
    (hcw : ∀ a ∈ s.hist.accepted, ItemOk s w a → cw = a.cw) {rc : Int} {out : Nat → UInt32}
    (hout : rc = 0 → ∀ k : Nat, (k : Int) < quantumRows s.d.q w * w.N →
      out k = mm cw (w.A.drop (w.m0 * w.K * w.dtype.esz).toNat) (quantumRows s.d.q w) k) :
    Sliced mm (finishItem (beginQuantum s w (quantumRows s.d.q w)) i (runQuantum (quantumRows s.d.q w) rc out w)) := by
  obtain ⟨a, ha, hitem⟩ := hi w ⟨i, hslot⟩
  have hn : 0 < w.m0 → 0 ≤ quantumRows s.d.q w := fun hpos => by
    have hlt := hitem.m0.2 hpos
    omega
  have hsame : ∀ b ∈ s.hist.accepted, b.seq = w.seq → b = a := fun b hb hseq =>
    hl.accepted_inj hb ha (hseq.trans hitem.seq.symm)
  obtain ⟨htiles, hother, hslice, htiled⟩ := h.quantum
    (t := finishItem (beginQuantum s w (quantumRows s.d.q w)) i (runQuantum (quantumRows s.d.q w) rc out w)) hslot
    hitem.m0.1 hn
    (fun b hb hseq => by rw [hsame b hb hseq, hitem.M, hlast]; exact le_max_right _ _) rfl rfl rfl
  have hused := fun v => Queue.used_wkFree hslot v
  refine ⟨hslice, htiled, fun v hv => ?_, fun v hv b hb hseq => ?_, fun f hf v hv => ?_, fun f hf => ?_,
    fun r hr => ?_⟩
  · obtain ⟨hv, hne⟩ := (hused v).mp hv
    rw [hother v hne]
    exact h.active v hv
  · exact h.rows v ((hused v).mp hv).1 b hb hseq
  · obtain ⟨hv, hne⟩ := (hused v).mp hv
    rcases List.mem_append.mp hf with hf | hf
    · exact h.free f hf v hv
    · obtain rfl := List.mem_singleton.mp hf
      exact hne
  · rcases List.mem_append.mp hf with hf | hf
    · rw [hother f (h.free f hf w ⟨i, hslot⟩).symm]
      exact h.done f hf
    · obtain rfl := List.mem_singleton.mp hf
      have hrows := RowsOf.runQuantum hmm hitem (hcw a ha hitem) hn (h.rows w ⟨i, hslot⟩ a ha hitem.seq) hout
      rw [hlast, ← hitem.M] at hrows htiles
      exact ⟨a, ha, hitem.seq, htiles, hrows⟩
  · rcases List.mem_append.mp hr with hr | hr
    · rcases h.replied r hr with ⟨f, hf, hreply⟩ | herr
      · exact .inl ⟨f, List.mem_append_left _ hf, hreply⟩
      · exact .inr herr
    · obtain rfl := List.mem_singleton.mp hr
      exact .inl ⟨_, List.mem_append_right _ List.mem_cons_self, rfl, rfl⟩

theorem dispatch (h : Sliced mm s) (hmm : RowWise mm) (hi : Items s) (hl : Ledger s) {rc : Int} {out : Nat → UInt32}
    (hnpu : NpuRuns mm s (.dispatch rc out)) : Sliced mm (dispatchStep s rc out) := by
  have hfree : ∀ {i : Fin orkdQmax} {w : Work}, s.d.q.slot i = some w → ∀ v, (s.d.q.wkFree i).Used v → s.d.q.Used v :=
    fun hslot v hv => ((Queue.used_wkFree hslot v).mp hv).1
  have hfound : ∀ {w : Work} {j : Nat} {cw : CWeight}, j < s.d.nc → (s.d.cl j).fd = w.fd →
      (s.d.cl j).findWeight w.weightId = some cw → ∀ a ∈ s.hist.accepted, ItemOk s w a → cw = a.cw := by
    intro w j cw hj hfd hf a _ hitem
    obtain ⟨hmem, hid⟩ := Client.findWeight_mem hf
    exact (hitem.known j hj hfd).2 cw hmem (hid.trans hitem.id.symm)
  have hcases := dispatchStep_cases s rc out
  generalize dispatchStep s rc out = t at hcases
  cases hcases with
  | idle _ => exact h
  | orphan hslot _ => exact h.of_used rfl rfl rfl rfl (hfree hslot) fun r hr => .inl hr
  | @stale i w _ hslot _ _ _ =>
      refine h.of_used rfl rfl rfl rfl (hfree hslot) fun r hr => ?_
      rcases List.mem_append.mp hr with hr | hr
      · exact .inl hr
      · obtain rfl := List.mem_singleton.mp hr
        exact .inr ⟨w.tag, rfl⟩
  | keep hslot hj hfd hf hlt hone =>
      exact h.keep hmm hi hl hslot hlt (hfound hj hfd hf) (hnpu _ _ _ _ hone)
  | finish hslot hj hfd hf hge hone =>
      exact h.finish hmm hi hl hslot (quantumRows_last hge) (hfound hj hfd hf) (hnpu _ _ _ _ hone)

theorem step (h : Sliced mm s) (hmm : RowWise mm) (hi : Items s) (hl : Ledger s) {e : Event} (he : NpuRuns mm s e) :
    Sliced mm (next s e) := by
  cases e with
  | accept fd => exact h.accept fd
  | message i env =>
      have hserve := h.serve hl (serviceMsg_effect s.d (s.d.cl i) env (s.payload i) (s.header i))
      exact hserve.finishMessage i _
  | hangup i => exact h.drop i
  | dispatch rc out => exact h.dispatch hmm hi hl he
  | ring i r => exact h.of_used rfl rfl rfl rfl (fun w hw => hw) fun r hr => .inl hr

end Sliced

theorem sliced_invariant {mm : Matmul} (hmm : RowWise mm) {s : Sys} (h : orkd.ReachableOn (NpuRuns mm) s) :
    Sliced mm s := by
  refine h.invariant (fun s (h0 : Initial s) => ?_) ?_
  · have hused : ∀ w, ¬ s.d.q.Used w := by
      rintro w ⟨i, hi⟩
      rw [h0.q] at hi
      cases hi
    constructor <;> simp [h0.hist, hused]
  · rintro s e t hr hs hnpu ⟨_, rfl⟩
    exact hs.step hmm (items_of_reachable hr) (ledger_of_reachable hr) hnpu

/-! ### Quanta and the pick -/

/-- `wk_pick` returns the maximum of the used items, the slots play no part in it. -/
structure PicksMaximum (q : Queue) (activeDom : Int) : Prop where
  some : ∀ i w, q.wkPick activeDom = some (i, w) ↔ q.slot i = some w ∧
    ∀ j v, q.slot j = Option.some v → j ≠ i → pickKey activeDom v < pickKey activeDom w
  none : q.wkPick activeDom = none ↔ ∀ i, q.slot i = Option.none
  slots : ∀ r : Queue, (∀ w, q.Used w ↔ r.Used w) →
    (q.wkPick activeDom).map (·.2) = (r.wkPick activeDom).map (·.2)

/-- Every RUN's quanta are consecutive slices of its rows. A finished one has been given all of them, its C is then
the whole matmul, and its reply carries that C. -/
structure Assembled (mm : Matmul) (s : Sys) : Prop where
  tiled : ∀ a ∈ s.hist.accepted, ∃ m, m ≤ max 0 a.M ∧ Tiles 0 (slicesOf s.hist.slices a.seq) m
  finished : ∀ w ∈ s.hist.finished, ∃ a ∈ s.hist.accepted, a.seq = w.seq ∧
    Tiles 0 (slicesOf s.hist.slices w.seq) a.M ∧ (w.rc = 0 → RowsOf mm a a.M w.C)
  replied : ∀ r ∈ s.hist.answered, (∃ w ∈ s.hist.finished, r.seq = w.seq ∧ r.reply = runReply w) ∨
    ∃ tag, r.reply = sendError tag .ebadh "weight freed"

theorem assembled_of_reachable (mm : Matmul) (hmm : RowWise mm) (s : Sys) (h : orkd.ReachableOn (NpuRuns mm) s) :
    Assembled mm s ∧ ∀ q activeDom, PicksMaximum q activeDom := by
  have hs := sliced_invariant hmm h
  refine ⟨⟨hs.tiled, hs.done, hs.replied⟩, fun q activeDom => ?_⟩
  exact ⟨Queue.wkPick_eq_some_iff q activeDom, Queue.wkPick_eq_none_iff, fun r hr => Queue.wkPick_congr hr activeDom⟩

/-- The sum of a row of signed bytes: the int8 matmul by an all-ones weight. -/
def rowSum : Matmul := fun cw A _ k =>
  ((List.range cw.K.toNat).map fun j =>
    (A (k / cw.N.toNat * (cw.K.toNat * cw.dtype.esz) + j)).toInt8.toInt32.toUInt32).sum

theorem rowSum_rowWise : RowWise rowSum := by
  intro cw A m n hm hn
  refine ⟨fun k _ => rfl, fun k hk => ?_⟩
  have hN : 0 < cw.N := by
    by_contra hneg
    have hle := Int.mul_nonpos_of_nonneg_of_nonpos hn (not_lt.mp hneg)
    omega
  obtain ⟨N, hNn⟩ := Int.eq_ofNat_of_zero_le hN.le
  obtain ⟨r, rfl⟩ := Int.eq_ofNat_of_zero_le hm
  have hrow : ((r : Int) * cw.N).toNat + k = k + r * N := by
    rw [hNn, ← Int.natCast_mul, Int.toNat_natCast, Nat.add_comm]
  have hNpos : 0 < N := by omega
  simp only [rowSum, hrow]
  simp only [hNn, Int.toNat_natCast, Nat.add_mul_div_right _ _ hNpos]
  rcases lt_or_ge cw.K 0 with hneg | hpos
  · simp only [Int.toNat_of_nonpos hneg.le, List.range_zero, List.map_nil]
  · obtain ⟨K, hK⟩ := Int.eq_ofNat_of_zero_le hpos
    have hoff : ((r : Int) * cw.K * cw.dtype.esz).toNat = r * (K * cw.dtype.esz) := by
      rw [hK, ← Int.natCast_mul, ← Int.natCast_mul, Int.toNat_natCast, Nat.mul_assoc]
    simp only [Stream.drop, hoff]
    simp only [hK, Int.toNat_natCast]
    congr 1
    refine List.map_congr_left fun j _ => ?_
    have hidx : (k / N + r) * (K * cw.dtype.esz) + j = r * (K * cw.dtype.esz) + (k / N * (K * cw.dtype.esz) + j) := by
      ring
    rw [hidx]

/-- What the NPU leaves for the quantum `dispatch_one` is about to run. -/
def npuAnswer (mm : Matmul) (s : Sys) : Nat → UInt32 :=
  match dispatchOne s.d with
  | .quantum _ w cw n => mm cw (w.A.drop (w.m0 * w.K * w.dtype.esz).toNat) n
  | _ => fun _ => 0

theorem npuRuns_answer (mm : Matmul) (s : Sys) (rc : Int) : NpuRuns mm s (.dispatch rc (npuAnswer mm s)) := by
  intro i w cw n hone _ k _
  simp only [npuAnswer, hone]

/-- Import a 32x32 weight, then RUN 70 rows of a shared buffer on it, twice. -/
def importThenTwoRuns : Stream :=
  .ofBytes (OrkdMsgType.importW.message 1
      (bytes32 32 ++ bytes32 32 ++ bytes32 1 ++ bytes32 0 ++ bytes64 4096 ++ bytes64 0) ++
    OrkdMsgType.runZc.message 7 (bytes64 1 ++ bytes32 70 ++ bytes32 0 ++ bytes32 0 ++ bytes32 0) ++
    OrkdMsgType.runZc.message 8 (bytes64 1 ++ bytes32 70 ++ bytes32 0 ++ bytes32 0 ++ bytes32 0))

/-- Both RUNs are queued; the rows are all ones. -/
def twoRunsQueued : Sys :=
  [.accept 5, .message 0 .good, .message 0 { Env.good with out := fun _ => 1 },
    .message 0 { Env.good with out := fun _ => 1 }].foldl next (boot false fun _ => importThenTwoRuns)

def quantum (mm : Matmul) (s : Sys) : Sys := dispatchStep s 0 (npuAnswer mm s)

/-- Two quanta for the first RUN while the second one waits, then all of the second at once. -/
def twoRunsDone : Sys := quantum rowSum (quantum rowSum (quantum rowSum twoRunsQueued))

example : (slicesOf twoRunsDone.hist.slices 0, slicesOf twoRunsDone.hist.slices 1) = ([(0, 64), (64, 70)], [(0, 70)]) := by
  decide +kernel

theorem quantum_reachable {mm : Matmul} {s : Sys} (h : orkd.ReachableOn (NpuRuns mm) s) :
    orkd.ReachableOn (NpuRuns mm) (quantum mm s) :=
  .step h (npuRuns_answer mm s 0) ⟨trivial, rfl⟩

theorem assembled_twoRuns : Assembled rowSum twoRunsDone ∧ ∀ q activeDom, PicksMaximum q activeDom := by
  have hqueued : orkd.ReachableOn (NpuRuns rowSum) twoRunsQueued := boot_run (by
    refine ⟨⟨trivial, ?_⟩, ⟨trivial, ?_⟩, ⟨trivial, ?_⟩, ⟨trivial, ?_⟩, trivial⟩ <;> decide)
  exact assembled_of_reachable rowSum rowSum_rowWise _
    (quantum_reachable (quantum_reachable (quantum_reachable hqueued)))

end OrkDriver.Orkd
