import OrkDriver.Ssm.Batched
import OrkDriver.Ssm.Scratch

/-!
The scan computes its recurrence, in every schedule.
-/

namespace OrkDriver.Ssm

open Lib Lib.Assign

variable {R : Type*} [CommRing R]

namespace Scan

variable {q : Scan R} {m : Mem R} {seq : Nat} {s : Schedule}

/-- The schedule has no int8 stage. -/
def Schedule.Exact : Schedule → Prop
  | .batched => True
  | .pipelined _ => True
  | .serial i8 => i8 = false

theorem serial_eq : q.serial false seq = q.startSeq seq
    ++ times q.chunks (q.chunkWith (fun cc =>
      (times q.z.nh fun h => q.gramOperands seq cc h h ++ q.inputOperands h ++ q.stateOperand .state h)
      ++ stg q.z.nh .pS q.z.csz q.z.nc q.z.csz .aS .bS .G
      ++ times q.z.nh fun h => q.maskOperand h ++ q.decayOperand seq cc h h) seq)
    ++ q.endSeq seq := by
  have hchunk : ∀ front, q.chunkWith front seq = fun cc => q.startChunk seq cc ++ front cc ++ q.endChunk seq cc := fun _ => rfl
  simp [serial, times, hchunk]

theorem pipelined_eq {order : Nat → List Bool} : q.pipelined order seq = q.startSeq seq
    ++ times q.chunks (q.chunkWith (fun cc =>
      (times q.z.nh fun h => q.gramOperands seq cc h h)
      ++ mix (order cc) (q.ssmMarshalGi seq cc) (stg q.z.nh .pS q.z.csz q.z.nc q.z.csz .aS .bS .G)
      ++ times q.z.nh fun h => q.maskOperand h) seq)
    ++ q.endSeq seq := by
  have hchunk : ∀ front, q.chunkWith front seq = fun cc => q.startChunk seq cc ++ front cc ++ q.endChunk seq cc := fun _ => rfl
  simp [pipelined, times, hchunk]

theorem body_done (hcsz : 0 < q.z.csz) (hchunks : 0 < q.chunks) (hs : s.Exact) : q.Done (run m (q.body seq s)) seq := by
  cases s with
  | batched => exact batched_done hcsz hchunks
  | pipelined order =>
      rw [body, pipelined_eq]
      exact done_of_chunks (fun cc => pipelined_front hcsz (order seq cc)) hcsz
  | serial i8 =>
      obtain rfl := hs
      rw [body, serial_eq]
      exact done_of_chunks (fun cc => serial_front hcsz) hcsz

theorem body_own (hcsz : 0 < q.z.csz) (hs : s.Exact) : ∀ t ∈ q.body seq s, WritesIn (q.Own seq) t := by
  cases s with
  | batched => exact batched_own hcsz
  | pipelined order =>
      rw [body, pipelined_eq]
      exact chunks_own (fun cc => pipelined_front hcsz (order seq cc)) hcsz
  | serial i8 =>
      obtain rfl := hs
      rw [body, serial_eq]
      exact chunks_own (fun cc => serial_front hcsz) hcsz

/-- The sequences do not disturb each other. -/
theorem Done.run {seq' : Nat} (h : q.Done m seq) (hne : seq ≠ seq') {l : List (Stmt R)}
    (hl : ∀ t ∈ l, WritesIn (q.Own seq') t) : q.Done (run m l) seq := by
  constructor
  · refine fun t ht => (h.1 t ht).run hl ?_
    rintro x ⟨i, hi, j, hj, rfl⟩ ⟨t', ht', hin⟩
    refine not_inSlot ?_ hi hj hin
    exact fun heq => hne (digits_inj ht ht' heq).1
  · refine fun i hi => (h.2 i hi).run hl ?_
    rintro x ⟨r, hr, c, hc, rfl⟩ ⟨i', hi', hin⟩
    refine not_inSlot ?_ hr hc hin
    exact fun heq => hne (digits_inj hi hi' heq).1

theorem program_done (hcsz : 0 < q.z.csz) (hchunks : 0 < q.chunks) (hs : s.Exact) :
    ∀ seq < q.ns, q.Done (run m (q.program s)) seq :=
  run_times_each (fun _ _ => True) (fun seq m => q.Done m seq) (fun _ _ => trivial)
    (fun _ _ _ _ => body_done hcsz hchunks hs) (fun _ _ _ _ _ _ _ => trivial)
    fun _ _ _ _ hne _ h => h.run hne (body_own hcsz hs)

/-- Past the end of the results nothing is written. -/
theorem program_frame (hcsz : 0 < q.z.csz) (hs : s.Exact) {a : Arr} {x : Nat} (h : ∀ seq < q.ns, ¬ q.Own seq a x) :
    run m (q.program s) a x = m a x := by
  have hl : ∀ t ∈ q.program s, WritesIn (fun a x => ∃ seq < q.ns, q.Own seq a x) t := by
    intro t ht
    obtain ⟨seq, hseq, ht⟩ := mem_times.mp ht
    exact (body_own hcsz hs t ht).mono fun _ _ h => ⟨seq, hseq, h⟩
  refine run_of_notMem hl ?_
  rintro ⟨seq, hseq, hown⟩
  exact h seq hseq hown

end Scan

/-- The two results, as the recurrence has them; past their ends `m₀`. -/
structure Computed (q : Scan R) (m₀ m : Mem R) : Prop where
  y : ∀ seq < q.ns, ∀ t < q.nt, ∀ h < q.z.nh, ∀ i < q.z.nr,
    m .y (((seq * q.nt + t) * q.z.nh + h) * q.z.nr + i) = q.output seq h t i
  sNew : ∀ seq < q.ns, ∀ h < q.z.nh, ∀ i < q.z.nr, ∀ n < q.z.nc,
    m .sNew (((seq * q.z.nh + h) * q.z.nr + i) * q.z.nc + n) = q.stateAt seq h i n q.nt
  frame : ∀ a, a = .y ∨ a = .sNew → ∀ x, (∀ seq < q.ns, ¬ q.Own seq a x) → m a x = m₀ a x

namespace Computed

variable {q : Scan R} {m₀ m m' : Mem R}

theorem of_program {s : Scan.Schedule} (hcsz : 0 < q.z.csz) (hchunks : 0 < q.chunks) (hs : s.Exact) :
    Computed q m₀ (run m₀ (q.program s)) where
  y seq hseq t ht h hh i hi := (Scan.program_done hcsz hchunks hs seq hseq).1 t ht h hh i hi
  sNew seq hseq h hh i hi n hn := (Scan.program_done hcsz hchunks hs seq hseq).2 h hh i hi n hn
  frame _ _ _ h := Scan.program_frame hcsz hs h

theorem unique (h : Computed q m₀ m) (h' : Computed q m₀ m') : m' .y = m .y ∧ m' .sNew = m .sNew := by
  constructor
  · funext x
    by_cases hx : ∃ seq < q.ns, q.Own seq .y x
    · obtain ⟨seq, hseq, t, ht, i, hi, j, hj, rfl⟩ := hx
      rw [h.y seq hseq t ht i hi j hj, h'.y seq hseq t ht i hi j hj]
    · have hout : ∀ seq < q.ns, ¬ q.Own seq .y x := fun seq hseq hown => hx ⟨seq, hseq, hown⟩
      rw [h.frame _ (.inl rfl) x hout, h'.frame _ (.inl rfl) x hout]
  · funext x
    by_cases hx : ∃ seq < q.ns, q.Own seq .sNew x
    · obtain ⟨seq, hseq, i, hi, r, hr, c, hc, rfl⟩ := hx
      rw [h.sNew seq hseq i hi r hr c hc, h'.sNew seq hseq i hi r hr c hc]
    · have hout : ∀ seq < q.ns, ¬ q.Own seq .sNew x := fun seq hseq hown => hx ⟨seq, hseq, hown⟩
      rw [h.frame _ (.inr rfl) x hout, h'.frame _ (.inr rfl) x hout]

end Computed

section

variable {k k' : Knobs} {a : ScanArgs} {alloc : Bool} {fails : Nat → Bool} {order : Nat → Nat → List Bool}
  {c : Option Pool} {v : Inputs R} {m m' : Mem R}

theorem ssmPoolEnsure_i8 {z : Shape} {p : Pool} (hc : ∀ p, c = some p → p.i8 = orkSsmI8Mask k)
    (h : ssmPoolEnsure k z alloc c = some p) : p.i8 = orkSsmI8Mask k := by
  unfold ssmPoolEnsure at h
  split at h
  · split at h
    · obtain rfl := Option.some.inj h
      exact hc _ rfl
    · split at h
      · obtain rfl := Option.some.inj h
        rfl
      · cases h
  · split at h
    · obtain rfl := Option.some.inj h
      rfl
    · cases h

/-- A scan that returns 0 has taken one of the schedules to its end. -/
theorem orkSsmScan_eq_zero (h : orkSsmScan k a alloc fails order c v m = (0, some m')) :
    a.Accepted ∧ ∃ p, ssmPoolEnsure k (scanShape k a) alloc c = some p ∧
      m' = run m ((a.scan k v).program (scheduleOf k p a order)) := by
  unfold orkSsmScan at h
  split at h
  · cases h
  · refine ⟨not_not.mp ‹_›, ?_⟩
    split at h
    · cases h
    · rename_i p hp
      split at h
      · cases h
      · rename_i m₁ hm₁
        obtain rfl : m₁ = m' := Option.some.inj (congrArg Prod.snd h)
        exact ⟨p, hp, perform_eq_some hm₁⟩

theorem scheduleOf_exact {p : Pool} (hi8 : gramI8 p.i8 = false) : (scheduleOf k p a order).Exact := by
  unfold scheduleOf
  split
  · trivial
  · split
    · trivial
    · exact hi8

theorem computed_of_zero (hk : gramI8 (orkSsmI8Mask k) = false) (hc : ∀ p, c = some p → p.i8 = orkSsmI8Mask k)
    (h : orkSsmScan k a alloc fails order c v m = (0, some m')) : Computed (a.scan k v) m m' := by
  obtain ⟨hacc, p, hp, rfl⟩ := orkSsmScan_eq_zero h
  refine .of_program orkSsmCs_pos hacc.chunks_pos (scheduleOf_exact ?_)
  rw [ssmPoolEnsure_i8 hc hp, hk]

/-- The chunk size is not part of the recurrence. -/
theorem stateAt_knobs (seq h i n t : Nat) : (a.scan k' v).stateAt seq h i n t = (a.scan k v).stateAt seq h i n t := by
  induction t with
  | zero => rfl
  | succ t ih =>
      rw [Scan.stateAt, Scan.stateAt, ih]
      rfl

theorem output_knobs (seq h t i : Nat) : (a.scan k' v).output seq h t i = (a.scan k v).output seq h t i := by
  rw [Scan.output, Scan.output]
  refine Finset.sum_congr rfl fun n _ => ?_
  rw [stateAt_knobs (k := k)]
  rfl

theorem Computed.knobs (h : Computed (a.scan k' v) m m') : Computed (a.scan k v) m m' where
  y seq hseq t ht i hi j hj := (h.y seq hseq t ht i hi j hj).trans (output_knobs seq i t j)
  sNew seq hseq i hi r hr n hn := (h.sNew seq hseq i hi r hr n hn).trans (stateAt_knobs seq i r n a.nt.toNat)
  frame b hb x hx := by
    refine h.frame b hb x fun seq hseq hown => hx seq hseq ?_
    rcases hb with rfl | rfl
    · exact hown
    · exact hown

/-- With its fp16 stages exact, a scan computes the recurrence: `y` is `C` times the state behind each token and `s_new` the
state behind the last, for each head of each sequence, whatever the chunk size, the schedule, and the turns of the helper;
so any two such scans of the same arguments leave the same in both. Where nothing fails, it returns 0. -/
theorem orkSsmScan_exact (k : Knobs) (a : ScanArgs) (c : Option Pool) (v : Inputs R) (m : Mem R)
    (hk : gramI8 (orkSsmI8Mask k) = false) (hc : ∀ p, c = some p → p.i8 = orkSsmI8Mask k) :
    (∀ alloc fails order m', orkSsmScan k a alloc fails order c v m = (0, some m') →
      (∀ seq t h i, seq < a.ns.toNat → t < a.nt.toNat → h < a.nh.toNat → i < a.nr.toNat →
        m' .y (((seq * a.nt.toNat + t) * a.nh.toNat + h) * a.nr.toNat + i) = (a.scan k v).output seq h t i) ∧
      (∀ seq h i n, seq < a.ns.toNat → h < a.nh.toNat → i < a.nr.toNat → n < a.nc.toNat →
        m' .sNew (((seq * a.nh.toNat + h) * a.nr.toNat + i) * a.nc.toNat + n) =
          (a.scan k v).stateAt seq h i n a.nt.toNat) ∧
      ∀ k' alloc' fails' order' c' m'', gramI8 (orkSsmI8Mask k') = false → (∀ p, c' = some p → p.i8 = orkSsmI8Mask k') →
        orkSsmScan k' a alloc' fails' order' c' v m = (0, some m'') → m'' .y = m' .y ∧ m'' .sNew = m' .sNew) ∧
    ∀ fails order, a.Accepted → (∀ n, fails n = false) → ∃ m', orkSsmScan k a true fails order c v m = (0, some m') := by
  constructor
  · intro alloc fails order m' h
    have hdone := computed_of_zero hk hc h
    refine ⟨fun seq t h i hseq ht hh hi => hdone.y seq hseq t ht h hh i hi,
      fun seq h i n hseq hh hi hn => hdone.sNew seq hseq h hh i hi n hn, ?_⟩
    intro k' alloc' fails' order' c' m'' hk' hc' h'
    exact hdone.unique (computed_of_zero hk' hc' h').knobs
  · intro fails order hacc hquiet
    have hpool : ∃ p, ssmPoolEnsure k (scanShape k a) true c = some p := by
      unfold ssmPoolEnsure
      split
      · split
        · exact ⟨_, rfl⟩
        · exact ⟨_, rfl⟩
      · exact ⟨_, rfl⟩
    obtain ⟨p, hp⟩ := hpool
    refine ⟨run m ((a.scan k v).program (scheduleOf k p a order)), ?_⟩
    rw [orkSsmScan, if_neg (not_not.mpr hacc), hp]
    dsimp only
    rw [perform_of_quiet hquiet]

/-- Twenty tokens of ones, in a chunk of sixteen and a padded one. -/
def onesScan : ScanArgs := ⟨32, 16, 1, 1, 20, 1⟩

def onesInputs : Inputs ℤ := ⟨[], 1, id, fun _ => 0, fun _ => 1, fun _ => 1, fun _ => 0, fun _ => 1, fun _ => 1⟩

theorem orkSsmScan_exact_ones :
    ∃ m' : Mem ℤ, orkSsmScan ⟨none, some 16, some 1, none, false⟩ onesScan true (fun _ => false) (fun _ _ => []) none
      onesInputs (fun _ _ => 0) = (0, some m') ∧ m' .y 0 = 32 := by
  obtain ⟨hvalues, hreturns⟩ := orkSsmScan_exact ⟨none, some 16, some 1, none, false⟩ onesScan none onesInputs
    (fun _ _ => 0) (by decide) (fun _ h => by cases h)
  obtain ⟨m', hm'⟩ := hreturns (fun _ => false) (fun _ _ => []) (by decide) (fun _ => rfl)
  refine ⟨m', hm', ?_⟩
  have hy := (hvalues true _ _ m' hm').1 0 0 0 0 (by decide) (by decide) (by decide) (by decide)
  simpa [Scan.output, Scan.stateAt, ScanArgs.scan, scanShape, onesScan, onesInputs] using hy

end

end OrkDriver.Ssm
