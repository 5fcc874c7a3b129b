import OrkDriver.Queue.Flight

/-!
Runs of the submit queue: what is submitted, what an idle call may cut, and what a drain counts.
-/

namespace OrkDriver.Queue

open OrkDriver.Lib OrkDriver.Npu OrkDriver.Pack OrkDriver.Run OrkDriver.I4 OrkDriver.Core

variable {R : Type*}

/-! ### The condition and the claim -/

/-- The tasks of a drain's count: no more than the first `b`, and all of them exactly if all are complete. -/
structure Tally.Counts (d : Tally) (b : Nat) : Prop where
  nonneg : 0 ≤ d.done
  le : d.done ≤ b
  mem : ∀ i ∈ d.complete, i < b
  iff : d.done = b ↔ ∀ i < b, i ∈ d.complete
  calls : d.calls ≤ b

namespace DynQueue

/-- On one core a chunk is of one width; on several it is no lone task that the column split spreads over cores. -/
def ChunkFits (q : DynQueue R) (g : Grant R) : Prop :=
  if 1 < q.ncore then
    ∀ t, q.chunk = [.wide t] → routesToColsplit t.w = true →
      g.v.cores q.c (t.w.N / 32) (mcCores q.c q.ncore) = 1
  else ∀ t ∈ q.chunk, ∀ u ∈ q.chunk, t.width = u.width

/-- An idle call stores behind the last task of the chunk, or behind the sequencer. -/
def Spares (q : DynQueue R) (ms : List Progress) : Prop :=
  ∀ f, q.h = some f → f.mc = false →
    (f.h.S : Int) ≤ f.orkDynProgress + 1 + orkDynHeadroom + 1 ∨
      f.orkDynProgress + 1 + orkDynHeadroom < (f.advances ms).pc

def Meets (q : DynQueue R) : Call R → Prop
  | .flush g => q.h = none → q.ChunkFits g
  | .drain g => q.h = none → q.ChunkFits g
  | .pass g => q.ChunkFits g
  | .idle past ms => past = true → q.tasks.length ≤ q.submitted → q.Spares ms
  | _ => True

/-- What the queue promises: tasks are submitted at most once and in the order they were pushed; all tasks in flight can
still run; a drain that has returned counted all tasks pushed before it exactly if all were complete, and fewer if some
were not submitted; and a drain goes round less than once for each task. -/
structure Kept (q : DynQueue R) : Prop where
  order : q.log.Sublist (List.range (q.first + q.tasks.length))
  runs : ∀ f, q.h = some f → ∃ ms, ∀ t < f.cnt, (f.advances ms).complete t = true
  counts : ∀ d ∈ q.drains, d.tally.done = d.n ↔ ∀ i < d.n, i ∈ d.tally.complete
  refused : ∀ d ∈ q.drains, d.submitted < d.n → d.tally.done < d.n
  ends : ∀ d, q.drain = some d → q.h.isSome = true ∧ d.calls < q.tasks.length

/-! ### The invariant -/

/-- How many tasks lie in chunks that are closed. -/
def behind (q : DynQueue R) : Nat :=
  match q.h with
  | some f => f.base
  | none => q.submitted

/-- What holds of a queue whether or not it is drained. -/
structure Sound (q : DynQueue R) : Prop where
  cores : q.ncore ≤ q.c.soc.cores
  sub : q.submitted ≤ q.tasks.length
  order : q.log.Sublist (List.range (q.first + q.submitted))
  flight : ∀ f, q.h = some f → f.Good ∧ 1 ≤ f.cnt ∧ f.base + f.cnt = q.submitted
  drains : ∀ d ∈ q.drains, d.submitted ≤ d.n ∧ d.tally.Counts d.submitted

structure Inv (q : DynQueue R) : Prop where
  sound : q.Sound
  idle : q.drain = none → q.behind = 0
  draining : ∀ d, q.drain = some d → q.h.isSome = true ∧ d.Counts q.behind

variable {q : DynQueue R} {c : OrkNpu} {g : Grant R}

theorem inv_create (chunkMax ncore : Int) : (orkDynQueueCreate c chunkMax ncore : DynQueue R).Inv := by
  refine ⟨⟨?_, le_rfl, List.nil_sublist _, fun f hf => ?_, fun d hd => absurd hd List.not_mem_nil⟩, fun _ => rfl,
    fun d hd => ?_⟩
  · unfold orkDynQueueCreate
    dsimp only
    split_ifs <;> omega
  · cases hf
  · cases hd

theorem Sound.push (hs : q.Sound) (t : QTask R) (room : Bool) : (q.orkDynQueuePush t room).Sound := by
  unfold orkDynQueuePush
  split
  · refine ⟨hs.cores, ?_, hs.order, hs.flight, hs.drains⟩
    change q.submitted ≤ (q.tasks ++ [t]).length
    rw [List.length_append]
    exact Nat.le_add_right_of_le hs.sub
  · exact hs

/-! ### A flush -/

theorem chunk_length (q : DynQueue R) : q.chunk.length ≤ q.tasks.length - q.submitted := by
  unfold chunk
  rw [List.length_take, List.length_drop]
  exact Nat.min_le_right _ _

/-- A flush changes nothing, or begins the next chunk. -/
theorem flush_cases (q : DynQueue R) (g : Grant R) :
    q.orkDynQueueFlush g = q ∨ ∃ t l h, (q.h = none ∧ q.chunk = t :: l) ∧
      q.beginChunk g (l.length + 1) (fun i => (t :: l).getD i t) = some h ∧
      q.orkDynQueueFlush g = { q with
        h := some (.start h q.submitted (l.length + 1) (if 1 < q.ncore then 0 else g.spinEnd h.S))
        submitted := q.submitted + (l.length + 1)
        log := q.log ++ List.range' (q.first + q.submitted) (l.length + 1) } := by
  unfold orkDynQueueFlush
  split
  · exact Or.inl rfl
  · next hno =>
      have hnone : q.h = none := Option.not_isSome_iff_eq_none.mp fun h => hno (Or.inl h)
      split
      · exact Or.inl rfl
      · next t l hchunk =>
          split
          · exact Or.inl rfl
          · next h hb => exact Or.inr ⟨t, l, h, ⟨hnone, hchunk⟩, hb, rfl⟩

theorem flush_behind (q : DynQueue R) (g : Grant R) : (q.orkDynQueueFlush g).behind = q.behind := by
  rcases q.flush_cases g with he | ⟨t, l, h, ⟨hnone, -⟩, -, he⟩
  · rw [he]
  · rw [he]
    unfold behind
    rw [hnone]
    rfl

theorem flush_drain (q : DynQueue R) (g : Grant R) : (q.orkDynQueueFlush g).drain = q.drain := by
  rcases q.flush_cases g with he | ⟨t, l, h, -, -, he⟩ <;> rw [he]

theorem spinEnd_cases (g : Grant R) (P : Nat) : g.spinEnd P = 0 ∨ P ≤ g.spinEnd P := by
  unfold Grant.spinEnd
  generalize min (if (P : Int) < g.reserve then g.reserve.toNat else P) 1024 = reserve
  dsimp only
  split
  · next hlt => exact Or.inr hlt.1.le
  · exact Or.inl rfl

/-- A chunk that fits gets an op for each task. -/
theorem tasked_chunk (hs : q.Sound) {t : QTask R} {l : List (QTask R)} {h : DynChain} (hchunk : q.chunk = t :: l)
    (hfit : q.ChunkFits g) (hb : q.beginChunk g (l.length + 1) (fun i => (t :: l).getD i t) = some h) :
    Tasked h (l.length + 1) := by
  unfold beginChunk at hb
  unfold ChunkFits at hfit
  split at hb
  · next hmc =>
      rw [if_pos hmc] at hfit
      have hcores := hs.cores
      refine orkDynBeginMc_tasked (by omega) (by omega) (fun u hS hu hroute => ?_) hb
      refine hfit u ?_ hroute
      have hl : l = [] := List.eq_nil_of_length_eq_zero (by omega)
      rw [hchunk, hl]
      exact congrArg (fun x => [x]) hu
  · next hmc =>
      rw [if_neg hmc] at hfit
      refine beginOne_tasked hb fun i hi => ?_
      have hmem : ∀ j, (t :: l).getD j t ∈ q.chunk := fun j => by
        rw [hchunk]
        rcases Nat.lt_or_ge j (t :: l).length with hj | hj
        · rw [List.getD_eq_getElem _ _ hj]
          exact List.getElem_mem hj
        · rw [List.getD_eq_default _ _ hj]
          exact List.mem_cons_self
      exact hfit _ (hmem i) _ (hmem 0)

theorem Sound.flush (hs : q.Sound) (hfit : q.h = none → q.ChunkFits g) : (q.orkDynQueueFlush g).Sound := by
  rcases q.flush_cases g with he | ⟨t, l, h, ⟨hnone, hchunk⟩, hb, he⟩
  · rwa [he]
  · rw [he]
    have ht := tasked_chunk hs hchunk (hfit hnone) hb
    have hlen := q.chunk_length
    rw [hchunk, List.length_cons] at hlen
    have hsub := hs.sub
    refine ⟨hs.cores, show q.submitted + (l.length + 1) ≤ q.tasks.length by omega, ?_, fun f hf => ?_, hs.drains⟩
    · change (q.log ++ List.range' (q.first + q.submitted) (l.length + 1)).Sublist
        (List.range (q.first + (q.submitted + (l.length + 1))))
      have hr : List.range (q.first + (q.submitted + (l.length + 1))) =
          List.range (q.first + q.submitted) ++ List.range' (q.first + q.submitted) (l.length + 1) := by
        rw [← Nat.add_assoc, List.range_add, List.range'_eq_map_range]
      rw [hr]
      exact hs.order.append (List.Sublist.refl _)
    · obtain rfl := Option.some.inj hf
      refine ⟨Flight.good_start ht ?_, Nat.le_add_left 1 l.length, rfl⟩
      split
      · exact Or.inl rfl
      · exact spinEnd_cases g h.S

/-! ### Idle calls and the device -/

theorem Sound.of_flight (hs : q.Sound) {f f' : Flight} (hq : q.h = some f) (hf : f'.Good) (hcnt : f'.cnt = f.cnt)
    (hbase : f'.base = f.base) : { q with h := some f' }.Sound ∧ { q with h := some f' }.behind = q.behind := by
  obtain ⟨-, hone, hsum⟩ := hs.flight f hq
  refine ⟨⟨hs.cores, hs.sub, hs.order, fun x hx => ?_, hs.drains⟩, ?_⟩
  · obtain rfl := Option.some.inj hx
    exact ⟨hf, hcnt ▸ hone, by rw [hcnt, hbase]; exact hsum⟩
  · unfold behind
    rw [hq]
    exact hbase

theorem Inv.of_flight (hi : q.Inv) {f f' : Flight} (hq : q.h = some f) (hf : f'.Good) (hcnt : f'.cnt = f.cnt)
    (hbase : f'.base = f.base) : { q with h := some f' }.Inv := by
  obtain ⟨hs, hb⟩ := hi.sound.of_flight hq hf hcnt hbase
  refine ⟨hs, fun hd => hb.trans (hi.idle hd), fun d hd => ⟨rfl, ?_⟩⟩
  rw [hb]
  exact (hi.draining d hd).2

theorem halt_h {f f' : Flight} {p : Int} (hh : f.orkDynHalt p = some f') : f'.cnt = f.cnt ∧ f'.base = f.base := by
  unfold Flight.orkDynHalt at hh
  split at hh
  · cases hh
  · cases hh
    exact ⟨rfl, rfl⟩

theorem Inv.idleCall (hi : q.Inv) {past : Bool} {ms : List Progress}
    (hm : past = true → q.tasks.length ≤ q.submitted → q.Spares ms) : (q.orkDynQueueIdle past ms).Inv := by
  unfold orkDynQueueIdle
  split
  · exact hi
  · next f hq =>
      dsimp only
      split
      · exact hi
      · next hgo =>
          split
          · exact hi
          · obtain ⟨hg, -, -⟩ := hi.sound.flight f hq
            obtain ⟨hh, hcnt, hbase⟩ := Flight.advances_h (f := f) ms
            have hga := hg.advances ms
            cases hhalt : (f.advances ms).orkDynHalt (f.orkDynProgress + 1 + orkDynHeadroom) with
            | none => exact hi.of_flight hq hga hcnt hbase
            | some f' =>
                have hpast : past = true := by
                  cases past
                  · exact absurd (Or.inr (Or.inl rfl)) hgo
                  · rfl
                have hmc : f.mc = false := Bool.eq_false_iff.mpr fun h => hgo (Or.inr (Or.inr h))
                have hspare := hm hpast (Nat.not_lt.mp fun h => hgo (Or.inl h)) f hq hmc
                have hgood : f'.Good := hga.halt hhalt (hh.symm ▸ hspare)
                obtain ⟨hcnt', hbase'⟩ := halt_h hhalt
                exact hi.of_flight hq hgood (hcnt'.trans hcnt) (hbase'.trans hbase)

/-! ### A drain -/

theorem counts_zero : (⟨0, [], 0⟩ : Tally).Counts 0 :=
  ⟨le_rfl, le_rfl, fun _ hi => absurd hi List.not_mem_nil, ⟨fun _ i hi => absurd hi (Nat.not_lt_zero i), fun _ => rfl⟩,
    le_rfl⟩

theorem Inv.settle {d : Tally} (hs : q.Sound) (hd : d.Counts q.behind) : (q.settle d).Inv := by
  unfold DynQueue.settle
  split
  · next f hq =>
      obtain ⟨hg, -, -⟩ := hs.flight f hq
      obtain ⟨hs', hb⟩ := hs.of_flight hq hg.teardown rfl rfl
      refine ⟨⟨hs'.cores, hs'.sub, hs'.order, hs'.flight, hs'.drains⟩, fun h => (by cases h), fun d' hd' => ?_⟩
      obtain rfl := Option.some.inj hd'
      exact ⟨rfl, hb.symm ▸ hd⟩
  · next hq =>
      have hbehind : q.behind = q.submitted := by
        unfold behind
        rw [hq]
      refine ⟨⟨hs.cores, le_rfl, ?_, fun f hf => absurd (hf.symm.trans hq) (by simp), fun x hx => ?_⟩, fun _ => ?_,
        fun d' hd' => (by cases hd')⟩
      · exact hs.order.trans (List.range_sublist.mpr (Nat.add_le_add_left hs.sub _))
      · rcases List.mem_append.mp hx with hx | hx
        · exact hs.drains x hx
        · obtain rfl := List.mem_singleton.mp hx
          exact ⟨hs.sub, hbehind ▸ hd⟩
      · unfold behind
        rw [hq]

/-- A chunk is added to the count when it is closed. -/
theorem counts_close {d : Tally} {f : Flight} (hf : f.Good) (hone : 1 ≤ f.cnt) (hd : d.Counts f.base) :
    (⟨if 0 ≤ f.orkDynEnd then d.done + (f.orkDynEnd + 1) else d.done, d.complete ++ f.completed, d.calls + 1⟩ :
      Tally).Counts (f.base + f.cnt) := by
  obtain ⟨r, hr, hle, hall⟩ := hf.orkDynEnd_spec
  have hdone : (if 0 ≤ f.orkDynEnd then d.done + (f.orkDynEnd + 1) else d.done) = d.done + r := by
    split <;> omega
  have hcomp : ∀ i, i ∈ f.completed ↔ ∃ t < f.cnt, f.complete t = true ∧ f.base + t = i := fun i => by
    unfold Flight.completed
    simp only [List.mem_map, List.mem_filter, List.mem_range]
    exact ⟨fun ⟨t, ht, he⟩ => ⟨t, ht.1, ht.2, he⟩, fun ⟨t, h1, h2, he⟩ => ⟨t, ⟨h1, h2⟩, he⟩⟩
  have h0 := hd.nonneg
  have hb := hd.le
  have hcalls := hd.calls
  rw [hdone]
  refine ⟨by change 0 ≤ d.done + r; omega, by change d.done + r ≤ _; push_cast; omega, fun i hi => ?_, ?_,
    by change d.calls + 1 ≤ _; omega⟩
  · rcases List.mem_append.mp hi with hi | hi
    · exact Nat.lt_add_right _ (hd.mem i hi)
    · obtain ⟨t, ht, -, rfl⟩ := (hcomp i).mp hi
      exact Nat.add_lt_add_left ht _
  · change d.done + r = ((f.base + f.cnt : Nat) : Int) ↔ _
    constructor
    · intro hsum i hi
      have hbase : d.done = f.base := by push_cast at hsum; omega
      rcases Nat.lt_or_ge i f.base with hlt | hge
      · exact List.mem_append_left _ (hd.iff.mp hbase i hlt)
      · have hrc : r = f.cnt := by push_cast at hsum; omega
        refine List.mem_append_right _ ((hcomp i).mpr ⟨i - f.base, by omega, hall.mp hrc _ (by omega), by omega⟩)
    · intro hmem
      have hbase : d.done = f.base := hd.iff.mpr fun i hi => by
        rcases List.mem_append.mp (hmem i (by omega)) with h | h
        · exact h
        · obtain ⟨t, -, -, rfl⟩ := (hcomp i).mp h
          omega
      have hrc : r = f.cnt := hall.mpr fun t ht => by
        rcases List.mem_append.mp (hmem (f.base + t) (by omega)) with h | h
        · exact absurd (hd.mem _ h) (by omega)
        · obtain ⟨u, -, hu, he⟩ := (hcomp _).mp h
          rwa [← Nat.add_left_cancel he]
      rw [hbase, hrc, Nat.cast_add]

theorem Inv.drainCall (hi : q.Inv) (hnone : q.drain = none) (hfit : q.h = none → q.ChunkFits g) :
    (q.orkDynQueueDrain g).Inv := by
  unfold orkDynQueueDrain
  have h0 := hi.idle hnone
  split
  · exact Inv.settle hi.sound (h0.symm ▸ counts_zero)
  · exact Inv.settle (hi.sound.flush hfit) ((flush_behind q g).trans h0 ▸ counts_zero)

theorem Inv.pass (hi : q.Inv) {f : Flight} {d : Tally} (hq : q.h = some f) (hd : q.drain = some d)
    (hfit : q.ChunkFits g) : (q.drainPass g f d).Inv := by
  obtain ⟨hg, hone, hsum⟩ := hi.sound.flight f hq
  have hb : q.behind = f.base := by
    unfold behind
    rw [hq]
  have hclosed : { q with h := none }.Sound :=
    ⟨hi.sound.cores, hi.sound.sub, hi.sound.order, fun x hx => (by cases hx), hi.sound.drains⟩
  have hcount := counts_close hg hone (hb ▸ (hi.draining d hd).2)
  rw [hsum] at hcount
  unfold drainPass
  dsimp only
  split
  · exact Inv.settle (hclosed.flush fun _ => hfit) ((flush_behind { q with h := none } g).symm ▸ hcount)
  · exact Inv.settle hclosed hcount

theorem Inv.next (hi : q.Inv) {e : Call R} (he : q.enabled e) (hm : q.Meets e) : (q.next e).Inv := by
  cases e with
  | push t room =>
      have hpush := hi.sound.push t room
      change (q.orkDynQueuePush t room).Inv
      unfold orkDynQueuePush at hpush ⊢
      split
      · next hr =>
          rw [if_pos hr] at hpush
          exact ⟨hpush, hi.idle, hi.draining⟩
      · exact hi
  | flush g =>
      refine ⟨hi.sound.flush hm, fun _ => (flush_behind q g).trans (hi.idle he), fun d hd => ?_⟩
      have hd' : q.drain = some d := (flush_drain q g).symm.trans hd
      exact absurd (hd'.symm.trans he) (by simp)
  | idle past ms => exact hi.idleCall hm
  | drain g => exact hi.drainCall he hm
  | pass g =>
      dsimp only [DynQueue.next]
      split
      · next f d hq hd => exact hi.pass hq hd hm
      · exact hi
  | device m =>
      change ({ q with h := q.h.map (·.advance m) } : DynQueue R).Inv
      cases hq : q.h with
      | none =>
          have : ({ q with h := none } : DynQueue R) = q := by rw [← hq]
          exact this.symm ▸ hi
      | some f =>
          obtain ⟨hg, -, -⟩ := hi.sound.flight f hq
          obtain ⟨-, hcnt, hbase⟩ := f.advance_h m
          exact hi.of_flight hq (hg.advance m) hcnt hbase

theorem Inv.kept (hi : q.Inv) : q.Kept := by
  have hs := hi.sound
  refine ⟨hs.order.trans (List.range_sublist.mpr (Nat.add_le_add_left hs.sub _)),
    fun f hf => (hs.flight f hf).1.runs, fun d hd => ?_, fun d hd hlt => ?_, fun d hd => ?_⟩
  · obtain ⟨hle, hc⟩ := hs.drains d hd
    have hub := hc.le
    constructor
    · intro hn
      have hsub : d.submitted = d.n := by omega
      rw [← hsub] at hn ⊢
      exact hc.iff.mp hn
    · intro hall
      have hsub : d.submitted = d.n := by
        by_contra hne
        exact absurd (hc.mem _ (hall d.submitted (by omega))) (Nat.lt_irrefl _)
      rw [← hsub] at hall ⊢
      exact hc.iff.mpr hall
  · have hub := (hs.drains d hd).2.le
    omega
  · obtain ⟨hsome, hc⟩ := hi.draining d hd
    obtain ⟨f, hq⟩ := Option.isSome_iff_exists.mp hsome
    obtain ⟨-, hone, hsum⟩ := hs.flight f hq
    have hb : q.behind = f.base := by
      unfold behind
      rw [hq]
    have hcalls := hc.calls
    have hsub := hs.sub
    exact ⟨hsome, by omega⟩

end DynQueue

/-- In every run whose idle calls spare what has not run and whose chunks fit, the queue keeps all its promises. -/
theorem dynQueue_kept {c : OrkNpu} {chunkMax ncore : Int} {q : DynQueue R}
    (hq : (system c chunkMax ncore).ReachableOn DynQueue.Meets q) : q.Kept := by
  have hi : q.Inv := by
    refine hq.invariant (fun s hs => ?_) fun s e t _ hi hm hstep => ?_
    · rw [show s = _ from hs]
      exact DynQueue.inv_create chunkMax ncore
    · obtain ⟨hen, rfl⟩ := hstep
      exact hi.next hen hm
  exact hi.kept

/-! ### Runs -/

/-- A row of 32 columns, int8. -/
def rowTask : QTask Int := .wide ⟨⟨.i8, 512, 32, 1, 1, fun _ _ => 0, none⟩, 0, 1, fun _ => 0, some 0, 0⟩

/-- All is granted, and nothing reserved. -/
def granting : Grant Int := ⟨true, 0, false, .quiet 0 0, true, true⟩

def runCalls (es : List (Call Int)) : DynQueue Int := es.foldl DynQueue.next (orkDynQueueCreate ⟨3, socRk3588, 0⟩ 0 1)

theorem runCalls_step {P : DynQueue Int → Call Int → Prop} {es : List (Call Int)} {e : Call Int}
    (hr : (system ⟨3, socRk3588, 0⟩ 0 1).ReachableOn P (runCalls es)) (hP : P (runCalls es) e)
    (hen : (runCalls es).enabled e) : (system ⟨3, socRk3588, 0⟩ 0 1).ReachableOn P (runCalls (es ++ [e])) := by
  refine hr.step hP ⟨hen, ?_⟩
  unfold runCalls
  rw [List.foldl_append]
  rfl

/-- Two rows, an idle call, the rows land, and a drain. -/
theorem dynQueue_kept_two :
    (runCalls [.push rowTask true, .push rowTask true, .flush granting, .idle true [], .device (.land 0 32), .device .next,
        .device (.land 1 32), .drain granting, .pass granting]).Kept ∧
      (runCalls [.push rowTask true, .push rowTask true, .flush granting, .idle true [], .device (.land 0 32), .device .next,
        .device (.land 1 32), .drain granting, .pass granting]).drains.map (·.tally.done) = [2] := by
  have hfit : ∀ q : DynQueue Int, q.ncore = 1 → (∀ t ∈ q.tasks, t = rowTask) → q.ChunkFits granting := by
    intro q hone hall
    unfold DynQueue.ChunkFits
    rw [hone, if_neg (Nat.lt_irrefl 1)]
    have hmem : ∀ t ∈ q.chunk, t = rowTask := fun t ht => hall t (List.mem_of_mem_drop (List.mem_of_mem_take ht))
    intro t ht u hu
    rw [hmem t ht, hmem u hu]
  have htasks : ∀ t ∈ [rowTask, rowTask], t = rowTask := fun t ht => List.eq_of_mem_replicate (n := 2) ht
  refine ⟨?_, by decide⟩
  have h0 : (system ⟨3, socRk3588, 0⟩ 0 1).ReachableOn DynQueue.Meets (runCalls []) := .init rfl
  have h2 := runCalls_step (runCalls_step h0 (e := .push rowTask true) trivial rfl) (e := .push rowTask true) trivial rfl
  have h3 := runCalls_step h2 (e := .flush granting) (fun _ => hfit _ rfl htasks) rfl
  have h4 := runCalls_step h3 (e := .idle true []) (fun _ _ f hf _ => ?_) rfl
  · have h5 := runCalls_step h4 (e := .device (.land 0 32)) trivial trivial
    have h6 := runCalls_step h5 (e := .device .next) trivial trivial
    have h7 := runCalls_step h6 (e := .device (.land 1 32)) trivial trivial
    have h8 := runCalls_step h7 (e := .drain granting) (fun _ => hfit _ rfl htasks) rfl
    exact dynQueue_kept (runCalls_step h8 (e := .pass granting) (hfit _ rfl htasks) rfl)
  · obtain rfl := Option.some.inj hf
    exact Or.inl (by decide)

/-- Four rows and an idle call: the second row's link is kept, the third's is cut, and the fourth never runs. -/
theorem not_kept_idle :
    ¬ ∀ (c : OrkNpu) (chunkMax ncore : Int) (q : DynQueue Int), (system c chunkMax ncore).Reachable q → q.Kept := by
  intro hall
  have h0 : (system ⟨3, socRk3588, 0⟩ 0 1).Reachable (runCalls []) := .init rfl
  have h1 := runCalls_step h0 (e := .push rowTask true) trivial rfl
  have h2 := runCalls_step h1 (e := .push rowTask true) trivial rfl
  have h3 := runCalls_step h2 (e := .push rowTask true) trivial rfl
  have h4 := runCalls_step h3 (e := .push rowTask true) trivial rfl
  have h5 := runCalls_step h4 (e := .flush granting) trivial rfl
  have h6 := runCalls_step h5 (e := .idle true []) trivial rfl
  have hkept := (hall _ _ _ _ h6).runs
  have hcut : (runCalls [.push rowTask true, .push rowTask true, .push rowTask true, .push rowTask true, .flush granting,
      .idle true []]).h.any (fun f => ((!f.mc && !f.live 2) && (f.pc == 0 && f.words 3 == 0)) &&
        ((f.cnt == 4 && f.h.S == 4) && ((f.h.entry 3).arr == 3 && f.full 3 == 32))) = true := by decide
  obtain ⟨f, hf, hfacts⟩ := (Option.any_eq_true _ _).mp hcut
  simp only [Bool.and_eq_true, Bool.not_eq_true', beq_iff_eq] at hfacts
  obtain ⟨⟨⟨hmc, hlive⟩, hpc, hwords⟩, ⟨hcnt, hS⟩, harr, hfull⟩ := hfacts
  obtain ⟨ms, hms⟩ := hkept f hf
  obtain ⟨hh, -, -⟩ := Flight.advances_h (f := f) ms
  have hzero := Flight.advances_cut hmc hlive (show f.pc ≤ 2 by omega) (Nat.lt_succ_self 2) hwords ms
  have hfe : (f.advances ms).full 3 = 32 := by
    rw [← hfull]
    unfold Flight.full Flight.no Flight.mc
    rw [hh]
  have hcomplete := hms 3 (by omega)
  unfold Flight.complete at hcomplete
  simp only [List.all_eq_true, List.mem_range, decide_eq_true_eq, hh] at hcomplete
  rcases hcomplete 3 (by omega) with hne | hle
  · exact hne harr
  · rw [hfe, hzero] at hle
    exact absurd hle (by decide)

end OrkDriver.Queue
