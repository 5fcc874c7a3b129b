import Mathlib.Algebra.Order.BigOperators.Group.Finset
import OrkDriver.Orkd.Framing

/-!
Delivery of results: every queued item belongs to a live client, and every accepted RUN is pending, answered once on
its own connection, or its connection is closed.
-/

namespace OrkDriver.Orkd

def IsPending (s : Sys) (n : Nat) : Prop := ∃ w, s.d.q.Used w ∧ w.seq = n

def IsAnswered (s : Sys) (n : Nat) : Prop := ∃ r ∈ s.hist.answered, r.seq = n

def IsClosed (s : Sys) (c : ConnId) : Prop := ∀ fd, s.os.conn fd ≠ some c

/-- The accepted RUNs, the queue and the answers are one ledger. -/
structure Ledger (s : Sys) : Prop where
  pending : ∀ w, s.d.q.Used w → ∃ a ∈ s.hist.accepted, a.seq = w.seq ∧ a.tag = w.tag ∧ s.os.conn w.fd = some a.conn
  seq_lt : ∀ a ∈ s.hist.accepted, a.seq < s.d.q.wseq
  seqs : (s.hist.accepted.map (·.seq)).Nodup
  conn_lt : ∀ a ∈ s.hist.accepted, a.conn < s.os.nextConn
  answered : ∀ r ∈ s.hist.answered, ∃ a ∈ s.hist.accepted, a.seq = r.seq ∧ a.conn = r.conn ∧ a.tag = r.reply.tag
  once : (s.hist.answered.map (·.seq)).Nodup
  settled : ∀ a ∈ s.hist.accepted, IsPending s a.seq ∨ IsAnswered s a.seq ∨ IsClosed s a.conn
  apart : ∀ n, IsPending s n → ¬ IsAnswered s n

namespace Ledger

variable {s t : Sys}

theorem accepted_inj (h : Ledger s) {a b : Accepted} (ha : a ∈ s.hist.accepted) (hb : b ∈ s.hist.accepted)
    (hab : a.seq = b.seq) : a = b :=
  List.inj_on_of_nodup_map h.seqs ha hb hab

/-- Steps that leave queue, history and descriptors alone. -/
theorem of_same (h : Ledger s) (hq : t.d.q = s.d.q) (hacc : t.hist.accepted = s.hist.accepted)
    (hans : t.hist.answered = s.hist.answered) (hconn : t.os.conn = s.os.conn)
    (hnext : s.os.nextConn ≤ t.os.nextConn) : Ledger t where
  pending := by rw [hq, hacc, hconn]; exact h.pending
  seq_lt := by rw [hq, hacc]; exact h.seq_lt
  seqs := by rw [hacc]; exact h.seqs
  conn_lt a ha := Nat.lt_of_lt_of_le (h.conn_lt a (hacc ▸ ha)) hnext
  answered := by rw [hacc, hans]; exact h.answered
  once := by rw [hans]; exact h.once
  settled := by
    simp only [IsPending, IsAnswered, IsClosed, hq, hacc, hans, hconn]
    exact h.settled
  apart := by
    simp only [IsPending, IsAnswered, hq, hans]
    exact h.apart

theorem accept (h : Ledger s) {fd : Nat} (hfd : s.os.conn fd = none) : Ledger (acceptStep s fd) := by
  unfold acceptStep
  split
  · refine ⟨fun w hw => ?_, h.seq_lt, h.seqs, fun a ha => Nat.lt_succ_of_lt (h.conn_lt a ha), h.answered, h.once,
      fun a ha => ?_, h.apart⟩
    · obtain ⟨a, ha, hseq, htag, hconn⟩ := h.pending w hw
      have hne : w.fd ≠ fd := by
        intro heq
        rw [heq, hfd] at hconn
        cases hconn
      exact ⟨a, ha, hseq, htag, (Function.update_of_ne hne _ _).trans hconn⟩
    · refine (h.settled a ha).imp_right (Or.imp_right fun hclosed fd' hfd' => ?_)
      by_cases hf : fd' = fd
      · -- the new connection is none of those accepted on before
        have hlt : a.conn < s.os.nextConn := h.conn_lt a ha
        simp only [hf, Function.update_self, Option.some.injEq] at hfd'
        rw [← hfd'] at hlt
        exact Nat.lt_irrefl _ hlt
      · simp only [Function.update_of_ne hf] at hfd'
        exact hclosed fd' hfd'
  · exact h.of_same rfl rfl rfl rfl (Nat.le_succ _)

/-- An accepted RUN opens a new line of the ledger. -/
theorem enqueue (h : Ledger s) {c : ConnId} {tag : UInt64} (w : Work) (cw : CWeight) {q' : Queue}
    (hq : s.d.q.wkAlloc w = some q') (htag : w.tag = tag) (hconn : s.os.conn w.fd = some c) (hc : c < s.os.nextConn)
    (htq : t.d.q = q') (hacc : t.hist.accepted = s.hist.accepted ++ [⟨s.d.q.wseq, c, tag, cw, w.A, w.M⟩])
    (hans : t.hist.answered = s.hist.answered) (htconn : t.os.conn = s.os.conn) (hnext : t.os.nextConn = s.os.nextConn) :
    Ledger t := by
  obtain ⟨hwseq, hused⟩ := Queue.wkAlloc_spec hq
  have hpend : ∀ n, IsPending t n ↔ IsPending s n ∨ n = s.d.q.wseq := by
    intro n
    simp only [IsPending, htq, hused]
    constructor
    · rintro ⟨v, hv | rfl, rfl⟩
      · exact .inl ⟨v, hv, rfl⟩
      · exact .inr rfl
    · rintro (⟨v, hv, rfl⟩ | rfl)
      · exact ⟨v, .inl hv, rfl⟩
      · exact ⟨{ w with seq := s.d.q.wseq }, .inr rfl, rfl⟩
  refine ⟨fun v hv => ?_, fun a ha => ?_, ?_, fun a ha => ?_, fun r hr => ?_, by rw [hans]; exact h.once, fun a ha => ?_,
    fun n hn => ?_⟩
  · rw [htq, hused] at hv
    rw [hacc, htconn]
    rcases hv with hv | rfl
    · obtain ⟨a, ha, hrest⟩ := h.pending v hv
      exact ⟨a, List.mem_append_left _ ha, hrest⟩
    · exact ⟨_, List.mem_append_right _ List.mem_cons_self, rfl, htag.symm, hconn⟩
  · rw [htq, hwseq]
    rw [hacc, List.mem_append, List.mem_singleton] at ha
    rcases ha with ha | rfl
    · exact Nat.lt_succ_of_lt (h.seq_lt a ha)
    · exact Nat.lt_succ_self _
  · rw [hacc, List.map_append, List.map_singleton]
    refine List.nodup_append'.mpr ⟨h.seqs, List.nodup_singleton _, ?_⟩
    rw [List.disjoint_singleton]
    intro hmem
    obtain ⟨a, ha, heq⟩ := List.mem_map.mp hmem
    have hlt : a.seq < s.d.q.wseq := h.seq_lt a ha
    simp only at heq
    omega
  · rw [hnext]
    rw [hacc, List.mem_append, List.mem_singleton] at ha
    rcases ha with ha | rfl
    · exact h.conn_lt a ha
    · exact hc
  · rw [hans] at hr
    obtain ⟨a, ha, hrest⟩ := h.answered r hr
    exact ⟨a, by rw [hacc]; exact List.mem_append_left _ ha, hrest⟩
  · simp only [hpend, IsAnswered, IsClosed, hans, htconn]
    rw [hacc, List.mem_append, List.mem_singleton] at ha
    rcases ha with ha | rfl
    · exact (h.settled a ha).imp_left .inl
    · exact .inl (.inr rfl)
  · simp only [IsAnswered, hans]
    rcases (hpend n).mp hn with hn | rfl
    · exact h.apart n hn
    · rintro ⟨r, hr, hseq⟩
      obtain ⟨a, ha, hseq', -⟩ := h.answered r hr
      have hlt : a.seq < s.d.q.wseq := h.seq_lt a ha
      omega

theorem serve (h : Ledger s) (hc : Connected s) {i : Nat} (hi : i < s.d.nc) {m : Option OrkdMsgType} {inp : Stream}
    {tag : UInt64} {o : Outcome} (hok : EffectOk s.d (s.d.cl i) m inp tag o.effect) :
    Ledger (serveWith s i (s.connOf i) tag o) := by
  cases he : o.effect with
  | enqueue w cw =>
      rw [he] at hok
      cases hok with
      | enqueue hq =>
          obtain ⟨j, hj⟩ := hq.room
          obtain ⟨q', hq'⟩ := Queue.exists_wkAlloc hj w
          refine h.enqueue w cw hq' hq.tag (hq.fd ▸ hc.conn_eq hi) (hc.connOf_lt hi) ?_ ?_ ?_ rfl rfl
          · simp only [serveWith, he, Daemon.applyEffect, Daemon.enqueue, hq']
          · simp only [serveWith, he, History.note]
          · simp only [serveWith, he, History.note]
  | _ =>
      refine h.of_same ?_ ?_ ?_ rfl (Nat.le_refl _)
      · simp only [serveWith, he, Daemon.applyEffect_q]
      · simp only [serveWith, he, History.note]
      · simp only [serveWith, he, History.note]

/-- The purge takes exactly the items whose connection the drop closes. -/
theorem drop (h : Ledger s) (hc : Connected s) (i : Nat) : Ledger (dropStep s i) := by
  have hused : ∀ w, (dropStep s i).d.q.Used w ↔ s.d.q.Used w ∧ w.fd ≠ (s.d.cl i).fd := fun w => by
    rw [dropStep, Daemon.drop_q, Queue.used_wkPurgeFd]
  have hconn : ∀ fd, fd ≠ (s.d.cl i).fd → (dropStep s i).os.conn fd = s.os.conn fd := fun fd hne =>
    Function.update_of_ne hne _ _
  have hsub : ∀ fd c, (dropStep s i).os.conn fd = some c → fd ≠ (s.d.cl i).fd ∧ s.os.conn fd = some c := by
    intro fd c hfd
    by_cases heq : fd = (s.d.cl i).fd
    · simp [dropStep, Os.close, heq] at hfd
    · exact ⟨heq, by rw [← hconn fd heq]; exact hfd⟩
  refine ⟨fun w hw => ?_, ?_, h.seqs, h.conn_lt, h.answered, h.once, fun a ha => ?_, fun n hn => ?_⟩
  · obtain ⟨hw, hne⟩ := (hused w).mp hw
    rw [hconn _ hne]
    exact h.pending w hw
  · simp only [dropStep, Daemon.drop_q]
    exact h.seq_lt
  · rcases h.settled a ha with ⟨w, hw, hseq⟩ | hans | hclosed
    · by_cases hfd : w.fd = (s.d.cl i).fd
      · obtain ⟨b, hb, hbseq, -, hbconn⟩ := h.pending w hw
        obtain rfl := h.accepted_inj ha hb (hseq.symm.trans hbseq.symm)
        refine .inr (.inr fun fd hfd' => ?_)
        obtain ⟨hne, hold⟩ := hsub fd _ hfd'
        exact hne ((hc.conn_inj _ _ _ hold hbconn).trans hfd)
      · exact .inl ⟨w, (hused w).mpr ⟨hw, hfd⟩, hseq⟩
    · exact .inr (.inl hans)
    · exact .inr (.inr fun fd hfd => hclosed fd (hsub fd _ hfd).2)
  · obtain ⟨w, hw, hseq⟩ := hn
    exact h.apart n ⟨w, ((hused w).mp hw).1, hseq⟩

theorem finish (h : Ledger s) (hc : Connected s) (i : Nat) (b : Bool) : Ledger (finishMessage s i b) := by
  cases b with
  | true => exact h.drop hc i
  | false => exact h

/-- An answer with the item's tag closes its line. -/
theorem answer (h : Ledger s) {i : Fin orkdQmax} {w v : Work} (hslot : s.d.q.slot i = some w) (hfd : v.fd = w.fd)
    (hseq : v.seq = w.seq) {r : Reply} (htag : r.tag = w.tag) : Ledger (answerStep s i v r) := by
  obtain ⟨a, ha, haseq, hatag, haconn⟩ := h.pending w ⟨i, hslot⟩
  have hc : (s.os.conn v.fd).getD 0 = a.conn := by rw [hfd, haconn, Option.getD_some]
  have hused := Queue.used_wkFree hslot
  refine ⟨fun u hu => h.pending u ((hused u).mp hu).1, h.seq_lt, h.seqs, h.conn_lt, fun x hx => ?_, ?_, fun b hb => ?_,
    fun n hn => ?_⟩
  · rcases List.mem_append.mp hx with hx | hx
    · exact h.answered x hx
    · rw [List.mem_singleton.mp hx]
      exact ⟨a, ha, haseq.trans hseq.symm, hc.symm, hatag.trans htag.symm⟩
  · simp only [answerStep, List.map_append, List.map_singleton, hseq]
    refine List.nodup_append'.mpr ⟨h.once, List.nodup_singleton _, ?_⟩
    rw [List.disjoint_singleton]
    intro hmem
    obtain ⟨x, hx, hxseq⟩ := List.mem_map.mp hmem
    exact h.apart w.seq ⟨w, ⟨i, hslot⟩, rfl⟩ ⟨x, hx, hxseq⟩
  · rcases h.settled b hb with ⟨u, hu, huseq⟩ | ⟨x, hx, hxseq⟩ | hclosed
    · by_cases heq : u.seq = w.seq
      · exact .inr (.inl ⟨_, List.mem_append_right _ List.mem_cons_self, hseq.trans (heq.symm.trans huseq)⟩)
      · exact .inl ⟨u, (hused u).mpr ⟨hu, heq⟩, huseq⟩
    · exact .inr (.inl ⟨x, List.mem_append_left _ hx, hxseq⟩)
    · exact .inr (.inr hclosed)
  · obtain ⟨u, hu, rfl⟩ := hn
    obtain ⟨hu, hne⟩ := (hused u).mp hu
    rintro ⟨x, hx, hxseq⟩
    rcases List.mem_append.mp hx with hx | hx
    · exact h.apart u.seq ⟨u, hu, rfl⟩ ⟨x, hx, hxseq⟩
    · rw [List.mem_singleton.mp hx] at hxseq
      exact hne (hxseq.symm.trans hseq)

theorem keep (h : Ledger s) {i : Fin orkdQmax} {w : Work} (hslot : s.d.q.slot i = some w) (n rc : Int)
    (out : Nat → UInt32) : Ledger (keepItem s i n rc out) := by
  have hused := Queue.used_modify hslot (runQuantum_seq n rc out)
  have hpend : ∀ k, IsPending (keepItem s i n rc out) k ↔ IsPending s k := by
    intro k
    constructor
    · rintro ⟨v, hv, rfl⟩
      rcases (hused v).mp hv with rfl | ⟨hv, -⟩
      · exact ⟨w, ⟨i, hslot⟩, rfl⟩
      · exact ⟨v, hv, rfl⟩
    · rintro ⟨v, hv, rfl⟩
      by_cases heq : v.seq = w.seq
      · exact ⟨runQuantum n rc out w, (hused _).mpr (.inl rfl), heq.symm⟩
      · exact ⟨v, (hused v).mpr (.inr ⟨hv, heq⟩), rfl⟩
  refine ⟨fun v hv => ?_, h.seq_lt, h.seqs, h.conn_lt, h.answered, h.once, fun a ha => ?_, fun k hk => ?_⟩
  · rcases (hused v).mp hv with rfl | ⟨hv, -⟩
    · exact h.pending w ⟨i, hslot⟩
    · exact h.pending v hv
  · exact (h.settled a ha).imp_left (hpend a.seq).mpr
  · exact h.apart k ((hpend k).mp hk)

theorem begin (h : Ledger s) (w : Work) (n : Int) : Ledger (beginQuantum s w n) :=
  h.of_same rfl rfl rfl rfl (Nat.le_refl _)

theorem note (h : Ledger s) (w : Work) : Ledger (noteFinished s w) :=
  h.of_same rfl rfl rfl rfl (Nat.le_refl _)

theorem dispatch (h : Ledger s) (hc : Connected s) (rc : Int) (out : Nat → UInt32) : Ledger (dispatchStep s rc out) := by
  have hcases := dispatchStep_cases s rc out
  generalize dispatchStep s rc out = t at hcases
  cases hcases with
  | idle _ => exact h
  | @orphan i w hslot hgone =>
      -- no item is without a client
      obtain ⟨a, -, -, -, hconn⟩ := h.pending w ⟨i, hslot⟩
      obtain ⟨j, hj, hfd⟩ := hc.owned _ _ hconn
      exact absurd hfd (hgone j hj)
  | stale hslot _ _ _ => exact h.answer hslot rfl rfl rfl
  | keep hslot _ _ _ _ => exact (h.begin _ _).keep hslot _ _ _
  | @finish i w _ _ hslot _ _ _ _ =>
      exact ((h.begin w _).note _).answer hslot rfl rfl rfl

theorem step (h : Ledger s) (hc : Connected s) {e : Event} (he : Enabled s e) : Ledger (next s e) := by
  cases e with
  | accept fd => exact h.accept he
  | message i env =>
      have hserve := h.serve hc he (serviceMsg_effect s.d (s.d.cl i) env (s.payload i) (s.header i))
      exact hserve.finish (hc.serve i _ _ _) i _
  | hangup i => exact h.drop hc i
  | dispatch rc out => exact h.dispatch hc rc out
  | ring i r => exact h.of_same rfl rfl rfl rfl (Nat.le_refl _)

end Ledger

theorem Initial.ledger {s : Sys} (h : Initial s) : Ledger s := by
  have hnone : ∀ w, ¬ s.d.q.Used w := by
    rintro w ⟨i, hi⟩
    rw [h.q] at hi
    cases hi
  refine ⟨fun w hw => absurd hw (hnone w), ?_, ?_, ?_, ?_, ?_, ?_, ?_⟩
  · simp [h.hist]
  · simp [h.hist]
  · simp [h.hist]
  · simp [h.hist]
  · simp [h.hist]
  · simp [h.hist]
  · rintro n ⟨w, hw, -⟩
    exact absurd hw (hnone w)

theorem ledger_of_reachable {P : Sys → Event → Prop} {s : Sys} (h : orkd.ReachableOn P s) : Ledger s := by
  refine h.invariant (fun s (h0 : Initial s) => h0.ledger) ?_
  rintro s e t hr hs _ ⟨he, rfl⟩
  exact hs.step (connected_of_reachable hr) he

/-! ### What was written -/

/-- The answers of the scheduler on connection `c`. -/
def answersOn (s : Sys) (c : ConnId) : List Reply := (s.hist.answered.filter (·.conn == c)).map (·.reply)

/-- The answers are among what was sent, in order, and nothing else that was sent is a RUN_OK. -/
structure Written (s : Sys) : Prop where
  sent : ∀ c, (answersOn s c).Sublist (s.os.sent c)
  runOk : ∀ c, (s.os.sent c).filter (·.type == .runOk) = (answersOn s c).filter (·.type == .runOk)

namespace Written

variable {s t : Sys}

theorem of_same (h : Written s) (hans : t.hist.answered = s.hist.answered) (hsent : t.os.sent = s.os.sent) :
    Written t := by
  constructor
  · simp only [answersOn, hans, hsent]
    exact h.sent
  · simp only [answersOn, hans, hsent]
    exact h.runOk

/-- Replies of the handlers are none of the scheduler's. -/
theorem reply (h : Written s) {c : ConnId} {rs : List Reply} (hrs : ∀ r ∈ rs, r.type ≠ .runOk)
    (hans : t.hist.answered = s.hist.answered) (hsent : t.os.sent = (s.os.write c rs).sent) : Written t := by
  have hnone : rs.filter (·.type == .runOk) = [] := by
    apply List.filter_eq_nil_iff.mpr
    intro r hr
    simpa using hrs r hr
  constructor
  · intro c'
    simp only [answersOn, hans, hsent, Os.write]
    by_cases hc : c' = c
    · rw [hc, Function.update_self]
      exact (h.sent c).trans (List.sublist_append_left _ _)
    · rw [Function.update_of_ne hc]
      exact h.sent c'
  · intro c'
    simp only [answersOn, hans, hsent, Os.write]
    by_cases hc : c' = c
    · rw [hc, Function.update_self, List.filter_append, hnone, List.append_nil]
      exact h.runOk c
    · rw [Function.update_of_ne hc]
      exact h.runOk c'

theorem answer (h : Written s) (i : Fin orkdQmax) (w : Work) (r : Reply) : Written (answerStep s i w r) := by
  have hans : ∀ c, answersOn (answerStep s i w r) c =
      answersOn s c ++ if (s.os.conn w.fd).getD 0 = c then [r] else [] := by
    intro c
    simp only [answersOn, answerStep, List.filter_append, List.map_append]
    congr 1
    by_cases hc : (s.os.conn w.fd).getD 0 = c <;> simp [hc]
  have hsent : ∀ c, (answerStep s i w r).os.sent c =
      s.os.sent c ++ if (s.os.conn w.fd).getD 0 = c then [r] else [] := by
    intro c
    simp only [answerStep, Os.write]
    by_cases hc : (s.os.conn w.fd).getD 0 = c
    · rw [if_pos hc, hc, Function.update_self]
    · rw [if_neg hc, Function.update_of_ne fun heq => hc heq.symm, List.append_nil]
  constructor
  · intro c
    rw [hans, hsent]
    exact (h.sent c).append (List.Sublist.refl _)
  · intro c
    rw [hans, hsent, List.filter_append, List.filter_append, h.runOk c]

theorem finish (h : Written s) (i : Nat) (b : Bool) : Written (finishMessage s i b) := by
  cases b with
  | true => exact h.of_same rfl rfl
  | false => exact h

theorem note_answered (hist : History) (n : Nat) (c : ConnId) (tag : UInt64) (e : Effect) :
    (hist.note n c tag e).answered = hist.answered := by
  cases e <;> rfl

theorem serve (h : Written s) (i : Nat) (c : ConnId) (tag : UInt64) {o : Outcome}
    (ho : ∀ r ∈ o.replies, r.type ≠ .runOk) : Written (serveWith s i c tag o) :=
  h.reply ho (note_answered ..) rfl

theorem dispatch (h : Written s) (rc : Int) (out : Nat → UInt32) : Written (dispatchStep s rc out) := by
  have hcases := dispatchStep_cases s rc out
  generalize dispatchStep s rc out = t at hcases
  cases hcases with
  | idle _ => exact h
  | orphan _ _ => exact h.of_same rfl rfl
  | stale _ _ _ _ => exact h.answer _ _ _
  | keep _ _ _ _ _ => exact h.of_same rfl rfl
  | @finish i w _ _ _ _ _ _ _ =>
      have hbegin : Written (noteFinished (beginQuantum s w (quantumRows s.d.q w))
          (runQuantum (quantumRows s.d.q w) rc out w)) := h.of_same rfl rfl
      exact hbegin.answer i _ _

theorem step (h : Written s) (e : Event) : Written (next s e) := by
  cases e with
  | accept fd =>
      simp only [next, acceptStep]
      split
      · exact h.of_same rfl rfl
      · refine h.reply (c := s.os.nextConn) (fun r hr => ?_) rfl rfl
        rw [List.mem_singleton.mp hr]
        decide
  | message i env =>
      have hframed := serviceMsg_framed s.d (s.d.cl i) env (s.payload i) (s.header i)
      exact (h.serve i _ _ fun r hr => (hframed.reply r hr).1).finish i _
  | hangup i => exact h.of_same rfl rfl
  | dispatch rc out => exact h.dispatch rc out
  | ring i r => exact h.of_same rfl rfl

end Written

theorem written_of_reachable {P : Sys → Event → Prop} {s : Sys} (h : orkd.ReachableOn P s) : Written s := by
  refine h.invariant (fun s (h0 : Initial s) => ?_) ?_
  · constructor <;> intro c <;> simp [answersOn, h0.hist, h0.sent]
  · rintro s e t _ hs _ ⟨_, rfl⟩
    exact hs.step e

/-! ### The queue drains -/

/-- Rows to go, plus one for the answer. -/
def Work.left (w : Work) : Nat := (w.M - w.m0).toNat + 1

def Queue.load (q : Queue) : Nat := ∑ i, (q.slot i).elim 0 Work.left

theorem Queue.load_lt {q r : Queue} {i : Fin orkdQmax} (hi : (r.slot i).elim 0 Work.left < (q.slot i).elim 0 Work.left)
    (hother : ∀ j, j ≠ i → r.slot j = q.slot j) : r.load < q.load := by
  apply Finset.sum_lt_sum
  · intro j _
    by_cases hj : j = i
    · rw [hj]
      exact Nat.le_of_lt hi
    · rw [hother j hj]
  · exact ⟨i, Finset.mem_univ i, hi⟩

theorem Queue.load_wkFree {q : Queue} {i : Fin orkdQmax} {w : Work} (h : q.slot i = some w) :
    (q.wkFree i).load < q.load := by
  apply Queue.load_lt (i := i)
  · simp [wkFree, h, Work.left]
  · exact fun j hj => Function.update_of_ne hj _ _

theorem Queue.load_eq_zero {q : Queue} (h : q.load = 0) (w : Work) : ¬ q.Used w := by
  rintro ⟨i, hi⟩
  have hterm := Finset.sum_eq_zero_iff.mp h i (Finset.mem_univ i)
  simp [hi, Work.left] at hterm

/-- A quantum that does not finish its item has rows in it. -/
theorem quantumRows_pos {q : Queue} {w : Work} (h : w.m0 + quantumRows q w < w.M) : 0 < quantumRows q w := by
  by_cases halone : q.qn = 1
  · simp only [quantumRows, if_pos halone] at h
    omega
  · by_cases hfew : w.M - w.m0 < orkdQuantumRows
    · simp only [quantumRows, if_neg halone, if_pos hfew] at h
      omega
    · simp only [quantumRows, if_neg halone, if_neg hfew]
      decide

/-- One call of `dispatch_one` brings the queue nearer to empty. -/
theorem dispatchStep_load (s : Sys) (rc : Int) (out : Nat → UInt32) :
    (dispatchStep s rc out).d.q.load ≤ s.d.q.load - 1 := by
  have hcases := dispatchStep_cases s rc out
  generalize dispatchStep s rc out = t at hcases
  cases hcases with
  | idle hempty =>
      have hzero : s.d.q.load = 0 := Finset.sum_eq_zero fun i _ => by rw [hempty i]; rfl
      omega
  | orphan hslot _ => exact Nat.le_sub_one_of_lt (Queue.load_wkFree hslot)
  | stale hslot _ _ _ => exact Nat.le_sub_one_of_lt (Queue.load_wkFree hslot)
  | @keep i w _ _ hslot _ _ _ hlt =>
      apply Nat.le_sub_one_of_lt
      apply Queue.load_lt (i := i)
      · have hpos := quantumRows_pos hlt
        simp only [keepItem, beginQuantum, Queue.modify, Function.update_self, hslot, Option.map_some, Option.elim_some,
          Work.left, runQuantum]
        omega
      · exact fun j hj => Function.update_of_ne hj _ _
  | finish hslot _ _ _ _ => exact Nat.le_sub_one_of_lt (Queue.load_wkFree hslot)

/-- The scheduler alone at work: one tick for each answer of the NPU in the list. -/
def drain (s : Sys) (answers : List (Int × (Nat → UInt32))) : Sys :=
  answers.foldl (fun s a => dispatchStep s a.1 a.2) s

theorem drain_reachable {s : Sys} (h : orkd.Reachable s) (answers : List (Int × (Nat → UInt32))) :
    orkd.Reachable (drain s answers) := by
  induction answers generalizing s with
  | nil => exact h
  | cons a rest ih => exact ih (.step (e := Event.dispatch a.1 a.2) h trivial ⟨trivial, rfl⟩)

theorem drain_load (s : Sys) (answers : List (Int × (Nat → UInt32))) :
    (drain s answers).d.q.load ≤ s.d.q.load - answers.length := by
  induction answers generalizing s with
  | nil => simp [drain]
  | cons a rest ih =>
      have hstep := dispatchStep_load s a.1 a.2
      calc (drain s (a :: rest)).d.q.load
        _ ≤ (dispatchStep s a.1 a.2).d.q.load - rest.length := ih _
        _ ≤ s.d.q.load - (rest.length + 1) := by omega

theorem drain_accepted (s : Sys) (answers : List (Int × (Nat → UInt32))) :
    (drain s answers).hist.accepted = s.hist.accepted ∧ (drain s answers).os.conn = s.os.conn := by
  induction answers generalizing s with
  | nil => exact ⟨rfl, rfl⟩
  | cons a rest ih =>
      have hacc : (dispatchStep s a.1 a.2).hist.accepted = s.hist.accepted := by
        have hcases := dispatchStep_cases s a.1 a.2
        generalize dispatchStep s a.1 a.2 = t at hcases
        cases hcases <;> rfl
      have hfold : drain s (a :: rest) = drain (dispatchStep s a.1 a.2) rest := rfl
      obtain ⟨h1, h2⟩ := ih (dispatchStep s a.1 a.2)
      rw [hfold, h1, h2, hacc, dispatchStep_conn]
      exact ⟨rfl, rfl⟩

/-! ### Delivery -/

/-- What the queue is for: its items belong to live clients on the connection and with the tag of their RUN, a closed
descriptor has none left, and every accepted RUN is pending, answered once, or cut off by its client's end. -/
structure Delivered (s : Sys) : Prop where
  owner : ∀ w, s.d.q.Used w → ∃ i, i < s.d.nc ∧ (s.d.cl i).fd = w.fd ∧
    ∃ a ∈ s.hist.accepted, a.seq = w.seq ∧ a.tag = w.tag ∧ a.conn = s.connOf i
  purged : ∀ fd, s.os.conn fd = none → ∀ w, s.d.q.Used w → w.fd ≠ fd
  seqs : (s.hist.accepted.map (·.seq)).Nodup
  settled : ∀ a ∈ s.hist.accepted, IsPending s a.seq ∨ IsAnswered s a.seq ∨ IsClosed s a.conn
  waiting : ∀ a ∈ s.hist.accepted, IsPending s a.seq → ¬ IsAnswered s a.seq ∧ ¬ IsClosed s a.conn
  answered : ∀ r ∈ s.hist.answered, ∃ a ∈ s.hist.accepted, a.seq = r.seq ∧ a.conn = r.conn ∧ a.tag = r.reply.tag
  once : (s.hist.answered.map (·.seq)).Nodup
  written : Written s

theorem delivered_of_reachable (s : Sys) (h : orkd.Reachable s) :
    Delivered s ∧ ∀ answers : List (Int × (Nat → UInt32)), s.d.q.load ≤ answers.length →
      Delivered (drain s answers) ∧
        ∀ a ∈ s.hist.accepted, IsAnswered (drain s answers) a.seq ∨ IsClosed s a.conn := by
  have hdelivered : ∀ s, orkd.Reachable s → Delivered s := by
    intro s h
    have hc := connected_of_reachable h
    have hl := ledger_of_reachable h
    refine ⟨fun w hw => ?_, fun fd hfd w hw heq => ?_, hl.seqs, hl.settled, fun a ha hp => ⟨hl.apart _ hp, ?_⟩,
      hl.answered, hl.once, written_of_reachable h⟩
    · obtain ⟨a, ha, hseq, htag, hconn⟩ := hl.pending w hw
      obtain ⟨i, hi, hfd⟩ := hc.owned _ _ hconn
      refine ⟨i, hi, hfd, a, ha, hseq, htag, ?_⟩
      have hci := hc.conn_eq hi
      rw [hfd, hconn] at hci
      exact Option.some.inj hci
    · obtain ⟨a, -, -, -, hconn⟩ := hl.pending w hw
      rw [heq, hfd] at hconn
      cases hconn
    · obtain ⟨w, hw, hseq⟩ := hp
      obtain ⟨b, hb, hbseq, -, hbconn⟩ := hl.pending w hw
      obtain rfl := hl.accepted_inj ha hb (hseq.symm.trans hbseq.symm)
      exact fun hclosed => hclosed _ hbconn
  refine ⟨hdelivered s h, fun answers hlen => ?_⟩
  have hreach := drain_reachable h answers
  have hempty : (drain s answers).d.q.load = 0 := by
    have := drain_load s answers
    omega
  obtain ⟨hacc, hconn⟩ := drain_accepted s answers
  refine ⟨hdelivered _ hreach, fun a ha => ?_⟩
  rcases (ledger_of_reachable hreach).settled a (hacc ▸ ha) with ⟨w, hw, -⟩ | hans | hclosed
  · exact absurd hw (Queue.load_eq_zero hempty w)
  · exact .inl hans
  · refine .inr fun fd => ?_
    rw [← hconn]
    exact hclosed fd

/-- Import a 32x32 weight, then RUN one row on it. -/
def importThenRun : Stream :=
  .ofBytes (OrkdMsgType.importW.message 1
      (bytes32 32 ++ bytes32 32 ++ bytes32 1 ++ bytes32 0 ++ bytes64 4096 ++ bytes64 0) ++
    OrkdMsgType.run.message 7 (bytes64 1 ++ bytes32 1 ++ bytes32 0 ++ bytes32 32 ++ bytes32 0 ++ List.replicate 32 1))

def importThenRunState : Sys :=
  [.accept 5, .message 0 .good, .accept 6, .message 0 .good].foldl next (boot false fun _ => importThenRun)

/-- One tick answers the RUN of that state. -/
example : (drain importThenRunState [(0, fun _ => 32)]).hist.answered.map (·.seq) = [0] := by decide +kernel

theorem delivered_importThenRun : Delivered importThenRunState ∧ ∀ answers : List (Int × (Nat → UInt32)),
    importThenRunState.d.q.load ≤ answers.length → Delivered (drain importThenRunState answers) ∧
      ∀ a ∈ importThenRunState.hist.accepted,
        IsAnswered (drain importThenRunState answers) a.seq ∨ IsClosed importThenRunState a.conn :=
  delivered_of_reachable _ (boot_run (by decide))

end OrkDriver.Orkd
