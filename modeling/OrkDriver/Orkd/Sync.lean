import OrkDriver.Orkd.Framing

/-!
Stream synchronisation: as long as clients announce the lengths their structs imply and ask for results whose
length fits the reply header, the daemon reads every connection at the start of a message and writes whole replies.
-/

namespace OrkDriver.Orkd

/-- The positions of a client's stream where a header starts, by the lengths its headers announce. -/
inductive MessageStart (inp : Stream) : Nat → Prop
  | first : MessageStart inp 0
  | next {n : Nat} : MessageStart inp n →
      MessageStart inp (n + (OrkdHdr.size + (OrkdHdr.read (inp.drop n)).len.toNat))

/-- BYE, and the one error after which the position is unknown. -/
def EndsClient (inp : Stream) : Option OrkdMsgType → Prop
  | some .bye => True
  | some .attnRr => cInt (OrkdAttnRr.read inp).nchains < 1 ∨ orkdAttnRrMax < cInt (OrkdAttnRr.read inp).nchains
  | _ => False

/-- The result of the RUN a message queues fits a reply. ZC2 results travel in the client's own buffer. -/
def RunFits (cl : Client) (inp : Stream) (m : Option OrkdMsgType) : Prop :=
  m = some .run ∨ m = some .runZc → ∀ cw, cl.findWeight (OrkdRun.read inp).weightId.toNat = some cw →
    16 + cSize (cInt (OrkdRun.read inp).M * cw.N * 4) < 2 ^ 32

/-- The header announces the payload its structs imply, and the reply fits its 32-bit length. -/
def Announced (s : Sys) : Event → Prop
  | .message i env =>
    let m := OrkdMsgType.ofCode (s.header i).type
    (EndsClient (s.payload i) m ∨ (s.header i).len.toNat = ownLength (s.payload i) m) ∧
      16 + shippedLength (s.d.cl i) env (s.payload i) m < 2 ^ 32 ∧ RunFits (s.d.cl i) (s.payload i) m
  | _ => True

structure InSync (s : Sys) : Prop where
  start : ∀ i, i < s.d.nc → MessageStart (s.os.input (s.connOf i)) (s.os.consumed (s.connOf i))
  whole : ∀ c, ∀ r ∈ s.os.sent c, r.Whole

/-- The invariant behind it: connections to come are unread, and every queued result fits its reply. -/
structure SyncInv (s : Sys) : Prop where
  sync : InSync s
  unread : ∀ c, s.os.nextConn ≤ c → s.os.consumed c = 0
  items : ∀ w, s.d.q.Used w → w.type ≠ .runZc2 → 16 + cSize (w.M * w.N * 4) < 2 ^ 32

theorem endsClient_drop (d : Daemon) (cl : Client) (env : Env) {inp : Stream} {h : OrkdHdr}
    (hends : EndsClient inp (OrkdMsgType.ofCode h.type)) : (serviceMsg d cl env inp h).drop = true := by
  unfold serviceMsg
  generalize OrkdMsgType.ofCode h.type = m at hends ⊢
  unfold EndsClient at hends
  split at hends
  · rfl
  · simp only [handleAttnRr, if_pos hends]
  · cases hends

namespace SyncInv

variable {s t : Sys}

theorem write_whole (h : SyncInv s) {c : ConnId} {rs : List Reply} (hrs : ∀ r ∈ rs, r.Whole) (c' : ConnId) :
    ∀ r ∈ (s.os.write c rs).sent c', r.Whole := by
  intro r hr
  by_cases hc : c' = c
  · simp only [Os.write, hc, Function.update_self, List.mem_append] at hr
    rcases hr with hr | hr
    · exact h.sync.whole c r hr
    · exact hrs r hr
  · simp only [Os.write, Function.update_of_ne hc] at hr
    exact h.sync.whole c' r hr

theorem accept (h : SyncInv s) (hc : Connected s) {fd : Nat} (hfd : s.os.conn fd = none) : SyncInv (acceptStep s fd) := by
  have hconn := fun i hi => hc.connOf_accept (i := i) hfd hi
  by_cases hroom : s.d.nc < orkdMaxClients
  · simp only [acceptStep, if_pos hroom] at hconn ⊢
    refine ⟨⟨fun i hi => ?_, h.sync.whole⟩, fun c hle => h.unread c (Nat.le_of_succ_le hle), h.items⟩
    have hi' : i < s.d.nc + 1 := hi
    by_cases hin : i = s.d.nc
    · -- a new connection has not been read from
      subst hin
      have hnew : Sys.connOf { s with
          d := s.d.acceptIn fd s.d.domAlloc
          os := { s.os with conn := Function.update s.os.conn fd (some s.os.nextConn), nextConn := s.os.nextConn + 1 } }
          s.d.nc = s.os.nextConn := by
        simp [Sys.connOf, Daemon.acceptIn]
      rw [hnew, h.unread _ (Nat.le_refl _)]
      exact .first
    · rw [hconn i (by omega)]
      exact h.sync.start i (by omega)
  · simp only [acceptStep, if_neg hroom] at hconn ⊢
    refine ⟨⟨fun i hi => ?_, ?_⟩, fun c hle => h.unread c (Nat.le_of_succ_le hle), h.items⟩
    · rw [hconn i hi]
      exact h.sync.start i hi
    · apply h.write_whole
      intro r hr
      rw [List.mem_singleton.mp hr]
      exact (Reply.mk'_whole_iff _ _ _).mpr (by decide)

/-- Dropping a client takes its stream away; the others are where they were. -/
theorem drop (hc : Connected s) {i : Nat} (hi : i < s.d.nc)
    (hstart : ∀ j, j < s.d.nc → j ≠ i → MessageStart (s.os.input (s.connOf j)) (s.os.consumed (s.connOf j)))
    (hwhole : ∀ c, ∀ r ∈ s.os.sent c, r.Whole) (hunread : ∀ c, s.os.nextConn ≤ c → s.os.consumed c = 0)
    (hitems : ∀ w, s.d.q.Used w → w.type ≠ .runZc2 → 16 + cSize (w.M * w.N * 4) < 2 ^ 32) :
    SyncInv (dropStep s i) := by
  refine ⟨⟨fun j hj => ?_, hwhole⟩, hunread, fun w hw => ?_⟩
  · have hj' : j < s.d.nc - 1 := by simpa [dropStep] using hj
    rw [hc.connOf_drop hi hj']
    exact hstart _ (Daemon.survivor_lt hj') (Daemon.survivor_ne hj')
  · simp only [dropStep, Daemon.drop_q, Queue.used_wkPurgeFd] at hw
    exact hitems w hw.1

/-- Serving a request whose replies are whole and whose RUN fits moves the read position of its connection only. -/
theorem serve (h : SyncInv s) (hc : Connected s) {i : Nat} (hi : i < s.d.nc) (h0 : OrkdHdr) (inp : Stream) (o : Outcome)
    (hreplies : ∀ r ∈ o.replies, r.Whole)
    (heffect : EffectOk s.d (s.d.cl i) (OrkdMsgType.ofCode h0.type) inp h0.tag o.effect)
    (hrun : RunFits (s.d.cl i) inp (OrkdMsgType.ofCode h0.type)) :
    let t := serveWith s i (s.connOf i) h0.tag o
    (∀ j, j < s.d.nc → j ≠ i → MessageStart (t.os.input (t.connOf j)) (t.os.consumed (t.connOf j))) ∧
      (∀ c, ∀ r ∈ t.os.sent c, r.Whole) ∧ (∀ c, t.os.nextConn ≤ c → t.os.consumed c = 0) ∧
      (∀ w, t.d.q.Used w → w.type ≠ .runZc2 → 16 + cSize (w.M * w.N * 4) < 2 ^ 32) ∧
      t.os.consumed (t.connOf i) = s.os.consumed (s.connOf i) + (OrkdHdr.size + o.read) := by
  intro t
  have hconn : ∀ j, t.connOf j = s.connOf j := Connected.connOf_serve i _ _ o
  have hother : ∀ c, c ≠ s.connOf i → t.os.consumed c = s.os.consumed c := fun c hne => Function.update_of_ne hne _ _
  refine ⟨?_, h.write_whole hreplies, ?_, ?_, ?_⟩
  · intro j hj hne
    rw [hconn, hother _ fun heq => hne (hc.connOf_inj hj hi heq)]
    exact h.sync.start j hj
  · intro c hle
    have hlt : s.connOf i < s.os.nextConn := hc.connOf_lt hi
    have hne : c ≠ s.connOf i := by
      rintro rfl
      exact absurd hlt (Nat.not_lt.mpr hle)
    rw [hother c hne]
    exact h.unread c hle
  · intro w hw htype
    simp only [t, serveWith, Daemon.applyEffect_q] at hw
    split at hw
    · rename_i v cw heq
      rw [heq] at heffect
      cases heffect with
      | enqueue hq =>
          obtain ⟨j, hj⟩ := hq.room
          obtain ⟨q', hq'⟩ := Queue.exists_wkAlloc hj v
          rw [hq', Option.getD_some] at hw
          rcases ((Queue.wkAlloc_spec hq').2 w).mp hw with hold | rfl
          · exact h.items w hold htype
          · have hm : OrkdMsgType.ofCode h0.type = some .run ∨ OrkdMsgType.ofCode h0.type = some .runZc := by
              rcases hq.aLen with ⟨hm, -⟩ | ⟨hm | hm, -⟩
              · exact .inl hm
              · exact .inr hm
              · exact absurd (Option.some.inj (hq.type.symm.trans hm)) htype
            have hfit := hrun hm cw hq.found
            rw [← hq.M, ← hq.N] at hfit
            exact hfit
    · exact h.items w hw htype
  · rw [hconn]
    exact Function.update_self ..

theorem finish (hc : Connected s) {i : Nat} (hi : i < s.d.nc) (drop : Bool)
    (hothers : ∀ j, j < s.d.nc → j ≠ i → MessageStart (s.os.input (s.connOf j)) (s.os.consumed (s.connOf j)))
    (hself : drop = false → MessageStart (s.os.input (s.connOf i)) (s.os.consumed (s.connOf i)))
    (hwhole : ∀ c, ∀ r ∈ s.os.sent c, r.Whole) (hunread : ∀ c, s.os.nextConn ≤ c → s.os.consumed c = 0)
    (hitems : ∀ w, s.d.q.Used w → w.type ≠ .runZc2 → 16 + cSize (w.M * w.N * 4) < 2 ^ 32) :
    SyncInv (finishMessage s i drop) := by
  unfold finishMessage
  cases drop with
  | true => exact SyncInv.drop hc hi hothers hwhole hunread hitems
  | false =>
      refine ⟨⟨fun j hj => ?_, hwhole⟩, hunread, hitems⟩
      by_cases hji : j = i
      · rw [hji]
        exact hself rfl
      · exact hothers j hj hji

theorem message (h : SyncInv s) (hc : Connected s) {i : Nat} (hi : i < s.d.nc) (env : Env)
    (hann : Announced s (.message i env)) : SyncInv (messageStep s i env) := by
  obtain ⟨hlen, hresult, hrun⟩ := hann
  have hframed := serviceMsg_framed s.d (s.d.cl i) env (s.payload i) (s.header i)
  have heffect := serviceMsg_effect s.d (s.d.cl i) env (s.payload i) (s.header i)
  have hends : EndsClient (s.payload i) (OrkdMsgType.ofCode (s.header i).type) →
      (serviceMsg s.d (s.d.cl i) env (s.payload i) (s.header i)).drop = true := endsClient_drop s.d (s.d.cl i) env
  rw [← Sys.outcome] at hframed heffect hends
  simp only [messageStep]
  generalize s.outcome i env = o at hframed heffect hends
  have hreplies : ∀ r ∈ o.replies, r.Whole := by
    intro r hr
    obtain ⟨-, body, heq, hsize⟩ := hframed.reply r hr
    rw [heq, Reply.mk'_whole_iff]
    exact Nat.lt_of_le_of_lt hsize (Nat.max_lt.mpr ⟨by decide, hresult⟩)
  obtain ⟨hothers, hwhole, hunread, hitems, hself⟩ := h.serve hc hi (s.header i) (s.payload i) o hreplies heffect hrun
  have hnc := Connected.serveWith_nc (s := s) i (s.connOf i) (s.header i).tag o
  refine finish (hc.serve i _ _ o) (by rw [hnc]; exact hi) o.drop (fun j hj => hothers j (by rwa [hnc] at hj))
    (fun hdrop => ?_) hwhole hunread hitems
  have hread : o.read = (s.header i).len.toNat := by
    rw [hframed.read hdrop]
    rcases hlen with hbye | hlen
    · rw [hends hbye] at hdrop
      cases hdrop
    · exact hlen.symm
  have hstart := MessageStart.next (h.sync.start i hi)
  rw [← Sys.pending, ← Sys.header, ← hread] at hstart
  rw [hself, Connected.connOf_serve]
  exact hstart

theorem runReply_whole {w : Work} (h : w.type ≠ .runZc2 → 16 + cSize (w.M * w.N * 4) < 2 ^ 32) :
    (runReply w).Whole := by
  rw [runReply, Reply.mk'_whole_iff]
  split
  · rename_i hship
    simpa [ReplyBody.size] using h hship.1
  · simp

theorem dispatch (h : SyncInv s) (rc : Int) (out : Nat → UInt32) : SyncInv (dispatchStep s rc out) := by
  have hcases := dispatchStep_cases s rc out
  generalize dispatchStep s rc out = t at hcases
  have hfree : ∀ {i w}, s.d.q.slot i = some w → ∀ v, (s.d.q.wkFree i).Used v → v.type ≠ .runZc2 →
      16 + cSize (v.M * v.N * 4) < 2 ^ 32 := fun hslot v hv =>
    h.items v ((Queue.used_wkFree hslot v).mp hv).1
  cases hcases with
  | idle _ => exact h
  | orphan hslot _ => exact ⟨⟨h.sync.start, h.sync.whole⟩, h.unread, hfree hslot⟩
  | stale hslot _ _ _ =>
      refine ⟨⟨h.sync.start, h.write_whole fun r hr => ?_⟩, h.unread, hfree hslot⟩
      rw [List.mem_singleton.mp hr]
      exact (Reply.mk'_whole_iff _ _ _).mpr (by decide)
  | @keep i w _ _ hslot _ _ _ _ =>
      refine ⟨⟨h.sync.start, h.sync.whole⟩, h.unread, fun v hv => ?_⟩
      rcases (Queue.used_modify hslot (runQuantum_seq _ rc out) v).mp hv with rfl | ⟨hv, -⟩
      · exact h.items w ⟨i, hslot⟩
      · exact h.items v hv
  | @finish i w _ _ hslot _ _ _ _ =>
      refine ⟨⟨h.sync.start, h.write_whole fun r hr => ?_⟩, h.unread, hfree hslot⟩
      rw [List.mem_singleton.mp hr]
      exact runReply_whole (h.items w ⟨i, hslot⟩)

theorem step (h : SyncInv s) (hc : Connected s) {e : Event} (he : Enabled s e) (hann : Announced s e) :
    SyncInv (next s e) := by
  cases e with
  | accept fd => exact h.accept hc he
  | message i env => exact h.message hc he env hann
  | hangup i => exact drop hc he (fun j hj _ => h.sync.start j hj) h.sync.whole h.unread h.items
  | dispatch rc out => exact h.dispatch rc out
  | ring i r =>
      refine ⟨⟨fun j hj => ?_, h.sync.whole⟩, h.unread, h.items⟩
      simp only [next]
      rw [Connected.connOf_ring]
      exact h.sync.start j hj

end SyncInv

theorem Initial.syncInv {s : Sys} (h : Initial s) : SyncInv s := by
  refine ⟨⟨fun i hi => ?_, fun c r hr => ?_⟩, fun c _ => h.consumed c, fun w hw => ?_⟩
  · rw [h.nc] at hi
    omega
  · rw [h.sent] at hr
    cases hr
  · obtain ⟨i, hi⟩ := hw
    rw [h.q] at hi
    cases hi

/-- Every run of announced messages stays in sync on every connection. -/
theorem inSync_of_announced (s : Sys) (h : orkd.ReachableOn Announced s) : InSync s := by
  refine (h.invariant (fun s (h0 : Initial s) => h0.syncInv) ?_).sync
  rintro s e t hr hs hann ⟨he, rfl⟩
  exact hs.step (connected_of_reachable hr) he hann

/-- A PING, then a message of unknown type 99 with four payload bytes. -/
def pingThenUnknown : Stream :=
  .ofBytes (OrkdMsgType.ping.message 1 [] ++ (bytes32 99 ++ bytes32 4 ++ bytes64 2 ++ bytes32 0))

theorem inSync_ping : InSync ([.accept 5, .message 0 .good].foldl next (boot false fun _ => pingThenUnknown)) :=
  inSync_of_announced _ (boot_run ⟨⟨trivial, by decide⟩,
    ⟨⟨.inr (by decide), by decide, fun hm => absurd hm (by decide)⟩, by decide⟩, trivial⟩)

/-- The third message of that stream starts at byte 36, behind the payload of the unknown one. -/
theorem messageStart_pingThenUnknown {n : Nat} (h : MessageStart pingThenUnknown n) :
    n = 0 ∨ n = 16 ∨ 36 ≤ n := by
  have h0 : (OrkdHdr.read (pingThenUnknown.drop 0)).len.toNat = 0 := by decide
  have h16 : (OrkdHdr.read (pingThenUnknown.drop 16)).len.toNat = 4 := by decide
  induction h with
  | first => exact .inl rfl
  | @next n _ ih =>
      rcases ih with rfl | rfl | hn
      · rw [h0]
        exact .inr (.inl rfl)
      · rw [h16]
        exact .inr (.inr (by decide))
      · simp only [OrkdHdr.size]
        omega

theorem unknown_breaks_inSync : ∃ s, orkd.Reachable s ∧ ¬ InSync s := by
  let s := [.accept 5, .message 0 .good, .message 0 .good].foldl next (boot false fun _ => pingThenUnknown)
  have hreach : orkd.Reachable s := boot_run (by decide)
  have hconsumed : s.os.consumed (s.connOf 0) = 32 := by decide
  have hinput : s.os.input (s.connOf 0) = pingThenUnknown := rfl
  refine ⟨s, hreach, fun h => ?_⟩
  have hstart := h.start 0 (by decide)
  rw [hconsumed, hinput] at hstart
  have := messageStart_pingThenUnknown hstart
  omega

end OrkDriver.Orkd
