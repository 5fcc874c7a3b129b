import OrkDriver.Orkd.Frame
import OrkDriver.Orkd.Ring

/-!
What the daemon's loop does to a client with a ring: a ring is attached once, and its cursor moves when it is serviced and
at no other time, wherever the client's place in the array goes.
-/

namespace OrkDriver.Orkd

variable (d : Daemon) (cl : Client) (env : Env) (inp : Stream) (tag : UInt64)

theorem handlePack_attach : (handlePack cl env inp tag).effect ≠ .attachRing := by
  simp only [handlePack]
  repeat' split
  all_goals simp

theorem handleImport_attach : (handleImport cl env inp tag).effect ≠ .attachRing := by
  simp only [handleImport]
  repeat' split
  all_goals simp

theorem handleKvAlloc_attach : (handleKvAlloc cl env inp tag).effect ≠ .attachRing := by
  simp only [handleKvAlloc]
  repeat' split
  all_goals simp

theorem handleRun_attach : (handleRun d cl env inp tag).effect ≠ .attachRing := by
  simp only [handleRun]
  repeat' split
  all_goals simp

theorem handleFree_attach : (handleFree cl inp tag).effect ≠ .attachRing := by
  simp only [handleFree]
  split <;> simp

theorem handleRunZc_attach : (handleRunZc d cl env inp tag).effect ≠ .attachRing := by
  simp only [handleRunZc]
  repeat' split
  all_goals simp

theorem handleRunZc2_attach : (handleRunZc2 d cl env inp tag).effect ≠ .attachRing := by
  simp only [handleRunZc2]
  repeat' split
  all_goals simp

theorem handleDomReq_attach : (handleDomReq d tag).effect ≠ .attachRing := by
  simp only [handleDomReq]
  split <;> simp

theorem handleDomRel_attach : (handleDomRel cl inp tag).effect ≠ .attachRing := by
  simp only [handleDomRel]
  split <;> simp

theorem handleRingSetup_attach (h : (handleRingSetup cl env inp tag).effect = .attachRing) : cl.ring = false := by
  simp only [handleRingSetup] at h
  split at h
  · rename_i hok
    exact Bool.eq_false_iff.mpr hok.2.2.1
  · simp at h

/-- A client that has a ring does not get another one. -/
theorem serviceMsg_attach (h : OrkdHdr) (he : (serviceMsg d cl env inp h).effect = .attachRing) : cl.ring = false := by
  unfold serviceMsg at he
  split at he
  · simp [handleHello] at he
  · simp [handlePing] at he
  · simp [handleBye] at he
  · exact absurd he (handlePack_attach _ _ _ _)
  · exact absurd he (handleKvAlloc_attach _ _ _ _)
  · simp [handleKvAppend_effect] at he
  · exact absurd he (handleImport_attach _ _ _ _)
  · simp [handleFfn_effect] at he
  · simp [handleAttn_effect] at he
  · simp [handleAttnRr_effect] at he
  · simp [handleLayer_effect] at he
  · exact absurd he (handleRun_attach _ _ _ _ _)
  · exact absurd he (handleFree_attach _ _ _)
  · simp [handleSdp_effect] at he
  · simp [handleChain_effect] at he
  · simp [handleSeq_effect] at he
  · exact absurd he (handleRunZc_attach _ _ _ _ _)
  · exact absurd he (handleRunZc2_attach _ _ _ _ _)
  · simp [handleDmabuf] at he
  · exact handleRingSetup_attach _ _ _ _ he
  · exact absurd he (handleDomReq_attach _ _)
  · exact absurd he (handleDomRel_attach _ _ _)
  · simp [handleUnknown] at he

namespace Daemon

variable {d}

theorem applyEffect_ring {i j : Nat} {c : ConnId} {e : Effect} (he : e ≠ .attachRing) :
    ((d.applyEffect i c e).cl j).ring = (d.cl j).ring ∧ ((d.applyEffect i c e).cl j).ringTail = (d.cl j).ringTail := by
  by_cases hj : j = i
  · subst hj
    cases e with
    | none => exact ⟨rfl, rfl⟩
    | enqueue w cw =>
        simp only [applyEffect_enqueue, enqueue]
        split <;> exact ⟨rfl, rfl⟩
    | freeWeight id =>
        simp only [applyEffect_freeWeight, freeWeight]
        split <;> simp
    | domRel k => simp [applyEffect_domRel, domRel, setClient]
    | hello => simp [applyEffect_hello, hello]
    | addWeight w => simp [applyEffect_addWeight, addWeight]
    | addKv HD Lmax => simp [applyEffect_addKv, addKv]
    | domReq k => simp [applyEffect_domReq, domReq]
    | attachRing => exact absurd rfl he
  · rw [applyEffect_other d i c e hj]
    exact ⟨rfl, rfl⟩

end Daemon

/-- The client on connection `c`, while there is one, has its ring mapped and has been answered `T` times. -/
structure TailAt (c : ConnId) (T : Nat) (s : Sys) : Prop where
  lt : c < s.os.nextConn
  tail : ∀ i, i < s.d.nc → s.connOf i = c → (s.d.cl i).ring = true ∧ (s.d.cl i).ringTail = T % 2 ^ 32

namespace TailAt

variable {c : ConnId} {T : Nat} {s : Sys}

theorem of_same {t : Sys} (h : TailAt c T s) (hnext : s.os.nextConn ≤ t.os.nextConn) (hnc : t.d.nc = s.d.nc)
    (hconn : ∀ j, t.connOf j = s.connOf j)
    (hring : ∀ j, s.connOf j = c → j < s.d.nc →
      (t.d.cl j).ring = (s.d.cl j).ring ∧ (t.d.cl j).ringTail = (s.d.cl j).ringTail) : TailAt c T t where
  lt := Nat.lt_of_lt_of_le h.lt hnext
  tail i hi hc := by
    rw [hconn] at hc
    rw [hnc] at hi
    rw [(hring i hc hi).1, (hring i hc hi).2]
    exact h.tail i hi hc

theorem accept (h : TailAt c T s) (hs : Connected s) {fd : Nat} (hfd : s.os.conn fd = none) :
    TailAt c T (acceptStep s fd) := by
  by_cases hroom : s.d.nc < orkdMaxClients
  · refine ⟨?_, fun i hi hc => ?_⟩
    · simp only [acceptStep, if_pos hroom]
      exact Nat.lt_succ_of_lt h.lt
    · simp only [acceptStep, if_pos hroom, Daemon.acceptIn] at hi
      by_cases hlast : i = s.d.nc
      · subst hlast
        -- the place is the new client's, on a connection younger than `c`
        have hnew : (acceptStep s fd).connOf s.d.nc = s.os.nextConn := by
          simp [acceptStep, hroom, Sys.connOf, Daemon.acceptIn]
        rw [hnew] at hc
        exact absurd (hc ▸ h.lt) (Nat.lt_irrefl _)
      · have hlt : i < s.d.nc := by omega
        rw [hs.connOf_accept hfd hlt] at hc
        simp only [acceptStep, if_pos hroom, Daemon.acceptIn, Function.update_of_ne hlast]
        exact h.tail i hlt hc
  · have hsame : acceptStep s fd =
        { s with os := { s.os.write s.os.nextConn [sendError 0 .eoom "too many clients"] with
          nextConn := s.os.nextConn + 1 } } := by
      simp only [acceptStep, if_neg hroom]
    rw [hsame]
    exact h.of_same (Nat.le_succ _) rfl (fun _ => rfl) fun _ _ _ => ⟨rfl, rfl⟩

theorem drop (h : TailAt c T s) (hs : Connected s) {i : Nat} (hi : i < s.d.nc) : TailAt c T (dropStep s i) where
  lt := h.lt
  tail j hj hc := by
    have hj' : j < s.d.nc - 1 := by simpa [dropStep] using hj
    rw [hs.connOf_drop hi hj'] at hc
    simp only [dropStep, s.d.drop_cl i hj']
    exact h.tail _ (Daemon.survivor_lt hj') hc

theorem serve (h : TailAt c T s) {i : Nat} {k : ConnId} {tag : UInt64} {o : Outcome}
    (hfree : o.effect = .attachRing → (s.d.cl i).ring = false) : TailAt c T (serveWith s i k tag o) := by
  refine h.of_same (Nat.le_refl _) (Connected.serveWith_nc ..) (Connected.connOf_serve i _ _ _) fun j hc hj => ?_
  rw [serveWith]
  by_cases heff : o.effect = .attachRing
  · have hji : j ≠ i := by
      rintro rfl
      have := hfree heff
      rw [(h.tail j hj hc).1] at this
      cases this
    rw [Daemon.applyEffect_other s.d i k o.effect hji]
    exact ⟨rfl, rfl⟩
  · exact Daemon.applyEffect_ring heff

theorem dispatch (h : TailAt c T s) (rc : Int) (out : Nat → UInt32) : TailAt c T (dispatchStep s rc out) := by
  obtain ⟨q, a, hd⟩ := dispatchStep_d s rc out
  refine h.of_same (by simp) (by rw [hd]) (fun j => Connected.connOf_of_same (by rw [hd]) (by simp)) fun j _ _ => ?_
  rw [hd]
  exact ⟨rfl, rfl⟩

theorem ring_other (h : TailAt c T s) {i : Nat} (hi : s.connOf i ≠ c) : TailAt c T (ringStep s i) := by
  refine h.of_same (Nat.le_refl _) rfl (Connected.connOf_ring i) fun j hj _ => ?_
  have hne : j ≠ i := fun hji => hi (hji ▸ hj)
  simp [ringStep, Daemon.setClient, hne]

/-- Whatever the loop does besides servicing this ring leaves its cursor alone. -/
theorem loop (h : TailAt c T s) (hs : Connected s) {e : Event} (he : Enabled s e)
    (helse : ∀ i r, e = .ring i r → s.connOf i ≠ c) : TailAt c T (next s e) := by
  cases e with
  | accept fd => exact h.accept hs he
  | message i env =>
      have hi : i < s.d.nc := he
      have hserve : TailAt c T (serveWith s i (s.connOf i) (s.header i).tag (s.outcome i env)) :=
        h.serve fun heff => serviceMsg_attach s.d (s.d.cl i) env (s.payload i) (s.header i) heff
      simp only [next, messageStep, finishMessage]
      split
      · exact hserve.drop (hs.serve i _ _ _) (by simpa [serveWith] using hi)
      · exact hserve
  | hangup i => exact h.drop hs he
  | dispatch rc out => exact h.dispatch rc out
  | ring i r => exact h.ring_other (helse i r rfl)

/-- An answer moves the cursor to the next slot, also over the end of the counter. -/
theorem ring_self (h : TailAt c T s) (hs : Connected s) {i : Nat} (hi : i < s.d.nc) (hc : s.connOf i = c) :
    TailAt c (T + 1) (ringStep s i) where
  lt := h.lt
  tail j hj hcj := by
    rw [Connected.connOf_ring] at hcj
    obtain rfl : j = i := hs.connOf_inj hj hi (hcj.trans hc.symm)
    obtain ⟨hring, htail⟩ := h.tail j hi hc
    simp only [ringStep, Daemon.setClient, Function.update_self]
    exact ⟨hring, by rw [htail]; omega⟩

end TailAt

end OrkDriver.Orkd
