import OrkDriver.Orkd.Server

/-!
What a request can do to the tables, said once for all handlers: the guard under which each effect is
emitted. Every invariant of the daemon is proved from this list.
-/

namespace OrkDriver.Orkd

/-- The item of an accepted RUN, RUN_ZC or RUN_ZC2: a socket run copied the bytes it checked, the others mapped
a descriptor. -/
structure QueuedRun (d : Daemon) (cl : Client) (m : Option OrkdMsgType) (rq : OrkdRun) (tag : UInt64) (w : Work)
    (cw : CWeight) : Prop where
  found : cl.findWeight rq.weightId.toNat = some cw
  room : ∃ i, d.q.freeSlot = some i
  type : m = some w.type
  fd : w.fd = cl.fd
  tag : w.tag = tag
  weightId : w.weightId = rq.weightId.toNat
  M : w.M = cInt rq.M
  K : w.K = cw.K
  N : w.N = cw.N
  dtype : w.dtype = cw.dtype
  m0 : w.m0 = 0
  rc : w.rc = 0
  aLen : m = some .run ∧ w.aLen = max rq.abytes.toNat 1 ∧ rq.abytes.toNat = cU32 (runALen rq cw) ∨
    (m = some .runZc ∨ m = some .runZc2) ∧ w.aLen = cSize (runALen rq cw)
  cLen : w.cLen = runCLen rq cw

/-- The effects of one request `m` of client `cl` with payload `inp`, with what its handler has checked. -/
inductive EffectOk (d : Daemon) (cl : Client) (m : Option OrkdMsgType) (inp : Stream) (tag : UInt64) : Effect → Prop
  | none : EffectOk d cl m inp tag .none
  | hello : EffectOk d cl m inp tag .hello
  | addWeight {w : Weight} {dom : Int} : cl.refusesDomain dom = false → w.domain = cl.packDomain dom →
      EffectOk d cl m inp tag (.addWeight w)
  | addKv {HD Lmax : Int} : EffectOk d cl m inp tag (.addKv HD Lmax)
  | freeWeight {cw : CWeight} : m = some .free → cl.findWeight (OrkdHandle.read inp).id.toNat = some cw →
      EffectOk d cl m inp tag (.freeWeight (OrkdHandle.read inp).id.toNat)
  | enqueue {w : Work} {cw : CWeight} : QueuedRun d cl m (OrkdRun.read inp) tag w cw →
      EffectOk d cl m inp tag (.enqueue w cw)
  | domReq {k : Nat} : d.domFree = some k → EffectOk d cl m inp tag (.domReq k)
  | domRel {k : Nat} : m = some .domRel → cInt (.ofNat (OrkdHandle.read inp).id.toNat) = k → 1 ≤ k → k < orkdNdom →
      cl.ownedDom k = true → EffectOk d cl m inp tag (.domRel k)
  | attachRing : EffectOk d cl m inp tag .attachRing

variable (d : Daemon) (cl : Client) (env : Env) (inp : Stream) (tag : UInt64)

@[simp] theorem fail_effect (n : Nat) (code : OrkdErr) (msg : String) :
    (Outcome.fail n tag code msg).effect = .none := rfl

theorem handleFfn_effect : (handleFfn d cl env inp tag).effect = .none := by
  simp only [handleFfn]
  split
  · rfl
  · split
    · rfl
    · split
      · split
        · rfl
        · split <;> rfl
      · rfl

theorem handleAttn_effect : (handleAttn d cl env inp tag).effect = .none := by
  simp only [handleAttn]
  split
  · rfl
  · split
    · rfl
    · split
      · split
        · rfl
        · split <;> rfl
      · rfl

theorem handleAttnRr_effect : (handleAttnRr d cl env inp tag).effect = .none := by
  simp only [handleAttnRr]
  split
  · rfl
  · split
    · rfl
    · split
      · rfl
      · split <;> rfl

theorem handleLayer_effect : (handleLayer d cl env inp tag).effect = .none := by
  simp only [handleLayer]
  split
  · rfl
  · split
    · rfl
    · split
      · split <;> rfl
      · rfl

theorem handleKvAppend_effect : (handleKvAppend d cl env inp tag).effect = .none := by
  simp only [handleKvAppend]
  split
  · rfl
  · split
    · rfl
    · split <;> rfl

theorem handleSdp_effect : (handleSdp env inp tag).effect = .none := by
  simp only [handleSdp]
  split
  · rfl
  · split <;> rfl

theorem handleChain_effect : (handleChain d cl env inp tag).effect = .none := by
  simp only [handleChain]
  split
  · rfl
  · split
    · rfl
    · split
      · rfl
      · split <;> rfl

theorem handleSeq_effect : (handleSeq d cl env inp tag).effect = .none := by
  simp only [handleSeq]
  split
  · rfl
  · split
    · rfl
    · split
      · rfl
      · split <;> rfl

theorem handlePack_effect (m : Option OrkdMsgType) : EffectOk d cl m inp tag (handlePack cl env inp tag).effect := by
  simp only [handlePack]
  split
  · exact .none
  · split
    · exact .none
    · split
      · exact .none
      · split
        · exact .none
        · rename_i hdom
          split
          · exact .addWeight (Bool.eq_false_iff.mpr hdom) rfl
          · exact .none

theorem handleImport_effect (m : Option OrkdMsgType) : EffectOk d cl m inp tag (handleImport cl env inp tag).effect := by
  simp only [handleImport]
  split
  · exact .none
  · split
    · exact .none
    · split
      · exact .none
      · split
        · exact .none
        · rename_i hdom
          split
          · exact .addWeight (Bool.eq_false_iff.mpr hdom) rfl
          · exact .none

theorem handleKvAlloc_effect (m : Option OrkdMsgType) : EffectOk d cl m inp tag (handleKvAlloc cl env inp tag).effect := by
  simp only [handleKvAlloc]
  split
  · split
    · exact .addKv
    · exact .none
  · exact .none

theorem handleFree_effect : EffectOk d cl (some .free) inp tag (handleFree cl inp tag).effect := by
  simp only [handleFree]
  split
  · rename_i cw h
    exact .freeWeight rfl h
  · exact .none

theorem exists_freeSlot {q : Queue} (h : ¬ q.freeSlot = none) : ∃ i, q.freeSlot = some i :=
  Option.ne_none_iff_exists'.mp h

theorem handleRun_effect : EffectOk d cl (some .run) inp tag (handleRun d cl env inp tag).effect := by
  simp only [handleRun]
  split
  · exact .none
  · split
    · exact .none
    · split
      · exact .none
      · rename_i cw hcw
        split
        · exact .none
        · rename_i hlen
          split
          · exact .none
          · rename_i hroom
            exact .enqueue ⟨hcw, exists_freeSlot (not_or.mp hroom).2, rfl, rfl, rfl, rfl, rfl, rfl, rfl, rfl, rfl, rfl,
              .inl ⟨rfl, rfl, not_not.mp hlen⟩, rfl⟩

theorem handleRunZc_effect : EffectOk d cl (some .runZc) inp tag (handleRunZc d cl env inp tag).effect := by
  simp only [handleRunZc]
  split
  · exact .none
  · rename_i cw hcw
    split
    · exact .none
    · split
      · exact .none
      · split
        · exact .none
        · rename_i hroom
          exact .enqueue ⟨hcw, exists_freeSlot (not_or.mp hroom).2, rfl, rfl, rfl, rfl, rfl, rfl, rfl, rfl, rfl, rfl,
            .inr ⟨.inl rfl, rfl⟩, rfl⟩

theorem handleRunZc2_effect : EffectOk d cl (some .runZc2) inp tag (handleRunZc2 d cl env inp tag).effect := by
  simp only [handleRunZc2]
  split
  · exact .none
  · rename_i cw hcw
    split
    · exact .none
    · split
      · exact .none
      · split
        · exact .none
        · split
          · exact .none
          · rename_i hroom
            exact .enqueue ⟨hcw, exists_freeSlot hroom, rfl, rfl, rfl, rfl, rfl, rfl, rfl, rfl, rfl, rfl,
              .inr ⟨.inr rfl, rfl⟩, rfl⟩

theorem handleDomReq_effect (m : Option OrkdMsgType) : EffectOk d cl m inp tag (handleDomReq d tag).effect := by
  simp only [handleDomReq]
  split
  · rename_i k h
    exact .domReq h
  · exact .none

theorem handleDomRel_effect : EffectOk d cl (some .domRel) inp tag (handleDomRel cl inp tag).effect := by
  simp only [handleDomRel]
  split
  · rename_i h
    obtain ⟨h1, h2, h3⟩ := h
    exact .domRel rfl (by omega) (by omega) (by omega) h3
  · exact .none

theorem handleRingSetup_effect (m : Option OrkdMsgType) : EffectOk d cl m inp tag (handleRingSetup cl env inp tag).effect := by
  simp only [handleRingSetup]
  split
  · exact .attachRing
  · exact .none

/-- Every request of every type does to the tables one of the listed things, under its guard. -/
theorem serviceMsg_effect (h : OrkdHdr) :
    EffectOk d cl (OrkdMsgType.ofCode h.type) inp h.tag (serviceMsg d cl env inp h).effect := by
  unfold serviceMsg
  split
  · exact .hello
  · exact .none
  · exact .none
  · exact handlePack_effect ..
  · exact handleKvAlloc_effect ..
  · rw [handleKvAppend_effect]; exact .none
  · exact handleImport_effect ..
  · rw [handleFfn_effect]; exact .none
  · rw [handleAttn_effect]; exact .none
  · rw [handleAttnRr_effect]; exact .none
  · rw [handleLayer_effect]; exact .none
  · rename_i hm; rw [hm]; exact handleRun_effect ..
  · rename_i hm; rw [hm]; exact handleFree_effect ..
  · rw [handleSdp_effect]; exact .none
  · rw [handleChain_effect]; exact .none
  · rw [handleSeq_effect]; exact .none
  · rename_i hm; rw [hm]; exact handleRunZc_effect ..
  · rename_i hm; rw [hm]; exact handleRunZc2_effect ..
  · exact .none
  · exact handleRingSetup_effect ..
  · exact handleDomReq_effect ..
  · rename_i hm; rw [hm]; exact handleDomRel_effect ..
  · exact .none

end OrkDriver.Orkd
