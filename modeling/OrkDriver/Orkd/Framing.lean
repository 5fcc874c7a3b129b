import OrkDriver.Orkd.Frame

/-!
The byte stream of a connection: how much each handler takes and how much it writes, against what the header
of the request announces.
-/

namespace OrkDriver.Orkd

/-- The payload bytes a request announces by its own structs, whatever `h.len` says. -/
def ownLength (inp : Stream) : Option OrkdMsgType → Nat
  | some .hello => orkdHelloSize
  | some .pack => OrkdPack.size + (OrkdPack.read inp).bytes.toNat
  | some .kvAlloc => OrkdKvAlloc.size
  | some .kvAppend => OrkdKvAppend.size + 2 * (OrkdKvAppend.read inp).HD.toNat
  | some .importW => OrkdImport.size
  | some .ffn => OrkdFfn.size + (OrkdFfn.read inp).abytes.toNat
  | some .attn => OrkdAttn.size + (OrkdAttn.read inp).abytes.toNat
  | some .attnRr => OrkdAttnRr.size +
      (OrkdAttnTriple.size * (cInt (OrkdAttnRr.read inp).nchains).toNat + (OrkdAttnRr.read inp).abytes.toNat)
  | some .layer => OrkdLayer.size + (OrkdLayer.read inp).pbytes.toNat
  | some .run => OrkdRun.size + (OrkdRun.read inp).abytes.toNat
  | some .free | some .domRel => OrkdHandle.size
  | some .sdp => OrkdSdp.size + (OrkdSdp.read inp).inbytes.toNat
  | some .chain => OrkdChainHdr.size +
      (OrkdChainTask.size * (cInt (OrkdChainHdr.read inp).S).toNat + (OrkdChainHdr.read inp).abytesTotal.toNat)
  | some .seq => OrkdSeqHdr.size +
      (OrkdSeqOp.size * (cInt (OrkdSeqHdr.read inp).n).toNat + (OrkdSeqHdr.read inp).inTotal.toNat)
  | some .runZc | some .runZc2 => OrkdRun.size
  | some .dmabufProbe => OrkdDmabuf.bytes
  | some .ringSetup => OrkdRingSetup.size
  | _ => 0

/-- The result bytes a handler ships behind its `orkd_handle` when the driver succeeds. -/
def resultLength (cl : Client) (inp : Stream) : Option OrkdMsgType → Nat
  | some .ffn => cSize (cInt (OrkdFfn.read inp).M * cInt (OrkdFfn.read inp).Kd * 4)
  | some .attn => cSize (cInt (OrkdAttn.read inp).Nq * 32 * 4) +
      cSize (cInt (OrkdAttn.read inp).Nq * cInt (OrkdAttn.read inp).dv * 4)
  | some .attnRr => (cInt (OrkdAttnRr.read inp).nchains).toNat * (cSize (cInt (OrkdAttnRr.read inp).Nq * 32 * 4) +
      cSize (cInt (OrkdAttnRr.read inp).Nq * cInt (OrkdAttnRr.read inp).dv * 4))
  | some .layer => cSize (cInt (OrkdLayer.read inp).D * 4)
  | some .sdp => cSize ((OrkdSdp.read inp).M.toNat * (OrkdSdp.read inp).N.toNat * (OrkdSdp.read inp).outEsz.toNat)
  | some .chain => ((chainDescs inp (OrkdChainHdr.read inp)).map (chainCb cl)).sum
  | some .seq => seqCtot (seqDescs inp (OrkdSeqHdr.read inp))
  | _ => 0

/-- Only a successful call ships its result. -/
def shippedLength (cl : Client) (env : Env) (inp : Stream) (m : Option OrkdMsgType) : Nat :=
  if env.rc = 0 then resultLength cl inp m else 0

/-- What a handler does to the stream: it takes `n` bytes unless it drops the client, and every reply carries the
request's tag, at most `k` result bytes and the length of its own body. -/
structure Framed (tag : UInt64) (n k : Nat) (o : Outcome) : Prop where
  read : o.drop = false → o.read = n
  reply : ∀ r ∈ o.replies, r.type ≠ .runOk ∧ ∃ body, r = .mk' r.type tag body ∧ body.size ≤ max 72 (16 + k)

namespace Framed

variable {tag : UInt64} {n k : Nat}

theorem silent {o : Outcome} (hread : o.read = n) (hreplies : o.replies = []) : Framed tag n k o where
  read _ := hread
  reply r hr := by rw [hreplies] at hr; cases hr

theorem single {o : Outcome} {type : OrkdMsgType} {body : ReplyBody} (hread : o.drop = false → o.read = n)
    (hreplies : o.replies = [.mk' type tag body]) (htype : type ≠ .runOk) (hsize : body.size ≤ max 72 (16 + k)) :
    Framed tag n k o where
  read := hread
  reply r hr := by
    rw [hreplies, List.mem_singleton] at hr
    subst hr
    exact ⟨htype, body, rfl, hsize⟩

theorem fail (code : OrkdErr) (msg : String) : Framed tag n k (.fail n tag code msg) :=
  single (fun _ => rfl) rfl (by decide) (Nat.le_max_left _ _)

/-- One reply with a body of fixed size. -/
theorem fixed {o : Outcome} {type : OrkdMsgType} {body : ReplyBody} (hread : o.read = n)
    (hreplies : o.replies = [.mk' type tag body]) (htype : type ≠ .runOk) (hsize : body.size ≤ 72) :
    Framed tag n k o :=
  single (fun _ => hread) hreplies htype (Nat.le_trans hsize (Nat.le_max_left _ _))

/-- One reply with the result of the call. -/
theorem result {o : Outcome} {type : OrkdMsgType} {rc : Int} {out : Stream} {l : Nat} (hread : o.read = n)
    (hreplies : o.replies = [.mk' type tag (resultBody rc out l)]) (htype : type ≠ .runOk) (hl : rc = 0 → l = k) :
    Framed tag n k o := by
  apply single (fun _ => hread) hreplies htype
  unfold resultBody
  split
  · rename_i hrc
    simp [ReplyBody.size, hl hrc]
  · simp [ReplyBody.size]

end Framed

@[simp] theorem handle_size (id : Nat) (rc : Int) : (ReplyBody.handle id rc []).size = 16 := rfl
@[simp] theorem kvAllocOk_size (a b c : Nat) (rc : Int) : (ReplyBody.kvAllocOk a b c rc).size = 32 := rfl

variable (d : Daemon) (cl : Client) (env : Env) (inp : Stream) (tag : UInt64) {k : Nat}

theorem handlePack_framed : Framed tag (ownLength inp (some .pack)) k (handlePack cl env inp tag) := by
  simp only [handlePack]
  split
  · exact .fail _ _
  · split
    · exact .fail _ _
    · split
      · exact .fail _ _
      · split
        · exact .fail _ _
        · split <;> exact .fixed rfl rfl (by decide) (by simp)

theorem handleKvAlloc_framed : Framed tag (ownLength inp (some .kvAlloc)) k (handleKvAlloc cl env inp tag) := by
  simp only [handleKvAlloc]
  split
  · split <;> exact .fixed rfl rfl (by decide) (by simp)
  · exact .fixed rfl rfl (by decide) (by simp)

theorem handleKvAppend_framed : Framed tag (ownLength inp (some .kvAppend)) k (handleKvAppend d cl env inp tag) := by
  simp only [handleKvAppend]
  split
  · exact .fail _ _
  · split
    · exact .fail _ _
    · split <;> exact .fixed rfl rfl (by decide) (by simp)

theorem handleImport_framed : Framed tag (ownLength inp (some .importW)) k (handleImport cl env inp tag) := by
  simp only [handleImport]
  split
  · exact .fail _ _
  · split
    · exact .fail _ _
    · split
      · exact .fail _ _
      · split
        · exact .fail _ _
        · split <;> exact .fixed rfl rfl (by decide) (by simp)

theorem handleFfn_framed :
    Framed tag (ownLength inp (some .ffn)) (shippedLength cl env inp (some .ffn)) (handleFfn d cl env inp tag) := by
  simp only [handleFfn]
  split
  · exact .fail _ _
  · split
    · exact .fail _ _
    · split
      · split
        · exact .fail _ _
        · split
          · exact .fail _ _
          · exact .result rfl rfl (by decide) fun hrc => (if_pos hrc).symm
      · exact .fail _ _

theorem handleAttn_framed :
    Framed tag (ownLength inp (some .attn)) (shippedLength cl env inp (some .attn)) (handleAttn d cl env inp tag) := by
  simp only [handleAttn]
  split
  · exact .fail _ _
  · split
    · exact .fail _ _
    · split
      · split
        · exact .fail _ _
        · split
          · exact .fail _ _
          · exact .result rfl rfl (by decide) fun hrc => (if_pos hrc).symm
      · exact .fail _ _

/-- A chain count out of range is the one error after which the stream position is unknown: it drops the client. -/
theorem handleAttnRr_framed : Framed tag (ownLength inp (some .attnRr)) (shippedLength cl env inp (some .attnRr))
    (handleAttnRr d cl env inp tag) := by
  simp only [handleAttnRr]
  split
  · exact .single (fun hdrop => by cases hdrop) rfl (by decide) (Nat.le_max_left _ _)
  · split
    · exact .fail _ _
    · split
      · exact .fail _ _
      · split
        · exact .fixed rfl rfl (by decide) (by simp)
        · exact .result rfl rfl (by decide) fun hrc => (if_pos hrc).symm

theorem handleLayer_framed :
    Framed tag (ownLength inp (some .layer)) (shippedLength cl env inp (some .layer)) (handleLayer d cl env inp tag) := by
  simp only [handleLayer]
  split
  · exact .fail _ _
  · split
    · exact .fail _ _
    · split
      · split
        · exact .fixed rfl rfl (by decide) (by simp)
        · exact .result rfl rfl (by decide) fun hrc => (if_pos hrc).symm
      · exact .fail _ _

theorem handleRun_framed : Framed tag (ownLength inp (some .run)) k (handleRun d cl env inp tag) := by
  simp only [handleRun]
  split
  · exact .fail _ _
  · split
    · exact .fail _ _
    · split
      · exact .fail _ _
      · split
        · exact .fail _ _
        · split
          · exact .fail _ _
          · exact .silent rfl rfl

theorem handleRunZc_framed : Framed tag (ownLength inp (some .runZc)) k (handleRunZc d cl env inp tag) := by
  simp only [handleRunZc]
  split
  · exact .fail _ _
  · split
    · exact .fail _ _
    · split
      · exact .fail _ _
      · split
        · exact .fail _ _
        · exact .silent rfl rfl

theorem handleRunZc2_framed : Framed tag (ownLength inp (some .runZc2)) k (handleRunZc2 d cl env inp tag) := by
  simp only [handleRunZc2]
  split
  · exact .fail _ _
  · split
    · exact .fail _ _
    · split
      · exact .fail _ _
      · split
        · exact .fail _ _
        · split
          · exact .fail _ _
          · exact .silent rfl rfl

theorem handleFree_framed : Framed tag (ownLength inp (some .free)) k (handleFree cl inp tag) := by
  simp only [handleFree]
  split <;> exact .fixed rfl rfl (by decide) (by simp)

theorem sdpRc_eq_zero {sp : OrkdSdp} {rc : Int} (h : sdpRc sp rc = 0) : rc = 0 := by
  unfold sdpRc at h
  split at h
  · exact h
  · cases h

theorem handleSdp_framed :
    Framed tag (ownLength inp (some .sdp)) (shippedLength cl env inp (some .sdp)) (handleSdp env inp tag) := by
  simp only [handleSdp]
  split
  · exact .fail _ _
  · split
    · exact .fail _ _
    · exact .result rfl rfl (by decide) fun hrc => (if_pos (sdpRc_eq_zero hrc)).symm

theorem handleChain_framed :
    Framed tag (ownLength inp (some .chain)) (shippedLength cl env inp (some .chain)) (handleChain d cl env inp tag) := by
  simp only [handleChain]
  split
  · exact .fail _ _
  · split
    · exact .fail _ _
    · split
      · exact .fail _ _
      · split
        · exact .fixed rfl rfl (by decide) (by simp)
        · exact .result rfl rfl (by decide) fun hrc => (if_pos hrc).symm

theorem handleSeq_framed :
    Framed tag (ownLength inp (some .seq)) (shippedLength cl env inp (some .seq)) (handleSeq d cl env inp tag) := by
  simp only [handleSeq]
  split
  · exact .fail _ _
  · split
    · exact .fail _ _
    · split
      · exact .fail _ _
      · split
        · exact .fixed rfl rfl (by decide) (by simp)
        · exact .result rfl rfl (by decide) fun hrc => (if_pos hrc).symm

theorem handleDmabuf_framed : Framed tag (ownLength inp (some .dmabufProbe)) k (handleDmabuf env inp tag) := by
  refine .fixed rfl rfl (by decide) ?_
  split <;> simp [ReplyBody.size]

theorem handleDomReq_framed : Framed tag (ownLength inp (some .domReq)) k (handleDomReq d tag) := by
  simp only [handleDomReq]
  split <;> exact .fixed rfl rfl (by decide) (by simp)

theorem handleDomRel_framed : Framed tag (ownLength inp (some .domRel)) k (handleDomRel cl inp tag) := by
  simp only [handleDomRel]
  split <;> exact .fixed rfl rfl (by decide) (by simp)

theorem handleRingSetup_framed : Framed tag (ownLength inp (some .ringSetup)) k (handleRingSetup cl env inp tag) := by
  simp only [handleRingSetup]
  split <;> exact .fixed rfl rfl (by decide) (by simp)

theorem serviceMsg_framed (h : OrkdHdr) :
    Framed h.tag (ownLength inp (OrkdMsgType.ofCode h.type)) (shippedLength cl env inp (OrkdMsgType.ofCode h.type))
      (serviceMsg d cl env inp h) := by
  unfold serviceMsg
  generalize OrkdMsgType.ofCode h.type = m
  cases m with
  | none => exact .fail _ _
  | some m =>
      cases m with
      | hello => exact .fixed rfl rfl (by decide) (by simp [ReplyBody.size])
      | ping => exact .fixed rfl rfl (by decide) (by decide)
      | bye => exact .silent rfl rfl
      | pack => exact handlePack_framed ..
      | kvAlloc => exact handleKvAlloc_framed ..
      | kvAppend => exact handleKvAppend_framed ..
      | importW => exact handleImport_framed ..
      | ffn => exact handleFfn_framed ..
      | attn => exact handleAttn_framed ..
      | attnRr => exact handleAttnRr_framed ..
      | layer => exact handleLayer_framed ..
      | run => exact handleRun_framed ..
      | free => exact handleFree_framed ..
      | sdp => exact handleSdp_framed ..
      | chain => exact handleChain_framed ..
      | seq => exact handleSeq_framed ..
      | runZc => exact handleRunZc_framed ..
      | runZc2 => exact handleRunZc2_framed ..
      | dmabufProbe => exact handleDmabuf_framed ..
      | ringSetup => exact handleRingSetup_framed ..
      | domReq => exact handleDomReq_framed ..
      | domRel => exact handleDomRel_framed ..
      | _ => exact .fail _ _

end OrkDriver.Orkd
