import OrkDriver.Orkd.Npu

/-!
The request handlers of `orkd_handlers.c`, one per wire opcode. A handler gets the client's record and the
stream behind the header; it answers how many payload bytes it took, what it wrote, what it asked of the
driver and what it left in the tables. A stream that ends inside a payload is the hangup of that client.
-/

namespace OrkDriver.Orkd

structure Outcome where
  read : Nat
  replies : List Reply := []
  calls : List NpuCall := []
  effect : Effect := .none
  drop : Bool := false

/-- Drain what is left of the payload, answer `orkd_send_error`, keep the client. -/
def Outcome.fail (read : Nat) (tag : UInt64) (code : OrkdErr) (msg : String) : Outcome :=
  { read, replies := [sendError tag code msg] }

/-- Answer with an `orkd_handle` and, when the call succeeded, `n` bytes of its output buffer. -/
def resultBody (rc : Int) (out : Stream) (n : Nat) : ReplyBody :=
  .handle 0 rc (if rc = 0 then out.take n else [])

variable (d : Daemon) (cl : Client) (env : Env) (inp : Stream) (tag : UInt64)

/-- The weight behind a table entry. -/
def resident (cw : CWeight) : Option Weight := d.weights.cell cw.w

def handleHello : Outcome :=
  { read := orkdHelloSize
    replies := [.mk' .welcome tag (.welcome d.nextId d.cores)]
    effect := .hello }

def handlePing : Outcome := { read := 0, replies := [.mk' .pong tag .empty] }

def handleBye : Outcome := { read := 0, drop := true }

def handleUnknown : Outcome := .fail 0 tag .eproto "unknown message"

def handleImport : Outcome :=
  let im := OrkdImport.read inp
  let got := OrkdImport.size
  if ¬ env.fd0 then .fail got tag .eproto "import: missing fd"
  else if OrkdDtype.ofWire im.dtype ≠ some .i8 then .fail got tag .enosys "import int8 only"
  else if im.bbBytes = 0 ∨ orkdMaxBytes < im.bbBytes.toNat ∨ orkdMaxBytes < im.bfBytes.toNat then
    .fail got tag .eproto "import bad size"
  else if cl.refusesDomain (cInt im.domain) then .fail got tag .ebadh "domain not owned by client"
  else
    let K := cInt im.K
    let N := cInt im.N
    if env.npuOk ∧ packAccepts .i8 K N ∧ cl.wt.length < orkdMaxWeights then
      { read := got
        replies := [.mk' .importOk tag (.handle (cl.nextWid + 1) 0 [])]
        effect := .addWeight ⟨K, N, .i8, cl.packDomain (cInt im.domain)⟩ }
    else { read := got, replies := [.mk' .importOk tag (.handle 0 (-1) [])] }

def ffnOps (f : OrkdFfn) : List ChainOp :=
  [⟨1, -1, 0, f.gateMult, f.gateShift⟩, ⟨2, 0, 0, 0, 0⟩, ⟨1, -1, 0, f.upMult, f.upShift⟩,
    ⟨3, 1, 2, f.gluMult, f.gluShift⟩, ⟨0, 3, 0, 0, 0⟩]

def handleFfn : Outcome :=
  let f := OrkdFfn.read inp
  let got := OrkdFfn.size + f.abytes.toNat
  let M := cInt f.M
  let K := cInt f.K
  let Nff := cInt f.Nff
  let Kd := cInt f.Kd
  if orkdMaxBytes < f.abytes.toNat then .fail got tag .eproto "ffn A too big"
  else if ¬ env.alloc 0 (max f.abytes.toNat 1) then .fail got tag .eoom "ffn A"
  else match cl.findLastWeight f.gateId.toNat, cl.findLastWeight f.upId.toNat, cl.findLastWeight f.downId.toNat with
  | some cg, some cu, some cd =>
    if M < 1 ∨ K < 1 ∨ Nff < 1 ∨ Kd < 1 ∨ f.abytes.toNat ≠ cU32 (M * K) then
      .fail got tag .eproto "ffn weight/dim"
    else
      let isz := cSize (M * Nff * 4)
      let dsz := cSize (M * Kd * 4)
      if ¬ (env.alloc 1 isz ∧ env.alloc 2 isz ∧ env.alloc 3 isz ∧ env.alloc 4 isz ∧ env.alloc 5 dsz) then
        .fail got tag .eoom "ffn scratch"
      else
        let A := some (max f.abytes.toNat 1 : Int)
        let ts : List MmTask :=
          [⟨resident d cg, M, 1, 4, A, some isz⟩, ⟨resident d cg, M, 1, 4, A, some isz⟩,
            ⟨resident d cu, M, 1, 4, A, some isz⟩, ⟨resident d cg, M, 1, 4, A, some isz⟩,
            ⟨resident d cd, M, 1, 4, A, some dsz⟩]
        { read := got
          replies := [.mk' .ffnOk tag (resultBody env.rc env.out dsz)]
          calls := [.runChainFfn ts (ffnOps f) f.inScale f.outScale]
          drop := env.werr }
  | _, _, _ => .fail got tag .ebadh "ffn weight/dim"

/-- The chain both attention handlers build: scores, exp, the row sums and e.V. -/
def attnTasks (ckt co cv : CWeight) (Nq : Int) (qAvail nb sb ab : Int) : List MmTask :=
  [⟨resident d ckt, Nq, 1, 4, some qAvail, some nb⟩, ⟨resident d ckt, Nq, 1, 4, some nb, some nb⟩,
    ⟨resident d co, Nq, 1, 4, some nb, some sb⟩, ⟨resident d cv, Nq, 1, 4, some nb, some ab⟩]

def attnOps (rMult rShift : UInt32) : List ChainOp :=
  [⟨1, -1, 0, rMult, rShift⟩, ⟨2, 0, 0, 0, 0⟩, ⟨0, 1, 0, 0, 0⟩, ⟨0, 1, 0, 0, 0⟩]

def handleAttn : Outcome :=
  let a := OrkdAttn.read inp
  let got := OrkdAttn.size + a.abytes.toNat
  let Nq := cInt a.Nq
  let Nk := cInt a.Nk
  let Kp := cInt a.Kp
  let dv := cInt a.dv
  if orkdMaxBytes < a.abytes.toNat then .fail got tag .eproto "attn Q too big"
  else if ¬ env.alloc 0 (max a.abytes.toNat 1) then .fail got tag .eoom "attn Q"
  else match cl.findLastWeight a.wktId.toNat, cl.findLastWeight a.wonesId.toNat, cl.findLastWeight a.wvId.toNat with
  | some ckt, some co, some cv =>
    if Nq < 1 ∨ Nk < 1 ∨ Kp < 1 ∨ dv < 1 ∨ a.abytes.toNat ≠ cU32 (Nq * Kp) then
      .fail got tag .eproto "attn weight/dim"
    else
      let nb := cSize (Nq * Nk * 4)
      let sb := cSize (Nq * 32 * 4)
      let ab := cSize (Nq * dv * 4)
      if ¬ (env.alloc 1 nb ∧ env.alloc 2 nb ∧ env.alloc 3 sb ∧ env.alloc 4 ab) then
        .fail got tag .eoom "attn scratch"
      else
        let ts := attnTasks d ckt co cv Nq (max a.abytes.toNat 1 : Nat) nb sb ab
        { read := got
          replies := [.mk' .attnOk tag (resultBody env.rc env.out (sb + ab))]
          calls := [.runChainFfnExpBiased ts (attnOps a.rMult a.rShift) a.inScale a.outScale a.maxBias]
          drop := env.werr }
  | _, _, _ => .fail got tag .ebadh "attn weight/dim"

/-- The resident dims `ork_w_dims` reports; a NULL weight has none. -/
def wDims (w : Option Weight) : Int × Int :=
  match w with
  | some w => (w.K, w.N)
  | none => (0, 0)

/-- The four buffers of chain `n` (the ATTN_RR loop allocates them chain by chain). -/
def attnRrAlloc (n nb sb ab : Nat) : Bool :=
  env.alloc (2 + 4 * n) nb && env.alloc (3 + 4 * n) nb && env.alloc (4 + 4 * n) sb && env.alloc (5 + 4 * n) ab

inductive AttnRrStop
  | oom | bad
  deriving DecidableEq

/-- The task lists of chains `n`, `n+1`, ..; the loop stops at the first one it cannot build. -/
def attnRrChains (Nq Nk Kp dv : Int) (qLen : Nat) : Nat → List OrkdAttnTriple → Except AttnRrStop (List (List MmTask))
  | _, [] => .ok []
  | n, t :: rest =>
    let nb := cSize (Nq * Nk * 4)
    let sb := cSize (Nq * 32 * 4)
    let ab := cSize (Nq * dv * 4)
    if ¬ attnRrAlloc env n nb sb ab then .error .oom
    else match cl.findLastWeight t.wktId.toNat, cl.findLastWeight t.wonesId.toNat, cl.findLastWeight t.wvId.toNat with
    | some ckt, some co, some cv =>
      if wDims (resident d ckt) = (Kp, Nk) ∧ wDims (resident d co) = (Nk, 32) ∧ wDims (resident d cv) = (Nk, dv) then
        match attnRrChains Nq Nk Kp dv qLen (n + 1) rest with
        | .ok chains => .ok (attnTasks d ckt co cv Nq (qLen - n * Nq * Kp) nb sb ab :: chains)
        | .error e => .error e
      else .error .bad
    | _, _, _ => .error .bad

def handleAttnRr : Outcome :=
  let a := OrkdAttnRr.read inp
  let nch := cInt a.nchains
  let Nq := cInt a.Nq
  let Nk := cInt a.Nk
  let Kp := cInt a.Kp
  let dv := cInt a.dv
  if nch < 1 ∨ orkdAttnRrMax < nch then
    { read := OrkdAttnRr.size
      replies := [sendError tag .eproto "attn_rr nchains out of range — dropping (stream position unknowable)"]
      drop := true }
  else
    let tbytes := OrkdAttnTriple.size * nch.toNat
    let got := OrkdAttnRr.size + (tbytes + a.abytes.toNat)
    if Nq < 1 ∨ Nk < 1 ∨ Kp < 1 ∨ dv < 1 ∨ orkdMaxBytes < a.abytes.toNat ∨ a.abytes.toNat ≠ cU32 (nch * Nq * Kp) then
      .fail got tag .eproto "attn_rr dims"
    else if ¬ (env.alloc 0 tbytes ∧ env.alloc 1 (max a.abytes.toNat 1)) then .fail got tag .eoom "attn_rr in"
    else
      let trip := (List.range nch.toNat).map fun n =>
        OrkdAttnTriple.read (inp.drop (OrkdAttnRr.size + OrkdAttnTriple.size * n))
      let sb := cSize (Nq * 32 * 4)
      let ab := cSize (Nq * dv * 4)
      match attnRrChains d cl env Nq Nk Kp dv (max a.abytes.toNat 1) 0 trip with
      | .error e =>
        { read := got
          replies := [.mk' .attnRrOk tag (.handle 0 (match e with | .oom => OrkdErr.eoom.code | .bad => OrkdErr.ebadh.code) [])]
          drop := env.werr }
      | .ok chains =>
        { read := got
          replies := [.mk' .attnRrOk tag (resultBody env.rc env.out (nch.toNat * (sb + ab)))]
          calls := [.runChainsRrBiased chains (attnOps a.rMult a.rShift) a.inScale a.outScale a.maxBias]
          drop := env.werr }

/-- The matmuls of `ork_i8_mm_layer`, warm pass included, with the buffers it allocates for them. -/
def layerTasks (D Nq Nkv Nff : Int) (wq wk wv wo wg wu wd : Option Weight) (warmHit : Bool) : List MmTask :=
  let call (w : Option Weight) (a c : Int) : MmTask := ⟨w, 1, 1, 4, some a, some (c * 4)⟩
  let wa := max Nff D
  let warm :=
    [call wq wa Nq, call wk wa Nkv, call wv wa Nkv, call wo wa D, call wg wa Nff, call wu wa Nff, call wd wa D]
  let run :=
    [call wq D Nq, call wk D Nkv, call wv D Nkv, call wo Nq D, call wg D Nff, call wu D Nff, call wd Nff D]
  if warmHit then run else warm ++ run

/-- A product of two `int`s, wrapped to 32 bits. -/
def cMul (x y : Int) : Int := (x * y + 2 ^ 31) % 2 ^ 32 - 2 ^ 31

def layerPayload (a : OrkdLayer) : Nat :=
  a.D.toNat * 4 + a.dk.toNat * 4 + a.D.toNat * 4 + a.D.toNat * 4
    + cSize (a.Hkv.toNat * a.nkv.toNat * a.dk.toNat * 4) + cSize (a.Hkv.toNat * a.nkv.toNat * a.dv.toNat * 4)

/-- The allocations of `ork_i8_mm_layer`: seven C buffers and four int8 staging buffers. -/
def layerAlloc (D Nq Nkv Nff : Int) : Bool :=
  env.alloc 2 (cSize (Nq * 4)) && env.alloc 3 (cSize (Nkv * 4)) && env.alloc 4 (cSize (Nkv * 4)) &&
    env.alloc 5 (cSize (D * 4)) && env.alloc 6 (cSize (Nff * 4)) && env.alloc 7 (cSize (Nff * 4)) &&
    env.alloc 8 (cSize (D * 4)) && env.alloc 9 (cSize D) && env.alloc 10 (cSize Nq) && env.alloc 11 (cSize D) &&
    env.alloc 12 (cSize Nff)

def handleLayer : Outcome :=
  let a := OrkdLayer.read inp
  let got := OrkdLayer.size + a.pbytes.toNat
  if a.D = 0 ∨ a.H = 0 ∨ a.Hkv = 0 ∨ a.dk = 0 ∨ a.dv = 0 ∨ a.Nff = 0 ∨ a.nkv = 0
      ∨ a.pbytes.toNat ≠ cU32 (layerPayload a) ∨ orkdMaxBytes < a.pbytes.toNat then
    .fail got tag .eproto "layer dims"
  else if ¬ env.alloc 0 a.pbytes.toNat then .fail got tag .eoom "layer pl"
  else match cl.findWeight a.wq.toNat, cl.findWeight a.wk.toNat, cl.findWeight a.wv.toNat, cl.findWeight a.wo.toNat,
      cl.findWeight a.wg.toNat, cl.findWeight a.wu.toNat, cl.findWeight a.wd.toNat with
  | some q, some k, some v, some o, some g, some u, some w =>
    let D := cInt a.D
    let Nq := cMul (cInt a.H) (cInt a.dk)
    let Nkv := cMul (cInt a.Hkv) (cInt a.dk)
    let Nff := cInt a.Nff
    if ¬ env.alloc 1 (cSize (D * 4)) ∨ ¬ layerAlloc env D Nq Nkv Nff then
      { read := got, replies := [.mk' .layerOk tag (.handle 0 (-1) [])], drop := env.werr }
    else
      { read := got
        replies := [.mk' .layerOk tag (resultBody env.rc env.out (cSize (D * 4)))]
        calls := [.mmLayer (layerTasks D Nq Nkv Nff (resident d q) (resident d k) (resident d v) (resident d o)
          (resident d g) (resident d u) (resident d w) env.warmHit)]
        drop := env.werr }
  | _, _, _, _, _, _, _ => .fail got tag .ebadh "layer weight id"

/-- The shapes `ork_kv_resident_alloc` takes; `nmax` of both supported SoCs is 8192. -/
def kvAccepts (HD Lmax : Int) : Bool := HD % 32 = 0 && Lmax % 32 = 0 && 32 ≤ Lmax && Lmax ≤ 8192

def handleKvAlloc : Outcome :=
  let rq := OrkdKvAlloc.read inp
  let HD := cInt rq.HD
  let Lmax := cInt rq.Lmax
  if kvAccepts HD Lmax ∧ env.alloc 0 (cSize (Daemon.kvKp * Lmax)) ∧ env.alloc 1 (cSize (Lmax * HD)) then
    let calls : List NpuCall :=
      [.mmPack .i8 Daemon.kvKp Lmax (cSize (Daemon.kvKp * Lmax)), .mmPack .i8 Lmax HD (cSize (Lmax * HD))]
    if env.npuOk ∧ cl.wt.length + 2 ≤ orkdMaxWeights ∧ cl.kvt.length < orkdMaxWeights then
      { read := OrkdKvAlloc.size
        replies := [.mk' .kvAllocOk tag (.kvAllocOk (cl.nextWid + 3) (cl.nextWid + 1) (cl.nextWid + 2) 0)]
        calls
        effect := .addKv HD Lmax }
    else { read := OrkdKvAlloc.size, replies := [.mk' .kvAllocOk tag (.kvAllocOk 0 0 0 (-1))], calls }
  else { read := OrkdKvAlloc.size, replies := [.mk' .kvAllocOk tag (.kvAllocOk 0 0 0 (-1))] }

def handleKvAppend : Outcome :=
  let rq := OrkdKvAppend.read inp
  let nb := 2 * rq.HD.toNat
  let got := OrkdKvAppend.size + nb
  if rq.HD = 0 ∨ 4096 < rq.HD.toNat then .fail got tag .eproto "bad HD"
  else if ¬ env.alloc 0 nb then .fail got tag .eoom "kv append alloc"
  else match cl.findKv rq.kvId.toNat with
  | none => { read := got, replies := [.mk' .kvAppendOk tag (.handle 0 (-2) [])] }
  | some e =>
    let kv := d.kvs.cell e.kv
    { read := got
      replies := [.mk' .kvAppendOk tag (.handle 0 env.rc [])]
      calls := [.kvAppend kv (kv.bind fun o => d.weights.cell o.wkt) (kv.bind fun o => d.weights.cell o.wv)
        (cInt rq.key) nb (nb - rq.HD.toNat)] }

def handlePack : Outcome :=
  let pk := OrkdPack.read inp
  let got := OrkdPack.size + pk.bytes.toNat
  if pk.bytes = 0 ∨ orkdMaxBytes < pk.bytes.toNat then .fail got tag .eproto "bad pack size"
  else match OrkdDtype.ofWire pk.dtype with
  | none => .fail got tag .enosys "int8/fp16/int4 only"
  | some dtype =>
    if ¬ env.alloc 0 pk.bytes.toNat then .fail got tag .eoom "pack alloc"
    else if cl.refusesDomain (cInt pk.domain) then .fail got tag .ebadh "domain not owned by client"
    else
      let K := cInt pk.K
      let N := cInt pk.N
      let call := NpuCall.mmPack dtype K N pk.bytes.toNat
      if env.npuOk ∧ packAccepts dtype K N ∧ cl.wt.length < orkdMaxWeights then
        { read := got
          replies := [.mk' .packOk tag (.handle (cl.nextWid + 1) 0 [])]
          calls := [call]
          effect := .addWeight ⟨K, N, dtype, cl.packDomain (cInt pk.domain)⟩ }
      else { read := got, replies := [.mk' .packOk tag (.handle 0 (-1) [])], calls := [call] }

/-- The item a RUN request queues; A and C are the buffers it will be dispatched on. -/
def runWork (rq : OrkdRun) (cw : CWeight) (type : OrkdMsgType) (A : Stream) (aLen cLen : Nat) (C : Nat → UInt32) :
    Work where
  fd := cl.fd
  type := type
  M := cInt rq.M
  K := cw.K
  N := cw.N
  m0 := 0
  rc := 0
  dtype := cw.dtype
  domain := if rq.domain = 0 then ((resident d cw).elim 0 fun w => (w.domain : Int)) else cInt rq.domain
  prio := rq.flags.toNat
  tag := tag
  seq := 0
  weightId := rq.weightId.toNat
  A := A
  aLen := aLen
  C := C
  cLen := cLen

/-- The bytes of `M * N` 4-byte results. -/
def runCLen (rq : OrkdRun) (cw : CWeight) : Nat := cSize (rq.M.toNat * cw.N * 4)

def runALen (rq : OrkdRun) (cw : CWeight) : Int := rq.M.toNat * cw.K * cw.dtype.esz

def handleRun : Outcome :=
  let rq := OrkdRun.read inp
  let got := OrkdRun.size + rq.abytes.toNat
  if orkdMaxBytes < rq.abytes.toNat then .fail got tag .eproto "bad A size"
  else if ¬ env.alloc 0 (max rq.abytes.toNat 1) then .fail got tag .eoom "A alloc"
  else match cl.findWeight rq.weightId.toNat with
  | none => .fail got tag .ebadh "unknown weight"
  | some cw =>
    if rq.abytes.toNat ≠ cU32 (runALen rq cw) then .fail got tag .eproto "A size mismatch"
    else if ¬ env.alloc 1 (runCLen rq cw) ∨ d.q.freeSlot = none then .fail got tag .eoom "queue full"
    else
      { read := got
        effect := .enqueue (runWork d cl tag rq cw .run (inp.drop OrkdRun.size) (max rq.abytes.toNat 1) (runCLen rq cw)
          fun k => le32 env.out (4 * k)) cw }

def handleFree : Outcome :=
  let req := OrkdHandle.read inp
  match cl.findWeight req.id.toNat with
  | some _ =>
    { read := OrkdHandle.size
      replies := [.mk' .packOk tag (.handle req.id.toNat 0 [])]
      effect := .freeWeight req.id.toNat }
  | none => { read := OrkdHandle.size, replies := [.mk' .packOk tag (.handle req.id.toNat (-1) [])] }

/-- `sp.nin ? sp.nin : 1`. -/
def sdpNin (sp : OrkdSdp) : Nat := if sp.nin = 0 then 1 else sp.nin.toNat

/-- Only the listed ops reach the driver. -/
def sdpRc (sp : OrkdSdp) (rc : Int) : Int := if 1 ≤ sp.op.toNat ∧ sp.op.toNat ≤ 14 then rc else -100

def handleSdp : Outcome :=
  let sp := OrkdSdp.read inp
  let got := OrkdSdp.size + sp.inbytes.toNat
  let half := cSize (sp.M.toNat * sp.N.toNat * sp.inEsz.toNat)
  let outb := cSize (sp.M.toNat * sp.N.toNat * sp.outEsz.toNat)
  if sp.M = 0 ∨ sp.N = 0 ∨ orkdMaxBytes < sp.inbytes.toNat
      ∨ sp.inbytes.toNat ≠ cSize (half * sdpNin sp) then
    .fail got tag .eproto "bad sdp payload"
  else if ¬ (env.alloc 0 (max sp.inbytes.toNat 1) ∧ env.alloc 1 (max outb 1)) then .fail got tag .eoom "sdp alloc"
  else
    { read := got, replies := [.mk' .sdpOk tag (resultBody (sdpRc sp env.rc) env.out outb)] }

/-- C bytes of one chain task. -/
def chainCb (t : OrkdChainTask) : Nat :=
  match cl.findWeight t.weightId.toNat with
  | some cw => cSize (t.M.toNat * cw.N * 4)
  | none => 0

/-- The loop of `orkd_handle_chain` from task `k`, whose A starts at `aoff`; `none` is `ok = 0`. -/
def chainTasks (total : Nat) : Nat → Nat → List OrkdChainTask → Option (List MmTask)
  | _, _, [] => some []
  | k, aoff, t :: rest =>
    match cl.findWeight t.weightId.toNat with
    | none => none
    | some cw =>
      if cw.dtype ≠ .i8 ∨ t.abytes.toNat ≠ cU32 (t.M.toNat * cw.K) ∨ total < aoff + t.abytes.toNat then none
      else if ¬ env.alloc (5 + k) (chainCb cl t) then none
      else match chainTasks total (k + 1) (aoff + t.abytes.toNat) rest with
      | none => none
      | some ts => some (⟨resident d cw, cInt t.M, 1, 4, some (max total 1 - aoff : Int), some (chainCb cl t)⟩ :: ts)

/-- The task descriptors behind the chain header. -/
def chainDescs (ch : OrkdChainHdr) : List OrkdChainTask :=
  (List.range (cInt ch.S).toNat).map fun k => OrkdChainTask.read (inp.drop (OrkdChainHdr.size + OrkdChainTask.size * k))

def handleChain : Outcome :=
  let ch := OrkdChainHdr.read inp
  let S := cInt ch.S
  let tsz := OrkdChainTask.size * S.toNat
  let total := ch.abytesTotal.toNat
  let got := OrkdChainHdr.size + (tsz + total)
  if S < 1 ∨ orkdChainMax < S ∨ orkdMaxBytes < total then .fail got tag .eproto "bad chain"
  else if ¬ env.alloc 0 tsz then .fail got tag .eoom "chain tasks"
  else if ¬ env.alloc 1 (max total 1) then .fail got tag .eoom "chain A"
  else
    let built := if env.malloc 2 ∧ env.malloc 3 ∧ env.malloc 4 then chainTasks d cl env total 0 0 (chainDescs inp ch) else none
    match built with
    | none => { read := got, replies := [.mk' .chainOk tag (.handle 0 (-1) [])], drop := env.werr }
    | some ts =>
      { read := got
        replies := [.mk' .chainOk tag (resultBody env.rc env.out ((chainDescs inp ch).map (chainCb cl)).sum)]
        calls := [.runChain ts]
        drop := env.werr }

/-- An operand of op `prev.length`: the output buffer of an earlier op, or the next upload. `none` rejects the
sequence; a negative reference is not rejected and reads `Cs[]` before its start. -/
def seqOperand (prev : List Nat) (src : UInt32) (upload : Int) : Option (Option Int) :=
  if src = 0 then some (some upload)
  else if (prev.length : Int) < cInt src then none
  else if 0 < cInt src then some ((prev[(cInt src).toNat - 1]?).map fun n => (n : Int))
  else some none

/-- The loop of `orkd_handle_seq`: `prev` are the output buffers so far, `inoff` the uploads taken. -/
def seqOps (total : Nat) : List Nat → Nat → List OrkdSeqOp → Option (List SeqOp)
  | _, _, [] => some []
  | prev, inoff, o :: rest =>
    let up := if o.aSrc = 0 then o.abytes.toNat else 0
    let upB := if o.bSrc = 0 then o.bbytes.toNat else 0
    let w := if o.weightId = 0 then some none else (cl.findWeight o.weightId.toNat).map fun cw => resident d cw
    let blob : Int := max total 1
    let B := if o.bSrc = 0 ∧ o.bbytes = 0 then some (some 0) else seqOperand prev o.bSrc (blob - (inoff + up))
    match w, seqOperand prev o.aSrc (blob - inoff), B with
    | some w, some A, some B =>
      if total < inoff + (up + upB) ∨ ¬ env.alloc (3 + prev.length) (max o.cbytes.toNat 1) then none
      else match seqOps total (prev ++ [max o.cbytes.toNat 1]) (inoff + (up + upB)) rest with
      | none => none
      | some ops =>
        some (⟨o.kind, w, cInt o.M, cInt o.N, A, B, (max o.cbytes.toNat 1 : Nat), o.mult, o.shift, o.group, o.inScale,
          o.outScale, o.bScale⟩ :: ops)
    | _, _, _ => none

def seqDescs (sh : OrkdSeqHdr) : List OrkdSeqOp :=
  (List.range (cInt sh.n).toNat).map fun k => OrkdSeqOp.read (inp.drop (OrkdSeqHdr.size + OrkdSeqOp.size * k))

/-- Output bytes shipped back: the ops that are not kept resident. -/
def seqCtot (ops : List OrkdSeqOp) : Nat := ((ops.filter (·.cKeep == 0)).map (·.cbytes.toNat)).sum

def handleSeq : Outcome :=
  let sh := OrkdSeqHdr.read inp
  let n := cInt sh.n
  let osz := OrkdSeqOp.size * n.toNat
  let total := sh.inTotal.toNat
  let got := OrkdSeqHdr.size + (osz + total)
  if n < 1 ∨ orkdSeqMax < n ∨ orkdMaxBytes < total then .fail got tag .eproto "bad seq"
  else if ¬ env.alloc 0 osz then .fail got tag .eoom "seq ops"
  else if ¬ env.alloc 1 (max total 1) then .fail got tag .eoom "seq in"
  else
    let built := if env.malloc 2 then seqOps d cl env total [] 0 (seqDescs inp sh) else none
    match built with
    | none => { read := got, replies := [.mk' .seqOk tag (.handle 0 (-2) [])], drop := env.werr }
    | some ops =>
      { read := got
        replies := [.mk' .seqOk tag (resultBody env.rc env.out (seqCtot (seqDescs inp sh)))]
        calls := [.submitSeq ops]
        drop := env.werr }

def handleRunZc2 : Outcome :=
  let rq := OrkdRun.read inp
  match cl.findWeight rq.weightId.toNat with
  | none => .fail OrkdRun.size tag .ebadh "unknown weight"
  | some cw =>
    let alen := cSize (runALen rq cw)
    if ¬ env.fd0 ∨ ¬ env.fd1 then .fail OrkdRun.size tag .eproto "need A+C fds"
    else if ¬ env.dma0 then .fail OrkdRun.size tag .eoom "import A"
    else if ¬ env.dma1 then .fail OrkdRun.size tag .eoom "import C"
    else if d.q.freeSlot = none then .fail OrkdRun.size tag .eoom "queue full"
    else
      { read := OrkdRun.size
        effect := .enqueue (runWork d cl tag rq cw .runZc2 env.out alen (runCLen rq cw) fun k => le32 env.out (4 * k)) cw }

def handleRunZc : Outcome :=
  let rq := OrkdRun.read inp
  match cl.findWeight rq.weightId.toNat with
  | none => .fail OrkdRun.size tag .ebadh "unknown weight"
  | some cw =>
    let alen := cSize (runALen rq cw)
    if ¬ env.fd0 then .fail OrkdRun.size tag .eproto "no A fd"
    else if ¬ env.dma0 then .fail OrkdRun.size tag .eoom "import A"
    else if ¬ env.alloc 0 (runCLen rq cw) ∨ d.q.freeSlot = none then .fail OrkdRun.size tag .eoom "queue full"
    else
      { read := OrkdRun.size
        effect := .enqueue (runWork d cl tag rq cw .runZc env.out alen (runCLen rq cw) fun k => le32 env.out (4 * k)) cw }

def handleDmabuf : Outcome :=
  let db := OrkdDmabuf.read inp
  let sane := env.fd0 ∧ db.size ≠ 0 ∧ db.size.toNat ≤ orkdMaxBytes
  let body : ReplyBody :=
    if sane ∧ (env.dma0 ∨ env.malloc 0) then
      .dmabuf db.size env.checksum (if env.checksum = db.checksum then 0 else -1) env.dma0
    else .dmabuf db.size 0 (-1) false
  { read := OrkdDmabuf.bytes, replies := [.mk' .dmabufOk tag body] }

def handleDomReq : Outcome :=
  match d.domFree with
  | some k => { read := 0, replies := [.mk' .domOk tag (.handle k 0 [])], effect := .domReq k }
  | none => { read := 0, replies := [.mk' .domOk tag (.handle 0 (-1) [])] }

def handleDomRel : Outcome :=
  let rq := OrkdHandle.read inp
  let k := cInt (.ofNat rq.id.toNat)
  if 1 ≤ k ∧ k < orkdNdom ∧ cl.ownedDom k.toNat then
    { read := OrkdHandle.size
      replies := [.mk' .domOk tag (.handle rq.id.toNat 0 [])]
      effect := .domRel k.toNat }
  else { read := OrkdHandle.size, replies := [.mk' .domOk tag (.handle rq.id.toNat (-1) [])] }

/-- `sizeof(struct orkd_ring)`: a 64-byte header and eight slots of 48 + 64 Ki bytes. -/
def orkdRingBytes : Nat := 64 + orkdRingSlots * (48 + orkdRingSlotData)

def handleRingSetup : Outcome :=
  let rs := OrkdRingSetup.read inp
  if env.fd0 ∧ rs.bytes.toNat = orkdRingBytes ∧ ¬ cl.ring ∧ env.ringOk then
    { read := OrkdRingSetup.size, replies := [.mk' .ringOk tag (.handle 0 0 [])], effect := .attachRing }
  else { read := OrkdRingSetup.size, replies := [.mk' .ringOk tag (.handle 0 (-1) [])] }

/-- The `switch (h.type)` of `main`. -/
def serviceMsg (h : OrkdHdr) : Outcome :=
  match OrkdMsgType.ofCode h.type with
  | some .hello => handleHello d h.tag
  | some .ping => handlePing h.tag
  | some .bye => handleBye
  | some .pack => handlePack cl env inp h.tag
  | some .kvAlloc => handleKvAlloc cl env inp h.tag
  | some .kvAppend => handleKvAppend d cl env inp h.tag
  | some .importW => handleImport cl env inp h.tag
  | some .ffn => handleFfn d cl env inp h.tag
  | some .attn => handleAttn d cl env inp h.tag
  | some .attnRr => handleAttnRr d cl env inp h.tag
  | some .layer => handleLayer d cl env inp h.tag
  | some .run => handleRun d cl env inp h.tag
  | some .free => handleFree cl inp h.tag
  | some .sdp => handleSdp env inp h.tag
  | some .chain => handleChain d cl env inp h.tag
  | some .seq => handleSeq d cl env inp h.tag
  | some .runZc => handleRunZc d cl env inp h.tag
  | some .runZc2 => handleRunZc2 d cl env inp h.tag
  | some .dmabufProbe => handleDmabuf env inp h.tag
  | some .ringSetup => handleRingSetup cl env inp h.tag
  | some .domReq => handleDomReq d h.tag
  | some .domRel => handleDomRel cl inp h.tag
  | _ => handleUnknown h.tag

end OrkDriver.Orkd
