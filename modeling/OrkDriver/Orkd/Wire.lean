import Mathlib.Algebra.Ring.Int.Defs
import Mathlib.Algebra.Ring.Nat
import Mathlib.Data.Nat.Notation
import Mathlib.Tactic.TypeStar

/-!
The wire of `orkd_proto.h`: packed little-endian structs as they lie in a client's byte stream,
and the replies the daemon writes.
-/

namespace OrkDriver.Orkd

/-- What a peer writes on its connection, byte by byte. -/
abbrev Stream := Nat → UInt8

def Stream.drop (s : Stream) (n : Nat) : Stream := fun i => s (n + i)

def Stream.take (s : Stream) (n : Nat) : List UInt8 := (List.range n).map s

/-- A peer that writes these bytes and then zeros. -/
def Stream.ofBytes (l : List UInt8) : Stream := fun i => l.getD i 0

@[simp] theorem Stream.take_length (s : Stream) (n : Nat) : (s.take n).length = n := by
  simp only [Stream.take, List.length_map, List.length_range]

def le32 (s : Stream) (o : Nat) : UInt32 :=
  .ofNat ((s o).toNat + (s (o + 1)).toNat * 2 ^ 8 + (s (o + 2)).toNat * 2 ^ 16 + (s (o + 3)).toNat * 2 ^ 24)

def le64 (s : Stream) (o : Nat) : UInt64 :=
  .ofNat ((le32 s o).toNat + (le32 s (o + 4)).toNat * 2 ^ 32)

def bytes32 (x : UInt32) : List UInt8 :=
  [.ofNat x.toNat, .ofNat (x.toNat / 2 ^ 8), .ofNat (x.toNat / 2 ^ 16), .ofNat (x.toNat / 2 ^ 24)]

def bytes64 (x : UInt64) : List UInt8 := bytes32 (.ofNat x.toNat) ++ bytes32 (.ofNat (x.toNat / 2 ^ 32))

/-- `(int)x` of a 32-bit field. -/
def cInt (x : UInt32) : Int := if x.toNat < 2 ^ 31 then x.toNat else x.toNat - 2 ^ 32

/-- `(uint32_t)x` of an integer product. -/
def cU32 (x : Int) : Nat := (x % 2 ^ 32).toNat

/-- `(size_t)x` of an integer product. -/
def cSize (x : Int) : Nat := (x % 2 ^ 64).toNat

inductive OrkdMsgType
  | hello | welcome | bye | ping | pong
  | pack | packOk | run | runOk | free
  | dmabufProbe | dmabufOk | runZc | runZc2
  | sdp | sdpOk | chain | chainOk | seq | seqOk
  | ringSetup | ringOk | domReq | domOk | domRel
  | importW | importOk | ffn | ffnOk
  | kvAlloc | kvAllocOk | kvAppend | kvAppendOk
  | attn | attnOk | attnRr | attnRrOk | layer | layerOk | error
  deriving DecidableEq, Repr

namespace OrkdMsgType

def code : OrkdMsgType → UInt32
  | hello => 1 | welcome => 2 | bye => 3 | ping => 4 | pong => 5
  | pack => 16 | packOk => 17 | run => 18 | runOk => 19 | free => 20
  | dmabufProbe => 32 | dmabufOk => 33 | runZc => 34 | runZc2 => 35
  | sdp => 36 | sdpOk => 37 | chain => 38 | chainOk => 39 | seq => 40 | seqOk => 41
  | ringSetup => 42 | ringOk => 43 | domReq => 44 | domOk => 45 | domRel => 46
  | importW => 47 | importOk => 48 | ffn => 49 | ffnOk => 50
  | kvAlloc => 51 | kvAllocOk => 52 | kvAppend => 53 | kvAppendOk => 54
  | attn => 55 | attnOk => 56 | attnRr => 57 | attnRrOk => 58 | layer => 59 | layerOk => 60 | error => 255

/-- The requests `main` has a case for. -/
def requests : List OrkdMsgType :=
  [hello, ping, bye, pack, kvAlloc, kvAppend, importW, ffn, attn, attnRr, layer, run, free, sdp, chain, seq,
    runZc, runZc2, dmabufProbe, ringSetup, domReq, domRel]

/-- The case `switch (h.type)` takes; `none` is `default`. -/
def ofCode (t : UInt32) : Option OrkdMsgType := requests.find? fun m => m.code == t

end OrkdMsgType

/-- A request as a client writes it: header, then payload. -/
def OrkdMsgType.message (m : OrkdMsgType) (tag : UInt64) (payload : List UInt8) : List UInt8 :=
  bytes32 m.code ++ bytes32 (.ofNat payload.length) ++ bytes64 tag ++ payload

inductive OrkdErr
  | enosys | eproto | ebadh | enpu | eoom
  deriving DecidableEq, Repr

def OrkdErr.code : OrkdErr → Int
  | enosys => 1 | eproto => 2 | ebadh => 3 | enpu => 4 | eoom => 5

inductive OrkdDtype
  | i8 | f16 | i4
  deriving DecidableEq, Repr

namespace OrkdDtype

def ofWire (t : UInt32) : Option OrkdDtype :=
  if t = 1 then some i8 else if t = 2 then some f16 else if t = 3 then some i4 else none

/-- `orkd_esz_a`: int8 (and int4 in int8) 1 byte, fp16 2 bytes. -/
def esz : OrkdDtype → Nat
  | f16 => 2
  | _ => 1

end OrkdDtype

def orkdMaxBytes : Nat := 512 * 2 ^ 20
def orkdMaxClients : Nat := 64
def orkdMaxWeights : Nat := 512
def orkdNdom : Nat := 64
def orkdQmax : Nat := 256
def orkdQuantumRows : Nat := 64
def orkdChainMax : Nat := 256
def orkdSeqMax : Nat := 512
def orkdAttnRrMax : Nat := 64
def orkdRingSlots : Nat := 8
def orkdRingSlotData : Nat := 64 * 1024

structure OrkdHdr where
  type : UInt32
  len : UInt32
  tag : UInt64

def OrkdHdr.size : Nat := 16
def OrkdHdr.read (s : Stream) : OrkdHdr := ⟨le32 s 0, le32 s 4, le64 s 8⟩

structure OrkdPack where
  K : UInt32
  N : UInt32
  dtype : UInt32
  bytes : UInt32
  domain : UInt32

def OrkdPack.size : Nat := 20
def OrkdPack.read (s : Stream) : OrkdPack := ⟨le32 s 0, le32 s 4, le32 s 8, le32 s 12, le32 s 16⟩

structure OrkdImport where
  K : UInt32
  N : UInt32
  dtype : UInt32
  domain : UInt32
  bbBytes : UInt64
  bfBytes : UInt64

def OrkdImport.size : Nat := 32
def OrkdImport.read (s : Stream) : OrkdImport :=
  ⟨le32 s 0, le32 s 4, le32 s 8, le32 s 12, le64 s 16, le64 s 24⟩

structure OrkdFfn where
  gateId : UInt64
  upId : UInt64
  downId : UInt64
  M : UInt32
  K : UInt32
  Nff : UInt32
  Kd : UInt32
  gateMult : UInt32
  gateShift : UInt32
  upMult : UInt32
  upShift : UInt32
  gluMult : UInt32
  gluShift : UInt32
  inScale : UInt64
  outScale : UInt64
  abytes : UInt32

def OrkdFfn.size : Nat := 92
def OrkdFfn.read (s : Stream) : OrkdFfn :=
  ⟨le64 s 0, le64 s 8, le64 s 16, le32 s 24, le32 s 28, le32 s 32, le32 s 36,
    le32 s 44, le32 s 48, le32 s 52, le32 s 56, le32 s 60, le32 s 64, le64 s 68, le64 s 76, le32 s 84⟩

structure OrkdAttn where
  wktId : UInt64
  wonesId : UInt64
  wvId : UInt64
  Nq : UInt32
  Nk : UInt32
  Kp : UInt32
  dv : UInt32
  rMult : UInt32
  rShift : UInt32
  inScale : UInt64
  outScale : UInt64
  maxBias : UInt64
  abytes : UInt32

def OrkdAttn.size : Nat := 84
def OrkdAttn.read (s : Stream) : OrkdAttn :=
  ⟨le64 s 0, le64 s 8, le64 s 16, le32 s 24, le32 s 28, le32 s 32, le32 s 36, le32 s 44, le32 s 48,
    le64 s 52, le64 s 60, le64 s 68, le32 s 76⟩

structure OrkdAttnRr where
  nchains : UInt32
  Nq : UInt32
  Nk : UInt32
  Kp : UInt32
  dv : UInt32
  rMult : UInt32
  rShift : UInt32
  inScale : UInt64
  outScale : UInt64
  maxBias : UInt64
  abytes : UInt32

def OrkdAttnRr.size : Nat := 64
def OrkdAttnRr.read (s : Stream) : OrkdAttnRr :=
  ⟨le32 s 0, le32 s 4, le32 s 8, le32 s 12, le32 s 16, le32 s 24, le32 s 28, le64 s 32, le64 s 40, le64 s 48,
    le32 s 56⟩

/-- One `{wkt_id, wones_id, wv_id}` triple of the ATTN_RR payload. -/
structure OrkdAttnTriple where
  wktId : UInt64
  wonesId : UInt64
  wvId : UInt64

def OrkdAttnTriple.size : Nat := 24
def OrkdAttnTriple.read (s : Stream) : OrkdAttnTriple := ⟨le64 s 0, le64 s 8, le64 s 16⟩

structure OrkdLayer where
  wq : UInt64
  wk : UInt64
  wv : UInt64
  wo : UInt64
  wg : UInt64
  wu : UInt64
  wd : UInt64
  D : UInt32
  H : UInt32
  Hkv : UInt32
  dk : UInt32
  dv : UInt32
  Nff : UInt32
  nkv : UInt32
  pbytes : UInt32

def OrkdLayer.size : Nat := 116
def OrkdLayer.read (s : Stream) : OrkdLayer :=
  ⟨le64 s 0, le64 s 8, le64 s 16, le64 s 24, le64 s 32, le64 s 40, le64 s 48,
    le32 s 56, le32 s 60, le32 s 64, le32 s 68, le32 s 72, le32 s 76, le32 s 80, le32 s 108⟩

structure OrkdKvAlloc where
  HD : UInt32
  Lmax : UInt32

def OrkdKvAlloc.size : Nat := 8
def OrkdKvAlloc.read (s : Stream) : OrkdKvAlloc := ⟨le32 s 0, le32 s 4⟩

structure OrkdKvAppend where
  kvId : UInt64
  key : UInt32
  HD : UInt32

def OrkdKvAppend.size : Nat := 16
def OrkdKvAppend.read (s : Stream) : OrkdKvAppend := ⟨le64 s 0, le32 s 8, le32 s 12⟩

structure OrkdRun where
  weightId : UInt64
  M : UInt32
  flags : UInt32
  abytes : UInt32
  domain : UInt32

def OrkdRun.size : Nat := 24
def OrkdRun.read (s : Stream) : OrkdRun := ⟨le64 s 0, le32 s 8, le32 s 12, le32 s 16, le32 s 20⟩

/-- `orkd_handle` as a request: FREE and DOM_REL read its id. -/
structure OrkdHandle where
  id : UInt64

def OrkdHandle.size : Nat := 16
def OrkdHandle.read (s : Stream) : OrkdHandle := ⟨le64 s 0⟩

structure OrkdSdp where
  op : UInt32
  M : UInt32
  N : UInt32
  nin : UInt32
  inEsz : UInt32
  outEsz : UInt32
  inbytes : UInt32

def OrkdSdp.size : Nat := 72
def OrkdSdp.read (s : Stream) : OrkdSdp :=
  ⟨le32 s 0, le32 s 4, le32 s 8, le32 s 12, le32 s 16, le32 s 20, le32 s 64⟩

structure OrkdChainHdr where
  S : UInt32
  abytesTotal : UInt32

def OrkdChainHdr.size : Nat := 16
def OrkdChainHdr.read (s : Stream) : OrkdChainHdr := ⟨le32 s 0, le32 s 8⟩

structure OrkdChainTask where
  weightId : UInt64
  M : UInt32
  abytes : UInt32

def OrkdChainTask.size : Nat := 16
def OrkdChainTask.read (s : Stream) : OrkdChainTask := ⟨le64 s 0, le32 s 8, le32 s 12⟩

structure OrkdSeqHdr where
  n : UInt32
  inTotal : UInt32

def OrkdSeqHdr.size : Nat := 16
def OrkdSeqHdr.read (s : Stream) : OrkdSeqHdr := ⟨le32 s 0, le32 s 8⟩

structure OrkdSeqOp where
  kind : UInt32
  M : UInt32
  N : UInt32
  weightId : UInt64
  abytes : UInt32
  bbytes : UInt32
  cbytes : UInt32
  mult : UInt32
  shift : UInt32
  group : UInt32
  inScale : UInt64
  outScale : UInt64
  bScale : UInt64
  aSrc : UInt32
  bSrc : UInt32
  cKeep : UInt32

def OrkdSeqOp.size : Nat := 80
def OrkdSeqOp.read (s : Stream) : OrkdSeqOp :=
  ⟨le32 s 0, le32 s 4, le32 s 8, le64 s 12, le32 s 20, le32 s 24, le32 s 28, le32 s 32, le32 s 36, le32 s 40,
    le64 s 44, le64 s 52, le64 s 60, le32 s 68, le32 s 72, le32 s 76⟩

structure OrkdDmabuf where
  size : UInt64
  checksum : UInt64

def OrkdDmabuf.bytes : Nat := 24
def OrkdDmabuf.read (s : Stream) : OrkdDmabuf := ⟨le64 s 0, le64 s 8⟩

structure OrkdRingSetup where
  bytes : UInt64

def OrkdRingSetup.size : Nat := 8
def OrkdRingSetup.read (s : Stream) : OrkdRingSetup := ⟨le64 s 0⟩

def orkdHelloSize : Nat := 8

/-- What follows the header of a reply. `handle` is `orkd_handle` and the result payload after it. -/
inductive ReplyBody
  | empty
  | welcome (clientId socCores : Nat)
  | handle (id : Nat) (rc : Int) (payload : List UInt8)
  | kvAllocOk (kvId wktId wvId : Nat) (rc : Int)
  | dmabuf (size checksum : UInt64) (rc : Int) (primeOk : Bool)
  | error (code : OrkdErr) (msg : String)
  deriving DecidableEq

/-- Bytes of the body on the wire; `orkd_error` is fixed-size whatever its text. -/
def ReplyBody.size : ReplyBody → Nat
  | empty => 0
  | welcome .. => 16
  | handle _ _ payload => 16 + payload.length
  | kvAllocOk .. => 32
  | dmabuf .. => 24
  | error .. => 72

structure Reply where
  type : OrkdMsgType
  len : UInt32
  tag : UInt64
  body : ReplyBody
  deriving DecidableEq

/-- Every reply header is written with `(uint32_t)` of the size of what follows. -/
def Reply.mk' (type : OrkdMsgType) (tag : UInt64) (body : ReplyBody) : Reply :=
  ⟨type, .ofNat body.size, tag, body⟩

/-- `orkd_send_error`. -/
def sendError (tag : UInt64) (code : OrkdErr) (msg : String) : Reply := .mk' .error tag (.error code msg)

/-- The header of the reply counts exactly the bytes that follow it. -/
def Reply.Whole (r : Reply) : Prop := r.len.toNat = r.body.size

instance (r : Reply) : Decidable r.Whole := inferInstanceAs (Decidable (_ = _))

theorem Reply.mk'_whole_iff (type : OrkdMsgType) (tag : UInt64) (body : ReplyBody) :
    (Reply.mk' type tag body).Whole ↔ body.size < 2 ^ 32 := by
  simp only [Reply.Whole, Reply.mk', UInt32.toNat_ofNat']
  omega

end OrkDriver.Orkd
