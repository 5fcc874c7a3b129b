import OrkDriver.Lib.Transition
import OrkDriver.Orkd.Handlers

/-!
The loop of `main` in `orkd.c` as a labelled transition system: accept, one message of one client, a hangup,
one quantum of the submit queue, one slot of an attached ring, in any order. The kernel's side (which
descriptor is which connection, what crossed each connection) is part of the state.
-/

namespace OrkDriver.Orkd

/-! ### dispatch_one -/

/-- Rows of the next quantum: everything when the item is alone in the queue, else at most 64. -/
def quantumRows (q : Queue) (w : Work) : Int :=
  let remaining := w.M - w.m0
  if q.qn = 1 then remaining else if remaining < orkdQuantumRows then remaining else orkdQuantumRows

/-- The matmul of a quantum of `n` rows, at the item's row offset in A and C. -/
def quantumTask (d : Daemon) (w : Work) (cw : CWeight) (n : Int) : MmTask :=
  ⟨resident d cw, n, w.dtype.esz, 4, some (w.aLen - w.m0 * w.K * w.dtype.esz), some (w.cLen - w.m0 * w.N * 4)⟩

/-- The item after a quantum of `n` rows that answered `rc` and left `out` at its offset in C. -/
def runQuantum (n rc : Int) (out : Nat → UInt32) (w : Work) : Work :=
  { w with
    rc := if rc ≠ 0 ∧ w.rc = 0 then rc else w.rc
    m0 := w.m0 + n
    C := fun k =>
      if w.m0 * w.N ≤ k ∧ (k : Int) < (w.m0 + n) * w.N then out ((k : Int) - w.m0 * w.N).toNat else w.C k }

/-- Little-endian byte `j` of a 4-byte result. -/
def wordByte (x : UInt32) (j : Nat) : UInt8 := .ofNat (x.toNat / 2 ^ (8 * j))

/-- The first `n` bytes of a result buffer. -/
def resultBytes (C : Nat → UInt32) (n : Nat) : List UInt8 := (List.range n).map fun j => wordByte (C (j / 4)) (j % 4)

@[simp] theorem resultBytes_length (C : Nat → UInt32) (n : Nat) : (resultBytes C n).length = n := by
  simp only [resultBytes, List.length_map, List.length_range]

/-- The reply of a finished item; ZC2 results are already in the client's buffer. -/
def runReply (w : Work) : Reply :=
  .mk' .runOk w.tag (.handle w.weightId w.rc
    (if w.type ≠ .runZc2 ∧ w.rc = 0 then resultBytes w.C (cSize (w.M * w.N * 4)) else []))

/-- The slot of the client whose descriptor the item carries. -/
def itemClient (d : Daemon) (w : Work) : Option Nat := (List.range d.nc).find? fun j => (d.cl j).fd == w.fd

/-- What one call of `dispatch_one` does. -/
inductive Dispatch
  | idle
  /-- The item's client is gone. -/
  | orphan (i : Fin orkdQmax) (w : Work)
  /-- The item's weight was freed. -/
  | stale (i : Fin orkdQmax) (w : Work)
  /-- A quantum of `n` rows on the weight `cw`. -/
  | quantum (i : Fin orkdQmax) (w : Work) (cw : CWeight) (n : Int)

def dispatchOne (d : Daemon) : Dispatch :=
  match d.q.wkPick d.activeDom with
  | none => .idle
  | some (i, w) =>
    match itemClient d w with
    | none => .orphan i w
    | some j =>
      match (d.cl j).findWeight w.weightId with
      | none => .stale i w
      | some cw => .quantum i w cw (quantumRows d.q w)

theorem runQuantum_seq (n rc : Int) (out : Nat → UInt32) (w : Work) : (runQuantum n rc out w).seq = w.seq := rfl

/-! ### ring_service -/

/-- What the daemon reads of a ring in the client's memory: header geometry and the slot at the cursor. -/
structure RingRequest where
  nslots : UInt32
  slotData : UInt32
  weightId : UInt64
  M : UInt32
  N : UInt32
  dtype : UInt32
  abytes : UInt32

/-- The routine a slot's dtype picks: everything but fp16 and int4 runs as int8. -/
def ringDtype (t : UInt32) : OrkdDtype := if t = 2 then .f16 else if t = 3 then .i4 else .i8

def ringCbytes (r : RingRequest) : Nat := cSize (cInt r.M * cInt r.N * 4)

/-- The call `ring_service` makes for a requested slot; A lies in the slot, C in the reused scratch. -/
def ringCall (d : Daemon) (cl : Client) (r : RingRequest) : Option MmTask :=
  match cl.findWeight r.weightId.toNat with
  | none => none
  | some cw =>
    if orkdRingSlotData < ringCbytes r ∨ r.slotData.toNat < r.abytes.toNat then none
    else some ⟨resident d cw, cInt r.M, (ringDtype r.dtype).esz, 4,
      if cl.ringTail % r.nslots.toNat < orkdRingSlots then some orkdRingSlotData else none, some orkdRingSlotData⟩

/-! ### The system -/

/-- The kernel's side of the daemon. -/
structure Os where
  conn : Nat → Option ConnId
  nextConn : ConnId
  input : ConnId → Stream
  consumed : ConnId → Nat
  sent : ConnId → List Reply

/-- A RUN the daemon accepted: its item's sequence number, the connection it came on, its tag, what it runs on. -/
structure Accepted where
  seq : Nat
  conn : ConnId
  tag : UInt64
  cw : CWeight
  A : Stream
  M : Int

/-- A reply the scheduler wrote: for which item, on which connection. -/
structure Answered where
  seq : Nat
  conn : ConnId
  reply : Reply

/-- One dispatched slice. -/
structure Slice where
  seq : Nat
  m0 : Int
  rows : Int

/-- What has happened to the queued items so far. -/
structure History where
  accepted : List Accepted
  answered : List Answered
  slices : List Slice
  finished : List Work

structure Sys where
  d : Daemon
  os : Os
  hist : History

inductive Event
  /-- `accept` returned this descriptor. -/
  | accept (fd : Nat)
  /-- The client in slot `i` is readable and a message arrives. -/
  | message (i : Nat) (env : Env)
  /-- EOF or a read error on the client in slot `i`. -/
  | hangup (i : Nat)
  /-- One quantum; `rc` and `out` are what the NPU answers if it is run. -/
  | dispatch (rc : Int) (out : Nat → UInt32)
  /-- One requested slot of the ring of the client in slot `i`. -/
  | ring (i : Nat) (r : RingRequest)

namespace Sys

/-- The connection of the client in slot `i`. -/
def connOf (s : Sys) (i : Nat) : ConnId := (s.os.conn (s.d.cl i).fd).getD 0

/-- The stream of the client in slot `i` from the daemon's read position on. -/
def pending (s : Sys) (i : Nat) : Stream := (s.os.input (s.connOf i)).drop (s.os.consumed (s.connOf i))

def header (s : Sys) (i : Nat) : OrkdHdr := OrkdHdr.read (s.pending i)

def payload (s : Sys) (i : Nat) : Stream := (s.pending i).drop OrkdHdr.size

/-- The request at the head of the stream of slot `i`, handled. -/
def outcome (s : Sys) (i : Nat) (env : Env) : Outcome :=
  serviceMsg s.d (s.d.cl i) env (s.payload i) (s.header i)

end Sys

def Os.write (os : Os) (c : ConnId) (rs : List Reply) : Os :=
  { os with sent := Function.update os.sent c (os.sent c ++ rs) }

def Os.consume (os : Os) (c : ConnId) (n : Nat) : Os :=
  { os with consumed := Function.update os.consumed c (os.consumed c + n) }

def Os.close (os : Os) (fd : Nat) : Os := { os with conn := Function.update os.conn fd none }

/-- The accepted item of an enqueue effect. -/
def History.note (hist : History) (seq : Nat) (c : ConnId) (tag : UInt64) : Effect → History
  | .enqueue w cw => { hist with accepted := hist.accepted ++ [⟨seq, c, tag, cw, w.A, w.M⟩] }
  | _ => hist

def acceptStep (s : Sys) (fd : Nat) : Sys :=
  if s.d.nc < orkdMaxClients then
    { s with
      d := s.d.acceptIn fd s.d.domAlloc
      os := { s.os with conn := Function.update s.os.conn fd (some s.os.nextConn), nextConn := s.os.nextConn + 1 } }
  else
    { s with
      os := { s.os.write s.os.nextConn [sendError 0 .eoom "too many clients"] with nextConn := s.os.nextConn + 1 } }

/-- The drop path: the daemon's tables, then `close`. -/
def dropStep (s : Sys) (i : Nat) : Sys := { s with d := s.d.drop i, os := s.os.close (s.d.cl i).fd }

/-- A request of the client in slot `i` on connection `c`, up to the drop check. -/
def serveWith (s : Sys) (i : Nat) (c : ConnId) (tag : UInt64) (o : Outcome) : Sys where
  d := s.d.applyEffect i c o.effect
  os := (s.os.consume c (OrkdHdr.size + o.read)).write c o.replies
  hist := s.hist.note s.d.q.wseq c tag o.effect

def finishMessage (s : Sys) (i : Nat) (drop : Bool) : Sys := if drop then dropStep s i else s

def messageStep (s : Sys) (i : Nat) (env : Env) : Sys :=
  let o := s.outcome i env
  finishMessage (serveWith s i (s.connOf i) (s.header i).tag o) i o.drop

/-- Write a reply of the scheduler and free the item. -/
def answerStep (s : Sys) (i : Fin orkdQmax) (w : Work) (r : Reply) : Sys :=
  let c := (s.os.conn w.fd).getD 0
  { d := { s.d with q := s.d.q.wkFree i }
    os := s.os.write c [r]
    hist := { s.hist with answered := s.hist.answered ++ [⟨w.seq, c, r⟩] } }

/-- The NPU is warmed to the item's domain and given `n` rows. -/
def beginQuantum (s : Sys) (w : Work) (n : Int) : Sys :=
  { s with
    d := { s.d with activeDom := w.domain }
    hist := { s.hist with slices := s.hist.slices ++ [⟨w.seq, w.m0, n⟩] } }

/-- The item stays queued with its new offset. -/
def keepItem (s : Sys) (i : Fin orkdQmax) (n rc : Int) (out : Nat → UInt32) : Sys :=
  { s with d := { s.d with q := s.d.q.modify i (runQuantum n rc out) (runQuantum_seq n rc out) } }

def noteFinished (s : Sys) (w : Work) : Sys := { s with hist := { s.hist with finished := s.hist.finished ++ [w] } }

/-- The last rows of the item are there. -/
def finishItem (s : Sys) (i : Fin orkdQmax) (w : Work) : Sys := answerStep (noteFinished s w) i w (runReply w)

def quantumStep (s : Sys) (i : Fin orkdQmax) (w : Work) (n rc : Int) (out : Nat → UInt32) : Sys :=
  if w.m0 + n < w.M then keepItem (beginQuantum s w n) i n rc out
  else finishItem (beginQuantum s w n) i (runQuantum n rc out w)

def dispatchStep (s : Sys) (rc : Int) (out : Nat → UInt32) : Sys :=
  match dispatchOne s.d with
  | .idle => s
  | .orphan i _ => { s with d := { s.d with q := s.d.q.wkFree i } }
  | .stale i w => answerStep s i w (sendError w.tag .ebadh "weight freed")
  | .quantum i w _ n => quantumStep s i w n rc out

def ringStep (s : Sys) (i : Nat) : Sys :=
  { s with d := s.d.setClient i { s.d.cl i with ringTail := ((s.d.cl i).ringTail + 1) % 2 ^ 32 } }

def next (s : Sys) : Event → Sys
  | .accept fd => acceptStep s fd
  | .message i env => messageStep s i env
  | .hangup i => dropStep s i
  | .dispatch rc out => dispatchStep s rc out
  | .ring i _ => ringStep s i

/-- When the kernel and the loop can produce the event. -/
def Enabled (s : Sys) : Event → Prop
  | .accept fd => s.os.conn fd = none
  | .message i _ => i < s.d.nc
  | .hangup i => i < s.d.nc
  | .dispatch _ _ => True
  | .ring i r => i < s.d.nc ∧ (s.d.cl i).ring ∧ 0 < cInt r.nslots

/-- The driver calls made while the event is handled. -/
def calls (s : Sys) : Event → List NpuCall
  | .message i env => (s.outcome i env).calls
  | .dispatch _ _ =>
    match dispatchOne s.d with
    | .quantum _ w cw n => [.mmRun (quantumTask s.d w cw n)]
    | _ => []
  | .ring i r => ((ringCall s.d (s.d.cl i) r).map NpuCall.mmRun).toList
  | _ => []

/-- `main` before its loop. The client array is uninitialised memory; the peers' streams are arbitrary. -/
structure Initial (s : Sys) : Prop where
  nc : s.d.nc = 0
  q : s.d.q = .empty
  domInuse : ∀ k, s.d.domInuse k = false
  weights : s.d.weights = .empty
  kvs : s.d.kvs = .empty
  conn : ∀ fd, s.os.conn fd = none
  consumed : ∀ c, s.os.consumed c = 0
  sent : ∀ c, s.os.sent c = []
  hist : s.hist = ⟨[], [], [], []⟩

/-- The daemon with its clients and the kernel. -/
def orkd : Transition.System Sys Event := .ofNext Initial Enabled next

instance (s : Sys) (e : Event) : Decidable (Enabled s e) :=
  match e with
  | .accept fd => inferInstanceAs (Decidable (s.os.conn fd = none))
  | .message i _ => inferInstanceAs (Decidable (i < s.d.nc))
  | .hangup i => inferInstanceAs (Decidable (i < s.d.nc))
  | .dispatch _ _ => inferInstanceAs (Decidable True)
  | .ring i r => inferInstanceAs (Decidable (i < s.d.nc ∧ (s.d.cl i).ring ∧ 0 < cInt r.nslots))

/-- A client slot of zeroed memory. -/
def Client.zero : Client := ⟨0, false, 0, [], 0, 0, [], fun _ => false, false, 0⟩

/-- `main` before its loop on zeroed memory; connection `c` will write `input c`. -/
def boot (perClientDom : Bool) (input : ConnId → Stream) : Sys where
  d := ⟨fun _ => .zero, 0, .empty, 0, fun _ => false, perClientDom, .empty, .empty, 0, 1, 3⟩
  os := ⟨fun _ => none, 0, input, fun _ => 0, fun _ => []⟩
  hist := ⟨[], [], [], []⟩

theorem boot_initial (perClientDom : Bool) (input : ConnId → Stream) : Initial (boot perClientDom input) :=
  ⟨rfl, rfl, fun _ => rfl, rfl, rfl, fun _ => rfl, fun _ => rfl, fun _ => rfl, rfl⟩

theorem boot_run {P : Sys → Event → Prop} {perClientDom : Bool} {input : ConnId → Stream} {es : List Event}
    (h : Transition.System.Runs P Enabled next (boot perClientDom input) es) :
    orkd.ReachableOn P (es.foldl next (boot perClientDom input)) :=
  Transition.System.ReachableOn.run (.init (boot_initial perClientDom input)) h

/-- Everything works: allocations and the driver succeed, all descriptors are there. -/
def Env.good : Env := ⟨fun _ => true, true, 0, fun _ => 0, true, true, true, true, false, true, true, 0⟩

end OrkDriver.Orkd
