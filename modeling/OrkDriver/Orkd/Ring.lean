import OrkDriver.Orkd.Server

/-!
The A-ring of `orkd_ring.h`, memory that a client of `liborkd` and the daemon share. A call of `orkd_ring_submit` or
`orkd_ring_collect` and a pass of `ring_service` run step by step between each other; the rest of the daemon's loop
runs whenever `ring_service` does not.
-/

namespace OrkDriver.Orkd

/-! ### The shared memory -/

/-- `state` of a slot. -/
inductive SlotState
  | empty
  | req
  | resp
  deriving DecidableEq

/-- `struct orkd_ring_slot`. -/
structure RingSlot where
  state : SlotState
  weightId : UInt64
  M : UInt32
  K : UInt32
  N : UInt32
  dtype : UInt32
  abytes : UInt32
  cbytes : UInt32
  rc : Int
  domain : UInt32
  data : Stream

/-- `struct orkd_ring`. -/
structure OrkdRing where
  nslots : UInt32
  slotData : UInt32
  stop : Bool
  slot : Nat → RingSlot

/-- The region as `orkd_ring_setup` leaves it. -/
def OrkdRing.fresh : OrkdRing :=
  ⟨8, 65536, false, fun _ => ⟨.empty, 0, 0, 0, 0, 0, 0, 0, 0, 0, fun _ => 0⟩⟩

def OrkdRing.setSlot (r : OrkdRing) (i : Nat) (s : RingSlot) : OrkdRing := { r with slot := Function.update r.slot i s }

/-- `memcpy` of `n` bytes to the front of `data`. -/
def copyBytes (n : Nat) (src data : Stream) : Stream := fun j => if j < n then src j else data j

/-! ### The client -/

/-- The arguments of `orkd_ring_submit`, none of them NULL. -/
structure RingOp where
  weightId : UInt64
  M : Int
  K : Int
  N : Int
  dtype : UInt32
  A : Stream

/-- `ring_esz_a`. -/
def ringEszA (dtype : UInt32) : Nat := if dtype = 2 then 2 else 1

def RingOp.abytes (o : RingOp) : Nat := o.M.toNat * o.K.toNat * ringEszA o.dtype

def RingOp.cbytes (o : RingOp) : Nat := o.M.toNat * o.N.toNat * 4

/-- The three sizes are values of type `int`. -/
def RingOp.IsInt (o : RingOp) : Prop := o.M < 2 ^ 31 ∧ o.K < 2 ^ 31 ∧ o.N < 2 ^ 31

instance decidableIsInt (o : RingOp) : Decidable o.IsInt :=
  inferInstanceAs (Decidable (o.M < 2 ^ 31 ∧ o.K < 2 ^ 31 ∧ o.N < 2 ^ 31))

/-- What `orkd_ring_submit` stores in the fields of a slot. -/
def RingSlot.fill (s : RingSlot) (o : RingOp) (domain : UInt32) : RingSlot :=
  { s with
    weightId := o.weightId, M := .ofNat o.M.toNat, K := .ofNat o.K.toNat, N := .ofNat o.N.toNat, dtype := o.dtype
    abytes := .ofNat o.abytes, cbytes := .ofNat o.cbytes, rc := 0, domain }

/-- Where the client is: outside the ring's functions, in `orkd_ring_submit` before each of its accesses to the slot, in
`orkd_ring_collect` likewise, or disconnected. -/
inductive RingClientPc
  | idle
  | probe (o : RingOp)
  | fields (i : Nat) (o : RingOp)
  | payload (i : Nat) (o : RingOp)
  | publish (i : Nat) (o : RingOp)
  | spin (t : Nat)
  | readRc (t : Nat)
  | copyOut (t : Nat) (rc : Int)
  | release (t : Nat) (rc : Int) (C : List UInt8)
  | gone

def RingClientPc.isIdle : RingClientPc → Bool
  | .idle => true
  | _ => false

/-- What `orkd_conn` holds for the ring. -/
structure RingClient where
  pc : RingClientPc
  ringNext : UInt32
  opDomain : UInt32

/-! ### The daemon -/

/-- `r->slot[i]` as `ring_service` reads it. -/
def OrkdRing.request (r : OrkdRing) (i : Nat) : RingRequest :=
  let s := r.slot i
  ⟨r.nslots, r.slotData, s.weightId, s.M, s.N, s.dtype, s.abytes⟩

/-- One op that the daemon has done: the request and the bytes of A it found, the call it made for them if any, the
status, and what was in the scratch C afterwards. -/
structure RingRun where
  request : RingRequest
  A : List UInt8
  task : Option MmTask
  rc : Int
  out : Nat → UInt32

/-- C as `ring_service` copies it into the slot. -/
def RingRun.bytes (x : RingRun) : Stream := fun j => wordByte (x.out (j / 4)) (j % 4)

/-- C as `orkd_ring_collect` hands it out: nothing is copied after an error. -/
def RingRun.result (x : RingRun) : List UInt8 := if x.rc = 0 then resultBytes x.out (ringCbytes x.request) else []

/-- The call of `ring_service` on what lies in slot `i`; without a weight or room the status is -1 at once. -/
def ringRun (d : Daemon) (cl : Client) (r : OrkdRing) (i : Nat) (rc : Int) (out : Nat → UInt32) : RingRun :=
  let q := r.request i
  let task := ringCall d cl q
  ⟨q, (r.slot i).data.take q.abytes.toNat, task, if task.isNone then -1 else rc, out⟩

/-- Where the daemon is: outside `ring_service`, or in it for slot `i` of the ring of the client in place `ci`, before the
run, before C is copied back, before `rc` and `cbytes` are stored, before the slot is published. -/
inductive RingServicePc
  | rest
  | found (ci i : Nat)
  | ran (ci i : Nat) (x : RingRun)
  | answer (ci i : Nat) (x : RingRun)
  | publish (ci i : Nat) (x : RingRun)

def RingServicePc.isRest : RingServicePc → Bool
  | .rest => true
  | _ => false

/-! ### The system -/

/-- A call of `orkd_ring_collect` that has returned a result: its ticket, which submission was in that slot, and what it
returned. -/
structure Collected where
  ticket : Nat
  number : Option Nat
  rc : Int
  C : List UInt8

/-- A call of `orkd_ring_submit` that returned an error, and the submission that was in the slot it looked at. -/
structure Refused where
  op : RingOp
  rc : Int
  occupant : Option Nat

/-- What has happened: the submitted ops, the ones that were run, how many responses were published, which submission
each slot holds, and what the calls returned. -/
structure RingLog where
  submitted : List RingOp
  executed : List RingRun
  answered : Nat
  live : Nat → Option Nat
  collected : List Collected
  refused : List Refused

/-- The daemon with its clients, and the ring of one of them. -/
structure RingSys where
  sys : Sys
  ring : OrkdRing
  client : RingClient
  daemon : RingServicePc
  log : RingLog

/-- What happens next: the client enters a function, its call takes a step, the daemon does something outside this ring,
`ring_service` turns to the client in place `ci`, or takes a step; `rc` and `out` are what the NPU answers. -/
inductive RingEvent
  | submit (o : RingOp)
  | collect (t : Int)
  | setOpDomain (domain : UInt32)
  | disconnect
  | client
  | loop (e : Event)
  | look (ci : Nat)
  | service (rc : Int) (out : Nat → UInt32)

namespace RingSys

variable (s : RingSys)

def goto (pc : RingClientPc) : RingSys := { s with client := { s.client with pc } }

def refuse (o : RingOp) (rc : Int) (occupant : Option Nat) : RingSys :=
  { s with
    client := { s.client with pc := .idle }
    log := { s.log with refused := s.log.refused ++ [⟨o, rc, occupant⟩] } }

/-- `orkd_ring_submit` up to the first access to the slot. -/
def enterSubmit (o : RingOp) : RingSys :=
  if o.M ≤ 0 ∨ o.K ≤ 0 ∨ o.N ≤ 0 then s.refuse o (-1) none
  else if s.ring.slotData.toNat < o.abytes ∨ s.ring.slotData.toNat < o.cbytes then s.refuse o (-2) none
  else s.goto (.probe o)

/-- `orkd_ring_collect` up to its loop. -/
def enterCollect (t : Int) : RingSys :=
  if t < 0 ∨ (s.ring.nslots.toNat : Int) ≤ t then s else s.goto (.spin t.toNat)

/-- `c->ring_next % r->nslots`. -/
def nextSlot : Nat := (s.client.ringNext % s.ring.nslots).toNat

/-- The next access of the client's call to the shared memory. -/
def clientStep : Option RingSys :=
  match s.client.pc with
  | .idle | .gone => none
  | .probe o =>
    if (s.ring.slot s.nextSlot).state = .empty then some (s.goto (.fields s.nextSlot o))
    else some (s.refuse o (-2) (s.log.live s.nextSlot))
  | .fields i o =>
    some { s.goto (.payload i o) with ring := s.ring.setSlot i ((s.ring.slot i).fill o s.client.opDomain) }
  | .payload i o =>
    some { s.goto (.publish i o) with
      ring := s.ring.setSlot i { s.ring.slot i with data := copyBytes o.abytes o.A (s.ring.slot i).data } }
  | .publish i o =>
    some { s with
      ring := s.ring.setSlot i { s.ring.slot i with state := .req }
      client := { s.client with pc := .idle, ringNext := s.client.ringNext + 1 }
      log := { s.log with
        submitted := s.log.submitted ++ [o]
        live := Function.update s.log.live i (some s.log.submitted.length) } }
  | .spin t =>
    if (s.ring.slot t).state = .resp then some (s.goto (.readRc t))
    else if s.ring.stop then some (s.goto .idle)
    else some s
  | .readRc t => some (s.goto (.copyOut t (s.ring.slot t).rc))
  | .copyOut t rc =>
    some (s.goto (.release t rc
      (if rc = 0 then (s.ring.slot t).data.take (s.ring.slot t).cbytes.toNat else [])))
  | .release t rc C =>
    some { s with
      ring := s.ring.setSlot t { s.ring.slot t with state := .empty }
      client := { s.client with pc := .idle }
      log := { s.log with
        live := Function.update s.log.live t none
        collected := s.log.collected ++ [⟨t, s.log.live t, rc, C⟩] } }

/-- `orkd_disconnect` as far as the ring goes. -/
def leave : RingSys := { s.goto .gone with ring := { s.ring with stop := true } }

/-- `&r->slot[cl[ci].ring_tail % r->nslots]`. -/
def tailSlot (ci : Nat) : Nat := (s.sys.d.cl ci).ringTail % s.ring.nslots.toNat

/-- The look at the next slot of the ring of the client in place `ci`. -/
def lookStep (ci : Nat) : RingSys :=
  if (s.ring.slot (s.tailSlot ci)).state = .req then { s with daemon := .found ci (s.tailSlot ci) } else s

/-- The next access of `ring_service` to the slot it has found. -/
def serviceStep (rc : Int) (out : Nat → UInt32) : Option RingSys :=
  match s.daemon with
  | .rest => none
  | .found ci i =>
    let x := ringRun s.sys.d (s.sys.d.cl ci) s.ring i rc out
    some { s with daemon := .ran ci i x, log := { s.log with executed := s.log.executed ++ [x] } }
  | .ran ci i x =>
    some { s with
      daemon := .answer ci i x
      ring :=
        if x.rc = 0 then
          s.ring.setSlot i { s.ring.slot i with data := copyBytes (ringCbytes x.request) x.bytes (s.ring.slot i).data }
        else s.ring }
  | .answer ci i x =>
    some { s with
      daemon := .publish ci i x
      ring := s.ring.setSlot i { s.ring.slot i with rc := x.rc, cbytes := .ofNat (ringCbytes x.request) } }
  | .publish ci i _ =>
    some { s with
      sys := ringStep s.sys ci
      daemon := .rest
      ring := s.ring.setSlot i { s.ring.slot i with state := .resp }
      log := { s.log with answered := s.log.answered + 1 } }

/-- The client in place `ci` is the one on connection `c`, and the daemon has its ring mapped. -/
def Attached (c : ConnId) (ci : Nat) : Prop := ci < s.sys.d.nc ∧ s.sys.connOf ci = c ∧ (s.sys.d.cl ci).ring = true

instance decidableAttached (c : ConnId) (ci : Nat) : Decidable (s.Attached c ci) :=
  inferInstanceAs (Decidable (ci < s.sys.d.nc ∧ s.sys.connOf ci = c ∧ (s.sys.d.cl ci).ring = true))

/-- The ring of the client on connection `c` is serviced by no other step than `look` and what follows it. -/
def Elsewhere (c : ConnId) : Event → Prop
  | .ring i _ => s.sys.connOf i ≠ c
  | _ => True

instance decidableElsewhere (c : ConnId) (e : Event) : Decidable (s.Elsewhere c e) :=
  match e with
  | .ring i _ => inferInstanceAs (Decidable (s.sys.connOf i ≠ c))
  | .accept _ | .message _ _ | .hangup _ | .dispatch _ _ => inferInstanceAs (Decidable True)

/-- A client calls one function after another, and so does the daemon's one thread. -/
def step (c : ConnId) (s : RingSys) : RingEvent → Option RingSys
  | .submit o => if s.client.pc.isIdle ∧ o.IsInt then some (s.enterSubmit o) else none
  | .collect t => if s.client.pc.isIdle then some (s.enterCollect t) else none
  | .setOpDomain domain =>
    if s.client.pc.isIdle then some { s with client := { s.client with opDomain := domain } } else none
  | .disconnect => if s.client.pc.isIdle then some s.leave else none
  | .client => s.clientStep
  | .loop e =>
    if s.daemon.isRest ∧ Enabled s.sys e ∧ s.Elsewhere c e then some { s with sys := next s.sys e } else none
  | .look ci => if s.daemon.isRest ∧ s.Attached c ci then some (s.lookStep ci) else none
  | .service rc out => s.serviceStep rc out

/-- The daemon has mapped the ring of connection `c`, and `orkd_ring_setup` has returned 0. -/
structure Start (c : ConnId) : Prop where
  reachable : orkd.Reachable s.sys
  attached : ∃ ci, s.Attached c ci ∧ (s.sys.d.cl ci).ringTail = 0
  ring : s.ring = .fresh
  client : s.client.pc = .idle ∧ s.client.ringNext = 0
  daemon : s.daemon = .rest
  log : s.log = ⟨[], [], 0, fun _ => none, [], []⟩

end RingSys

/-- The runs of the ring of the client on connection `c`. -/
def ringSystem (c : ConnId) : Transition.System RingSys RingEvent where
  init s := s.Start c
  step s e t := s.step c e = some t

end OrkDriver.Orkd
