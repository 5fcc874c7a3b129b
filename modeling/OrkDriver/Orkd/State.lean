import OrkDriver.Lib.Arena
import OrkDriver.Lib.SwapRemove
import OrkDriver.Orkd.Queue

/-!
The daemon's tables: resident weights and KV objects, the client array `cl[]` of `main`, and the effects
a request can have on them.
-/

namespace OrkDriver.Orkd

/-- Identity of an accepted connection. -/
abbrev ConnId := Nat

/-- What the handlers see of an `ork_w`: its geometry and the IOMMU domain its tiles live in. -/
structure Weight where
  K : Int
  N : Int
  dtype : OrkdDtype
  domain : Nat
  deriving DecidableEq

/-- `ork_kv_resident`, with the connection whose request allocated it. A pointer is the handle of its object. -/
structure KvResident where
  wkt : Nat
  wv : Nat
  HD : Int
  Lmax : Int
  owner : ConnId
  deriving DecidableEq

structure CWeight where
  id : Nat
  w : Nat
  K : Int
  N : Int
  dtype : OrkdDtype
  deriving DecidableEq

structure Ckv where
  id : Nat
  kv : Nat
  deriving DecidableEq

/-- `struct client`; `wt` and `kvt` are the first `nw` and `nkv` entries of their arrays. -/
structure Client where
  fd : Nat
  hello : Bool
  id : Nat
  wt : List CWeight
  nextWid : Nat
  domain : Nat
  kvt : List Ckv
  ownedDom : Nat → Bool
  ring : Bool
  ringTail : Nat

namespace Client

/-- The lookup loops that `break` at the first entry with the id. -/
def findWeight (cl : Client) (id : Nat) : Option CWeight := cl.wt.find? (·.id == id)

/-- The lookup loops without a `break`: the last entry with the id wins. -/
def findLastWeight (cl : Client) (id : Nat) : Option CWeight := cl.wt.reverse.find? (·.id == id)

def findKv (cl : Client) (id : Nat) : Option Ckv := cl.kvt.find? (·.id == id)

/-- The domain a pack lands in: the requested one if positive, else the client's automatic one. -/
def packDomain (cl : Client) (domain : Int) : Nat := if 0 < domain then domain.toNat else cl.domain

/-- `pdom >= ORKD_NDOM || !(owned_dom & (1 << pdom))` for a positive `pdom`. -/
def refusesDomain (cl : Client) (domain : Int) : Bool :=
  0 < domain && (orkdNdom ≤ domain || !cl.ownedDom domain.toNat)

end Client

/-- The state of the daemon process. Slots of `cl` from `nc` on are stale. -/
structure Daemon where
  cl : Nat → Client
  nc : Nat
  q : Queue
  activeDom : Int
  domInuse : Nat → Bool
  perClientDom : Bool
  weights : Arena Weight
  kvs : Arena KvResident
  refs : Nat
  nextId : Nat
  cores : Nat

namespace Daemon

/-- `orkd_dom_alloc_explicit` looks for the first free id of 1..63. -/
def domFree (d : Daemon) : Option Nat := (List.range' 1 (orkdNdom - 1)).find? fun k => !d.domInuse k

/-- `orkd_dom_release`. -/
def domRelease (d : Daemon) (k : Nat) : Daemon :=
  if 1 ≤ k ∧ k < orkdNdom then { d with domInuse := Function.update d.domInuse k false } else d

def setClient (d : Daemon) (i : Nat) (c : Client) : Daemon := { d with cl := Function.update d.cl i c }

end Daemon

/-- What a request leaves behind in the daemon's tables. -/
inductive Effect
  | none
  | hello
  /-- A weight was packed or imported and registered. -/
  | addWeight (w : Weight)
  /-- The two weights and the struct of a KV object were allocated and registered. -/
  | addKv (HD Lmax : Int)
  /-- FREE found the id. -/
  | freeWeight (id : Nat)
  /-- `orkd_wk_alloc` succeeded; `cw` is the entry the item was checked against. -/
  | enqueue (w : Work) (cw : CWeight)
  | domReq (k : Nat)
  | domRel (k : Nat)
  | attachRing

namespace Daemon

def addWeight (d : Daemon) (i : Nat) (w : Weight) : Daemon :=
  let c := d.cl i
  { d with
    weights := d.weights.alloc w
    cl := Function.update d.cl i
      { c with
        nextWid := c.nextWid + 1
        wt := c.wt ++ [⟨c.nextWid + 1, d.weights.next, w.K, w.N, w.dtype⟩] } }

/-- Kp of a resident K^T. -/
def kvKp : Int := 512

def kvWkt (Lmax : Int) : Weight := ⟨kvKp, Lmax, .i8, 0⟩

def kvWv (HD Lmax : Int) : Weight := ⟨Lmax, HD, .i8, 0⟩

def addKv (d : Daemon) (i : Nat) (conn : ConnId) (HD Lmax : Int) : Daemon :=
  let c := d.cl i
  let h := d.weights.next
  { d with
    weights := (d.weights.alloc (kvWkt Lmax)).alloc (kvWv HD Lmax)
    kvs := d.kvs.alloc ⟨h, h + 1, HD, Lmax, conn⟩
    cl := Function.update d.cl i
      { c with
        nextWid := c.nextWid + 3
        wt := c.wt ++ [⟨c.nextWid + 1, h, kvKp, Lmax, .i8⟩, ⟨c.nextWid + 2, h + 1, Lmax, HD, .i8⟩]
        kvt := c.kvt ++ [⟨c.nextWid + 3, d.kvs.next⟩] } }

def freeWeight (d : Daemon) (i : Nat) (id : Nat) : Daemon :=
  let c := d.cl i
  match c.findWeight id with
  | none => d
  | some cw =>
    { d with
      weights := d.weights.free cw.w
      cl := Function.update d.cl i { c with wt := c.wt.swapRemove (·.id == id) } }

def hello (d : Daemon) (i : Nat) : Daemon :=
  let c := d.cl i
  { d with
    nextId := d.nextId + 1
    refs := if c.hello then d.refs else d.refs + 1
    cl := Function.update d.cl i { c with id := d.nextId, hello := true } }

def enqueue (d : Daemon) (w : Work) : Daemon :=
  match d.q.wkAlloc w with
  | some q => { d with q }
  | none => d

def domReq (d : Daemon) (i : Nat) (k : Nat) : Daemon :=
  let c := d.cl i
  { d with
    domInuse := Function.update d.domInuse k true
    cl := Function.update d.cl i { c with ownedDom := Function.update c.ownedDom k true } }

def domRel (d : Daemon) (i : Nat) (k : Nat) : Daemon :=
  let c := d.cl i
  (d.setClient i { c with ownedDom := Function.update c.ownedDom k false }).domRelease k

def attachRing (d : Daemon) (i : Nat) : Daemon :=
  d.setClient i { d.cl i with ring := true, ringTail := 0 }

/-- The effect of a request of the client in slot `i`, whose connection is `conn`. -/
def applyEffect (d : Daemon) (i : Nat) (conn : ConnId) : Effect → Daemon
  | .none => d
  | .hello => d.hello i
  | .addWeight w => d.addWeight i w
  | .addKv HD Lmax => d.addKv i conn HD Lmax
  | .freeWeight id => d.freeWeight i id
  | .enqueue w _ => d.enqueue w
  | .domReq k => d.domReq i k
  | .domRel k => d.domRel i k
  | .attachRing => d.attachRing i

/-- `dom_alloc`: the automatic domain of a new client, 0 when they share. -/
def domAlloc (d : Daemon) : Nat := if d.perClientDom then d.domFree.getD 0 else 0

/-- The initialisation of `cl[nc]` on accept, in domain `k`. The KV table is not among its fields. -/
def acceptIn (d : Daemon) (fd k : Nat) : Daemon :=
  { d with
    domInuse := if k = 0 then d.domInuse else Function.update d.domInuse k true
    cl := Function.update d.cl d.nc
      { d.cl d.nc with
        fd, hello := false, id := 0, wt := [], nextWid := 0, domain := k, ownedDom := fun _ => false
        ring := false, ringTail := 0 }
    nc := d.nc + 1 }

/-- `client_reclaim`; the two weights of a KV object are freed with the weight table. -/
def clientReclaim (d : Daemon) (i : Nat) : Daemon :=
  let c := d.cl i
  { d with
    weights := d.weights.freeAll (c.wt.map (·.w))
    kvs := d.kvs.freeAll (c.kvt.map (·.kv))
    cl := Function.update d.cl i { c with wt := [], kvt := [], ring := false } }

/-- Release every domain 1..63 whose bit is set in `owned_dom`. -/
def releaseOwned (d : Daemon) (owned : Nat → Bool) : Daemon :=
  { d with domInuse := fun k => if 1 ≤ k ∧ k < orkdNdom ∧ owned k then false else d.domInuse k }

/-- The drop path of `main`: purge the queue, reclaim, release the domains, close, compact. -/
def drop (d : Daemon) (i : Nat) : Daemon :=
  let c := d.cl i
  let d := { d with refs := if c.hello then d.refs - 1 else d.refs, q := d.q.wkPurgeFd c.fd }
  let d := (d.clientReclaim i).domRelease c.domain
  let d := d.releaseOwned c.ownedDom
  { d with cl := Function.update d.cl i (d.cl (d.nc - 1)), nc := d.nc - 1 }

end Daemon

end OrkDriver.Orkd
