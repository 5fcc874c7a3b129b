import Mathlib.Data.List.Nodup
import Mathlib.Data.List.Perm.Basic
import OrkDriver.Lib.Programs
import OrkDriver.Mem.Buffers

/-!
The process as the code between two submits sees it: device buffers asked for and given back one after another, host
allocations, weights resident in the daemon. What such code still owes, and what the context keeps, is counted against
the state it started in.
-/

namespace OrkDriver.Mem

open OrkDriver.Lib

/-! ### Handles -/

/-- Every live buffer has a handle of its own. -/
structure Numbered (s : Process) : Prop where
  sound : Sound s
  distinct : (s.live.map Buf.handle).Nodup

/-- A way to ask for a buffer: `orki_bcreate` (`sram` is the TRY_ALLOC_SRAM flag), `orki_bimport`, `orki_bimport_fd`. -/
inductive Source
  | created (sram : Bool)
  | imported
  | adopted (dbuf : Int)

/-- The kernel's and the C library's answers, in the order they are asked for, and those of the daemon: the id of a
weight it packed, nothing where it refused. -/
structure Answers where
  create : Nat → CreateOutcome
  imp : Nat → ImportOutcome
  destroy : Nat → Bool
  host : Nat → Bool
  orkd : Nat → Option Nat

/-- The request as a call of the buffer layer. -/
def Source.call (a : Answers) (n size : Nat) (dom : Int) : Source → BufCall
  | .created sram => .bcreate size sram dom (a.create n)
  | .imported => .bimport size dom (a.imp n)
  | .adopted dbuf => .bimportFd dbuf size dom (a.imp n)

/-- What a call returns. -/
def BufCall.result (v : BufEnv) (d : Device) : BufCall → Buf
  | .bcreate size sram domain o => (orkiBcreate v d size sram domain o).1
  | .bimport size domain o => (orkiBimportF v d size domain o).1
  | .bimportFd dbuf size domain o => (orkiBimportFd v d dbuf size domain o).1
  | .bdestroy _ _ => .zero

section Creation

variable {v : BufEnv} {d : Device} {dom : Int}

/-- A creation fails, or its buffer is in the domain asked for and has the next handle. -/
def Delivers (v : BufEnv) (d : Device) (dom : Int) (r : Buf × Device) : Prop :=
  r.1 = .zero ∨ r.1.cpu = true ∧ r.1.handle = d.next ∧ r.1.domain = orkDom v dom

theorem delivers_settle (need : Nat) (f : Fate) :
    Delivers v d dom (match d.orkIovaReserve v (orkDom v dom) need with
      | none => (.zero, d)
      | some d => d.settle (orkDom v dom) need f) := by
  cases hr : d.orkIovaReserve v (orkDom v dom) need with
  | none => exact Or.inl rfl
  | some d' =>
      cases f with
      | refused => exact Or.inl rfl
      | stray => exact Or.inl rfl
      | strayHeld => exact Or.inl rfl
      | made => exact Or.inr ⟨rfl, (reserve_eq_some (s := ⟨d, [], []⟩) hr).2.1, rfl⟩

/-- One request. -/
theorem Source.call_spec (v : BufEnv) (a : Answers) (s : Process) (n size : Nat) (dom : Int) (src : Source) :
    let c := src.call a n size dom
    let b := c.result v s.dev
    b = .zero ∧ (c.next v s).live = s.live ∨
      b.cpu = true ∧ b.handle = s.dev.next ∧ b.domain = orkDom v dom ∧ (c.next v s).live = b :: s.live := by
  have hkeep : ∀ r : Buf × Device, Delivers v s.dev dom r →
      r.1 = .zero ∧ (s.keep r).live = s.live ∨
        r.1.cpu = true ∧ r.1.handle = s.dev.next ∧ r.1.domain = orkDom v dom ∧ (s.keep r).live = r.1 :: s.live := by
    rintro r (hz | ⟨hcpu, hh, hd⟩)
    · refine Or.inl ⟨hz, ?_⟩
      unfold Process.keep
      rw [hz]
      rfl
    · refine Or.inr ⟨hcpu, hh, hd, ?_⟩
      unfold Process.keep
      rw [hcpu]
      rfl
  cases src with
  | created sram => exact hkeep _ (delivers_settle _ _)
  | imported =>
      refine hkeep (orkiBimportF v s.dev size dom (a.imp n)) ?_
      unfold orkiBimportF
      split
      · exact Or.inl rfl
      · split
        · exact Or.inl rfl
        · split
          · exact Or.inl rfl
          · exact delivers_settle _ _
  | adopted dbuf =>
      refine hkeep (orkiBimportFd v s.dev dbuf size dom (a.imp n)) ?_
      unfold orkiBimportFd
      split
      · exact Or.inl rfl
      · split
        · exact Or.inl rfl
        · exact delivers_settle _ _

end Creation

theorem Numbered.request {s : Process} (hs : Numbered s) (v : BufEnv) (a : Answers) (n size : Nat) (dom : Int)
    (src : Source) : Numbered ((src.call a n size dom).next v s) := by
  refine ⟨sound_next hs.sound _, ?_⟩
  rcases src.call_spec v a s n size dom with ⟨-, hl⟩ | ⟨-, hh, -, hl⟩
  · rw [hl]
    exact hs.distinct
  · rw [hl, List.map_cons, hh]
    refine List.nodup_cons.mpr ⟨fun hmem => ?_, hs.distinct⟩
    obtain ⟨b, hb, heq⟩ := List.mem_map.mp hmem
    exact Nat.lt_irrefl _ (heq ▸ (hs.sound.live b hb).1)

theorem Numbered.destroy {s : Process} (hs : Numbered s) (v : BufEnv) (h : Nat) (ok : Bool) :
    Numbered ((BufCall.bdestroy h ok).next v s) := by
  refine ⟨sound_next hs.sound _, ?_⟩
  unfold BufCall.next
  dsimp only
  cases s.live.find? (·.handle == h) with
  | none => exact hs.distinct
  | some b => exact hs.distinct.sublist (List.eraseP_sublist.map _)

/-! ### Sessions -/

/-- A process in the middle of its work. `doubled` records that MEM_DESTROY was called for a handle that was not live,
`ctx` lists the buffers the context keeps for itself: the anchor of every domain in `anchored` and the chunks of the int4
arena, of which `arena` gives the current one of a domain and how much of it is used. `remote` lists the weights the
daemon holds. -/
structure Session where
  proc : Process
  numbered : Numbered proc
  calls : Nat
  allocs : Nat
  doubled : Bool
  ctx : List Buf
  anchored : List Int
  arena : Int → Option (Buf × Nat)
  arenaN : Nat
  arenaCap : Nat
  remote : List Nat

section Primitives

variable (v : BufEnv) (a : Answers)

/-- A request for a buffer. -/
def create (src : Source) (dom : Int) (size : Nat) : Prog Session Buf := fun s =>
  ((src.call a s.calls size dom).result v s.proc.dev,
    { s with
      proc := (src.call a s.calls size dom).next v s.proc
      numbered := s.numbered.request v a s.calls size dom src
      calls := s.calls + 1 })

/-- `orki_bdestroy`. -/
def destroy (b : Buf) : Prog Session Unit := .modify fun s =>
  if !b.cpu then s
  else
    { s with
      proc := (BufCall.bdestroy b.handle (a.destroy s.calls)).next v s.proc
      numbered := s.numbered.destroy v b.handle _
      calls := s.calls + 1
      doubled := s.doubled || (s.proc.live.find? (·.handle == b.handle)).isNone }

def destroyAll : List Buf → Prog Session Unit
  | [] => pure ()
  | b :: bs => do
    destroy v a b
    destroyAll bs

/-- A host allocation that the source checks. -/
def hostAlloc : Prog Session Bool := fun s => (a.host s.allocs, { s with allocs := s.allocs + 1 })

/-- Several of them, checked together. -/
def hostAllocs : Nat → Prog Session Bool
  | 0 => pure true
  | n + 1 => do
    let one ← hostAlloc a
    let rest ← hostAllocs n
    pure (one && rest)

/-- The context takes a buffer over. -/
def hold (b : Buf) : Prog Session Unit := .modify fun s => { s with ctx := b :: s.ctx }

/-- The anchor of domain `d`; `bimp` is `ORK_BIMPORT_DOM`, and the context may have no room for another domain. -/
def anchor (bimp : Bool) (d : Int) : Prog Session Unit := do
  let room ← hostAlloc a
  if room then do
    let b ← create v a (if bimp then .imported else .created false) d 65536
    if b.cpu then do
      hold b
      Prog.modify fun s => { s with anchored := d :: s.anchored }
    else pure ()
  else pure ()

/-- `ork_dom_prime`. -/
def orkDomPrime (bimp : Bool) (dom : Int) : Prog Session Unit := fun s =>
  if orkDom v dom ≤ 0 ∨ orkDom v dom ∈ s.anchored then ((), s) else anchor v a bimp (orkDom v dom) s

/-- `orkd_pack_*` and `orkd_import_i8`. -/
def orkdPack : Prog Session (Option Nat) := fun s =>
  (a.orkd s.calls, { s with calls := s.calls + 1, remote := (a.orkd s.calls).toList ++ s.remote })

/-- `orkd_free_weight`. -/
def orkdFreeWeight (id : Nat) : Prog Session Unit := .modify fun s => { s with remote := s.remote.erase id }

/-- The tile loops: buffers one after another until one is refused. -/
def createTiles (src : Source) (dom : Int) : List Nat → Prog Session (List Buf × Bool)
  | [] => pure ([], true)
  | n :: ns => do
    let b ← create v a src dom n
    if b.cpu then do
      let r ← createTiles src dom ns
      pure (b :: r.1, r.2)
    else pure ([], false)

/-- All of them or none. -/
def createOrNone (src : Source) (dom : Int) (sizes : List Nat) : Prog Session (Option (List Buf)) := do
  let r ← createTiles v a src dom sizes
  if r.2 then pure (some r.1)
  else do
    destroyAll v a r.1
    pure none

/-- Whether the kernel grants all of them. -/
def grants (src : Source) (dom : Int) (sizes : List Nat) (s : Session) : Bool := (createTiles v a src dom sizes s).1.2

end Primitives

/-! ### What is owed -/

/-- The chunks of the arena are in the domains they serve. -/
def Homed (v : BufEnv) (s : Session) : Prop := ∀ d c, s.arena d = some c → c.1.domain = orkDom v d

/-- Since `s₀` the buffers `l` were taken and not given back, and the daemon packed the weights `r`; whatever else was
taken is with the context. The buffers of `l` are in domain `D`, and nothing was destroyed twice. -/
structure Owes (v : BufEnv) (D : Int) (s₀ : Session) (l : List Buf) (r : List Nat) (s : Session) : Prop where
  live : ∃ k, s.ctx = k ++ s₀.ctx ∧ s.proc.live.Perm (l ++ (k ++ s₀.proc.live))
  domain : ∀ b ∈ l, b.domain = D
  once : s.doubled = s₀.doubled
  remote : s.remote.Perm (r ++ s₀.remote)
  homed : Homed v s₀ → Homed v s

variable {v : BufEnv} {a : Answers} {D dom : Int} {s₀ s : Session} {l l' : List Buf} {r : List Nat} {src : Source}

namespace Owes

theorem refl (v : BufEnv) (D : Int) (s : Session) : Owes v D s [] [] s :=
  ⟨⟨[], rfl, List.Perm.refl _⟩, fun _ h => absurd h List.not_mem_nil, rfl, List.Perm.refl _, id⟩

theorem perm (h : Owes v D s₀ l r s) (hl : l.Perm l') : Owes v D s₀ l' r s := by
  obtain ⟨k, hk, hlive⟩ := h.live
  exact { h with
    live := ⟨k, hk, hlive.trans (hl.append_right _)⟩
    domain := fun b hb => h.domain b (hl.mem_iff.mpr hb) }

/-- Nothing is owed exactly if every live buffer beyond the earlier ones is the context's. -/
theorem settled_iff (h : Owes v D s₀ l r s) :
    (∃ k, s.ctx = k ++ s₀.ctx ∧ s.proc.live.Perm (k ++ s₀.proc.live)) ↔ l = [] := by
  obtain ⟨k, hk, hlive⟩ := h.live
  constructor
  · rintro ⟨k', hk', hlive'⟩
    have heq : k = k' := List.append_cancel_right (hk.symm.trans hk')
    have hlen := (hlive.symm.trans hlive').length_eq
    rw [heq, List.length_append] at hlen
    exact List.length_eq_zero_iff.mp (by omega)
  · rintro rfl
    exact ⟨k, hk, hlive⟩

end Owes

/-- The buffer a request brought, if it brought one. -/
def kept (b : Buf) : List Buf := if b.cpu then [b] else []

theorem kept_of_cpu {b : Buf} (h : b.cpu = true) : kept b = [b] := if_pos h

theorem kept_of_not {b : Buf} (h : ¬ b.cpu = true) : kept b = [] := if_neg h

/-- A request in any domain, for the context to keep. -/
theorem create_spec (src : Source) (dom : Int) (size : Nat) (s : Session) :
    let b := (create v a src dom size s).1
    (b.cpu = true → b.domain = orkDom v dom) ∧ (create v a src dom size s).2.proc.live = kept b ++ s.proc.live := by
  rcases src.call_spec v a s.proc s.calls size dom with ⟨hz, hl⟩ | ⟨hcpu, -, hd, hl⟩
  · have hcpu : ¬ ((create v a src dom size s).1.cpu = true) := by
      change ¬ ((src.call a s.calls size dom).result v s.proc.dev).cpu = true
      rw [hz]
      exact Bool.false_ne_true
    exact ⟨fun hc => absurd hc hcpu, by rw [kept_of_not hcpu]; exact hl⟩
  · refine ⟨fun _ => hd, ?_⟩
    rw [kept_of_cpu (b := (create v a src dom size s).1) hcpu]
    exact hl

theorem create_owes (hD : orkDom v dom = D) (size : Nat) :
    Triple (Owes v D s₀ l r) (create v a src dom size) fun b => Owes v D s₀ (kept b ++ l) r := by
  intro s h
  obtain ⟨hdom, hlive⟩ := create_spec (v := v) (a := a) src dom size s
  obtain ⟨k, hk, hold⟩ := h.live
  refine ⟨⟨k, hk, ?_⟩, fun b hb => ?_, h.once, h.remote, h.homed⟩
  · rw [hlive, List.append_assoc]
    exact hold.append_left _
  · rcases List.mem_append.mp hb with hb | hb
    · by_cases hcpu : (create v a src dom size s).1.cpu = true
      · rw [kept_of_cpu hcpu] at hb
        rw [List.mem_singleton.mp hb, hdom hcpu, hD]
      · rw [kept_of_not hcpu] at hb
        exact absurd hb List.not_mem_nil
    · exact h.domain b hb

/-- The first buffer with a handle, and the others. -/
theorem perm_eraseP {l : List Buf} {p : Buf → Bool} {b : Buf} (hf : l.find? p = some b) : l.Perm (b :: l.eraseP p) := by
  induction l with
  | nil => cases hf
  | cons c l ih =>
      by_cases hc : p c = true
      · rw [List.find?_cons_of_pos hc] at hf
        cases hf
        rw [List.eraseP_cons_of_pos hc]
      · rw [List.find?_cons_of_neg hc] at hf
        rw [List.eraseP_cons_of_neg hc]
        exact ((ih hf).cons c).trans (List.Perm.swap _ _ _)

theorem destroy_owes (b : Buf) : Triple (Owes v D s₀ (b :: l) r) (destroy v a b) fun _ => Owes v D s₀ l r := by
  refine Triple.modify fun s h => ?_
  obtain ⟨k, hk, hlive⟩ := h.live
  have hmem : b ∈ s.proc.live := hlive.mem_iff.mpr List.mem_cons_self
  obtain ⟨b', hf⟩ : ∃ b', s.proc.live.find? (·.handle == b.handle) = some b' :=
    Option.isSome_iff_exists.mp (List.find?_isSome.mpr ⟨b, hmem, beq_self_eq_true _⟩)
  have hb' : b' = b := List.inj_on_of_nodup_map s.numbered.distinct (List.mem_of_find?_eq_some hf) hmem
    (beq_iff_eq.mp (List.find?_some (p := fun c : Buf => c.handle == b.handle) hf))
  subst hb'
  have hnext : ((BufCall.bdestroy b'.handle (a.destroy s.calls)).next v s.proc).live =
      s.proc.live.eraseP (·.handle == b'.handle) := by
    unfold BufCall.next
    dsimp only
    rw [hf]
  rw [(s.numbered.sound.live b' hmem).2]
  refine ⟨⟨k, hk, ?_⟩, fun c hc => h.domain c (List.mem_cons_of_mem _ hc), ?_, h.remote, h.homed⟩
  · exact (List.Perm.of_eq hnext).trans ((perm_eraseP hf).symm.trans hlive).cons_inv
  · change (s.doubled || (s.proc.live.find? (·.handle == b'.handle)).isNone) = _
    rw [hf, Option.isNone_some, Bool.or_false, h.once]

theorem destroyAll_owes (bs : List Buf) : Triple (Owes v D s₀ (bs ++ l) r) (destroyAll v a bs) fun _ => Owes v D s₀ l r := by
  induction bs with
  | nil => exact Triple.pure fun _ h => h
  | cons b bs ih => exact (destroy_owes b).bind fun _ => ih

theorem createTiles_owes (hD : orkDom v dom = D) (sizes : List Nat) :
    Triple (Owes v D s₀ l r) (createTiles v a src dom sizes) fun o => Owes v D s₀ (o.1 ++ l) r := by
  induction sizes generalizing l with
  | nil => exact Triple.pure fun _ h => h
  | cons n ns ih =>
      refine (create_owes hD n).bind fun b => Triple.ite (fun hb => ?_) fun hb => ?_
      · rw [kept_of_cpu hb]
        exact ih.bind fun o => Triple.pure fun s hs => hs.perm List.perm_middle
      · rw [kept_of_not hb]
        exact Triple.pure fun _ h => h

theorem createOrNone_owes (hD : orkDom v dom = D) (sizes : List Nat) :
    Triple (Owes v D s₀ l r) (createOrNone v a src dom sizes) fun o => Owes v D s₀ (o.getD [] ++ l) r := by
  refine (createTiles_owes hD sizes).bind fun o => Triple.ite (fun _ => ?_) fun _ => ?_
  · exact Triple.pure fun _ h => h
  · exact (destroyAll_owes o.1).bind fun _ => Triple.pure fun _ h => h

theorem hostAlloc_owes : Triple (Owes v D s₀ l r) (hostAlloc a) fun _ => Owes v D s₀ l r :=
  fun _ h => ⟨h.live, h.domain, h.once, h.remote, h.homed⟩

theorem hostAllocs_owes (n : Nat) : Triple (Owes v D s₀ l r) (hostAllocs a n) fun _ => Owes v D s₀ l r := by
  induction n with
  | zero => exact Triple.pure fun _ h => h
  | succ n ih => exact hostAlloc_owes.bind fun _ => ih.bind fun _ => Triple.pure fun _ h => h

theorem hold_owes (b : Buf) : Triple (Owes v D s₀ (b :: l) r) (hold b) fun _ => Owes v D s₀ l r := by
  refine Triple.modify fun s h => ?_
  obtain ⟨k, hk, hlive⟩ := h.live
  exact ⟨⟨b :: k, congrArg (b :: ·) hk, hlive.trans List.perm_middle.symm⟩,
    fun c hc => h.domain c (List.mem_cons_of_mem _ hc), h.once, h.remote, h.homed⟩

/-- A buffer made for the context, in whatever domain. -/
theorem create_hold_owes {d : Int} {size : Nat} {f : Session → Session}
    (hf : ∀ s, (f s).proc = s.proc ∧ (f s).ctx = s.ctx ∧ (f s).doubled = s.doubled ∧ (f s).remote = s.remote ∧
      (f s).arena = s.arena) :
    Triple (Owes v D s₀ l r) (do
      let b ← create v a src d size
      if b.cpu then do
        hold b
        Prog.modify f
      else pure ()) fun _ => Owes v D s₀ l r := by
  intro s h
  obtain ⟨-, hlive⟩ := create_spec (v := v) (a := a) src d size s
  obtain ⟨k, hk, hold⟩ := h.live
  change Owes v D s₀ l r ((if (create v a src d size s).1.cpu = true then _ else _ : Prog Session Unit)
    (create v a src d size s).2).2
  by_cases hcpu : (create v a src d size s).1.cpu = true
  · rw [if_pos hcpu]
    rw [kept_of_cpu hcpu] at hlive
    obtain ⟨hproc, hctx, honce, hrem, harena⟩ := hf (Mem.hold (create v a src d size s).1 (create v a src d size s).2).2
    refine ⟨⟨(create v a src d size s).1 :: k, hctx.trans (congrArg _ hk), ?_⟩, h.domain, honce.trans h.once, ?_, fun h0 => ?_⟩
    · refine (List.Perm.of_eq (congrArg Process.live hproc)).trans ((List.Perm.of_eq hlive).trans ?_)
      exact (hold.cons _).trans List.perm_middle.symm
    · exact (List.Perm.of_eq hrem).trans h.remote
    · intro d c hc
      exact h.homed h0 d c ((congrFun harena d).symm.trans hc)
  · rw [if_neg hcpu]
    rw [kept_of_not hcpu] at hlive
    exact ⟨⟨k, hk, (List.Perm.of_eq hlive).trans hold⟩, h.domain, h.once, h.remote, h.homed⟩

theorem anchor_owes (bimp : Bool) (d : Int) :
    Triple (Owes v D s₀ l r) (anchor v a bimp d) fun _ => Owes v D s₀ l r := by
  refine hostAlloc_owes.bind fun _ => Triple.ite (fun _ => ?_) fun _ => Triple.pure fun _ h => h
  exact create_hold_owes fun _ => ⟨rfl, rfl, rfl, rfl, rfl⟩

theorem orkDomPrime_owes (bimp : Bool) (dom : Int) :
    Triple (Owes v D s₀ l r) (orkDomPrime v a bimp dom) fun _ => Owes v D s₀ l r := by
  intro s hs
  unfold orkDomPrime
  split
  · exact hs
  · exact anchor_owes bimp _ s hs

theorem orkdPack_owes : Triple (Owes v D s₀ l r) (orkdPack a) fun o => Owes v D s₀ l (o.toList ++ r) := by
  intro s h
  refine ⟨h.live, h.domain, h.once, ?_, h.homed⟩
  change ((a.orkd s.calls).toList ++ s.remote).Perm _
  rw [List.append_assoc]
  exact h.remote.append_left _

theorem orkdFreeWeight_owes (id : Nat) : Triple (Owes v D s₀ l (id :: r)) (orkdFreeWeight id) fun _ => Owes v D s₀ l r := by
  refine Triple.modify fun s h => ⟨h.live, h.domain, h.once, ?_, h.homed⟩
  have hperm := h.remote.erase id
  rw [List.cons_append, List.erase_cons_head] at hperm
  exact hperm

/-! ### What the answers decide -/

theorem createTiles_allocs (sizes : List Nat) (s : Session) : (createTiles v a src dom sizes s).2.allocs = s.allocs := by
  induction sizes generalizing s with
  | nil => rfl
  | cons n ns ih =>
      change ((if (create v a src dom n s).1.cpu = true then _ else _ : Prog Session (List Buf × Bool))
        (create v a src dom n s).2).2.allocs = _
      by_cases hb : (create v a src dom n s).1.cpu = true
      · rw [if_pos hb]
        exact ih (create v a src dom n s).2
      · rw [if_neg hb]
        rfl

theorem destroyAll_allocs (bs : List Buf) (s : Session) : (destroyAll v a bs s).2.allocs = s.allocs := by
  induction bs generalizing s with
  | nil => rfl
  | cons b bs ih =>
      refine (ih (destroy v a b s).2).trans ?_
      change (if (!b.cpu) = true then s else _ : Session).allocs = s.allocs
      split <;> rfl

/-- A granted loop makes a buffer for every size. -/
theorem createTiles_length {sizes : List Nat} {s : Session} (h : grants v a src dom sizes s = true) :
    (createTiles v a src dom sizes s).1.1.length = sizes.length := by
  induction sizes generalizing s with
  | nil => rfl
  | cons n ns ih =>
      have hstep : createTiles v a src dom (n :: ns) s =
          (if (create v a src dom n s).1.cpu = true then do
            let r ← createTiles v a src dom ns
            pure ((create v a src dom n s).1 :: r.1, r.2)
          else pure ([], false) : Prog Session (List Buf × Bool)) (create v a src dom n s).2 := rfl
      unfold grants at h
      rw [hstep] at h ⊢
      by_cases hb : (create v a src dom n s).1.cpu = true
      · rw [if_pos hb] at h ⊢
        exact congrArg (· + 1) (ih h)
      · rw [if_neg hb] at h
        cases h

theorem createOrNone_granted {sizes : List Nat} {s : Session} (h : grants v a src dom sizes s = true) :
    createOrNone v a src dom sizes s =
      (some (createTiles v a src dom sizes s).1.1, (createTiles v a src dom sizes s).2) := by
  unfold grants at h
  change (if (createTiles v a src dom sizes s).1.2 = true then _ else _ : Prog Session (Option (List Buf)))
    (createTiles v a src dom sizes s).2 = _
  rw [if_pos h]
  rfl

theorem createOrNone_refused {sizes : List Nat} {s : Session} (h : ¬ grants v a src dom sizes s = true) :
    (createOrNone v a src dom sizes s).1 = none := by
  unfold grants at h
  change ((if (createTiles v a src dom sizes s).1.2 = true then _ else _ : Prog Session (Option (List Buf)))
    (createTiles v a src dom sizes s).2).1 = _
  rw [if_neg h]
  rfl

theorem createOrNone_allocs (sizes : List Nat) (s : Session) : (createOrNone v a src dom sizes s).2.allocs = s.allocs := by
  have ht : (createTiles v a src dom sizes s).2.allocs = s.allocs := createTiles_allocs sizes s
  rw [← ht]
  change ((if (createTiles v a src dom sizes s).1.2 = true then _ else _ : Prog Session (Option (List Buf)))
    (createTiles v a src dom sizes s).2).2.allocs = _
  split
  · rfl
  · exact destroyAll_allocs _ _

theorem hostAllocs_iff (n : Nat) (s : Session) :
    (hostAllocs a n s).1 = true ↔ ∀ i < n, a.host (s.allocs + i) = true := by
  induction n generalizing s with
  | zero => exact ⟨fun _ i hi => absurd hi (Nat.not_lt_zero i), fun _ => rfl⟩
  | succ n ih =>
      change (a.host s.allocs && (hostAllocs a n { s with allocs := s.allocs + 1 }).1) = true ↔ _
      rw [Bool.and_eq_true, ih]
      constructor
      · rintro ⟨h0, hrest⟩ i hi
        cases i with
        | zero => exact h0
        | succ i =>
            have := hrest i (Nat.lt_of_succ_lt_succ hi)
            rwa [Nat.add_right_comm] at this
      · intro h
        refine ⟨h 0 (Nat.succ_pos n), fun i hi => ?_⟩
        have := h (i + 1) (Nat.succ_lt_succ hi)
        rwa [← Nat.add_assoc, Nat.add_right_comm] at this

end OrkDriver.Mem
