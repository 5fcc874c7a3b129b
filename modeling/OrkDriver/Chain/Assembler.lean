import Mathlib.Data.List.Pairwise
import Mathlib.Tactic.Ring

/-!
`ork_npu_chain_progs` (`npu/i8/chain.c`): pre-built programs laid into the command buffer, each but the last linked to
the one behind it, and the walk of the PC along the links.
-/

namespace OrkDriver.ChainProgs

/-- `ork_chain_prog`: the words of a program (none where `rc` is NULL) and its task fields. `descSlot` is -1 where the
program has no place for a next-descriptor. -/
structure ChainProg where
  rc : List Nat
  enableMask : Nat
  regcfgAmount : Int
  descSlot : Int

def ChainProg.nwords (p : ChainProg) : Nat := p.rc.length

/-- The slot and the three words after it lie in the program. -/
def ChainProg.HasSlot (p : ChainProg) : Prop := 0 ≤ p.descSlot ∧ p.descSlot + 3 < p.nwords

instance (p : ChainProg) : Decidable p.HasSlot := inferInstanceAs (Decidable (_ ∧ _))

/-- `c->regcmd`: no buffer reaches beyond the 32-bit window. -/
structure RegBuf where
  dma : Nat
  size : Nat
  fits : dma + size ≤ 2 ^ 32

structure OrkNpu where
  regcmd : RegBuf
  taskSize : Nat

/-- `struct rknpu_task`, the fields that differ. -/
structure Task where
  enableMask : Nat
  regcfgAmount : Int
  regcmdAddr : Nat

/-- The programs with their offsets in words, each rounded up to 16. -/
def place : Nat → List ChainProg → List (Nat × ChainProg)
  | _, [] => []
  | total, p :: ps => ((total + 15) / 16 * 16, p) :: place ((total + 15) / 16 * 16 + p.nwords) ps

/-- `total` after the loop. -/
def placeEnd : Nat → List ChainProg → Nat
  | total, [] => total
  | total, p :: ps => placeEnd ((total + 15) / 16 * 16 + p.nwords) ps

/-- `memcpy(base+off, rc, ..)` -/
def copyTo (off : Nat) (ws : List Nat) (m : Nat → Nat) : Nat → Nat :=
  fun a => if off ≤ a ∧ a < off + ws.length then ws.getD (a - off) 0 else m a

/-- The units of the next program, as far as the field holds them. -/
def ChainProg.nreg (p : ChainProg) : Nat := (((p.regcfgAmount + 3).tdiv 2) % 2 ^ 16).toNat

/-- The words of a next-descriptor: the address in two halves and the amount, each with its register and block. -/
def linkWord (nx nreg : Nat) : Nat → Nat
  | 0 => 0x0010 + nx % 2 ^ 16 * 2 ^ 16
  | 1 => 0x0101 * 2 ^ 16 + nx / 2 ^ 16 % 2 ^ 16
  | 2 => 0x0014 + nreg * 2 ^ 16
  | _ => 0x0101 * 2 ^ 16

def putLink (a nx nreg : Nat) (m : Nat → Nat) : Nat → Nat :=
  fun b => if a ≤ b ∧ b < a + 4 then linkWord nx nreg (b - a) else m b

/-- The loop that writes the programs: it gives up at one before the last that has no slot. -/
def assemble (dma : Nat) : List (Nat × ChainProg) → (Nat → Nat) → Option (Nat → Nat)
  | [], m => some m
  | [x], m => some (copyTo x.1 x.2.rc m)
  | x :: y :: l, m =>
    if x.2.HasSlot then
      assemble dma (y :: l)
        (putLink (x.1 + x.2.descSlot.toNat) (dma + y.1 * 4) y.2.nreg (copyTo x.1 x.2.rc m))
    else none

/-- What goes to the device: the words of the command buffer and the tasks. -/
structure Submitted where
  mem : Nat → Nat
  tasks : List Task

/-- None is -2: nothing is submitted. -/
def orkNpuChainProgs (c : OrkNpu) (progs : List ChainProg) (m : Nat → Nat) : Option Submitted :=
  if progs.length < 1 ∨ 1024 < progs.length then none
  else if progs.any fun p => p.nwords < 2 then none
  else if c.regcmd.size < placeEnd 0 progs * 4 ∨ c.taskSize < progs.length * 40 then none
  else
    match assemble c.regcmd.dma (place 0 progs) m with
    | none => none
    | some mem =>
      some ⟨mem, (place 0 progs).map fun x =>
        ⟨x.2.enableMask, x.2.regcfgAmount, (c.regcmd.dma + x.1 * 4) % 2 ^ 32⟩⟩

/-! ### The walk -/

/-- The next-descriptor at word `a`: an amount of zero stops the PC. -/
def linkAt (m : Nat → Nat) (a : Nat) : Option Nat :=
  if m a % 2 ^ 16 = 0x0010 ∧ m (a + 1) / 2 ^ 16 = 0x0101 ∧ m (a + 2) % 2 ^ 16 = 0x0014 ∧ m (a + 3) / 2 ^ 16 = 0x0101 ∧
      m (a + 2) / 2 ^ 16 + m (a + 3) % 2 ^ 16 * 2 ^ 16 ≠ 0 then
    some (m a / 2 ^ 16 + m (a + 1) % 2 ^ 16 * 2 ^ 16)
  else none

/-- The link of a program that lies at word `off`. -/
def ChainProg.linkOf (p : ChainProg) (m : Nat → Nat) (off : Nat) : Option Nat :=
  if p.HasSlot then linkAt m (off + p.descSlot.toNat) else none

/-- Where the PC goes from the program at a bus address. -/
def nextAddr (dma : Nat) (l : List (Nat × ChainProg)) (m : Nat → Nat) (addr : Nat) : Option Nat :=
  (l.find? fun x => dma + x.1 * 4 = addr).bind fun x => x.2.linkOf m x.1

/-- From the first address the links lead through all of them in order, and no further. -/
def Walks (next : Nat → Option Nat) : List Nat → Prop
  | [] => False
  | [a] => next a = none
  | a :: b :: l => next a = some b ∧ Walks next (b :: l)

/-- Where the programs lie. -/
structure Laid (size : Nat) (l : List (Nat × ChainProg)) : Prop where
  aligned : ∀ x ∈ l, 64 ∣ x.1 * 4
  apart : l.Pairwise fun x y => x.1 + x.2.nwords ≤ y.1
  fits : ∀ x ∈ l, (x.1 + x.2.nwords) * 4 ≤ size

/-- The programs are laid out, and the PC visits each of the tasks once, in order, and stops. -/
def Chained (c : OrkNpu) (progs : List ChainProg) (s : Submitted) : Prop :=
  Laid c.regcmd.size (place 0 progs) ∧
    Walks (nextAddr c.regcmd.dma (place 0 progs) s.mem) (s.tasks.map Task.regcmdAddr)

/-- The link a program brings along in its own words. -/
def ChainProg.ownLink (p : ChainProg) : Option Nat := p.linkOf (fun j => p.rc.getD j 0) 0

/-- The last program, whose words are copied as they are, brings no link, and the amount of no program behind the first
is lost in its 16 bits. -/
def Ends (progs : List ChainProg) : Prop :=
  (∀ q ∈ progs.tail, q.nreg ≠ 0) ∧ ∀ p, progs.getLast? = some p → p.ownLink = none

/-! ### The layout -/

variable {total dma : Nat} {progs : List ChainProg} {x : Nat × ChainProg}

theorem place_bounds (h : x ∈ place total progs) :
    total ≤ x.1 ∧ x.1 + x.2.nwords ≤ placeEnd total progs ∧ 16 ∣ x.1 := by
  have hend : ∀ (ps : List ChainProg) (t : Nat), t ≤ placeEnd t ps := by
    intro ps
    induction ps with
    | nil => exact fun t => Nat.le_refl t
    | cons p ps ih =>
      intro t
      refine le_trans ?_ (ih _)
      omega
  induction progs generalizing total with
  | nil => cases h
  | cons p ps ih =>
    rcases List.mem_cons.mp h with rfl | h
    · exact ⟨by dsimp only; omega, hend ps _, Nat.dvd_mul_left 16 _⟩
    · obtain ⟨h1, h2, h3⟩ := ih h
      exact ⟨by omega, h2, h3⟩

theorem place_pairwise (total : Nat) (progs : List ChainProg) :
    (place total progs).Pairwise fun x y => x.1 + x.2.nwords ≤ y.1 := by
  induction progs generalizing total with
  | nil => exact .nil
  | cons p ps ih => exact .cons (fun y hy => (place_bounds hy).1) (ih _)

theorem place_map_snd (total : Nat) (progs : List ChainProg) : (place total progs).map Prod.snd = progs := by
  induction progs generalizing total with
  | nil => rfl
  | cons p ps ih => exact congrArg (p :: ·) (ih _)

/-- The round-up and the two guards give the layout. -/
theorem place_laid {size : Nat} (h : placeEnd 0 progs * 4 ≤ size) : Laid size (place 0 progs) where
  aligned x hx := by
    obtain ⟨k, hk⟩ := (place_bounds hx).2.2
    exact ⟨k, by rw [hk]; ring⟩
  apart := place_pairwise 0 progs
  fits x hx := by
    have := (place_bounds hx).2.1
    omega

/-! ### The words written -/

/-- Each program lies where it was placed, those with one behind them with the link to it in their slot. -/
def Linked (dma : Nat) (m : Nat → Nat) : List (Nat × ChainProg) → Prop
  | [] => True
  | [x] => ∀ j < x.2.nwords, m (x.1 + j) = x.2.rc.getD j 0
  | x :: y :: l =>
    (x.2.HasSlot ∧ ∀ j < x.2.nwords, m (x.1 + j) =
      if x.2.descSlot.toNat ≤ j ∧ j < x.2.descSlot.toNat + 4 then
        linkWord (dma + y.1 * 4) y.2.nreg (j - x.2.descSlot.toNat)
      else x.2.rc.getD j 0) ∧ Linked dma m (y :: l)

theorem assemble_linked {l : List (Nat × ChainProg)} {m m' : Nat → Nat} (h : assemble dma l m = some m')
    (hl : l.Pairwise fun x y => x.1 + x.2.nwords ≤ y.1) :
    Linked dma m' l ∧ ∀ a, (∀ x ∈ l, a < x.1) → m' a = m a := by
  induction l, m using assemble.induct dma with
  | case1 m =>
    cases h
    exact ⟨trivial, fun _ _ => rfl⟩
  | case2 x m =>
    cases h
    refine ⟨fun j hj => ?_, fun a ha => ?_⟩
    · rw [copyTo, if_pos ⟨Nat.le_add_right _ _, Nat.add_lt_add_left hj _⟩, Nat.add_sub_cancel_left]
    · have := ha x List.mem_cons_self
      rw [copyTo, if_neg (by omega)]
  | case3 x y l m hslot ih =>
    rw [assemble, if_pos hslot] at h
    obtain ⟨hx, hrest⟩ := List.pairwise_cons.mp hl
    obtain ⟨hlinked, hframe⟩ := ih h hrest
    have hs : x.2.descSlot.toNat + 3 < x.2.nwords := by
      have := hslot
      unfold ChainProg.HasSlot at this
      omega
    refine ⟨⟨⟨hslot, fun j hj => ?_⟩, hlinked⟩, fun a ha => ?_⟩
    · rw [hframe _ fun z hz => by have := hx z hz; omega]
      unfold putLink copyTo
      by_cases hin : x.2.descSlot.toNat ≤ j ∧ j < x.2.descSlot.toNat + 4
      · rw [if_pos (by omega), if_pos hin, show x.1 + j - (x.1 + x.2.descSlot.toNat) = j - x.2.descSlot.toNat by omega]
      · rw [if_neg (by omega), if_neg hin, if_pos ⟨Nat.le_add_right _ _, Nat.add_lt_add_left hj _⟩,
          Nat.add_sub_cancel_left]
    · have hax := ha x List.mem_cons_self
      rw [hframe a fun z hz => ha z (List.mem_cons_of_mem _ hz), putLink, if_neg (by omega), copyTo, if_neg (by omega)]
  | case4 x y l m hslot =>
    rw [assemble, if_neg hslot] at h
    cases h

/-! ### The links read back -/

theorem word_halves {lo hi : Nat} (h : lo < 2 ^ 16) :
    (lo + hi * 2 ^ 16) % 2 ^ 16 = lo ∧ (lo + hi * 2 ^ 16) / 2 ^ 16 = hi := by
  constructor
  · rw [Nat.add_mul_mod_self_right, Nat.mod_eq_of_lt h]
  · rw [Nat.add_mul_div_right _ _ (by decide), Nat.div_eq_of_lt h, Nat.zero_add]

/-- The four words read back: the address that was written, unless its amount is zero. -/
theorem linkAt_linkWord {m : Nat → Nat} {a nx nreg : Nat} (hm : ∀ i < 4, m (a + i) = linkWord nx nreg i)
    (hnx : nx < 2 ^ 32) : linkAt m a = if nreg = 0 then none else some nx := by
  have hhalves : nx % 2 ^ 16 + nx / 2 ^ 16 % 2 ^ 16 * 2 ^ 16 = nx := by omega
  have h0 : m a % 2 ^ 16 = 0x0010 ∧ m a / 2 ^ 16 = nx % 2 ^ 16 :=
    (hm 0 (by decide) : m a = _) ▸ word_halves (by decide)
  have h1 : m (a + 1) % 2 ^ 16 = nx / 2 ^ 16 % 2 ^ 16 ∧ m (a + 1) / 2 ^ 16 = 0x0101 :=
    (hm 1 (by decide)).trans (Nat.add_comm _ _) ▸ word_halves (Nat.mod_lt _ (by decide))
  have h2 : m (a + 2) % 2 ^ 16 = 0x0014 ∧ m (a + 2) / 2 ^ 16 = nreg := hm 2 (by decide) ▸ word_halves (by decide)
  have h3 : m (a + 3) % 2 ^ 16 = 0 ∧ m (a + 3) / 2 ^ 16 = 0x0101 := by
    have hlast : linkWord nx nreg 3 = 0x0101 * 2 ^ 16 := by rw [linkWord] <;> decide
    rw [hm 3 (by decide), hlast]
    exact ⟨Nat.mul_mod_left _ _, Nat.mul_div_cancel _ (by decide)⟩
  unfold linkAt
  by_cases hz : nreg = 0
  · rw [if_pos hz]
    exact if_neg fun h => h.2.2.2.2 (by rw [h2.2, h3.1, hz, Nat.zero_mul])
  · rw [if_neg hz, h0.2, h1.1, hhalves]
    exact if_pos ⟨h0.1, h1.2, h2.1, h3.2, fun h => hz (by rwa [h2.2, h3.1, Nat.zero_mul, Nat.add_zero] at h)⟩

theorem linkAt_congr {m m' : Nat → Nat} {a a' : Nat} (h : ∀ i < 4, m (a + i) = m' (a' + i)) :
    linkAt m a = linkAt m' a' := by
  unfold linkAt
  rw [show m a = m' a' from h 0 (by omega), h 1 (by omega), h 2 (by omega), h 3 (by omega)]

variable {m : Nat → Nat} {y : Nat × ChainProg} {l : List (Nat × ChainProg)}

theorem linkOf_middle (h : Linked dma m (x :: y :: l)) (hy : dma + y.1 * 4 < 2 ^ 32) :
    x.2.linkOf m x.1 = if y.2.nreg = 0 then none else some (dma + y.1 * 4) := by
  obtain ⟨⟨hslot, hwords⟩, -⟩ := h
  have hs : x.2.descSlot.toNat + 3 < x.2.nwords := by
    have := hslot
    unfold ChainProg.HasSlot at this
    omega
  rw [ChainProg.linkOf, if_pos hslot]
  refine linkAt_linkWord (fun i hi => ?_) hy
  rw [Nat.add_assoc, hwords _ (by omega), if_pos (by omega), Nat.add_sub_cancel_left]

theorem linkOf_last (h : Linked dma m [x]) : x.2.linkOf m x.1 = x.2.ownLink := by
  unfold ChainProg.ownLink ChainProg.linkOf
  split_ifs with hslot
  · unfold ChainProg.HasSlot at hslot
    refine linkAt_congr fun i hi => ?_
    rw [Nat.add_assoc, Nat.zero_add]
    exact h _ (by omega)
  · rfl

/-- A program is found at its address: no two begin at one. -/
theorem find_place {L : List (Nat × ChainProg)} (hL : L.Pairwise fun x y => x.1 + x.2.nwords ≤ y.1)
    (hpos : ∀ x ∈ L, 0 < x.2.nwords) (hx : x ∈ L) : (L.find? fun z => dma + z.1 * 4 = dma + x.1 * 4) = some x := by
  induction L with
  | nil => cases hx
  | cons z L ih =>
    obtain ⟨hz, hrest⟩ := List.pairwise_cons.mp hL
    rcases List.mem_cons.mp hx with rfl | hx
    · rw [List.find?_cons_of_pos (by simp)]
    · have h1 := hz x hx
      have h2 := hpos z List.mem_cons_self
      rw [List.find?_cons_of_neg (by simp; omega)]
      exact ih hrest (fun w hw => hpos w (List.mem_cons_of_mem _ hw)) hx

/-- The walk from the head of a tail of the placed programs, along what was written behind it. -/
theorem walks_iff {next : Nat → Option Nat} (hl : l ≠ []) (hlinked : Linked dma m l)
    (hnext : ∀ x ∈ l, next (dma + x.1 * 4) = x.2.linkOf m x.1) (hlt : ∀ x ∈ l, dma + x.1 * 4 < 2 ^ 32) :
    Walks next (l.map fun x => dma + x.1 * 4) ↔ Ends (l.map Prod.snd) := by
  induction l with
  | nil => exact absurd rfl hl
  | cons x l ih =>
    cases l with
    | nil =>
      simp only [List.map_cons, List.map_nil, Walks, hnext x List.mem_cons_self, linkOf_last hlinked, Ends]
      constructor
      · exact fun h => ⟨fun q hq => absurd hq List.not_mem_nil, fun p hp => by cases hp; exact h⟩
      · exact fun h => h.2 _ rfl
    | cons y l =>
      have hy := hlt y (List.mem_cons_of_mem _ List.mem_cons_self)
      have ih' := ih (List.cons_ne_nil _ _) hlinked.2 (fun z hz => hnext z (List.mem_cons_of_mem _ hz))
        fun z hz => hlt z (List.mem_cons_of_mem _ hz)
      refine (and_congr_right' ih').trans ?_
      rw [hnext x List.mem_cons_self, linkOf_middle hlinked hy]
      simp only [List.map_cons, Ends, List.tail_cons, List.mem_cons, forall_eq_or_imp, List.getLast?_cons_cons]
      by_cases hz : y.2.nreg = 0
      · simp [hz]
      · simp [hz]

/-- What an accepted list is placed as and linked as, the last program with the words it came with: the PC visits every
program once, in order, and stops, just if `Ends` holds of the list. -/
theorem orkNpuChainProgs_chained_iff {c : OrkNpu} {s : Submitted} {m : Nat → Nat}
    (h : orkNpuChainProgs c progs m = some s) : Chained c progs s ↔ Ends progs := by
  unfold orkNpuChainProgs at h
  by_cases hn : progs.length < 1 ∨ 1024 < progs.length
  · rw [if_pos hn] at h
    cases h
  rw [if_neg hn] at h
  by_cases hshort : (progs.any fun p => decide (p.nwords < 2)) = true
  · rw [if_pos hshort] at h
    cases h
  rw [if_neg hshort] at h
  by_cases hroom : c.regcmd.size < placeEnd 0 progs * 4 ∨ c.taskSize < progs.length * 40
  · rw [if_pos hroom] at h
    cases h
  rw [if_neg hroom] at h
  cases hmem : assemble c.regcmd.dma (place 0 progs) m with
  | none =>
    rw [hmem] at h
    cases h
  | some mem =>
    rw [hmem] at h
    cases h
    have hlaid : Laid c.regcmd.size (place 0 progs) := place_laid (by omega)
    have hpos : ∀ x ∈ place 0 progs, 0 < x.2.nwords := by
      intro x hx
      have hmem' : x.2 ∈ progs := place_map_snd 0 progs ▸ List.mem_map_of_mem hx
      by_contra hlt
      exact hshort (List.any_eq_true.mpr ⟨x.2, hmem', by simp; omega⟩)
    have hlt : ∀ x ∈ place 0 progs, c.regcmd.dma + x.1 * 4 < 2 ^ 32 := by
      intro x hx
      have h1 := hlaid.fits x hx
      have h2 := hpos x hx
      have h3 := c.regcmd.fits
      omega
    have hne : place 0 progs ≠ [] := by
      intro hnil
      have := congrArg List.length (place_map_snd 0 progs)
      rw [hnil] at this
      simp at this
      omega
    have hnext : ∀ x ∈ place 0 progs,
        nextAddr c.regcmd.dma (place 0 progs) mem (c.regcmd.dma + x.1 * 4) = x.2.linkOf mem x.1 := by
      intro x hx
      rw [nextAddr, find_place hlaid.apart hpos hx]
      rfl
    have hwalk := walks_iff hne (assemble_linked hmem hlaid.apart).1 hnext hlt
    rw [place_map_snd] at hwalk
    rw [← hwalk, Chained, and_iff_right hlaid, List.map_map]
    refine Iff.of_eq (congrArg _ (List.map_congr_left fun x hx => ?_))
    exact Nat.mod_eq_of_lt (hlt x hx)

def ctx : OrkNpu := ⟨⟨0x1000, 2097152, by decide⟩, 524288⟩

/-- Two programs of eight words, the second ended by a descriptor of amount zero. -/
def pair : List ChainProg :=
  [⟨[1, 2, 3, 4, 5, 6, 7, 8], 0xd, 108, 4⟩, ⟨[1, 2, 3, 4, 0x10, 0x01010000, 0x14, 0x01010000], 0xd, 108, 4⟩]

theorem orkNpuChainProgs_chained_iff_pair :
    ∃ s, orkNpuChainProgs ctx pair (fun _ => 0) = some s ∧ Chained ctx pair s :=
  ⟨_, rfl, (orkNpuChainProgs_chained_iff rfl).mpr ⟨by decide, by rintro p ⟨⟩; rfl⟩⟩

/-- A program that ends as the captured int4 template does, with the descriptor of the job it was captured from. -/
def captured : ChainProg := ⟨[0xf3800010, 0x0101ffff, 0x00370014, 0x01010000], 0xd, 116, 0⟩

/-- Alone in its list it is accepted, and the PC goes on from it to 0xfffff380. -/
theorem not_chained_captured :
    ∃ s, orkNpuChainProgs ctx [captured] (fun _ => 0) = some s ∧ ¬ Chained ctx [captured] s := by
  refine ⟨_, rfl, ?_⟩
  rintro ⟨-, h⟩
  exact absurd (show some 0xfffff380 = none from h) nofun

end OrkDriver.ChainProgs
