import OrkDriver.Reap.Context

/-!
What the calls keep: which opening of the device the buffers of a context come from.
-/

namespace OrkDriver.Reap

open OrkDriver.Lib (Prog Triple Keeps)

/-- Every buffer the context holds or has used comes from an opening that satisfies `P`; the open chunks of the int4
arena are among its chunks. -/
structure Books (n : Nat) (P : Nat → Prop) (c : Context) : Prop where
  fd : c.fd = n
  slot : ∀ s, ∀ b ∈ c.slot s, P b.fd
  saved : ∀ d, ∀ parked ∈ c.saved d, ∀ s, ∀ b ∈ parked s, P b.fd
  anchor : ∀ d, ∀ b ∈ c.anchor d, P b.fd
  dmaTab : ∀ b ∈ c.dmaTab, P b.fd
  wchunk : ∀ b ∈ c.wchunk, P b.fd
  i4arena : ∀ b ∈ c.i4arena, P b.fd
  i4arenaCur : ∀ d, ∀ b ∈ c.i4arenaCur d, b ∈ c.i4arena
  foldA : ∀ a ∈ c.foldA, P a.buf.fd
  foldScr : ∀ e ∈ c.foldScr, ∀ b ∈ e.bufs, P b.fd
  seqWitness : ∀ w ∈ c.seqWitness, ∀ t ∈ w.tiles, P t.buf.fd
  ssm : ∀ w ∈ c.ssm.weights, ∀ t ∈ w.tiles, P t.buf.fd
  weights : ∀ w ∈ c.weights, ∀ t ∈ w.tiles, P t.buf.fd
  log : ∀ b ∈ c.log, P b.fd

theorem forall_update {α β : Type} [DecidableEq α] {f : α → Option β} {Q : β → Prop} {a₀ : α} {o : Option β}
    (hf : ∀ a, ∀ b ∈ f a, Q b) (ho : ∀ b ∈ o, Q b) : ∀ a, ∀ b ∈ Function.update f a₀ o a, Q b := by
  intro a
  by_cases ha : a = a₀
  · rw [ha, Function.update_self]
    exact ho
  · rw [Function.update_of_ne ha]
    exact hf a

section Calls

variable {n : Nat} {P : Nat → Prop} {k : Kernel} {b : DevBuf} {o : Option DevBuf} {w : Weight}

theorem keeps_use (hb : P b.fd) : Keeps (Books n P) (use b) :=
  Triple.modify fun _ hc => { hc with log := List.forall_mem_cons.mpr ⟨hb, hc.log⟩ }

theorem keeps_orkiBdestroy (ho : ∀ b ∈ o, P b.fd) : Keeps (Books n P) (orkiBdestroy o) := by
  cases o with
  | none => exact Keeps.pure
  | some b => exact keeps_use (ho b rfl)

theorem create_spec (hP : P n) (size dom : Nat) (heap : Bool) :
    Triple (Books n P) (create k size dom heap) fun o c => Books n P c ∧ ∀ b ∈ o, P b.fd := by
  intro c hc
  refine ⟨{ hc with }, fun b hb => ?_⟩
  obtain ⟨m, -, rfl⟩ := Option.map_eq_some_iff.mp hb
  exact hc.fd ▸ hP

theorem keeps_setSlot (s : Slot) (ho : ∀ b ∈ o, P b.fd) : Keeps (Books n P) (setSlot s o) :=
  Triple.modify fun _ hc => { hc with slot := forall_update hc.slot ho }

theorem keeps_useSlot (s : Slot) : Keeps (Books n P) (useSlot s) :=
  Keeps.read_bind (fun _ hc => hc.slot s) fun _ ho => keeps_orkiBdestroy ho

theorem keeps_remake (hP : P n) (s : Slot) (size : Nat) : Keeps (Books n P) (remake k s size) := by
  refine (keeps_useSlot s).bind fun _ => Keeps.read.bind fun dom => ?_
  exact Keeps.bind_of (create_spec hP size dom false) fun _ ho => keeps_setSlot s ho

theorem keeps_grow (hP : P n) (s : Slot) (size : Nat) : Keeps (Books n P) (grow k s size) :=
  Keeps.read.bind fun _ => Keeps.when fun _ => keeps_remake hP s size

theorem keeps_ensure (hP : P n) (s : Slot) (size : Nat) : Keeps (Books n P) (ensure k s size) :=
  Keeps.read.bind fun _ => Keeps.when fun _ => keeps_remake hP s size

theorem keeps_orkDomPrime (hP : P n) (d : Nat) : Keeps (Books n P) (orkDomPrime k d) := by
  refine Keeps.read.bind fun _ => Keeps.when fun _ => ?_
  refine Keeps.bind_of (create_spec hP 65536 d false) fun b hb => Triple.modify fun c hc => ?_
  exact { hc with anchor := forall_update hc.anchor hb }

theorem books_swap {c : Context} (hc : Books n P c) (dom : Nat) : Books n P (c.swap dom) := by
  have hslot : ∀ s, ∀ b ∈ (c.swap dom).slot s, P b.fd := by
    intro s b hb
    unfold Context.swap at hb
    dsimp only at hb
    split_ifs at hb
    · obtain ⟨parked, hp, hb⟩ := Option.bind_eq_some_iff.mp hb
      exact hc.saved dom parked hp s b hb
    · exact hc.slot s b hb
  have hpark : ∀ parked ∈ some fun s : Slot => if s.parked = true then c.slot s else none, ∀ s, ∀ b ∈ parked s, P b.fd := by
    intro parked hp s b hb
    obtain rfl := Option.mem_some_iff.mp hp
    dsimp only at hb
    split_ifs at hb
    · exact hc.slot s b hb
    · exact absurd hb (Option.not_mem_none b)
  have hsaved : ∀ d, ∀ parked ∈ (c.swap dom).saved d, ∀ s, ∀ b ∈ parked s, P b.fd := forall_update hc.saved hpark
  exact { hc with slot := hslot, saved := hsaved }

theorem keeps_orkiDomActivate (hP : P n) (dom : Nat) : Keeps (Books n P) (orkiDomActivate k dom) := by
  refine Keeps.read.bind fun _ => Keeps.when fun _ => Keeps.read.bind fun _ => ?_
  have hswap : Keeps (Books n P) (Prog.modify fun c => c.swap dom) := Triple.modify fun _ hc => books_swap hc dom
  refine hswap.bind fun _ => ?_
  refine Keeps.read.bind fun _ => Keeps.when fun _ => ?_
  refine (keeps_remake hP _ _).bind fun _ => (keeps_remake hP _ _).bind fun _ => ?_
  exact (keeps_remake hP _ _).bind fun _ => keeps_useSlot _

/-! ### Weights -/

theorem makeTiles_spec (hP : P n) (imp : Bool) (dom : Nat) {l : List Tile} {sizes : List Nat}
    (hmade : ∀ t ∈ l, P t.buf.fd) :
    Triple (Books n P) (makeTiles k imp dom l sizes) fun o c => Books n P c ∧ ∀ ts ∈ o, ∀ t ∈ ts, P t.buf.fd := by
  induction sizes generalizing l with
  | nil => exact Triple.pure fun c hc => ⟨hc, fun ts hts => Option.some.inj hts ▸ hmade⟩
  | cons size sizes ih =>
      refine (create_spec hP size dom imp).bind fun o => Triple.of_fact fun ho => ?_
      cases o with
      | none =>
          have hundo : Keeps (Books n P) (Prog.each (fun t : Tile => use t.buf) l) :=
            Keeps.each fun t ht => keeps_use (hmade t ht)
          exact hundo.bind fun _ => Triple.pure fun c hc => ⟨hc, nofun⟩
      | some b =>
          have hb : P b.fd := ho b rfl
          refine (keeps_use hb).bind fun _ => ih fun t ht => ?_
          rcases List.mem_append.mp ht with ht | ht
          · exact hmade t ht
          · rw [List.mem_singleton.mp ht]
            exact hb

theorem pack_spec (hP : P n) (imp : Bool) (dom : Nat) (sizes : List Nat) :
    Triple (Books n P) (pack k imp dom sizes) fun o c => Books n P c ∧ ∀ w ∈ o, ∀ t ∈ w.tiles, P t.buf.fd := by
  refine Triple.bind (makeTiles_spec hP imp dom (l := []) nofun) fun o c hc => ?_
  refine ⟨hc.1, fun w hw => ?_⟩
  obtain ⟨ts, hts, rfl⟩ := Option.map_eq_some_iff.mp hw
  exact hc.2 ts hts

theorem keeps_useTiles (hw : ∀ t ∈ w.tiles, P t.buf.fd) : Keeps (Books n P) (useTiles w) :=
  Keeps.each fun t ht => keeps_use (hw t ht)

theorem keeps_freeTiles (hw : ∀ t ∈ w.tiles, P t.buf.fd) : Keeps (Books n P) (freeTiles w) :=
  Keeps.when fun _ => keeps_useTiles hw

/-! ### Runs and folds -/

theorem keeps_useDma (i : Nat) : Keeps (Books n P) (useDma i) :=
  Keeps.read_bind (fun _ hc b hb => hc.dmaTab b (List.mem_of_getElem? hb)) fun _ ho => keeps_orkiBdestroy ho

theorem keeps_runSingle (hP : P n) (hw : ∀ t ∈ w.tiles, P t.buf.fd) (a : RunArgs) :
    Keeps (Books n P) (runSingle k w a) := by
  refine (keeps_orkiDomActivate hP _).bind fun _ => (keeps_grow hP _ _).bind fun _ => (keeps_grow hP _ _).bind fun _ => ?_
  refine Triple.bind (Keeps.each fun s _ => keeps_useSlot s) fun _ => ?_
  exact (keeps_useTiles hw).bind fun _ => Keeps.each fun i _ => keeps_useDma i

theorem keeps_orkiMcEnsure (hP : P n) (cores : List (Fin 4)) : Keeps (Books n P) (orkiMcEnsure k cores) := by
  refine (keeps_ensure hP _ _).bind fun _ => Keeps.each fun i _ => Keeps.read.bind fun _ => Keeps.when fun _ => ?_
  exact (keeps_remake hP _ _).bind fun _ => (keeps_remake hP _ _).bind fun _ => keeps_remake hP _ _

theorem keeps_runMulticore (hP : P n) (hw : ∀ t ∈ w.tiles, P t.buf.fd) (a : RunArgs) :
    Keeps (Books n P) (runMulticore k w a) := by
  refine (keeps_orkiDomActivate hP _).bind fun _ => (keeps_orkiMcEnsure hP _).bind fun _ => ?_
  refine Triple.bind (Keeps.each fun i _ => (keeps_grow hP _ _).bind fun _ => keeps_grow hP _ _) fun _ => ?_
  refine Triple.bind (Keeps.each fun i _ => Keeps.each fun s _ => keeps_useSlot s) fun _ => ?_
  refine (keeps_useSlot _).bind fun _ => (keeps_useTiles hw).bind fun _ => ?_
  exact Keeps.each fun i _ => keeps_useDma i

theorem keeps_runChain (hP : P n) {ws : List Weight} (hws : ∀ w ∈ ws, ∀ t ∈ w.tiles, P t.buf.fd) (dom : Nat)
    (cc : Fin 4) (lut : Bool) (operands : List Nat) : Keeps (Books n P) (runChain k ws dom cc lut operands) := by
  have hpair : ∀ s s' size size', Keeps (Books n P) (do remake k s size; remake k s' size') := fun s s' size size' =>
    (keeps_remake hP s size).bind fun _ => keeps_remake hP s' size'
  refine (keeps_orkiDomActivate hP _).bind fun _ => ?_
  refine Keeps.read.bind fun _ => (Keeps.when fun _ => hpair _ _ _ _).bind fun _ => ?_
  refine Keeps.read.bind fun _ => (Keeps.when fun _ => hpair _ _ _ _).bind fun _ => ?_
  refine Triple.bind (Keeps.each fun s _ => keeps_useSlot s) fun _ => ?_
  refine Triple.bind (Keeps.each fun w hw => keeps_useTiles (hws w hw)) fun _ => ?_
  exact Keeps.each fun i _ => keeps_useDma i

theorem keeps_runPpu (hP : P n) (size : Nat) : Keeps (Books n P) (runPpu k size) := by
  refine Keeps.read.bind fun _ => (Keeps.when fun _ => Keeps.each fun s _ => keeps_remake hP s size).bind fun _ => ?_
  exact Keeps.each fun s _ => keeps_useSlot s

theorem keeps_useFoldA {o : Option FoldA} (ho : ∀ a ∈ o, P a.buf.fd) :
    Keeps (Books n P) (orkiBdestroy (o.map FoldA.buf)) := by
  apply keeps_orkiBdestroy
  intro b hb
  obtain ⟨a, ha, rfl⟩ := Option.map_eq_some_iff.mp hb
  exact ho a ha

theorem keeps_foldAEnsure (hP : P n) (M dom : Nat) : Keeps (Books n P) (foldAEnsure k M dom) := by
  refine Keeps.read_bind (p := fun o => ∀ a ∈ o, P a.buf.fd) (fun _ hc => hc.foldA) fun o ho => Keeps.when fun _ => ?_
  refine (keeps_useFoldA ho).bind fun _ => Keeps.bind_of (create_spec hP _ dom false) fun b hb => Triple.modify fun c hc => ?_
  refine { hc with foldA := fun a ha => ?_ }
  obtain ⟨b', hb', rfl⟩ := Option.map_eq_some_iff.mp ha
  exact hb b' hb'

theorem foldBufs_spec (hP : P n) (dom : Nat) {l : List DevBuf} {sizes : List Nat} (hmade : ∀ b ∈ l, P b.fd) :
    Triple (Books n P) (foldBufs k l sizes dom) fun o c => Books n P c ∧ ∀ bs ∈ o, ∀ b ∈ bs, P b.fd := by
  induction sizes generalizing l with
  | nil => exact Triple.pure fun c hc => ⟨hc, fun bs hbs => Option.some.inj hbs ▸ hmade⟩
  | cons size sizes ih =>
      refine (create_spec hP size dom false).bind fun o => Triple.of_fact fun ho => ?_
      cases o with
      | none =>
          have hundo : Keeps (Books n P) (Prog.each use l) := Keeps.each fun b hb => keeps_use (hmade b hb)
          exact hundo.bind fun _ => Triple.pure fun c hc => ⟨hc, nofun⟩
      | some b =>
          apply ih
          intro x hx
          rcases List.mem_append.mp hx with hx | hx
          · exact hmade x hx
          · rw [List.mem_singleton.mp hx]
            exact ho b rfl

theorem keeps_useScratch {fs : List FoldScratch} (h : ∀ e ∈ fs, ∀ b ∈ e.bufs, P b.fd) :
    Keeps (Books n P) (Prog.each use (fs.flatMap FoldScratch.bufs)) := by
  refine Keeps.each fun b hb => keeps_use ?_
  obtain ⟨e, he, hb⟩ := List.mem_flatMap.mp hb
  exact h e he b hb

theorem keeps_foldScrGet (hP : P n) (M N dom : Nat) (sizes : List Nat) :
    Keeps (Books n P) (foldScrGet k M N dom sizes) := by
  refine Keeps.read.bind fun _ => Keeps.when fun _ => ?_
  refine Keeps.bind_of (foldBufs_spec hP dom (l := []) nofun) fun o ho => ?_
  cases o with
  | none => exact Keeps.pure
  | some bufs =>
      refine Keeps.read.bind fun _ => Triple.bind (Keeps.when fun _ => ?_) fun _ => Triple.modify fun c hc => ?_
      · refine Keeps.read_bind (p := fun fs => ∀ e ∈ fs, ∀ b ∈ e.bufs, P b.fd)
          (fun _ hc e he => hc.foldScr e (List.mem_of_mem_take he)) fun old hold => ?_
        refine (keeps_useScratch hold).bind fun _ => Triple.modify fun c hc => ?_
        exact { hc with foldScr := fun e he => hc.foldScr e (List.mem_of_mem_drop he) }
      · refine { hc with foldScr := fun e he => ?_ }
        rcases List.mem_append.mp he with he | he
        · exact hc.foldScr e he
        · rw [List.mem_singleton.mp he]
          exact ho bufs rfl

theorem keeps_runFold (hP : P n) (hw : ∀ t ∈ w.tiles, P t.buf.fd) (M N : Nat) (sizes : List Nat) :
    Keeps (Books n P) (runFold k w M N sizes) := by
  refine (keeps_foldAEnsure hP _ _).bind fun _ => (keeps_foldScrGet hP _ _ _ _).bind fun _ => ?_
  refine Keeps.read_bind (p := fun o => ∀ a ∈ o, P a.buf.fd) (fun _ hc => hc.foldA) fun a ha => ?_
  refine (keeps_useFoldA ha).bind fun _ => Keeps.read_bind (p := fun fs => ∀ e ∈ fs, ∀ b ∈ e.bufs, P b.fd)
    (fun _ hc e he => hc.foldScr e (List.mem_of_mem_filter he)) fun fs hfs => ?_
  exact (keeps_useScratch fun e he => hfs e (List.mem_of_mem_take he)).bind fun _ => keeps_useTiles hw

/-! ### Tables and arenas -/

theorem keeps_orkDmaAlloc (hP : P n) (size dom : Nat) (imp : Bool) :
    Keeps (Books n P) (orkDmaAlloc k size dom imp) := by
  refine Keeps.read.bind fun _ => Keeps.when fun _ => (Keeps.when fun _ => keeps_orkDomPrime hP dom).bind fun _ => ?_
  refine Keeps.bind_of (create_spec hP size dom imp) fun o ho => Triple.modify fun c hc => ?_
  refine { hc with dmaTab := fun b hb => ?_ }
  rcases List.mem_append.mp hb with hb | hb
  · exact hc.dmaTab b hb
  · exact ho b (Option.mem_toList.mp hb)

theorem keeps_orkDmaFree (i : Nat) : Keeps (Books n P) (orkDmaFree i) := by
  refine (keeps_useDma i).bind fun _ => Triple.modify fun c hc => ?_
  refine { hc with dmaTab := ?_ }
  intro b hb
  cases hl : c.dmaTab.getLast? with
  | none =>
      rw [hl] at hb
      exact absurd hb List.not_mem_nil
  | some last =>
      rw [hl] at hb
      dsimp only at hb
      split_ifs at hb
      · rcases List.mem_or_eq_of_mem_set (List.dropLast_subset _ hb) with hb | rfl
        · exact hc.dmaTab b hb
        · exact hc.dmaTab b (List.mem_of_getLast? hl)
      · exact hc.dmaTab b hb

theorem keeps_orkiWarenaReserve (hP : P n) (need mb : Nat) : Keeps (Books n P) (orkiWarenaReserve k need mb) := by
  unfold orkiWarenaReserve
  dsimp only
  refine Keeps.read.bind fun _ => Keeps.read.bind fun _ => Triple.bind (Keeps.when fun _ => ?_) fun _ => ?_
  · refine Keeps.bind_of (create_spec hP _ 0 false) fun o ho => Triple.modify fun c hc => ?_
    refine { hc with wchunk := fun b hb => ?_ }
    rcases List.mem_append.mp hb with hb | hb
    · exact hc.wchunk b hb
    · exact ho b (Option.mem_toList.mp hb)
  · refine Keeps.read_bind (p := fun o => ∀ b ∈ o, P b.fd)
      (fun c hc b hb => hc.wchunk b (List.mem_of_getLast? (Option.eq_some_of_filter_eq_some hb))) fun o ho => ?_
    refine Keeps.when fun _ => (keeps_orkiBdestroy ho).bind fun _ => Triple.modify fun c hc => { hc with }

theorem views_fd {b : DevBuf} {off : Nat} {sizes : List Nat} : ∀ t ∈ views b off sizes, t.buf.fd = b.fd := by
  induction sizes generalizing off with
  | nil => nofun
  | cons size sizes ih =>
      intro t ht
      rcases List.mem_cons.mp ht with rfl | ht
      · rfl
      · exact ih t ht

theorem keeps_orkI4LoadArena (hP : P n) (dom cap : Nat) (sizes : List Nat) :
    Keeps (Books n P) (orkI4LoadArena k dom cap sizes) := by
  unfold orkI4LoadArena
  dsimp only
  refine (keeps_orkDomPrime hP dom).bind fun _ => Keeps.read.bind fun _ => Triple.bind (Keeps.when fun _ => ?_) fun _ => ?_
  · refine Keeps.bind_of (create_spec hP _ dom true) fun o ho => Keeps.when fun _ => Triple.modify fun c hc => ?_
    refine { hc with i4arena := fun b hb => ?_, i4arenaCur := forall_update (fun d b hb => ?_) fun b hb => ?_ }
    · rcases List.mem_append.mp hb with hb | hb
      · exact hc.i4arena b hb
      · exact ho b (Option.mem_toList.mp hb)
    · exact List.mem_append_left _ (hc.i4arenaCur d b hb)
    · exact List.mem_append_right _ (Option.mem_toList.mpr hb)
  · refine Keeps.read_bind (p := fun o => ∀ b ∈ o, P b.fd)
      (fun c hc b hb => hc.i4arena b (hc.i4arenaCur dom b (Option.eq_some_of_filter_eq_some hb))) fun o ho => ?_
    cases o with
    | none => exact Keeps.pure
    | some b =>
        refine (keeps_use (ho b rfl)).bind fun _ => Triple.modify fun c hc => { hc with weights := fun w hw => ?_ }
        rcases List.mem_append.mp hw with hw | hw
        · exact hc.weights w hw
        · rw [List.mem_singleton.mp hw]
          intro t ht
          exact (views_fd t ht) ▸ ho b rfl

/-! ### The calls -/

theorem keeps_seqEnsureWitness (hP : P n) (dom : Nat) (sizes : List Nat) :
    Keeps (Books n P) (seqEnsureWitness k dom sizes) := by
  refine Keeps.read.bind fun _ => Keeps.when fun _ => ?_
  exact Keeps.bind_of (pack_spec hP false dom sizes) fun w hw => Triple.modify fun c hc => { hc with seqWitness := hw }

theorem keeps_orkiSsmPoolFree : Keeps (Books n P) orkiSsmPoolFree := by
  refine Keeps.read_bind (p := fun ws => ∀ w ∈ ws, ∀ t ∈ w.tiles, P t.buf.fd) (fun _ hc => hc.ssm) fun ws hws => ?_
  refine Triple.bind (Keeps.each fun w hw => keeps_useTiles (hws w hw)) fun _ => Triple.modify fun c hc => ?_
  exact { hc with ssm := nofun }

theorem keeps_ssmPoolEnsure (hP : P n) (shape : List Nat) (dom : Nat) (sizes : List (Bool × List Nat)) :
    Keeps (Books n P) (ssmPoolEnsure k shape dom sizes) := by
  refine Keeps.read.bind fun _ => Keeps.when fun _ => keeps_orkiSsmPoolFree.bind fun _ => Triple.bind (Keeps.each fun z _ => ?_) fun _ => ?_
  · refine Keeps.bind_of (pack_spec hP z.1 dom z.2) fun o ho => Triple.modify fun c hc => { hc with ssm := fun w hw => ?_ }
    rcases List.mem_append.mp hw with hw | hw
    · exact hc.ssm w hw
    · exact ho w (Option.mem_toList.mp hw)
  · exact Triple.modify fun c hc => { hc with }

theorem keeps_orkNpuFree : Keeps (Books n P) orkNpuFree := by
  refine Keeps.read_bind (p := fun o => ∀ w ∈ o, ∀ t ∈ w.tiles, P t.buf.fd) (fun _ hc => hc.seqWitness) fun o ho => ?_
  refine Triple.bind (Keeps.each fun w hw => keeps_useTiles (ho w (Option.mem_toList.mp hw))) fun _ => ?_
  refine keeps_orkiSsmPoolFree.bind fun _ => ?_
  refine Keeps.read_bind (p := fun fs => ∀ e ∈ fs, ∀ b ∈ e.bufs, P b.fd) (fun _ hc => hc.foldScr) fun fs hfs => ?_
  refine (keeps_useScratch hfs).bind fun _ => ?_
  refine Keeps.read_bind (p := fun o => ∀ a ∈ o, P a.buf.fd) (fun _ hc => hc.foldA) fun a ha => ?_
  refine (keeps_useFoldA ha).bind fun _ => Triple.bind (Keeps.each fun s _ => keeps_useSlot s) fun _ => ?_
  refine Keeps.read_bind (p := fun l => ∀ b ∈ l, P b.fd) (fun _ hc => hc.dmaTab) fun d hd => ?_
  refine Triple.bind (Keeps.each fun b hb => keeps_use (hd b hb)) fun _ => ?_
  refine Keeps.read_bind (p := fun l => ∀ b ∈ l, P b.fd) (fun _ hc => hc.i4arena) fun d hd => ?_
  refine Triple.bind (Keeps.each fun b hb => keeps_use (hd b hb)) fun _ => ?_
  refine Keeps.read_bind (p := fun l => ∀ b ∈ l, P b.fd) (fun _ hc => hc.wchunk) fun d hd => ?_
  refine Triple.bind (Keeps.each fun b hb => keeps_use (hd b hb)) fun _ => ?_
  exact Triple.modify fun c hc => { hc with }

theorem keeps_withWeight {f : Weight → Prog Context Unit}
    (hf : ∀ w, (∀ t ∈ w.tiles, P t.buf.fd) → Keeps (Books n P) (f w)) (i : Nat) :
    Keeps (Books n P) (withWeight i f) := by
  refine Keeps.read_bind (p := fun o => ∀ w ∈ o, ∀ t ∈ w.tiles, P t.buf.fd)
    (fun _ hc w hw => hc.weights w (List.mem_of_getElem? hw)) fun o ho => ?_
  exact Keeps.each fun w hw => hf w (ho w (Option.mem_toList.mp hw))

theorem keeps_prog (hP : P n) (op : Op) : Keeps (Books n P) (op.prog k) := by
  cases op with
  | run i a => exact keeps_withWeight (fun w hw => keeps_runSingle hP hw a) i
  | multicore i a => exact keeps_withWeight (fun w hw => keeps_runMulticore hP hw a) i
  | chain is dom cc lut operands =>
      refine Keeps.read_bind (p := fun ws => ∀ w ∈ ws, ∀ t ∈ w.tiles, P t.buf.fd) (fun c hc w hw => ?_)
        fun ws hws => keeps_runChain hP hws dom cc lut operands
      obtain ⟨id, -, hid⟩ := List.mem_filterMap.mp hw
      exact hc.weights w (List.mem_of_getElem? hid)
  | ppu size => exact keeps_runPpu hP size
  | fold i M N sizes => exact keeps_withWeight (fun w hw => keeps_runFold hP hw M N sizes) i
  | dmaAlloc size dom imp => exact keeps_orkDmaAlloc hP size dom imp
  | dmaFree i => exact keeps_orkDmaFree i
  | dmaSync i => exact keeps_useDma i
  | warena need mb => exact keeps_orkiWarenaReserve hP need mb
  | i4arena dom cap sizes => exact keeps_orkI4LoadArena hP dom cap sizes
  | pack imp dom sizes =>
      refine Keeps.bind_of (pack_spec hP imp dom sizes) fun o ho => Triple.modify fun c hc => ?_
      refine { hc with weights := fun w hw => ?_ }
      rcases List.mem_append.mp hw with hw | hw
      · exact hc.weights w hw
      · exact ho w (Option.mem_toList.mp hw)
  | repack i => exact keeps_withWeight (fun w hw => keeps_useTiles hw) i
  | attach i dom sizes =>
      refine Keeps.bind_of (makeTiles_spec hP false dom (l := []) nofun) fun o ho => Triple.modify fun c hc => ?_
      refine { hc with weights := fun w hw => ?_ }
      obtain ⟨j, hj, rfl⟩ := List.mem_iff_getElem.mp hw
      rw [List.getElem_modify]
      rw [List.length_modify] at hj
      split_ifs
      · intro t ht
        rcases List.mem_append.mp ht with ht | ht
        · exact hc.weights _ (List.getElem_mem hj) t ht
        · cases o with
          | none => exact absurd ht List.not_mem_nil
          | some ts => exact ho ts rfl t ht
      · exact hc.weights _ (List.getElem_mem hj)
  | free i =>
      refine (keeps_withWeight (fun w hw => keeps_freeTiles hw) i).bind fun _ => Triple.modify fun c hc => ?_
      exact { hc with weights := fun w hw => hc.weights w (List.mem_of_mem_eraseIdx hw) }
  | seq a dom sizes =>
      refine (keeps_seqEnsureWitness hP dom sizes).bind fun _ => ?_
      refine Keeps.read_bind (p := fun o => ∀ w ∈ o, ∀ t ∈ w.tiles, P t.buf.fd) (fun _ hc => hc.seqWitness) fun o ho => ?_
      exact Keeps.each fun w hw => keeps_runMulticore hP (ho w (Option.mem_toList.mp hw)) a
  | ssm shape dom sizes a =>
      refine (keeps_ssmPoolEnsure hP shape dom sizes).bind fun _ => ?_
      refine Keeps.read_bind (p := fun ws => ∀ w ∈ ws, ∀ t ∈ w.tiles, P t.buf.fd) (fun _ hc => hc.ssm) fun ws hws => ?_
      exact Keeps.each fun w hw => keeps_runMulticore hP (hws w hw) a
  | npuFree => exact keeps_orkNpuFree

theorem books_next (hP : P n) {c : Context} (hc : Books n P c) (op : Op) : Books n P (next k c op) := by
  unfold next
  split_ifs
  · exact hc
  · exact keeps_prog hP op c hc

end Calls

end OrkDriver.Reap
