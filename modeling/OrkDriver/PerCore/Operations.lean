import OrkDriver.PerCore.Scratch

/-!
The operations that size the per-core scratch, each as the steps it takes up to the first that makes it return, and
what holds of the scratch after every step of every sequence of them.
-/

namespace OrkDriver.PerCore

/-- A step, and whether the operation returns where it fails. -/
abbrev Steps : Type := List (Event × Bool)

/-- How an operation comes to its cores: the domain of its weights, the mode transition, `orki_mc_ensure`. -/
structure Entry where
  dom : Int
  room : Bool
  sclr : Bool
  nc : Nat
  all : Bool
  g : Nat → McGrant

def Entry.steps (e : Entry) : Steps :=
  [(.activate e.dom e.room, true), (.enter e.sclr, true), (.ensure e.nc e.all e.g, true)]

/-- The bytes each core needs of each buffer. -/
structure Needs where
  mrc : Nat → Nat
  mtk : Nat → Nat
  maf : Nat → Nat
  mcc : Nat → Nat

/-- Whether the kernel grants each growth. -/
structure Answers where
  mrc : Nat → Bool
  mtk : Nat → Bool
  maf : Nat → Bool
  mcc : Nat → Bool

/-- The cores below `nc` that get work, in order. -/
def working (nc : Nat) (works : Nat → Bool) : List Nat := (List.range nc).filter works

/-- One rung of `orki_i4_run_bchain_db`: its workers' buffers are sized first and looked at together. -/
structure BchTry where
  entry : Entry
  works : Nat → Bool
  need : Needs
  ans : Answers

def BchTry.steps (t : BchTry) : Steps :=
  t.entry.steps ++ (working t.entry.nc t.works).flatMap fun i =>
    [(.grow .mrc i (t.need.mrc i) (t.ans.mrc i), false), (.grow .maf i (t.need.maf i) (t.ans.maf i), false),
      (.grow .mtk i (t.need.mtk i) (t.ans.mtk i), false), (.growMcc .before i (t.need.mcc i) (t.ans.mcc i), false),
      (.present i, true)]

/-- The operations, under the names of their functions. -/
inductive Op
  | orkNpuInit (cores : Nat) (all : Bool) (g : Nat → McGrant) (mcc : Nat → Bool)
  | orkI4MmLoadImport (dom : Int) (room : Bool) (cores : Nat) (all : Bool) (g : Nat → McGrant) (mcc : Nat → Bool)
  | orkiRun (dom : Int) (room sclr : Bool)
  | orkI8ProbeChain (all : Bool) (g : Nat → McGrant)
  | orkI8MmRunStreamSk (e : Entry) (maxMK maxMN4 : Nat) (ans : Answers)
  | orkI4MmRunStream (e : Entry) (maxMK maxMN2 : Nat) (ans : Answers)
  | orkF16MmRunStreamChain (e : Entry) (needrc needtk maxMK maxMN4 : Nat) (ans : Answers)
  | orkiI4RunBchainDb (rungs : List BchTry)
  | orkiI4RunExpertsBchainDb (first : BchTry) (again : List BchTry) (frees : Bool)
  | orkI4DynBeginMc (e : Entry) (works : Nat → Bool) (need : Needs) (ans : Answers)
  | orkiDynBeginMcImpl (e : Entry) (works : Nat → Bool) (direct : Bool) (need : Needs) (ans : Answers)
  | orkDynBeginColsplitI8 (e : Entry) (works : Nat → Bool) (ksplit : Bool) (need : Needs) (ksz : Nat → Nat)
      (ans : Answers) (kans : Nat → Bool)
  | orkDynBeginColsplitF16 (e : Entry) (works : Nat → Bool) (need : Needs) (ans : Answers)
  | orkDynBeginSeq (e : Entry) (works : Nat → Bool) (need : Needs) (ans : Answers)
  | orkCtxFdReap (opened : Bool)

/-- The size the output buffers get when a domain is set up. -/
def mccNeed : Nat := 2 * 1024 * 1024

def Op.steps : Op → Steps
  | .orkNpuInit cores all g mcc =>
    (.ensure cores all g, false) :: (List.range cores).map fun i => (.growMcc .after i mccNeed (mcc i), false)
  | .orkI4MmLoadImport dom room cores all g mcc =>
    (.activate dom room, true) :: (.ensure cores all g, false) ::
      (List.range cores).map fun i => (.growMcc .after i mccNeed (mcc i), false)
  | .orkiRun dom room sclr => [(.activate dom room, true), (.enter sclr, true)]
  | .orkI8ProbeChain all g => [(.ensure 1 all g, true)]
  | .orkI8MmRunStreamSk e maxMK maxMN4 ans =>
    e.steps ++ (List.range e.nc).flatMap fun i =>
      [(.grow .maf i maxMK (ans.maf i), true), (.growMcc .before i maxMN4 (ans.mcc i), true)]
  | .orkI4MmRunStream e maxMK maxMN2 ans =>
    e.steps ++ (List.range e.nc).flatMap fun i =>
      [(.grow .maf i maxMK (ans.maf i), true), (.growMcc .before i maxMN2 (ans.mcc i), true)]
  | .orkF16MmRunStreamChain e needrc needtk maxMK maxMN4 ans =>
    e.steps ++ (List.range e.nc).flatMap fun i =>
      [(.grow .mrc i needrc (ans.mrc i), true), (.grow .mtk i needtk (ans.mtk i), true),
        (.grow .maf i maxMK (ans.maf i), true), (.growMcc .before i maxMN4 (ans.mcc i), true)]
  | .orkiI4RunBchainDb rungs => rungs.flatMap BchTry.steps
  | .orkiI4RunExpertsBchainDb first again frees =>
    first.steps ++ again.flatMap BchTry.steps ++
      if frees then (List.range first.entry.nc).map fun i => (.release i, true) else []
  | .orkI4DynBeginMc e works need ans =>
    e.steps ++ (working e.nc works).map fun i => (.growMcc .after i (need.mcc i) (ans.mcc i), true)
  | .orkiDynBeginMcImpl e works direct need ans =>
    e.steps ++
      (if direct then [] else (working e.nc works).map fun i => (.growMcc .after i (need.mcc i) (ans.mcc i), true)) ++
      (working e.nc works).map fun i => (.grow .maf i (need.maf i) (ans.maf i), true)
  | .orkDynBeginColsplitI8 e works ksplit need ksz ans kans =>
    e.steps ++ (working e.nc works).flatMap fun i =>
      [(.grow .maf i (need.maf i) (ans.maf i), true), (.growMcc .after i (need.mcc i) (ans.mcc i), true)] ++
        if ksplit then [(.growMcc .after i (ksz i) (kans i), true)] else []
  | .orkDynBeginColsplitF16 e works need ans =>
    e.steps ++ (working e.nc works).flatMap fun i =>
      (if i = 0 then [(.grow .maf i (need.maf i) (ans.maf i), true)] else []) ++
        [(.growMcc .after i (need.mcc i) (ans.mcc i), true), (.grow .mrc i (need.mrc i) (ans.mrc i), true),
          (.grow .mtk i (need.mtk i) (ans.mtk i), true)]
  | .orkDynBeginSeq e works need ans =>
    (.ensure e.nc e.all e.g, true) :: (.enter e.sclr, true) :: (.activate e.dom e.room, true) ::
      (working e.nc works).map fun i => (.grow .maf i (need.maf i) (ans.maf i), true)
  | .orkCtxFdReap opened => [(.reap opened, true)]

/-! ### Running -/

/-- The context when the operation has returned. -/
def OrkNpu.perform (c : OrkNpu) : Steps → OrkNpu
  | [] => c
  | (e, must) :: es => if must && !(c.exec e).1 then (c.exec e).2 else (c.exec e).2.perform es

/-- Every step the operation comes to meets `P` where it is taken. -/
def Along (P : OrkNpu → Event → Prop) (c : OrkNpu) : Steps → Prop
  | [] => True
  | (e, must) :: es => P c e ∧ ((must → (c.exec e).1) → Along P (c.exec e).2 es)

/-- Every step of every operation of the sequence does. -/
def AlongAll (P : OrkNpu → Event → Prop) (c : OrkNpu) : List Op → Prop
  | [] => True
  | o :: os => Along P c o.steps ∧ AlongAll P (c.perform o.steps) os

/-- After the step every noted size has its live buffer. -/
def KeepsSizes (c : OrkNpu) (e : Event) : Prop := (c.exec e).2.SizesLive

/-- Where the step is an `orki_mc_ensure` that returns 0, the cores it was asked for are furnished. -/
def Furnishes (c : OrkNpu) (e : Event) : Prop :=
  ∀ nc all g, e = .ensure nc all g → (c.exec e).1 = true → (c.exec e).2.Furnished nc

variable {c : OrkNpu}

/-- A step that spares a sound context does both. -/
theorem holds_of_spares (h : c.Sound) {e : Event} (hg : c.Spares e) : KeepsSizes c e ∧ Furnishes c e := by
  refine ⟨(exec_sound h hg).work.1, ?_⟩
  rintro nc all g rfl
  exact (orkiMcEnsure_sound h hg).2

theorem Along.sound {es : Steps} (h : c.Sound) (hg : Along OrkNpu.Spares c es) :
    Along (fun c e => KeepsSizes c e ∧ Furnishes c e) c es ∧ (c.perform es).Sound := by
  induction es generalizing c with
  | nil => exact ⟨trivial, h⟩
  | cons x es ih =>
    obtain ⟨e, must⟩ := x
    obtain ⟨he, hrest⟩ := hg
    have hs := exec_sound h he
    refine ⟨⟨holds_of_spares h he, fun hgo => (ih hs (hrest hgo)).1⟩, ?_⟩
    simp only [OrkNpu.perform]
    split_ifs with hstop
    · exact hs
    · refine (ih hs (hrest fun hm => ?_)).2
      simpa [hm] using hstop

/-- In every sequence of operations on a context whose steps all spare the scratch, every noted size has its live
output buffer after every step, and every `orki_mc_ensure` that returns 0 leaves its cores furnished. -/
theorem perCore_integrity (ops : List Op) (h : AlongAll OrkNpu.Spares fresh ops) :
    AlongAll (fun c e => KeepsSizes c e ∧ Furnishes c e) fresh ops := by
  have hrun : ∀ {c : OrkNpu}, c.Sound → AlongAll OrkNpu.Spares c ops →
      AlongAll (fun c e => KeepsSizes c e ∧ Furnishes c e) c ops := by
    clear h
    induction ops with
    | nil => exact fun _ _ => trivial
    | cons o os ih =>
      intro c hs hg
      obtain ⟨hfirst, hnext⟩ := Along.sound hs hg.1
      exact ⟨hfirst, ih hnext hg.2⟩
  exact hrun fresh_sound h

/-- One core of domain 0, the mode kept, all granted. -/
def entryOne : Entry := ⟨0, true, false, 1, true, fun _ => .all⟩

def granted : Answers := ⟨fun _ => true, fun _ => true, fun _ => true, fun _ => true⟩

/-- An int4 stream whose buffers are all granted. -/
theorem perCore_integrity_stream :
    AlongAll (fun c e => KeepsSizes c e ∧ Furnishes c e) fresh [.orkI4MmRunStream entryOne 4096 8192 granted] :=
  perCore_integrity _ ⟨⟨trivial, fun _ => ⟨trivial, fun _ => ⟨fun _ _ _ _ _ => ⟨rfl, rfl⟩, fun _ =>
    ⟨fun _ _ => rfl, fun _ => ⟨fun _ => Or.inl rfl, fun _ => trivial⟩⟩⟩⟩⟩, trivial⟩

/-- `n` bytes of output on each core. -/
def outOf (n : Nat) : Needs := ⟨fun _ => 0, fun _ => 0, fun _ => 0, fun _ => n⟩

/-- A doorbell run that needs 8192 bytes of output, then one that needs 16384 and is refused them: the size 8192 stays
noted without its buffer. And a stream whose activation buffer is refused by `orki_mc_ensure`, then another: it returns
0 without that buffer. -/
theorem not_integrity :
    ¬ AlongAll KeepsSizes fresh
        [.orkiDynBeginMcImpl entryOne (fun _ => true) false (outOf 8192) granted,
          .orkiDynBeginMcImpl entryOne (fun _ => true) false (outOf 16384) { granted with mcc := fun _ => false }] ∧
      ¬ AlongAll Furnishes fresh
        [.orkI4MmRunStream { entryOne with g := fun _ => ⟨true, true, false⟩ } 4096 8192 granted,
          .orkI4MmRunStream entryOne 4096 8192 granted] := by
  constructor
  · rintro ⟨-, ⟨-, h⟩, -⟩
    have hgrow := ((((h fun _ => rfl).2 fun _ => rfl).2 fun _ => rfl).1) 0 (by decide)
    obtain ⟨b, hb, -⟩ := hgrow
    exact absurd (show (none : Option Buf) = some b from hb) nofun
  · rintro ⟨-, ⟨-, h⟩, -⟩
    have hens := ((h fun _ => rfl).2 fun _ => rfl).1 1 true (fun _ => .all) rfl rfl 0 Nat.zero_lt_one .maf
    obtain ⟨b, hb, -⟩ := hens
    exact absurd (show (none : Option Buf) = some b from hb) nofun

end OrkDriver.PerCore
