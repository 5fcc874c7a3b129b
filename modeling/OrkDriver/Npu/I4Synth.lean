import OrkDriver.Npu.F16Tile

/-!
The int4 programs (`npu/i4/run.c`): the words `orki_i4_synth_full` leaves, and the two-way cache of shapes in front of it
(`orki_i4_synth`).
-/

namespace OrkDriver.Npu

/-! ### The full synthesis -/

/-- `REGCMD_I4`, in pairs of words. -/
def regcmdI4 : List (BitVec 32 × BitVec 32) :=
  [(0x00b11040, 0x02010000), (0x00001104, 0x02010000), (0x00001100, 0x02010000), (0x0360100c, 0x02010000),
    (0x000e4004, 0x10010000), (0x0360100c, 0x02010000), (0x00201010, 0x02010000), (0x00091014, 0x02010000),
    (0x00011020, 0x02010001), (0x00401024, 0x0201003f), (0x00011028, 0x02010000), (0x0001102c, 0x02010000),
    (0x08001030, 0x02010000), (0x00201034, 0x02010000), (0x00401038, 0x02010101), (0x00b11040, 0x02010000),
    (0x00011044, 0x02010000), (0x000b104c, 0x02010000), (0x00001050, 0x02010001), (0x00001054, 0x02010001),
    (0x00001058, 0x02010001), (0x0000105c, 0x02010001), (0x00001060, 0x02010000), (0x00001064, 0x02010000),
    (0x00001068, 0x02010000), (0xd0001070, 0x0201ffff), (0x00001074, 0x02010000), (0x000f1078, 0x0201000f),
    (0x0004107c, 0x02010000), (0xfffd1080, 0x02010fff), (0x00011084, 0x02010001), (0x00401088, 0x02010000),
    (0x00001100, 0x02010000), (0x00001104, 0x02010000), (0xc0001110, 0x0201ffff), (0x00001140, 0x02010000),
    (0x00001144, 0x02010000), (0x00001148, 0x02010000), (0x0000114c, 0x02010000), (0x00001150, 0x02010000),
    (0x00001154, 0x02010000), (0x00001158, 0x02010000), (0x0000115c, 0x02010000), (0x00001160, 0x02010000),
    (0x00001164, 0x02010000), (0x00001168, 0x02010000), (0x0000116c, 0x02010000), (0x00001170, 0x02010000),
    (0x00001174, 0x02010000), (0x00001178, 0x02010000), (0x0000117c, 0x02010000), (0x00001180, 0x02010000),
    (0x00001184, 0x02010000), (0x06013010, 0x08010000), (0x00003014, 0x08010000), (0x003f3018, 0x08010000),
    (0x0000301c, 0x08010000), (0x00003030, 0x08010000), (0x01e4400c, 0x10010000), (0x00064010, 0x10013800),
    (0x00004014, 0x10010000), (0xb0004020, 0x1001ffff), (0x00104024, 0x10010000), (0x00004030, 0x10010000),
    (0x00004034, 0x10010000), (0x00004038, 0x10010000), (0x003f403c, 0x1001003f), (0x00534040, 0x10010000),
    (0x00004044, 0x10010000), (0x00004048, 0x10010000), (0x0000404c, 0x10010000), (0x07fe4050, 0x10010000),
    (0x00004054, 0x10010000), (0x003f4058, 0x10010000), (0x0000405c, 0x10010000), (0x00534060, 0x10010000),
    (0x00004064, 0x10010000), (0x00004068, 0x10010000), (0x0000406c, 0x10010000), (0x03834070, 0x10010000),
    (0x00004074, 0x10010000), (0x00014078, 0x10010000), (0x0000407c, 0x10010000), (0x00004080, 0x10010000),
    (0x00014084, 0x10010000), (0x00004088, 0x10010000), (0x00004090, 0x10010000), (0x00004094, 0x10010000),
    (0x00004098, 0x10010000), (0x0000409c, 0x10010000), (0x000040a0, 0x10010000), (0x000040a4, 0x10010000),
    (0x000040a8, 0x10010000), (0x000040ac, 0x10010000), (0x008040c0, 0x10010000), (0x000040c4, 0x10010000),
    (0x00004100, 0x10010000), (0x00004104, 0x10010000), (0x00004108, 0x10010000), (0x0000410c, 0x10010000),
    (0x00004110, 0x10010000), (0x00004114, 0x10010000), (0x00004118, 0x10010000), (0x0000411c, 0x10010000),
    (0x00004120, 0x10010000), (0x00004124, 0x10010000), (0x00004128, 0x10010000), (0x0000412c, 0x10010000),
    (0xf3800010, 0x0101ffff), (0x00370014, 0x01010000), (0x00000000, 0x00410000), (0x000d0008, 0x00810000),
    (0x00b11040, 0x02010000), (0x00001104, 0x02010000), (0x00001100, 0x02010000), (0x0360100c, 0x02010000)]

/-- The four override variables as a call finds them, converted to 32 bits by `atoi` or `strtoul`; none is unset. -/
structure I4Overrides where
  dbnk : Option (BitVec 32)
  r1040 : Option (BitVec 32)
  r1010 : Option (BitVec 32)
  burst : Option (BitVec 32)
  deriving DecidableEq

/-- A call: its arguments, and what else it reads: the overrides, `orki_i4_act_dense`, and the fuzzer's register writes. -/
structure I4Call where
  mc : Int
  K : Int
  N : Int
  aA : BitVec 32
  aB : BitVec 32
  aC : BitVec 32
  env : I4Overrides
  dense : BitVec 32
  fovr : List RegOvr

/-- The writes that every height gets. -/
def i4Shape (K N : Int) : List RegOvr :=
  let u := BitVec.ofInt 32
  [⟨0x201, 0x1024, u (K - 1) <<< 16 ||| u K⟩, ⟨0x201, 0x1030, u ((K * N).tdiv 2)⟩, ⟨0x201, 0x1034, u (K.tdiv 2)⟩,
    ⟨0x201, 0x1044, u ((K + 127).tdiv 128)⟩, ⟨0x201, 0x1088, u K⟩, ⟨0x201, 0x1038, 0x1010000#32 ||| u N⟩,
    ⟨0x801, 0x3018, u (N - 1)⟩, ⟨0x1001, 0x403c, u (N - 1) <<< 16 ||| u (N - 1)⟩, ⟨0x1001, 0x4058, u (N - 1)⟩]

/-- The K-reduction schedule for `0x1040`. -/
def i4Schedule (mc K : Int) : Int :=
  let base := (49152 - 15 * K).tdiv 256
  let slope := (15 * K).tdiv 256
  let mg := (2 * mc).tdiv 64
  let mg := if mg < 1 then 1 else mg
  let v := base - slope * (mg - 1)
  if v < 0x1b then 0x1b else v

/-- The writes of a batch (`mc > 1`) under the mask `ORK_I4_MREGS`. -/
def i4Batch (mregs : BitVec 32) (mc K N : Int) (dense : BitVec 32) : List RegOvr :=
  let u := BitVec.ofInt 32
  let phys := 2 * mc
  let on := fun (bit : BitVec 32) (ws : List RegOvr) => if mregs &&& bit ≠ 0 then ws else []
  [⟨0x1001, 0x405c, 0⟩] ++
    on 0x40 [⟨0x201, 0x107c, u (if dense ≠ 0 then K.tdiv 32 else K.tdiv 16)⟩] ++
    on 0x01 [⟨0x201, 0x1020, 0x10000#32 ||| u phys⟩, ⟨0x201, 0x1084, 0x10000#32 ||| u phys⟩, ⟨0x201, 0x102c, u phys⟩] ++
    on 0x02 [⟨0x1001, 0x4034, u (phys - 1)⟩] ++ on 0x04 [⟨0x801, 0x3014, u (phys - 1) <<< 16⟩] ++
    on 0x08 [⟨0x1001, 0x4038, u (N.tdiv 4 - 1) <<< 16 ||| u (N.tdiv 4 - 1)⟩] ++
    on 0x10 [⟨0x201, 0x1010, u (16 * (phys + 1))⟩] ++ on 0x20 [⟨0x201, 0x1040, u (i4Schedule mc K)⟩]

/-- `((12-n)<<4)|n`, for `n` data banks. -/
def bankSplit (n : BitVec 32) : BitVec 32 := (12 - n) <<< 4 ||| n

/-- The bank split that `ORK_I4_DBNK` asks for. -/
def splitKnob (dbnk : Option (BitVec 32)) : Option (BitVec 32) :=
  dbnk.bind fun n => if 1 ≤ n.toInt ∧ n.toInt ≤ 11 then some (bankSplit n) else none

/-- The writes of the overrides, in their order. -/
def i4Override (e : I4Overrides) : List RegOvr :=
  ((splitKnob e.dbnk).map fun v => ⟨0x201, 0x1040, v⟩).toList ++
  (e.r1040.map fun v => ⟨0x201, 0x1040, v⟩).toList ++ (e.r1010.map fun v => ⟨0x201, 0x1010, v⟩).toList ++
  (e.burst.map fun v => ⟨0x201, 0x1078, v⟩).toList

/-- The writes before the addresses. -/
def i4Body (mregs : BitVec 32) (c : I4Call) : List RegOvr :=
  i4Shape c.K c.N ++ if 1 < c.mc then i4Batch mregs c.mc c.K c.N c.dense ++ i4Override c.env else []

/-- `ORKI_I4_ADDR`, with the addresses. -/
def i4Addr (c : I4Call) : List RegOvr := [⟨0x201, 0x1070, c.aA⟩, ⟨0x201, 0x1110, c.aB⟩, ⟨0x1001, 0x4020, c.aC⟩]

/-- A list of register writes. -/
def setrAll (ws : List RegOvr) (rc : List (BitVec 32 × BitVec 32)) : List (BitVec 32 × BitVec 32) :=
  ws.foldl (fun rc w => orkiSetr rc w.blk w.reg w.val) rc

/-- `orki_i4_synth_full`. -/
def orkiI4SynthFull (mregs : BitVec 32) (c : I4Call) : List (BitVec 32 × BitVec 32) :=
  setrAll (i4Body mregs c ++ i4Addr c ++ c.fovr) regcmdI4

/-! ### The cache -/

/-- `0x80000000u | v`. -/
def marked (v : BitVec 32) : BitVec 32 := 0x80000000#32 ||| v

/-- `ov`: the overrides of a batch, marked as set, and the packing. -/
def i4Ov (c : I4Call) : List (BitVec 32) :=
  (if 1 < c.mc then
    [(c.env.dbnk.map marked).getD 0, (c.env.r1040.map marked).getD 0, (c.env.r1010.map marked).getD 0,
      (c.env.burst.map marked).getD 0]
  else [0, 0, 0, 0]) ++ [c.dense]

/-- A valid `struct orki_i4_tmpl`; `made` is the call it was made for, of which the struct has `mc`, `K`, `N` and `ov`. -/
structure I4Tmpl where
  made : I4Call
  rc : List (BitVec 32 × BitVec 32)
  sl : List (List Nat)

/-- `orki_i4_tc` and `orki_i4_tcw` of a thread. -/
structure I4Cache where
  way0 : Option I4Tmpl
  way1 : Option I4Tmpl
  tcw : Bool

def I4Cache.empty : I4Cache := ⟨none, none, false⟩

/-- The entry answers for the call. -/
def I4Tmpl.hits (c : I4Call) (t : I4Tmpl) : Bool :=
  t.made.mc = c.mc ∧ t.made.K = c.K ∧ t.made.N = c.N ∧ i4Ov t.made = i4Ov c

/-- The first way that answers. -/
def I4Cache.find (s : I4Cache) (c : I4Call) : Option I4Tmpl := (s.way0.filter (I4Tmpl.hits c)).or (s.way1.filter (I4Tmpl.hits c))

/-- `i4t_find`. -/
def i4tFind (rc : List (BitVec 32 × BitVec 32)) (w : RegOvr) : List Nat :=
  (List.range rc.length).filter fun i => (rc[i]?.map keyOf) = some (w.blk, w.reg)

/-- `i4t_put`. -/
def i4tPut (rc : List (BitVec 32 × BitVec 32)) (w : RegOvr) (sl : List Nat) : List (BitVec 32 × BitVec 32) :=
  sl.foldl (fun rc i => rc.set i (w.reg ||| (w.val &&& 0xffff#32) <<< 16, w.blk <<< 16 ||| (w.val >>> 16 &&& 0xffff#32))) rc

/-- The image of an entry with the addresses of a call. -/
def patch (t : I4Tmpl) (c : I4Call) : List (BitVec 32 × BitVec 32) :=
  ((i4Addr c).zip t.sl).foldl (fun rc p => i4tPut rc p.1 p.2) t.rc

/-- The next way over, filled unless an address occupies no slot or more than four. -/
def I4Cache.fill (s : I4Cache) (c : I4Call) (rc : List (BitVec 32 × BitVec 32)) : I4Cache :=
  let sl := (i4Addr c).map (i4tFind rc)
  let t := if sl.all (fun l => 1 ≤ l.length ∧ l.length ≤ 4) then some ⟨c, rc, sl⟩ else none
  if s.tcw then { s with way1 := t, tcw := false } else { s with way0 := t, tcw := true }

/-- `orki_i4_synth`: the words, and the cache after it. -/
def orkiI4Synth (mregs : BitVec 32) (s : I4Cache) (c : I4Call) : List (BitVec 32 × BitVec 32) × I4Cache :=
  match if c.fovr = [] then s.find c else none with
  | some t => (patch t c, s)
  | none =>
    let rc := orkiI4SynthFull mregs c
    (rc, if c.fovr = [] then s.fill c rc else s)

/-- One call of a thread: the cache it found, and the words it got. -/
structure I4Turn where
  before : I4Cache
  call : I4Call
  words : List (BitVec 32 × BitVec 32)

/-- The calls of a thread from a cache on. -/
def i4Turns (mregs : BitVec 32) : I4Cache → List I4Call → List I4Turn
  | _, [] => []
  | s, c :: cs => ⟨s, c, (orkiI4Synth mregs s c).1⟩ :: i4Turns mregs (orkiI4Synth mregs s c).2 cs

end OrkDriver.Npu
