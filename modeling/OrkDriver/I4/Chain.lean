import OrkDriver.Core.Writeback
import OrkDriver.Npu.Int4
import OrkDriver.Npu.Soc
import OrkDriver.Pack.Header

/-!
The batched int4 chain (`npu/i4/chain.c`): one weight over the cores by column blocks, or a list of experts of one shape,
cut into programs of at most `H` rows and `Wb` columns.
-/

namespace OrkDriver.I4

open OrkDriver.Lib OrkDriver.Npu OrkDriver.Pack OrkDriver.Core

/-- An int4 weight: `ork_w`. Packing and loading refuse a depth that is no multiple of 32, and cut no columns into no
slices. -/
structure OrkW4 where
  dt : Dt
  K : Nat
  N : Nat
  Sk : Nat
  Sn : Nat
  domain : Int
  Bb : Nat → Nat → Int
  K32 : 32 ∣ K
  Sn_zero : N = 0 → Sn = 0

/-- `ork_mm_task_i4`; its C is an array of its own. -/
structure Task4 where
  w : OrkW4
  M : Nat
  A : Nat → Int

/-- The knobs, numbers as `atoi` reads them (0 if unset), and whether buffers are granted. -/
structure ChainEnv where
  dbnk : Int
  h : Int
  wb : Int
  notail : Bool
  nowide : Bool
  dense : Bool
  granted : Bool
  deriving DecidableEq

/-- No knob set, nothing refused. -/
def ChainEnv.quiet : ChainEnv := ⟨0, 0, 0, false, false, true, true⟩

def orkMaxcore : Nat := 4

/-! ### Geometry -/

def hcapTable : List (Nat × Nat) :=
  [(32, 128), (64, 128), (96, 128), (128, 128), (160, 64), (192, 64), (224, 64), (256, 64), (512, 32), (768, 22),
    (1024, 16), (1280, 13), (1536, 11), (1792, 9), (2048, 8), (2304, 7), (2560, 4), (2816, 4), (3072, 4), (3584, 4),
    (4096, 4), (4608, 4), (5120, 3), (6144, 3), (8192, 2)]

/-- `orki_i4_hcap`. -/
def orkiI4Hcap (K : Nat) : Nat :=
  match hcapTable.lookup K with
  | some H => H
  | none =>
    let H := 12288 / K
    if 64 < H then 64 else H

/-- `(131072/K) & ~63`. -/
def bankWidth (K : Nat) : Nat := 131072 / K / 64 * 64

/-- `orki_i4_wbdef`. -/
def orkiI4Wbdef (v : ChainEnv) (K N : Nat) : Nat :=
  let Wb := bankWidth K
  let Wb := if v.nowide = false ∧ K ≤ 1024 ∧ 12 ≤ orkiI4Hcap K ∧ Wb < 320 then 320 else Wb
  let Wb := if N < Wb then N else Wb
  if Wb < 64 then 64 else Wb

/-- Rows of a program, with the knobs. -/
def ChainEnv.height (v : ChainEnv) (K : Nat) : Nat :=
  let H := if 1 ≤ v.dbnk ∧ v.dbnk ≤ 11 then
      let H := v.dbnk.toNat * orkiI4Hcap K
      if 64 < H then 64 else H
    else orkiI4Hcap K
  if 0 < v.h then v.h.toNat else H

/-- Columns of a program, with the knob and the limit of the caller (0 for none). -/
def ChainEnv.width (v : ChainEnv) (Wb N Wblim : Nat) : Nat :=
  let Wb := if 0 < v.wb then v.wb.toNat else Wb
  let Wb := if 0 < Wblim ∧ Wblim < Wb then Wblim else Wb
  let Wb := if Wb < 64 then 64 else Wb
  if N < Wb then N else Wb

/-- The shape that the programs of a chain share; `dense` is `orki_i4_densek`. -/
structure ChainGeom where
  K : Nat
  N : Nat
  H : Nat
  Wb : Nat
  dense : Bool
  deriving DecidableEq

namespace ChainGeom

variable (G : ChainGeom)

def NC : Nat := pieces G.N G.Wb

def NG (M : Nat) : Nat := pieces M G.H

def Wmax : Nat := G.Wb / 64

/-- `PS_`: lines of activations for each row. -/
def PS : Nat := if G.dense then 1 else 2

/-- `LN_`: lines for each group of rows. -/
def LN : Nat := G.PS * G.H

/-- int16 words of a program's slot. -/
def slot : Nat := 4 * G.H * G.Wmax * 64

end ChainGeom

/-- What one core computes of one task: column blocks `[c0, c1)` of expert `e`, its activations from byte `aoff` on and
its programs from slot `tk` on. -/
structure Job where
  e : Nat
  M : Nat
  c0 : Nat
  c1 : Nat
  aoff : Nat
  tk : Nat
  deriving DecidableEq

/-- One program, with the task, row and column it starts at. -/
structure Emit4 where
  e : Nat
  m0 : Nat
  n0 : Nat
  p : Program4
  deriving DecidableEq

namespace ChainGeom

variable (G : ChainGeom) (j : Job)

/-- How many programs a job is. -/
def count : Nat := (j.c1 - j.c0) * G.NG j.M

/-- Bytes of its activations. -/
def bytes : Nat := G.NG j.M * G.LN * (G.K / 2)

/-- The program of column block `c0 + b` and row group `g`. -/
def emit (b g : Nat) : Emit4 :=
  let n0 := (j.c0 + b) * G.Wb
  let Wc := pieceLen G.N G.Wb (j.c0 + b)
  let Hg := pieceLen j.M G.H g
  let tk := j.tk + (b * G.NG j.M + g)
  ⟨j.e, g * G.H, n0,
    ⟨2 * Hg, G.K, Wc, j.aoff + g * G.LN * (G.K / 2), n0 / 64 * G.K * 32, tk * (4 * G.H * G.Wmax) * 64 * 2, G.dense⟩⟩

/-- The emission of a job, in chain order. -/
def emits : List Emit4 :=
  (List.range (j.c1 - j.c0)).flatMap fun b => (List.range (G.NG j.M)).map (G.emit j b)

/-- The staging of its activations: `orki_i4_tile_Aslice` row by row. -/
def staging (A : Nat → Int) : List (Nat × Int) :=
  (List.range (G.NG j.M)).flatMap fun g =>
    block (2 * (j.aoff + g * G.LN * (G.K / 2))) (2 * (G.PS * (G.K / 2))) (pieceLen j.M G.H g) G.K fun r k =>
      nibble (A ((g * G.H + r) * G.K + k))

/-- `bch_db_cells_off` in mode 2: the de-tile of the job into C. -/
def detile : List Move :=
  (List.range (j.c1 - j.c0)).flatMap fun b => (List.range (G.NG j.M)).flatMap fun g =>
    let n0 := (j.c0 + b) * G.Wb
    let Wc := pieceLen G.N G.Wb (j.c0 + b)
    let Hg := pieceLen j.M G.H g
    let tk := b * G.NG j.M + g
    (List.range Hg).flatMap fun r => (List.range (Wc / 64)).flatMap fun nb => (List.range 64).map fun cc =>
      ((g * G.H + r) * G.N + n0 + nb * 64 + cc,
        [(j.tk + tk) * (4 * G.H * G.Wmax * 64) + ((4 * r + 4 * Hg * nb) * 64 + cc)])

end ChainGeom

/-- A chain ready to run: what each core is given. -/
structure Plan where
  G : ChainGeom
  nc : Nat
  jobs : Nat → List Job

namespace Plan

variable (P : Plan) (i : Nat)

def emits : List Emit4 := (P.jobs i).flatMap P.G.emits

/-- `NT`, the number of programs that the buffers of core `i` are sized for. -/
def count : Nat := ((P.jobs i).map P.G.count).sum

/-- `need_o`, in int16 words. -/
def outWords : Nat := P.count i * (4 * P.G.H * P.G.Wmax) * 64

/-- `need_af`, in bytes. -/
def actBytes : Nat := ((P.jobs i).map fun j => P.G.NG j.M * (2 * P.G.H) * (P.G.K / 2)).sum

/-- The activations of core `i`, cleared and staged. -/
def staged (ex : Nat → Task4) : Nat → Int :=
  stores (fun _ => 0) ((P.jobs i).flatMap fun j => P.G.staging j (ex j.e).A)

/-- What core `i` moves into the C of expert `e`. -/
def detile (e : Nat) : List Move := ((P.jobs i).filter fun j => j.e = e).flatMap P.G.detile

end Plan

/-! ### One weight -/

/-- The tail balance: among `H`, `H-1`, .. the height that costs least. -/
def tailBalance (M gam tcrit : Nat) : Nat → Nat → Nat → Nat → Nat
  | 0, _, best, _ => best
  | fuel + 1, h, best, bc =>
    if 8 ≤ h then
      let g := pieces M h
      let r := M - (g - 1) * h
      let cost := gam * r + 3 * g * tcrit
      if 2 ≤ r ∧ cost < bc then tailBalance M gam tcrit fuel (h - 1) h cost
      else tailBalance M gam tcrit fuel (h - 1) best bc
    else best

/-- First column block of core `i`. -/
def coreBlock (NC nc i : Nat) : Nat := i * NC / nc

def clampCores (c : OrkNpu) (nc : Int) (most : Nat) : Nat :=
  let nc := if nc < 1 then 1 else nc.toNat
  let nc := if most < nc then most else nc
  let nc := if c.soc.cores < nc then c.soc.cores else nc
  if orkMaxcore < nc then orkMaxcore else nc

/-- `orki_i4_bchain_try` up to the dispatch; limits of 0 are none. -/
def orkiI4BchainTry (v : ChainEnv) (c : OrkNpu) (w : OrkW4) (M : Nat) (nc : Int) (Hlim Wblim : Nat) : Except Int Plan :=
  if w.dt ≠ .i4 ∨ w.Sk ≠ 1 ∨ w.Sn ≠ 1 ∨ w.N % 64 ≠ 0 ∨ M < 2 then .error (-4)
  else
    let H := v.height w.K
    let H := if 0 < Hlim ∧ Hlim < H then Hlim else H
    if H < 2 then .error (-4)
    else
      let Wb := v.width (orkiI4Wbdef v w.K w.N) w.N Wblim
      let NC := pieces w.N Wb
      let nc := clampCores c nc NC
      let H := if 128 ≤ Wb ∧ 12 ≤ H ∧ H < M ∧ v.notail = false then
          tailBalance M (2 * (Wb / 64)) ((NC + nc - 1) / nc) 4 H H (2 ^ 30)
        else H
      if v.granted then
        .ok ⟨⟨w.K, w.N, H, Wb, v.dense && w.K % 32 == 0⟩, nc,
          fun i => [⟨0, M, coreBlock NC nc i, coreBlock NC nc (i + 1), 0, 0⟩]⟩
      else .error (-1)

/-! ### Experts -/

/-- The experts of a core from `e0` on: as many as fit its share of the programs, and one at least. -/
def takeExperts (cost : Nat → Nat) (ntask target prior e0 : Nat) : Nat → Nat → Nat → Nat × Nat
  | 0, e, acc => (e, acc)
  | fuel + 1, e, acc =>
    if e < ntask ∧ ¬ (target < prior + acc + cost e ∧ e0 < e) then
      takeExperts cost ntask target prior e0 fuel (e + 1) (acc + cost e)
    else (e, acc)

/-- `e_start` and `priorNT` before core `i`; the last core takes what is left. -/
def share (cost : Nat → Nat) (ntask nc total : Nat) : Nat → Nat × Nat
  | 0 => (0, 0)
  | i + 1 =>
    let s := share cost ntask nc total i
    let t := takeExperts cost ntask ((i + 1) * total / nc) s.2 s.1 ntask s.1 0
    (if i = nc - 1 then ntask else t.1, s.2 + t.2)

/-- The jobs of `n` experts from `e` on, one behind the other. -/
def expertJobs (G : ChainGeom) (M : Nat → Nat) : Nat → Nat → Nat → Nat → List Job
  | 0, _, _, _ => []
  | n + 1, e, aoff, tk =>
    ⟨e, M e, 0, G.NC, aoff, tk⟩ ::
      expertJobs G M n (e + 1) (aoff + G.NG (M e) * G.LN * (G.K / 2)) (tk + G.NC * G.NG (M e))

/-- `orki_i4_run_experts_bchain_db` up to the dispatch. -/
def orkiI4RunExpertsBchainDb (v : ChainEnv) (c : OrkNpu) (ex : Nat → Task4) (ntask : Nat) (nc : Int) : Except Int Plan :=
  let K := (ex 0).w.K
  let N := (ex 0).w.N
  let H := v.height K
  if H < 2 then .error (-4)
  else
    let G : ChainGeom := ⟨K, N, H, v.width (bankWidth K) N 0, v.dense && K % 32 == 0⟩
    let nc := clampCores c nc ntask
    let cost := fun e => G.NC * G.NG (ex e).M
    let total := ((List.range ntask).map cost).sum
    let start := fun i => (share cost ntask nc total i).1
    if v.granted then
      .ok ⟨G, nc, fun i => expertJobs G (fun e => (ex e).M) (start (i + 1) - start i) (start i) 0 0⟩
    else .error (-1)

/-- `ork_i4_mm_run_experts` up to the dispatch. -/
def orkI4MmRunExperts (v : ChainEnv) (c : OrkNpu) (ex : Nat → Task4) (ntask : Nat) (nc : Int) : Except Int Plan :=
  if ntask < 1 then .error (-1)
  else if ∃ e < ntask, ((ex e).w.dt ≠ .i4 ∨ (ex e).w.Sk ≠ 1 ∨ (ex e).w.Sn ≠ 1 ∨ (ex e).w.N % 64 ≠ 0 ∨ (ex e).M < 1) ∨
      (ex e).w.domain ≠ (ex 0).w.domain ∨ (ex e).w.K ≠ (ex 0).w.K ∨ (ex e).w.N ≠ (ex 0).w.N then .error (-2)
  else orkiI4RunExpertsBchainDb v c ex ntask nc

end OrkDriver.I4
