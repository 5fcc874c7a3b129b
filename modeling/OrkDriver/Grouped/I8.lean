import OrkDriver.Grouped.Chain
import OrkDriver.Grouped.Reference

/-!
`ork_i8_mm_run_grouped` (`npu/i8/run.c`): each group of each N-slice is a task of one chain, and the rows of C are summed
from what the tasks leave.
-/

namespace OrkDriver.Grouped

open Finset OrkDriver.Lib OrkDriver.Lib.Neon OrkDriver.Npu OrkDriver.Pack OrkDriver.Run OrkDriver.Core OrkDriver.Cpu

/-- An int8 weight with the size of its groups (0 if it has none). -/
structure GroupedW extends OrkW Int where
  gsize : Nat
  domain : Nat
  cpuCodes : Option Bytes

/-- What a run finds: the CPU kernel and its accumulators, whether buffers are granted and what they hold, and the
chain. -/
structure GroupedEnv8 where
  neon : Bool
  acc : Words
  granted : Bool
  aslice : Nat → Int
  partials : Nat → Int
  chain : ChainEnv8

section

variable {F : Type*} [CommRing F]

/-- Columns of the slice that task `t` is of. -/
def taskN (c : OrkNpu) (w : GroupedW) (SG t : Nat) : Nat := pieceLen w.N c.soc.nmax (t / SG)

/-- `views[t]`. -/
def groupView (c : OrkNpu) (w : GroupedW) (SG t : Nat) : OrkW Int :=
  ⟨.i8, w.gsize, taskN c w SG t, 1, 1, fun i => w.Bb (t + i), none⟩

/-- `Poff`: the blocks of the tasks lie behind each other. -/
def poff (M : Nat) (w : Nat → Nat) (t : Nat) : Nat := ((List.range t).map fun s => M * w s).sum

/-- `Aslice`: the columns of each group, row by row. -/
def sliceA (M K G SG : Nat) (A : Nat → Int) (junk : Nat → Int) : Nat → Int :=
  stores junk (plane SG (fun g => g * M * G) (fun _ => G) M fun g m k => A (m * K + (g * G + k)))

/-- `tk[t]`. -/
def groupTask (c : OrkNpu) (v : GroupedEnv8) (w : GroupedW) (M : Nat) (A : Nat → Int) (t : Nat) : DynTask Int :=
  let G := w.gsize
  let SG := w.K / G
  ⟨groupView c w SG t, w.domain, M, fun x => sliceA M w.K G SG A v.aslice (t % SG * M * G + x), none, 0⟩

/-- A row of C. -/
def combineRow (c : OrkNpu) (w : GroupedW) (SG SN : Nat) (P : Nat → Int) (off : Nat → Nat) (aScale bScale : Nat → F)
    (m : Nat) : Nat → F :=
  (List.range SN).foldl (fun cr ns =>
    let n0 := ns * c.soc.nmax
    let Nc := pieceLen w.N c.soc.nmax ns
    addGroups n0 Nc SG (fun g nc => P (off (ns * SG + g) + (m * Nc + nc))) (fun g => aScale (m * SG + g))
      (fun g nc => bScale (g * w.N + (n0 + nc))) cr) fun _ => 0

/-- `ork_i8_mm_run_grouped`. -/
def orkI8MmRunGrouped (c : OrkNpu) (v : GroupedEnv8) (single : DynTask Int → (Nat → Int) → Int × (Nat → Int))
    (w : GroupedW) (M : Nat) (A : Bytes) (aScale bScale C : Nat → F) : Int × (Nat → F) :=
  if M < 1 then (-1, C)
  else if w.gsize < 1 ∨ w.K % w.gsize ≠ 0 then (-1, C)
  else
    match if c.fd < 0 then w.cpuCodes else none with
    | some B => orkiCpuGemmGrouped v.neon v.acc M w.K w.N w.gsize A B aScale bScale C
    | none =>
      if w.gsize % 512 ≠ 0 ∨ 4096 < w.gsize then (-3, C)
      else if w.dt ≠ .i8 ∨ w.Sk ≠ w.K / w.gsize then (-1, C)
      else
        let SG := w.K / w.gsize
        let SN := if w.Sn < 1 then 1 else w.Sn
        let NT := SG * SN
        let off := poff M (taskN c w SG)
        if v.granted = false then (-1, C)
        else
          let r := orkiI8RunChainImpl c v.chain single NT (groupTask c v w M (codes A)) fun t x => v.partials (off t + x)
          if r.1 = 0 then
            let P := stores v.partials (plane NT off (taskN c w SG) M fun t m nc => r.2 t (m * taskN c w SG t + nc))
            (0, putRows M w.N (combineRow c w SG SN P off aScale bScale) C)
          else (r.1, C)

/-! ### The combination -/

variable {c : OrkNpu} {v : GroupedEnv8} {w : GroupedW} {M : Nat} {A : Bytes} {aScale bScale C : Nat → F}

theorem poff_succ (M : Nat) (w : Nat → Nat) (t : Nat) : poff M w t + M * w t ≤ poff M w (t + 1) := by
  unfold poff
  rw [List.range_succ, List.map_append, List.sum_append, List.map_singleton, List.sum_singleton]

/-- A column is summed in the slice it lies in, over all groups of that. -/
theorem combineRow_cell (hc : c.soc ∈ socTable) {SG : Nat} (P : Nat → Int) (off : Nat → Nat) (m : Nat) {n : Nat}
    (hn : n < w.N) :
    combineRow c w SG (pieces w.N c.soc.nmax) P off aScale bScale m n =
      scaledSum SG w.N (fun g => P (off (n / c.soc.nmax * SG + g) + (m * pieceLen w.N c.soc.nmax (n / c.soc.nmax) +
        n % c.soc.nmax))) aScale bScale m n := by
  have hmax : 0 < c.soc.nmax := by
    rw [Pack.socTable_nmax hc]
    decide
  have hin := (mem_piece_iff hmax hn).mpr rfl
  unfold combineRow
  have hsub : n - n / c.soc.nmax * c.soc.nmax = n % c.soc.nmax := by
    have := Nat.div_add_mod' n c.soc.nmax
    omega
  have hfold := foldl_once (fun cr : Nat → F => cr n) (g := fun x => x + scaledSum SG w.N
      (fun g => P (off (n / c.soc.nmax * SG + g) + (m * pieceLen w.N c.soc.nmax (n / c.soc.nmax) + n % c.soc.nmax)))
      aScale bScale m n) (List.nodup_range (n := pieces w.N c.soc.nmax)) (List.mem_range.mpr (div_lt_pieces hmax hn))
    (f := fun cr ns =>
      let n0 := ns * c.soc.nmax
      let Nc := pieceLen w.N c.soc.nmax ns
      addGroups n0 Nc SG (fun g nc => P (off (ns * SG + g) + (m * Nc + nc))) (fun g => aScale (m * SG + g))
        (fun g nc => bScale (g * w.N + (n0 + nc))) cr)
    (fun cr => ?_) (fun ns _ hne cr => ?_) fun _ => 0
  · refine hfold.trans ?_
    exact zero_add _
  · dsimp only
    rw [addGroups_in hin]
    unfold scaledSum
    rw [hsub, Nat.add_comm (n / c.soc.nmax * c.soc.nmax), Nat.mod_add_div']
  · exact addGroups_out fun hcol => hne ((mem_piece_iff hmax hn).mp hcol)

/-! ### The tasks -/

/-- Tile `(ns, g)` of the weight holds the rows of group `g` in slice `ns`. -/
structure GroupTiled (c : OrkNpu) (w : GroupedW) (B : Nat → Int) : Prop where
  Sn : w.Sn = pieces w.N c.soc.nmax
  Bb : ∀ ns < w.Sn, ∀ g < w.K / w.gsize, Tiled 32 B w.N
    ⟨ns * c.soc.nmax, pieceLen w.N c.soc.nmax ns, g * w.gsize, w.gsize⟩ (w.Bb (ns * (w.K / w.gsize) + g))

theorem view_groupTask (c : OrkNpu) (v : GroupedEnv8) (w : GroupedW) (M : Nat) (A : Nat → Int) (t : Nat) :
    View c (groupTask c v w M A t) :=
  ⟨rfl, rfl, pieceLen_le_size, rfl⟩

/-- What a task computes is its group of its slice. -/
theorem GroupTiled.tileDot_eq {B : Nat → Int} (h : GroupTiled c w B) {A : Nat → Int} {ns g m nc : Nat} (hns : ns < w.Sn)
    (hg : g < w.K / w.gsize) (hm : m < M) (hnc : nc < pieceLen w.N c.soc.nmax ns) :
    tileDot (groupTask c v w M A (ns * (w.K / w.gsize) + g)) m nc =
      groupDot w.K w.N w.gsize A B g m (ns * c.soc.nmax + nc) := by
  obtain ⟨hdiv, hmod⟩ := digits_div_mod hg ns
  unfold tileDot groupDot
  apply dot_congr
  · intro k hk
    have hoff : ∀ t, t * M * w.gsize + M * w.gsize ≤ (t + 1) * M * w.gsize := by
      intro t
      rw [Nat.succ_mul, Nat.add_mul]
    dsimp only [groupTask, groupView]
    rw [hmod]
    exact stores_plane hoff _ hg hm hk
  · intro k hk
    dsimp only [groupTask, groupView, weightOf]
    exact h.Bb ns hns g hg k nc hk hnc

/-! ### The run -/

/-- Without a device. -/
theorem orkI8MmRunGrouped_offline {single : DynTask Int → (Nat → Int) → Int × (Nat → Int)} {B : Bytes} (hfd : c.fd < 0)
    (hB : w.cpuCodes = some B) (h : (orkI8MmRunGrouped c v single w M A aScale bScale C).1 = 0) {m n : Nat} (hm : m < M)
    (hn : n < w.N) : (orkI8MmRunGrouped c v single w M A aScale bScale C).2 (m * w.N + n) =
      reference wrap32 w.K w.N w.gsize (codes A) (codes B) aScale bScale m n := by
  unfold orkI8MmRunGrouped at h ⊢
  rw [if_pos hfd, hB] at h ⊢
  split at h
  next => cases h
  next hM =>
    split at h
    next => cases h
    next hG =>
      rw [if_neg hM, if_neg hG]
      exact orkiCpuGemmGrouped_spec h hm hn

/-- On a device, a weight of several tiles. -/
theorem orkI8MmRunGrouped_exact {single : DynTask Int → (Nat → Int) → Int × (Nat → Int)} (hc : c.soc ∈ socTable)
    (hdev : ¬ (c.fd < 0 ∧ w.cpuCodes.isSome)) {B : Nat → Int} (hB : GroupTiled c w B)
    (hNT : w.K / w.gsize * w.Sn ≠ 1) (h : (orkI8MmRunGrouped c v single w M A aScale bScale C).1 = 0) {m n : Nat}
    (hm : m < M) (hn : n < w.N) : (orkI8MmRunGrouped c v single w M A aScale bScale C).2 (m * w.N + n) =
      reference id w.K w.N w.gsize (codes A) B aScale bScale m n := by
  have hmax : 0 < c.soc.nmax := by
    rw [Pack.socTable_nmax hc]
    decide
  have hcodes : (if c.fd < 0 then w.cpuCodes else none) = none := by
    split
    next hfd => exact Option.not_isSome_iff_eq_none.mp fun hsome => hdev ⟨hfd, hsome⟩
    next => rfl
  have hns := div_lt_pieces hmax hn
  have hSn : 0 < w.Sn := by
    rw [hB.Sn]
    exact Nat.zero_lt_of_lt hns
  unfold orkI8MmRunGrouped at h ⊢
  rw [hcodes] at h ⊢
  split at h
  next => cases h
  next hM =>
  split at h
  next => cases h
  next hG =>
  rw [if_neg hM, if_neg hG]
  dsimp only at h ⊢
  split at h
  next => cases h
  next hcap =>
  split at h
  next => cases h
  next hSk =>
  rw [if_neg hcap, if_neg hSk]
  rw [if_neg (show ¬ w.Sn < 1 by omega)] at h ⊢
  split at h
  next => cases h
  next hgr =>
  rw [if_neg hgr]
  split at h
  next hret =>
    rw [if_pos hret]
    refine (putRows_cell hm hn).trans ?_
    rw [hB.Sn, combineRow_cell hc _ _ _ hn]
    unfold reference scaledSum
    apply sum_congr rfl
    intro g hg
    rw [mem_range] at hg
    have ht : n / c.soc.nmax * (w.K / w.gsize) + g < w.K / w.gsize * w.Sn := by
      rw [Nat.mul_comm _ w.Sn, hB.Sn]
      exact digits_lt hns hg
    have htN : taskN c w (w.K / w.gsize) (n / c.soc.nmax * (w.K / w.gsize) + g) = pieceLen w.N c.soc.nmax (n / c.soc.nmax) := by
      unfold taskN
      rw [(digits_div_mod hg _).1]
    have hmod := mod_lt_pieceLen hmax hn
    have hexact := orkiI8RunChainImpl_exact hNT (fun i _ => view_groupTask c v w M (codes A) i) hret ht hm
      (n := n % c.soc.nmax) (by dsimp only [groupTask, groupView]; rwa [htN])
    refine congrArg (fun x : Int => (x : F) * aScale (m * (w.K / w.gsize) + g) * bScale (g * w.N + n)) ?_
    rw [← hB.Sn, ← htN]
    refine (stores_plane (poff_succ M _) _ ht hm (by rwa [htN])).trans (hexact.trans ?_)
    rw [hB.tileDot_eq (hB.Sn ▸ hns) hg hm hmod, Nat.div_add_mod']
    rfl
  next hret => exact absurd h hret

/-- The columns of the slices are multiples of 32 when those of the weight are. -/
theorem taskN_dvd (hc : c.soc ∈ socTable) (hN : 32 ∣ w.N) (SG t : Nat) : 32 ∣ taskN c w SG t := by
  unfold taskN
  apply dvd_pieceLen hN
  rw [Pack.socTable_nmax hc]
  decide

/-- On a device, a weight of several tiles that no check refuses. -/
theorem orkI8MmRunGrouped_zero {single : DynTask Int → (Nat → Int) → Int × (Nat → Int)} (hc : c.soc ∈ socTable)
    (hdev : ¬ (c.fd < 0 ∧ w.cpuCodes.isSome)) (hv : v.granted = true) (hk : v.chain.Kind) (hM : 1 ≤ M) (hdt : w.dt = .i8)
    (hG : 1 ≤ w.gsize) (hK : w.gsize ∣ w.K) (hdepth : 512 ∣ w.gsize) (hdepth' : w.gsize ≤ 4096) (hN : 32 ∣ w.N)
    (hSk : w.Sk = w.K / w.gsize) (hSn : 1 ≤ w.Sn) (hNT : 2 ≤ w.K / w.gsize * w.Sn) (hNT' : w.K / w.gsize * w.Sn ≤ 1024)
    (hrows : M ≤ 64 ∨ ((List.range (w.K / w.gsize * w.Sn)).map fun _ =>
      pieces M (orkiI8ChainFullkMcap w.gsize)).sum ≤ 1024) :
    (orkI8MmRunGrouped c v single w M A aScale bScale C).1 = 0 := by
  have hcodes : (if c.fd < 0 then w.cpuCodes else none) = none := by
    split
    next hfd => exact Option.not_isSome_iff_eq_none.mp fun hsome => hdev ⟨hfd, hsome⟩
    next => rfl
  have hmod : w.K % w.gsize = 0 := Nat.mod_eq_zero_of_dvd hK
  have hmod' : w.gsize % 512 = 0 := Nat.mod_eq_zero_of_dvd hdepth
  have hchain : ∀ P : Nat → Nat → Int, (orkiI8RunChainImpl c v.chain single (w.K / w.gsize * w.Sn)
      (groupTask c v w M (codes A)) P).1 = 0 := by
    intro P
    apply orkiI8RunChainImpl_zero hk hNT hNT' (fun i _ => view_groupTask c v w M (codes A) i) _ (fun _ _ => rfl)
      (fun _ _ => rfl)
    · exact hrows.imp (fun h _ _ => h) id
    · intro i _
      have hcols := Nat.mod_eq_zero_of_dvd (taskN_dvd (w := w) hc hN (w.K / w.gsize) i)
      have hdepth32 : w.gsize % 32 = 0 := by omega
      simp [refusal, groupTask, groupView, hcols, hmod', hdepth32, Nat.not_lt.mpr hdepth', Nat.one_le_iff_ne_zero.mp hM]
  unfold orkI8MmRunGrouped
  rw [hcodes, if_neg (by omega), if_neg (by omega)]
  dsimp only
  rw [if_neg (by omega), if_neg (by simp [hdt, hSk]), if_neg (by rw [hv]; decide), if_neg (show ¬ w.Sn < 1 by omega),
    if_pos (hchain _)]

end

/-- An environment in which nothing goes wrong. -/
def kindEnv8 : GroupedEnv8 :=
  ⟨false, fun _ => 0, true, fun _ => 0, fun _ => 0,
    ⟨true, .quiet 1024 0, ⟨fun _ _ _ => some 0, fun _ _ => 0, fun _ _ => 0, fun _ => 0, fun _ => false, fun _ _ => 0,
      fun _ => 0⟩, 0, fun _ => true, fun _ => true, true, fun _ => true⟩⟩

/-- Two groups of 512 rows, all ones. -/
def onesGrouped : GroupedW :=
  ⟨⟨.i8, 1024, 32, 2, 1, fun _ _ => 1, none⟩, 512, 0, none⟩

theorem onesGrouped_tiled : GroupTiled ⟨3, socRk3588, 0⟩ onesGrouped (codes fun _ => 1) where
  Sn := by decide
  Bb _ _ _ _ _ _ _ _ := rfl

end OrkDriver.Grouped
