import Mathlib.Algebra.BigOperators.Ring.List
import OrkDriver.Fold.Container

/-!
Which blobs the loaders of the row-folded layout take: not those of its own dump, but those of the plain int8 dumps.
-/

namespace OrkDriver.Fold

open OrkDriver.Lib OrkDriver.Npu OrkDriver.Pack

variable {c : OrkNpu} {buf : Nat → Option Mem} {K N n : Nat} {blob : Blob} {w : FoldW}

/-! ### Sizes -/

/-- Whole pages where the rows come in 128s. -/
theorem tsz_eq {t : Tile} (hK : 128 ∣ t.Kp) (hN : 32 ∣ t.Nc) : t.tsz = t.Kp * t.Nc :=
  pgup_of_dvd (Nat.mul_dvd_mul hK hN)

theorem foldNeed_eq (h : Envelope K N) : foldNeed K N = K * N := by
  have hK : 128 ∣ K := by
    rw [h.rows]
    decide
  have htsz : ((slices K N).map Tile.tsz) = (List.range (nslice N)).map fun s => K * pieceLen N foldRefN s := by
    unfold slices
    rw [List.map_map]
    exact List.map_congr_left fun s _ => tsz_eq hK (h.slice_cols s)
  unfold foldNeed total
  rw [htsz, List.sum_map_mul_left]
  exact congrArg (K * ·) (sum_pieceLen (by decide))

/-- The tiles of a plain int8 dump fill whole pages too. -/
theorem bytes_tiles_eq {g : Geom} (hg : g.Aligned) (hKS : 128 ∣ g.KS) (hK : 128 ∣ g.K) : bytes g.tiles = g.K * g.N := by
  have hrow : ∀ ns, bytes (g.tileRow ns) = g.K * pieceLen g.N g.NMAX ns := by
    intro ns
    have htsz : (g.tileRow ns).map Tile.tsz = (List.range g.Sk).map fun ks => pieceLen g.N g.NMAX ns * pieceLen g.K g.KS ks := by
      unfold Geom.tileRow
      rw [List.map_map]
      refine List.map_congr_left fun ks _ => ?_
      exact (tsz_eq (dvd_pieceLen hK hKS) (hg.blocked ns ks).Nc).trans (Nat.mul_comm _ _)
    unfold bytes
    rw [htsz, List.sum_map_mul_left, Nat.mul_comm]
    exact congrArg (· * pieceLen g.N g.NMAX ns) (sum_pieceLen hg.KS_pos)
  have hall : ∀ l : List Nat, bytes (l.flatMap g.tileRow) = (l.map fun ns => g.K * pieceLen g.N g.NMAX ns).sum := by
    intro l
    induction l with
    | nil => rfl
    | cons ns l ih => rw [List.flatMap_cons, bytes_append, hrow, ih, List.map_cons, List.sum_cons]
  unfold Geom.tiles
  rw [hall, List.sum_map_mul_left]
  exact congrArg (g.K * ·) (sum_pieceLen hg.NMAX_pos)

/-! ### What the loaders check -/

theorem hdr_le_of_check {dt : Dt} {h : PackHdr} (hck : orkiPackCheck c h n dt K N = none) : orkPackHdrBytes ≤ n := by
  unfold orkiPackCheck at hck
  split at hck
  · cases hck
  · exact Nat.not_lt.mp ‹_›

/-- What both loaders ask of a blob. -/
structure Fits (c : OrkNpu) (K N : Nat) (blob : Blob) (n : Nat) : Prop where
  check : orkiPackCheck c blob.hdr n .i8 K N = none
  envelope : Envelope K N
  size : n = orkPackHdrBytes + foldNeed K N

theorem orkI8MmLoadFold_isSome (hbuf : ∀ s, (buf s).isSome) :
    (orkI8MmLoadFold c buf K N blob n).isSome ↔ Fits c K N blob n := by
  unfold orkI8MmLoadFold
  by_cases hck : orkiPackCheck c blob.hdr n .i8 K N = none
  · have hle := hdr_le_of_check hck
    rw [if_neg (not_not_intro hck)]
    by_cases hE : Envelope K N
    · rw [if_neg (envelope_iff.mp hE)]
      by_cases hn : n - orkPackHdrBytes = foldNeed K N
      · obtain ⟨l, hl⟩ := exists_copyRecords Tile.tsz blob.mem hbuf (slices K N) 0 orkPackHdrBytes
        rw [if_neg (not_not_intro hn), hl]
        exact ⟨fun _ => ⟨hck, hE, by omega⟩, fun _ => rfl⟩
      · rw [if_pos hn]
        exact ⟨nofun, fun h => absurd (by have := h.size; omega) hn⟩
    · rw [if_pos (not_not.mp fun h => hE (envelope_iff.mpr h))]
      exact ⟨nofun, fun h => absurd h.envelope hE⟩
  · rw [if_pos hck]
    exact ⟨nofun, fun h => absurd h.check hck⟩

theorem orkI8WAttachFold_zero (hbuf : ∀ s, (buf s).isSome) (hw : w.Bfold = none) :
    (orkI8WAttachFold c buf w blob n).1 = 0 ↔ Fits c w.K w.N blob n := by
  unfold orkI8WAttachFold
  by_cases hck : orkiPackCheck c blob.hdr n .i8 w.K w.N = none
  · have hle := hdr_le_of_check hck
    rw [if_neg (not_not_intro hck)]
    by_cases hd : w.K ≠ foldRefK ∨ w.N < 1 ∨ w.N % 32 ≠ 0
    · rw [if_pos hd]
      exact ⟨fun h => absurd (show (-1 : Int) = 0 from h) (by decide), fun h => absurd (envelope_iff.mp h.envelope) (by omega)⟩
    · rw [if_neg hd, if_neg (by rw [hw]; decide)]
      by_cases hs : nslice w.N < 1 ∨ 64 < nslice w.N
      · have hpos : 0 < nslice w.N := (lt_pieces_iff (by decide)).mpr (by omega)
        rw [if_pos hs]
        exact ⟨fun h => absurd (show (-1 : Int) = 0 from h) (by decide), fun h => absurd h.envelope.slices (by omega)⟩
      · rw [if_neg hs]
        have hE : Envelope w.K w.N := envelope_iff.mpr (by omega)
        by_cases hn : n - orkPackHdrBytes = foldNeed w.K w.N
        · obtain ⟨l, hl⟩ := exists_copyRecords Tile.tsz blob.mem hbuf (slices w.K w.N) 0 orkPackHdrBytes
          rw [if_neg (not_not_intro hn), hl]
          exact ⟨fun _ => ⟨hck, hE, by omega⟩, fun _ => rfl⟩
        · rw [if_pos hn]
          exact ⟨fun h => absurd (show (-1 : Int) = 0 from h) (by decide), fun h => absurd (by have := h.size; omega) hn⟩
  · rw [if_pos hck]
    exact ⟨fun h => absurd (show (-1 : Int) = 0 from h) (by decide), fun h => absurd h.check hck⟩

/-- Both loaders take the blob for a K x N weight. -/
def Accepts (c : OrkNpu) (buf : Nat → Option Mem) (K N : Nat) (blob : Blob) (n : Nat) : Prop :=
  (orkI8MmLoadFold c buf K N blob n).isSome ∧
    ∀ w : FoldW, w.K = K → w.N = N → w.Bfold = none → (orkI8WAttachFold c buf w blob n).1 = 0

/-- Neither of them does. -/
def Refuses (c : OrkNpu) (buf : Nat → Option Mem) (K N : Nat) (blob : Blob) (n : Nat) : Prop :=
  orkI8MmLoadFold c buf K N blob n = none ∧
    ∀ w : FoldW, w.K = K → w.N = N → w.Bfold = none → (orkI8WAttachFold c buf w blob n).1 ≠ 0

theorem Fits.accepts (h : Fits c K N blob n) (hbuf : ∀ s, (buf s).isSome) : Accepts c buf K N blob n := by
  refine ⟨(orkI8MmLoadFold_isSome hbuf).mpr h, fun w hK hN hw => (orkI8WAttachFold_zero hbuf hw).mpr ?_⟩
  rw [hK, hN]
  exact h

theorem refuses_of_not_fits (h : ¬ Fits c K N blob n) (hbuf : ∀ s, (buf s).isSome) : Refuses c buf K N blob n := by
  refine ⟨?_, fun w hK hN hw h0 => h ?_⟩
  · cases hl : orkI8MmLoadFold c buf K N blob n with
    | none => rfl
    | some l => exact absurd ((orkI8MmLoadFold_isSome hbuf).mp (by rw [hl]; rfl)) h
  · rw [← hK, ← hN]
    exact (orkI8WAttachFold_zero hbuf hw).mp h0

/-- A stamped blob passes the check exactly for its own chip, dtype and shape. -/
theorem check_stamp_iff (c c' : OrkNpu) (dt : Dt) (K N K' N' n : Nat) :
    orkiPackCheck c (orkiPackStamp c' dt K' N') n .i8 K N = none ↔
      orkPackHdrBytes ≤ n ∧ orkiPackCapid c'.soc = orkiPackCapid c.soc ∧ dt = .i8 ∧ K' = K ∧ N' = N := by
  have hcode : dt.code = Dt.i8.code ↔ dt = .i8 := by
    cases dt <;> decide
  unfold orkiPackCheck orkiPackStamp
  constructor
  · intro h
    split at h
    · cases h
    · next hn =>
        dsimp only at h
        rw [if_neg (not_not_intro rfl), if_neg (not_not_intro rfl)] at h
        split at h
        · cases h
        · next hcap =>
            rw [if_neg (not_not_intro rfl)] at h
            split at h
            · cases h
            · next hshape =>
                simp only [not_or, not_not] at hshape
                exact ⟨Nat.not_lt.mp hn, not_not.mp hcap, hcode.mp hshape.1, hshape.2.1, hshape.2.2⟩
  · rintro ⟨hn, hcap, rfl, rfl, rfl⟩
    dsimp only
    rw [if_neg (Nat.not_lt.mpr hn), if_neg (not_not_intro rfl), if_neg (not_not_intro rfl), if_neg (not_not_intro hcap),
      if_neg (not_not_intro rfl), if_neg (by simp)]

/-! ### Which blobs are taken -/

/-- With the missing header in front the dump would do: both loaders take it, and have each element at its `fold_woff`. -/
theorem stamped_dump_loads (hE : Envelope K N) (hbuf : ∀ s, (buf s).isSome) {B m : Mem} (hm : Holds K N B m 0) :
    Accepts c buf K N ⟨orkiPackStamp c .i8 K N, fun p => m (p - orkPackHdrBytes)⟩ (orkPackHdrBytes + foldNeed K N) ∧
    ∀ l, orkI8MmLoadFold c buf K N ⟨orkiPackStamp c .i8 K N, fun p => m (p - orkPackHdrBytes)⟩
      (orkPackHdrBytes + foldNeed K N) = some l →
      List.Forall₂ (fun t b => ∀ k < K, ∀ n < t.Nc, b (foldWoff n k K) = B (k * N + (t.n0 + n))) (slices K N) l := by
  have hck : orkiPackCheck c (orkiPackStamp c .i8 K N) (orkPackHdrBytes + foldNeed K N) .i8 K N = none :=
    (check_stamp_iff c c .i8 K N K N _).mpr ⟨Nat.le_add_right _ _, rfl, rfl, rfl, rfl⟩
  refine ⟨Fits.accepts ⟨hck, hE, rfl⟩ hbuf, fun l hl => ?_⟩
  unfold orkI8MmLoadFold at hl
  rw [if_neg (not_not_intro hck), if_neg (envelope_iff.mp hE), if_neg (by rw [Nat.add_sub_cancel_left]; exact not_not_intro rfl)]
    at hl
  have hcopied := copyRecords_spec hl
  have hplaced := placed_add Tile.tsz orkPackHdrBytes 0 (slices K N)
  rw [Nat.add_zero] at hplaced
  rw [hplaced, List.forall₂_map_left_iff] at hcopied
  rw [← map_snd_placed Tile.tsz 0 (slices K N), List.forall₂_map_left_iff]
  refine ((List.forall₂_and_left _ _).mpr ⟨fun p hp => hp, hcopied⟩).imp fun p b hpb k hk n hn => ?_
  obtain ⟨hp, hbytes⟩ := hpb
  have hlt := slice_woff_lt hE (mem_of_mem_placed hp) hk hn
  refine (hbytes _ hlt).trans (Eq.trans ?_ (hm p.1 p.2 hp k hk n hn))
  dsimp only
  rw [Nat.add_assoc, Nat.add_sub_cancel_left]

/-- The dump is refused by both loaders, whatever its first bytes read as; the plain int8 dumps of the same shape and chip
are taken by both. -/
theorem fold_dump_never_loads (hc : c.soc ∈ socTable) (hE : Envelope K N) (hbuf : ∀ s, (buf s).isSome) (B : Mem) :
    (∀ out cap, foldNeed K N ≤ cap → ∃ n m, orkI8WDumpFoldCpu K N B out cap = some (n, m) ∧
      ∀ hdr, Refuses c buf K N ⟨hdr, m⟩ n) ∧
    (∀ (d : Dumper) (c' : OrkNpu) out cap, c'.soc = c.soc → 128 ∣ c'.int8Ks → orkPackHdrBytes + K * N ≤ cap →
      (d.run c' K N B out cap).1 ≠ 0 ∧ Accepts c buf K N (d.run c' K N B out cap).2 (d.run c' K N B out cap).1) ∧
    ∀ (c' : OrkNpu) dt K' N' m n,
      ¬ (orkiPackCapid c'.soc = orkiPackCapid c.soc ∧ dt = .i8 ∧ K' = K ∧ N' = N) →
      Refuses c buf K N ⟨orkiPackStamp c' dt K' N', m⟩ n := by
  refine ⟨fun out cap hcap => ?_, fun d c' out cap hsoc hKS hcap => ?_, fun c' dt K' N' m n hno => ?_⟩
  · obtain ⟨m, hm, -⟩ := orkI8WDumpFoldCpu_spec hE B out hcap
    refine ⟨_, m, hm, fun hdr => refuses_of_not_fits (fun h => ?_) hbuf⟩
    have hsize := h.size
    have hpage : 0 < orkPackHdrBytes := by decide
    omega
  · have hK : 128 ∣ K := by
      rw [hE.rows]
      decide
    have ht : d.Takes K N := by
      cases d with
      | bb => exact ⟨hE.K32, hE.cols⟩
      | bf => exact ⟨by rw [hE.rows]; decide, by rw [hE.rows]; decide, hE.cols⟩
    have hK0 : 0 < K := by
      rw [hE.rows]
      decide
    have hc' : c'.soc ∈ socTable := by rwa [hsoc]
    have hbytes : bytes (d.tiles c' K N) = K * N := by
      rw [d.tiles_eq hK0]
      refine bytes_tiles_eq (Dumper.geom_aligned hc' ht hK0) ?_ hK
      cases d with
      | bb => exact hKS
      | bf => exact hK
    have hroom : orkPackHdrBytes + bytes (d.tiles c' K N) ≤ cap := by rwa [hbytes]
    obtain ⟨blob, hrun, hhdr, -⟩ := Dumper.run_holds hc' ht B out hroom
    rw [hrun]
    have hpage : 0 < orkPackHdrBytes := by decide
    refine ⟨by dsimp only; omega, Fits.accepts ⟨?_, hE, ?_⟩ hbuf⟩
    · rw [hhdr]
      exact (check_stamp_iff c c' .i8 K N K N _).mpr ⟨Nat.le_add_right _ _, by rw [hsoc], rfl, rfl, rfl⟩
    · dsimp only
      rw [hbytes, foldNeed_eq hE]
  · refine refuses_of_not_fits (fun h => hno ?_) hbuf
    exact ((check_stamp_iff c c' dt K N K' N' n).mp h.check).2

theorem envelope_32 : Envelope 3584 32 := ⟨rfl, by decide, by decide, by decide⟩

theorem fold_dump_never_loads_32 :
    (∀ out cap, foldNeed 3584 32 ≤ cap → ∃ n m, orkI8WDumpFoldCpu 3584 32 (fun _ => 1) out cap = some (n, m) ∧
      ∀ hdr, Refuses ⟨3, socRk3588, 0⟩ (fun _ => some fun _ => 0) 3584 32 ⟨hdr, m⟩ n) ∧
    (∀ (d : Dumper) (c' : OrkNpu) out cap, c'.soc = socRk3588 → 128 ∣ c'.int8Ks → orkPackHdrBytes + 3584 * 32 ≤ cap →
      (d.run c' 3584 32 (fun _ => 1) out cap).1 ≠ 0 ∧ Accepts ⟨3, socRk3588, 0⟩ (fun _ => some fun _ => 0) 3584 32
        (d.run c' 3584 32 (fun _ => 1) out cap).2 (d.run c' 3584 32 (fun _ => 1) out cap).1) ∧
    ∀ (c' : OrkNpu) dt K' N' m n,
      ¬ (orkiPackCapid c'.soc = orkiPackCapid socRk3588 ∧ dt = .i8 ∧ K' = 3584 ∧ N' = 32) →
      Refuses ⟨3, socRk3588, 0⟩ (fun _ => some fun _ => 0) 3584 32 ⟨orkiPackStamp c' dt K' N', m⟩ n :=
  @fold_dump_never_loads ⟨3, socRk3588, 0⟩ (fun _ => some fun _ => 0) 3584 32 (by decide) envelope_32 (fun _ => rfl)
    fun _ => 1

/-- A dump of 32 columns, and a loader that does not take it. -/
theorem fold_dump_refused : ∃ (c : OrkNpu) (B : Mem) (n : Nat) (m : Mem), c.soc ∈ socTable ∧ Envelope 3584 32 ∧
    orkI8WDumpFoldCpu 3584 32 B (fun _ => 0) (foldNeed 3584 32) = some (n, m) ∧
    ∀ hdr, orkI8MmLoadFold c (fun _ => some fun _ => 0) 3584 32 ⟨hdr, m⟩ n = none := by
  obtain ⟨m, hm, -⟩ := orkI8WDumpFoldCpu_spec envelope_32 (fun _ => 1) (fun _ => 0) le_rfl
  refine ⟨⟨3, socRk3588, 0⟩, fun _ => 1, _, m, by decide, envelope_32, hm, fun hdr => ?_⟩
  refine (refuses_of_not_fits (fun h => ?_) fun _ => rfl).1
  have hsize := h.size
  have hpage : 0 < orkPackHdrBytes := by decide
  omega

end OrkDriver.Fold
