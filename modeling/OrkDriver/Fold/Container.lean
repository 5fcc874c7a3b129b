import OrkDriver.I4.ContainerLoads
import OrkDriver.Pack.RoundTrip

/-!
The weight layout of the row-folded int8 runs (`npu/i8/fold.c`): its dump, its two loaders, and which blobs these take.
-/

namespace OrkDriver.Fold

open OrkDriver.Lib OrkDriver.Npu OrkDriver.Pack

/-- `FOLD_REF_K`. -/
def foldRefK : Nat := 3584

/-- `FOLD_REF_N`. -/
def foldRefN : Nat := 1216

/-- `fold_woff`. -/
def foldWoff (n k K : Nat) : Nat := (n / 32 * ((K + 31) / 32) + k / 32) * 1024 + n % 32 * 32 + k % 32

def nslice (N : Nat) : Nat := pieces N foldRefN

/-- Slice `s`: all rows of its columns. -/
def slice (K N s : Nat) : Tile := ⟨s * foldRefN, pieceLen N foldRefN s, 0, K⟩

def slices (K N : Nat) : List Tile := (List.range (nslice N)).map (slice K N)

/-- The shapes the dump and the loaders take. -/
structure Envelope (K N : Nat) : Prop where
  rows : K = foldRefK
  pos : 1 ≤ N
  cols : 32 ∣ N
  slices : nslice N ≤ 64

theorem envelope_iff {K N : Nat} : Envelope K N ↔ ¬ (K ≠ foldRefK ∨ N < 1 ∨ N % 32 ≠ 0 ∨ 64 < nslice N) := by
  constructor
  · rintro ⟨hK, hN, h32, hs⟩
    omega
  · intro h
    exact ⟨by omega, by omega, by omega, by omega⟩

/-! ### Dump -/

/-- The loops of the dump over one slice. -/
def writeSlice (N : Nat) (B : Mem) (off : Nat) (t : Tile) (out : Mem) : Mem :=
  stores (memset out off t.tsz) ((List.range t.Kp).flatMap fun k => (List.range t.Nc).map fun n =>
    (off + foldWoff n k t.Kp, B (k * N + (t.n0 + n))))

/-- `ork_i8_w_dump_fold_cpu` into a buffer of `cap` bytes, and the size; `none` is 0. -/
def orkI8WDumpFoldCpu (K N : Nat) (B : Mem) (out : Mem) (cap : Nat) : Option (Nat × Mem) :=
  if K ≠ foldRefK ∨ N < 1 ∨ N % 32 ≠ 0 ∨ 64 < nslice N then none
  else walkRecords Tile.tsz cap (writeSlice N B) (slices K N) 0 out

/-! ### Loaders -/

/-- `need`. -/
def foldNeed (K N : Nat) : Nat := total Tile.tsz (slices K N)

/-- `ork_i8_mm_load_fold`: the bytes of the slices; `buf s` is the memory of a buffer, if the kernel grants it. -/
def orkI8MmLoadFold (c : OrkNpu) (buf : Nat → Option Mem) (K N : Nat) (blob : Blob) (n : Nat) : Option (List Mem) :=
  if orkiPackCheck c blob.hdr n .i8 K N ≠ none then none
  else if K ≠ foldRefK ∨ N < 1 ∨ N % 32 ≠ 0 ∨ 64 < nslice N then none
  else if n - orkPackHdrBytes ≠ foldNeed K N then none
  else copyRecords Tile.tsz Tile.tsz blob.mem buf 0 orkPackHdrBytes (slices K N)

/-- The fields of `ork_w` that an attach reads and writes. -/
structure FoldW where
  K : Nat
  N : Nat
  Bfold : Option (List Mem)

/-- `ork_i8_w_attach_fold`. -/
def orkI8WAttachFold (c : OrkNpu) (buf : Nat → Option Mem) (w : FoldW) (blob : Blob) (n : Nat) : Int × FoldW :=
  if orkiPackCheck c blob.hdr n .i8 w.K w.N ≠ none then (-1, w)
  else if w.K ≠ foldRefK ∨ w.N < 1 ∨ w.N % 32 ≠ 0 then (-1, w)
  else if w.Bfold.isSome then (0, w)
  else if nslice w.N < 1 ∨ 64 < nslice w.N then (-1, w)
  else if n - orkPackHdrBytes ≠ foldNeed w.K w.N then (-1, w)
  else
    match copyRecords Tile.tsz Tile.tsz blob.mem buf 0 orkPackHdrBytes (slices w.K w.N) with
    | some l => (0, { w with Bfold := some l })
    | none => (-2, w)

/-! ### What the dump holds -/

section

variable {K N : Nat} {B : Mem}

theorem foldWoff_eq (hK : 32 ∣ K) (n k : Nat) : foldWoff n k K = wIndex 32 K k n := by
  have hround : (K + 31) / 32 = K / 32 := by omega
  unfold foldWoff wIndex
  rw [hround, Nat.add_assoc]

/-- Every element of the slices stands at its `fold_woff`. -/
def Holds (K N : Nat) (B src : Mem) (off : Nat) : Prop :=
  ∀ o t, (o, t) ∈ placed Tile.tsz off (slices K N) → ∀ k < K, ∀ n < t.Nc, src (o + foldWoff n k K) = B (k * N + (t.n0 + n))

theorem mem_slices {t : Tile} : t ∈ slices K N ↔ ∃ s < nslice N, t = slice K N s := by
  unfold slices
  rw [List.mem_map]
  constructor
  · rintro ⟨s, hs, rfl⟩
    exact ⟨s, List.mem_range.mp hs, rfl⟩
  · rintro ⟨s, hs, rfl⟩
    exact ⟨s, List.mem_range.mpr hs, rfl⟩

theorem Envelope.K32 (h : Envelope K N) : 32 ∣ K := by
  rw [h.rows]
  decide

theorem Envelope.slice_cols (h : Envelope K N) (s : Nat) : 32 ∣ pieceLen N foldRefN s := dvd_pieceLen h.cols (by decide)

theorem slice_woff_lt (h : Envelope K N) {t : Tile} (ht : t ∈ slices K N) {k n : Nat} (hk : k < K) (hn : n < t.Nc) :
    foldWoff n k K < t.tsz := by
  obtain ⟨s, hs, rfl⟩ := mem_slices.mp ht
  rw [foldWoff_eq h.K32]
  exact lt_of_lt_of_le (wIndex_lt (by decide) h.K32 (h.slice_cols s) hk hn) (le_pgup _)

theorem writeSlice_in (h : Envelope K N) {t : Tile} (ht : t ∈ slices K N) (off : Nat) (out : Mem) {k n : Nat} (hk : k < K)
    (hn : n < t.Nc) : writeSlice N B off t out (off + foldWoff n k K) = B (k * N + (t.n0 + n)) := by
  have hKp : t.Kp = K := by
    obtain ⟨s, -, rfl⟩ := mem_slices.mp ht
    rfl
  unfold writeSlice
  rw [hKp]
  refine stores.of_mem ⟨_, List.mem_flatMap.mpr ⟨k, List.mem_range.mpr hk, List.mem_map.mpr ⟨n, List.mem_range.mpr hn, rfl⟩⟩,
    rfl⟩ fun w hw hidx => ?_
  obtain ⟨k', hk', hw⟩ := List.mem_flatMap.mp hw
  obtain ⟨n', hn', rfl⟩ := List.mem_map.mp hw
  have hwoff := Nat.add_left_cancel hidx
  rw [foldWoff_eq h.K32, foldWoff_eq h.K32] at hwoff
  obtain ⟨rfl, rfl⟩ := wIndex_inj (by decide) h.K32 (List.mem_range.mp hk') hk hwoff
  rfl

theorem writeSlice_out (h : Envelope K N) {t : Tile} (ht : t ∈ slices K N) (off : Nat) (out : Mem) {p : Nat}
    (hp : p < off ∨ off + t.tsz ≤ p) : writeSlice N B off t out p = out p := by
  have hKp : t.Kp = K := by
    obtain ⟨s, -, rfl⟩ := mem_slices.mp ht
    rfl
  have hset : memset out off t.tsz p = out p := if_neg (by omega)
  rw [← hset]
  refine stores.of_forall_ne fun w hw => ?_
  obtain ⟨k', hk', hw⟩ := List.mem_flatMap.mp hw
  obtain ⟨n', hn', rfl⟩ := List.mem_map.mp hw
  have := slice_woff_lt h ht (by rw [← hKp]; exact List.mem_range.mp hk') (List.mem_range.mp hn')
  rw [← hKp] at this
  dsimp only
  omega

/-- A slice does not depend on what was in its place. -/
theorem writeSlice_congr (off : Nat) (t : Tile) (out out' : Mem) {j : Nat} (hj : j < t.tsz) :
    writeSlice N B off t out (off + j) = writeSlice N B off t out' (off + j) := by
  refine stores.congr ?_
  unfold memset
  rw [if_pos ⟨Nat.le_add_right _ _, Nat.add_lt_add_left hj _⟩, if_pos ⟨Nat.le_add_right _ _, Nat.add_lt_add_left hj _⟩]

/-- The dump takes every shape of the envelope, and has each element at its place. -/
theorem orkI8WDumpFoldCpu_spec (h : Envelope K N) (B out : Mem) {cap : Nat} (hcap : foldNeed K N ≤ cap) :
    ∃ m, orkI8WDumpFoldCpu K N B out cap = some (foldNeed K N, m) ∧ Holds K N B m 0 := by
  have hend : 0 + total Tile.tsz (slices K N) = foldNeed K N := Nat.zero_add _
  unfold orkI8WDumpFoldCpu
  rw [if_neg (envelope_iff.mp h), walkRecords_eq _ _ _ (Nat.zero_le _), hend, if_pos hcap]
  refine ⟨_, rfl, fun o t ho k hk n hn => ?_⟩
  have ht := mem_of_mem_placed ho
  have hin : ∀ t ∈ slices K N, ∀ o m j, j < t.tsz →
      writeSlice N B o t m (o + j) = writeSlice N B o t (fun _ => 0) (o + j) :=
    fun t _ o m j hj => writeSlice_congr o t m _ hj
  have hout : ∀ t ∈ slices K N, ∀ o m p, p < o ∨ o + t.tsz ≤ p → writeSlice N B o t m p = m p :=
    fun t ht o m p hp => writeSlice_out h ht o m hp
  rw [(foldl_placed (fun _ _ => le_rfl) hin hout out).1 o t ho _ (slice_woff_lt h ht hk hn)]
  exact writeSlice_in h ht o _ hk hn

theorem orkI8WDumpFoldCpu_size {out m : Mem} {cap n : Nat} (h : orkI8WDumpFoldCpu K N B out cap = some (n, m)) :
    Envelope K N ∧ n = foldNeed K N := by
  unfold orkI8WDumpFoldCpu at h
  split at h
  · cases h
  · next hE =>
      rw [walkRecords_eq _ _ _ (Nat.zero_le _)] at h
      split at h
      · obtain ⟨rfl, -⟩ := Prod.mk.inj (Option.some.inj h)
        exact ⟨envelope_iff.mpr hE, Nat.zero_add _⟩
      · cases h

end

end OrkDriver.Fold
