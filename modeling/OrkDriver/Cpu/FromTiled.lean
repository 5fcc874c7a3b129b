import OrkDriver.Cpu.Dot
import OrkDriver.I4.ContainerLoads

/-!
The conversion of a tiled int4 blob to the row-wise nibbles of the CPU kernels (`ork_i4_cpu_blob_from_tiled`, `npu/i4/pack.c`).
It reads tiles from the first byte on, where a dump has its header page.
-/

namespace OrkDriver.Cpu

open OrkDriver.Lib OrkDriver.Npu OrkDriver.Pack OrkDriver.I4.Container

/-- `ork_i4_cpu_blob_from_tiled`: the size, and the buffer after it. `scratch` is what `malloc` gives for the codes. -/
def orkI4CpuBlobFromTiled (c : OrkNpu) (scratch : Option (Nat → Int8)) (K N : Nat) (blob : Bytes) (n : Nat)
    (out : Option Bytes) (cap : Nat) : Nat × Option Bytes :=
  if K = 0 ∨ N = 0 ∨ K % 2 = 1 then (0, out)
  else
    match out with
    | none => (N * (K / 2), none)
    | some m =>
      if cap < N * (K / 2) then (0, out)
      else
        match scratch with
        | none => (0, out)
        | some codes =>
          match orkiI4UntileBlob c K N blob n codes with
          | none => (0, out)
          | some codes => (N * (K / 2), some (stores m (pairStores K N fun n k => (codes (k * N + n)).toInt)))

/-- The row-wise nibbles of a matrix. -/
def RowNibbles (K N : Nat) (B : Nat → Int8) (m : Bytes) : Prop :=
  ∀ k < K, ∀ n < N, nibbleAt m (n * K + k) = low4 (B (k * N + n))

/-- The blob is the stamped dump of `B`; what the first page holds besides the header is left open. -/
def DumpOf (c : OrkNpu) (K N : Nat) (B : Nat → Int8) (blob : Blob4) (n : Nat) : Prop :=
  ∃ out cap b, orkI4WDumpCpu c K N B out cap = some (n, b) ∧ blob.hdr = b.hdr ∧
    ∀ p, orkPackHdrBytes ≤ p → p < n → blob.mem p = b.mem p

section

variable {c : OrkNpu} {K N n cap : Nat} {B : Nat → Int8} {m : Bytes}

theorem nibbleAt_pairs (hK : 2 ∣ K) (codes : Nat → Int8) (m : Bytes) :
    RowNibbles K N codes (stores m (pairStores K N fun n k => (codes (k * N + n)).toInt)) := by
  have hpair : ∀ v w : BitVec 4, ((v.setWidth 8 ||| w.setWidth 8 <<< 4) >>> 0).setWidth 4 = v ∧
      ((v.setWidth 8 ||| w.setWidth 8 <<< 4) >>> 4).setWidth 4 = w := by
    decide
  have hcode : ∀ v : BitVec 8, BitVec.ofInt 4 v.toInt = v.setWidth 4 := by
    decide
  have hlow : ∀ v : Int8, BitVec.ofInt 4 v.toInt = low4 v := fun v => hcode v.toBitVec
  intro k hk n hn
  obtain ⟨h, rfl⟩ := hK
  have hj : k / 2 < 2 * h / 2 := by omega
  have hbyte : (n * (2 * h) + k) / 2 = n * (2 * h / 2) + k / 2 := by
    rw [Nat.mul_div_cancel_left h (by decide), show n * (2 * h) = 2 * (n * h) by ring]
    omega
  have hodd : (n * (2 * h) + k) % 2 = k % 2 := by
    rw [show n * (2 * h) = 2 * (n * h) by ring]
    omega
  unfold nibbleAt nibbleShift
  rw [hbyte, hodd, pairStores_at _ _ hn hj, nibblePair, ofInt_low, ofInt_low, hlow, hlow]
  by_cases h1 : k % 2 = 1
  · rw [if_pos h1, (hpair _ _).2, show 2 * (k / 2) + 1 = k by omega]
  · rw [if_neg h1, (hpair _ _).1, show 2 * (k / 2) = k by omega]

/-- Only the low four bits of the codes are dumped. -/
theorem Holds.coded {src : Bytes} {off : Nat} (h : Holds c K N B src off) :
    Holds c K N (fun x => signExtend4 (low4 (B x))) src off := by
  have himage : ∀ t, image N (fun x => signExtend4 (low4 (B x))) t = image N B t := by
    intro t
    simp only [image, tileI4Bslice, low4_signExtend4]
  intro o t ho j hj
  rw [himage]
  exact h o t ho j hj

/-- The un-tiler takes a blob by its length. -/
theorem orkiI4UntileBlob_isSome (src : Bytes) (codes : Nat → Int8) :
    (orkiI4UntileBlob c K N src n codes).isSome = true ↔ Shape K N ∧ n = need c K N := by
  have hend : 0 + total tsz (I4.Container.geom c K N).tiles = need c K N := Nat.zero_add _
  unfold orkiI4UntileBlob
  by_cases hs : Shape K N
  · rw [if_neg (shape_iff.mp hs), walkRecords_eq _ _ _ (Nat.zero_le _), hend]
    by_cases hle : need c K N ≤ n
    · rw [if_pos hle, Option.bind_eq_bind, Option.bind_some]
      dsimp only
      by_cases heq : need c K N = n
      · rw [if_pos heq]
        exact ⟨fun _ => ⟨hs, heq.symm⟩, fun _ => rfl⟩
      · rw [if_neg heq]
        exact ⟨fun h => absurd h (by simp), fun h => absurd h.2.symm heq⟩
    · rw [if_neg hle]
      exact ⟨fun h => absurd h (by simp), fun h => absurd h.2.ge hle⟩
  · rw [if_pos (not_not.mp fun h => hs (shape_iff.mpr h))]
    exact ⟨fun h => absurd h (by simp), fun h => absurd h.1 hs⟩

theorem shape_even (hs : Shape K N) : 2 ∣ K := dvd_trans (by decide) hs.K

/-- With room for the codes and the result, a call on a shape is decided by the un-tiler. -/
theorem orkI4CpuBlobFromTiled_eq (hK : 0 < K) (hN : 0 < N) (h2 : 2 ∣ K) (codes : Nat → Int8) (src m : Bytes)
    (hcap : N * (K / 2) ≤ cap) : orkI4CpuBlobFromTiled c (some codes) K N src n (some m) cap =
      match orkiI4UntileBlob c K N src n codes with
      | none => (0, some m)
      | some codes => (N * (K / 2), some (stores m (pairStores K N fun n k => (codes (k * N + n)).toInt))) := by
  have hodd : K % 2 ≠ 1 := by omega
  have hguard : ¬ (K = 0 ∨ N = 0 ∨ K % 2 = 1) := by
    rintro (h | h | h)
    · exact hK.ne' h
    · exact hN.ne' h
    · exact hodd h
  unfold orkI4CpuBlobFromTiled
  rw [if_neg hguard]
  dsimp only
  rw [if_neg (Nat.not_lt.mpr hcap)]

/-- The result is 0 unless the bytes are as many as the tiles of the shape have. -/
theorem orkI4CpuBlobFromTiled_refuses_iff (codes : Nat → Int8) (src m : Bytes) :
    (orkI4CpuBlobFromTiled c (some codes) K N src n (some m) cap).1 = 0 ↔
      ¬ (0 < K ∧ 0 < N ∧ Shape K N ∧ N * (K / 2) ≤ cap ∧ n = need c K N) := by
  by_cases hpos : K = 0 ∨ N = 0 ∨ K % 2 = 1
  · have hno : ¬ (0 < K ∧ 0 < N ∧ Shape K N ∧ N * (K / 2) ≤ cap ∧ n = need c K N) := by
      rintro ⟨hK, hN, hs, -⟩
      have := shape_even hs
      omega
    unfold orkI4CpuBlobFromTiled
    rw [if_pos hpos]
    exact ⟨fun _ => hno, fun _ => rfl⟩
  · have hpos' : 0 < K ∧ 0 < N ∧ 2 ∣ K := by omega
    obtain ⟨hK, hN, h2⟩ := hpos'
    by_cases hcap : N * (K / 2) ≤ cap
    · have hsize : N * (K / 2) ≠ 0 := (Nat.mul_pos hN (by omega)).ne'
      have hiff := @orkiI4UntileBlob_isSome c K N n src codes
      rw [orkI4CpuBlobFromTiled_eq hK hN h2 codes src m hcap]
      cases hu : orkiI4UntileBlob c K N src n codes with
      | none =>
        rw [hu] at hiff
        exact ⟨fun _ h => absurd (hiff.mpr ⟨h.2.2.1, h.2.2.2.2⟩) (by simp), fun _ => rfl⟩
      | some l =>
        rw [hu] at hiff
        obtain ⟨hs, hn⟩ := hiff.mp rfl
        exact ⟨fun h => absurd h hsize, fun h => absurd ⟨hK, hN, hs, hcap, hn⟩ h⟩
    · unfold orkI4CpuBlobFromTiled
      rw [if_neg hpos]
      dsimp only
      rw [if_pos (Nat.not_le.mp hcap)]
      exact ⟨fun _ h => hcap h.2.2.2.1, fun _ => rfl⟩

/-- On a dump whose header page is skipped the conversion is right: every code is where the CPU kernels read it. -/
theorem orkI4CpuBlobFromTiled_body (hc : c.soc ∈ socTable) {blob : Blob4} (hd : DumpOf c K N B blob n)
    (codes : Nat → Int8) (m : Bytes) (hcap : N * (K / 2) ≤ cap) :
    ∃ m', orkI4CpuBlobFromTiled c (some codes) K N (fun j => blob.mem (orkPackHdrBytes + j)) (n - orkPackHdrBytes) (some m) cap =
      (N * (K / 2), some m') ∧ RowNibbles K N B m' := by
  obtain ⟨out, dcap, b, hdump, -, hmem⟩ := hd
  obtain ⟨hs, hn, hne, -, hholds⟩ := orkI4WDumpCpu_eq_some hc hdump
  have hpos : 0 < K ∧ 0 < N := by
    constructor <;> refine Nat.pos_of_ne_zero fun h0 => hne ?_
    · rw [hn, need_eq_zero hc (.inl h0), Nat.add_zero]
    · rw [hn, need_eq_zero hc (.inr h0), Nat.add_zero]
  have hbody : Holds c K N B (fun j => blob.mem (orkPackHdrBytes + j)) 0 := by
    intro o t ho j hj
    have hend := (bounds_of_mem_placed ho).2
    have hlt : orkPackHdrBytes + (o + j) < n := by
      rw [hn, need]
      omega
    exact (hmem _ (Nat.le_add_right _ _) hlt).trans (hholds.body o t ho j hj)
  have hlen : n - orkPackHdrBytes = need c K N := by omega
  obtain ⟨l, hl, hval⟩ := orkiI4UntileBlob_spec hc hs (fun x _ => signExtend4_range _) (Holds.coded hbody) codes
  rw [orkI4CpuBlobFromTiled_eq hpos.1 hpos.2 (shape_even hs) codes _ m hcap, hlen, hl]
  refine ⟨_, rfl, fun k hk j hj => ?_⟩
  have hx : k * N + j < K * N := by
    calc k * N + j < k * N + N := Nat.add_lt_add_left hj _
      _ = (k + 1) * N := (Nat.succ_mul k N).symm
      _ ≤ K * N := Nat.mul_le_mul_right N hk
  rw [nibbleAt_pairs (shape_even hs) l m k hk j hj, hval _ hx, low4_signExtend4]

/-! ### Which blobs are treated right -/

/-- A dump is converted, given room for the result, and what is no dump of the shape is refused. -/
def Converts (c : OrkNpu) (codes : Nat → Int8) (K N : Nat) (blob : Blob4) (n : Nat) (m : Bytes) (cap : Nat) : Prop :=
  (∀ B, DumpOf c K N B blob n → N * (K / 2) ≤ cap → ∃ m',
    orkI4CpuBlobFromTiled c (some codes) K N blob.mem n (some m) cap = (N * (K / 2), some m') ∧ RowNibbles K N B m') ∧
  ((¬ ∃ B, DumpOf c K N B blob n) → (orkI4CpuBlobFromTiled c (some codes) K N blob.mem n (some m) cap).1 = 0)

theorem DumpOf.size (hc : c.soc ∈ socTable) {blob : Blob4} (hd : DumpOf c K N B blob n) :
    Shape K N ∧ 0 < K ∧ 0 < N ∧ n = orkPackHdrBytes + need c K N := by
  obtain ⟨out, dcap, b, hdump, -⟩ := hd
  obtain ⟨hs, hn, hne, -⟩ := orkI4WDumpCpu_eq_some hc hdump
  refine ⟨hs, Nat.pos_of_ne_zero fun h0 => hne ?_, Nat.pos_of_ne_zero fun h0 => hne ?_, hn⟩
  · rw [hn, need_eq_zero hc (.inl h0), Nat.add_zero]
  · rw [hn, need_eq_zero hc (.inr h0), Nat.add_zero]

end

/-- A blob is treated right just when it is neither a dump of the shape nor as long as one without its header page. -/
theorem converts_iff (c : OrkNpu) (hc : c.soc ∈ socTable) (codes : Nat → Int8) (K N : Nat) (blob : Blob4) (n : Nat)
    (m : Bytes) (cap : Nat) : Converts c codes K N blob n m cap ↔
      ¬ (0 < K ∧ 0 < N ∧ Shape K N ∧ N * (K / 2) ≤ cap ∧ (n = need c K N ∨ ∃ B, DumpOf c K N B blob n)) := by
  have hhalf : ∀ {K N : Nat}, 0 < K → 0 < N → Shape K N → 0 < N * (K / 2) := by
    intro K N hK hN hs
    have := shape_even hs
    exact Nat.mul_pos hN (by omega)
  constructor
  · rintro ⟨hconv, hrefuse⟩ ⟨hK, hN, hs, hcap, hlen⟩
    by_cases hdump : ∃ B, DumpOf c K N B blob n
    · -- the un-tiler finds a page too many
      obtain ⟨B, hB⟩ := hdump
      obtain ⟨m', hm', -⟩ := hconv B hB hcap
      obtain ⟨-, -, -, hn⟩ := hB.size hc
      have hpage : 0 < orkPackHdrBytes := by decide
      have hzero : (orkI4CpuBlobFromTiled c (some codes) K N blob.mem n (some m) cap).1 = 0 :=
        (orkI4CpuBlobFromTiled_refuses_iff codes blob.mem m).mpr fun h => by omega
      rw [hm'] at hzero
      exact (hhalf hK hN hs).ne' hzero
    · -- no header is looked for
      exact (orkI4CpuBlobFromTiled_refuses_iff codes blob.mem m).mp (hrefuse hdump)
        ⟨hK, hN, hs, hcap, hlen.resolve_right hdump⟩
  · intro hnot
    refine ⟨fun B hB hcap => ?_, fun _ => ?_⟩
    · obtain ⟨hs, hK, hN, -⟩ := hB.size hc
      exact absurd ⟨hK, hN, hs, hcap, .inr ⟨B, hB⟩⟩ hnot
    · refine (orkI4CpuBlobFromTiled_refuses_iff codes blob.mem m).mpr ?_
      rintro ⟨hK, hN, hs, hcap, hn⟩
      exact hnot ⟨hK, hN, hs, hcap, .inl hn⟩

/-- A page of zeros is no dump and is taken for 32 rows of 64 codes. -/
theorem converts_iff_bare : Converts ⟨3, socRk3588, 0⟩ (fun _ => 0) 32 64 ⟨orkiPackStamp ⟨3, socRk3588, 0⟩ .i4 32 64, fun _ => 0⟩
    4096 (fun _ => 0) 1024 ↔ ¬ (0 < 32 ∧ 0 < 64 ∧ Shape 32 64 ∧ 64 * (32 / 2) ≤ 1024 ∧
      (4096 = need ⟨3, socRk3588, 0⟩ 32 64 ∨ ∃ B, DumpOf ⟨3, socRk3588, 0⟩ 32 64 B
        ⟨orkiPackStamp ⟨3, socRk3588, 0⟩ .i4 32 64, fun _ => 0⟩ 4096)) :=
  converts_iff ⟨3, socRk3588, 0⟩ (by decide) _ 32 64 _ 4096 _ 1024

/-- The dump of a matrix of zeros is refused. -/
theorem not_converts_dump : ∃ blob n,
    orkI4WDumpCpu ⟨3, socRk3588, 0⟩ 32 64 (fun _ => 0) (fun _ => 0) 8192 = some (n, blob) ∧
    ¬ Converts ⟨3, socRk3588, 0⟩ (fun _ => 0) 32 64 blob n (fun _ => 0) 1024 := by
  have hc : socRk3588 ∈ socTable := by decide
  have hsome : (orkI4WDumpCpu ⟨3, socRk3588, 0⟩ 32 64 (fun _ => 0) (fun _ => 0) 8192).isSome :=
    (orkI4WDumpCpu_isSome hc 32 64 _ _ _).mpr
      ⟨⟨by decide, by decide⟩, by decide, by decide, by decide⟩
  obtain ⟨⟨n, blob⟩, hdump⟩ := Option.isSome_iff_exists.mp hsome
  obtain ⟨-, hn, -⟩ := orkI4WDumpCpu_eq_some hc hdump
  have hpage : 0 < orkPackHdrBytes := by decide
  have hzero : (orkI4CpuBlobFromTiled ⟨3, socRk3588, 0⟩ (some fun _ => 0) 32 64 blob.mem n (some fun _ => 0) 1024).1 = 0 :=
    (orkI4CpuBlobFromTiled_refuses_iff _ _ _).mpr fun h => by omega
  refine ⟨blob, n, hdump, fun hconv => ?_⟩
  obtain ⟨m', hm', -⟩ := hconv.1 _ ⟨_, _, _, hdump, rfl, fun _ _ _ => rfl⟩ (by decide)
  rw [hm'] at hzero
  exact absurd hzero (Nat.succ_ne_zero _)

end OrkDriver.Cpu
