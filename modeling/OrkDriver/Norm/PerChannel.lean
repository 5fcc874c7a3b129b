import Mathlib.Tactic.Ring
import OrkDriver.Pack.Tiles

/-!
The buffers of the per-channel operators (`perchan.c`, `i16/chain.c`, `i16/act.c`): what the host writes and reads, and the
ranges that the emitted programs describe, against the buffers allocated. Every buffer is granted; the sides are natural
numbers, as no buffer of a negative size is.
-/

namespace OrkDriver.PerChannel

open OrkDriver.Pack

inductive BufName
  | W | G | O | SB | Af | A | B | out
  deriving DecidableEq

/-- `len` bytes from `off` on. -/
structure Touch where
  buf : BufName
  off : Nat
  len : Nat
  deriving DecidableEq

/-- What an accepted call allocates, and what it touches. -/
structure Operator where
  size : BufName → Nat
  host : List Touch
  programs : List Touch

def Touch.Inside (size : BufName → Nat) (t : Touch) : Prop := t.off + t.len ≤ size t.buf

def Operator.Inside (op : Operator) : Prop := ∀ t ∈ op.host ++ op.programs, t.Inside op.size

/-! ### Loops and ranges -/

/-- `n` elements of `w` bytes, one after another. -/
def elems (buf : BufName) (n w : Nat) : List Touch := (List.range n).map fun j => ⟨buf, j * w, w⟩

/-- The weight tile: blocks of 32 rows and `nb` columns. -/
def tileElems (nb w K N : Nat) : List Touch :=
  (List.range (N / nb)).flatMap fun nt => (List.range (K / 32)).flatMap fun kt => (List.range nb).flatMap fun nl =>
    (List.range 32).map fun kk => ⟨.W, (nt * (K / 32) * nb * 32 + kt * nb * 32 + nl * 32 + kk) * w, w⟩

/-- `EWCUBEH`, `PC16` and `PC32`: a cube of atoms of 8 elements of `w` bytes. -/
def cube (w M m n : Nat) : Nat := n / 8 * (M * (8 * w)) + m * (8 * w) + n % 8 * w

def cubeElems (buf : BufName) (w M N : Nat) : List Touch :=
  (List.range M).flatMap fun m => (List.range N).map fun n => ⟨buf, cube w M m n, w⟩

/-- `orki_set_mul_geom`: the surfaces of a cube, of `M` atoms each. -/
def surfaces (buf : BufName) (w M N : Nat) : List Touch :=
  (List.range (N / 8)).map fun s => ⟨buf, s * (M * (8 * w)), M * (8 * w)⟩

/-- `size_t sz=(size_t)M*N*2; if(sz<4096)sz=4096`, for elements of `w` bytes. -/
def atLeastPage (w M N : Nat) : Nat := if M * N * w < 4096 then 4096 else M * N * w

/-! ### Operators -/

/-- What the operators with a matmul accept. -/
def mmRefuses (nmax M K N : Nat) : Bool := K % 32 ≠ 0 ∨ N % 32 ≠ 0 ∨ N > nmax ∨ M < 1 ∨ M > 64 ∨ N % 8 ≠ 0

/-- The buffers of the operators with a matmul; `af` is the size of the context's `Af`, `w` of an element of A and B. -/
def mmSize (w af M K N : Nat) : BufName → Nat
  | .W => pgup (K * N * w)
  | .G | .O => pgup (atLeastPage 2 M N)
  | .SB => pgup 4096
  | .Af => af
  | .out => M * N * 2
  | .A | .B => 0

/-- What the matmul's registers describe: `M` rows of A, the tile, and `M` rows of results of 2 bytes. -/
def mmProgram (w M K N : Nat) (dst : BufName) : List Touch := [⟨.Af, 0, M * K * w⟩, ⟨.W, 0, K * N * w⟩, ⟨dst, 0, M * N * 2⟩]

/-- The host's part of a chained matmul and scale. -/
def chainHost (nb w M K N : Nat) : List Touch :=
  tileElems nb w K N ++ [⟨.G, 0, atLeastPage 2 M N⟩, ⟨.O, 0, atLeastPage 2 M N⟩, ⟨.SB, 0, 4096⟩] ++
    elems .Af (M * K) w ++ elems .SB N 2 ++ cubeElems .O 2 M N ++ elems .out (M * N) 2

/-- The scale that follows: the matmul's results, the scales, the output. -/
def scaleProgram (M N : Nat) : List Touch := surfaces .G 2 M N ++ [⟨.SB, 0, N * 2⟩] ++ surfaces .O 2 M N

/-- `ork_f16_npu_mm_perchan_fused`. -/
def orkF16NpuMmPerchanFused (nmax af M K N : Nat) : Option Operator :=
  if mmRefuses nmax M K N then none
  else some {
    size := mmSize 2 af M K N
    host := tileElems 16 2 K N ++ [⟨.O, 0, atLeastPage 2 M N⟩, ⟨.SB, 0, 4096⟩] ++ elems .SB N 2 ++
      elems .Af (M * K) 2 ++ elems .O (M * N) 2 ++ elems .out (M * N) 2
    programs := mmProgram 2 M K N .O ++ [⟨.SB, 0, N * 2⟩] }

/-- `ork_f16_npu_chain_mm_perchan`. -/
def orkF16NpuChainMmPerchan (nmax af M K N : Nat) : Option Operator :=
  if mmRefuses nmax M K N then none
  else some ⟨mmSize 2 af M K N, chainHost 16 2 M K N, mmProgram 2 M K N .G ++ scaleProgram M N⟩

/-- `ork_i16_npu_chain_mm_perchan`. -/
def orkI16NpuChainMmPerchan (nmax af M K N : Nat) : Option Operator :=
  if mmRefuses nmax M K N then none
  else some ⟨mmSize 1 af M K N, chainHost 32 1 M K N, mmProgram 1 M K N .G ++ scaleProgram M N⟩

/-- The buffers of the operators without one; `w` is the size of an element of A. -/
def sdpSize (w M N : Nat) : BufName → Nat
  | .A => pgup (atLeastPage w M N)
  | .O => pgup (atLeastPage 2 M N)
  | .B => pgup 4096
  | .out => M * N * 2
  | .W | .G | .SB | .Af => 0

/-- The elements of tile `t`, 8 columns by `M` rows, column by column. -/
def columnMajor (buf : BufName) (M N : Nat) : List Touch :=
  (List.range (N / 8)).flatMap fun t => (List.range 8).flatMap fun j => (List.range M).map fun m =>
    ⟨buf, (t * M * 8 + (j * M + m)) * 2, 2⟩

/-- The program of tile `t`: 8 columns of each row of A, and the tile's blocks of B and O. -/
def notchProgram (M N t : Nat) : List Touch :=
  ((List.range M).map fun m => ⟨.A, t * 8 * 2 + m * (N * 2), 16⟩) ++ [⟨.B, t * M * 8 * 2, M * 16⟩, ⟨.O, t * M * 16, M * 16⟩]

/-- `ork_f16_npu_mul_perchan_contig`. -/
def orkF16NpuMulPerchanContig (M N : Nat) : Option Operator :=
  if M < 1 ∨ M > 64 ∨ N < 8 ∨ N > 8192 ∨ N % 8 ≠ 0 then none
  else some {
    size := sdpSize 2 M N
    host := [⟨.A, 0, atLeastPage 2 M N⟩, ⟨.O, 0, atLeastPage 2 M N⟩, ⟨.B, 0, 4096⟩] ++ elems .A (M * N) 2 ++
      columnMajor .B M N ++ columnMajor .O M N ++ elems .out (M * N) 2
    programs := (List.range (N / 8)).flatMap (notchProgram M N) }

/-- `ORK_SDP_MAXM`. -/
def orkSdpMaxm : Nat := 8176

/-- `ork_npu_requant_perchan_i32`. -/
def orkNpuRequantPerchanI32 (M N : Nat) (mult shift : Int) : Option Operator :=
  if M < 1 ∨ M > orkSdpMaxm ∨ N < 8 ∨ N > 8192 ∨ N % 8 ≠ 0 then none
  else if mult < 0 ∨ mult > 0x7fff ∨ shift < 0 ∨ shift > 31 then none
  else some {
    size := sdpSize 4 M N
    host := [⟨.A, 0, atLeastPage 4 M N⟩, ⟨.O, 0, atLeastPage 2 M N⟩, ⟨.B, 0, 4096⟩] ++ cubeElems .A 4 M N ++
      elems .B N 2 ++ cubeElems .O 2 M N ++ elems .out (M * N) 2
    programs := surfaces .A 4 M N ++ [⟨.B, 0, N * 2⟩] ++ surfaces .O 2 M N }

/-! ### What the loops touch -/

section

variable {size : BufName → Nat} {buf : BufName} {w M K N nb : Nat}

/-- Every touch of the list is inside. -/
def AllInside (size : BufName → Nat) (l : List Touch) : Prop := ∀ t ∈ l, t.Inside size

theorem allInside_append {l k : List Touch} : AllInside size (l ++ k) ↔ AllInside size l ∧ AllInside size k :=
  List.forall_mem_append

theorem allInside_cons {t : Touch} {l : List Touch} : AllInside size (t :: l) ↔ t.Inside size ∧ AllInside size l :=
  List.forall_mem_cons

theorem allInside_nil : AllInside size [] := fun _ h => absurd h List.not_mem_nil

/-- The last of `q` pieces of `w` ends with them. -/
theorem piece_end_le {i q : Nat} (h : i < q) (w : Nat) : i * w + w ≤ q * w := by
  rw [← Nat.succ_mul]
  exact Nat.mul_le_mul_right w h

theorem elems_inside {n : Nat} (h : n * w ≤ size buf) : AllInside size (elems buf n w) := by
  intro t ht
  obtain ⟨j, hj, rfl⟩ := List.mem_map.mp ht
  exact (piece_end_le (List.mem_range.mp hj) w).trans h

theorem tileElems_inside (hK : 32 ∣ K) (hN : nb ∣ N) (h : K * N * w ≤ size .W) : AllInside size (tileElems nb w K N) := by
  intro t ht
  simp only [tileElems, List.mem_flatMap, List.mem_map, List.mem_range] at ht
  obtain ⟨nt, hnt, kt, hkt, nl, hnl, kk, hkk, rfl⟩ := ht
  have hplace : nl * 32 + kk < nb * 32 := Lib.digits_lt hnl hkk
  have hblock : nt * (K / 32) + kt < N / nb * (K / 32) := Lib.digits_lt hnt hkt
  have hcell : (nt * (K / 32) + kt) * (nb * 32) + (nl * 32 + kk) < N / nb * (K / 32) * (nb * 32) :=
    Lib.digits_lt hblock hplace
  have hsize : N / nb * (K / 32) * (nb * 32) = K * N := by
    calc N / nb * (K / 32) * (nb * 32) = K / 32 * 32 * (N / nb * nb) := by ring
      _ = K * N := by rw [Nat.div_mul_cancel hK, Nat.div_mul_cancel hN]
  have hidx : nt * (K / 32) * nb * 32 + kt * nb * 32 + nl * 32 + kk =
      (nt * (K / 32) + kt) * (nb * 32) + (nl * 32 + kk) := by ring
  change (nt * (K / 32) * nb * 32 + kt * nb * 32 + nl * 32 + kk) * w + w ≤ size .W
  rw [hidx]
  exact (piece_end_le (hsize ▸ hcell) w).trans h

theorem cubeElems_inside (hN : 8 ∣ N) (h : M * N * w ≤ size buf) : AllInside size (cubeElems buf w M N) := by
  intro t ht
  simp only [cubeElems, List.mem_flatMap, List.mem_map, List.mem_range] at ht
  obtain ⟨m, hm, n, hn, rfl⟩ := ht
  have hn8 : n / 8 < N / 8 := by omega
  have hcell : (n / 8 * M + m) * 8 + n % 8 < N / 8 * M * 8 :=
    Lib.digits_lt (Lib.digits_lt hn8 hm) (Nat.mod_lt _ (by decide))
  have hsize : N / 8 * M * 8 = M * N := by
    calc N / 8 * M * 8 = M * (N / 8 * 8) := by ring
      _ = M * N := by rw [Nat.div_mul_cancel hN]
  have hidx : cube w M m n = ((n / 8 * M + m) * 8 + n % 8) * w := by
    unfold cube
    ring
  change cube w M m n + w ≤ size buf
  rw [hidx]
  exact (piece_end_le (hsize ▸ hcell) w).trans h

theorem surfaces_inside (hN : 8 ∣ N) (h : M * N * w ≤ size buf) : AllInside size (surfaces buf w M N) := by
  intro t ht
  obtain ⟨s, hs, rfl⟩ := List.mem_map.mp ht
  have hsize : N / 8 * (M * (8 * w)) = M * N * w := by
    calc N / 8 * (M * (8 * w)) = M * (N / 8 * 8) * w := by ring
      _ = M * N * w := by rw [Nat.div_mul_cancel hN]
  exact ((piece_end_le (List.mem_range.mp hs) (M * (8 * w))).trans_eq hsize).trans h

theorem columnMajor_inside (hN : 8 ∣ N) (h : M * N * 2 ≤ size buf) : AllInside size (columnMajor buf M N) := by
  intro t ht
  simp only [columnMajor, List.mem_flatMap, List.mem_map, List.mem_range] at ht
  obtain ⟨t, htile, j, hj, m, hm, rfl⟩ := ht
  have hcell : t * (8 * M) + (j * M + m) < N / 8 * (8 * M) := Lib.digits_lt htile (Lib.digits_lt hj hm)
  have hsize : N / 8 * (8 * M) = M * N := by
    calc N / 8 * (8 * M) = M * (N / 8 * 8) := by ring
      _ = M * N := by rw [Nat.div_mul_cancel hN]
  have hidx : t * M * 8 + (j * M + m) = t * (8 * M) + (j * M + m) := by ring
  change (t * M * 8 + (j * M + m)) * 2 + 2 ≤ size buf
  rw [hidx]
  exact (piece_end_le (hsize ▸ hcell) 2).trans h

/-- The programs of the tiles stay inside exactly if the operand blocks do. -/
theorem notchPrograms_inside_iff (hN : 8 ∣ N) (hN0 : 0 < N) (hA : M * N * 2 ≤ size .A) (hO : M * N * 2 ≤ size .O) :
    AllInside size ((List.range (N / 8)).flatMap (notchProgram M N)) ↔ M * N * 2 ≤ size .B := by
  obtain ⟨q, rfl⟩ := hN
  rw [Nat.mul_div_cancel_left q (by decide)]
  have hblocks : q * (M * 16) = M * (8 * q) * 2 := by ring
  constructor
  · intro h
    have hlast : (⟨.B, (q - 1) * M * 8 * 2, M * 16⟩ : Touch) ∈ (List.range q).flatMap (notchProgram M (8 * q)) :=
      List.mem_flatMap.mpr ⟨q - 1, List.mem_range.mpr (by omega), by simp [notchProgram]⟩
    have hin : (q - 1) * M * 8 * 2 + M * 16 ≤ size .B := h _ hlast
    obtain ⟨p, rfl⟩ : ∃ p, q = p + 1 := ⟨q - 1, by omega⟩
    rw [Nat.add_sub_cancel] at hin
    refine le_trans (le_of_eq ?_) hin
    ring
  · intro hB t ht
    obtain ⟨i, hi, ht⟩ := List.mem_flatMap.mp ht
    have hi := List.mem_range.mp hi
    have hblock := (piece_end_le hi (M * 16)).trans_eq hblocks
    simp only [notchProgram, List.mem_append, List.mem_map, List.mem_range, List.mem_cons, List.not_mem_nil, or_false] at ht
    rcases ht with ⟨m, hm, rfl⟩ | rfl | rfl
    · have hcell : m * q + i < M * q := Lib.digits_lt hm hi
      have hrow := piece_end_le hcell 16
      refine le_trans (le_of_eq_of_le ?_ hrow) (le_of_eq_of_le ?_ hA)
      · change i * 8 * 2 + m * (8 * q * 2) + 16 = _
        ring
      · ring
    · refine le_trans (le_of_eq_of_le ?_ hblock) hB
      change i * M * 8 * 2 + M * 16 = _
      ring
    · refine le_trans (le_of_eq_of_le ?_ hblock) hO
      change i * M * 16 + M * 16 = _
      ring

theorem le_atLeastPage (w M N : Nat) : M * N * w ≤ atLeastPage w M N := by
  unfold atLeastPage
  split_ifs <;> omega

theorem page_fits : pgup 4096 = 4096 := rfl

end

/-! ### Exactly when the operators stay inside -/

section

variable {nmax af M K N : Nat} {op : Operator}

theorem mmRefuses_false (h : mmRefuses nmax M K N = false) : 32 ∣ K ∧ 32 ∣ N ∧ 0 < M := by
  simp only [mmRefuses, decide_eq_false_iff_not, not_or] at h
  omega

/-- What is asked of the scales and the activations. -/
def MmFits (w af M K N : Nat) : Prop := N ≤ 2048 ∧ M * K * w ≤ af

theorem page_inside {size : BufName → Nat} {buf : BufName} {n : Nat} (h : n ≤ size buf) : (⟨buf, 0, n⟩ : Touch).Inside size :=
  (Nat.zero_add n).trans_le h

/-- The scales are read up to the last one, and the activations too. -/
theorem mmFits_of_inside {w : Nat} {l : List Touch} (h : AllInside (mmSize w af M K N) l)
    (hSB : (⟨.SB, 0, N * 2⟩ : Touch) ∈ l) (hAf : (⟨.Af, 0, M * K * w⟩ : Touch) ∈ l) : MmFits w af M K N := by
  have hscales : 0 + N * 2 ≤ pgup 4096 := h _ hSB
  have hact : 0 + M * K * w ≤ af := h _ hAf
  rw [page_fits] at hscales
  exact ⟨by omega, by omega⟩

theorem fused_inside_iff (h : orkF16NpuMmPerchanFused nmax af M K N = some op) : op.Inside ↔ MmFits 2 af M K N := by
  unfold orkF16NpuMmPerchanFused at h
  split_ifs at h with hr
  obtain rfl := Option.some.inj h
  obtain ⟨hK, hN, -⟩ := mmRefuses_false (by simpa using hr)
  constructor
  · intro hin
    exact mmFits_of_inside hin (by simp) (by simp [mmProgram])
  · rintro ⟨hN', hAf⟩
    have hout := (le_atLeastPage 2 M N).trans (le_pgup _)
    have hscales : N * 2 ≤ pgup 4096 := by rw [page_fits]; omega
    change AllInside (mmSize 2 af M K N) _
    simp only [mmProgram, allInside_append, allInside_cons]
    refine ⟨⟨⟨⟨⟨⟨tileElems_inside hK ?_ (le_pgup _), page_inside (le_pgup _), page_inside (le_refl _), allInside_nil⟩,
      elems_inside hscales⟩, elems_inside hAf⟩, elems_inside hout⟩, elems_inside (le_refl _)⟩,
      ⟨page_inside hAf, page_inside (le_pgup _), page_inside hout, allInside_nil⟩, page_inside hscales, allInside_nil⟩
    exact Nat.dvd_trans (by decide) hN

theorem chain_inside_iff {nb w : Nat} (hnb : nb ∣ 32) (hK : 32 ∣ K) (hN : 32 ∣ N) : AllInside (mmSize w af M K N)
    (chainHost nb w M K N ++ (mmProgram w M K N .G ++ scaleProgram M N)) ↔ MmFits w af M K N := by
  constructor
  · intro hin
    exact mmFits_of_inside hin (by simp [scaleProgram]) (by simp [mmProgram])
  · rintro ⟨hN', hAf⟩
    have hout := (le_atLeastPage 2 M N).trans (le_pgup _)
    have hscales : N * 2 ≤ pgup 4096 := by rw [page_fits]; omega
    have hN8 : 8 ∣ N := Nat.dvd_trans (by decide) hN
    simp only [chainHost, mmProgram, scaleProgram, allInside_append, allInside_cons]
    exact ⟨⟨⟨⟨⟨⟨tileElems_inside hK (Nat.dvd_trans hnb hN) (le_pgup _), page_inside (le_pgup _), page_inside (le_pgup _),
      page_inside (le_refl _), allInside_nil⟩, elems_inside hAf⟩, elems_inside hscales⟩, cubeElems_inside hN8 hout⟩,
      elems_inside (le_refl _)⟩, ⟨page_inside hAf, page_inside (le_pgup _), page_inside hout, allInside_nil⟩,
      ⟨surfaces_inside hN8 hout, page_inside hscales, allInside_nil⟩, surfaces_inside hN8 hout⟩

theorem chainF16_inside_iff (h : orkF16NpuChainMmPerchan nmax af M K N = some op) : op.Inside ↔ MmFits 2 af M K N := by
  unfold orkF16NpuChainMmPerchan at h
  split_ifs at h with hr
  obtain rfl := Option.some.inj h
  obtain ⟨hK, hN, -⟩ := mmRefuses_false (by simpa using hr)
  exact chain_inside_iff (by decide) hK hN

theorem chainI16_inside_iff (h : orkI16NpuChainMmPerchan nmax af M K N = some op) : op.Inside ↔ MmFits 1 af M K N := by
  unfold orkI16NpuChainMmPerchan at h
  split_ifs at h with hr
  obtain rfl := Option.some.inj h
  obtain ⟨hK, hN, -⟩ := mmRefuses_false (by simpa using hr)
  exact chain_inside_iff (by decide) hK hN

theorem contig_inside_iff (h : orkF16NpuMulPerchanContig M N = some op) : op.Inside ↔ M * N ≤ 2048 := by
  unfold orkF16NpuMulPerchanContig at h
  split_ifs at h with hr
  obtain rfl := Option.some.inj h
  have hN : 8 ∣ N := by omega
  have hout := (le_atLeastPage 2 M N).trans (le_pgup _)
  have hprogs : AllInside (sdpSize 2 M N) ((List.range (N / 8)).flatMap (notchProgram M N)) ↔
      M * N * 2 ≤ sdpSize 2 M N .B := notchPrograms_inside_iff hN (by omega) hout hout
  have hB : sdpSize 2 M N .B = 4096 := page_fits
  rw [hB] at hprogs
  change AllInside (sdpSize 2 M N) _ ↔ _
  simp only [allInside_append, allInside_cons, hprogs]
  constructor
  · rintro ⟨-, hfits⟩
    omega
  · intro hfits
    have hoperand : M * N * 2 ≤ sdpSize 2 M N .B := by rw [hB]; omega
    exact ⟨⟨⟨⟨⟨⟨page_inside (le_pgup _), page_inside (le_pgup _), page_inside (le_refl _), allInside_nil⟩,
      elems_inside hout⟩, columnMajor_inside hN hoperand⟩, columnMajor_inside hN hout⟩, elems_inside (le_refl _)⟩,
      by omega⟩

theorem requant_inside_iff {mult shift : Int} (h : orkNpuRequantPerchanI32 M N mult shift = some op) :
    op.Inside ↔ N ≤ 2048 := by
  unfold orkNpuRequantPerchanI32 at h
  split_ifs at h with hr hm
  obtain rfl := Option.some.inj h
  have hN : 8 ∣ N := by omega
  have hin4 := (le_atLeastPage 4 M N).trans (le_pgup _)
  have hout := (le_atLeastPage 2 M N).trans (le_pgup _)
  constructor
  · intro hin
    have hB : 0 + N * 2 ≤ pgup 4096 := hin ⟨.B, 0, N * 2⟩ (by simp)
    rw [page_fits] at hB
    omega
  · intro hfits
    have hscales : N * 2 ≤ pgup 4096 := by rw [page_fits]; omega
    change AllInside (sdpSize 4 M N) _
    simp only [allInside_append, allInside_cons]
    exact ⟨⟨⟨⟨⟨⟨page_inside (le_pgup _), page_inside (le_pgup _), page_inside (le_refl _), allInside_nil⟩,
      cubeElems_inside hN hin4⟩, elems_inside hscales⟩, cubeElems_inside hN hout⟩, elems_inside (le_refl _)⟩,
      ⟨surfaces_inside hN hin4, page_inside hscales, allInside_nil⟩, surfaces_inside hN hout⟩

end

theorem exists_outside {f : Option Operator} {P : Prop} (hiff : ∀ op, f = some op → (op.Inside ↔ P))
    (hf : f.isSome = true) (hP : ¬ P) : ∃ op, f = some op ∧ ¬ op.Inside := by
  obtain ⟨op, h⟩ := Option.isSome_iff_exists.mp hf
  exact ⟨op, h, fun hin => hP ((hiff op h).mp hin)⟩

/-- For every shape an operator accepts, and every size of `Af`: everything stays inside its buffer exactly if the operand
fits the one page it is given, and the activations fit `Af`. -/
theorem perchan_inside_iff (nmax af M K N : Nat) (mult shift : Int) :
    (∀ op, orkF16NpuMmPerchanFused nmax af M K N = some op → (op.Inside ↔ N ≤ 2048 ∧ M * K * 2 ≤ af)) ∧
    (∀ op, orkF16NpuChainMmPerchan nmax af M K N = some op → (op.Inside ↔ N ≤ 2048 ∧ M * K * 2 ≤ af)) ∧
    (∀ op, orkI16NpuChainMmPerchan nmax af M K N = some op → (op.Inside ↔ N ≤ 2048 ∧ M * K * 1 ≤ af)) ∧
    (∀ op, orkF16NpuMulPerchanContig M N = some op → (op.Inside ↔ M * N ≤ 2048)) ∧
    ∀ op, orkNpuRequantPerchanI32 M N mult shift = some op → (op.Inside ↔ N ≤ 2048) :=
  ⟨fun _ h => fused_inside_iff h, fun _ h => chainF16_inside_iff h, fun _ h => chainI16_inside_iff h,
    fun _ h => contig_inside_iff h, fun _ h => requant_inside_iff h⟩

theorem perchan_inside_small : ∃ op, orkF16NpuMmPerchanFused 8192 262144 4 64 64 = some op ∧ op.Inside :=
  ⟨_, rfl, ((perchan_inside_iff 8192 262144 4 64 64 1 0).1 _ rfl).mpr ⟨by decide, by decide⟩⟩

/-- Accepted shapes whose operand runs past its page. -/
theorem perchan_outside :
    (∃ op, orkF16NpuMmPerchanFused 8192 262144 1 32 2080 = some op ∧ ¬ op.Inside) ∧
    (∃ op, orkF16NpuChainMmPerchan 8192 262144 1 32 2080 = some op ∧ ¬ op.Inside) ∧
    (∃ op, orkI16NpuChainMmPerchan 8192 262144 1 32 2080 = some op ∧ ¬ op.Inside) ∧
    (∃ op, orkF16NpuMulPerchanContig 64 64 = some op ∧ ¬ op.Inside) ∧
    ∃ op, orkNpuRequantPerchanI32 1 2056 1 0 = some op ∧ ¬ op.Inside :=
  ⟨exists_outside (fun _ h => fused_inside_iff h) rfl fun h => absurd h.1 (by decide),
    exists_outside (fun _ h => chainF16_inside_iff h) rfl fun h => absurd h.1 (by decide),
    exists_outside (fun _ h => chainI16_inside_iff h) rfl fun h => absurd h.1 (by decide),
    exists_outside (fun _ h => contig_inside_iff h) rfl (by decide),
    exists_outside (fun _ h => requant_inside_iff h) rfl (by decide)⟩

end OrkDriver.PerChannel
