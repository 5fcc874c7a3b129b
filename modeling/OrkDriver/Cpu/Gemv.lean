import OrkDriver.Cpu.Dot

/-!
The drivers of `ork_native_cpu.h`: the kernels on four columns, on four rows by four columns, and the loops around them.
-/

namespace OrkDriver.Cpu

open OrkDriver.Lib OrkDriver.Lib.Neon

/-- `ork_cpu_w`. -/
structure OrkCpuW (F : Type) extends Planes where
  fmt : OrkCpuFmt
  bscale : Nat → F
  K : Nat

/-- A pointer moved on by `p`. -/
def ptr (m : Bytes) (p : Nat) : Bytes := fun i => m (p + i)

/-! ### Kernels on several columns -/

/-- The sums of the lanes of several accumulators that go through the blocks together. -/
def blocksX {ι : Type} (n : Nat) (step : (ι → Words) → Nat → ι → Words) (c : ι) : BitVec 32 :=
  vaddvq ((List.range n).foldl step (fun _ _ => 0) c)

/-- `ork_dot_i4_x4`. -/
def orkDotI4X4 (a b : Bytes) (stride K : Nat) : Fin 4 → BitVec 32 :=
  blocksX (K / 32) fun ac i =>
    let av := vld2q a (32 * i)
    fun c => accumulate (ac c) (unpackI4 (vld1q (ptr b (c * stride)) (16 * i))) av

/-- `ork_dot_nf4_x4`. -/
def orkDotNf4X4 (a b : Bytes) (stride : Nat) (lut : Bytes) (K : Nat) : Fin 4 → BitVec 32 :=
  blocksX (K / 32) fun ac i =>
    let av := vld2q a (32 * i)
    fun c => accumulate (ac c) (unpackNf4 lut (vld1q (ptr b (c * stride)) (16 * i))) av

/-- `ork_dot_i8_x4`. -/
def orkDotI8X4 (a b : Bytes) (stride K : Nat) : Fin 4 → BitVec 32 :=
  blocksX (K / 16) fun ac i =>
    let av := vld1q a (16 * i)
    fun c => vdotq (ac c) (vld1q (ptr b (c * stride)) (16 * i)) av

/-- `ork_gemm_i4_4x4` and `ork_gemm_nf4_4x4`: rows by columns. -/
def gemm4x4 (unpack : Bytes → Bytes × Bytes) (b a : Fin 4 → Bytes) (K : Nat) : Fin 4 × Fin 4 → BitVec 32 :=
  blocksX (K / 32) fun ac i =>
    let v := fun c => unpack (vld1q (b c) (16 * i))
    let av := fun r => vld2q (a r) (32 * i)
    fun x => accumulate (ac x) (v x.2) (av x.1)

def orkGemmI44x4 (b a : Fin 4 → Bytes) (K : Nat) : Fin 4 × Fin 4 → BitVec 32 := gemm4x4 unpackI4 b a K

def orkGemmNf44x4 (b a : Fin 4 → Bytes) (lut : Bytes) (K : Nat) : Fin 4 × Fin 4 → BitVec 32 :=
  gemm4x4 (unpackNf4 lut) b a K

/-! ### Drivers -/

section

variable {F : Type}

/-- The `switch` of `ork_cpu_gemv_m1`. -/
def OrkCpuW.dot (w : OrkCpuW F) (A : Bytes) (n : Nat) : BitVec 32 :=
  let nibble := ptr w.nibble (n * (w.K / 2))
  let bit4 := ptr w.bit4 (n * (w.K / 8))
  let bit5 := ptr w.bit5 (n * (w.K / 8))
  let bit6 := ptr w.bit6 (n * (w.K / 8))
  match w.fmt with
  | .i4 => orkDotI4 A nibble w.K
  | .nf4 => orkDotNf4 A nibble w.nf4Lut w.K
  | .i5 => orkDotI5 A nibble bit4 w.K
  | .i6 => orkDotI6 A nibble bit4 bit5 w.K
  | .i7 => orkDotI7 A nibble bit4 bit5 bit6 w.K
  | .i8 => orkDotI8 A (ptr w.i8 (n * w.K)) w.K

/-- The kernel of the fast path, if the format has one. -/
def OrkCpuW.dotX4 (w : OrkCpuW F) (A : Bytes) (n : Nat) : Option (Fin 4 → BitVec 32) :=
  match w.fmt with
  | .i4 => some (orkDotI4X4 A (ptr w.nibble (n * (w.K / 2))) (w.K / 2) w.K)
  | .nf4 => some (orkDotNf4X4 A (ptr w.nibble (n * (w.K / 2))) (w.K / 2) w.nf4Lut w.K)
  | .i8 => some (orkDotI8X4 A (ptr w.i8 (n * w.K)) w.K w.K)
  | _ => none

variable [Mul F] (cast : BitVec 32 → F)

/-- `ascale*w->bscale[n]*(float)d`. -/
def OrkCpuW.dequant (w : OrkCpuW F) (ascale : F) (n : Nat) (d : BitVec 32) : F := ascale * w.bscale n * cast d

local instance neZero_quad : NeZero 4 := ⟨by decide⟩

/-- `out[n]` to `out[n+3]`. -/
def OrkCpuW.put4 (w : OrkCpuW F) (ascale : F) (n : Nat) (d : Fin 4 → BitVec 32) : List (Nat × F) :=
  [(n, w.dequant cast ascale n (d 0)), (n + 1, w.dequant cast ascale (n + 1) (d 1)),
    (n + 2, w.dequant cast ascale (n + 2) (d 2)), (n + 3, w.dequant cast ascale (n + 3) (d 3))]

/-- What `ork_cpu_gemv_m1` stores at `out`. -/
def orkCpuGemvM1 (w : OrkCpuW F) (A : Bytes) (ascale : F) (n0 n1 : Nat) : List (Nat × F) :=
  let fast := if w.fmt = .i4 ∨ w.fmt = .nf4 ∨ w.fmt = .i8 then (n1 - n0) / 4 else 0
  ((List.range fast).flatMap fun b => match w.dotX4 A (n0 + 4 * b) with
    | some d => w.put4 cast ascale (n0 + 4 * b) d
    | none => []) ++
  (List.range' (n0 + 4 * fast) (n1 - n0 - 4 * fast)).map fun n => (n, w.dequant cast ascale n (w.dot A n))

/-- The loops of `ork_cpu_gemm_i4` and `ork_cpu_gemm_nf4` around their kernel; `lda` and `ldo` are the strides of the
rows. -/
def gemmLoops (kernel : (Fin 4 → Bytes) → (Fin 4 → Bytes) → Fin 4 × Fin 4 → BitVec 32) (w : OrkCpuW F) (A : Bytes)
    (lda : Nat) (ascale : Nat → F) (ldo M n0 n1 : Nat) : List (Nat × F) :=
  let row := fun mm (l : List (Nat × F)) => l.map fun s => (mm * ldo + s.1, s.2)
  ((List.range (M / 4)).flatMap fun t =>
    ((List.range ((n1 - n0) / 4)).flatMap fun b =>
      let n := n0 + 4 * b
      let d := kernel (fun c => ptr w.nibble ((n + c) * (w.K / 2))) fun i => ptr A ((4 * t + i) * lda)
      (List.range 4).flatMap fun i => row (4 * t + i) (w.put4 cast (ascale (4 * t + i)) n fun c => d (Fin.ofNat 4 i, c))) ++
    (List.range 4).flatMap fun i => row (4 * t + i) (orkCpuGemvM1 cast w (ptr A ((4 * t + i) * lda)) (ascale (4 * t + i))
      (n0 + 4 * ((n1 - n0) / 4)) n1)) ++
  (List.range' (4 * (M / 4)) (M - 4 * (M / 4))).flatMap fun mm =>
    row mm (orkCpuGemvM1 cast w (ptr A (mm * lda)) (ascale mm) n0 n1)

/-- What `ork_cpu_gemm_i4` stores at `out`. -/
def orkCpuGemmI4 (w : OrkCpuW F) (A : Bytes) (lda : Nat) (ascale : Nat → F) (ldo M n0 n1 : Nat) : List (Nat × F) :=
  gemmLoops cast (fun b a => orkGemmI44x4 b a w.K) w A lda ascale ldo M n0 n1

/-- What `ork_cpu_gemm_nf4` stores at `out`. -/
def orkCpuGemmNf4 (w : OrkCpuW F) (A : Bytes) (lda : Nat) (ascale : Nat → F) (ldo M n0 n1 : Nat) : List (Nat × F) :=
  gemmLoops cast (fun b a => orkGemmNf44x4 b a w.nf4Lut w.K) w A lda ascale ldo M n0 n1

/-! ### The kernels agree -/

theorem ptr_ptr (m : Bytes) (p q : Nat) : ptr (ptr m p) q = ptr m (p + q) := by
  funext i
  exact congrArg m (Nat.add_assoc p q i).symm

theorem ptr_column (m : Bytes) (n c stride : Nat) : ptr (ptr m (n * stride)) (c * stride) = ptr m ((n + c) * stride) := by
  rw [ptr_ptr, Nat.add_mul]

theorem blocksX_eq {ι : Type} (n : Nat) {step : (ι → Words) → Nat → ι → Words} (f : ι → Words → Nat → Words)
    (h : ∀ s i c, step s i c = f c (s c) i) (c : ι) : blocksX n step c = blocks n (f c) := by
  obtain rfl : step = fun s i c => f c (s c) i := by
    funext s i c
    exact h s i c
  unfold blocksX blocks
  rw [foldl_pointwise f]

theorem orkDotI4X4_eq (a b : Bytes) (stride K : Nat) (c : Fin 4) :
    orkDotI4X4 a b stride K c = orkDotI4 a (ptr b (c * stride)) K := by
  unfold orkDotI4X4 orkDotI4
  apply blocksX_eq (K / 32) fun (c : Fin 4) ac i =>
    accumulate ac (unpackI4 (vld1q (ptr b (c * stride)) (16 * i))) (vld2q a (32 * i))
  exact fun _ _ _ => rfl

theorem orkDotNf4X4_eq (a b : Bytes) (stride : Nat) (lut : Bytes) (K : Nat) (c : Fin 4) :
    orkDotNf4X4 a b stride lut K c = orkDotNf4 a (ptr b (c * stride)) lut K := by
  unfold orkDotNf4X4 orkDotNf4
  apply blocksX_eq (K / 32) fun (c : Fin 4) ac i =>
    accumulate ac (unpackNf4 lut (vld1q (ptr b (c * stride)) (16 * i))) (vld2q a (32 * i))
  exact fun _ _ _ => rfl

theorem orkDotI8X4_eq (a b : Bytes) (stride K : Nat) (c : Fin 4) :
    orkDotI8X4 a b stride K c = orkDotI8 a (ptr b (c * stride)) K := by
  unfold orkDotI8X4 orkDotI8
  apply blocksX_eq (K / 16) fun (c : Fin 4) ac i => vdotq ac (vld1q (ptr b (c * stride)) (16 * i)) (vld1q a (16 * i))
  exact fun _ _ _ => rfl

theorem gemm4x4_eq (unpack : Bytes → Bytes × Bytes) (b a : Fin 4 → Bytes) (K : Nat) (x : Fin 4 × Fin 4) :
    gemm4x4 unpack b a K x = blocks (K / 32) fun ac i => accumulate ac (unpack (vld1q (b x.2) (16 * i)))
      (vld2q (a x.1) (32 * i)) := by
  unfold gemm4x4
  apply blocksX_eq (K / 32) fun (x : Fin 4 × Fin 4) ac i =>
    accumulate ac (unpack (vld1q (b x.2) (16 * i))) (vld2q (a x.1) (32 * i))
  exact fun _ _ _ => rfl

omit [Mul F] in
theorem OrkCpuW.dotX4_eq (w : OrkCpuW F) (A : Bytes) (n : Nat) {d : Fin 4 → BitVec 32} (h : w.dotX4 A n = some d)
    (c : Fin 4) : d c = w.dot A (n + c) := by
  unfold dotX4 at h
  unfold dot
  cases hf : w.fmt with
  | i4 =>
      rw [hf] at h
      obtain rfl := Option.some.inj h
      dsimp only
      rw [orkDotI4X4_eq, ptr_column]
  | nf4 =>
      rw [hf] at h
      obtain rfl := Option.some.inj h
      dsimp only
      rw [orkDotNf4X4_eq, ptr_column]
  | i8 =>
      rw [hf] at h
      obtain rfl := Option.some.inj h
      dsimp only
      rw [orkDotI8X4_eq, ptr_column]
  | i5 => rw [hf] at h; cases h
  | i6 => rw [hf] at h; cases h
  | i7 => rw [hf] at h; cases h

omit [Mul F] in
theorem OrkCpuW.exists_dotX4 (w : OrkCpuW F) (h : w.fmt = .i4 ∨ w.fmt = .nf4 ∨ w.fmt = .i8) (A : Bytes) (n : Nat) :
    ∃ d, w.dotX4 A n = some d := by
  unfold dotX4
  rcases h with h | h | h <;> rw [h] <;> exact ⟨_, rfl⟩

/-! ### The drivers agree with the scalar kernel -/

/-- `out[n]` as the scalar kernel gives it. -/
def OrkCpuW.cell (w : OrkCpuW F) (A : Bytes) (ascale : F) (n : Nat) : Nat × F :=
  (n, w.dequant cast ascale n (w.dot A n))

theorem OrkCpuW.put4_eq (w : OrkCpuW F) (A : Bytes) (ascale : F) (n : Nat) {d : Fin 4 → BitVec 32}
    (h : ∀ c : Fin 4, d c = w.dot A (n + c)) :
    w.put4 cast ascale n d = (List.range' n 4).flatMap fun m => [w.cell cast A ascale m] := by
  unfold put4
  rw [h 0, h 1, h 2, h 3]
  rfl

theorem orkCpuGemvM1_eq (w : OrkCpuW F) (A : Bytes) (ascale : F) (n0 n1 : Nat) :
    orkCpuGemvM1 cast w A ascale n0 n1 = (List.range' n0 (n1 - n0)).flatMap fun n => [w.cell cast A ascale n] := by
  unfold orkCpuGemvM1
  dsimp only
  rw [List.map_eq_flatMap]
  by_cases hfast : w.fmt = .i4 ∨ w.fmt = .nf4 ∨ w.fmt = .i8
  · rw [if_pos hfast, ← flatMap_blocks (fun n => [w.cell cast A ascale n]) n0 4 (n1 - n0)]
    congr 1
    apply List.flatMap_congr
    intro b _
    obtain ⟨d, hd⟩ := w.exists_dotX4 hfast A (n0 + 4 * b)
    rw [hd]
    exact w.put4_eq cast A ascale _ (w.dotX4_eq A _ hd)
  · rw [if_neg hfast]
    rfl

/-- Row `mm` of the output. -/
def OrkCpuW.rowStores (w : OrkCpuW F) (A : Bytes) (lda : Nat) (ascale : Nat → F) (ldo mm n0 n : Nat) : List (Nat × F) :=
  (List.range' n0 n).flatMap fun n =>
    [(mm * ldo + n, w.dequant cast (ascale mm) n (w.dot (ptr A (mm * lda)) n))]

theorem map_flatMap_cell (w : OrkCpuW F) (A : Bytes) (lda : Nat) (ascale : Nat → F) (ldo mm n0 n : Nat) :
    (((List.range' n0 n).flatMap fun n => [w.cell cast (ptr A (mm * lda)) (ascale mm) n]).map fun s =>
      (mm * ldo + s.1, s.2)) = w.rowStores cast A lda ascale ldo mm n0 n := by
  rw [List.map_flatMap]
  rfl

theorem range4_flatMap {α : Type*} (f : Nat → List α) (a : Nat) :
    ((List.range 4).flatMap fun i => f (a + i)) = (List.range' a 4).flatMap f := by
  rw [List.range'_eq_map_range, List.flatMap_map]

/-- Every cell of the block gets the value of the scalar kernel once. -/
theorem gemmLoops_perm {kernel : (Fin 4 → Bytes) → (Fin 4 → Bytes) → Fin 4 × Fin 4 → BitVec 32} {w : OrkCpuW F}
    {A : Bytes} (lda : Nat) (hkernel : ∀ n mm i c, kernel (fun c => ptr w.nibble ((n + c) * (w.K / 2)))
      (fun i => ptr A ((mm + i) * lda)) (i, c) = w.dot (ptr A ((mm + i) * lda)) (n + c)) (ascale : Nat → F)
    (ldo M n0 n1 : Nat) : (gemmLoops cast kernel w A lda ascale ldo M n0 n1).Perm
      ((List.range' 0 M).flatMap fun mm => w.rowStores cast A lda ascale ldo mm n0 (n1 - n0)) := by
  have hblock : ∀ t b i, i < 4 → ((w.put4 cast (ascale (4 * t + i)) (n0 + 4 * b) fun c =>
      kernel (fun c => ptr w.nibble ((n0 + 4 * b + c) * (w.K / 2))) (fun i => ptr A ((4 * t + i) * lda))
        (Fin.ofNat 4 i, c)).map fun s => ((4 * t + i) * ldo + s.1, s.2)) =
      w.rowStores cast A lda ascale ldo (4 * t + i) (n0 + 4 * b) 4 := by
    intro t b i hi
    have hval : (Fin.ofNat 4 i : Fin 4).val = i := Nat.mod_eq_of_lt hi
    rw [w.put4_eq cast (ptr A ((4 * t + i) * lda)), map_flatMap_cell]
    intro c
    rw [hkernel, hval]
  have hrows : ∀ t, (((List.range ((n1 - n0) / 4)).flatMap fun b => (List.range 4).flatMap fun i =>
      (w.put4 cast (ascale (4 * t + i)) (n0 + 4 * b) fun c =>
        kernel (fun c => ptr w.nibble ((n0 + 4 * b + c) * (w.K / 2))) (fun i => ptr A ((4 * t + i) * lda))
          (Fin.ofNat 4 i, c)).map fun s => ((4 * t + i) * ldo + s.1, s.2)) ++
      (List.range 4).flatMap fun i => (orkCpuGemvM1 cast w (ptr A ((4 * t + i) * lda)) (ascale (4 * t + i))
        (n0 + 4 * ((n1 - n0) / 4)) n1).map fun s => ((4 * t + i) * ldo + s.1, s.2)).Perm
      ((List.range' (0 + 4 * t) 4).flatMap fun mm => w.rowStores cast A lda ascale ldo mm n0 (n1 - n0)) := by
    intro t
    have hrem : ∀ i, ((orkCpuGemvM1 cast w (ptr A ((4 * t + i) * lda)) (ascale (4 * t + i))
        (n0 + 4 * ((n1 - n0) / 4)) n1).map fun s => ((4 * t + i) * ldo + s.1, s.2)) =
        w.rowStores cast A lda ascale ldo (4 * t + i) (n0 + 4 * ((n1 - n0) / 4)) (n1 - n0 - 4 * ((n1 - n0) / 4)) := by
      intro i
      rw [orkCpuGemvM1_eq, map_flatMap_cell, Nat.sub_add_eq]
    rw [← range4_flatMap, Nat.zero_add]
    refine ((flatMap_flatMap_perm _ _ _).append_right _).trans ?_
    refine (List.flatMap_append_perm _ _ _).trans (List.Perm.of_eq ?_)
    apply List.flatMap_congr
    intro i hi
    have hi := List.mem_range.mp hi
    rw [hrem, List.flatMap_congr fun b _ => hblock t b i hi]
    exact flatMap_blocks _ n0 4 (n1 - n0)
  unfold gemmLoops
  dsimp only
  rw [← flatMap_blocks _ 0 4 M]
  refine List.Perm.append (List.Perm.flatMap_left _ fun t _ => hrows t) (List.Perm.of_eq ?_)
  rw [Nat.zero_add]
  apply List.flatMap_congr
  intro mm _
  rw [orkCpuGemvM1_eq, map_flatMap_cell]

/-- The output one scalar kernel call a cell gives. -/
def OrkCpuW.gemm (w : OrkCpuW F) (A : Bytes) (lda : Nat) (ascale : Nat → F) (ldo M n0 n1 : Nat) : List (Nat × F) :=
  (List.range' 0 M).flatMap fun mm => w.rowStores cast A lda ascale ldo mm n0 (n1 - n0)

theorem orkCpuGemmI4_perm {w : OrkCpuW F} (hf : w.fmt = .i4) (A : Bytes) (lda : Nat) (ascale : Nat → F)
    (ldo M n0 n1 : Nat) :
    (orkCpuGemmI4 cast w A lda ascale ldo M n0 n1).Perm (w.gemm cast A lda ascale ldo M n0 n1) := by
  apply gemmLoops_perm
  intro n mm i c
  unfold orkGemmI44x4 OrkCpuW.dot
  rw [gemm4x4_eq, hf]
  rfl

theorem orkCpuGemmNf4_perm {w : OrkCpuW F} (hf : w.fmt = .nf4) (A : Bytes) (lda : Nat) (ascale : Nat → F)
    (ldo M n0 n1 : Nat) :
    (orkCpuGemmNf4 cast w A lda ascale ldo M n0 n1).Perm (w.gemm cast A lda ascale ldo M n0 n1) := by
  apply gemmLoops_perm
  intro n mm i c
  unfold orkGemmNf44x4 OrkCpuW.dot
  rw [gemm4x4_eq, hf]
  rfl

/-- Where rows do not overlap, the order of the stores does not show. -/
theorem stores_gemm {w : OrkCpuW F} {A : Bytes} {lda : Nat} {ascale : Nat → F} {ldo M n0 n1 : Nat} (h : n1 ≤ n0 + ldo)
    {l : List (Nat × F)} (hl : l.Perm (w.gemm cast A lda ascale ldo M n0 n1)) (out : Nat → F) :
    stores out l = stores out (w.gemm cast A lda ascale ldo M n0 n1) := by
  refine stores.perm out hl fun x hx y hy heq => ?_
  have hcell : ∀ z ∈ l, ∃ mm n, n0 ≤ n ∧ n < n1 ∧
      z = (mm * ldo + n, w.dequant cast (ascale mm) n (w.dot (ptr A (mm * lda)) n)) := by
    intro z hz
    obtain ⟨mm, -, hz⟩ := List.mem_flatMap.mp (hl.mem_iff.mp hz)
    obtain ⟨n, hn, hz⟩ := List.mem_flatMap.mp hz
    have hn := List.mem_range'_1.mp hn
    exact ⟨mm, n, hn.1, by omega, List.mem_singleton.mp hz⟩
  obtain ⟨mm, n, hlo, hhi, rfl⟩ := hcell x hx
  obtain ⟨mm', n', hlo', hhi', rfl⟩ := hcell y hy
  have hcells : mm' * ldo + (n' - n0) = mm * ldo + (n - n0) := by
    dsimp only at heq
    omega
  obtain ⟨rfl, hcol⟩ := digits_inj (by omega) (by omega) hcells
  obtain rfl : n' = n := by omega
  rfl

end

end OrkDriver.Cpu
