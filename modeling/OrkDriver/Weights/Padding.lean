import OrkDriver.Run.Consolidated
import OrkDriver.Weights.Bounds

/-!
Page padding: how the bytes a weight is padded to compare for two ways of cutting it.
-/

namespace OrkDriver.Weights

open OrkDriver.Lib (pieces pieceLen pieceLen_le_size sum_pieceLen dvd_pieceLen total)
open OrkDriver.Mem (orkiPgup)
open OrkDriver.Npu (socTable)
open OrkDriver.Pack (Dt Geom)

/-! ### Padded sums -/

theorem le_orkiPgup {n : Nat} (h : n + 4095 < 2 ^ 64) : n ≤ orkiPgup n := by
  unfold orkiPgup
  rw [Nat.mod_eq_of_lt h]
  omega

theorem orkiPgup_le (n : Nat) : orkiPgup n ≤ n + 4095 := by
  unfold orkiPgup
  have := Nat.mod_le (n + 4095) (2 ^ 64)
  omega

theorem paged_cons (n : Nat) (l : List Nat) : paged (n :: l) = orkiPgup n + paged l := rfl

theorem sum_le_paged {l : List Nat} (h : ∀ n ∈ l, n + 4095 < 2 ^ 64) : l.sum ≤ paged l := by
  induction l with
  | nil => exact le_rfl
  | cons n l ih =>
      rw [List.sum_cons, paged_cons]
      exact Nat.add_le_add (le_orkiPgup (h n List.mem_cons_self)) (ih fun m hm => h m (List.mem_cons_of_mem n hm))

theorem paged_le (l : List Nat) : paged l ≤ l.sum + 4095 * l.length := by
  induction l with
  | nil => exact le_rfl
  | cons n l ih =>
      have := orkiPgup_le n
      rw [List.sum_cons, List.length_cons, paged_cons]
      omega

/-- Every buffer is at least a page. -/
theorem length_le_paged {l : List Nat} (h : ∀ n ∈ l, 0 < n ∧ n + 4095 < 2 ^ 64) : 4096 * l.length ≤ paged l := by
  induction l with
  | nil => exact le_rfl
  | cons n l ih =>
      have hrest := ih fun m hm => h m (List.mem_cons_of_mem n hm)
      obtain ⟨hpos, hfit⟩ := h n List.mem_cons_self
      have hpage : 4096 ≤ orkiPgup n := by
        unfold orkiPgup
        rw [Nat.mod_eq_of_lt hfit]
        omega
      rw [List.length_cons, paged_cons]
      omega

/-! ### The tiles of a weight -/

section

variable {g : Geom}

theorem tileBytes_sum (hKS : 0 < g.KS) (hNMAX : 0 < g.NMAX) (num : Nat) : (tileBytes g num 1).sum = g.K * g.N * num := by
  have harea : (g.tiles.map fun t => t.Kp * t.Nc).sum = g.K * g.N := Run.total_area hKS hNMAX
  unfold tileBytes
  simp only [Nat.div_one]
  rw [List.sum_map_mul_right, harea]

/-- Half a byte for each element. -/
theorem two_mul_tileBytes (hKS : 0 < g.KS) (hNMAX : 0 < g.NMAX) (heven : ∀ t ∈ g.tiles, 2 ∣ t.Kp * t.Nc) :
    2 * (tileBytes g 1 2).sum = g.K * g.N := by
  have harea : (g.tiles.map fun t => t.Kp * t.Nc).sum = g.K * g.N := Run.total_area hKS hNMAX
  unfold tileBytes
  rw [← List.sum_map_mul_left, ← harea]
  refine congrArg List.sum (List.map_congr_left fun t ht => ?_)
  rw [Nat.mul_one]
  exact Nat.mul_div_cancel' (heven t ht)

theorem tileBytes_length (num den : Nat) : (tileBytes g num den).length = pieces g.N g.NMAX * pieces g.K g.KS := by
  unfold tileBytes
  rw [List.length_map]
  unfold Geom.tiles Geom.tileRow
  simp [List.length_flatMap, Geom.Sn, Geom.Sk]

/-- A tile is no larger than its cut. -/
theorem tileBytes_bound {num den n : Nat} (h : n ∈ tileBytes g num den) : n ≤ g.KS * g.NMAX * num := by
  obtain ⟨t, ht, rfl⟩ := List.mem_map.mp h
  obtain ⟨ns, ks, -, -, rfl⟩ := Geom.mem_tiles.mp ht
  refine (Nat.div_le_self _ _).trans (Nat.mul_le_mul_right num ?_)
  exact Nat.mul_le_mul pieceLen_le_size pieceLen_le_size

theorem bfBytes_sum (hNMAX : 0 < g.NMAX) : (bfBytes g).sum = g.K * g.N := by
  unfold bfBytes
  rw [List.sum_map_mul_left]
  exact congrArg (g.K * ·) (sum_pieceLen hNMAX)

theorem bfBytes_bound {n : Nat} (h : n ∈ bfBytes g) : n ≤ g.K * g.NMAX := by
  obtain ⟨ns, -, rfl⟩ := List.mem_map.mp h
  exact Nat.mul_le_mul_left _ pieceLen_le_size

theorem bfBytes_length : (bfBytes g).length = pieces g.N g.NMAX := by
  unfold bfBytes
  rw [List.length_map, List.length_range]
  rfl

end

/-- The slices of the rescue tiles cover the weight. -/
theorem slices_area {K N ks ns : Nat} (hks : 0 < ks) (hns : 0 < ns) : ((slices K N ks ns).map fun d => d.1 * d.2).sum = K * N := by
  have hrow : ∀ ki, ((List.range (pieces N ns)).map fun ni => pieceLen K ks ki * pieceLen N ns ni).sum = pieceLen K ks ki * N := by
    intro ki
    rw [List.sum_map_mul_left]
    exact congrArg (pieceLen K ks ki * ·) (sum_pieceLen hns)
  unfold slices
  rw [List.map_flatMap, List.flatMap, List.sum_flatten, List.map_map]
  simp only [Function.comp_def, List.map_map]
  rw [List.map_congr_left fun ki _ => hrow ki, List.sum_map_mul_right]
  exact congrArg (· * N) (sum_pieceLen hks)

theorem mem_slices {K N ks ns : Nat} {d : Nat × Nat} (h : d ∈ slices K N ks ns) : ∃ ki < pieces K ks, ∃ ni < pieces N ns,
    d = (pieceLen K ks ki, pieceLen N ns ni) := by
  obtain ⟨ki, hki, hd⟩ := List.mem_flatMap.mp h
  obtain ⟨ni, hni, rfl⟩ := List.mem_map.mp hd
  exact ⟨ki, List.mem_range.mp hki, ni, List.mem_range.mp hni, rfl⟩

/-! ### int8 weights -/

variable {p : Packer} {K N : Nat}

theorem le_tiled8 (hsoc : p.npu.soc ∈ socTable) (K N : Nat) : K * N ≤ tiled8 p K N := by
  have hn : p.npu.soc.nmax = 8192 := Pack.socTable_nmax hsoc
  have hsum : (tileBytes (i8Geom p K N) 1 1).sum = K * N * 1 := by
    refine tileBytes_sum (g := i8Geom p K N) (Nat.zero_lt_succ 1023) ?_ 1
    change 0 < p.npu.soc.nmax
    omega
  rw [Nat.mul_one] at hsum
  rw [← hsum]
  refine sum_le_paged fun n h => ?_
  have hle : n ≤ 1024 * p.npu.soc.nmax * 1 := tileBytes_bound h
  rw [hn] at hle
  omega

theorem le_full8 (hsoc : p.npu.soc ∈ socTable) (hK : K ≤ 10752) : K * N ≤ full8 p K N := by
  have hn : p.npu.soc.nmax = 8192 := Pack.socTable_nmax hsoc
  have hsum : (bfBytes (i8Geom p K N)).sum = K * N := by
    refine bfBytes_sum (g := i8Geom p K N) ?_
    change 0 < p.npu.soc.nmax
    omega
  rw [← hsum]
  refine sum_le_paged fun n h => ?_
  have hle : n ≤ K * p.npu.soc.nmax := bfBytes_bound h
  have hmul : K * p.npu.soc.nmax ≤ 10752 * 8192 := by
    rw [hn]
    exact Nat.mul_le_mul_right _ hK
  omega

/-- Without `ORK_KTILE` the tiles of a packed weight are those of a loaded one. -/
theorem packTiled_eq (hks : p.npu.int8Ks = 1024) (K N : Nat) : packTiled p .i8 K N = tiled8 p K N := by
  unfold packTiled tiled8 Run.weightGeom i8Geom
  rw [if_neg (by decide), hks]
  rfl

theorem le_packAll (hsoc : p.npu.soc ∈ socTable) (hks : p.npu.int8Ks = 1024) (hK : K ≤ 10752) :
    K * N * (if wantsBf p .i8 K then 2 else 1) ≤ packAll p .i8 K N := by
  have htiles := le_tiled8 hsoc K N
  have hfull := le_full8 (N := N) hsoc hK
  unfold packAll
  rw [packTiled_eq hks]
  split <;> omega

theorem i8SliceNs_pos (p : Packer) (N : Nat) : 0 < i8SliceNs p N := by
  exact lt_of_lt_of_le (Nat.zero_lt_succ 31) (le_max_right _ _)

/-- The rescue tiles hold every element once, and a second time where they have full-K copies. -/
theorem le_i8Rescue (hsoc : p.npu.soc ∈ socTable) (hks : p.npu.int8Ks = 1024) {c : Nat}
    (hc : ∀ Ks ≤ 4096, c ≤ if wantsBf p .i8 Ks then 2 else 1) (K N : Nat) : K * N * c ≤ i8Rescue p K N := by
  have harea := slices_area (K := (K + 511) / 512 * 512) (N := N) (Nat.zero_lt_succ 4095) (i8SliceNs_pos p N)
  have hpad : K ≤ (K + 511) / 512 * 512 := by omega
  calc K * N * c ≤ ((i8Slices p K N).map fun d => d.1 * d.2).sum * c := by
        unfold i8Slices
        rw [harea]
        exact Nat.mul_le_mul_right c (Nat.mul_le_mul_right N hpad)
    _ = ((i8Slices p K N).map fun d => d.1 * d.2 * c).sum := (List.sum_map_mul_right ..).symm
    _ ≤ i8Rescue p K N := by
        refine List.sum_le_sum fun d hd => ?_
        obtain ⟨ki, -, ni, -, rfl⟩ := mem_slices hd
        have hKs : pieceLen ((K + 511) / 512 * 512) 4096 ki ≤ 4096 := pieceLen_le_size
        exact (Nat.mul_le_mul_left _ (hc _ hKs)).trans (le_packAll hsoc hks (by omega))

theorem full8_lt (hsoc : p.npu.soc ∈ socTable) (hK : 32 ≤ K) (hN : 8192 < N) : full8 p K N < K * N * 2 := by
  have hn : p.npu.soc.nmax = 8192 := Pack.socTable_nmax hsoc
  have hsum : (bfBytes (i8Geom p K N)).sum = K * N := by
    refine bfBytes_sum (g := i8Geom p K N) ?_
    change 0 < p.npu.soc.nmax
    omega
  have hlen : (bfBytes (i8Geom p K N)).length = (N + 8192 - 1) / 8192 := by
    rw [bfBytes_length]
    change pieces N p.npu.soc.nmax = _
    rw [hn]
    rfl
  have hle := paged_le (bfBytes (i8Geom p K N))
  rw [hsum, hlen] at hle
  have hmul : 32 * N ≤ K * N := Nat.mul_le_mul_right N hK
  unfold full8
  omega

/-- Without `ORK_KTILE`, what a packed int8 weight takes is covered exactly if no rescue tiles are built for it. -/
theorem packed8_le_iff (hsoc : p.npu.soc ∈ socTable) (hks : p.npu.int8Ks = 1024) (hset : p.k.ktileSet = false)
    (hK : K % 32 = 0) : (∀ bf : Bool, (bf = true → wantsBf p .i8 K = true) → packed8 p K N bf ≤ tiled8 p K N + counted p K N) ↔
      p.k.noSliceRescue = true ∨ K = 0 ∨ N = 0 ∨ N ≤ p.npu.soc.nmax ∧ p.k.sliceAll = false := by
  have hn : p.npu.soc.nmax = 8192 := Pack.socTable_nmax hsoc
  have hwant : wantsBf p .i8 K = true ↔ K ≤ 10752 ∧ p.k.noBf = false := by
    unfold wantsBf
    rw [decide_eq_true_eq, hset]
    exact ⟨fun h => ⟨h.2.1, h.2.2.1⟩, fun h => ⟨rfl, h.1, h.2, fun hk => Bool.false_ne_true hk.2⟩⟩
  have hslices : 1 < pieces N p.npu.soc.nmax ↔ 8192 < N := by
    rw [hn, Lib.lt_pieces_iff (Nat.zero_lt_succ 8191), Nat.one_mul]
  constructor
  · intro hall
    by_contra hno
    have hrescue : p.k.noSliceRescue = false := Bool.eq_false_iff.mpr fun h => hno (Or.inl h)
    have hKpos : 0 < K := Nat.pos_of_ne_zero fun h => hno (Or.inr (Or.inl h))
    have hNpos : 0 < N := Nat.pos_of_ne_zero fun h => hno (Or.inr (Or.inr (Or.inl h)))
    have hwide : 8192 < N ∨ p.k.sliceAll = true := by
      by_contra h
      rw [not_or, Bool.not_eq_true] at h
      exact hno (Or.inr (Or.inr (Or.inr ⟨by omega, h.2⟩)))
    have hR : 0 < i8Rescue p K N := by
      have hone := le_i8Rescue hsoc hks (c := 1) (fun Ks _ => by split <;> decide) K N
      exact lt_of_lt_of_le (Nat.mul_pos (Nat.mul_pos hKpos hNpos) Nat.one_pos) hone
    have hres : ∀ bf : Bool, (8192 < N ∧ (4096 < K ∨ bf = false) ∨ p.k.sliceAll = true) → i8Rescues p K N bf = true :=
      fun bf h => decide_eq_true ⟨⟨hrescue, h.imp_left fun h => ⟨hslices.mpr h.1, h.2⟩⟩, hKpos, hNpos⟩
    have hbytes : ∀ bf : Bool, i8Rescues p K N bf = true → packed8 p K N bf =
        tiled8 p K N + (if bf then full8 p K N else 0) + i8Rescue p K N := by
      intro bf h
      unfold packed8
      rw [if_pos h, packTiled_eq hks]
    by_cases hw : K ≤ 10752 ∧ p.k.noBf = false
    · have hcount : counted p K N = full8 p K N := if_pos hw
      by_cases hbig : 4096 < K ∨ p.k.sliceAll = true
      · -- the full-K copy is there, and the rescue tiles as well
        have hr := hres true (hwide.elim (fun hN => hbig.imp (fun hK => ⟨hN, Or.inl hK⟩) id) Or.inr)
        have hle := hall true fun _ => hwant.mpr hw
        rw [hbytes true hr, hcount, if_pos rfl] at hle
        omega
      · -- the kernel refuses the full-K copy, and the rescue tiles are larger
        rw [not_or] at hbig
        have hN := hwide.resolve_right hbig.2
        have hle := hall false nofun
        have htwo := le_i8Rescue hsoc hks (c := 2) (fun Ks hKs => ?_) K N
        · have hlt := full8_lt (K := K) hsoc (by omega) hN
          rw [hbytes false (hres false (Or.inl ⟨hN, Or.inr rfl⟩)), hcount, if_neg Bool.false_ne_true] at hle
          omega
        · rw [if_pos]
          unfold wantsBf
          rw [decide_eq_true_eq, hset]
          exact ⟨rfl, by omega, hw.2, fun hk => Bool.false_ne_true hk.2⟩
    · have hcount : counted p K N = 0 := if_neg hw
      have hle := hall false nofun
      rw [hbytes false (hres false (hwide.imp_left fun hN => ⟨hN, Or.inr rfl⟩)), hcount, if_neg Bool.false_ne_true] at hle
      omega
  · intro hno bf hbf
    have hres : ¬ i8Rescues p K N bf = true := by
      unfold i8Rescues
      rw [decide_eq_true_eq]
      rintro ⟨⟨h, hor⟩, hKpos, hNpos⟩
      rcases hno with hno | rfl | rfl | ⟨hle, hslice⟩
      · exact Bool.false_ne_true (h.symm.trans hno)
      · exact Nat.lt_irrefl 0 hKpos
      · exact Nat.lt_irrefl 0 hNpos
      · rcases hor with hor | hor
        · have := hslices.mp hor.1
          omega
        · exact Bool.false_ne_true (hslice.symm.trans hor)
    unfold packed8
    rw [if_neg hres, Nat.add_zero, packTiled_eq hks]
    refine Nat.add_le_add_left ?_ _
    by_cases h : bf = true
    · rw [if_pos h]
      exact (if_pos (hwant.mp (hbf h)) : counted p K N = _).ge
    · rw [if_neg h]
      exact Nat.zero_le _

/-! ### int4 weights -/

theorem i4Rescue_pos (hsoc : p.npu.soc ∈ socTable) (hK : 0 < K) (hN : 0 < N) : 0 < i4Rescue p K N := by
  have hn : p.npu.soc.nmax = 8192 := Pack.socTable_nmax hsoc
  let d : Nat × Nat := (pieceLen ((K + 31) / 32 * 32) 8192 0, pieceLen N 8192 0)
  have hd : d ∈ i4Slices K N := by
    refine List.mem_flatMap.mpr ⟨0, List.mem_range.mpr ?_, List.mem_map.mpr ⟨0, List.mem_range.mpr ?_, rfl⟩⟩
    · exact (Lib.lt_pieces_iff (Nat.zero_lt_succ 8191)).mpr (by omega)
    · exact (Lib.lt_pieces_iff (Nat.zero_lt_succ 8191)).mpr (by omega)
  have hd1 : 32 ∣ d.1 ∧ 0 < d.1 := by
    refine ⟨dvd_pieceLen (Dvd.intro_left _ rfl) (by decide), ?_⟩
    exact Lib.pieceLen_pos (Nat.zero_lt_succ 8191) ((Lib.lt_pieces_iff (Nat.zero_lt_succ 8191)).mpr (by omega))
  have hd2 : 0 < d.2 :=
    Lib.pieceLen_pos (Nat.zero_lt_succ 8191) ((Lib.lt_pieces_iff (Nat.zero_lt_succ 8191)).mpr (by omega))
  have hpos : ∀ n ∈ tileBytes (i4Geom p d.1 d.2) 1 2, 0 < n ∧ n + 4095 < 2 ^ 64 := by
    intro n h
    have hle : n ≤ 10752 * p.npu.soc.nmax * 1 := tileBytes_bound h
    rw [hn] at hle
    refine ⟨?_, by omega⟩
    obtain ⟨t, ht, rfl⟩ := List.mem_map.mp h
    obtain ⟨ns, ks, hns, hks, rfl⟩ := Geom.mem_tiles.mp ht
    have hKp : 0 < pieceLen d.1 10752 ks := Lib.pieceLen_pos (Nat.zero_lt_succ 10751) hks
    have hKp' : 32 ∣ pieceLen d.1 10752 ks := dvd_pieceLen hd1.1 (by decide)
    have hNc : 0 < pieceLen d.2 p.npu.soc.nmax ns := Lib.pieceLen_pos (by omega) hns
    have hprod : 32 * 1 ≤ pieceLen d.1 10752 ks * pieceLen d.2 p.npu.soc.nmax ns :=
      Nat.mul_le_mul (Nat.le_of_dvd hKp hKp') hNc
    change 0 < pieceLen d.1 10752 ks * pieceLen d.2 p.npu.soc.nmax ns * 1 / 2
    omega
  have htiles : 0 < tiled4 p d.1 d.2 := by
    refine lt_of_lt_of_le (Nat.mul_pos (Nat.zero_lt_succ 4095) ?_) (length_le_paged hpos)
    rw [tileBytes_length]
    refine Nat.mul_pos ((Lib.lt_pieces_iff ?_).mpr ?_) ((Lib.lt_pieces_iff (Nat.zero_lt_succ 10751)).mpr ?_)
    · change 0 < p.npu.soc.nmax
      omega
    · rwa [Nat.zero_mul]
    · rw [Nat.zero_mul]
      exact hd1.2
  exact lt_of_lt_of_le htiles (List.single_le_sum (fun x _ => Nat.zero_le x) _ (List.mem_map.mpr ⟨d, hd, rfl⟩))

theorem packed4_le_iff (hsoc : p.npu.soc ∈ socTable) :
    packed4 p K N ≤ tiled4 p K N ↔ p.k.noSliceRescue = true ∨ K = 0 ∨ N = 0 ∨
      N ≤ p.npu.soc.nmax ∧ K ≤ 8192 ∧ p.k.sliceAll = false := by
  have hn : p.npu.soc.nmax = 8192 := Pack.socTable_nmax hsoc
  have hslices : 1 < pieces N p.npu.soc.nmax ↔ ¬ N ≤ p.npu.soc.nmax := by
    rw [Lib.lt_pieces_iff (by omega), Nat.one_mul, Nat.not_le]
  have hres : i4Rescues p K N = true ↔ ¬ (p.k.noSliceRescue = true ∨ K = 0 ∨ N = 0 ∨
      N ≤ p.npu.soc.nmax ∧ K ≤ 8192 ∧ p.k.sliceAll = false) := by
    unfold i4Rescues
    rw [decide_eq_true_eq, hslices, not_or, not_or, not_or, Bool.not_eq_true, not_and_or, not_and_or, Nat.pos_iff_ne_zero,
      Nat.pos_iff_ne_zero, Nat.not_le (a := K), Bool.not_eq_false]
    exact ⟨fun h => ⟨h.1.1, h.2.1, h.2.2, h.1.2⟩, fun h => ⟨⟨h.1, h.2.2.2⟩, h.2.1, h.2.2.1⟩⟩
  unfold packed4
  by_cases h : i4Rescues p K N = true
  · have hpos : K ≠ 0 ∧ N ≠ 0 := by
      have := hres.mp h
      omega
    have hR := i4Rescue_pos (K := K) (N := N) hsoc (Nat.pos_of_ne_zero hpos.1) (Nat.pos_of_ne_zero hpos.2)
    rw [if_pos h]
    refine iff_of_false (by omega) (hres.mp h)
  · rw [if_neg h]
    exact iff_of_true le_rfl (not_not.mp (mt hres.mpr h))

/-! ### fp16 weights -/

theorem paged_le_pages {l : List Nat} (h : ∀ n ∈ l, n ≤ 4096) : paged l ≤ 4096 * l.length := by
  induction l with
  | nil => exact le_rfl
  | cons n l ih =>
      have hn := h n List.mem_cons_self
      have hrest := ih fun m hm => h m (List.mem_cons_of_mem n hm)
      have hpage : orkiPgup n ≤ 4096 := by
        unfold orkiPgup
        rw [Nat.mod_eq_of_lt (by omega)]
        omega
      rw [List.length_cons, paged_cons]
      omega

/-- How many pieces of `size` there are at most, `n` being at least `m` long. -/
theorem pieces_mul_le {n m size : Nat} (hm : 2 * m ≤ size) (hn : m ≤ n) : m * pieces n size ≤ n := by
  unfold pieces
  rcases Nat.lt_or_ge n (size + 1) with hlt | hge
  · have hone : (n + size - 1) / size ≤ 1 := by
      rcases Nat.eq_zero_or_pos size with h0 | h0
      · rw [h0, Nat.div_zero]
        exact Nat.zero_le 1
      · refine Nat.lt_succ_iff.mp (Nat.div_lt_of_lt_mul ?_)
        omega
    exact (Nat.mul_le_mul_left m hone).trans (by omega)
  · have hdiv := Nat.div_mul_le_self (n + size - 1) size
    have hmul : 2 * (m * ((n + size - 1) / size)) ≤ (n + size - 1) / size * size := by
      rw [← Nat.mul_assoc, Nat.mul_comm]
      exact Nat.mul_le_mul_left _ hm
    omega

theorem pieces_of_le {n size : Nat} (hpos : 0 < n) (hle : n ≤ size) : pieces n size = 1 := by
  unfold pieces
  exact Nat.div_eq_of_lt_le (by omega) (by omega)

theorem tile_area_pos {f : Geom} (hKS : 0 < f.KS) (hNMAX : 0 < f.NMAX) {t : Pack.Tile} (ht : t ∈ f.tiles) : 0 < t.Kp * t.Nc := by
  obtain ⟨ns, ks, hns, hks, rfl⟩ := Geom.mem_tiles.mp ht
  exact Nat.mul_pos (Lib.pieceLen_pos hKS hks) (Lib.pieceLen_pos hNMAX hns)

theorem tile_area_le {f : Geom} (hKS : 0 < f.KS) (hNMAX : 0 < f.NMAX) {t : Pack.Tile} (ht : t ∈ f.tiles) :
    t.Kp * t.Nc ≤ f.K * f.N := by
  have htotal : (f.tiles.map fun t => t.Kp * t.Nc).sum = f.K * f.N := Run.total_area hKS hNMAX
  exact (List.single_le_sum (fun x _ => Nat.zero_le x) _ (List.mem_map.mpr ⟨t, ht, rfl⟩)).trans htotal.le

/-- An fp16 weight takes whole pages for every tile, and two bytes for every element. -/
theorem le_packTiled_f16 (hsoc : p.npu.soc ∈ socTable) (hfit : K < 2 ^ 31) :
    4096 * (pieces N 8192 * pieces K p.f16.ks) ≤ packTiled p .f16 K N ∧ K * N * 2 ≤ packTiled p .f16 K N := by
  have hn : p.npu.soc.nmax = 8192 := Pack.socTable_nmax hsoc
  have hNMAX : 0 < p.npu.soc.nmax := by omega
  have hKS := p.f16.ks_spec.1
  let g : Geom := ⟨p.f16.ks, p.npu.soc.nmax, K, N⟩
  have hsize : ∀ n ∈ tileBytes g 2 1, 0 < n ∧ n + 4095 < 2 ^ 64 := by
    intro n h
    obtain ⟨t, ht, rfl⟩ := List.mem_map.mp h
    have htpos := tile_area_pos (f := g) hKS hNMAX ht
    obtain ⟨ns, ks, -, -, rfl⟩ := Geom.mem_tiles.mp ht
    have hprod : (g.tile ns ks).Kp * (g.tile ns ks).Nc ≤ 2 ^ 31 * 8192 := by
      refine Nat.mul_le_mul ?_ (pieceLen_le_size.trans hn.le)
      have hle : pieceLen K p.f16.ks ks ≤ K := by
        unfold pieceLen
        split <;> omega
      exact hle.trans hfit.le
    rw [Nat.div_one]
    omega
  have hlen := length_le_paged hsize
  have hsum := sum_le_paged fun n h => (hsize n h).2
  rw [tileBytes_length] at hlen
  rw [tileBytes_sum (g := g) hKS hNMAX] at hsum
  change 4096 * (pieces N p.npu.soc.nmax * pieces K p.f16.ks) ≤ _ at hlen
  rw [hn] at hlen
  exact ⟨hlen, hsum⟩

theorem packTiled_f16_le (hsoc : p.npu.soc ∈ socTable) (hprod : K * N ≤ 2048) :
    packTiled p .f16 K N ≤ 4096 * (pieces N 8192 * pieces K p.f16.ks) := by
  have hn : p.npu.soc.nmax = 8192 := Pack.socTable_nmax hsoc
  let g : Geom := ⟨p.f16.ks, p.npu.soc.nmax, K, N⟩
  have hle : ∀ n ∈ tileBytes g 2 1, n ≤ 4096 := by
    intro n h
    obtain ⟨t, ht, rfl⟩ := List.mem_map.mp h
    have harea : t.Kp * t.Nc ≤ K * N := tile_area_le (f := g) p.f16.ks_spec.1 (hn.symm ▸ by decide : 0 < p.npu.soc.nmax) ht
    rw [Nat.div_one]
    omega
  have hlen := paged_le_pages hle
  rw [tileBytes_length] at hlen
  change _ ≤ 4096 * (pieces N p.npu.soc.nmax * pieces K p.f16.ks) at hlen
  rwa [hn] at hlen

/-- The estimate counts half a byte for every element, and less than a page for every tile. -/
theorem tiled4_le (hsoc : p.npu.soc ∈ socTable) (hK : K % 32 = 0) :
    2 * tiled4 p K N ≤ K * N + 8190 * (pieces N 8192 * pieces K 10752) := by
  have hn : p.npu.soc.nmax = 8192 := Pack.socTable_nmax hsoc
  let e : Geom := ⟨10752, p.npu.soc.nmax, K, N⟩
  have heven : ∀ t ∈ e.tiles, 2 ∣ t.Kp * t.Nc := by
    intro t ht
    obtain ⟨ns, ks, -, -, rfl⟩ := Geom.mem_tiles.mp ht
    have hKp : 32 ∣ pieceLen K 10752 ks := dvd_pieceLen (Nat.dvd_of_mod_eq_zero hK) (by decide)
    exact dvd_mul_of_dvd_left (Nat.dvd_trans (by decide) hKp) _
  have hle := paged_le (tileBytes e 1 2)
  have hsum := two_mul_tileBytes (g := e) (Nat.zero_lt_succ 10751) (hn.symm ▸ by decide : 0 < p.npu.soc.nmax) heven
  rw [tileBytes_length] at hle
  change paged (tileBytes e 1 2) ≤ _ + 4095 * (pieces N p.npu.soc.nmax * pieces K 10752) at hle
  change 2 * (tileBytes e 1 2).sum = K * N at hsum
  rw [hn] at hle
  change 2 * paged (tileBytes e 1 2) ≤ _
  omega

theorem tiled4_le_pages (hsoc : p.npu.soc ∈ socTable) (hsmall : K * N ≤ 8192) :
    tiled4 p K N ≤ 4096 * (pieces N 8192 * pieces K 10752) := by
  have hn : p.npu.soc.nmax = 8192 := Pack.socTable_nmax hsoc
  let e : Geom := ⟨10752, p.npu.soc.nmax, K, N⟩
  have hle : ∀ n ∈ tileBytes e 1 2, n ≤ 4096 := by
    intro n h
    obtain ⟨t, ht, rfl⟩ := List.mem_map.mp h
    have harea : t.Kp * t.Nc ≤ K * N := tile_area_le (f := e) (Nat.zero_lt_succ 10751) (hn.symm ▸ by decide : 0 < p.npu.soc.nmax) ht
    omega
  have hlen := paged_le_pages hle
  rw [tileBytes_length] at hlen
  change _ ≤ 4096 * (pieces N p.npu.soc.nmax * pieces K 10752) at hlen
  rwa [hn] at hlen

theorem pages_le_tiled4 (hsoc : p.npu.soc ∈ socTable) (hK : K % 32 = 0) :
    4096 * (pieces N 8192 * pieces K 10752) ≤ tiled4 p K N := by
  have hn : p.npu.soc.nmax = 8192 := Pack.socTable_nmax hsoc
  let e : Geom := ⟨10752, p.npu.soc.nmax, K, N⟩
  have hsize : ∀ n ∈ tileBytes e 1 2, 0 < n ∧ n + 4095 < 2 ^ 64 := by
    intro n h
    have hbound := tileBytes_bound h
    obtain ⟨t, ht, rfl⟩ := List.mem_map.mp h
    have htpos := tile_area_pos (f := e) (Nat.zero_lt_succ 10751) (hn.symm ▸ by decide : 0 < p.npu.soc.nmax) ht
    obtain ⟨ns, ks, -, -, rfl⟩ := Geom.mem_tiles.mp ht
    have hKp : 32 ∣ pieceLen K 10752 ks := dvd_pieceLen (Nat.dvd_of_mod_eq_zero hK) (by decide)
    have heven : 2 ∣ (e.tile ns ks).Kp * (e.tile ns ks).Nc :=
      dvd_mul_of_dvd_left (Nat.dvd_trans (by decide) hKp) _
    change _ ≤ 10752 * p.npu.soc.nmax * 1 at hbound
    rw [hn] at hbound
    omega
  have hlen := length_le_paged hsize
  rw [tileBytes_length] at hlen
  change 4096 * (pieces N p.npu.soc.nmax * pieces K 10752) ≤ _ at hlen
  rwa [hn] at hlen

/-- An fp16 weight is covered by the estimate for anything but eight bits exactly if it is a single page. -/
theorem packTiled_f16_le_iff (hsoc : p.npu.soc ∈ socTable) (hK : K % 32 = 0) (hN : N % 16 = 0) (hfit : K < 2 ^ 31) :
    packTiled p .f16 K N ≤ tiled4 p K N ↔ K = 0 ∨ N = 0 ∨ K * N ≤ 2048 ∧ K ≤ p.f16.ks := by
  by_cases h0 : K = 0 ∨ N = 0
  · have hzero : packTiled p .f16 K N = 0 := paged_zero (tileBytes_empty h0)
    rw [hzero]
    exact iff_of_true (Nat.zero_le _) (h0.imp_right Or.inl)
  obtain ⟨hK0, hN0⟩ := not_or.mp h0
  have hKS := p.f16.ks_spec.1
  have hK32 : 32 ≤ K := by omega
  have htaken : 4096 * (pieces N 8192 * pieces K p.f16.ks) ≤ packTiled p .f16 K N ∧ K * N * 2 ≤ packTiled p .f16 K N :=
    le_packTiled_f16 hsoc hfit
  have hcounted : 2 * tiled4 p K N ≤ K * N + 8190 * (pieces N 8192 * pieces K 10752) := tiled4_le hsoc hK
  have hpages : K * N ≤ 8192 → tiled4 p K N ≤ 4096 * (pieces N 8192 * pieces K 10752) := tiled4_le_pages hsoc
  constructor
  · intro hle
    refine Or.inr (Or.inr ?_)
    by_contra hno
    by_cases hsmall : K ≤ 10752 ∧ N ≤ 8192
    · have hone : pieces N 8192 = 1 := pieces_of_le (Nat.pos_of_ne_zero hN0) hsmall.2
      rw [pieces_of_le (Nat.pos_of_ne_zero hK0) hsmall.1, hone] at hcounted hpages
      by_cases hprod : K * N ≤ 2048
      · -- several tiles, one page counted
        have hks : 2 ≤ pieces K p.f16.ks := (Lib.lt_pieces_iff hKS).mpr (by omega)
        have := hpages (by omega)
        rw [hone] at htaken
        omega
      · by_cases hmid : K * N ≤ 8192
        · have := hpages hmid
          have hdvd : 4096 ∣ packTiled p .f16 K N := dvd_paged _
          omega
        · omega
    · -- a page of padding for every tile does not make up for the bytes of its elements
      have hmany : 5461 * (pieces N 8192 * pieces K 10752) ≤ K * N := by
        rcases Nat.lt_or_ge 10752 K with hK' | hK'
        · have h1 : 5376 * pieces K 10752 ≤ K := pieces_mul_le (by decide) (by omega)
          have h2 : 16 * pieces N 8192 ≤ N := pieces_mul_le (by decide) (by omega)
          have hmul := Nat.mul_le_mul h1 h2
          have hring : 5376 * pieces K 10752 * (16 * pieces N 8192) = 86016 * (pieces N 8192 * pieces K 10752) := by ring
          omega
        · have h1 : 4096 * pieces N 8192 ≤ N := pieces_mul_le (by decide) (by omega)
          have hmul := Nat.mul_le_mul hK32 h1
          rw [pieces_of_le (Nat.pos_of_ne_zero hK0) hK', Nat.mul_one]
          omega
      have hpos : 0 < K * N := Nat.mul_pos (by omega) (by omega)
      omega
  · rintro (h | h | ⟨hprod, hks⟩)
    · exact absurd h hK0
    · exact absurd h hN0
    · have hN' : N ≤ 8192 := by
        have := Nat.mul_le_mul_right N hK32
        omega
      have hK' : K ≤ 10752 := by
        have := Nat.mul_le_mul_left K (Nat.pos_of_ne_zero hN0)
        omega
      have hNone : pieces N 8192 = 1 := pieces_of_le (Nat.pos_of_ne_zero hN0) hN'
      have htop := packTiled_f16_le hsoc hprod
      have hbottom := pages_le_tiled4 (p := p) (N := N) hsoc hK
      rw [hNone, pieces_of_le (Nat.pos_of_ne_zero hK0) hks] at htop
      rw [hNone, pieces_of_le (Nat.pos_of_ne_zero hK0) hK'] at hbottom
      exact htop.trans hbottom

/-! ### The fold store -/

theorem fold_le_tiled8 (hsoc : p.npu.soc ∈ socTable) (hN : N % 32 = 0) :
    paged ((List.range (pieces N foldRefN)).map fun s => orkiPgup (foldRefK * pieceLen N foldRefN s)) ≤ tiled8 p foldRefK N := by
  have hterm : ∀ s, orkiPgup (orkiPgup (foldRefK * pieceLen N foldRefN s)) ≤ foldRefK * pieceLen N foldRefN s := by
    intro s
    have hdvd : 32 ∣ pieceLen N foldRefN s := dvd_pieceLen (Nat.dvd_of_mod_eq_zero hN) (by decide)
    obtain ⟨m, hm⟩ := hdvd
    rw [orkiPgup_orkiPgup]
    refine orkiPgup_of_dvd ⟨28 * m, ?_⟩
    rw [hm]
    change 3584 * (32 * m) = _
    omega
  have harea : ((List.range (pieces N foldRefN)).map fun s => foldRefK * pieceLen N foldRefN s).sum = foldRefK * N := by
    rw [List.sum_map_mul_left]
    exact congrArg (foldRefK * ·) (sum_pieceLen (by decide))
  refine le_trans ?_ (le_tiled8 hsoc foldRefK N)
  rw [← harea]
  unfold paged
  rw [List.map_map]
  exact List.sum_le_sum fun s _ => hterm s

end OrkDriver.Weights
