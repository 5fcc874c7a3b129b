import OrkDriver.Lib.Slots
import OrkDriver.Ssm.Recurrence

/-!
What each loop nest of a scan leaves in the slots it works on.
-/

namespace OrkDriver.Ssm.Scan

open Lib Lib.Assign

variable {R : Type*} [CommRing R] (q : Scan R)

/-- Rows and columns of a slot. -/
def dims : Arr → Nat × Nat
  | .buf .aS | .buf .aO | .buf .bC => (q.z.csz, q.z.nc)
  | .buf .bS => (q.z.nc, q.z.csz)
  | .buf .G | .buf .aD => (q.z.csz, q.z.csz)
  | .buf .bD | .buf .Yd | .buf .tmp | .buf .xbar => (q.z.csz, q.z.nr)
  | .buf .aC => (q.z.nr, q.z.csz)
  | .buf .cs | .buf .state | .buf .stp => (q.z.nr, q.z.nc)
  | .buf .bO => (q.z.nc, q.z.nr)
  | .buf .Acs => (1, q.z.csz)
  | .weight p => q.z.dims p
  | _ => (1, 1)

abbrev Facts (R : Type*) := List (Arr × (Nat → Nat → R))

variable {q} {m : Mem R} {seq cc h S : Nat} {pre : Facts R}

/-! ### Dimensions of the operand buffers -/

theorem dims_Acs : q.dims (.buf .Acs) = (1, q.z.csz) := rfl

theorem dims_aS : q.dims (.buf .aS) = (q.z.csz, q.z.nc) := rfl

theorem dims_aO : q.dims (.buf .aO) = (q.z.csz, q.z.nc) := rfl

theorem dims_bS : q.dims (.buf .bS) = (q.z.nc, q.z.csz) := rfl

theorem dims_aC : q.dims (.buf .aC) = (q.z.nr, q.z.csz) := rfl

theorem dims_bD : q.dims (.buf .bD) = (q.z.csz, q.z.nr) := rfl

theorem dims_bO : q.dims (.buf .bO) = (q.z.nc, q.z.nr) := rfl

theorem dims_aD : q.dims (.buf .aD) = (q.z.csz, q.z.csz) := rfl

theorem dims_bC : q.dims (.buf .bC) = (q.z.csz, q.z.nc) := rfl

/-! ### Single cells -/

theorem fills_single {a : Arr} {v : Mem R → R} {x : R} (hdims : q.dims a = (1, 1))
    (hv : ∀ m, Holding q.dims m S pre → v m = x) : Fills q.dims S [.set a S v] [a] pre [(a, fun _ _ => x)] := by
  constructor
  · intro s hs
    obtain rfl := List.mem_singleton.mp hs
    refine ⟨List.mem_singleton.mpr rfl, S, rfl, ?_⟩
    rw [hdims]
    exact ⟨0, Nat.one_pos, 0, Nat.one_pos, by simp⟩
  · intro m hm p hp
    obtain rfl := List.mem_singleton.mp hp
    rw [hdims]
    intro i hi j hj
    obtain rfl := Nat.lt_one_iff.mp hi
    obtain rfl := Nat.lt_one_iff.mp hj
    simpa using hv m hm

theorem holding_single {a : Arr} {x : R} (hdims : q.dims a = (1, 1)) (hm : Holding q.dims m S pre)
    (hp : (a, fun _ _ => x) ∈ pre) : m a S = x := by
  have hcell := hm (a, fun _ _ => x) hp
  rw [hdims] at hcell
  simpa using hcell 0 Nat.one_pos 0 Nat.one_pos

theorem holding_Acs {c : Nat → R} (hm : Holding q.dims m S pre) (hp : (.buf .Acs, fun _ l => c l) ∈ pre) {l : Nat}
    (hl : l < q.z.csz) : m (.buf .Acs) (S * q.z.csz + l) = c l := by
  have hcell := hm (.buf .Acs, fun _ l => c l) hp 0 Nat.one_pos l hl
  simpa [dims_Acs] using hcell

/-! ### Operands -/

/-- What `prep` leaves. -/
def prepared (q : Scan R) (seq cc h : Nat) : Facts R :=
  [(.buf .Acs, fun _ l => q.runSum seq cc h (l + 1)), (.buf .xbar, fun l i => q.xAt seq h (cc * q.z.csz + l) i),
    (.buf .Acl, fun _ _ => q.runSum seq cc h q.z.csz)]

theorem prep_fills (hcsz : 0 < q.z.csz) :
    Fills q.dims S (q.prep seq cc h S) [.buf .Acs, .buf .xbar, .buf .Acl] [] (q.prepared seq cc h) := by
  have hrows : Fills q.dims S
      (times q.z.csz fun l =>
        .set (.buf .Acs) (S * q.z.csz + l) (fun _ => q.runSum seq cc h (l + 1))
        :: times q.z.nr fun i1 =>
          [.set (.buf .xbar) ((S * q.z.csz + l) * q.z.nr + i1) fun _ => q.xAt seq h (cc * q.z.csz + l) i1])
      [.buf .Acs, .buf .xbar] []
      [(.buf .Acs, fun _ l => q.runSum seq cc h (l + 1)), (.buf .xbar, fun l i => q.xAt seq h (cc * q.z.csz + l) i)] := by
    have hwrites : ∀ s ∈ (times q.z.csz fun l =>
        .set (.buf .Acs) (S * q.z.csz + l) (fun _ => q.runSum seq cc h (l + 1))
        :: times q.z.nr fun i1 =>
          [.set (.buf .xbar) ((S * q.z.csz + l) * q.z.nr + i1) fun _ => q.xAt seq h (cc * q.z.csz + l) i1]),
        WritesIn (Cells q.dims [.buf .Acs, .buf .xbar] (· = S)) s ∧ ReadsOff (· ∈ [Arr.buf .Acs, .buf .xbar]) s := by
      refine forall_mem_times fun l hl s hs => ?_
      rcases List.mem_cons.mp hs with rfl | hs
      · exact ⟨⟨by simp, S, rfl, 0, Nat.one_pos, l, hl, by simp [dims_Acs]⟩, fun _ _ _ => rfl⟩
      · obtain ⟨i, hi, hs⟩ := mem_times.mp hs
        obtain rfl := List.mem_singleton.mp hs
        exact ⟨⟨by simp, S, rfl, l, hl, i, hi, rfl⟩, fun _ _ _ => rfl⟩
    refine ⟨fun s hs => (hwrites s hs).1, fun m _ p hp => ?_⟩
    rcases List.mem_pair.mp hp with rfl | rfl
    · intro i hi l hl
      obtain rfl := Nat.lt_one_iff.mp hi
      refine run_of_mem (fun s hs => (hwrites s hs).1.mono fun _ _ h => h.1) (fun s hs => (hwrites s hs).2) ?_ ?_
      · exact ⟨fun _ => q.runSum seq cc h (l + 1), mem_times.mpr ⟨l, hl, by simp [dims_Acs]⟩⟩
      · intro v hv
        obtain ⟨l', -, hv⟩ := mem_times.mp hv
        rcases List.mem_cons.mp hv with hv | hv
        · injection hv with _ hidx hval
          have hll : l = l' := by simpa [dims_Acs] using hidx
          rw [hval, hll]
        · obtain ⟨i, -, hv⟩ := mem_times.mp hv
          simp at hv
    · intro l hl i hi
      refine run_of_mem (fun s hs => (hwrites s hs).1.mono fun _ _ h => h.1) (fun s hs => (hwrites s hs).2) ?_ ?_
      · exact ⟨fun _ => q.xAt seq h (cc * q.z.csz + l) i,
          mem_times.mpr ⟨l, hl, List.mem_cons_of_mem _ (mem_times.mpr ⟨i, hi, List.mem_singleton.mpr rfl⟩)⟩⟩
      · intro v hv
        obtain ⟨l', hl', hv⟩ := mem_times.mp hv
        rcases List.mem_cons.mp hv with hv | hv
        · simp at hv
        · obtain ⟨i', hi', hv⟩ := mem_times.mp hv
          injection List.mem_singleton.mp hv with _ hidx hval
          obtain ⟨hrow, rfl⟩ := digits_inj hi hi' hidx
          obtain rfl := Nat.add_left_cancel hrow
          rw [hval]
  have hlast : Fills q.dims S [.set (.buf .Acl) S fun m => m (.buf .Acs) (S * q.z.csz + q.z.csz - 1)] [.buf .Acl]
      [(.buf .Acs, fun _ l => q.runSum seq cc h (l + 1))] [(.buf .Acl, fun _ _ => q.runSum seq cc h q.z.csz)] := by
    apply fills_single rfl
    intro m hm
    have hcell := holding_Acs hm List.mem_cons_self (Nat.sub_lt hcsz Nat.one_pos)
    rwa [← Nat.add_sub_assoc hcsz, Nat.sub_add_cancel hcsz] at hcell
  exact hrows.append hlast (by simp) (by simp) (by simp)

/-- What `gramOperands` leaves. -/
def operands (q : Scan R) (seq cc h : Nat) : Facts R :=
  [(.buf .aS, fun l n => q.cAt seq h (cc * q.z.csz + l) n), (.buf .aO, fun l n => q.cAt seq h (cc * q.z.csz + l) n),
    (.buf .bS, fun n sp => q.bAt seq h (cc * q.z.csz + sp) n)]

theorem gram_fills : Fills q.dims S (q.gramOperands seq cc h S) [.buf .aS, .buf .aO, .buf .bS] [] (q.operands seq cc h) := by
  have hC : Fills q.dims S _ _ [] _ := Fills.fill (r := q.z.csz) (c := q.z.nc)
    [(.buf .aS, fun l n _ => q.cAt seq h (cc * q.z.csz + l) n), (.buf .aO, fun l n _ => q.cAt seq h (cc * q.z.csz + l) n)]
    (fun _ l n => q.cAt seq h (cc * q.z.csz + l) n) (by simp) (by simp [dims_aS, dims_aO]) (by simp) (by simp)
  have hB : Fills q.dims S _ _ [] _ := Fills.fill (r := q.z.nc) (c := q.z.csz)
    [(.buf .bS, fun n sp _ => q.bAt seq h (cc * q.z.csz + sp) n)]
    (fun _ n sp => q.bAt seq h (cc * q.z.csz + sp) n) (by simp) (by simp [dims_bS]) (by simp) (by simp)
  exact hC.append hB (by simp) (by simp) (by simp)

theorem input_fills {v : Nat → Nat → R} : Fills q.dims S (q.inputOperands S) [.buf .aC, .buf .bD] [(.buf .xbar, v)]
    [(.buf .aC, fun i sp => v sp i), (.buf .bD, v)] := by
  have hC : Fills q.dims S _ _ [(.buf .xbar, v)] _ := Fills.fill (r := q.z.nr) (c := q.z.csz)
    [(.buf .aC, fun i1 sp m => m (.buf .xbar) ((S * q.z.csz + sp) * q.z.nr + i1))]
    (fun _ i sp => v sp i) (by simp) (by simp [dims_aC]) (by simp +contextual)
    (fun m hm p hp i hi j hj => by
      obtain rfl := List.mem_singleton.mp hp
      exact hm.cell List.mem_cons_self hj hi)
  have hD : Fills q.dims S _ _ [(.buf .xbar, v)] _ := Fills.fill (r := q.z.csz) (c := q.z.nr)
    [(.buf .bD, fun l i1 m => m (.buf .xbar) ((S * q.z.csz + l) * q.z.nr + i1))]
    (fun _ => v) (by simp) (by simp [dims_bD]) (by simp +contextual)
    (fun m hm p hp i hi j hj => by
      obtain rfl := List.mem_singleton.mp hp
      exact hm.cell List.mem_cons_self hi hj)
  exact hC.append hD (by simp) (by simp) (by simp)

theorem state_fills {src : Buf} {v : Nat → Nat → R} (hdims : q.dims (.buf src) = (q.z.nr, q.z.nc)) (hsrc : src ≠ .bO) :
    Fills q.dims S (q.stateOperand src S) [.buf .bO] [(.buf src, v)] [(.buf .bO, fun n i => v i n)] := by
  refine Fills.fill _ (fun _ n i => v i n) (by simp) (by simp [dims_bO]) (by simp +contextual [hsrc]) ?_
  intro m hm p hp n hn i hi
  obtain rfl := List.mem_singleton.mp hp
  have hcell := hm (.buf src, v) List.mem_cons_self
  rw [hdims] at hcell
  exact hcell i hi n hn

theorem mask_fills {g : Nat → Nat → R} {c : Nat → R} :
    Fills q.dims S (q.maskOperand S) [.buf .aD] [(.buf .G, g), (.buf .Acs, fun _ l => c l)]
      [(.buf .aD, fun l sp => if sp ≤ l then g l sp * q.exp (c l - c sp) else 0)] := by
  refine Fills.fill _ (fun _ l sp => if sp ≤ l then g l sp * q.exp (c l - c sp) else 0) (by simp) (by simp [dims_aD])
    (by simp +contextual) ?_
  intro m hm p hp l hl sp hsp
  obtain rfl := List.mem_singleton.mp hp
  dsimp only
  have hG : m (.buf .G) ((S * q.z.csz + l) * q.z.csz + sp) = g l sp := hm.cell List.mem_cons_self hl hsp
  have hacs : (Arr.buf .Acs, fun _ l => c l) ∈ [(Arr.buf .G, g), (Arr.buf .Acs, fun _ l => c l)] := by simp
  rw [hG, holding_Acs hm hacs hl, holding_Acs hm hacs hsp]

theorem decay_fills (hcsz : 0 < q.z.csz) :
    Fills q.dims S (q.decayOperand seq cc h S) [.buf .bC] [(.buf .Acs, fun _ l => q.runSum seq cc h (l + 1))]
      [(.buf .bC, q.decayVal seq cc h)] := by
  refine Fills.fill _ (fun _ => q.decayVal seq cc h) (by simp) (by simp [dims_bC]) (by simp +contextual) ?_
  intro m hm p hp sp hsp n hn
  obtain rfl := List.mem_singleton.mp hp
  have hend := holding_Acs hm List.mem_cons_self (Nat.sub_lt hcsz Nat.one_pos)
  rw [← Nat.add_sub_assoc hcsz, Nat.sub_add_cancel hcsz] at hend
  dsimp only
  rw [hend, holding_Acs hm List.mem_cons_self hsp, decayVal, bAt]
  split
  · rfl
  · rw [mul_zero]

/-! ### Stages -/

section

variable {slots M K N : Nat} {p : ScratchW} {Aop Bop Cop : Buf} {u w : Nat → Nat → Nat → R}

theorem pack_fills (hw : q.z.dims p = (K, N)) (hB : q.dims (.buf Bop) = (K, N)) (h : Nat) :
    Fills q.dims h
      (.attempt :: times (K * N) fun i => [.set (.weight p) (h * K * N + i) fun m => m (.buf Bop) (h * K * N + i)])
      [.weight p] [(.buf Bop, w h)] [(.weight p, w h)] := by
  have hcopy : Fills q.dims h
      (times (K * N) fun i => [.set (.weight p) (h * K * N + i) fun m => m (.buf Bop) (h * K * N + i)])
      [.weight p] [(.buf Bop, w h)] [(.weight p, w h)] := by
    apply Fills.sweep (v := fun i m => m (.buf Bop) (h * K * N + i)) (show q.dims (.weight p) = (K, N) from hw)
    intro m hm i hi j hj m' hm'
    have hread : m' (.buf Bop) (h * K * N + (i * N + j)) = m (.buf Bop) (h * K * N + (i * N + j)) :=
      hm' _ _ fun hbad => by cases hbad.1
    have hcell := hm (.buf Bop, w h) List.mem_cons_self
    rw [hB] at hcell
    rw [hread, ← slot_index]
    exact hcell i hi j hj
  constructor
  · intro s hs
    rcases List.mem_cons.mp hs with rfl | hs
    · trivial
    · exact hcopy.writes s hs
  · exact fun m hm => hcopy.holds m hm

theorem multiply_fills (hw : q.z.dims p = (K, N)) (hA : q.dims (.buf Aop) = (M, K)) (hC : q.dims (.buf Cop) = (M, N))
    (hAC : Aop ≠ Cop) (h : Nat) :
    Fills q.dims h
      (times M fun r => times N fun n => [.set (.buf Cop) (h * M * N + (r * N + n)) fun m =>
        matmul (fun i => m (.buf Aop) (h * M * K + i)) (fun i => m (.weight p) (h * K * N + i)) K N r n])
      [.buf Cop] [(.buf Aop, u h), (.weight p, w h)]
      [(.buf Cop, fun r n => dot K (fun k => u h r k) fun k => w h k n)] := by
  have hfill : Fills q.dims h _ _ [(.buf Aop, u h), (.weight p, w h)] _ := Fills.fill (r := M) (c := N)
    [(.buf Cop, fun r n m =>
      matmul (fun i => m (.buf Aop) (h * M * K + i)) (fun i => m (.weight p) (h * K * N + i)) K N r n)]
    (fun _ r n => dot K (fun k => u h r k) fun k => w h k n) (by simp) (by simp [hC])
    (by simp +contextual [hAC]) ?_
  · simpa only [fill, slot_index, List.map_cons, List.map_nil] using hfill
  · intro m hm x hx r hr n hn
    obtain rfl := List.mem_singleton.mp hx
    have ha := hm (.buf Aop, u h) List.mem_cons_self
    have hb := hm (.weight p, w h) (List.mem_cons_of_mem _ List.mem_cons_self)
    rw [hA] at ha
    rw [show q.dims (.weight p) = (K, N) from hw] at hb
    apply dot_congr
    · intro k hk
      have hcell := ha r hr k hk
      rwa [slot_index] at hcell
    · intro k hk
      have hcell := hb k hk n hn
      rwa [slot_index] at hcell

variable (hw : q.z.dims p = (K, N)) (hA : q.dims (.buf Aop) = (M, K)) (hB : q.dims (.buf Bop) = (K, N))
  (hC : q.dims (.buf Cop) = (M, N)) (hAC : Aop ≠ Cop)

include hw hA hB hC hAC in
theorem stg_holding (hm : ∀ S < slots, Holding q.dims m S [(.buf Aop, u S), (.buf Bop, w S)]) :
    ∀ S < slots, Holding q.dims (run m (stg slots p M K N Aop Bop Cop)) S
      [(.buf Cop, fun r n => dot K (fun k => u S r k) fun k => w S k n)] := by
  rw [stg, run_append, run_cons, exec_attempt]
  have hfills : ∀ i < slots, Fills q.dims i _ _ _ _ := fun i _ => pack_fills (w := w) hw hB i
  have hpack := times_holding (fun i _ j _ h => h) hfills fun i hi => (hm i hi).mono (by simp)
  refine times_holding (fun i _ j _ h => h) (fun i _ => multiply_fills hw hA hC hAC i) fun i hi => ?_
  have hkept : Holding q.dims m i [(.buf Aop, u i)] := (hm i hi).mono (by simp)
  exact (hkept.run (times_writes hfills) (.inr (by simp))).append (hpack i hi)

include hw hA hB hC hAC in
theorem stg_writes : ∀ s ∈ (stg slots p M K N Aop Bop Cop : List (Stmt R)),
    WritesIn (Cells q.dims [Arr.weight p, .buf Cop] (· < slots)) s := by
  intro s hs
  rcases List.mem_append.mp hs with hs | hs
  · refine (times_writes (fun i _ => pack_fills (w := fun _ _ _ => 0) hw hB i) s hs).mono ?_
    rintro a x ⟨ha, S, ⟨i, hi, heq⟩, hx⟩
    exact ⟨List.mem_cons.mpr (.inl (List.mem_singleton.mp ha)), S, heq ▸ hi, hx⟩
  · rcases List.mem_cons.mp hs with rfl | hs
    · trivial
    · refine (times_writes (fun i _ => multiply_fills (u := fun _ _ _ => 0) (w := fun _ _ _ => 0) hw hA hC hAC i) s
        hs).mono ?_
      rintro a x ⟨ha, S, ⟨i, hi, heq⟩, hx⟩
      exact ⟨List.mem_cons_of_mem _ ha, S, heq ▸ hi, hx⟩

end

end OrkDriver.Ssm.Scan
