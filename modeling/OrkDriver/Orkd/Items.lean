import OrkDriver.Orkd.Delivery
import OrkDriver.Orkd.Tables

/-!
Queued items keep meaning what their RUN meant: until it is freed, the id of an item resolves to the very weight
the RUN was checked against, whatever its client packs and frees in the meantime.
-/

namespace OrkDriver.Orkd

/-- Item `w` is the rest of the accepted RUN `a`. -/
structure ItemOk (s : Sys) (w : Work) (a : Accepted) : Prop where
  seq : a.seq = w.seq
  A : a.A = w.A
  M : a.M = w.M
  K : w.K = a.cw.K
  N : w.N = a.cw.N
  dtype : w.dtype = a.cw.dtype
  id : a.cw.id = w.weightId
  m0 : 0 ≤ w.m0 ∧ (0 < w.m0 → w.m0 < w.M)
  known : ∀ i, i < s.d.nc → (s.d.cl i).fd = w.fd → a.cw.id ≤ (s.d.cl i).nextWid ∧
    ∀ e ∈ (s.d.cl i).wt, e.id = a.cw.id → e = a.cw

def Items (s : Sys) : Prop := ∀ w, s.d.q.Used w → ∃ a ∈ s.hist.accepted, ItemOk s w a

/-- A request adds entries under fresh ids only. -/
theorem applyEffect_grows (d : Daemon) (i : Nat) (c : ConnId) (e : Effect) (j : Nat) :
    (d.cl j).nextWid ≤ ((d.applyEffect i c e).cl j).nextWid ∧
      ∀ f ∈ ((d.applyEffect i c e).cl j).wt, f ∈ (d.cl j).wt ∨ (d.cl j).nextWid < f.id := by
  cases he : e.registers with
  | false =>
      have hs := SameTables.applyEffect d i c he
      rw [hs.nextWid, hs.wt]
      exact ⟨Nat.le_refl _, fun f hf => .inl hf⟩
  | true =>
      by_cases hj : j = i
      · subst hj
        cases e with
        | addWeight w =>
            simp only [Daemon.applyEffect, Daemon.addWeight, Function.update_self, List.mem_append, List.mem_singleton]
            refine ⟨Nat.le_succ _, ?_⟩
            rintro f (hf | rfl)
            · exact .inl hf
            · exact .inr (Nat.lt_succ_self _)
        | addKv HD Lmax =>
            simp only [Daemon.applyEffect, Daemon.addKv, Function.update_self, List.mem_append, List.mem_cons,
              List.not_mem_nil, or_false]
            refine ⟨Nat.le_add_right _ _, ?_⟩
            rintro f (hf | rfl | rfl)
            · exact .inl hf
            · exact .inr (Nat.lt_succ_self _)
            · exact .inr (by simp)
        | freeWeight id =>
            simp only [Daemon.applyEffect, Daemon.freeWeight]
            split
            · exact ⟨Nat.le_refl _, fun f hf => .inl hf⟩
            · simp only [Function.update_self]
              exact ⟨Nat.le_refl _, fun f hf => .inl (List.mem_of_mem_swapRemove hf)⟩
        | _ => cases he
      · rw [Daemon.applyEffect_other d i c e hj]
        exact ⟨Nat.le_refl _, fun f hf => .inl hf⟩

namespace Items

variable {s t : Sys}

/-- An item survives as long as each client on its descriptor goes back to one that only grew. -/
theorem itemOk_of_clients {w : Work} {a : Accepted} (h : ItemOk s w a)
    (hcl : ∀ i, i < t.d.nc → (t.d.cl i).fd = w.fd → ∃ j, j < s.d.nc ∧ (s.d.cl j).fd = w.fd ∧
      (s.d.cl j).nextWid ≤ (t.d.cl i).nextWid ∧ ∀ e ∈ (t.d.cl i).wt, e ∈ (s.d.cl j).wt ∨ (s.d.cl j).nextWid < e.id) :
    ItemOk t w a := by
  refine { h with known := fun i hi hfd => ?_ }
  obtain ⟨j, hj, hfdj, hwid, hwt⟩ := hcl i hi hfd
  obtain ⟨hle, hknown⟩ := h.known j hj hfdj
  refine ⟨Nat.le_trans hle hwid, fun e he hid => ?_⟩
  rcases hwt e he with he | hfresh
  · exact hknown e he hid
  · omega

/-- The items of `t` are items of `s`, and nothing they rest on has moved. -/
theorem of_used (h : Items s) (hacc : t.hist.accepted = s.hist.accepted) (hnc : t.d.nc = s.d.nc)
    (hcl : t.d.cl = s.d.cl) (hq : ∀ w, t.d.q.Used w → s.d.q.Used w) : Items t := by
  intro w hw
  obtain ⟨a, ha, hitem⟩ := h w (hq w hw)
  rw [hacc]
  refine ⟨a, ha, itemOk_of_clients hitem fun i hi hfd => ?_⟩
  rw [hnc] at hi
  rw [hcl] at hfd ⊢
  exact ⟨i, hi, hfd, Nat.le_refl _, fun e he => .inl he⟩

theorem serve (h : Items s) (hc : Connected s) (hw : WeightTables s.d) {i : Nat} (hi : i < s.d.nc)
    {m : Option OrkdMsgType} {inp : Stream} {tag : UInt64} {o : Outcome}
    (hok : EffectOk s.d (s.d.cl i) m inp tag o.effect) : Items (serveWith s i (s.connOf i) tag o) := by
  have hgrow : ∀ v, ∀ j, j < (serveWith s i (s.connOf i) tag o).d.nc →
      ((serveWith s i (s.connOf i) tag o).d.cl j).fd = v →
      ∃ k, k < s.d.nc ∧ (s.d.cl k).fd = v ∧
        (s.d.cl k).nextWid ≤ ((serveWith s i (s.connOf i) tag o).d.cl j).nextWid ∧
        ∀ e ∈ ((serveWith s i (s.connOf i) tag o).d.cl j).wt, e ∈ (s.d.cl k).wt ∨ (s.d.cl k).nextWid < e.id := by
    intro v j hj hfd
    rw [Connected.serveWith_nc] at hj
    have hfd' : ((s.d.applyEffect i (s.connOf i) o.effect).cl j).fd = (s.d.cl j).fd := Daemon.applyEffect_fd _ _ _ _ _
    exact ⟨j, hj, hfd'.symm.trans hfd, applyEffect_grows s.d i (s.connOf i) o.effect j⟩
  have hold : ∀ {l : List Accepted}, (∀ a ∈ s.hist.accepted, a ∈ l) → ∀ w, s.d.q.Used w →
      ∃ a ∈ l, ItemOk (serveWith s i (s.connOf i) tag o) w a := by
    intro l hl w hw
    obtain ⟨a, ha, hitem⟩ := h w hw
    exact ⟨a, hl a ha, itemOk_of_clients hitem (hgrow w.fd)⟩
  cases he : o.effect with
  | enqueue w cw =>
      rw [he] at hok
      cases hok with
      | enqueue hq =>
          obtain ⟨j, hj⟩ := hq.room
          obtain ⟨q', hq'⟩ := Queue.exists_wkAlloc hj w
          obtain ⟨hmem, hid⟩ := Client.findWeight_mem hq.found
          intro v hv
          simp only [serveWith, Daemon.applyEffect_q, he, hq', Option.getD_some] at hv
          have hacc : (serveWith s i (s.connOf i) tag o).hist.accepted =
              s.hist.accepted ++ [⟨s.d.q.wseq, s.connOf i, tag, cw, w.A, w.M⟩] := by
            simp only [serveWith, he, History.note]
          rw [hacc]
          rcases ((Queue.wkAlloc_spec hq').2 v).mp hv with hv | rfl
          · exact hold (fun a ha => List.mem_append_left _ ha) v hv
          · refine ⟨_, List.mem_append_right _ List.mem_cons_self, ?_⟩
            refine itemOk_of_clients (s := s) ⟨rfl, rfl, rfl, hq.K, hq.N, hq.dtype, hid.trans hq.weightId.symm, ?_, ?_⟩
              (hgrow w.fd)
            · simp only [hq.m0]
              exact ⟨Int.le_refl _, fun hpos => absurd hpos (Int.lt_irrefl _)⟩
            · intro k hk hfd
              obtain rfl : k = i := hc.fd_inj k i hk hi (hfd.trans hq.fd)
              have htab := hw.table k hk
              refine ⟨htab.id_le cw hmem, fun e he' heid => ?_⟩
              exact List.inj_on_of_nodup_map htab.ids he' hmem heid
  | _ =>
      intro v hv
      simp only [serveWith, Daemon.applyEffect_q, he] at hv
      have hacc : (serveWith s i (s.connOf i) tag o).hist.accepted = s.hist.accepted := by
        simp only [serveWith, he, History.note]
      rw [hacc]
      exact hold (fun a ha => ha) v hv

theorem accept (h : Items s) (hl : Ledger s) {fd : Nat} (hfd : s.os.conn fd = none) : Items (acceptStep s fd) := by
  unfold acceptStep
  split
  · intro w hw
    obtain ⟨a, ha, hitem⟩ := h w hw
    refine ⟨a, ha, itemOk_of_clients hitem fun i hi hfdi => ?_⟩
    have hi' : i < s.d.nc + 1 := hi
    by_cases hin : i = s.d.nc
    · -- the new descriptor carries no item
      simp only [Daemon.acceptIn, hin, Function.update_self] at hfdi
      obtain ⟨b, -, -, -, hconn⟩ := hl.pending w hw
      rw [← hfdi, hfd] at hconn
      cases hconn
    · simp only [Daemon.acceptIn, Function.update_of_ne hin] at hfdi ⊢
      exact ⟨i, by omega, hfdi, Nat.le_refl _, fun e he => .inl he⟩
  · exact h.of_used rfl rfl rfl fun w hw => hw

theorem drop (h : Items s) (i : Nat) : Items (dropStep s i) := by
  intro w hw
  rw [dropStep, Daemon.drop_q, Queue.used_wkPurgeFd] at hw
  obtain ⟨a, ha, hitem⟩ := h w hw.1
  refine ⟨a, ha, itemOk_of_clients hitem fun j hj hfd => ?_⟩
  have hj' : j < s.d.nc - 1 := by simpa [dropStep] using hj
  simp only [dropStep, s.d.drop_cl i hj'] at hfd ⊢
  exact ⟨_, Daemon.survivor_lt hj', hfd, Nat.le_refl _, fun e he => .inl he⟩

theorem finish (h : Items s) (i : Nat) (b : Bool) : Items (finishMessage s i b) := by
  cases b with
  | true => exact h.drop i
  | false => exact h

/-- The rest of an item after a quantum is the rest of the same RUN. -/
theorem itemOk_runQuantum {w : Work} {a : Accepted} (h : ItemOk s w a) {n : Int} (hpos : 0 < n) (hlt : w.m0 + n < w.M)
    (rc : Int) (out : Nat → UInt32) : ItemOk s (runQuantum n rc out w) a := by
  refine { h with m0 := ?_ }
  have := h.m0.1
  simp only [runQuantum]
  exact ⟨by omega, fun _ => hlt⟩

theorem dispatch (h : Items s) (rc : Int) (out : Nat → UInt32) : Items (dispatchStep s rc out) := by
  have hfree : ∀ {i : Fin orkdQmax} {w : Work}, s.d.q.slot i = some w → ∀ v, (s.d.q.wkFree i).Used v → s.d.q.Used v :=
    fun hslot v hv => ((Queue.used_wkFree hslot v).mp hv).1
  have hcases := dispatchStep_cases s rc out
  generalize dispatchStep s rc out = t at hcases
  cases hcases with
  | idle _ => exact h
  | orphan hslot _ => exact h.of_used rfl rfl rfl (hfree hslot)
  | stale hslot _ _ _ => exact h.of_used rfl rfl rfl (hfree hslot)
  | @keep i w _ _ hslot _ _ _ hlt =>
      intro v hv
      have hsame : ∀ i, i < s.d.nc → (s.d.cl i).fd = v.fd → ∃ j, j < s.d.nc ∧ (s.d.cl j).fd = v.fd ∧
          (s.d.cl j).nextWid ≤ (s.d.cl i).nextWid ∧
          ∀ e ∈ (s.d.cl i).wt, e ∈ (s.d.cl j).wt ∨ (s.d.cl j).nextWid < e.id :=
        fun i hi hfd => ⟨i, hi, hfd, Nat.le_refl _, fun e he => .inl he⟩
      rcases (Queue.used_modify hslot (runQuantum_seq _ rc out) v).mp hv with rfl | ⟨hv, -⟩
      · obtain ⟨a, ha, hitem⟩ := h w ⟨i, hslot⟩
        exact ⟨a, ha, itemOk_of_clients (itemOk_runQuantum hitem (quantumRows_pos hlt) hlt rc out) hsame⟩
      · obtain ⟨a, ha, hitem⟩ := h v hv
        exact ⟨a, ha, itemOk_of_clients hitem hsame⟩
  | finish hslot _ _ _ _ => exact h.of_used rfl rfl rfl (hfree hslot)

theorem step (h : Items s) (hc : Connected s) (hw : WeightTables s.d) (hl : Ledger s) {e : Event} (he : Enabled s e) :
    Items (next s e) := by
  cases e with
  | accept fd => exact h.accept hl he
  | message i env =>
      have hserve := h.serve hc hw he (serviceMsg_effect s.d (s.d.cl i) env (s.payload i) (s.header i))
      exact hserve.finish i _
  | hangup i => exact h.drop i
  | dispatch rc out => exact h.dispatch rc out
  | ring i r =>
      intro w hw
      obtain ⟨a, ha, hitem⟩ := h w hw
      refine ⟨a, ha, itemOk_of_clients hitem fun j hj hfd => ?_⟩
      simp only [next, ringStep, Daemon.setClient] at hj hfd ⊢
      by_cases hji : j = i
      · subst hji
        simp only [Function.update_self] at hfd ⊢
        exact ⟨j, hj, hfd, Nat.le_refl _, fun e he => .inl he⟩
      · simp only [Function.update_of_ne hji] at hfd ⊢
        exact ⟨j, hj, hfd, Nat.le_refl _, fun e he => .inl he⟩

end Items

theorem items_of_reachable {P : Sys → Event → Prop} {s : Sys} (h : orkd.ReachableOn P s) : Items s := by
  refine h.invariant (fun s (h0 : Initial s) => ?_) ?_
  · rintro w ⟨i, hi⟩
    rw [h0.q] at hi
    cases hi
  · rintro s e t hr hs _ ⟨he, rfl⟩
    exact hs.step (connected_of_reachable hr) (weightTables_of_reachable hr) (ledger_of_reachable hr) he

end OrkDriver.Orkd
