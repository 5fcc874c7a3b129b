import OrkDriver.Orkd.Scheduler

/-!
Which parts of the state an event leaves alone, and the connections: every live client sits on its own
open descriptor, and every open descriptor is a live client's.
-/

namespace OrkDriver.Orkd

namespace Daemon

variable (d : Daemon) (i : Nat) (c : ConnId)

@[simp] theorem domRelease_cl (k : Nat) : (d.domRelease k).cl = d.cl := by unfold domRelease; split <;> rfl
@[simp] theorem domRelease_nc (k : Nat) : (d.domRelease k).nc = d.nc := by unfold domRelease; split <;> rfl
@[simp] theorem domRelease_q (k : Nat) : (d.domRelease k).q = d.q := by unfold domRelease; split <;> rfl
@[simp] theorem domRelease_weights (k : Nat) : (d.domRelease k).weights = d.weights := by
  unfold domRelease; split <;> rfl
@[simp] theorem domRelease_kvs (k : Nat) : (d.domRelease k).kvs = d.kvs := by unfold domRelease; split <;> rfl
@[simp] theorem domRelease_activeDom (k : Nat) : (d.domRelease k).activeDom = d.activeDom := by
  unfold domRelease; split <;> rfl

theorem domRelease_domInuse (k j : Nat) :
    (d.domRelease k).domInuse j = if j = k ∧ 1 ≤ k ∧ k < orkdNdom then false else d.domInuse j := by
  unfold domRelease
  by_cases hk : 1 ≤ k ∧ k < orkdNdom
  · by_cases hj : j = k <;> simp [hk, hj]
  · simp [hk]

theorem applyEffect_hello : d.applyEffect i c .hello = d.hello i := rfl

theorem applyEffect_addWeight (w : Weight) : d.applyEffect i c (.addWeight w) = d.addWeight i w := rfl

theorem applyEffect_addKv (HD Lmax : Int) : d.applyEffect i c (.addKv HD Lmax) = d.addKv i c HD Lmax := rfl

theorem applyEffect_freeWeight (id : Nat) : d.applyEffect i c (.freeWeight id) = d.freeWeight i id := rfl

theorem applyEffect_enqueue (w : Work) (cw : CWeight) : d.applyEffect i c (.enqueue w cw) = d.enqueue w := rfl

theorem applyEffect_domReq (k : Nat) : d.applyEffect i c (.domReq k) = d.domReq i k := rfl

theorem applyEffect_domRel (k : Nat) : d.applyEffect i c (.domRel k) = d.domRel i k := rfl

theorem applyEffect_attachRing : d.applyEffect i c .attachRing = d.attachRing i := rfl

@[simp] theorem applyEffect_nc (e : Effect) : (d.applyEffect i c e).nc = d.nc := by
  cases e with
  | freeWeight id => simp only [applyEffect_freeWeight, freeWeight]; split <;> rfl
  | enqueue w cw => simp only [applyEffect_enqueue, enqueue]; split <;> rfl
  | domRel k => simp only [applyEffect_domRel, domRel, domRelease_nc]; rfl
  | _ => rfl

@[simp] theorem applyEffect_activeDom (e : Effect) : (d.applyEffect i c e).activeDom = d.activeDom := by
  cases e with
  | freeWeight id => simp only [applyEffect_freeWeight, freeWeight]; split <;> rfl
  | enqueue w cw => simp only [applyEffect_enqueue, enqueue]; split <;> rfl
  | domRel k => simp only [applyEffect_domRel, domRel, domRelease_activeDom]; rfl
  | _ => rfl

/-- Only an accepted RUN touches the queue. -/
theorem applyEffect_q (e : Effect) :
    (d.applyEffect i c e).q = match e with | .enqueue w _ => (d.q.wkAlloc w).getD d.q | _ => d.q := by
  cases e with
  | freeWeight id => simp only [applyEffect_freeWeight, freeWeight]; split <;> rfl
  | enqueue w cw => simp only [applyEffect_enqueue, enqueue]; split <;> rename_i h <;> rw [h] <;> rfl
  | domRel k => simp only [applyEffect_domRel, domRel, domRelease_q]; rfl
  | _ => rfl

theorem applyEffect_other (e : Effect) {j : Nat} (hj : j ≠ i) : (d.applyEffect i c e).cl j = d.cl j := by
  cases e with
  | none => rfl
  | enqueue w cw => simp only [applyEffect_enqueue, enqueue]; split <;> rfl
  | freeWeight id =>
      simp only [applyEffect_freeWeight, freeWeight]
      split
      · rfl
      · exact Function.update_of_ne hj _ _
  | domRel k =>
      simp only [applyEffect_domRel, domRel, domRelease_cl]
      exact Function.update_of_ne hj _ _
  | _ => exact Function.update_of_ne hj _ _

@[simp] theorem applyEffect_fd (e : Effect) (j : Nat) : ((d.applyEffect i c e).cl j).fd = (d.cl j).fd := by
  by_cases hj : j = i
  · subst hj
    cases e with
    | none => rfl
    | enqueue w cw => simp only [applyEffect_enqueue, enqueue]; split <;> rfl
    | freeWeight id => simp only [applyEffect_freeWeight, freeWeight]; split <;> simp
    | domRel k => simp [applyEffect_domRel, domRel, setClient]
    | hello => simp [applyEffect_hello, hello]
    | addWeight w => simp [applyEffect_addWeight, addWeight]
    | addKv HD Lmax => simp [applyEffect_addKv, addKv]
    | domReq k => simp [applyEffect_domReq, domReq]
    | attachRing => simp [applyEffect_attachRing, attachRing, setClient]
  · rw [applyEffect_other d i c e hj]

/-- The slot a live client of `drop i` had before: the last one fills the hole. -/
def survivor (nc i j : Nat) : Nat := if j = i then nc - 1 else j

theorem survivor_lt {nc i j : Nat} (hj : j < nc - 1) : survivor nc i j < nc := by
  unfold survivor; split <;> omega

theorem survivor_ne {nc i j : Nat} (hj : j < nc - 1) : survivor nc i j ≠ i := by
  unfold survivor; split <;> omega

theorem survivor_inj {nc i j k : Nat} (hj : j < nc - 1) (hk : k < nc - 1)
    (h : survivor nc i j = survivor nc i k) : j = k := by
  unfold survivor at h; split at h <;> split at h <;> omega

/-- Every slot but the dropped one is some survivor. -/
theorem exists_survivor {nc i k : Nat} (hi : i < nc) (hk : k < nc) (hne : k ≠ i) :
    ∃ j, j < nc - 1 ∧ survivor nc i j = k := by
  by_cases hlast : k = nc - 1
  · exact ⟨i, by omega, by simp [survivor, hlast]⟩
  · exact ⟨k, by omega, by simp [survivor, hne]⟩

@[simp] theorem drop_nc : (d.drop i).nc = d.nc - 1 := by
  simp only [drop, releaseOwned, domRelease_nc, clientReclaim]

theorem drop_cl {j : Nat} (hj : j < d.nc - 1) : (d.drop i).cl j = d.cl (survivor d.nc i j) := by
  simp only [drop, releaseOwned, domRelease_cl, clientReclaim, domRelease_nc]
  unfold survivor
  by_cases h : j = i
  · have hne : d.nc - 1 ≠ i := by omega
    simp [h, hne]
  · simp [h]

@[simp] theorem drop_q : (d.drop i).q = d.q.wkPurgeFd (d.cl i).fd := by
  simp only [drop, releaseOwned, domRelease_q, clientReclaim]

@[simp] theorem drop_activeDom : (d.drop i).activeDom = d.activeDom := by
  simp only [drop, releaseOwned, domRelease_activeDom, clientReclaim]

theorem drop_weights : (d.drop i).weights = d.weights.freeAll ((d.cl i).wt.map (·.w)) := by
  simp only [drop, releaseOwned, domRelease_weights, clientReclaim]

theorem drop_kvs : (d.drop i).kvs = d.kvs.freeAll ((d.cl i).kvt.map (·.kv)) := by
  simp only [drop, releaseOwned, domRelease_kvs, clientReclaim]

theorem drop_domInuse (k : Nat) : (d.drop i).domInuse k =
    if 1 ≤ k ∧ k < orkdNdom ∧ (k = (d.cl i).domain ∨ (d.cl i).ownedDom k) then false else d.domInuse k := by
  simp only [drop, releaseOwned, domRelease_domInuse, clientReclaim]
  by_cases h1 : 1 ≤ k ∧ k < orkdNdom
  · by_cases h2 : (d.cl i).ownedDom k
    · simp [h1, h2]
    · by_cases h3 : k = (d.cl i).domain
      · subst h3; simp [h1]
      · simp [h2, h3]
  · by_cases h3 : k = (d.cl i).domain
    · subst h3; grind
    · grind

end Daemon

/-- A quantum touches the queue and the active domain, nothing else of the daemon. -/
theorem dispatchStep_d (s : Sys) (rc : Int) (out : Nat → UInt32) :
    ∃ q a, (dispatchStep s rc out).d = { s.d with q := q, activeDom := a } := by
  have h := dispatchStep_cases s rc out
  generalize dispatchStep s rc out = t at h ⊢
  cases h <;> exact ⟨_, _, rfl⟩

@[simp] theorem dispatchStep_conn (s : Sys) (rc : Int) (out : Nat → UInt32) :
    (dispatchStep s rc out).os.conn = s.os.conn := by
  have h := dispatchStep_cases s rc out
  generalize dispatchStep s rc out = t at h ⊢
  cases h <;> rfl

@[simp] theorem dispatchStep_nextConn (s : Sys) (rc : Int) (out : Nat → UInt32) :
    (dispatchStep s rc out).os.nextConn = s.os.nextConn := by
  have h := dispatchStep_cases s rc out
  generalize dispatchStep s rc out = t at h ⊢
  cases h <;> rfl

/-- Live clients and open descriptors belong to each other. -/
structure Connected (s : Sys) : Prop where
  nc_le : s.d.nc ≤ orkdMaxClients
  open_conn : ∀ i, i < s.d.nc → ∃ c, s.os.conn (s.d.cl i).fd = some c
  fd_inj : ∀ i j, i < s.d.nc → j < s.d.nc → (s.d.cl i).fd = (s.d.cl j).fd → i = j
  owned : ∀ fd c, s.os.conn fd = some c → ∃ i, i < s.d.nc ∧ (s.d.cl i).fd = fd
  conn_inj : ∀ fd fd' c, s.os.conn fd = some c → s.os.conn fd' = some c → fd = fd'
  conn_lt : ∀ fd c, s.os.conn fd = some c → c < s.os.nextConn

namespace Connected

variable {s : Sys}

theorem conn_eq (h : Connected s) {i : Nat} (hi : i < s.d.nc) : s.os.conn (s.d.cl i).fd = some (s.connOf i) := by
  obtain ⟨c, hc⟩ := h.open_conn i hi
  simp only [Sys.connOf, hc, Option.getD_some]

theorem connOf_inj (h : Connected s) {i j : Nat} (hi : i < s.d.nc) (hj : j < s.d.nc)
    (hij : s.connOf i = s.connOf j) : i = j :=
  h.fd_inj i j hi hj (h.conn_inj _ _ _ (h.conn_eq hi) (hij ▸ h.conn_eq hj))

theorem connOf_lt (h : Connected s) {i : Nat} (hi : i < s.d.nc) : s.connOf i < s.os.nextConn :=
  h.conn_lt _ _ (h.conn_eq hi)

/-- Events that keep clients, descriptors and connections keep the correspondence. -/
theorem of_same {t : Sys} (h : Connected s) (hnc : t.d.nc = s.d.nc)
    (hfd : ∀ j, (t.d.cl j).fd = (s.d.cl j).fd) (hconn : t.os.conn = s.os.conn)
    (hnext : s.os.nextConn ≤ t.os.nextConn) : Connected t where
  nc_le := by rw [hnc]; exact h.nc_le
  open_conn i hi := by
    rw [hfd, hconn]
    exact h.open_conn i (by omega)
  fd_inj i j hi hj hij := by
    rw [hfd, hfd] at hij
    exact h.fd_inj i j (by omega) (by omega) hij
  owned fd c hc := by
    rw [hconn] at hc
    obtain ⟨i, hi, hfdi⟩ := h.owned fd c hc
    exact ⟨i, by omega, by rw [hfd, hfdi]⟩
  conn_inj fd fd' c hc hc' := by
    rw [hconn] at hc hc'
    exact h.conn_inj fd fd' c hc hc'
  conn_lt fd c hc := by
    rw [hconn] at hc
    exact Nat.lt_of_lt_of_le (h.conn_lt fd c hc) hnext

theorem accept (h : Connected s) {fd : Nat} (hfd : s.os.conn fd = none) : Connected (acceptStep s fd) := by
  unfold acceptStep
  split
  · rename_i hroom
    have hnew : ∀ i, i < s.d.nc → (s.d.cl i).fd ≠ fd := by
      intro i hi heq
      obtain ⟨c, hc⟩ := h.open_conn i hi
      rw [heq, hfd] at hc
      cases hc
    have hcl : ∀ i, ((s.d.acceptIn fd s.d.domAlloc).cl i).fd = if i = s.d.nc then fd else (s.d.cl i).fd := by
      intro i
      by_cases hi : i = s.d.nc <;> simp [Daemon.acceptIn, hi]
    have hncv : (s.d.acceptIn fd s.d.domAlloc).nc = s.d.nc + 1 := rfl
    refine ⟨by simp only [hncv]; omega, ?_, ?_, ?_, ?_, ?_⟩
    · intro i hi
      simp only [hncv] at hi
      rw [hcl]
      by_cases hnc : i = s.d.nc
      · exact ⟨s.os.nextConn, by simp [hnc]⟩
      · have hlt : i < s.d.nc := by omega
        obtain ⟨c, hc⟩ := h.open_conn i hlt
        exact ⟨c, by simp [hnc, hnew i hlt, hc]⟩
    · intro i j hi hj hij
      simp only [hncv] at hi hj
      simp only [hcl] at hij
      by_cases hi' : i = s.d.nc <;> by_cases hj' : j = s.d.nc
      · omega
      · rw [if_pos hi', if_neg hj'] at hij
        exact absurd hij.symm (hnew j (by omega))
      · rw [if_neg hi', if_pos hj'] at hij
        exact absurd hij (hnew i (by omega))
      · rw [if_neg hi', if_neg hj'] at hij
        exact h.fd_inj i j (by omega) (by omega) hij
    · intro fd' c hc
      by_cases hfd' : fd' = fd
      · exact ⟨s.d.nc, by simp [hncv], by rw [hcl, if_pos rfl, hfd']⟩
      · simp only [Function.update_of_ne hfd'] at hc
        obtain ⟨i, hi, hi'⟩ := h.owned fd' c hc
        exact ⟨i, by simp only [hncv]; omega, by rw [hcl, if_neg (by omega), hi']⟩
    · intro a b c ha hb
      by_cases ha' : a = fd <;> by_cases hb' : b = fd
      · rw [ha', hb']
      · simp only [ha', Function.update_self, Option.some.injEq] at ha
        simp only [Function.update_of_ne hb'] at hb
        have hlt : c < s.os.nextConn := h.conn_lt b c hb
        rw [ha] at hlt
        exact absurd hlt (Nat.lt_irrefl _)
      · simp only [hb', Function.update_self, Option.some.injEq] at hb
        simp only [Function.update_of_ne ha'] at ha
        have hlt : c < s.os.nextConn := h.conn_lt a c ha
        rw [hb] at hlt
        exact absurd hlt (Nat.lt_irrefl _)
      · simp only [Function.update_of_ne ha'] at ha
        simp only [Function.update_of_ne hb'] at hb
        exact h.conn_inj a b c ha hb
    · intro a c ha
      by_cases ha' : a = fd
      · simp only [ha', Function.update_self, Option.some.injEq] at ha
        subst ha
        exact Nat.lt_succ_self _
      · simp only [Function.update_of_ne ha'] at ha
        exact Nat.lt_succ_of_lt (h.conn_lt a c ha)
  · exact h.of_same rfl (fun _ => rfl) rfl (Nat.le_succ _)

theorem drop (h : Connected s) {i : Nat} (hi : i < s.d.nc) : Connected (dropStep s i) := by
  have hcl : ∀ j, j < s.d.nc - 1 → (s.d.drop i).cl j = s.d.cl (Daemon.survivor s.d.nc i j) :=
    fun j hj => s.d.drop_cl i hj
  have hconn : ∀ fd, fd ≠ (s.d.cl i).fd → (s.os.close (s.d.cl i).fd).conn fd = s.os.conn fd :=
    fun fd hne => Function.update_of_ne hne _ _
  have hsome : ∀ fd c, (s.os.close (s.d.cl i).fd).conn fd = some c → fd ≠ (s.d.cl i).fd ∧ s.os.conn fd = some c := by
    intro fd c hc
    by_cases hfd : fd = (s.d.cl i).fd
    · simp [Os.close, hfd] at hc
    · exact ⟨hfd, (hconn fd hfd) ▸ hc⟩
  have hncv : (dropStep s i).d.nc = s.d.nc - 1 := by simp only [dropStep, Daemon.drop_nc]
  refine ⟨?_, ?_, ?_, ?_, ?_, ?_⟩
  · have := h.nc_le
    omega
  · intro j hj
    rw [hncv] at hj
    obtain ⟨c, hc⟩ := h.open_conn _ (Daemon.survivor_lt (i := i) hj)
    refine ⟨c, ?_⟩
    simp only [dropStep, hcl j hj]
    rw [hconn _ fun heq => Daemon.survivor_ne hj (h.fd_inj _ _ (Daemon.survivor_lt hj) hi heq)]
    exact hc
  · intro j k hj hk hjk
    rw [hncv] at hj hk
    simp only [dropStep, hcl j hj, hcl k hk] at hjk
    exact Daemon.survivor_inj hj hk (h.fd_inj _ _ (Daemon.survivor_lt hj) (Daemon.survivor_lt hk) hjk)
  · intro fd c hc
    obtain ⟨hne, hc⟩ := hsome fd c hc
    obtain ⟨k, hk, hkfd⟩ := h.owned fd c hc
    obtain ⟨j, hj, hjk⟩ := Daemon.exists_survivor hi hk fun hki => hne (by rw [← hkfd, hki])
    exact ⟨j, by rw [hncv]; exact hj, by simp only [dropStep, hcl j hj, hjk, hkfd]⟩
  · intro a b c ha hb
    exact h.conn_inj a b c (hsome a c ha).2 (hsome b c hb).2
  · intro a c ha
    exact h.conn_lt a c (hsome a c ha).2

theorem serveWith_nc (i : Nat) (c : ConnId) (tag : UInt64) (o : Outcome) :
    (serveWith s i c tag o).d.nc = s.d.nc := by
  simp [serveWith]

theorem serve (h : Connected s) (i : Nat) (c : ConnId) (tag : UInt64) (o : Outcome) :
    Connected (serveWith s i c tag o) :=
  h.of_same (by simp [serveWith]) (by simp [serveWith]) rfl (Nat.le_refl _)

theorem finish (h : Connected s) {i : Nat} (hi : i < s.d.nc) (drop : Bool) : Connected (finishMessage s i drop) := by
  unfold finishMessage
  split
  · exact h.drop hi
  · exact h

theorem dispatch (h : Connected s) (rc : Int) (out : Nat → UInt32) : Connected (dispatchStep s rc out) := by
  obtain ⟨q, a, hd⟩ := dispatchStep_d s rc out
  exact h.of_same (by rw [hd]) (by simp [hd]) (by simp) (by simp)

theorem ring (h : Connected s) (i : Nat) : Connected (ringStep s i) := by
  refine h.of_same rfl (fun j => ?_) rfl (Nat.le_refl _)
  by_cases hj : j = i <;> simp [ringStep, Daemon.setClient, hj]

theorem step (h : Connected s) {e : Event} (he : Enabled s e) : Connected (next s e) := by
  cases e with
  | accept fd => exact h.accept he
  | message i env =>
      have hi : i < s.d.nc := he
      exact (h.serve i _ _ _).finish (by simpa [serveWith] using hi) _
  | hangup i => exact h.drop he
  | dispatch rc out => exact h.dispatch rc out
  | ring i r => exact h.ring i

/-! What each event does to the connection of a live client. -/

theorem connOf_of_same {t : Sys} {i : Nat} (hfd : (t.d.cl i).fd = (s.d.cl i).fd) (hconn : t.os.conn = s.os.conn) :
    t.connOf i = s.connOf i := by
  simp only [Sys.connOf, hfd, hconn]

theorem connOf_serve (i : Nat) (c : ConnId) (tag : UInt64) (o : Outcome) (j : Nat) :
    (serveWith s i c tag o).connOf j = s.connOf j :=
  connOf_of_same (by simp [serveWith]) rfl

theorem connOf_ring (i j : Nat) : (ringStep s i).connOf j = s.connOf j := by
  refine connOf_of_same ?_ rfl
  by_cases hj : j = i <;> simp [ringStep, Daemon.setClient, hj]

theorem connOf_accept (h : Connected s) {fd : Nat} (hfd : s.os.conn fd = none) {i : Nat} (hi : i < s.d.nc) :
    (acceptStep s fd).connOf i = s.connOf i := by
  unfold acceptStep
  split
  · have hne : (s.d.cl i).fd ≠ fd := by
      intro heq
      rw [← heq, h.conn_eq hi] at hfd
      cases hfd
    simp [Sys.connOf, Daemon.acceptIn, Nat.ne_of_lt hi, hne]
  · rfl

theorem connOf_drop (h : Connected s) {i j : Nat} (hi : i < s.d.nc) (hj : j < s.d.nc - 1) :
    (dropStep s i).connOf j = s.connOf (Daemon.survivor s.d.nc i j) := by
  have hne : (s.d.cl (Daemon.survivor s.d.nc i j)).fd ≠ (s.d.cl i).fd := fun heq =>
    Daemon.survivor_ne hj (h.fd_inj _ _ (Daemon.survivor_lt hj) hi heq)
  simp only [Sys.connOf, dropStep, Os.close, s.d.drop_cl i hj, Function.update_of_ne hne]

end Connected

theorem Initial.connected {s : Sys} (h : Initial s) : Connected s where
  nc_le := by rw [h.nc]; exact Nat.zero_le _
  open_conn i hi := by rw [h.nc] at hi; omega
  fd_inj i j hi := by rw [h.nc] at hi; omega
  owned fd c hc := by rw [h.conn] at hc; cases hc
  conn_inj fd fd' c hc := by rw [h.conn] at hc; cases hc
  conn_lt fd c hc := by rw [h.conn] at hc; cases hc

theorem connected_of_reachable {P : Sys → Event → Prop} {s : Sys} (h : orkd.ReachableOn P s) : Connected s := by
  refine h.invariant (fun s (h0 : Initial s) => h0.connected) ?_
  rintro s e t _ hs _ ⟨he, rfl⟩
  exact hs.step he

/-- The invariant rule for the daemon's tables: one case for each thing an event can do to them. `A` and `E` are
what a run is asked to meet when it accepts a client and when it performs the effect of a request. -/
structure TableInvariant (A : Daemon → Prop) (E : Daemon → Nat → Effect → Prop) (I : Daemon → Prop) : Prop where
  schedule : ∀ d q a, I d → I { d with q := q, activeDom := a }
  ring : ∀ d i k, I d → I (d.setClient i { d.cl i with ringTail := k })
  accept : ∀ d fd, A d → I d → I (d.acceptIn fd d.domAlloc)
  effect : ∀ d i c m inp tag e, i < d.nc → EffectOk d (d.cl i) m inp tag e → E d i e → I d → I (d.applyEffect i c e)
  drop : ∀ d i, i < d.nc → I d → I (d.drop i)

theorem TableInvariant.step {A : Daemon → Prop} {E : Daemon → Nat → Effect → Prop} {I : Daemon → Prop}
    (hI : TableInvariant A E I) {s : Sys} {e : Event} (he : Enabled s e)
    (hA : ∀ fd, e = .accept fd → s.d.nc < orkdMaxClients → A s.d)
    (hE : ∀ i env, e = .message i env → E s.d i (s.outcome i env).effect) (h : I s.d) : I (next s e).d := by
  cases e with
  | accept fd =>
      simp only [next, acceptStep]
      split
      · rename_i hroom
        exact hI.accept s.d fd (hA fd rfl hroom) h
      · exact h
  | message i env =>
      have hi : i < s.d.nc := he
      have hserve : I (serveWith s i (s.connOf i) (s.header i).tag (s.outcome i env)).d :=
        hI.effect s.d i (s.connOf i) _ _ _ _ hi (serviceMsg_effect ..) (hE i env rfl) h
      simp only [next, messageStep, finishMessage]
      split
      · exact hI.drop _ i (by simpa [serveWith] using hi) hserve
      · exact hserve
  | hangup i => exact hI.drop s.d i he h
  | dispatch rc out =>
      obtain ⟨q, a, hd⟩ := dispatchStep_d s rc out
      have := hI.schedule s.d q a h
      rwa [← hd] at this
  | ring i r => exact hI.ring s.d i _ h

theorem TableInvariant.of_reachable {A : Daemon → Prop} {E : Daemon → Nat → Effect → Prop} {I : Daemon → Prop}
    (hI : TableInvariant A E I) (h0 : ∀ s, Initial s → I s.d) {P : Sys → Event → Prop}
    (hA : ∀ s fd, P s (.accept fd) → s.d.nc < orkdMaxClients → A s.d)
    (hE : ∀ s i env, P s (.message i env) → E s.d i (s.outcome i env).effect) {s : Sys} (h : orkd.ReachableOn P s) :
    I s.d := by
  refine h.invariant (I := fun s => I s.d) h0 ?_
  rintro s e t _ hs hP ⟨he, rfl⟩
  exact hI.step he (fun fd hfd => hA s fd (hfd ▸ hP)) (fun i env hm => hE s i env (hm ▸ hP)) hs

end OrkDriver.Orkd
