import FutureWas.Model.Sample
import FutureWas.Requests

/-!
# Tenant isolation

No request reads, caches or changes what belongs to another user. Over any interleaved run
the caches stay sound (`run_sound`), and the changes of a request are confined to the rows and
the key of the user it ends as (`run_confined`). A request other than `Login` cannot tell two
states apart that agree on its user: `same_for_user`.
-/

set_option autoImplicit false

namespace FutureWas.Isolation

open Effect UowM Uow

/-! ## Any number of requests -/

section

variable {ι : Type} [DecidableEq ι] {c : Container} {marshals : Message → Bool}
  {requests : ι → Incoming} {w : World} {tr : List (Occurrence ι Op.Resp World)}
  {cfg : Config ι Op.Resp UnitOfWork Reply World}

theorem expires_rely (channel : Option UInt64) {w w' : World} (h : World.Expires w w') :
    (anyone c channel).rely w.data w'.data := by
  cases h with
  | cache o id => exact ⟨.of_db rfl, fun hd => hd.expire o id⟩
  | session id => exact ⟨.refl _, fun hd => hd⟩
  | lock key => exact ⟨.refl _, fun hd => hd⟩

def setting (c : Container) (r : Incoming) : Setting Op.Resp World :=
  (anyone c r.raw.channel).comap World.data World.Step

theorem run_settles (hw : w.data.Sound c)
    (h : Exec World.Step World.Expires (arrived (server c marshals) requests w) tr cfg) :
    (∀ i, (setting c (requests i)).traced.wp (cfg.procs i)
      (fun o s => Settled c (requests i) o (s.1.data, s.2.map (Event.map World.data)))
        (cfg.world, own i tr)) ∧
    ∀ i e, .act i e ∈ tr → (setting c (requests i)).pre e.op e.before ∧
      (setting c (requests i)).guar e.op e.resp e.before e.after := by
  refine Exec.sound (S := fun i => setting c (requests i)) (fun i op w r w' h => h)
    (fun i w w' h => expires_rely (requests i).raw.channel h)
    (fun i j _ op r w w' _ hg => ⟨hg.1, hg.2.1⟩) ?_ ?_ h
  · rintro i o ⟨w₁, t₁⟩ ⟨w₂, t₂⟩ ⟨hr, ht⟩ hs
    dsimp only at ht
    subst ht
    have hstable : (anyone c (requests i).raw.channel).traced.Stable (Settled c (requests i) o) :=
      settled_stable o
    have hmoved : (anyone c (requests i).raw.channel).traced.rely
        (w₁.data, t₂.map (Event.map World.data)) (w₂.data, t₂.map (Event.map World.data)) :=
      ⟨hr, rfl⟩
    exact hstable _ _ hmoved hs
  · intro i
    exact Setting.wp_traced_comap (fun op w r w' h => World.Step.data h) (request_settles hw)

theorem run_grows (hw : w.data.Sound c)
    (h : Exec World.Step World.Expires (arrived (server c marshals) requests w) tr cfg) :
    w.data.Grows cfg.world.data ∧ cfg.world.data.Sound c := by
  have hrel := h.related (R := fun w w' => (anyone c none).rely w.data w'.data)
    (fun w => (anyone c none).rely_refl _) (anyone c none).rely_trans
    (fun w w' h => expires_rely none h) fun i e he => by
      have hg := ((run_settles hw h).2 i e he).2
      exact ⟨hg.1, hg.2.1⟩
  exact ⟨hrel.1, hrel.2 hw⟩

theorem grows_after (hw : w.data.Sound c) {t₁ t₂ : List (Occurrence ι Op.Resp World)}
    {cfg₁ : Config ι Op.Resp UnitOfWork Reply World}
    (h : Exec World.Step World.Expires (arrived (server c marshals) requests w) (t₁ ++ t₂) cfg)
    (h₂ : Exec World.Step World.Expires cfg₁ t₂ cfg) :
    cfg₁.world.data.Grows cfg.world.data := by
  refine h₂.related (R := fun w w' => w.data.Grows w'.data) (fun _ => .refl _) ?_ ?_ ?_
  · intro w₀ w₁ w₂ h₁ h₂
    exact h₁.trans h₂
  · intro w₀ w₁ hexpires
    exact (expires_rely (c := c) none hexpires).1
  · intro j e he
    exact ((run_settles hw h).2 j e (List.mem_append_right _ he)).2.1

theorem grows_from (hw : w.data.Sound c) {t₁ t₂ : List (Occurrence ι Op.Resp World)} {i : ι}
    {e : Event Op.Resp World}
    (h : Exec World.Step World.Expires (arrived (server c marshals) requests w)
      (t₁ ++ .act i e :: t₂) cfg) : e.after.data.Grows cfg.world.data := by
  have hcut : t₁ ++ .act i e :: t₂ = (t₁ ++ [.act i e]) ++ t₂ := by simp
  rw [hcut] at h
  obtain ⟨cfg₁, h₁, h₂⟩ := h.split
  have hgrows := grows_after hw h h₂
  obtain ⟨cfg₀, k, -, -, -, -, rfl⟩ := h₁.last_act
  exact hgrows

theorem run_confined (hw : w.data.Sound c)
    (h : Exec World.Step World.Expires (arrived (server c marshals) requests w) tr cfg) {i : ι}
    {o : Outcome UnitOfWork Reply} (hend : cfg.procs i = o.prog) :
    ∀ e ∈ own i tr,
      ConfinedTo (endsAs (requests i).raw.userId o) e.before.data e.after.data := by
  have hwp := (run_settles hw h).1 i
  rw [hend] at hwp
  have hsettled :
      Settled c (requests i) o (cfg.world.data, (own i tr).map (Event.map World.data)) := by
    cases o with
    | ret rep => exact hwp
    | raise u => exact hwp
  intro e he
  exact hsettled.1 _ (List.mem_map_of_mem he)

end

/-! ## Two states that agree on one user -/

/-- The states agree on the session, the lock, the cache key, the account row and the shard
rows of the user (and on the random tokens handed out so far). -/
structure Agree (c : Container) (uid : UInt64) (w v : World) : Prop where
  session : w.session uid = v.session uid
  lock : w.lock (.user uid) = v.lock (.user uid)
  issued : w.issued = v.issued
  cache : w.data.cache .user uid = v.data.cache .user uid
  account : (w.data.db c.gameDB).select .account uid = (v.data.db c.gameDB).select .account uid
  rows : ∀ e db, e.owner = .user → w.data.routed c uid e = some db →
    (w.data.db db).select e uid = (v.data.db db).select e uid

section

variable {t t' : Tables} {uid : UInt64} {e : EntityKind}

def Copies (t : Tables) (m : Row e) : Prop :=
  m.primaryKey = 0 ∨ m.static ∈ (t e).map Row.static

theorem select_update (ht : t.Keyed) {m : Row e} (hm : Copies t m) :
    (t.update e m).select e uid =
      (t.select e uid).map fun row => if row.primaryKey = m.primaryKey then m else row := by
  unfold Tables.select
  rw [Tables.update_self, List.filter_map]
  congr 1
  apply List.filter_congr
  intro row hrow
  by_cases hkey : row.primaryKey = m.primaryKey
  · simp [hkey, Row.ownerID_eq (ht.update_static hm hrow hkey)]
  · simp [hkey]

theorem select_update_of_ne {e' : EntityKind} (h : e' ≠ e) (m : Row e) :
    (t.update e m).select e' uid = t.select e' uid := by
  simp [Tables.select, Tables.update_of_ne t h]

theorem Copies.update (ht : t.Keyed) {m : Row e} (hm : Copies t m) {e' : EntityKind}
    {m' : Row e'} (h : Copies t m') : Copies (t.update e m) m' := by
  unfold Copies
  rw [ht.update_map_static hm e']
  exact h

theorem admits_iff_select (t : Tables) (m : Row e) : t.Admits e m ↔
    ∀ row ∈ t.select e m.ownerID, row.primaryKey ≠ m.primaryKey → m.uniqueIndex.isSome →
      row.uniqueIndex ≠ m.uniqueIndex := by
  constructor
  · intro h row hrow
    exact h row (List.mem_of_mem_filter hrow)
  · intro h row hrow hkey hsome heq
    have howner : row.ownerID = m.ownerID := Row.ownerID_of_uniqueIndex hsome heq
    exact h row (List.mem_filter.mpr ⟨hrow, decide_eq_true howner⟩) hkey hsome heq

theorem updates_iff (ht : t.Keyed) {m : Row e} (hm : Copies t m) :
    t.Updates e m ↔ m.primaryKey = 0 ∨ t.Admits e m := by
  refine or_congr ⟨fun hnone => ?_, fun hzero row hrow heq => ?_⟩ Iff.rfl
  · refine hm.resolve_right fun hmem => ?_
    obtain ⟨row, hrow, hstatic⟩ := List.mem_map.mp hmem
    exact hnone row hrow (Row.primaryKey_eq hstatic)
  · exact ht.ne_zero e row hrow (heq.trans hzero)

theorem updates_agree (ht : t.Keyed) (ht' : t'.Keyed) {m : Row e} (howner : m.ownerID = uid)
    (hm : Copies t m) (hm' : Copies t' m) (hagree : t.select e uid = t'.select e uid) :
    t.Updates e m ↔ t'.Updates e m := by
  rw [updates_iff ht hm, updates_iff ht' hm', admits_iff_select, admits_iff_select, howner, hagree]

theorem runStmts_agree (uid : UInt64) (ch : Choice) {P : EntityKind → Prop} {h : Heap}
    (ops : List Stmt) :
    ∀ (i : ℕ) (t t' : Tables), t.Keyed → t'.Keyed →
      (∀ e, P e → t.select e uid = t'.select e uid) →
      (∀ s ∈ ops, ∃ e r, s = .update e r ∧ P e ∧ (h.cell e r).ownerID = uid ∧
        Copies t (h.cell e r) ∧ Copies t' (h.cell e r)) →
      (runStmts ch i ops t h).1 = (runStmts ch i ops t' h).1 ∧
        (runStmts ch i ops t h).2.2 = (runStmts ch i ops t' h).2.2 ∧
        ∀ e, P e → (runStmts ch i ops t h).2.1.select e uid =
          (runStmts ch i ops t' h).2.1.select e uid := by
  induction ops with
  | nil => exact fun i t t' _ _ hagree _ => ⟨rfl, rfl, hagree⟩
  | cons s ops ih =>
    intro i t t' ht ht' hagree hops
    obtain ⟨e, r, rfl, hP, howner, hm, hm'⟩ := hops s List.mem_cons_self
    have hupdates := updates_agree ht ht' howner hm hm' (hagree e hP)
    simp only [runStmts, hupdates]
    cases ch.stmt i with
    | fails => exact ⟨rfl, rfl, hagree⟩
    | panics => exact ⟨rfl, rfl, hagree⟩
    | ok =>
      dsimp only
      split_ifs
      case neg => exact ⟨rfl, rfl, hagree⟩
      refine ih (i + 1) _ _ (ht.of_map_static (ht.update_map_static hm))
        (ht'.of_map_static (ht'.update_map_static hm')) ?_ ?_
      · intro e' hP'
        by_cases he : e' = e
        · subst he
          rw [select_update ht hm, select_update ht' hm', hagree e' hP']
        · rw [select_update_of_ne he, select_update_of_ne he]
          exact hagree e' hP'
      · intro s hs
        obtain ⟨e', r', rfl, hP', howner', hc, hc'⟩ := hops s (List.mem_cons_of_mem _ hs)
        exact ⟨e', r', rfl, hP', howner', Copies.update ht hm hc, Copies.update ht' hm' hc'⟩

end

section

variable {c : Container} {uid : UInt64} {w v : World}

structure Twin (c : Container) (uid : UInt64) (w v : World) : Prop where
  agree : Agree c uid w v
  left : w.data.Sound c
  right : v.data.Sound c

theorem agree_setCache (h : Agree c uid w v) (fs : Fields) :
    Agree c uid (w.setData (w.data.setCache .user uid fs))
      (v.setData (v.data.setCache .user uid fs)) where
  session := h.session
  lock := h.lock
  issued := h.issued
  cache := by simp [World.setData]
  account := h.account
  rows := h.rows

theorem agree_transaction (ch : Choice) {db : DbId} {ops : List Stmt} {heap : Heap}
    (h : Twin c uid w v) (hw : ∀ s ∈ ops, s.Fits c uid false w.data db heap)
    (hv : ∀ s ∈ ops, s.Fits c uid false v.data db heap)
    (hchange : Change c uid w.data (World.exec ch (.transaction db ops heap) w).2.data) :
    (World.exec ch (.transaction db ops heap) w).1 =
        (World.exec ch (.transaction db ops heap) v).1 ∧
      Agree c uid (World.exec ch (.transaction db ops heap) w).2
        (World.exec ch (.transaction db ops heap) v).2 := by
  have hrun := runStmts_agree uid ch
    (P := fun e => e.owner = .user ∧ w.data.routed c uid e = some db) (h := heap) ops 0 _ _
    (h.left.keyed db) (h.right.keyed db) (fun e hP => h.agree.rows e db hP.1 hP.2) (by
      intro s hs
      have hfit := hw s hs
      have hfit' := hv s hs
      cases s with
      | insert e r => cases hfit.allowed.1
      | update e r =>
        exact ⟨e, r, rfl, ⟨hfit.owner, hfit.routed⟩, hfit.known.1,
          or_iff_not_imp_left.mpr fun hkey => hfit.known.row hkey hfit.routed,
          or_iff_not_imp_left.mpr fun hkey => hfit'.known.row hkey hfit'.routed⟩)
  obtain ⟨hfate, hheap, hrows⟩ := hrun
  simp only [World.exec] at hchange ⊢
  by_cases hfails : ch.fails = true
  · rw [if_pos hfails, if_pos hfails]
    exact ⟨rfl, h.agree⟩
  · rw [if_neg hfails] at hchange ⊢
    rw [if_neg hfails]
    generalize runStmts ch 0 ops (w.data.db db) heap = left at hfate hheap hrows hchange ⊢
    generalize runStmts ch 0 ops (v.data.db db) heap = right at hfate hheap hrows ⊢
    obtain ⟨fate, t, h₁⟩ := left
    obtain ⟨fate', t', h₁'⟩ := right
    dsimp only at hfate hheap hrows
    subst hfate hheap
    cases fate with
    | fails => exact ⟨rfl, h.agree⟩
    | panics => exact ⟨rfl, h.agree⟩
    | ok =>
      dsimp only at hchange ⊢
      by_cases hcommit : ch.commitFails = true
      · rw [if_pos hcommit, if_pos hcommit]
        exact ⟨rfl, h.agree⟩
      · rw [if_neg hcommit] at hchange ⊢
        rw [if_neg hcommit]
        have hselect : ∀ e db', e.owner = .user → w.data.routed c uid e = some db' →
            ((w.data.setDb db t).db db').select e uid =
              ((v.data.setDb db t').db db').select e uid := by
          intro e db' he hdb'
          by_cases hdb : db' = db
          · subst hdb
            rw [Data.setDb_db_self, Data.setDb_db_self]
            exact hrows e ⟨he, hdb'⟩
          · rw [Data.setDb_db_of_ne hdb, Data.setDb_db_of_ne hdb]
            exact h.agree.rows e db' he hdb'
        refine ⟨rfl, { h.agree with account := hselect .account c.gameDB rfl rfl, rows := ?_ }⟩
        intro e db' he hdb'
        have hrouted : (w.data.setDb db t).routed c uid e = w.data.routed c uid e :=
          Data.routed_of_accounts hchange.accounts
        exact hselect e db' he (hrouted.symm.trans hdb')

theorem twin_exec (ch : Choice) (op : Op) (h : Twin c uid w v)
    (hw : MayIssue c uid false w.data op) (hv : MayIssue c uid false v.data op)
    (hchange : Change c uid w.data (World.exec ch op w).2.data) :
    (World.exec ch op w).1 = (World.exec ch op v).1 ∧
      Agree c uid (World.exec ch op w).2 (World.exec ch op v).2 := by
  cases op with
  | findUserID | create => exact hw.elim
  | sessionSet id token => simp [MayIssue] at hw
  | select db e id =>
    obtain ⟨he, rfl, hdb⟩ := hw
    refine ⟨?_, h.agree⟩
    simp only [World.exec, h.agree.rows e db he hdb]
  | transaction db ops heap => exact agree_transaction ch h hw hv hchange
  | cacheGet e id =>
    obtain ⟨he, rfl⟩ := hw
    refine ⟨?_, h.agree⟩
    simp only [World.exec, he, h.agree.cache]
  | cacheSet e id val =>
    obtain ⟨rfl, he, -⟩ := hw
    simp only [World.exec, he, h.agree.cache]
    split_ifs
    · exact ⟨rfl, h.agree⟩
    · exact ⟨rfl, agree_setCache h.agree _⟩
  | cacheSetMulti o id fs =>
    obtain ⟨rfl, rfl, -⟩ := hw
    simp only [World.exec, h.agree.cache]
    split_ifs
    · exact ⟨rfl, h.agree⟩
    · exact ⟨rfl, agree_setCache h.agree _⟩
  | cacheDeleteAll o id =>
    obtain ⟨rfl, rfl⟩ := hw
    simp only [World.exec]
    split_ifs
    · exact ⟨rfl, h.agree⟩
    · exact ⟨rfl, agree_setCache h.agree _⟩
  | sessionVerify id token =>
    have hid : id = uid := hw
    subst hid
    exact ⟨by simp only [World.exec, h.agree.session], h.agree⟩
  | lockAcquire key token =>
    have hkey : key = .user uid := hw
    subst hkey
    simp only [World.exec, h.agree.lock]
    split_ifs
    · exact ⟨rfl, h.agree⟩
    · exact ⟨rfl, { h.agree with lock := by simp }⟩
    · exact ⟨rfl, h.agree⟩
  | lockRelease key token =>
    have hkey : key = .user uid := hw
    subst hkey
    simp only [World.exec, h.agree.lock]
    split_ifs
    · exact ⟨rfl, h.agree⟩
    · exact ⟨rfl, { h.agree with lock := by simp }⟩
    · exact ⟨rfl, h.agree⟩
  | newToken =>
    simp only [World.exec, h.agree.issued]
    split_ifs
    · exact ⟨rfl, { h.agree with issued := by simp }⟩
    · exact ⟨rfl, h.agree⟩
  | lockWait | now | timeNow | intN | enter => exact ⟨rfl, h.agree⟩

/-- A request other than `Login` answers and changes the same in both states. -/
theorem same_for_user {marshals : Message → Bool} {r : Incoming} (hlogin : ¬ r.raw.LogsIn)
    (h : Twin c r.raw.userId w v) (cs : ℕ → Choice) :
    let p := r.program (server c marshals)
    calls (p.run World.exec cs 0 w).1 = calls (p.run World.exec cs 0 v).1 ∧
      (p.run World.exec cs 0 w).2.1 = (p.run World.exec cs 0 v).2.1 ∧
      Agree c r.raw.userId (p.run World.exec cs 0 w).2.2 (p.run World.exec cs 0 v).2.2 := by
  have hstep : ∀ op w r w', World.Step op w r w' → Data.Step op w.data r w'.data :=
    fun _ _ _ _ h => h.data
  have hwp : ∀ w : World, w.data.Sound c →
      ((tenant c r.raw.userId false).comap World.data World.Step).wp
        (r.program (server c marshals)) (fun _ _ => True) w := fun w hw =>
    Setting.wp_mono (fun _ _ _ => trivial) (Setting.wp_comap hstep (request_wp hlogin hw))
  have hexec : ∀ ch op w, World.Step op w (World.exec ch op w).1 (World.exec ch op w).2 :=
    fun ch op w => ⟨ch, rfl⟩
  have hrun := lockstep (S := (tenant c r.raw.userId false).comap World.data World.Step)
    (R := Twin c r.raw.userId) hexec ?_ (hwp w h.left) (hwp v h.right) h cs 0
  · exact ⟨hrun.1, hrun.2.1, hrun.2.2.agree⟩
  · intro ch op w v htwin hw hv hgw hgv
    obtain ⟨hresp, hagree⟩ := twin_exec ch op htwin hw hv hgw
    exact ⟨hresp, hagree, hgw.sound htwin.left, hgv.sound htwin.right⟩

end

/-! ## The property -/

/-- Isolation of tenants, from any sound state and along any run. -/
theorem tenant_isolation {ι : Type} [DecidableEq ι] {c : Container} {marshals : Message → Bool}
    {requests : ι → Incoming} {w : World} {tr : List (Occurrence ι Op.Resp World)}
    {cfg : Config ι Op.Resp UnitOfWork Reply World} (hw : w.data.Sound c)
    (h : Exec World.Step World.Expires (arrived (server c marshals) requests w) tr cfg) :
    cfg.world.data.Sound c ∧
    (∀ uid e v, cfg.world.data.cache .user uid e = some v →
      e.owner = .user ∧ ∀ m ∈ v.rows, m.ownerID = uid) ∧
    (∀ i o, cfg.procs i = o.prog → ∀ e ∈ own i tr,
      ConfinedTo (endsAs (requests i).raw.userId o) e.before.data e.after.data) ∧
    ∀ (r : Incoming) (v : World) (cs : ℕ → Choice), ¬ r.raw.LogsIn → v.data.Sound c →
      Agree c r.raw.userId cfg.world v →
        let p := r.program (server c marshals)
        calls (p.run World.exec cs 0 cfg.world).1 = calls (p.run World.exec cs 0 v).1 ∧
          (p.run World.exec cs 0 cfg.world).2.1 = (p.run World.exec cs 0 v).2.1 ∧
          Agree c r.raw.userId (p.run World.exec cs 0 cfg.world).2.2
            (p.run World.exec cs 0 v).2.2 := by
  have hsound := (run_grows hw h).2
  refine ⟨hsound, ?_, fun i o hend => run_confined hw h hend, ?_⟩
  · intro uid e v hv
    obtain ⟨howner, -, hknown⟩ := hsound.cached uid e v hv
    exact ⟨howner, fun m hm => (hknown m hm).1⟩
  · intro r v cs hlogin hv hagree
    exact same_for_user hlogin ⟨hagree, hsound, hv⟩ cs

theorem sound_world : Sample.world.data.Sound Sample.container := by
  refine ⟨fun db => ⟨fun e => ?_, fun e m hm => ?_⟩, fun id e v hv => ?_⟩
  · simp only [Sample.world]
    split <;> simp
  · simp only [Sample.world] at hm
    split at hm
    · rw [List.mem_singleton.mp hm]
      decide
    · rw [List.mem_singleton.mp hm]
      decide
    · cases hm
  · cases hv

theorem sound_empty : Sample.emptyWorld.data.Sound Sample.container where
  keyed _ := ⟨fun _ => List.nodup_nil, by simp [Sample.emptyWorld]⟩
  cached _ _ _ h := by cases h

def upgrade : List (Occurrence Unit Op.Resp World) × Config Unit Op.Resp UnitOfWork Reply World :=
  play World.exec (.act () {} :: .act () { token := "a" } :: List.replicate 12 (.act () {}))
    (arrived Sample.servers (fun _ => Sample.upgradeRequest 1 "s" 5) Sample.world)

theorem exec_upgrade : Exec World.Step World.Expires
    (arrived Sample.servers (fun _ => Sample.upgradeRequest 1 "s" 5) Sample.world) upgrade.1
      upgrade.2 :=
  exec_play _ (by simp) _

theorem tenant_isolation_upgrade :
    upgrade.2.world.data.Sound Sample.container ∧
      ∀ e ∈ own () upgrade.1, ConfinedTo 1 e.before.data e.after.data := by
  have h := tenant_isolation sound_world exec_upgrade
  exact ⟨h.1, h.2.2.1 () (.ret _) rfl⟩

end FutureWas.Isolation
