import FutureWas.Coherence.Tracking

/-!
# The commit of a request that has its user to itself

While statements of a commit are still to run (`Running`), the stored models are their rows
up to these statements, and the cached fields of the other kinds are in step. When all have
run, the write-back caches the stored models, which are their rows by then. A commit that
fails has run some of its transactions; it deletes the cached fields, so nothing is left that
could differ from the rows.
-/

set_option autoImplicit false

namespace FutureWas.Coherence

open Effect UowM Uow
open Sessions (Lists)

/-- What a request of the user finds and leaves. -/
structure Clean (c : Container) (uid : UInt64) (d : Data) : Prop where
  sound : d.Sound c
  registered : Registered c uid d
  mirrors : Mirrors c uid d

/-- What holds while the statements `X` of a commit are still to run. -/
structure Running (c : Container) (uid : UInt64) (creates : Bool) (X : List Stmt)
    (u : UnitOfWork) (d : Data) : Prop where
  holds : Holds c uid creates [] u d
  registered : Registered c uid d
  shaped : ∀ e s, u.store e = some s → Shaped e s
  follows : ∀ e s, u.store e = some s → Follows c uid e X s u.heap d
  others : ∀ e, u.store e = none → Mirrored c uid e d

/-- What a commit that fails leaves to be cleared. -/
structure Left (c : Container) (uid : UInt64) (u : UnitOfWork) (d : Data) : Prop where
  ends : EndsAs uid u
  sound : d.Sound c
  registered : Registered c uid d

section

variable {e : EntityKind} {c : Container} {uid : UInt64} {creates : Bool} {X Y : List Stmt}
  {u u' : UnitOfWork} {d d' : Data}

theorem Clean.rely (h : Clean c uid d) (hr : (exclusive c uid creates).rely d d') :
    Clean c uid d' where
  sound := hr.1.2 h.sound
  registered := hr.2.1 h.registered
  mirrors := h.mirrors.apart h.sound hr.1.1 hr.2.2

theorem Running.left (h : Running c uid creates X u d) : Left c uid u d :=
  ⟨⟨h.holds.user, h.holds.club⟩, h.holds.sound, h.registered⟩

theorem Running.rely (h : Running c uid creates X u d)
    (hr : (exclusive c uid creates).rely d d') : Running c uid creates X u d' where
  holds := h.holds.rely hr.1
  registered := hr.2.1 h.registered
  shaped := h.shaped
  follows := by
    intro e s hs
    have howner := (h.holds.stored e s hs).1
    exact (h.follows e s hs).congr (le_refl _) (fun _ _ => rfl) (hr.1.2 h.holds.sound)
      (fun _ hdb => hr.1.1.routed hdb) fun db => hr.2.2.rows db e howner
  others := by
    intro e hs v hv
    have hold := hr.2.2.fields e v hv
    obtain ⟨db, hdb, hcopies⟩ := h.others e hs v hold
    refine ⟨db, hr.1.1.routed hdb, ?_⟩
    rwa [hr.2.2.rows db e (h.holds.sound.cached uid e v hold).1]

theorem Left.rely (h : Left c uid u d) (hr : (exclusive c uid creates).rely d d') :
    Left c uid u d' :=
  ⟨h.ends, hr.1.2 h.sound, hr.2.1 h.registered⟩

/-! ### Transactions -/

theorem lists_run {ops : List Stmt} {t t' : Tables} {h h' : Heap} (hrun : StmtRun ops t h t' h')
    {mine : Row e → Bool}
    (hmine : ∀ r, .insert e r ∈ ops → ∀ k m, mine (Row.setPrimaryKey k m) = mine m)
    {T : Ref → Prop} {hidden : List (Row e)} {rs : List Ref}
    (hl : Lists e mine T hidden (Sessions.own e ops ++ Y) rs h (t e)) :
    Lists e mine T hidden Y rs h' (t' e) := by
  by_cases hins : ∃ r, .insert e r ∈ ops
  · obtain ⟨r, hr⟩ := hins
    exact Lists.run hrun (hmine r hr) hl
  -- Only updates: the keys of the models stay as they are.
  clear hmine
  induction hrun with
  | nil => simpa using hl
  | @insert e' r ops t h t' h' k _ _ ih =>
    have he : e ≠ e' := by
      rintro rfl
      exact hins ⟨r, List.mem_cons_self⟩
    rw [@Sessions.own_cons_other _ _ (.insert e' r) (Ne.symm he)] at hl
    refine ih ?_ fun hrest => hins ?_
    · rw [Tables.insert_of_ne _ he]
      exact hl.congr (le_refl _) (fun r' _ => h.set_cell_kind he r r' _) hl.keys rfl
    · exact hrest.imp fun _ => List.mem_cons_of_mem _
  | @update e' r ops t h t' h' _ _ ih =>
    refine ih ?_ fun hrest => hins (hrest.imp fun _ => List.mem_cons_of_mem _)
    by_cases he : e' = e
    · subst he
      rw [@Sessions.own_cons_self e' _ (.update e' r) rfl, List.cons_append] at hl
      have hstep := hl.update
      rwa [← Tables.update_self] at hstep
    · rw [@Sessions.own_cons_other _ _ (.update e' r) he] at hl
      rw [Tables.update_of_ne _ (Ne.symm he)]
      exact hl

theorem own_eq_nil_of_routed (h : Holds c uid creates [] u d) {db db' : DbId} {stmts : List Stmt}
    (hstmts : ∀ s ∈ stmts, (⟨some db, s⟩ : DbOp) ∈ u.dbOps) (hdb' : d.routed c uid e = some db')
    (hne : db' ≠ db) : Sessions.own e stmts = [] := by
  refine List.filter_eq_nil_iff.mpr fun s hs hkind => hne ?_
  have hdb := (h.queued _ (hstmts s hs)).1 db rfl
  change d.routed c uid s.kind = some db at hdb
  rw [of_decide_eq_true hkind, hdb'] at hdb
  exact Option.some.inj hdb

theorem Running.transact {stmts : List Stmt} (h : Running c uid creates (stmts ++ X) u d)
    {db : DbId} (hstmts : ∀ s ∈ stmts, (⟨some db, s⟩ : DbOp) ∈ u.dbOps) {t' : Tables} {h' : Heap}
    (hrun : StmtRun stmts (d.db db) u.heap t' h') :
    Running c uid creates X { u with heap := h' } (d.setDb db t') := by
  obtain ⟨hfits, htransact⟩ := h.holds.transact hstmts
  obtain ⟨hchange, hholds⟩ := htransact hrun
  obtain ⟨hnext, -⟩ := Sessions.stmtRun_frame (e := .account) hrun
  refine ⟨hholds, h.registered.of_accounts hchange.accounts, h.shaped, ?_, ?_⟩
  · intro e s hs
    obtain ⟨db', hdb', hlists⟩ := h.follows e s hs
    refine ⟨db', hchange.grows.routed hdb', ?_⟩
    rw [Sessions.own_append] at hlists
    by_cases hsame : db' = db
    · subst hsame
      rw [Data.setDb_db_self]
      refine lists_run hrun (fun r hr k m => ?_) hlists
      unfold mine
      rw [Row.ownerID_setPrimaryKey (hfits _ hr).allowed.2 k m]
    · have hnone := own_eq_nil_of_routed h.holds hstmts hdb' hsame
      have hcells := (Sessions.stmtRun_frame (e := e) hrun).2
      rw [Data.setDb_db_of_ne hsame]
      rw [hnone, List.nil_append] at hlists
      refine hlists.congr hnext.ge (fun r _ => hcells r ?_) hlists.keys rfl
      rw [← Sessions.inserts_own, hnone]
      simp
  · intro e hs v hv
    obtain ⟨db', hdb', hcopies⟩ := h.others e hs v hv
    refine ⟨db', hchange.grows.routed hdb', ?_⟩
    have hkind : ∀ s ∈ stmts, s.kind ≠ e := by
      rintro s hmem rfl
      obtain ⟨st, hst, -⟩ := (h.holds.queued _ (hstmts s hmem)).2.1
      rw [hs] at hst
      cases hst
    have hrows : ((d.setDb db t').db db') e = (d.db db') e := by
      rw [Data.setDb_db]
      split_ifs with hsame
      · rw [hsame]
        exact hrun.other hkind
      · rfl
    rwa [Tables.select, hrows]

theorem commitGroups_wp (groups : List (Option DbId × List Stmt))
    (h : Running c uid creates (groups.flatMap Prod.snd) u d)
    (hgroups : ∀ g ∈ groups, ∀ s ∈ g.2, (⟨g.1, s⟩ : DbOp) ∈ u.dbOps)
    (hsome : ∀ g ∈ groups, g.1 ≠ none) :
    UowM.wp (exclusive c uid creates) (commitGroups groups)
      (fun r u' d' => Left c uid u' d' ∧ (r = .ok () → Running c uid creates [] u' d'))
      (fun _ _ => False) u d := by
  induction groups generalizing u d with
  | nil => exact ⟨h.left, fun _ => h⟩
  | cons g groups ih =>
    obtain ⟨_ | db, stmts⟩ := g
    · exact absurd rfl (hsome _ List.mem_cons_self)
    · refine wp_local rfl (wp_perform_bind (fun _ _ hr h => h.rely hr) h ?_)
      intro d₁ h₁
      obtain ⟨hfits, htransact⟩ := h₁.holds.transact (hgroups _ List.mem_cons_self)
      refine ⟨hfits, fun r d₂ hs => ?_⟩
      rcases hs.1 with ⟨t', h', hrun, rfl, rfl⟩ | ⟨h', rfl, rfl⟩ | ⟨h', rfl, rfl⟩
      · have hset : setHeap h' u = .ret (.ok (), { u with heap := h' }) := rfl
        refine ⟨(htransact hrun).1, wp_local hset (ih ?_ ?_ ?_)⟩
        · exact h₁.transact (hgroups _ List.mem_cons_self) hrun
        · exact fun g hg => hgroups g (List.mem_cons_of_mem _ hg)
        · exact fun g hg => hsome g (List.mem_cons_of_mem _ hg)
      · exact ⟨.refl d₂, ⟨h₁.left.ends, h₁.left.sound, h₁.left.registered⟩, by simp⟩
      · cases hs.2.1

theorem own_stmts : Sessions.own e (stmts u) =
    (u.dbOps.filter fun op => op.stmt.kind = e).map DbOp.stmt := by
  unfold Sessions.own stmts
  rw [List.filter_map]
  rfl

theorem groupOps_cons (op : DbOp) (ops : List DbOp) :
    ∃ s groups, groupOps (op :: ops) = (op.db, s) :: groups := by
  rw [GroupedCommit.groupOps_eq]
  unfold GroupedCommit.groups
  rw [List.map_cons, List.eraseDups_cons, List.map_cons]
  exact ⟨_, _, rfl⟩

theorem Keeping.running (h : Keeping c uid creates [] u d)
    (hsome : ∀ op ∈ u.dbOps, op.db ≠ none) :
    Running c uid creates ((groupOps u.dbOps).flatMap Prod.snd) u d where
  holds := h.holds
  registered := h.tracks.registered
  shaped := h.tracks.shaped
  follows := by
    intro e s hs
    obtain ⟨db, hdb, hlists⟩ := h.tracks.follows e s hs
    have hops : ∀ op ∈ u.dbOps, op.stmt.kind = e → op.db = some db := by
      intro op hop hkind
      obtain ⟨db', hdb'⟩ := Option.ne_none_iff_exists'.mp (hsome op hop)
      have hrouted := (h.holds.queued op hop).1 db' hdb'
      rw [hkind, hdb] at hrouted
      rw [hdb', Option.some.inj hrouted]
    rw [List.append_nil, own_stmts, ← Sessions.own_groupOps hops] at hlists
    exact ⟨db, hdb, hlists⟩
  others e _ := h.tracks.mirrors e

theorem runOps_wp (h : Keeping c uid creates [] u d) :
    UowM.wp (exclusive c uid creates) runOps
      (fun r u' d' => Left c uid u' d' ∧ (r = .ok () → Running c uid creates [] u' d'))
      (fun u' d' => EndsAs uid u' ∧ Clean c uid d') u d := by
  refine wp_local rfl ?_
  cases hops : u.dbOps with
  | nil =>
    have hrunning := h.running (by rw [hops]; simp)
    rw [hops] at hrunning
    rw [if_pos rfl]
    exact ⟨hrunning.left, fun _ => hrunning⟩
  | cons op ops =>
    rw [if_neg (List.cons_ne_nil op ops)]
    cases hdb : op.db with
    | none =>
      -- The first group has no database, so nothing has run yet.
      obtain ⟨s, groups, hgroups⟩ := groupOps_cons op ops
      rw [hgroups, hdb]
      exact ⟨⟨h.holds.user, h.holds.club⟩, h.holds.sound, h.tracks.registered, h.tracks.mirrors⟩
    | some db =>
      have hsome : ∀ op' ∈ u.dbOps, op'.db ≠ none := by
        intro op' hop'
        rw [hops] at hop'
        rcases List.mem_cons.mp hop' with rfl | hop'
        · simp [hdb]
        · exact h.tracks.headed op ops hops (by simp [hdb]) op' hop'
      have hrunning := h.running hsome
      rw [← hops]
      refine wp_bind (wp_mono ?_ (fun _ _ h => h.elim)
        (commitGroups_wp _ hrunning (fun g hg s => mem_groupOps hg) fun g hg hnone => ?_))
      · rintro (err | _) u' d' ⟨hleft, hrest⟩
        · exact ⟨hleft, by simp⟩
        · have h' := hrest rfl
          refine ⟨⟨hleft.ends, hleft.sound, hleft.registered⟩, fun _ => ?_⟩
          exact ⟨⟨h'.holds.user, h'.holds.club, h'.holds.sound, h'.holds.stored, by simp,
            by simp⟩, h'.registered, h'.shaped, h'.follows, h'.others⟩
      · obtain ⟨op', hop', hnone'⟩ := (groupOps_dbs u.dbOps none).mp ⟨g, hg, hnone⟩
        exact hsome op' hop' hnone'

/-! ### Write-back -/

theorem Follows.copies {s : Stored} (h : Follows c uid e [] s u.heap d) (hshaped : Shaped e s) :
    ∃ db, d.routed c uid e = some db ∧ Copies (u.value e s) ((d.db db).select e uid) := by
  obtain ⟨db, hdb, hlists⟩ := h
  obtain ⟨row, hperm, hrows⟩ := hlists.rows
  have hcells : s.refs.map (u.heap.cell e) = s.refs.map row :=
    List.map_congr_left fun r hr => (hrows r hr).2 id
  rw [List.append_nil, ← hcells] at hperm
  refine ⟨db, hdb, ?_⟩
  cases s with
  | one r => exact ⟨hshaped, (List.singleton_perm.mp hperm).symm⟩
  | many rs => exact ⟨hshaped, hperm⟩

theorem snapshot_belongs (h : Holds c uid creates X u d) {v : Cached e}
    (hv : u.snapshot .user e = some v) : d.Belongs c uid v := by
  unfold UnitOfWork.snapshot at hv
  split_ifs at hv
  obtain ⟨s, hs, rfl⟩ := Option.map_eq_some_iff.mp hv
  exact h.belongs hs

theorem Running.written (h : Running c uid creates [] u d) :
    Clean c uid (d.setCache .user uid ((d.cache .user uid).hset (u.snapshot .user))) := by
  have hchange : Change c uid d _ := .hset fun e v hv => snapshot_belongs h.holds hv
  refine ⟨hchange.sound h.holds.sound, h.registered.of_accounts rfl, ?_⟩
  intro e v hv
  rw [Data.setCache_cache_self] at hv
  rcases Option.or_eq_some_iff.mp hv with hnew | ⟨hnone, hold⟩
  · unfold UnitOfWork.snapshot at hnew
    split_ifs at hnew
    obtain ⟨s, hs, rfl⟩ := Option.map_eq_some_iff.mp hnew
    exact (h.follows e s hs).copies (h.shaped e s hs)
  · have howner := (h.holds.sound.cached uid e v hold).1
    unfold UnitOfWork.snapshot at hnone
    rw [if_pos howner, Option.map_eq_none_iff] at hnone
    exact h.others e hnone v hold

theorem Running.unwritten (h : Running c uid creates [] u d)
    (hnot : ¬ (u.scopeID .user ≠ 0 ∧ u.holds .user = true)) : Clean c uid d := by
  refine ⟨h.holds.sound, h.registered, ?_⟩
  intro e v hv
  obtain ⟨howner, hacc, -⟩ := h.holds.sound.cached uid e v hv
  have hid : u.scopeID .user ≠ 0 := by
    change u.userID ≠ 0
    rw [h.holds.user]
    exact h.holds.sound.ne_zero hacc
  cases hs : u.store e with
  | none => exact h.others e hs v hv
  | some s =>
    refine absurd ⟨hid, ?_⟩ hnot
    exact List.any_eq_true.mpr ⟨e, EntityKind.mem_all e, by simp [howner, hs]⟩

theorem writeBack_user_wp {context : String} (h : Running c uid creates [] u d) :
    UowM.wp (exclusive c uid creates) (writeBack .user context)
      (fun r u' d' => Left c uid u' d' ∧ (r = .ok () → Clean c uid d')) (fun _ _ => False) u d := by
  refine wp_local rfl ?_
  split_ifs with hholds
  · refine wp_perform_bind (fun _ _ hr h => h.rely hr) h ?_
    intro d₁ h₁
    have hscope : u.scopeID .user = uid := h₁.holds.user
    have hfields : ∀ e v, u.snapshot .user e = some v → d₁.Belongs c uid v :=
      fun e v hv => snapshot_belongs h₁.holds hv
    refine ⟨⟨rfl, hscope, hfields⟩, fun r d₂ hs => ?_⟩
    rcases hs.1 with ⟨rfl, rfl⟩ | ⟨rfl, rfl⟩
    · exact ⟨.refl d₂, h₁.left, by simp⟩
    · rw [hscope]
      have hclean := h₁.written
      exact ⟨.hset hfields, ⟨h₁.left.ends, hclean.sound, hclean.registered⟩, fun _ => hclean⟩
  · exact ⟨h.left, fun _ => h.unwritten hholds⟩

/-- A request has no club, so only fields of the user are written. -/
theorem writeBack_club {context : String} (h : u.clubID = 0) :
    writeBack .club context u = .ret (.ok (), u) := by
  have hnot : ¬ (u.scopeID .club ≠ 0 ∧ u.holds .club = true) := fun hid => hid.1 h
  change (if u.scopeID .club ≠ 0 ∧ u.holds .club = true then _ else pure () : UowM Unit) u = _
  rw [if_neg hnot]
  rfl

/-! ### Commit -/

theorem commit_wp (h : Keeping c uid creates [] u d) :
    UowM.wp (exclusive c uid creates) commit
      (fun r u' d' => Left c uid u' d' ∧ (r = .ok () → Clean c uid d'))
      (fun u' d' => EndsAs uid u' ∧ Clean c uid d') u d := by
  refine wp_bind (wp_mono ?_ (fun _ _ h => h) (runOps_wp h))
  rintro (err | _) u₁ d₁ ⟨hleft, hrest⟩
  · exact ⟨hleft, by simp⟩
  · refine wp_bind (wp_mono ?_ (fun _ _ h => h.elim) (writeBack_user_wp (hrest rfl)))
    rintro (err | _) u₂ d₂ ⟨hleft₂, hclean⟩
    · exact ⟨hleft₂, by simp⟩
    · unfold UowM.wp
      rw [writeBack_club hleft₂.ends.2]
      exact ⟨hleft₂, fun _ => hclean rfl⟩

theorem invalidate_club (h : u.clubID = 0) : invalidate .club u = .ret (.ok (), u) := by
  have hnot : ¬ u.scopeID .club ≠ 0 := fun hid => hid h
  change (if u.scopeID .club ≠ 0 then _ else pure () : UowM Unit) u = _
  rw [if_neg hnot]
  rfl

theorem invalidate_user_wp (h : Left c uid u d) :
    UowM.wp (exclusive c uid creates) (invalidate .user)
      (fun r u' d' => r = .ok () ∧ EndsAs uid u' ∧ Clean c uid d') (fun _ _ => False) u d := by
  have hscope : u.scopeID .user = uid := h.ends.1
  refine wp_local rfl ?_
  split_ifs with hid
  · refine wp_perform_bind (fun _ _ hr h => h.rely hr) h ?_
    intro d₁ h₁
    refine ⟨⟨rfl, hscope⟩, fun r d₂ hs => ?_⟩
    rcases hs with ⟨⟨rfl, rfl⟩ | ⟨rfl, rfl⟩, hcalm⟩
    · cases hcalm.2
    · rw [hscope]
      have hchange : Change c uid d₁ (d₁.setCache .user uid Fields.none) :=
        .setCache _ (by simp [Fields.none])
      refine ⟨hchange, rfl, h₁.ends, hchange.sound h₁.sound, h₁.registered.of_accounts rfl, ?_⟩
      exact mirrors_of_none (Data.setCache_cache_self _ _ _)
  · have hzero : uid = 0 := hscope ▸ not_not.mp hid
    refine ⟨rfl, h.ends, h.sound, h.registered, mirrors_of_absent h.sound fun hacc => ?_⟩
    exact h.sound.ne_zero hacc hzero

/-- However a commit ends, the cached fields of the user are the rows. -/
theorem commitOrRollback_wp (h : Keeping c uid creates [] u d) :
    UowM.wp (exclusive c uid creates) commitOrRollback
      (fun _ u' d' => EndsAs uid u' ∧ Clean c uid d')
      (fun u' d' => EndsAs uid u' ∧ Clean c uid d') u d := by
  refine wp_bind (wp_attempt (wp_mono ?_ (fun _ _ h => h) (commit_wp h)))
  rintro (err | _) u₁ d₁ ⟨hleft, hclean⟩
  · refine wp_bind (wp_mono ?_ (fun _ _ h => h.elim) (invalidate_user_wp hleft))
    rintro _ u₂ d₂ ⟨rfl, hends, hclean₂⟩
    exact wp_local (invalidate_club hends.2) ⟨hends, hclean₂⟩
  · exact ⟨hleft.ends, hclean rfl⟩

end

end FutureWas.Coherence
