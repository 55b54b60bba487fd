import FutureWas.Sessions.StoredLists

/-!
# What a response reports

A response with code 200 carries the models marked in its request. After a session they are
the rows that the request has inserted or updated, each once and as committed: `sync_reports`.

The marks are pointers, so this rests on one model for each row and on every assignment being
followed by an `Update`. `not_always_reported` shows what is reported otherwise.
-/

set_option autoImplicit false

namespace FutureWas.Sessions

open Effect UowM Uow

def Synced (e : EntityKind) : Prop := (entityNameOf e).isSome

theorem synced_assets : Synced .assets := rfl

theorem synced_items : Synced .items := rfl

theorem Synced.list {e : EntityKind} (h : Synced e) : e.isSingleton = false := by
  cases e <;> first | rfl | cases h

/-- The entries for a kind are the rows of it that the calls have written, each once. -/
structure Reports {e : EntityKind} {D : Type} (toData : Row e → D) (entries : List D) (P : Party)
    (d : Data) (tr : List (Event Op.Resp Data)) : Prop where
  home : ∀ {db k}, Wrote e tr db k → db = P.home e
  rows : ∃ rows : List (Row e), entries = rows.map toData ∧ (rows.map Row.primaryKey).Nodup ∧
    ∀ row, row ∈ rows ↔ row ∈ P.table d e ∧ Wrote e tr (P.home e) row.primaryKey

structure SyncReports (sync : Option SyncData) (P : Party) (d : Data)
    (tr : List (Event Op.Resp Data)) : Prop where
  assets : Reports (e := .assets) toAssetData ((sync.map SyncData.assets).getD []) P d tr
  items : Reports (e := .items) toItemData ((sync.map SyncData.items).getD []) P d tr

def MarkedSaved (e : EntityKind) (calls : List UnitCall) (u : UnitOfWork) : Prop :=
  ∀ r, (e, r) ∈ u.dirty → assigned e calls r → ∃ op ∈ queued e u, op.stmt.ref = r

section

variable {P : Party} {e : EntityKind} {T M : Ref → Prop} {u u' : UnitOfWork} {d d' : Data}
  {tr tr' : List (Event Op.Resp Data)}

def markedOf (e : EntityKind) (u : UnitOfWork) : List Ref :=
  (u.dirty.filter fun m => m.1 = e).map Prod.snd

theorem mem_markedOf {r : Ref} : r ∈ markedOf e u ↔ (e, r) ∈ u.dirty := by
  unfold markedOf
  rw [List.mem_map]
  constructor
  · intro h
    obtain ⟨m, hm, rfl⟩ := h
    obtain ⟨hmem, he⟩ := List.mem_filter.mp hm
    rw [← of_decide_eq_true he]
    exact hmem
  · intro h
    exact ⟨(e, r), List.mem_filter.mpr ⟨h, by simp⟩, rfl⟩

theorem nodup_markedOf (h : u.dirty.Nodup) : (markedOf e u).Nodup := by
  refine List.Nodup.map_on ?_ (h.filter _)
  intro m hm m' hm' heq
  have he : m.1 = e := of_decide_eq_true (List.mem_filter.mp hm).2
  have he' : m'.1 = e := of_decide_eq_true (List.mem_filter.mp hm').2
  exact Prod.ext (he.trans he'.symm) heq

theorem Core.reports (hsync : Synced e) (h : Core P e False T [] u d tr)
    (hT : ∀ r, (e, r) ∈ u.dirty → ¬ T r) {D : Type} (toData : Row e → D) :
    Reports toData ((markedOf e u).map fun r => toData (u.heap.cell e r)) P d tr := by
  obtain ⟨hidden, -, hlists⟩ := h.lists
  obtain ⟨made, hmade, hdirty, hwrote⟩ := h.made
  have hmarked : ∀ r, (e, r) ∈ u.dirty ↔ r ∈ made := by
    intro r
    rw [hdirty hsync]
    simp
  obtain ⟨row, hsel, hrow⟩ := hlists.rows
  have hcell : ∀ r ∈ made, u.heap.cell e r = row r ∧ row r ∈ P.table d e := by
    intro r hr
    have hmem := (hmade r hr).1
    have hin := hsel.mem_iff.mp (List.mem_append_left _ (List.mem_map_of_mem hmem))
    exact ⟨(hrow r hmem).2 (hT r ((hmarked r).mpr hr)), (List.mem_filter.mp hin).1⟩
  refine ⟨fun hw => ((hwrote _ _).mp hw).1, (markedOf e u).map (u.heap.cell e), ?_, ?_, ?_⟩
  · rw [List.map_map]
    rfl
  · rw [List.map_map]
    refine List.Nodup.map_on ?_ (nodup_markedOf h.marked)
    intro r hr r' hr' hkey
    have hr := (hmarked r).mp (mem_markedOf.mp hr)
    have hr' := (hmarked r').mp (mem_markedOf.mp hr')
    dsimp only [Function.comp] at hkey
    rw [(hcell r hr).1, (hcell r' hr').1] at hkey
    exact hlists.ref_unique hsel (hmade r hr).1 (hmade r' hr').1 hkey
  · intro m
    rw [List.mem_map, hwrote]
    constructor
    · rintro ⟨r, hr, rfl⟩
      have hr := (hmarked r).mp (mem_markedOf.mp hr)
      refine ⟨?_, rfl, r, hr, rfl⟩
      rw [(hcell r hr).1]
      exact (hcell r hr).2
    · rintro ⟨hm, -, r, hr, hkey⟩
      refine ⟨r, mem_markedOf.mpr ((hmarked r).mpr hr), ?_⟩
      have hin := (hcell r hr).2
      rw [← (hcell r hr).1] at hin
      exact hlists.key_unique hin hm hkey

theorem syncData_assets (u : UnitOfWork) : ((buildSyncData u).map SyncData.assets).getD [] =
    (markedOf .assets u).map fun r => toAssetData (u.heap.cell .assets r) := by
  unfold buildSyncData markedOf
  split_ifs with hnone
  · rw [hnone]
    rfl
  · rw [List.map_map]
    rfl

theorem syncData_items (u : UnitOfWork) : ((buildSyncData u).map SyncData.items).getD [] =
    (markedOf .items u).map fun r => toItemData (u.heap.cell .items r) := by
  unfold buildSyncData markedOf
  split_ifs with hnone
  · rw [hnone]
    rfl
  · rw [List.map_map]
    rfl

def Answers (P : Party) (e : EntityKind) (T : Ref → Prop) (u : UnitOfWork)
    (o : Outcome UnitOfWork Reply) (s : Data × List (Event Op.Resp Data)) : Prop :=
  match o with
  | .ret reply => reply.response.code = codeOK →
    ∃ u', reply.uow = some u' ∧ reply.response.sync = buildSyncData u' ∧ u'.dirty = u.dirty ∧
      Core P e False T [] u' s.1 s.2
  | .raise _ => True

theorem respond_wp {action : UInt32} {code : Int32} {body : ResponseBody} {sync : Option SyncData}
    (h : code = codeOK → sync = buildSyncData u' ∧ u'.dirty = u.dirty ∧
      Core P e False T [] u' d tr) :
    P.others.traced.wp ((sendGameResponse action code body sync).bind fun res =>
        .ret ⟨res, some u'⟩ : Call UnitOfWork Reply) (Answers P e T u) (d, tr) := by
  intro s₁ hs₁
  obtain ⟨d₁, tr₁⟩ := s₁
  obtain ⟨hd, htr⟩ := hs₁
  dsimp only at hd htr
  subst htr
  refine ⟨trivial, ?_⟩
  intro r s₂ hs₂
  obtain ⟨d₂, tr₂⟩ := s₂
  obtain ⟨hstep, htr⟩ := hs₂
  dsimp only at hstep htr
  subst htr
  have hsame : d₂ = d₁ := hstep
  refine ⟨trivial, fun hcode => ?_⟩
  obtain ⟨hsync, hdirty, hcore⟩ := h hcode
  refine ⟨u', rfl, hsync, hdirty, ?_⟩
  refine (hcore.apart hd).event ?_ fun _ _ hw => hw
  rw [hsame]

theorem wp_true {α : Type} (p : Call UnitOfWork α) (s : Data × List (Event Op.Resp Data)) :
    P.others.traced.wp p (fun _ _ => True) s := by
  induction p generalizing s with
  | ret a => trivial
  | raise e => trivial
  | call op k ih => exact fun s₁ _ => ⟨trivial, fun r s₂ _ => ⟨trivial, ih r s₂⟩⟩

theorem commitOrRollback_wp (hmine : ∀ k m, P.mine e (Row.setPrimaryKey k m) = P.mine e m)
    (h : Inv P e False T M [] u d tr) :
    UowM.wp P.others.traced commitOrRollback
      (fun r u' s => r = .ok () → Core P e False T [] u' s.1 s.2 ∧ u'.dirty = u.dirty)
      (fun _ _ => True) u (d, tr) := by
  refine wp_bind (wp_attempt (wp_mono ?_ (fun _ _ h => h) (commit_wp hmine h)))
  intro r u' s hpost
  cases r with
  | ok _ =>
    obtain ⟨hcore, hkept, -⟩ := hpost rfl
    exact fun _ => ⟨hcore, hkept.dirty⟩
  | error err =>
    have hany : ∀ (m : UowM Unit) u s, UowM.wp P.others.traced m (fun _ _ _ => True)
        (fun _ _ => True) u s := by
      intro m u s
      refine Setting.wp_mono ?_ (wp_true (m u) s)
      rintro (⟨_, _⟩ | _) _ _ <;> trivial
    refine wp_bind (wp_mono ?_ (fun _ _ h => h) (hany _ u' s))
    rintro (_ | _) u₁ s₁ -
    · exact fun hok => by cases hok
    · refine wp_bind (wp_mono ?_ (fun _ _ h => h) (hany _ u₁ s₁))
      rintro (_ | _) u₂ s₂ -
      · exact fun hok => by cases hok
      · exact fun hok => by cases hok

theorem finish_wp (hsync : Synced e) (h : Inv P e False T M [] u d tr) {s : Server}
    {action : UInt32} {result : Message} :
    P.others.traced.wp (finish s action result u) (Answers P e T u) (d, tr) := by
  have hmine := fun (k : UInt64) (m : Row e) => P.mine_key hsync.list k m
  refine Setting.wp_bind (Setting.wp_mono ?_ (commitOrRollback_wp hmine h))
  rintro (⟨_ | _, u₁⟩ | u₁) ⟨d₁, tr₁⟩ hpost
  · exact respond_wp fun hcode => absurd hcode (by decide)
  · obtain ⟨hcore, hdirty⟩ := hpost rfl
    dsimp only
    split
    · exact respond_wp fun _ => ⟨rfl, hdirty, hcore⟩
    · exact respond_wp fun hcode => absurd hcode (by decide)
  · trivial

theorem Inv.queued_of_marked {calls : List UnitCall} (hsync : Synced e)
    (h : Inv P e False (loose e False calls) (made e calls) [] u d tr)
    (hsaved : MarkedSaved e calls u) {r : Ref} (hr : (e, r) ∈ u.dirty)
    (hT : loose e False calls r) : ∃ op ∈ queued e u, op.stmt.ref = r := by
  have hbacked := h.marks hsync r hr
  rw [List.append_nil] at hbacked
  rcases hbacked with hmade | ⟨s, hs, href⟩
  · refine hsaved r hr (hT.resolve_right fun hold => hold.2 hmade)
  · obtain ⟨op, hop, rfl⟩ := List.mem_map.mp hs
    exact ⟨op, hop, href⟩

theorem reports_of_answers (hsync : Synced e) {T : Ref → Prop} (hT : ∀ r, (e, r) ∈ u.dirty → ¬ T r)
    {reply : Reply} (h : Answers P e T u (.ret reply) (d, tr))
    (hcode : reply.response.code = codeOK)
    {D : Type} (toData : Row e → D) : ∃ u', reply.response.sync = buildSyncData u' ∧
      Reports toData ((markedOf e u').map fun r => toData (u'.heap.cell e r)) P d tr := by
  obtain ⟨u', -, hreply, hdirty, hcore⟩ := h hcode
  refine ⟨u', hreply, hcore.reports hsync ?_ toData⟩
  rwa [hdirty]

end

/-- A response with code 200 after a session that respects `Proper` reports the assets and items
that the request has inserted or updated, and no others, each once and as committed. -/
theorem sync_reports {P : Party} {u₀ u : UnitOfWork} {d₀ d d' : Data} {calls : List UnitCall}
    {tr tr' : List (Event Op.Resp Data)} (hstarts : Starts P u₀ d₀)
    (huntouched : ∀ e, Synced e → Untouched e u₀)
    (hsession : Session P (Proper P Synced False) u₀ d₀ calls u d tr)
    (hsaved : ∀ e, Synced e → MarkedSaved e calls u) {s : Server} {action : UInt32}
    {result : Message} {reply : Reply}
    (hrun : Runs Data.Step P.Apart (finish s action result u) d tr' (.ret reply) d')
    (hcode : reply.response.code = codeOK) :
    SyncReports reply.response.sync P d' (tr ++ tr') := by
  have hreports : ∀ {e : EntityKind} (hsync : Synced e) {D : Type} (toData : Row e → D),
      ∃ u', reply.response.sync = buildSyncData u' ∧
        Reports toData ((markedOf e u').map fun r => toData (u'.heap.cell e r)) P d'
          (tr ++ tr') := by
    intro e hsync D toData
    obtain ⟨hinv, -⟩ := hsession.inv hsync hsync.list (fun h => h.elim) hstarts
      (huntouched e hsync)
    have hpost := Setting.traced_sound (S := P.others) hrun (finish_wp hsync hinv.settle)
    refine reports_of_answers hsync ?_ hpost hcode toData
    intro r hr hT
    obtain ⟨op, hop, href⟩ := hinv.queued_of_marked hsync (hsaved e hsync) hr hT.1
    exact hT.2 op hop href
  constructor
  · obtain ⟨u', hsync, hassets⟩ := hreports synced_assets toAssetData
    rw [hsync, syncData_assets]
    exact hassets
  · obtain ⟨u', hsync, hitems⟩ := hreports synced_items toItemData
    rw [hsync, syncData_items]
    exact hitems

/-! ## Responses to a player with one asset -/

section

variable {D : Type} {e : EntityKind} {toData : Row e → D} {entries : List D} {P : Party} {d : Data}
  {tr : List (Event Op.Resp Data)}

theorem not_reports_of_stray {x : D} (hx : x ∈ entries) (hrow : ∀ m ∈ P.table d e, toData m ≠ x) :
    ¬ Reports toData entries P d tr := by
  intro h
  obtain ⟨rows, hrows, -, hmem⟩ := h.rows
  rw [hrows] at hx
  obtain ⟨m, hm, hdata⟩ := List.mem_map.mp hx
  exact hrow m ((hmem m).mp hm).1 hdata

theorem not_reports_of_missing {m : Row e} (hm : m ∈ P.table d e)
    (hwrote : Wrote e tr (P.home e) m.primaryKey) (hx : toData m ∉ entries) :
    ¬ Reports toData entries P d tr := by
  intro h
  obtain ⟨rows, hrows, -, hmem⟩ := h.rows
  rw [hrows] at hx
  exact hx (List.mem_map_of_mem ((hmem m).mpr ⟨hm, hwrote⟩))

theorem not_reports_of_repeated (hlen : (P.table d e).length < entries.length) :
    ¬ Reports toData entries P d tr := by
  intro h
  obtain ⟨rows, hrows, hnodup, hmem⟩ := h.rows
  have hsub : rows.Subperm (P.table d e) :=
    hnodup.of_map.subperm fun row hrow => ((hmem row).mp hrow).1
  have hle := hsub.length_le
  rw [hrows, List.length_map] at hlen
  omega

end

def answered (s : UnitOfWork × World) :
    List (Event Op.Resp World) × Outcome UnitOfWork Reply × World :=
  (finish Sample.servers actionGetAssets (.getAssets []) s.1).run World.exec choices 0 s.2

def answeredTrace (s : UnitOfWork × World) : List (Event Op.Resp Data) :=
  (answered s).1.map (Event.map World.data)

theorem runs_answered {P : Party} (s : UnitOfWork × World) : Runs Data.Step P.Apart
    (finish Sample.servers actionGetAssets (.getAssets []) s.1) s.2.data (answeredTrace s)
      (answered s).2.1 (answered s).2.2.data := by
  refine Runs.mono (fun _ _ _ _ h => h) ?_ (Data.runs choices _ s.2)
  rintro d _ rfl
  exact .refl d

def afterCalls (w : World) : List UnitCall → UnitOfWork × World
  | [] => (opened, w)
  | call :: calls => ran (call.run Sample.container) (afterCalls w calls)

def callsTrace (w : World) : List UnitCall → List (Event Op.Resp Data)
  | [] => []
  | call :: calls => callsTrace w calls ++ ranTrace (call.run Sample.container) (afterCalls w calls)

def completes (w : World) : List UnitCall → Bool
  | [] => true
  | call :: calls => completes w calls &&
    match ((call.run Sample.container (afterCalls w calls).1).run World.exec choices 0
      (afterCalls w calls).2).2.1 with
    | .ret _ => true
    | .raise _ => false

theorem session_afterCalls {w : World} {calls : List UnitCall} (h : completes w calls = true) :
    Session sampleParty (fun _ _ _ => True) opened w.data calls (afterCalls w calls).1
      (afterCalls w calls).2.data (callsTrace w calls) := by
  induction calls with
  | nil => exact .start
  | cons call calls ih =>
    obtain ⟨hcalls, hcall⟩ := Bool.and_eq_true_iff.mp h
    split at hcall
    · rename_i p hret
      have hrun : ((call.run Sample.container (afterCalls w calls).1).run World.exec choices 0
          (afterCalls w calls).2).2.1 =
            .ret (p.1, (ran (call.run Sample.container) (afterCalls w calls)).1) := by
        rw [ran_fst hret]
        exact hret
      exact Session.ran (ih hcalls) trivial hrun
    · cases hcall

theorem session_loadedFirst (K : EntityKind → Prop) (whole : Prop) :
    ∃ tr, Session sampleParty (Proper sampleParty K whole) opened oneAsset.data
      [.create .assets 2, .new .assets newAsset, .loadList .assets] loadedFirst.1
      loadedFirst.2.data tr := by
  have hload := Session.ran (P := sampleParty) (A := Proper sampleParty K whole)
    (c := .loadList .assets) (s := (opened, oneAsset)) .start
    ⟨rfl, fun _ _ ms hms => by cases hms⟩ rfl
  have hnew := Session.ran (c := .new .assets newAsset) hload rfl rfl
  exact ⟨_, Session.ran (c := .create .assets 2) hnew
    ⟨rfl, fun _ => ⟨by decide, by decide, by decide, fun _ h => by cases h⟩⟩ rfl⟩

theorem sync_reports_loadedFirst : ∃ tr reply, (answered loadedFirst).2.1 = .ret reply ∧
    reply.response.code = codeOK ∧
    SyncReports reply.response.sync sampleParty (answered loadedFirst).2.2.data tr := by
  obtain ⟨tr, hsession⟩ := session_loadedFirst Synced False
  have huntouched : ∀ e, Synced e → Untouched e opened := by
    intro e _
    refine ⟨rfl, rfl, ?_, List.nodup_nil⟩
    intro r hr
    cases hr
  have hsaved : ∀ e, Synced e → MarkedSaved e
      [.create .assets 2, .new .assets newAsset, .loadList .assets] loadedFirst.1 := by
    intro e _ r _ hassigned
    simp [assigned] at hassigned
  exact ⟨_, _, rfl, rfl, sync_reports starts_opened huntouched hsession hsaved
    (runs_answered loadedFirst) rfl⟩

/-- A session of the player with one asset after which a response with code 200 is wrong. -/
def Misreported (w : World) (calls : List UnitCall) : Prop :=
  ∃ u d tr tr' reply d', Session sampleParty (fun _ _ _ => True) opened w.data calls u d tr ∧
    Runs Data.Step sampleParty.Apart (finish Sample.servers actionGetAssets (.getAssets []) u) d tr'
      (.ret reply) d' ∧ reply.response.code = codeOK ∧
      ¬ SyncReports reply.response.sync sampleParty d' (tr ++ tr')

theorem misreported_of_calls {w : World} {calls : List UnitCall} {reply : Reply}
    (hdone : completes w calls = true)
    (hreply : (answered (afterCalls w calls)).2.1 = .ret reply)
    (hcode : reply.response.code = codeOK)
    (hwrong : ¬ Reports (e := .assets) toAssetData
      ((reply.response.sync.map SyncData.assets).getD []) sampleParty
        (answered (afterCalls w calls)).2.2.data
        (callsTrace w calls ++ answeredTrace (afterCalls w calls))) : Misreported w calls := by
  have hruns := runs_answered (P := sampleParty) (afterCalls w calls)
  rw [hreply] at hruns
  exact ⟨_, _, _, _, reply, _, session_afterCalls hdone, hruns, hcode, fun h => hwrong h.assets⟩

def assignedLate : List UnitCall :=
  [.assign .assets 0 ({ newAsset with idx := 11, quantity := 2 } : Asset),
    .createNow .assets 0, .new .assets newAsset]

theorem misreported_assignedLate : Misreported oneAsset assignedLate := by
  refine misreported_of_calls rfl rfl rfl (not_reports_of_stray
    (x := toAssetData { newAsset with idx := 11, quantity := 2 }) ?_ ?_)
  · decide
  · decide

def createdTwice : List UnitCall :=
  [.createNow .assets 0, .assign .assets 0 ({ newAsset with idx := 11, assetID := 10002 } : Asset),
    .createNow .assets 0, .new .assets newAsset]

theorem misreported_createdTwice : Misreported oneAsset createdTwice := by
  refine misreported_of_calls rfl rfl rfl (not_reports_of_missing
    (m := ({ newAsset with idx := 11 } : Asset)) ?_ ?_ ?_)
  · decide
  · exact wrote_append.mpr (.inl ⟨_, List.mem_of_getElem? (i := 3) rfl, rfl, rfl, rfl⟩)
  · decide

def neverStored : List UnitCall :=
  [.update .assets 0, .new .assets ({ oldAsset with idx := 9 } : Asset)]

theorem misreported_neverStored : Misreported oneAsset neverStored := by
  refine misreported_of_calls rfl rfl rfl (not_reports_of_stray
    (x := toAssetData { oldAsset with idx := 9 }) ?_ ?_)
  · decide
  · decide

def rekeyed : List UnitCall :=
  [.update .assets 1, .assign .assets 1 ({ oldAsset with idx := 9 } : Asset), .loadList .assets]

theorem misreported_rekeyed : Misreported oneAsset rekeyed := by
  refine misreported_of_calls rfl rfl rfl (not_reports_of_stray
    (x := toAssetData { oldAsset with idx := 9 }) ?_ ?_)
  · decide
  · decide

def cachedAssets (ms : List (Row .assets)) : World :=
  oneAsset.setData { oneAsset.data with
    cache := fun o id => if o = .user ∧ id = 1 then Fields.single .assets (.many ms)
      else Fields.none }

theorem misreported_staleCache :
    Misreported (cachedAssets [({ oldAsset with idx := 9 } : Asset)])
      [.update .assets 0, .loadList .assets] := by
  refine misreported_of_calls rfl rfl rfl (not_reports_of_stray
    (x := toAssetData { oldAsset with idx := 9 }) ?_ ?_)
  · decide
  · decide

theorem misreported_repeatedCache : Misreported (cachedAssets [oldAsset, oldAsset])
    [.update .assets 1, .update .assets 0, .loadList .assets] :=
  misreported_of_calls rfl rfl rfl (not_reports_of_repeated (by decide))

/-- A model assigned to after `CreateNow` is reported as it is and not as its row, and one of the
two rows of a model created twice is not reported. Entries without a row are reported for a model
that was never stored, for a loaded one with another key and for one that only the cache has, and
a row that a cached list has twice is reported twice. -/
theorem not_always_reported :
    Misreported oneAsset assignedLate ∧ Misreported oneAsset createdTwice ∧
      Misreported oneAsset neverStored ∧ Misreported oneAsset rekeyed ∧
      Misreported (cachedAssets [({ oldAsset with idx := 9 } : Asset)])
        [.update .assets 0, .loadList .assets] ∧
      Misreported (cachedAssets [oldAsset, oldAsset])
        [.update .assets 1, .update .assets 0, .loadList .assets] :=
  ⟨misreported_assignedLate, misreported_createdTwice, misreported_neverStored,
    misreported_rekeyed, misreported_staleCache, misreported_repeatedCache⟩

end FutureWas.Sessions
