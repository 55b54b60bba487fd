import FutureWas.Coherence.Commit
import FutureWas.Effect.Series
import FutureWas.Isolation

/-!
# Requests one after another

A server answers any requests, of any users, one after another; between and during them
cached fields expire. Its handlers are `login` and any programs composed of the services
(`Composed`), which those of the repository are. Each request leaves the cached fields of
every user equal to the rows (`InStep`): a request acting for one user keeps that user's
fields in step (`serve_clean`) and touches nothing of the others, and a `Login` starts to act
for its user with the account found or created.

Redis may refuse any command but a deletion, and a transaction may fail at any statement.
-/

set_option autoImplicit false

namespace FutureWas.Coherence

open Effect UowM Uow

/-! ## Handlers -/

inductive Composed (c : Container) : {α : Type} → UowM α → Prop
  | pure {α : Type} (a : α) : Composed c (pure a)
  | throw {α : Type} (err : GoError) : Composed c (throw err : UowM α)
  | bind {α β : Type} {m : UowM β} {f : β → UowM α} : Composed c m → (∀ b, Composed c (f b)) →
      Composed c (m >>= f)
  | attempt {α : Type} {m : UowM α} : Composed c m → Composed c (attempt m)
  | get : Composed c get
  | clockNow : Composed c clockNow
  | account : Composed c (account c)
  | loadList {e : EntityKind} : e.owner = .user → e.isSingleton = false → Composed c (loadList c e)
  | addAsset (assetID : UInt32) (quantity : Int64) :
      Composed c (AssetService.addAsset c assetID quantity)
  | consumeAsset (assetID : UInt32) (quantity : Int64) :
      Composed c (AssetService.consumeAsset c assetID quantity)
  | addItem (itemID : UInt32) (amount : UInt64) : Composed c (ItemService.addItem c itemID amount)
  | consumeItem (itemID : UInt32) (amount : UInt64) :
      Composed c (ItemService.consumeItem c itemID amount)
  | upgradeCardLevel (body : Body) : Composed c (upgradeCardLevel c body)

def Server.Composes (c : Container) (s : Server) : Prop :=
  ∀ action def_, s.actionRegistry action = some def_ →
    def_.handler = login c ∨ ∀ body, Composed c (def_.handler body)

def DrawsRegistered (s : Shards) : Prop := ∀ p ∈ s.shardPool, (s.getShard p.id).isSome

section

variable {c : Container}

theorem composed_handler {action : UInt32} {def_ : ActionDef}
    (h : actionRegistry c action = some def_) (hauth : def_.noAuth = false) (body : Body) :
    Composed c (def_.handler body) := by
  unfold actionRegistry at h
  split_ifs at h <;> cases h
  · cases hauth
  · exact .bind (.loadList rfl rfl) fun _ => .bind .get fun _ => .pure _
  · exact .upgradeCardLevel body
  · exact .bind (.loadList rfl rfl) fun _ => .bind .get fun _ => .pure _
  · exact .bind (.loadList rfl rfl) fun _ => .bind .get fun _ => .pure _
  · exact .bind .get fun _ => .bind .clockNow fun _ => .pure _

theorem server_composes {marshals : Message → Bool} : Server.Composes c (server c marshals) := by
  intro action def_ h
  by_cases hauth : def_.noAuth = true
  · have haction := (noAuth_iff h).mp hauth
    subst haction
    cases h
    exact Or.inl rfl
  · exact Or.inr fun body => composed_handler h (Bool.eq_false_iff.mpr hauth) body

theorem drawsRegistered_empty : DrawsRegistered Shards.empty := by
  intro p hp
  cases hp

theorem drawsRegistered_registerShard {s : Shards} (h : DrawsRegistered s) (shardID : Int8)
    (db : DbId) (weight : ℤ) : DrawsRegistered (s.registerShard shardID db weight) := by
  have hlookup : ∀ id, (s.getShard id).isSome ∨ id = shardID →
      ((s.shardMap.insert shardID db).lookup id).isSome := by
    intro id hid
    by_cases heq : id = shardID
    · rw [heq, AList.lookup_insert]
      rfl
    · rw [AList.lookup_insert_ne heq]
      exact hid.resolve_right heq
  intro p hp
  unfold Shards.registerShard at hp ⊢
  unfold Shards.getShard
  dsimp only at hp ⊢
  split_ifs at hp ⊢ with hweight
  · rcases List.mem_append.mp hp with hp | hp
    · exact hlookup p.id (Or.inl (h p hp))
    · rw [List.mem_singleton.mp hp]
      exact hlookup shardID (Or.inr rfl)
  · exact hlookup p.id (Or.inl (h p hp))

variable {S : Setting Op.Resp Data} {J : List Stmt → UnitOfWork → Data → Prop}
  {Fresh : EntityKind → List Stmt → UnitOfWork → Data → Prop} {α : Type}

theorem Composed.keeps (hC : Closed c S J Fresh) (hE : Extends J) {m : UowM α}
    (h : Composed c m) : Keeps S J (fun _ => True) m fun _ _ => True := by
  induction h with
  | pure a => exact keeps_ret fun _ h => h
  | throw err => exact keeps_throw
  | bind _ _ ihm ihf => exact keeps_bind ihm ihf
  | attempt _ ih => exact keeps_weaken (keeps_attempt ih) (fun _ h => h) fun _ _ _ => trivial
  | get => exact keeps_weaken keeps_get (fun _ h => h) fun _ _ _ => trivial
  | clockNow => exact keeps_clockNow hC
  | account => exact keeps_weaken (keeps_account hC) (fun _ h => h) fun _ _ _ => trivial
  | loadList he hlist =>
    exact keeps_weaken (keeps_loadList hC he hlist) (fun _ h => h) fun _ _ _ => trivial
  | addAsset assetID quantity => exact AssetService.keeps_addAsset hC hE
  | consumeAsset assetID quantity => exact AssetService.keeps_consumeAsset hC
  | addItem itemID amount => exact ItemService.keeps_addItem hC hE
  | consumeItem itemID amount => exact ItemService.keeps_consumeItem hC
  | upgradeCardLevel body => exact keeps_upgradeCardLevel hC body

end

/-! ## A request acting for one user -/

section

variable {c : Container} {uid : UInt64} {creates : Bool} {u : UnitOfWork} {d d' : Data}

theorem Bare.keeping (hu : Bare u) (h : Clean c u.userID d) :
    Keeping c u.userID creates [] u d where
  holds := hu.holds h.sound
  tracks :=
    { mirrors := h.mirrors
      registered := h.registered
      shaped := by simp [hu.store]
      follows := by simp [hu.store]
      led := by simp [hu.dbOps]
      headed := by simp [hu.dbOps] }

theorem Keeping.clean {X : List Stmt} (h : Keeping c uid creates X u d) : Clean c uid d :=
  ⟨h.holds.sound, h.tracks.registered, h.tracks.mirrors⟩

theorem respond_clean {action : UInt32} {code : Int32} {body : ResponseBody}
    {sync : Option SyncData} {v : Option UnitOfWork} (h : Clean c uid d) :
    (exclusive c uid creates).wp
      ((sendGameResponse action code body sync).bind fun res => .ret ⟨res, v⟩)
      (fun (_ : Outcome UnitOfWork Reply) d' => Clean c uid d') d := by
  intro d₁ hr
  refine ⟨trivial, fun t d₂ hs => ⟨.of_eq hs.1, ?_⟩⟩
  have hsame : d₂ = d₁ := hs.1
  rw [hsame]
  exact h.rely hr

theorem finish_clean {s : Server} {action : UInt32} {result : Message}
    (h : Keeping c uid creates [] u d) :
    (exclusive c uid creates).wp (finish s action result u) (fun _ d' => Clean c uid d') d := by
  refine Setting.wp_bind (Setting.wp_mono ?_ (commitOrRollback_wp h))
  rintro (⟨err | _, u'⟩ | u') d' ⟨-, hclean⟩
  · exact respond_clean hclean
  · dsimp only
    split_ifs
    · exact respond_clean hclean
    · exact respond_clean hclean
  · exact hclean

theorem serve_clean {s : Server} {catalog : Catalog} {def_ : ActionDef} {req : GameRequest}
    (hid : req.userId = uid) (hm : Composed c (def_.handler req.body)) (h : Clean c uid d) :
    (exclusive c uid true).wp (serve s catalog def_ req) (fun _ d' => Clean c uid d') d := by
  subst hid
  refine Setting.wp_call (fun _ _ hr h => h.rely hr) h ?_
  intro d₁ h₁
  refine ⟨trivial, fun r d₂ hs => ⟨.of_eq hs.1, ?_⟩⟩
  have hsame : d₂ = d₁ := hs.1
  subst hsame
  have hbare : Bare (.new req.userId catalog) := ⟨rfl, fun _ => rfl, rfl⟩
  have hkeeps : Keeps (exclusive c req.userId true) (Keeping c req.userId true) _ _ _ :=
    hm.keeps keeping_closed keeping_extends
  refine Setting.wp_bind (Setting.wp_mono ?_ (hkeeps _ d₂ (Bare.keeping hbare h₁) trivial))
  rintro (⟨err | result, u'⟩ | u') d' h'
  · exact respond_clean h'.1.clean
  · exact finish_clean h'.1
  · obtain ⟨X, hX⟩ := h'
    exact hX.clean

end

/-! ## Any request, by itself -/

structure Fades (d d' : Data) : Prop where
  db : d'.db = d.db
  fields : ∀ id e v, d'.cache .user id e = some v → d.cache .user id e = some v

namespace Fades

variable {c : Container} {d d' d'' : Data}

theorem refl (d : Data) : Fades d d := ⟨rfl, fun _ _ _ h => h⟩

theorem trans (h : Fades d d') (h' : Fades d' d'') : Fades d d'' :=
  ⟨h'.db.trans h.db, fun id e v hv => h.fields id e v (h'.fields id e v hv)⟩

theorem grows (h : Fades d d') : d.Grows d' := .of_db h.db

theorem sound (h : Fades d d') (hd : d.Sound c) : d'.Sound c where
  keyed := by
    rw [h.db]
    exact hd.keyed
  cached id e v hv := h.grows.belongs (hd.cached id e v (h.fields id e v hv))

theorem registered (h : Fades d d') {uid : UInt64} (hd : Registered c uid d) :
    Registered c uid d' :=
  hd.of_accounts (by rw [h.db])

theorem apart (h : Fades d d') (uid : UInt64) : Apart uid d d' where
  rows db e _ := by rw [h.db]
  fields e v hv := h.fields uid e v hv

theorem rely (h : Fades d d') (uid : UInt64) (creates : Bool) :
    (exclusive c uid creates).rely d d' :=
  ⟨⟨h.grows, h.sound⟩, h.registered, h.apart uid⟩

theorem of_expires {w w' : World} (h : World.Expires w w') : Fades w.data w'.data := by
  cases h with
  | session | lock => exact .refl _
  | cache o id =>
    refine ⟨rfl, fun id' e v hv => ?_⟩
    by_cases hkey : Owner.user = o ∧ id' = id
    · obtain ⟨rfl, rfl⟩ := hkey
      simp [World.setData, Fields.none] at hv
    · rwa [World.setData, Data.setCache_cache_of_ne (not_and_or.mp hkey)] at hv

end Fades

/-- The cached fields of every user are the rows. -/
structure InStep (c : Container) (d : Data) : Prop where
  sound : d.Sound c
  registered : ∀ uid, Registered c uid d
  mirrors : ∀ uid, Mirrors c uid d

structure Others (c : Container) (uid : UInt64) (d : Data) : Prop where
  sound : d.Sound c
  registered : ∀ uid', uid' ≠ uid → Registered c uid' d
  mirrors : ∀ uid', uid' ≠ uid → Mirrors c uid' d

def solo : Setting Op.Resp Data where
  step op d r d' := Data.Step op d r d' ∧ Calm op r
  rely := Fades
  guar _ _ _ _ := True
  pre _ _ := True
  rely_refl := .refl
  rely_trans := .trans

section

variable {c : Container} {uid : UInt64} {creates : Bool} {u : UnitOfWork} {d d' : Data}

theorem InStep.fades (h : InStep c d) (hf : Fades d d') : InStep c d' where
  sound := hf.sound h.sound
  registered uid := hf.registered (h.registered uid)
  mirrors uid := (h.mirrors uid).apart h.sound hf.grows (hf.apart uid)

theorem inStep_stable : solo.Stable (InStep c) := fun _ _ hf h => h.fades hf

theorem InStep.clean (h : InStep c d) (uid : UInt64) : Clean c uid d :=
  ⟨h.sound, h.registered uid, h.mirrors uid⟩

theorem InStep.others (h : InStep c d) (uid : UInt64) : Others c uid d :=
  ⟨h.sound, fun uid' _ => h.registered uid', fun uid' _ => h.mirrors uid'⟩

theorem Clean.inStep (h : Clean c uid d) (ho : Others c uid d) : InStep c d := by
  refine ⟨h.sound, fun uid' => ?_, fun uid' => ?_⟩
  · by_cases hid : uid' = uid
    · rw [hid]
      exact h.registered
    · exact ho.registered uid' hid
  · by_cases hid : uid' = uid
    · rw [hid]
      exact h.mirrors
    · exact ho.mirrors uid' hid

theorem Others.fades (h : Others c uid d) (hf : Fades d d') : Others c uid d' where
  sound := hf.sound h.sound
  registered uid' hne := hf.registered (h.registered uid' hne)
  mirrors uid' hne := (h.mirrors uid' hne).apart h.sound hf.grows (hf.apart uid')

theorem Others.change (h : Others c uid d) (hc : Change c uid d d') : Others c uid d' where
  sound := hc.sound h.sound
  registered uid' hne := (h.registered uid' hne).of_accounts hc.accounts
  mirrors uid' hne :=
    (h.mirrors uid' hne).apart h.sound hc.grows (.of_confined hne hc.toConfinedTo)

/-- What is proved of a request acting for one user holds by itself, and the other users stay
in step. -/
theorem lift_solo {ε α : Type} {p : Call ε α} {Q : Outcome ε α → Data → Prop}
    (ho : Others c uid d) (h : (exclusive c uid creates).wp p Q d) :
    solo.wp p (fun o d' => Others c uid d' ∧ Q o d') d := by
  have hrely : ∀ d d', solo.rely d d' → (exclusive c uid creates).rely d d' :=
    fun _ _ hf => Fades.rely hf uid creates
  have hstable : solo.Stable (Others c uid) := fun _ _ hf ho => ho.fades hf
  refine Setting.wp_conseq hrely hstable ?_ ho h
  intro op d₁ ho₁ _
  exact ⟨trivial, fun r d₂ hs => ⟨hs, fun hguar => ⟨trivial, ho₁.change hguar⟩⟩⟩

theorem still_solo (op : Op) (hop : op.Still) (h : InStep c d) : solo.pre op d ∧
    ∀ r d', solo.step op d r d' → solo.guar op r d d' ∧ InStep c d' := by
  refine ⟨trivial, fun r d' hs => ⟨trivial, ?_⟩⟩
  rw [hop.unchanged hs.1]
  exact h

theorem respond_solo {action : UInt32} {code : Int32} {body : ResponseBody}
    {sync : Option SyncData} {v : Option UnitOfWork} (h : InStep c d) :
    solo.wp ((sendGameResponse action code body sync).bind fun res => .ret ⟨res, v⟩)
      (fun (_ : Outcome UnitOfWork Reply) d' => InStep c d') d :=
  Setting.wp_call inStep_stable h fun _ h₁ => still_solo .timeNow trivial h₁

/-! ### Login -/

/-- A `Login` that has its account acts for the user of the account from then on. -/
structure Acting (c : Container) (u : UnitOfWork) (d : Data) : Prop where
  keeping : Keeping c u.userID true [] u d
  others : Others c u.userID d

theorem Acting.inStep (h : Acting c u d) : InStep c d := h.keeping.clean.inStep h.others

theorem InStep.acting (h : InStep c d) (hu : Bare u) : Acting c u d :=
  ⟨Bare.keeping hu (h.clean u.userID), h.others u.userID⟩

theorem lift_acting {α : Type} {m : UowM α} {Pre : UnitOfWork → Prop}
    {Post : α → UnitOfWork → Prop} (h : Acting c u d)
    (hm : Keeps (exclusive c u.userID true) (Keeping c u.userID true) Pre m Post) (hu : Pre u) :
    UowM.wp solo m (fun r u' d' => Acting c u' d' ∧ ∀ a, r = .ok a → Post a u')
      (fun _ d' => InStep c d') u d := by
  refine Setting.wp_mono ?_ (lift_solo h.others (hm u d h.keeping hu))
  rintro (⟨r, u'⟩ | u') d' ⟨ho, hQ⟩
  · obtain ⟨hkeeping, -, hpost⟩ := hQ
    have hid := hkeeping.holds.user
    rw [← hid] at hkeeping ho
    exact ⟨⟨hkeeping, ho⟩, hpost⟩
  · obtain ⟨X, hX⟩ := hQ
    exact hX.clean.inStep ho

theorem pickShard_registered (hdraws : DrawsRegistered c.shards) (u : UnitOfWork) :
    (pickShard c u).Returns fun p => ∀ id, p.1 = .ok id → (c.shards.getShard id).isSome := by
  unfold pickShard
  split_ifs
  · intro id hid
    cases hid
  · intro r
    simp only [Prog.ret_bind]
    cases hfind : c.shards.shardPool.find? fun p => decide ((r : ℤ) < p.cumWeight) with
    | some p =>
      rintro id ⟨⟩
      exact hdraws p (List.mem_of_find?_eq_some hfind)
    | none =>
      cases hlast : c.shards.shardPool.getLast? with
      | some p =>
        rintro id ⟨⟩
        exact hdraws p (List.mem_of_getLast? hlast)
      | none => trivial

theorem InStep.created (h : InStep c d) (hu : Bare u) {m : Account} {k : UInt64}
    (hk : (d.db c.gameDB).Fresh .account k) (hshard : (c.shards.getShard m.dbShardID).isSome) :
    Acting c (({ u with userID := k } : UnitOfWork).loadedOne .account (Row.setPrimaryKey k m))
      (d.setDb c.gameDB
        ((d.db c.gameDB).insert .account (Row.setPrimaryKey (e := .account) k m))) := by
  obtain ⟨hgrows, hsound, hconfined⟩ := insert_account h.sound hk (m := m)
  have habsent : ¬ d.HasAccount c k := by
    rintro ⟨a, ha, hid⟩
    exact hk.2 a ha hid
  have hregistered : ∀ uid', Registered c uid' (d.setDb c.gameDB
      ((d.db c.gameDB).insert .account (Row.setPrimaryKey (e := .account) k m))) := by
    intro uid' a ha hid
    rw [Data.setDb_db_self, Tables.insert_self] at ha
    rcases List.mem_append.mp ha with ha | ha
    · exact h.registered uid' a ha hid
    · rw [List.mem_singleton.mp ha]
      exact hshard
  have hclean : Clean c k (d.setDb c.gameDB
      ((d.db c.gameDB).insert .account (Row.setPrimaryKey (e := .account) k m))) := by
    refine ⟨hsound, hregistered k, ?_⟩
    intro e v hv
    exact absurd (h.sound.cached k e v hv).2.1 habsent
  refine ⟨⟨hu.created h.sound hk, ?_⟩, hsound, fun uid' _ => hregistered uid', fun uid' hne => ?_⟩
  · have hbare : Bare { u with userID := k } := ⟨hu.club, hu.store, hu.dbOps⟩
    have hkeeping : Keeping c k true [] { u with userID := k } _ := Bare.keeping hbare hclean
    refine hkeeping.tracks.loadedOne hkeeping.holds (hu.store .account) rfl rfl ?_
    have hnone : (d.db c.gameDB).select .account k = [] := by
      refine List.filter_eq_nil_iff.mpr fun a ha hid => hk.2 a ha ?_
      exact of_decide_eq_true hid
    have hown : Row.ownerID (Row.setPrimaryKey (e := .account) k m) = k := rfl
    rw [Data.setDb_db_self, Tables.select, Tables.insert_self, List.filter_append,
      List.filter_singleton, hown]
    change (d.db c.gameDB).select .account k ++ _ = _
    simp [hnone]
  · exact (h.mirrors uid').apart h.sound hgrows (.of_confined hne hconfined)

theorem AccountService.login_solo (hdraws : DrawsRegistered c.shards) {ch : UInt64}
    {deviceID : String} (hu : Bare u) (h : InStep c d) :
    UowM.wp solo (AccountService.login c ch deviceID)
      (fun r u' d' => InStep c d' ∧ ∀ p, r = .ok p → Acting c u' d' ∧ u'.Held .account p.1)
      (fun _ d' => InStep c d') u d := by
  refine wp_perform_bind inStep_stable h ?_
  intro d₁ h₁
  refine ⟨trivial, fun reply d₂ hs => ⟨trivial, ?_⟩⟩
  have hsame : d₂ = d₁ := hs.1.1
  subst hsame
  cases reply with
  | none => exact ⟨h₁, by simp⟩
  | some found =>
    refine wp_perform_bind inStep_stable h₁ ?_
    intro d₃ h₃
    refine ⟨trivial, fun now d₄ hs₄ => ⟨trivial, ?_⟩⟩
    have hsame₄ : d₄ = d₃ := hs₄.1
    subst hsame₄
    cases found with
    | none =>
      have hpick := pickShard_wp (c := c) (u := u) inStep_stable
        (fun n _ hd => still_solo (.intN n) trivial hd) h₃
      refine wp_bind (Setting.wp_mono ?_
        (Setting.wp_returns (pickShard_registered hdraws u) hpick))
      rintro (⟨err | shardID, u'⟩ | u') d₅ ⟨hends, hshard⟩
      · exact ⟨hends.2, by simp⟩
      · obtain ⟨rfl, h₅⟩ := hends
        have hregistered := hshard _ rfl shardID rfl
        change UowM.wp solo (new .account ⟨0, ch, deviceID, 1, shardID, now, now⟩ >>= _) _ _ u' d₅
        unfold UowM.wp
        rw [AccountService.new_eq]
        refine Setting.wp_call inStep_stable h₅ ?_
        intro d₆ h₆
        refine ⟨trivial, fun r d₇ hs₇ => ⟨trivial, ?_⟩⟩
        rcases hs₇.1 with ⟨rfl, rfl⟩ | ⟨k, ⟨hk, -⟩, rfl, rfl⟩
        · exact ⟨h₆, by simp⟩
        · have hacting : Acting c (UnitOfWork.loadedOne _ .account
              (Row.setPrimaryKey k ⟨0, ch, deviceID, 1, shardID, now, now⟩)) _ :=
            h₆.created hu hk hregistered
          refine ⟨hacting.inStep, ?_⟩
          rintro p ⟨⟩
          exact ⟨hacting, .one u'.heap.next, UnitOfWork.loadedOne_store _ .account _,
            List.mem_singleton.mpr rfl⟩
      · exact hends
    | some uid =>
      have hbare : Bare { u with userID := uid } := ⟨hu.club, hu.store, hu.dbOps⟩
      have hkeeps : Keeps (exclusive c uid true) (Keeping c uid true) (fun _ => True) _ _ :=
        AccountService.keeps_found keeping_closed deviceID now
      refine wp_local rfl (wp_mono ?_ (fun _ _ h => h)
        (lift_acting (h₃.acting hbare) hkeeps trivial))
      rintro r u' d' ⟨hacting, hpost⟩
      exact ⟨hacting.inStep, fun p hp => ⟨hacting, hpost p hp⟩⟩

theorem login_solo (hdraws : DrawsRegistered c.shards) {body : Body} (hu : Bare u)
    (h : InStep c d) :
    UowM.wp solo (login c body)
      (fun r u' d' => InStep c d' ∧ ∀ m, r = .ok m → Acting c u' d') (fun _ d' => InStep c d')
      u d := by
  unfold login
  cases body.login with
  | none => exact ⟨h, by simp⟩
  | some req =>
    dsimp only
    split_ifs
    · exact ⟨h, by simp⟩
    · refine wp_bind (wp_mono ?_ (fun _ _ h => h) (AccountService.login_solo hdraws hu h))
      rintro (err | p) u₁ d₁ ⟨h₁, hacting⟩
      · exact ⟨h₁, by simp⟩
      · obtain ⟨hacting₁, hheld⟩ := hacting p rfl
        have hkeeps : Keeps (exclusive c u₁.userID true) (Keeping c u₁.userID true) _ _ _ :=
          keeps_loginWith keeping_closed keeping_extends keeping_signs p.1 p.2
        refine wp_mono ?_ (fun _ _ h => h) (lift_acting hacting₁ hkeeps hheld)
        rintro r u₂ d₂ ⟨hacting₂, -⟩
        exact ⟨hacting₂.inStep, fun _ _ => hacting₂⟩

theorem serve_login_solo (hdraws : DrawsRegistered c.shards) {s : Server} {catalog : Catalog}
    {def_ : ActionDef} {req : GameRequest} (hdef : def_.handler = login c) (h : InStep c d) :
    solo.wp (serve s catalog def_ req) (fun _ d' => InStep c d') d := by
  refine Setting.wp_call inStep_stable h ?_
  intro d₁ h₁
  refine ⟨trivial, fun r d₂ hs => ⟨trivial, ?_⟩⟩
  have hsame : d₂ = d₁ := hs.1
  subst hsame
  have hbare : Bare (.new req.userId catalog) := ⟨rfl, fun _ => rfl, rfl⟩
  rw [hdef]
  refine Setting.wp_bind (Setting.wp_mono ?_ (login_solo hdraws hbare h₁))
  rintro (⟨err | result, u'⟩ | u') d' h'
  · exact respond_solo h'.1
  · have hacting := h'.2 result rfl
    refine Setting.wp_mono ?_ (lift_solo hacting.others (finish_clean hacting.keeping))
    rintro o d'' ⟨ho, hclean⟩
    exact hclean.inStep ho
  · exact h'

/-! ### Whole requests -/

theorem serve_solo (hdraws : DrawsRegistered c.shards) {s : Server} {catalog : Catalog}
    {def_ : ActionDef} {req : GameRequest}
    (hdef : def_.handler = login c ∨ ∀ body, Composed c (def_.handler body)) (h : InStep c d) :
    solo.wp (serve s catalog def_ req) (fun _ d' => InStep c d') d := by
  rcases hdef with hdef | hdef
  · exact serve_login_solo hdraws hdef h
  · have hserve : (exclusive c req.userId true).wp (serve s catalog def_ req) _ d :=
      serve_clean rfl (hdef req.body) (h.clean req.userId)
    refine Setting.wp_mono ?_ (lift_solo (h.others req.userId) hserve)
    rintro o d' ⟨ho, hclean⟩
    exact hclean.inStep ho

theorem safe_solo {ε α : Type} {p : Call ε α} (hp : p.Safe Op.Still) (h : InStep c d) :
    solo.wp p (fun o d' => (∃ a, o = .ret a) ∧ InStep c d') d :=
  Setting.wp_safe inStep_stable (fun op _ hop hd => still_solo op hop hd) hp h

theorem underUserLock_solo {req : GameRequest} {p : Call UnitOfWork Reply}
    (hp : ∀ d, InStep c d → solo.wp p (fun _ d' => InStep c d') d) (h : InStep c d) :
    solo.wp (underUserLock req p) (fun _ d' => InStep c d') d := by
  unfold underUserLock
  split_ifs
  · exact hp d h
  · have hsafe : (acquireUserLock req.userId : Call UnitOfWork (Option String)).Safe Op.Still :=
      safe_acquireUserLock.mono fun op hop => (@still_of_acquire c req.userId true op hop).1
    refine Setting.wp_bind (Setting.wp_mono ?_ (safe_solo hsafe h))
    rintro _ d₁ ⟨⟨token, rfl⟩, h₁⟩
    cases token with
    | none => exact respond_solo h₁
    | some token =>
      refine Setting.wp_ensure (Setting.wp_mono ?_ (hp d₁ h₁))
      intro o d₂ h₂
      refine Setting.wp_call inStep_stable h₂ ?_
      intro d₃ h₃
      refine ⟨trivial, fun r d₄ hs => ⟨trivial, ?_⟩⟩
      have hsame : d₄ = d₃ := hs.1
      subst hsame
      cases o with
      | ret rep => exact h₃
      | raise u => exact h₃

theorem request_solo {s : Server} (hs : Server.Composes c s) (hdraws : DrawsRegistered c.shards)
    (r : Incoming) (h : InStep c d) :
    solo.wp (r.program s) (fun _ d' => InStep c d') d := by
  obtain ⟨store, raw⟩ := r
  cases raw with
  | unreadable => exact respond_solo h
  | malformed => exact respond_solo h
  | envelope req =>
    simp only [Incoming.program, dispatch]
    cases haction : s.actionRegistry req.action with
    | none => exact respond_solo h
    | some def_ =>
      cases store.getByClientVersion req.clientVersion with
      | none => exact respond_solo h
      | some catalog =>
        have hsafe : (authenticate def_ req : Call UnitOfWork _).Safe Op.Still :=
          safe_authenticate.mono fun op hop => (@still_of_verify c req.userId true op hop).1
        refine Setting.wp_bind (Setting.wp_mono ?_ (safe_solo hsafe h))
        rintro _ d₁ ⟨⟨refusal, rfl⟩, h₁⟩
        cases refusal with
        | some refusal => exact respond_solo h₁
        | none => exact underUserLock_solo (fun d hd => serve_solo hdraws (hs _ _ haction) hd) h₁

end

/-! ## Coherence -/

/-- Requests of any users, served one after another from a state whose caches are in step,
leave the caches in step, whatever fails but the deletions. -/
theorem series_in_step {c : Container} {s : Server} (hs : Server.Composes c s)
    (hdraws : DrawsRegistered c.shards) {w w' : World}
    {episodes : List (Episode Op.Resp UnitOfWork Reply World)} (hw : InStep c w.data)
    (hrequests : ∀ p ∈ episodes, ∃ r : Incoming, p.program = r.program s)
    (hcalm : ∀ p ∈ episodes, ∀ e ∈ p.events, Calm e.op e.resp)
    (h : Series World.Step (Relation.ReflTransGen World.Expires) w episodes w') :
    InStep c w'.data := by
  have hfades : ∀ w w', Relation.ReflTransGen World.Expires w w' → Fades w.data w'.data := by
    intro w w' hexpires
    induction hexpires with
    | refl => exact .refl _
    | tail _ hstep ih => exact ih.trans (.of_expires hstep)
  have hdata : Series solo.step solo.rely w.data (episodes.map (Episode.map World.data)) w'.data :=
    h.project (fun _ _ _ _ hstep hcalm => ⟨hstep.data, hcalm⟩) hfades hcalm
  refine Series.keeps inStep_stable hdata ?_ hw
  intro p hp d hd
  obtain ⟨p₀, hp₀, rfl⟩ := List.mem_map.mp hp
  obtain ⟨r, hr⟩ := hrequests p₀ hp₀
  rw [Episode.map, hr]
  exact request_solo hs hdraws r hd

/-! ## Two upgrades of a card -/

def upgrade : Call UnitOfWork Reply := (Sample.upgradeRequest 1 "s" 5).program Sample.servers

def refused (n : ℕ) : Choice := { token := "a", fails := n = 11 }

def granted (_ : ℕ) : Choice := { token := "b" }

def first : List (Event Op.Resp World) × Outcome UnitOfWork Reply × World :=
  upgrade.run World.exec refused 0 Sample.world

def second : List (Event Op.Resp World) × Outcome UnitOfWork Reply × World :=
  upgrade.run World.exec granted 0 first.2.2

theorem inStep_world : InStep Sample.container Sample.world.data where
  sound := Isolation.sound_world
  registered _ a ha _ := by
    rw [List.mem_singleton.mp ha]
    decide
  mirrors _ _ _ hv := by cases hv

theorem series_in_step_upgrades : InStep Sample.container second.2.2.data ∧
    second.2.2.data.cache .user 1 .cards =
      some (.many [({ Sample.card with level := 3 } : Card)]) := by
  have hrun : ∀ cs (w : World), Runs World.Step (Relation.ReflTransGen World.Expires) upgrade w
      (upgrade.run World.exec cs 0 w).1 (upgrade.run World.exec cs 0 w).2.1
      (upgrade.run World.exec cs 0 w).2.2 :=
    fun cs w => (World.runs cs upgrade w).mono (fun _ _ _ _ h => h) fun _ _ h => h ▸ .refl
  have hseries : Series World.Step (Relation.ReflTransGen World.Expires) Sample.world
      [⟨upgrade, first.1, first.2.1⟩, ⟨upgrade, second.1, second.2.1⟩] second.2.2 :=
    .ran (.ran .start (hrun refused Sample.world)) (hrun granted first.2.2)
  have hdraws : DrawsRegistered Sample.container.shards :=
    drawsRegistered_registerShard
      (drawsRegistered_registerShard drawsRegistered_empty _ _ _) _ _ _
  have hcomposes : Server.Composes Sample.container Sample.servers := server_composes
  refine ⟨series_in_step hcomposes hdraws inStep_world ?_ ?_ hseries, rfl⟩
  · intro p hp
    simp only [List.mem_cons, List.not_mem_nil, or_false] at hp
    rcases hp with rfl | rfl
    · exact ⟨Sample.upgradeRequest 1 "s" 5, rfl⟩
    · exact ⟨Sample.upgradeRequest 1 "s" 5, rfl⟩
  · decide +kernel

end FutureWas.Coherence
