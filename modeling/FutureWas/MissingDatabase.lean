import FutureWas.Commit
import FutureWas.Requests
import FutureWas.Model.Sample

/-!
# Missing databases

`ShardDB` answers nil when the account cannot be loaded and when its shard is not registered,
and no loader or writer checks for it. For each operation and each request this tells from the
data, and from the calls that fail, whether a missing database is dereferenced.
-/

set_option autoImplicit false

namespace FutureWas.MissingDatabase

open Effect UowM Uow Commit

/-! ## Services that fail as told -/

/-- Reads of rows and cached fields fail exactly where `down` says so. -/
def ReadsUnder (down : Op → Bool) : (op : Op) → Data → op.Resp → Prop
  | .cacheGet e id, d, r =>
    r = if down (.cacheGet e id) then none else some (d.cache e.owner id e)
  | .select db e id, d, r =>
    r = if down (.select db e id) then none else some ((d.db db).select e id)
  | _, _, _ => True

def StepUnder (down : Op → Bool) (op : Op) (d : Data) (r : op.Resp) (d' : Data) : Prop :=
  Data.Step op d r d' ∧ ReadsUnder down op d r

theorem exec_under {ch : Choice} {down : Op → Bool} {op : Op} (h : ch.fails = down op)
    (w : World) : StepUnder down op w.data (World.exec ch op w).1 (World.exec ch op w).2.data := by
  refine ⟨World.exec_data ch op w, ?_⟩
  cases op <;> simp [ReadsUnder, World.exec, h]

/-- Others leave the cached fields of the scopes and the account rows of the user alone. -/
structure SameUser (c : Container) (ids : Owner → UInt64) (d d' : Data) : Prop where
  cache : ∀ o, d'.cache o (ids o) = d.cache o (ids o)
  account : (d'.db c.gameDB).select .account (ids .user) =
    (d.db c.gameDB).select .account (ids .user)

section

variable (c : Container) (down : Op → Bool) (d : Data)

def cacheAnswer (e : EntityKind) (id : UInt64) : Option (Option (Cached e)) :=
  if down (.cacheGet e id) then none else some (d.cache e.owner id e)

/-- The account as `Account` loads it: from the cache, else from the game database. -/
def findAccount (id : UInt64) : Option Account :=
  if id = 0 then none
  else match cachedOne (cacheAnswer down d .account id) with
    | some a => some a
    | none =>
      if down (.select c.gameDB .account id) then none
      else ((d.db c.gameDB).select .account id).head?

def accountOf (u : UnitOfWork) : Option Account :=
  match u.store .account with
  | some (.one r) => some (u.heap.cell .account r)
  | some (.many _) => none
  | none => findAccount c down d u.userID

def routeBy (acc : Option Account) (e : EntityKind) : Option DbId :=
  if e.isGameDB then some c.gameDB else acc.bind fun a => c.shards.getShard a.dbShardID

def routeOf (u : UnitOfWork) (e : EntityKind) : Option DbId := routeBy c (accountOf c down d u) e

end

/-- Unwinding that no driver has caused. -/
def NilDereference {α W : Type} (o : Outcome UnitOfWork α) (tr : List (Event Op.Resp W)) : Prop :=
  (∃ u, o = .raise u) ∧ ∀ e ∈ tr, ¬ Panicked e.op e.resp

/-! ## Routing -/

section

variable {c : Container} {down : Op → Bool} {ids : Owner → UInt64}

structure Routes (c : Container) (down : Op → Bool) (ids : Owner → UInt64) (acc : Option Account)
    (u : UnitOfWork) (d : Data) : Prop where
  scope : ∀ o, u.scopeID o = ids o
  single : ∀ rs, u.store .account ≠ some (.many rs)
  account : accountOf c down d u = acc

theorem accountOf_congr {u u' : UnitOfWork} {d d' : Data}
    (hstore : u'.store .account = u.store .account)
    (hid : u'.userID = u.userID)
    (hheap : ∀ r, u.store .account = some (.one r) →
      u'.heap.cell .account r = u.heap.cell .account r)
    (hcache : d'.cache .user u.userID .account = d.cache .user u.userID .account)
    (hrows : (d'.db c.gameDB).select .account u.userID = (d.db c.gameDB).select .account u.userID) :
    accountOf c down d' u' = accountOf c down d u := by
  have hfind : findAccount c down d' u'.userID = findAccount c down d u.userID := by
    have hanswer : cacheAnswer down d' .account u.userID = cacheAnswer down d .account u.userID :=
      congrArg (fun v => if down (.cacheGet .account u.userID) then none else some v) hcache
    unfold findAccount
    rw [hid, hanswer, hrows]
  unfold accountOf
  rw [hstore, hfind]
  cases hs : u.store .account with
  | none => rfl
  | some s =>
    cases s with
    | one r => exact congrArg some (hheap r hs)
    | many rs => rfl

theorem SameUser.refl (d : Data) : SameUser c ids d d := ⟨fun _ => rfl, rfl⟩

theorem SameUser.trans {d d' d'' : Data} (h : SameUser c ids d d') (h' : SameUser c ids d' d'') :
    SameUser c ids d d'' :=
  ⟨fun o => (h'.cache o).trans (h.cache o), h'.account.trans h.account⟩

def reading (c : Container) (down : Op → Bool) (ids : Owner → UInt64) : Setting Op.Resp Data where
  step := StepUnder down
  rely := SameUser c ids
  guar op r _ _ := ¬ Panicked op r
  pre _ _ := True
  rely_refl d := .refl d
  rely_trans h h' := h.trans h'

variable {α : Type} {acc : Option Account} {u : UnitOfWork} {d : Data}

theorem Routes.of_same {d' : Data} (h : Routes c down ids acc u d) (hd : SameUser c ids d d') :
    Routes c down ids acc u d' := by
  have huser : u.userID = ids .user := h.scope .user
  refine ⟨h.scope, h.single, ?_⟩
  rw [← h.account]
  refine accountOf_congr rfl rfl (fun _ _ => rfl) ?_ ?_
  · rw [huser, hd.cache]
  · rw [huser, hd.account]

theorem routes_stable : (reading c down ids).Stable (Routes c down ids acc u) :=
  fun _ _ hd h => h.of_same hd

theorem same_stable : (reading c down ids).Stable (SameUser c ids d) :=
  fun _ _ hd h => h.trans hd

theorem cacheAnswer_congr {d' : Data} (hscope : ∀ o, u.scopeID o = ids o)
    (hd : SameUser c ids d d') (e : EntityKind) :
    cacheAnswer down d e (u.scopeID e.owner) = cacheAnswer down d' e (u.scopeID e.owner) := by
  simp only [cacheAnswer, hscope, hd.cache]

theorem Routes.of_data {d' : Data} (h : Routes c down ids acc u d) (hd : d' = d) :
    Routes c down ids acc u d' := by
  rw [hd]
  exact h

theorem Routes.of_loaded {r : Ref} (h : Routes c down ids acc u d)
    (hr : u.store .account = some (.one r)) (d' : Data) : Routes c down ids acc u d' := by
  refine ⟨h.scope, h.single, ?_⟩
  rw [← h.account]
  unfold accountOf
  rw [hr]

structure Frames (u u' : UnitOfWork) : Prop where
  store : ∀ e, e ≠ .account → u'.store e = u.store e
  dbOps : u'.dbOps = u.dbOps
  clubID : u'.clubID = u.clubID

theorem Frames.refl : Frames u u := ⟨fun _ _ => rfl, rfl, rfl⟩

theorem frames_loadedOne (a : Account) : Frames u (u.loadedOne .account a) where
  store := u.loadedOne_store_of_ne .account a
  dbOps := rfl
  clubID := rfl

theorem Routes.loadedOne {a : Account} (h : Routes c down ids acc u d) (ha : acc = some a) :
    Routes c down ids acc (u.loadedOne .account a) d := by
  refine ⟨h.scope, ?_, ?_⟩
  · intro rs hrs
    rw [u.loadedOne_store .account a] at hrs
    cases hrs
  · rw [accountOf, u.loadedOne_store .account a, ha]
    exact congrArg some (u.heap.alloc_cell_self .account a)

theorem Routes.loadedMany {e : EntityKind} (h : Routes c down ids acc u d) (he : e ≠ .account)
    (ms : List (Row e)) : Routes c down ids acc (u.loadedMany e ms) d := by
  have hstore := u.loadedMany_store_of_ne e ms .account he.symm
  refine ⟨h.scope, ?_, ?_⟩
  · rw [hstore]
    exact h.single
  · rw [← h.account]
    refine accountOf_congr hstore rfl ?_ rfl rfl
    intro r _
    exact u.heap.allocMany_cell_kind he.symm ms r

theorem Routes.of_cacheSet {e : EntityKind} {id : UInt64} {v : Cached e} {done : Bool} {d' : Data}
    (h : Routes c down ids acc u d) (he : e ≠ .account)
    (hs : Data.Step (.cacheSet e id v) d done d') :
    Routes c down ids acc u d' := by
  rcases hs with ⟨-, rfl⟩ | ⟨-, rfl⟩
  · exact h
  · refine ⟨h.scope, h.single, ?_⟩
    rw [← h.account]
    refine accountOf_congr rfl rfl (fun _ _ => rfl) ?_ rfl
    by_cases howner : e.owner = .user
    · by_cases hid : u.userID = id
      · rw [hid, howner, Data.setCache_cache_self]
        simp [Fields.hset, Fields.single, Function.update_of_ne he.symm, Fields.none]
      · rw [howner, Data.setCache_cache_of_ne]
        simp [hid]
    · rw [Data.setCache_cache_of_ne]
      simp [Ne.symm howner]

theorem account_wp (h : Routes c down ids acc u d) :
    UowM.wp (reading c down ids) (account c)
      (fun r u' d' => Routes c down ids acc u' d' ∧ Frames u u' ∧ match r with
        | .ok ref => acc = some (u'.heap.cell .account ref)
        | .error _ => acc = none)
      (fun _ _ => False) u d := by
  refine wp_local rfl ?_
  cases hstore : u.store .account with
  | some s =>
    cases s with
    | many rs => exact absurd hstore (h.single rs)
    | one r =>
      refine ⟨h, .refl, ?_⟩
      rw [← h.account, accountOf, hstore]
  | none =>
    change UowM.wp _ (if u.userID = 0 then _ else _) _ _ u d
    have hacc := h.account
    rw [accountOf, hstore] at hacc
    dsimp only at hacc
    unfold findAccount at hacc
    by_cases hid : u.userID = 0
    · rw [if_pos hid] at hacc ⊢
      exact ⟨h, .refl, hacc.symm⟩
    · rw [if_neg hid] at hacc ⊢
      refine wp_perform_bind same_stable (SameUser.refl d) ?_
      intro d₁ hd₁
      refine ⟨trivial, ?_⟩
      intro cached d₂ hstep
      refine ⟨fun hpanic => hpanic, ?_⟩
      have hcached : cached = cacheAnswer down d .account u.userID := by
        exact hstep.2.trans (cacheAnswer_congr h.scope hd₁ .account).symm
      have hd₂ : SameUser c ids d d₂ := by
        rw [hstep.1.1]
        exact hd₁
      rw [← hcached] at hacc
      cases hone : cachedOne cached with
      | some a =>
        rw [hone] at hacc
        refine wp_local rfl (wp_local rfl ?_)
        exact ⟨(h.of_same hd₂).loadedOne hacc.symm, frames_loadedOne a,
          hacc.symm.trans (congrArg some (u.heap.alloc_cell_self .account a).symm)⟩
      | none =>
        rw [hone] at hacc
        dsimp only at hacc
        refine wp_local rfl (wp_perform_bind same_stable hd₂ ?_)
        intro d₃ hd₃
        refine ⟨trivial, ?_⟩
        intro rows d₄ hstep₄
        refine ⟨fun hpanic => hpanic, ?_⟩
        have hd₄ : SameUser c ids d d₄ := by
          rw [hstep₄.1.1]
          exact hd₃
        have h₄ := h.of_same hd₄
        have hrows : rows = if down (.select c.gameDB .account u.userID) then none
            else some ((d.db c.gameDB).select .account u.userID) := by
          have hselect := hd₃.account
          have huser : u.userID = ids .user := h.scope .user
          rw [huser, ← hselect, ← huser]
          exact hstep₄.2
        split_ifs at hacc hrows with hdown
        · subst hrows
          exact ⟨h₄, .refl, hacc.symm⟩
        · cases hsel : (d.db c.gameDB).select .account u.userID with
          | nil =>
            rw [hsel] at hacc hrows
            subst hrows
            exact ⟨h₄, .refl, hacc.symm⟩
          | cons a rest =>
            rw [hsel] at hacc hrows
            subst hrows
            refine wp_local rfl (wp_local rfl ?_)
            refine wp_perform_bind same_stable hd₄ ?_
            intro d₅ hd₅
            refine ⟨trivial, ?_⟩
            intro done d₆ hstep₆
            refine ⟨fun hpanic => hpanic, ?_⟩
            have hloaded := (h.of_same hd₅).loadedOne hacc.symm
            exact ⟨hloaded.of_loaded (u.loadedOne_store .account a) d₆, frames_loadedOne a,
              hacc.symm.trans (congrArg some (u.heap.alloc_cell_self .account a).symm)⟩

theorem routedDB_wp {e : EntityKind} (h : Routes c down ids acc u d) :
    UowM.wp (reading c down ids) (routedDB c e)
      (fun r u' d' => r = .ok (routeBy c acc e) ∧ Routes c down ids acc u' d' ∧ Frames u u')
      (fun _ _ => False) u d := by
  unfold routedDB
  by_cases he : e.isGameDB = true
  · rw [if_pos he]
    have hroute : routeBy c acc e = some c.gameDB := if_pos he
    exact ⟨by rw [hroute], h, .refl⟩
  · rw [if_neg he]
    have hroute : routeBy c acc e = acc.bind fun a => c.shards.getShard a.dbShardID := if_neg he
    refine wp_bind (wp_attempt (wp_mono ?_ (fun _ _ h => h) (account_wp h)))
    intro r u' d' hpost
    obtain ⟨hroutes, hframes, hacc⟩ := hpost
    cases r with
    | error err =>
      subst hacc
      exact ⟨by rw [hroute]; rfl, hroutes, hframes⟩
    | ok ref =>
      refine wp_local rfl ?_
      refine ⟨?_, hroutes, hframes⟩
      rw [hroute, hacc]
      rfl

def Stuck (c : Container) (down : Op → Bool) (acc : Option Account) (u : UnitOfWork) (d : Data)
    (e : EntityKind) : Prop :=
  u.store e = none ∧ u.scopeID e.owner ≠ 0 ∧
    cachedMany (cacheAnswer down d e (u.scopeID e.owner)) = none ∧ routeBy c acc e = none

theorem loadList_wp {e : EntityKind} (hlist : e.isSingleton = false)
    (htyped : ∀ r, u.store e ≠ some (.one r)) (h : Routes c down ids acc u d) :
    UowM.wp (reading c down ids) (loadList c e)
      (fun r u' d' => ¬ Stuck c down acc u d e ∧ Routes c down ids acc u' d' ∧ u'.dbOps = u.dbOps ∧
        ∀ ms, u.store e = none → u.scopeID e.owner ≠ 0 →
          cachedMany (cacheAnswer down d e (u.scopeID e.owner)) = some ms →
            ∃ rs, r = .ok rs ∧ rs.map (u'.heap.cell e) = ms)
      (fun _ _ => Stuck c down acc u d e) u d := by
  have hne : e ≠ .account := by
    intro he
    rw [he] at hlist
    cases hlist
  refine wp_local rfl ?_
  cases hstore : u.store e with
  | some s =>
    cases s with
    | one r => exact absurd hstore (htyped r)
    | many rs =>
      refine ⟨fun hstuck => ?_, h, rfl, fun _ hnone => ?_⟩
      · rw [hstuck.1] at hstore
        cases hstore
      · cases hnone
  | none =>
    change UowM.wp _ (if u.scopeID e.owner = 0 then _ else _) _ _ u d
    by_cases hid : u.scopeID e.owner = 0
    · rw [if_pos hid]
      exact ⟨fun hstuck => hstuck.2.1 hid, h, rfl, fun _ _ hne => absurd hid hne⟩
    · rw [if_neg hid]
      refine wp_perform_bind same_stable (SameUser.refl d) ?_
      intro d₁ hd₁
      refine ⟨trivial, ?_⟩
      intro cached d₂ hstep
      refine ⟨fun hpanic => hpanic, ?_⟩
      have hcached : cached = cacheAnswer down d e (u.scopeID e.owner) := by
        rw [cacheAnswer_congr h.scope hd₁]
        exact hstep.2
      have hd₂ : SameUser c ids d d₂ := by
        rw [hstep.1.1]
        exact hd₁
      cases hmany : cachedMany cached with
      | some ms =>
        rw [hcached] at hmany
        have hunstuck : ¬ Stuck c down acc u d e := by
          intro hstuck
          rw [hstuck.2.2.1] at hmany
          cases hmany
        refine wp_local rfl (wp_local rfl ?_)
        refine ⟨hunstuck, (h.of_same hd₂).loadedMany hne ms, rfl, fun ms' _ _ hms' => ?_⟩
        rw [hmany] at hms'
        cases hms'
        exact ⟨_, rfl, u.heap.allocMany_values e ms⟩
      | none =>
        rw [hcached] at hmany
        refine wp_bind (wp_mono ?_ (fun _ _ hfalse => hfalse.elim)
          (routedDB_wp (h.of_same hd₂)))
        intro r u₃ d₃ hpost
        obtain ⟨rfl, h₃, hframes⟩ := hpost
        have huncached : ∀ ms, cachedMany (cacheAnswer down d e (u.scopeID e.owner)) ≠ some ms := by
          intro ms hms
          rw [hmany] at hms
          cases hms
        cases hroute : routeBy c acc e with
        | none => exact ⟨hstore, hid, hmany, hroute⟩
        | some db =>
          have hunstuck : ¬ Stuck c down acc u d e := by
            intro hstuck
            rw [hstuck.2.2.2] at hroute
            cases hroute
          refine wp_perform_bind routes_stable h₃ ?_
          intro d₄ h₄
          refine ⟨trivial, ?_⟩
          intro rows d₅ hstep₅
          refine ⟨fun hpanic => hpanic, ?_⟩
          have h₅ := h₄.of_data hstep₅.1.1
          cases rows with
          | none =>
            exact ⟨hunstuck, h₅, hframes.dbOps, fun ms _ _ hms => absurd hms (huncached ms)⟩
          | some ms =>
            refine wp_local rfl (wp_local rfl ?_)
            refine wp_perform_bind routes_stable (h₅.loadedMany hne ms) ?_
            intro d₆ h₆
            refine ⟨trivial, ?_⟩
            intro done d₇ hstep₇
            refine ⟨fun hpanic => hpanic, ?_⟩
            exact ⟨hunstuck, h₆.of_cacheSet hne hstep₇.1, hframes.dbOps,
              fun ms _ _ hms => absurd hms (huncached ms)⟩

/-- The two singleton kinds are in the game database, so `LoadOne` has a database. -/
theorem loadOne_wp {e : EntityKind} (hone : e.isSingleton = true)
    (htyped : ∀ rs, u.store e ≠ some (.many rs)) (h : Routes c down ids acc u d) :
    UowM.wp (reading c down ids) (loadOne c e) (fun _ u' _ => u'.dbOps = u.dbOps)
      (fun _ _ => False) u d := by
  have hroute : routeBy c acc e = some c.gameDB := by
    cases e <;> first | rfl | cases hone
  refine wp_local rfl ?_
  cases hstore : u.store e with
  | some s =>
    cases s with
    | many rs => exact absurd hstore (htyped rs)
    | one r => rfl
  | none =>
    change UowM.wp _ (if u.scopeID e.owner = 0 then _ else _) _ _ u d
    split_ifs
    · rfl
    · refine wp_perform_bind routes_stable h ?_
      intro d₁ h₁
      refine ⟨trivial, ?_⟩
      intro cached d₂ hstep
      refine ⟨fun hpanic => hpanic, ?_⟩
      cases cachedOne cached with
      | some m => exact wp_local rfl (wp_local rfl rfl)
      | none =>
        refine wp_bind (wp_mono ?_ (fun _ _ hfalse => hfalse.elim)
          (routedDB_wp (h₁.of_data hstep.1.1)))
        intro r u₃ d₃ hpost
        obtain ⟨rfl, h₃, hframes⟩ := hpost
        rw [hroute]
        refine wp_perform_bind routes_stable h₃ ?_
        intro d₄ h₄
        refine ⟨trivial, ?_⟩
        intro rows d₅ hstep₅
        refine ⟨fun hpanic => hpanic, ?_⟩
        rcases rows with - | - | ⟨m, ms⟩
        · exact hframes.dbOps
        · exact hframes.dbOps
        · refine wp_local rfl (wp_local rfl ?_)
          refine wp_perform_bind (P := fun _ => True) (fun _ _ _ _ => trivial) trivial ?_
          intro d₆ _
          refine ⟨trivial, ?_⟩
          intro done d₇ _
          exact ⟨fun hpanic => hpanic, hframes.dbOps⟩

theorem queue_wp {e : EntityKind} {stmt : Stmt} (h : Routes c down ids acc u d) :
    UowM.wp (reading c down ids) (routedDB c e >>= fun db => queueOp db stmt)
      (fun r u' _ => r = .ok () ∧ u'.dbOps = u.dbOps ++ [⟨routeBy c acc e, stmt⟩])
      (fun _ _ => False) u d := by
  refine wp_bind (wp_mono ?_ (fun _ _ hfalse => hfalse) (routedDB_wp h))
  intro r u' d' hpost
  obtain ⟨rfl, -, hframes⟩ := hpost
  exact ⟨rfl, by rw [← hframes.dbOps]⟩

theorem Routes.marked (e : EntityKind) (r : Ref) (h : Routes c down ids acc u d) :
    Routes c down ids acc (u.marked e r) d := by
  refine ⟨?_, ?_, ?_⟩
  · intro o
    rw [← h.scope o]
    cases o <;> simp [UnitOfWork.scopeID]
  · simpa using h.single
  · rw [← h.account]
    exact accountOf_congr (by simp) (by simp) (by simp) rfl rfl

theorem Routes.changed {f : Row .cards → Row .cards} (h : Routes c down ids acc u d) (r : Ref) :
    Routes c down ids acc (u.changed .cards r f) d := by
  refine ⟨h.scope, h.single, ?_⟩
  rw [← h.account]
  refine accountOf_congr rfl rfl ?_ rfl rfl
  intro r' _
  exact u.heap.set_cell_kind (by decide) r r' _

theorem update_wp {e : EntityKind} {r : Ref} (h : Routes c down ids acc u d) :
    UowM.wp (reading c down ids) (update c e r)
      (fun r' u' _ => r' = .ok () ∧ u'.dbOps = u.dbOps ++ [⟨routeBy c acc e, .update e r⟩])
      (fun _ _ => False) u d := by
  refine wp_local rfl ?_
  have hqueue := @queue_wp c down ids acc _ d e (.update e r) (h.marked e r)
  rwa [u.marked_dbOps e r] at hqueue

def withModel (u : UnitOfWork) (e : EntityKind) (r : Ref) : UnitOfWork :=
  if e.isSingleton then u.setStore e (.one r)
  else match u.store e with
    | some (.many rs) => u.setStore e (.many (rs ++ [r]))
    | _ => u.setStore e (.many [r])

theorem storeModel_eq (u : UnitOfWork) (e : EntityKind) (r : Ref) :
    storeModel e r u = .ret (.ok (), withModel u e r) := rfl

theorem withModel_cases (u : UnitOfWork) (e : EntityKind) (r : Ref) :
    ∃ s, withModel u e r = u.setStore e s := by
  unfold withModel
  split_ifs
  · exact ⟨_, rfl⟩
  · split
    · exact ⟨_, rfl⟩
    · exact ⟨_, rfl⟩

theorem withModel_dbOps (u : UnitOfWork) (e : EntityKind) (r : Ref) :
    ((withModel u e r).marked e r).dbOps = u.dbOps := by
  obtain ⟨s, hs⟩ := withModel_cases u e r
  rw [UnitOfWork.marked_dbOps, hs]
  rfl

theorem Routes.withModel {e : EntityKind} (h : Routes c down ids acc u d) (he : e ≠ .account)
    (r : Ref) : Routes c down ids acc (withModel u e r) d := by
  obtain ⟨s, hs⟩ := withModel_cases u e r
  have hstore : (u.setStore e s).store .account = u.store .account :=
    u.setStore_store_of_ne e he.symm s
  rw [hs]
  refine ⟨h.scope, ?_, ?_⟩
  · rw [hstore]
    exact h.single
  · rw [← h.account]
    exact accountOf_congr hstore rfl (fun _ _ => rfl) rfl rfl

theorem create_wp {e : EntityKind} {r : Ref} (h : Routes c down ids acc u d) :
    UowM.wp (reading c down ids) (create c e r)
      (fun r' u' _ => r' = .ok () ∧ u'.dbOps = u.dbOps ++ [⟨routeBy c acc e, .insert e r⟩])
      (fun _ _ => False) u d := by
  have hdbOps := withModel_dbOps u e r
  refine wp_local (storeModel_eq u e r) (wp_local rfl ?_)
  by_cases he : e.isGameDB = true
  · -- The account itself may just have been replaced, but it is not needed here.
    unfold routedDB routeBy
    rw [if_pos he, if_pos he, ← hdbOps]
    exact ⟨rfl, rfl⟩
  · have hne : e ≠ .account := by
      intro hacc
      exact he (by rw [hacc]; rfl)
    rw [← hdbOps]
    exact queue_wp ((h.withModel hne r).marked e r)

theorem createNow_wp {e : EntityKind} {r : Ref} (h : Routes c down ids acc u d) :
    UowM.wp (reading c down ids) (createNow c e r)
      (fun _ u' _ => routeBy c acc e ≠ none ∧ u'.dbOps = u.dbOps)
      (fun _ _ => routeBy c acc e = none) u d := by
  refine wp_bind (wp_mono ?_ (fun _ _ hfalse => hfalse.elim) (routedDB_wp h))
  intro r' u' d' hpost
  obtain ⟨rfl, h', hframes⟩ := hpost
  cases hroute : routeBy c acc e with
  | none => exact rfl
  | some db =>
    have hsome : some db ≠ none := Option.some_ne_none db
    refine wp_local rfl (wp_perform_bind routes_stable h' ?_)
    intro d₁ h₁
    refine ⟨trivial, ?_⟩
    intro key d₂ hstep
    refine ⟨fun hpanic => hpanic, ?_⟩
    cases key with
    | none => exact ⟨hsome, hframes.dbOps⟩
    | some key =>
      refine wp_local rfl (wp_local (storeModel_eq _ e r) (wp_local rfl ?_))
      split_ifs
      · exact ⟨hsome, (withModel_dbOps _ e r).trans hframes.dbOps⟩
      · exact ⟨hsome, (withModel_dbOps _ e r).trans hframes.dbOps⟩

end

/-! ## Operations -/

/-- The calls of the generic loaders and writers, as their type parameter allows them. -/
inductive Operation
  | loadOne (e : EntityKind) (single : e.isSingleton = true)
  | loadList (e : EntityKind) (list : e.isSingleton = false)
  | create (e : EntityKind) (r : Ref)
  | createNow (e : EntityKind) (r : Ref)
  | update (e : EntityKind) (r : Ref)

namespace Operation

def kind : Operation → EntityKind
  | loadOne e _ | loadList e _ | create e _ | createNow e _ | update e _ => e

def code (c : Container) : Operation → UowM Unit
  | loadOne e _ => Uow.loadOne c e >>= fun _ => pure ()
  | loadList e _ => Uow.loadList c e >>= fun _ => pure ()
  | create e r => Uow.create c e r
  | createNow e r => Uow.createNow c e r
  | update e r => Uow.update c e r

/-- A load is served without a database by the store or by the cache, or refused without an id. -/
def NeedsDatabase (down : Op → Bool) (d : Data) (u : UnitOfWork) : Operation → Prop
  | loadOne e _ => u.store e = none ∧ u.scopeID e.owner ≠ 0 ∧
      cachedOne (cacheAnswer down d e (u.scopeID e.owner)) = none
  | loadList e _ => u.store e = none ∧ u.scopeID e.owner ≠ 0 ∧
      cachedMany (cacheAnswer down d e (u.scopeID e.owner)) = none
  | _ => True

end Operation

/-- `LoadOne` and `storeModel` store one model of a singleton kind, lists of the others. -/
def WellTyped (u : UnitOfWork) : Prop :=
  ∀ e, (∀ r, u.store e = some (.one r) → e.isSingleton = true) ∧
    ∀ rs, u.store e = some (.many rs) → e.isSingleton = false

/-- The operation dereferences a missing database, or queues a statement for one. -/
def MissesDatabase (u : UnitOfWork) :
    Outcome UnitOfWork (Except GoError Unit × UnitOfWork) → Prop
  | .raise _ => True
  | .ret (_, u') => ∃ stmt, u'.dbOps = u.dbOps ++ [⟨none, stmt⟩]

section

variable {c : Container} {down : Op → Bool} {u : UnitOfWork} {d : Data}

theorem not_misses {r : Except GoError Unit} {u' : UnitOfWork} (h : u'.dbOps = u.dbOps) :
    ¬ MissesDatabase u (.ret (r, u')) := by
  rintro ⟨stmt, hstmt⟩
  rw [h] at hstmt
  simp at hstmt

theorem misses_queued {r : Except GoError Unit} {u' : UnitOfWork} {db : Option DbId} {stmt : Stmt}
    (h : u'.dbOps = u.dbOps ++ [⟨db, stmt⟩]) : MissesDatabase u (.ret (r, u')) ↔ db = none := by
  simp [MissesDatabase, h]

theorem operation_wp (hu : WellTyped u) (op : Operation) :
    (reading c down u.scopeID).wp (op.code c u) (fun o _ => MissesDatabase u o ↔
      op.NeedsDatabase down d u ∧ routeOf c down d u op.kind = none) d := by
  have hroutes : Routes c down u.scopeID (accountOf c down d u) u d := by
    refine ⟨fun _ => rfl, ?_, rfl⟩
    intro rs hrs
    exact absurd ((hu .account).2 rs hrs) (by decide)
  cases op with
  | loadOne e single =>
    have htyped : ∀ rs, u.store e ≠ some (.many rs) := by
      intro rs hrs
      rw [(hu e).2 rs hrs] at single
      cases single
    have hroute : routeOf c down d u e ≠ none := by
      cases e <;> first | exact Option.some_ne_none _ | cases single
    refine Setting.wp_bind (Setting.wp_mono ?_ (loadOne_wp single htyped hroutes))
    rintro (⟨err | r, u'⟩ | u') d' hpost
    · exact iff_of_false (not_misses hpost) fun h => hroute h.2
    · exact iff_of_false (not_misses hpost) fun h => hroute h.2
    · exact hpost.elim
  | loadList e list =>
    have htyped : ∀ r, u.store e ≠ some (.one r) := by
      intro r hr
      rw [(hu e).1 r hr] at list
      cases list
    have hstuck : Stuck c down (accountOf c down d u) u d e ↔
        (Operation.loadList e list).NeedsDatabase down d u ∧ routeOf c down d u e = none := by
      simp only [Stuck, Operation.NeedsDatabase, routeOf, and_assoc]
    refine Setting.wp_bind (Setting.wp_mono ?_ (loadList_wp list htyped hroutes))
    rintro (⟨err | rs, u'⟩ | u') d' hpost
    · exact iff_of_false (not_misses hpost.2.2.1) (fun h => hpost.1 (hstuck.mpr h))
    · exact iff_of_false (not_misses hpost.2.2.1) (fun h => hpost.1 (hstuck.mpr h))
    · exact iff_of_true trivial (hstuck.mp hpost)
  | create e r =>
    refine Setting.wp_mono ?_ (create_wp hroutes)
    rintro (⟨res, u'⟩ | u') d' hpost
    · exact (misses_queued hpost.2).trans (iff_of_eq (true_and _)).symm
    · exact hpost.elim
  | createNow e r =>
    refine Setting.wp_mono ?_ (createNow_wp hroutes)
    rintro (⟨res, u'⟩ | u') d' hpost
    · exact iff_of_false (not_misses hpost.2) fun h => hpost.1 h.2
    · exact iff_of_true trivial ⟨trivial, hpost⟩
  | update e r =>
    refine Setting.wp_mono ?_ (update_wp hroutes)
    rintro (⟨res, u'⟩ | u') d' hpost
    · exact (misses_queued hpost.2).trans (iff_of_eq (true_and _)).symm
    · exact hpost.elim

end

/-! ## Commit -/

section

variable {u : UnitOfWork} {d : Data} {tr tr' : List (Event Op.Resp Data)}

theorem commitGroups_spec (gs : List (Option DbId × List Stmt)) :
    wpTraced Data.Step (commitGroups gs)
      (fun _ _ => Adds tr fun t => (∀ g ∈ gs, g.1 ≠ none) ∨ SomeAborted t)
      (fun _ => Adds tr fun t => (∃ e ∈ t, Panicked e.op e.resp) ∨
        (∃ g ∈ gs, g.1 = none) ∧ ¬ SomeAborted t) u (d, tr) := by
  induction gs generalizing u d tr with
  | nil => exact Adds.nil (Or.inl (by simp))
  | cons g gs ih =>
    obtain ⟨_ | db, stmts⟩ := g
    · exact Adds.nil (Or.inr ⟨⟨_, List.mem_cons_self, rfl⟩, by simp [SomeAborted]⟩)
    · refine wp_local rfl (wp_bind (wp_perform_traced fun r d₁ d₂ => ?_))
      cases r with
      | committed h =>
        refine wp_local rfl (wp_mono ?_ ?_ ih)
        · rintro res u' s hs
          refine Adds.append (hs.mono fun t ht => ?_)
          rcases ht with hall | ⟨e, he, habort⟩
          · exact Or.inl (List.forall_mem_cons.mpr ⟨Option.some_ne_none db, hall⟩)
          · exact Or.inr ⟨e, List.mem_cons_of_mem _ he, habort⟩
        · rintro u' s hs
          refine Adds.append (hs.mono fun t ht => ?_)
          rcases ht with ⟨e, he, hpanic⟩ | ⟨⟨g, hg, hnone⟩, hclean⟩
          · exact Or.inl ⟨e, List.mem_cons_of_mem _ he, hpanic⟩
          · refine Or.inr ⟨⟨g, List.mem_cons_of_mem _ hg, hnone⟩, ?_⟩
            rintro ⟨e, he, habort⟩
            rcases List.mem_cons.mp he with rfl | he
            · exact habort
            · exact hclean ⟨e, he, habort⟩
      | failed h => exact Adds.one (Or.inr ⟨_, List.mem_singleton_self _, trivial⟩)
      | panicked h => exact Adds.one (Or.inl ⟨_, List.mem_singleton_self _, trivial⟩)

theorem writeBack_aborts {o : Owner} {context : String} {P : Prop}
    (hP : Adds tr (fun t => P ∨ SomeAborted t) (d, tr')) :
    wpTraced Data.Step (writeBack o context)
      (fun _ _ => Adds tr fun t => P ∨ SomeAborted t) (fun _ _ => False) u (d, tr') := by
  refine wp_local rfl ?_
  split_ifs
  · refine wp_bind (wp_perform_traced fun written d₁ d₂ => ?_)
    have hgrown : Adds tr (fun t => P ∨ SomeAborted t) (d₂, tr' ++ [⟨_, written, d₁, d₂⟩]) := by
      obtain ⟨t, ht, h⟩ := hP
      refine ⟨t ++ [⟨_, written, d₁, d₂⟩], ?_, h.imp_right ?_⟩
      · change tr' = tr ++ t at ht
        rw [ht, List.append_assoc]
      · rintro ⟨e, he, habort⟩
        exact ⟨e, List.mem_append_left _ he, habort⟩
    cases written with
    | true => exact hgrown
    | false => exact hgrown
  · exact hP

theorem commit_misses :
    wpTraced Data.Step commit
      (fun _ _ => Adds tr fun t => (∀ op ∈ u.dbOps, op.db ≠ none) ∨ SomeAborted t)
      (fun _ => Adds tr fun t => (∃ e ∈ t, Panicked e.op e.resp) ∨
        (∃ op ∈ u.dbOps, op.db = none) ∧ ¬ SomeAborted t) u (d, tr) := by
  have hmissing := groupOps_dbs u.dbOps none
  have hrun : wpTraced Data.Step runOps
      (fun _ _ => Adds tr fun t => (∀ op ∈ u.dbOps, op.db ≠ none) ∨ SomeAborted t)
      (fun _ => Adds tr fun t => (∃ e ∈ t, Panicked e.op e.resp) ∨
        (∃ op ∈ u.dbOps, op.db = none) ∧ ¬ SomeAborted t) u (d, tr) := by
    refine wp_local rfl ?_
    split_ifs with hempty
    · exact Adds.nil (Or.inl (by simp [hempty]))
    · refine wp_bind (wp_mono ?_ ?_ (commitGroups_spec (groupOps u.dbOps)))
      · intro r u' s hs
        have hs' := hs.mono fun t ht => ht.imp_left fun h op hop hdb =>
          let ⟨g, hg, hnone⟩ := hmissing.mpr ⟨op, hop, hdb⟩
          h g hg hnone
        cases r with
        | error err => exact hs'
        | ok _ => exact hs'
      · intro u' s hs
        exact hs.mono fun t ht => ht.imp_right fun h => ⟨hmissing.mp h.1, h.2⟩
  refine wp_bind (wp_mono ?_ (fun _ _ h => h) hrun)
  rintro (err | _) u₁ ⟨d₁, tr₁⟩ h₁
  · exact h₁
  · refine wp_bind (wp_mono ?_ (fun _ _ hfalse => hfalse.elim) (writeBack_aborts h₁))
    rintro (err | _) u₂ ⟨d₂, tr₂⟩ h₂
    · exact h₂
    · exact wp_mono (fun _ _ _ h => h) (fun _ _ hfalse => hfalse.elim) (writeBack_aborts h₂)

/-- A commit dereferences a missing database if and only if one is queued and no transaction
fails before its turn. -/
theorem commit_iff {rely : Data → Data → Prop} {d' : Data}
    {o : Outcome UnitOfWork (Except GoError Unit × UnitOfWork)}
    (hrun : Runs Data.Step rely (commit u) d tr o d') :
    NilDereference o tr ↔ (∃ op ∈ u.dbOps, op.db = none) ∧ ¬ SomeAborted tr := by
  have hcrowded := hrun.mono (fun _ _ _ _ h => h) (fun _ _ _ => trivial)
  have hpost := Setting.traced_sound (S := Setting.crowded Data.Step) hcrowded
    (@commit_misses u d [])
  cases o with
  | ret p =>
    obtain ⟨t, ht, h⟩ := hpost
    have htr : tr = t := ht
    subst htr
    refine iff_of_false ?_ ?_
    · intro hnil
      obtain ⟨u', hraise⟩ := hnil.1
      cases hraise
    · intro hmiss
      obtain ⟨⟨op, hop, hnone⟩, hclean⟩ := hmiss
      rcases h with hall | habort
      · exact hall op hop hnone
      · exact hclean habort
  | raise u' =>
    obtain ⟨t, ht, h⟩ := hpost
    have htr : tr = t := ht
    subst htr
    rcases h with ⟨e, he, hpanic⟩ | hmiss
    · refine iff_of_false (fun hnil => hnil.2 e he hpanic) ?_
      intro hmiss
      exact hmiss.2 ⟨e, he, hpanic.aborted⟩
    · refine iff_of_true ⟨⟨u', rfl⟩, ?_⟩ hmiss
      intro e he hpanic
      exact hmiss.2 ⟨e, he, hpanic.aborted⟩

end

/-! ## Handlers -/

section

variable {c : Container} {down : Op → Bool} {d : Data}

def cachedList (down : Op → Bool) (d : Data) (e : EntityKind) (id : UInt64) :
    Option (List (Row e)) :=
  cachedMany (cacheAnswer down d e id)

/-- The card is found in the cache, unless the cards are not cached. -/
def CardFound (down : Op → Bool) (d : Data) (id idx : UInt64) : Prop :=
  ∀ cards, cachedList down d .cards id = some cards → ∃ m ∈ cards, Card.idx m = idx

def NeedsShard (down : Op → Bool) (d : Data) (req : GameRequest) : Prop :=
  (req.action = actionGetCards ∧ cachedList down d .cards req.userId = none) ∨
  (req.action = actionGetItems ∧ cachedList down d .items req.userId = none) ∨
  (req.action = actionGetAssets ∧ cachedList down d .assets req.userId = none) ∨
  (req.action = actionUpgradeCardLevel ∧ ∃ upgrade, req.body.upgradeCardLevel = some upgrade ∧
    CardFound down d req.userId upgrade.cardIdx)

def shardOf (c : Container) (down : Op → Bool) (d : Data) (id : UInt64) : Option DbId :=
  (findAccount c down d id).bind fun a => c.shards.getShard a.dbShardID

def Handled (missing : Prop) (u : UnitOfWork) : Except GoError Message → Prop
  | .error _ => ¬ missing
  | .ok _ => (missing ∧ ∃ stmt, u.dbOps = [⟨none, stmt⟩]) ∨
      (¬ missing ∧ ∀ op ∈ u.dbOps, op.db ≠ none)

variable {id : UInt64} {catalog : Catalog}

theorem routes_new : Routes c down (UnitOfWork.new id catalog).scopeID (findAccount c down d id)
    (.new id catalog) d :=
  ⟨fun _ => rfl, fun _ h => (by cases h), rfl⟩

theorem routeBy_shard {e : EntityKind} (he : e.isGameDB = false) :
    routeBy c (findAccount c down d id) e = shardOf c down d id := by
  simp [routeBy, he, shardOf]

theorem stuck_iff {e : EntityKind} (he : e.isGameDB = false) (howner : e.owner = .user)
    (hid : id ≠ 0) :
    Stuck c down (findAccount c down d id) (.new id catalog) d e ↔
      cachedList down d e id = none ∧ shardOf c down d id = none := by
  have hscope : (UnitOfWork.new id catalog).scopeID e.owner = id := by
    rw [howner]
    rfl
  unfold Stuck cachedList
  rw [hscope, routeBy_shard he]
  simp [UnitOfWork.new, hid]

theorem list_handler_wp {e : EntityKind} (he : e.isGameDB = false) (hlist : e.isSingleton = false)
    (howner : e.owner = .user) (hid : id ≠ 0) {f : List Ref → UnitOfWork → Message} :
    UowM.wp (reading c down (UnitOfWork.new id catalog).scopeID)
      (loadList c e >>= fun rs => get >>= fun u => pure (f rs u))
      (fun r u _ => Handled (cachedList down d e id = none ∧ shardOf c down d id = none) u r)
      (fun _ _ => cachedList down d e id = none ∧ shardOf c down d id = none)
      (.new id catalog) d := by
  have hstuck := @stuck_iff c down d id catalog e he howner hid
  refine wp_bind (wp_mono ?_ (fun _ _ h => hstuck.mp h)
    (loadList_wp hlist (fun _ h => by cases h) routes_new))
  intro r u' d' hpost
  obtain ⟨hunstuck, -, hdbOps, -⟩ := hpost
  have hnot : ¬ (cachedList down d e id = none ∧ shardOf c down d id = none) :=
    fun h => hunstuck (hstuck.mpr h)
  cases r with
  | error err => exact hnot
  | ok rs =>
    have hempty : u'.dbOps = [] := hdbOps
    exact Or.inr ⟨hnot, by simp [hempty]⟩

def Searched (c : Container) (down : Op → Bool) (d : Data) (u : UnitOfWork) (idx : UInt64)
    (u' : UnitOfWork) (d' : Data) : Except GoError (Option Ref) → Prop
  | .ok (some _) => (shardOf c down d u.userID = none → CardFound down d u.userID idx) ∧
      Routes c down u.scopeID (findAccount c down d u.userID) u' d' ∧ u'.dbOps = []
  | _ => ¬ (CardFound down d u.userID idx ∧ shardOf c down d u.userID = none)

theorem getCard_wp {idx : UInt64} (hid : id ≠ 0) :
    UowM.wp (reading c down (UnitOfWork.new id catalog).scopeID) (CardService.getCard c idx)
      (fun r u' d' => Searched c down d (.new id catalog) idx u' d' r)
      (fun _ _ => CardFound down d id idx ∧ shardOf c down d id = none) (.new id catalog) d := by
  have hstuck := @stuck_iff c down d id catalog .cards rfl rfl hid
  refine wp_bind (wp_mono ?_ ?_ (loadList_wp rfl (fun _ h => by cases h) routes_new))
  · intro r u' d' hpost
    obtain ⟨hunstuck, hroutes, hdbOps, hvalues⟩ := hpost
    -- Without a shard the cards can only have come from the cache.
    have hcached : shardOf c down d id = none → ∃ rs, r = .ok rs ∧
        cachedList down d .cards id = some (rs.map (u'.heap.cell .cards)) := by
      intro hshard
      cases hlist : cachedList down d .cards id with
      | none => exact absurd (hstuck.mpr ⟨hlist, hshard⟩) hunstuck
      | some cards =>
        obtain ⟨rs, hrs, hmap⟩ := hvalues cards rfl hid hlist
        exact ⟨rs, hrs, congrArg some hmap.symm⟩
    cases r with
    | error err =>
      intro hmissing
      obtain ⟨rs, hrs, -⟩ := hcached hmissing.2
      cases hrs
    | ok rs =>
      refine wp_local rfl ?_
      change Searched c down d (.new id catalog) idx u' d'
        (.ok (rs.find? fun r => Card.idx (u'.heap.cell .cards r) == idx))
      cases hfind : rs.find? fun r => Card.idx (u'.heap.cell .cards r) == idx with
      | none =>
        intro hmissing
        obtain ⟨rs', hrs, hcards⟩ := hcached hmissing.2
        cases hrs
        obtain ⟨m, hm, hidx⟩ := hmissing.1 _ hcards
        obtain ⟨r, hr, rfl⟩ := List.mem_map.mp hm
        have hnot := List.find?_eq_none.mp hfind r hr
        exact hnot (beq_iff_eq.mpr hidx)
      | some r =>
        refine ⟨fun hshard cards hcards => ?_, hroutes, hdbOps⟩
        obtain ⟨rs', hrs, hmap⟩ := hcached hshard
        cases hrs
        cases hcards.symm.trans hmap
        have hidx := List.find?_some hfind
        exact ⟨_, List.mem_map_of_mem (List.mem_of_find?_eq_some hfind), beq_iff_eq.mp hidx⟩
  · intro u' d' hpost
    have hmissing := hstuck.mp hpost
    refine ⟨fun cards hcards => ?_, hmissing.2⟩
    rw [hmissing.1] at hcards
    cases hcards

theorem upgrade_handler_wp {body : Body} {upgrade : UpgradeCardLevelRequest}
    (hbody : body.upgradeCardLevel = some upgrade) (hid : id ≠ 0) :
    UowM.wp (reading c down (UnitOfWork.new id catalog).scopeID) (upgradeCardLevel c body)
      (fun r u _ => Handled (CardFound down d id upgrade.cardIdx ∧ shardOf c down d id = none) u r)
      (fun _ _ => CardFound down d id upgrade.cardIdx ∧ shardOf c down d id = none)
      (.new id catalog) d := by
  unfold upgradeCardLevel
  rw [hbody]
  refine wp_bind (wp_mono ?_ (fun _ _ h => h) (getCard_wp hid))
  intro r u' d' hpost
  rcases r with err | - | ref
  · exact hpost
  · exact hpost
  · obtain ⟨hfound, hroutes, hdbOps⟩ := hpost
    have hchanged :=
      hroutes.changed (f := fun m => ({ m with level := Card.level m + 1 } : Card)) ref
    refine wp_local rfl ?_
    refine wp_bind (wp_mono ?_ (fun _ _ hfalse => hfalse.elim) (update_wp hchanged))
    intro r u₂ d₂ hupdated
    obtain ⟨rfl, hqueue⟩ := hupdated
    have hops : u₂.dbOps = [⟨shardOf c down d id, .update .cards ref⟩] := by
      rw [hqueue, ← routeBy_shard (e := .cards) rfl]
      exact congrArg (· ++ _) hdbOps
    refine wp_local rfl ?_
    cases hshard : shardOf c down d id with
    | none =>
      rw [hshard] at hops
      exact Or.inl ⟨⟨hfound hshard, rfl⟩, _, hops⟩
    | some db =>
      rw [hshard] at hops
      refine Or.inr ⟨fun h => (by cases h.2), ?_⟩
      intro op hop
      rw [hops] at hop
      rw [List.mem_singleton.mp hop]
      exact Option.some_ne_none db

def Missing (c : Container) (down : Op → Bool) (d : Data) (req : GameRequest) : Prop :=
  NeedsShard down d req ∧ shardOf c down d req.userId = none

theorem missing_iff {req : GameRequest} {P : Prop} (h : NeedsShard down d req ↔ P) :
    Missing c down d req = (P ∧ shardOf c down d req.userId = none) :=
  propext (and_congr_left fun _ => h)

theorem handler_wp {req : GameRequest} {def_ : ActionDef} (hid : req.userId ≠ 0)
    (hdef : actionRegistry c req.action = some def_) (hauth : def_.noAuth = false) :
    UowM.wp (reading c down (UnitOfWork.new req.userId catalog).scopeID) (def_.handler req.body)
      (fun r u _ => Handled (Missing c down d req) u r) (fun _ _ => Missing c down d req)
      (.new req.userId catalog) d := by
  unfold actionRegistry at hdef
  split_ifs at hdef with hlogin hcards hupgrade hitems hassets hshop <;> cases hdef
  · cases hauth
  · have hneeds : NeedsShard down d req ↔ cachedList down d .cards req.userId = none := by
      unfold NeedsShard
      rw [hcards]
      simp [actionGetCards, actionGetItems, actionGetAssets, actionUpgradeCardLevel]
    rw [missing_iff hneeds]
    exact list_handler_wp rfl rfl rfl hid
  · cases hbody : req.body.upgradeCardLevel with
    | none =>
      have hneeds : NeedsShard down d req ↔ False := by
        unfold NeedsShard
        rw [hupgrade, hbody]
        simp [actionGetCards, actionGetItems, actionGetAssets, actionUpgradeCardLevel]
      rw [missing_iff hneeds]
      change UowM.wp _ (upgradeCardLevel c req.body) _ _ _ _
      unfold upgradeCardLevel
      rw [hbody]
      exact fun h => h.1
    | some upgrade =>
      have hneeds : NeedsShard down d req ↔ CardFound down d req.userId upgrade.cardIdx := by
        unfold NeedsShard
        rw [hupgrade, hbody]
        simp [actionGetCards, actionGetItems, actionGetAssets, actionUpgradeCardLevel]
      rw [missing_iff hneeds]
      exact upgrade_handler_wp hbody hid
  · have hneeds : NeedsShard down d req ↔ cachedList down d .items req.userId = none := by
      unfold NeedsShard
      rw [hitems]
      simp [actionGetCards, actionGetItems, actionGetAssets, actionUpgradeCardLevel]
    rw [missing_iff hneeds]
    exact list_handler_wp rfl rfl rfl hid
  · have hneeds : NeedsShard down d req ↔ cachedList down d .assets req.userId = none := by
      unfold NeedsShard
      rw [hassets]
      simp [actionGetCards, actionGetItems, actionGetAssets, actionUpgradeCardLevel]
    rw [missing_iff hneeds]
    exact list_handler_wp rfl rfl rfl hid
  · have hneeds : NeedsShard down d req ↔ False := by
      unfold NeedsShard
      rw [hshop]
      simp [actionGetCards, actionGetItems, actionGetAssets, actionUpgradeCardLevel,
        actionGetShopList]
    rw [missing_iff hneeds]
    refine wp_local rfl (wp_perform_bind (P := fun _ => True) (fun _ _ _ _ => trivial) trivial ?_)
    intro d₁ _
    refine ⟨trivial, ?_⟩
    intro now d₂ _
    exact ⟨fun hpanic => hpanic, Or.inr ⟨fun h => h.1, by simp [UnitOfWork.new]⟩⟩

end

/-! ## Requests -/

/-- The calls before a handler is entered and after its commit. -/
def Outside : Op → Prop
  | .newToken | .lockWait | .timeNow | .sessionVerify _ _ => True
  | .lockAcquire _ _ | .lockRelease _ _ => True
  | _ => False

def Entered (tr : List (Event Op.Resp Data)) : Prop := ∃ e ∈ tr, ∃ a id, e.op = .enter a id

section

variable {ε α : Type} {c : Container} {down : Op → Bool} {d d' : Data} {req : GameRequest}
  {tr : List (Event Op.Resp Data)} {ids : Owner → UInt64}

theorem Outside.not_panicked {op : Op} (h : Outside op) (r : op.Resp) : ¬ Panicked op r := by
  cases op <;> first | exact h.elim | exact fun hpanic => hpanic

theorem Outside.unchanged {op : Op} {r : op.Resp} (h : Outside op) (hs : Data.Step op d r d') :
    d' = d := by
  cases op <;> first | exact h.elim | exact hs

theorem same_of_outside {p : Call ε α} {o : Outcome ε α} (hp : p.Safe Outside)
    (hrun : Runs (StepUnder down) (SameUser c ids) p d tr o d') : SameUser c ids d d' := by
  induction hrun with
  | ret => exact .refl _
  | raise => exact hp.elim
  | call hsame hstep _ ih =>
    have hstill := hp.1.unchanged hstep.1
    rw [hstill] at ih
    exact hsame.trans (ih (hp.2 _))

theorem Outside.not_enter {op : Op} (h : Outside op) {a : UInt32} {id : UInt64} :
    op ≠ .enter a id := by
  intro hop
  rw [hop] at h
  exact h

theorem safe_respond {action : UInt32} {code : Int32} {body : ResponseBody}
    {sync : Option SyncData} {u : Option UnitOfWork} :
    ((sendGameResponse action code body sync).bind fun res =>
      .ret ⟨res, u⟩ : Call ε Reply).Safe Outside :=
  ⟨trivial, fun _ => trivial⟩

theorem outside_of_acquire {op : Op} {id : UInt64} (h : op.OfAcquire id) : Outside op := by
  rcases h with rfl | rfl | ⟨t, rfl⟩ <;> trivial

theorem outside_of_verify {op : Op} {id : UInt64} (h : ∃ t, op = .sessionVerify id t) :
    Outside op := by
  obtain ⟨t, rfl⟩ := h
  trivial

theorem safe_rollback {r : Except GoError Unit} {u : UnitOfWork} :
    ((match r with
      | .ok _ => (pure () : UowM Unit)
      | .error err => do
        invalidate .user
        invalidate .club
        UowM.throw (.app codeInternalError ("commit failed. err : " ++ err.text))) u).Safe
      fun _ => True := by
  have hinvalidate : ∀ (o : Owner) (u : UnitOfWork), (invalidate o u).Safe fun _ => True := by
    intro o u
    change ((if u.scopeID o ≠ 0 then _ else _ : UowM Unit) u).Safe fun _ => True
    split_ifs
    · exact ⟨trivial, fun _ => trivial⟩
    · trivial
  cases r with
  | ok _ => trivial
  | error err =>
    refine (hinvalidate .user u).bind ?_
    rintro ⟨err | _, u₁⟩
    · trivial
    · refine (hinvalidate .club u₁).bind ?_
      rintro ⟨err | _, u₂⟩ <;> trivial

theorem raise_of_finish {step : (op : Op) → Data → op.Resp → Data → Prop}
    {rely : Data → Data → Prop} {s : Server} {action : UInt32} {result : Message}
    {u v : UnitOfWork} (h : Runs step rely (finish s action result u) d tr (.raise v) d') :
    Runs step rely (commit u) d tr (.raise v) d' := by
  have never : ∀ {β : Type} {q : Call UnitOfWork β} {d₁ d₂ : Data} {t : List (Event Op.Resp Data)},
      q.Safe (fun _ => True) → ¬ Runs step rely q d₁ t (.raise v) d₂ := by
    intro β q d₁ d₂ t hsafe hrun
    obtain ⟨a, ha⟩ := (hrun.safe hsafe).1
    cases ha
  obtain ⟨_, ⟨⟩, hrollback⟩ | ⟨⟨r, u₁⟩, d₁, _, _, -, -, hreply⟩ := Runs.of_bind h
  · obtain ⟨_, ⟨⟩, hattempt⟩ | ⟨⟨_ | _, u₁⟩, d₁, _, _, -, -, hrest⟩ := Runs.of_bind hrollback
    · obtain ⟨_, ⟨⟩, hcommit⟩ | ⟨_, d₁, _, _, -, -, hret⟩ := Runs.of_bind hattempt
      · exact hcommit
      · cases hret
    · cases hrest
    · exact absurd hrest (never safe_rollback)
  · refine absurd hreply (never ?_)
    cases r with
    | error err => exact safe_respond.mono fun _ _ => trivial
    | ok _ =>
      dsimp only
      split_ifs
      · exact safe_respond.mono fun _ _ => trivial
      · exact safe_respond.mono fun _ _ => trivial

theorem finish_iff {rely : Data → Data → Prop} {s : Server} {action : UInt32} {result : Message}
    {u : UnitOfWork} {missing : Prop} {o : Outcome UnitOfWork Reply}
    (hrun : Runs Data.Step rely (finish s action result u) d tr o d')
    (h : Handled missing u (.ok result)) : NilDereference o tr ↔ missing := by
  rcases h with ⟨hmissing, stmt, hops⟩ | ⟨hmissing, hall⟩
  · refine iff_of_true ?_ hmissing
    have hops' : runOps u = .raise u := by
      change (if u.dbOps = [] then _ else _ : UowM Unit) u = _
      rw [if_neg (by simp [hops]), hops]
      rfl
    have hcommit : commit u = .raise u := by
      change (runOps u).bind _ = _
      rw [hops']
      rfl
    have hfinish : finish s action result u = .raise u := by
      change (((commit u).bind _).bind _).bind _ = _
      rw [hcommit]
      rfl
    rw [hfinish] at hrun
    cases hrun
    exact ⟨⟨u, rfl⟩, by simp⟩
  · refine iff_of_false ?_ hmissing
    intro hnil
    obtain ⟨v, rfl⟩ := hnil.1
    have hcommit := raise_of_finish hrun
    obtain ⟨⟨op, hop, hnone⟩, -⟩ := (commit_iff hcommit).mp ⟨⟨v, rfl⟩, hnil.2⟩
    exact hall op hop hnone

theorem not_nil_of_safe {β : Type} {q : Call UnitOfWork β} {o : Outcome UnitOfWork β}
    {step : (op : Op) → Data → op.Resp → Data → Prop} {rely : Data → Data → Prop}
    (hq : q.Safe Outside) (hrun : Runs step rely q d tr o d') : ¬ NilDereference o tr := by
  intro hnil
  obtain ⟨⟨v, hv⟩, -⟩ := hnil
  obtain ⟨a, ha⟩ := (hrun.safe hq).1
  rw [hv] at ha
  cases ha

theorem NilDereference.append {β : Type} {o : Outcome UnitOfWork β}
    {t t' : List (Event Op.Resp Data)} (ht : ∀ e ∈ t, ¬ Panicked e.op e.resp) :
    NilDereference o (t ++ t') ↔ NilDereference o t' := by
  unfold NilDereference
  simp only [List.forall_mem_append]
  exact and_congr_right fun _ => and_iff_right ht

theorem NilDereference.cons {β : Type} {o : Outcome UnitOfWork β} {e : Event Op.Resp Data}
    {t : List (Event Op.Resp Data)} (he : ¬ Panicked e.op e.resp) :
    NilDereference o (e :: t) ↔ NilDereference o t :=
  NilDereference.append (t := [e]) (by simpa using he)

def scopes (id : UInt64) : Owner → UInt64
  | .user => id
  | .club => 0

theorem scopeID_new (id : UInt64) (catalog : Catalog) :
    (UnitOfWork.new id catalog).scopeID = scopes id := by
  funext o
  cases o <;> rfl

theorem missing_congr (h : SameUser c (scopes req.userId) d d') :
    Missing c down d' req ↔ Missing c down d req := by
  have hanswer : ∀ e : EntityKind, e.owner = .user →
      cacheAnswer down d' e req.userId = cacheAnswer down d e req.userId := by
    intro e he
    have hcache : d'.cache .user req.userId = d.cache .user req.userId := h.cache .user
    simp only [cacheAnswer, he, hcache]
  have hfind : findAccount c down d' req.userId = findAccount c down d req.userId := by
    have haccount : (d'.db c.gameDB).select .account req.userId =
      (d.db c.gameDB).select .account req.userId := h.account
    unfold findAccount
    rw [hanswer .account rfl, haccount]
  unfold Missing NeedsShard CardFound cachedList shardOf
  rw [hanswer .cards rfl, hanswer .items rfl, hanswer .assets rfl, hfind]

theorem serve_iff {marshals : Message → Bool} {catalog : Catalog} {def_ : ActionDef}
    {o : Outcome UnitOfWork Reply} (hid : req.userId ≠ 0)
    (hdef : actionRegistry c req.action = some def_) (hauth : def_.noAuth = false)
    (hrun : Runs (StepUnder down) (SameUser c (scopes req.userId))
      (serve (server c marshals) catalog def_ req) d tr o d') :
    NilDereference o tr ↔ Missing c down d req := by
  cases hrun with
  | @call _ _ _ d₀ _ d₁ t _ _ hsame hstep hrest =>
    have hstill : d₁ = d₀ := hstep.1
    subst hstill
    rw [← missing_congr hsame]
    have hquiet : ∀ r, ¬ Panicked (.enter req.action req.userId) r := fun _ hpanic => hpanic
    refine (NilDereference.cons (hquiet _)).trans ?_
    have hhandler := @handler_wp c down d₁ catalog req def_ hid hdef hauth
    rw [scopeID_new] at hhandler
    obtain ⟨v, rfl, hraised⟩ | ⟨⟨r, u⟩, d₂, t₁, t₂, rfl, hran, hreply⟩ := Runs.of_bind hrest
    · obtain ⟨hmissing, hcalls⟩ := Setting.wp_sound hhandler hraised
      exact iff_of_true ⟨⟨v, rfl⟩, fun e he => (hcalls e he).2⟩ hmissing
    · obtain ⟨hhandled, hcalls⟩ := Setting.wp_sound hhandler hran
      rw [NilDereference.append fun e he => (hcalls e he).2]
      cases r with
      | error err => exact iff_of_false (not_nil_of_safe safe_respond hreply) hhandled
      | ok result =>
        have hdata := hreply.mono (fun _ _ _ _ h => h.1) (fun _ _ h => h)
        exact finish_iff hdata hhandled

theorem not_entered_of_outside {t : List (Event Op.Resp Data)} (h : ∀ e ∈ t, Outside e.op) :
    ¬ Entered t := by
  intro hentered
  obtain ⟨e, he, a, id, hop⟩ := hentered
  exact (h e he).not_enter hop

theorem entered_append {t t' : List (Event Op.Resp Data)} (h : ∀ e ∈ t, Outside e.op) :
    Entered (t ++ t') ↔ Entered t' := by
  constructor
  · intro hentered
    obtain ⟨e, he, a, id, hop⟩ := hentered
    rcases List.mem_append.mp he with ht | ht
    · exact absurd hop (h e ht).not_enter
    · exact ⟨e, ht, a, id, hop⟩
  · intro hentered
    obtain ⟨e, he, hop⟩ := hentered
    exact ⟨e, List.mem_append_right _ he, hop⟩

theorem refused_iff {step : (op : Op) → Data → op.Resp → Data → Prop} {rely : Data → Data → Prop}
    {P : Prop} {q : Call UnitOfWork α} {o : Outcome UnitOfWork α} (hq : q.Safe Outside)
    (hrun : Runs step rely q d tr o d') : NilDereference o tr ↔ Entered tr ∧ P := by
  refine iff_of_false (not_nil_of_safe hq hrun) ?_
  intro h
  exact not_entered_of_outside (hrun.safe hq).2 h.1

theorem underUserLock_iff {marshals : Message → Bool} {catalog : Catalog} {def_ : ActionDef}
    {o : Outcome UnitOfWork Reply} (hid : req.userId ≠ 0)
    (hdef : actionRegistry c req.action = some def_) (hauth : def_.noAuth = false)
    (hrun : Runs (StepUnder down) (SameUser c (scopes req.userId))
      (underUserLock req (serve (server c marshals) catalog def_ req)) d tr o d') :
    NilDereference o tr ↔ Entered tr ∧ Missing c down d req := by
  unfold underUserLock at hrun
  rw [if_neg hid] at hrun
  have hacquire : (acquireUserLock req.userId : Call UnitOfWork _).Safe Outside :=
    safe_acquireUserLock.mono fun _ => outside_of_acquire
  obtain ⟨v, -, hraised⟩ | ⟨token, d₁, t₁, t₂, rfl, hlock, hrest⟩ := Runs.of_bind hrun
  · obtain ⟨a, ha⟩ := (hraised.safe hacquire).1
    cases ha
  · have houtside := (hlock.safe hacquire).2
    have hsame := same_of_outside hacquire hlock
    rw [NilDereference.append fun e he => (houtside e he).not_panicked _, entered_append houtside,
      ← missing_congr hsame]
    cases token with
    | none => exact refused_iff safe_respond hrest
    | some token =>
      obtain ⟨o₁, d₂, t₃, t₄, rfl, hserve, hrelease⟩ := Runs.of_ensure hrest
      have hserved := serve_iff hid hdef hauth hserve
      have hentered : Entered t₃ := by
        cases hserve with
        | call _ _ _ => exact ⟨_, List.mem_cons_self, _, _, rfl⟩
      have hcleanup : ∃ e, t₄ = [e] ∧ Outside e.op ∧ o = o₁ := by
        cases hrelease with
        | call _ _ hend =>
          cases o₁ with
          | ret reply =>
            cases hend
            exact ⟨_, rfl, trivial, rfl⟩
          | raise v =>
            cases hend
            exact ⟨_, rfl, trivial, rfl⟩
      obtain ⟨e, rfl, houtside₄, rfl⟩ := hcleanup
      have hmore : Entered (t₃ ++ [e]) := by
        obtain ⟨e', he', hop⟩ := hentered
        exact ⟨e', List.mem_append_left _ he', hop⟩
      rw [and_iff_right hmore, ← hserved]
      unfold NilDereference
      simp only [List.forall_mem_append, List.forall_mem_singleton]
      exact and_congr_right fun _ => and_iff_left (houtside₄.not_panicked _)

theorem dispatch_iff {marshals : Message → Bool} {designStore : DesignStore}
    {o : Outcome UnitOfWork Reply} (haction : req.action ≠ actionLogin)
    (hrun : Runs (StepUnder down) (SameUser c (scopes req.userId))
      (dispatch (server c marshals) designStore (.envelope req)) d tr o d') :
    NilDereference o tr ↔ Entered tr ∧ Missing c down d req := by
  unfold dispatch at hrun
  dsimp only at hrun
  cases hdef : actionRegistry c req.action with
  | none =>
    rw [show (server c marshals).actionRegistry req.action = none from hdef] at hrun
    exact refused_iff safe_respond hrun
  | some def_ =>
    rw [show (server c marshals).actionRegistry req.action = some def_ from hdef] at hrun
    dsimp only at hrun
    cases hcatalog : designStore.getByClientVersion req.clientVersion with
    | none =>
      rw [hcatalog] at hrun
      exact refused_iff safe_respond hrun
    | some catalog =>
      rw [hcatalog] at hrun
      have hauthenticate : (authenticate def_ req : Call UnitOfWork _).Safe Outside :=
        safe_authenticate.mono fun _ => outside_of_verify
      obtain ⟨v, -, hraised⟩ | ⟨refusal, d₁, t₁, t₂, rfl, hran, hrest⟩ := Runs.of_bind hrun
      · obtain ⟨a, ha⟩ := (hraised.safe hauthenticate).1
        cases ha
      · have houtside := (hran.safe hauthenticate).2
        have hsame := same_of_outside hauthenticate hran
        rw [NilDereference.append fun e he => (houtside e he).not_panicked _,
          entered_append houtside, ← missing_congr hsame]
        rcases refusal with - | ⟨code, message⟩
        · have hnoAuth : ¬ def_.noAuth = true := fun h => haction ((noAuth_iff hdef).mp h)
          have hauth : def_.noAuth = false := by simpa using hnoAuth
          have hid : req.userId ≠ 0 := by
            intro hzero
            unfold authenticate at hran
            rw [if_neg (by simp [hauth]), if_pos (Or.inl hzero)] at hran
            cases hran
          exact underUserLock_iff hid hdef hauth hrest
        · exact refused_iff safe_respond hrest

end

/-- When a missing database is used: by a request, by one operation, and by a commit. -/
theorem missing_database_iff (c : Container) (marshals : Message → Bool) :
    (∀ (down : Op → Bool) (designStore : DesignStore) (req : GameRequest) (d d' : Data)
        (tr : List (Event Op.Resp Data)) (o : Outcome UnitOfWork Reply),
      req.action ≠ actionLogin →
      Runs (StepUnder down) (SameUser c (scopes req.userId))
        (dispatch (server c marshals) designStore (.envelope req)) d tr o d' →
      (NilDereference o tr ↔
        Entered tr ∧ NeedsShard down d req ∧ shardOf c down d req.userId = none)) ∧
    (∀ (down : Op → Bool) (u : UnitOfWork) (op : Operation) (d d' : Data)
        (tr : List (Event Op.Resp Data))
        (o : Outcome UnitOfWork (Except GoError Unit × UnitOfWork)),
      WellTyped u →
      Runs (StepUnder down) (SameUser c u.scopeID) (op.code c u) d tr o d' →
      (MissesDatabase u o ↔ op.NeedsDatabase down d u ∧ routeOf c down d u op.kind = none)) ∧
    ∀ (u : UnitOfWork) (d d' : Data) (tr : List (Event Op.Resp Data))
        (o : Outcome UnitOfWork (Except GoError Unit × UnitOfWork)),
      Runs Data.Step (fun _ _ => True) (commit u) d tr o d' →
      (NilDereference o tr ↔ (∃ op ∈ u.dbOps, op.db = none) ∧ ¬ SomeAborted tr) := by
  refine ⟨?_, ?_, ?_⟩
  · intro down designStore req d d' tr o haction hrun
    exact dispatch_iff haction hrun
  · intro down u op d d' tr o hu hrun
    exact (Setting.wp_sound (S := reading c down u.scopeID) (operation_wp hu op) hrun).1
  · intro u d d' tr o hrun
    exact commit_iff hrun

/-! ## An account without a shard -/

/-- The account keeps the default of its shard column. -/
def unassigned : World :=
  { Sample.world with
    data :=
      { Sample.world.data with
        db := fun _ e =>
          match e with
          | .account => [{ Sample.account with dbShardID := -1 }]
          | _ => [] } }

def assetsRequest : GameRequest :=
  ⟨actionGetAssets, 1, "1.00.00", "s", ⟨none, none⟩⟩

theorem runs_under {α : Type} {ch : Choice} (hch : ch.fails = false) (c : Container)
    (ids : Owner → UInt64) (p : Call UnitOfWork α) (n : ℕ) (w : World) :
    Runs (StepUnder fun _ => false) (SameUser c ids) p w.data
      ((p.run World.exec (fun _ => ch) n w).1.map (Event.map World.data))
      (p.run World.exec (fun _ => ch) n w).2.1 (p.run World.exec (fun _ => ch) n w).2.2.data := by
  induction p generalizing n w with
  | ret a => exact .ret
  | raise u => exact .raise
  | call op k ih => exact .call (.refl _) (exec_under hch w) (ih _ _ _)

def halfRouted : UnitOfWork :=
  { UnitOfWork.new 1 Sample.catalog with
    dbOps := [⟨some 10, .update .cards 0⟩, ⟨none, .insert .assets 1⟩]
    heap := ((Heap.empty.alloc .cards Sample.card).1.alloc .assets
      (⟨0, 1, 10000, 5, 0, 0, 0⟩ : Asset)).1 }

theorem missing_database_iff_unassigned :
    (∃ d' tr o, Runs (StepUnder fun _ => false) (SameUser Sample.container (scopes 1))
      (dispatch Sample.servers Sample.designStore (.envelope assetsRequest)) unassigned.data tr o
        d' ∧ NilDereference o tr) ∧
    (∃ d' tr o, Runs (StepUnder fun _ => false) (SameUser Sample.container (scopes 1))
      (dispatch Sample.servers Sample.designStore (.envelope assetsRequest)) Sample.world.data tr o
        d' ∧ ¬ NilDereference o tr) ∧
    (∃ d' tr o, Runs (StepUnder fun _ => false) (SameUser Sample.container (scopes 1))
      ((Operation.loadList .assets rfl).code Sample.container (UnitOfWork.new 1 Sample.catalog))
      unassigned.data tr o d' ∧ MissesDatabase (UnitOfWork.new 1 Sample.catalog) o) ∧
    ∃ d' tr o, Runs Data.Step (fun _ _ => True) (commit halfRouted) Sample.world.data tr o d' ∧
      durable tr = [(some 10, .update .cards 0)] ∧ NilDereference o tr := by
  have haction : assetsRequest.action ≠ actionLogin := by decide
  refine ⟨?_, ?_, ?_, ?_⟩
  · have hrun := @runs_under _ { token := "t" } rfl Sample.container (scopes 1)
      (dispatch Sample.servers Sample.designStore (.envelope assetsRequest)) 0 unassigned
    refine ⟨_, _, _, hrun, ?_⟩
    refine ((missing_database_iff _ _).1 _ _ _ _ _ _ _ haction hrun).mpr
      ⟨?_, Or.inr (Or.inr (Or.inl ⟨rfl, rfl⟩)), rfl⟩
    exact ⟨_, List.mem_map_of_mem (List.mem_of_getElem? (i := 3) rfl), _, _, rfl⟩
  · have hrun := @runs_under _ { token := "t" } rfl Sample.container (scopes 1)
      (dispatch Sample.servers Sample.designStore (.envelope assetsRequest)) 0 Sample.world
    refine ⟨_, _, _, hrun, fun hnil => ?_⟩
    have hshard := (((missing_database_iff _ _).1 _ _ _ _ _ _ _ haction hrun).mp hnil).2.2
    cases hshard
  · have hrun := @runs_under _ { token := "t" } rfl Sample.container (scopes 1)
      ((Operation.loadList .assets rfl).code Sample.container (UnitOfWork.new 1 Sample.catalog)) 0
      unassigned
    have htyped : WellTyped (UnitOfWork.new 1 Sample.catalog) := fun _ =>
      ⟨fun _ h => (nomatch h), fun _ h => (nomatch h)⟩
    refine ⟨_, _, _, hrun, ?_⟩
    exact ((missing_database_iff _ fun _ => true).2.1 _ _ _ _ _ _ _ htyped hrun).mpr
      ⟨⟨rfl, by decide, rfl⟩, rfl⟩
  · have hrun := Runs.mono (fun _ _ _ _ h => h) (fun _ _ _ => trivial)
      (Data.runs (fun _ => {}) (commit halfRouted) Sample.world)
    refine ⟨_, _, _, hrun, rfl, ?_⟩
    refine ((missing_database_iff Sample.container fun _ => true).2.2 _ _ _ _ _ hrun).mpr
      ⟨⟨⟨none, .insert .assets 1⟩, by decide, rfl⟩, ?_⟩
    rintro ⟨e, he, habort⟩
    cases List.mem_singleton.mp he
    exact habort

/-- Nothing fails and the session is valid, but the shard is not registered. -/
theorem not_always_answered :
    ¬ ∀ (down : Op → Bool) (req : GameRequest) (d d' : Data) (tr : List (Event Op.Resp Data))
      (o : Outcome UnitOfWork Reply), req.action ≠ actionLogin →
      Runs (StepUnder down) (SameUser Sample.container (scopes req.userId))
        (dispatch Sample.servers Sample.designStore (.envelope req)) d tr o d' →
      ¬ NilDereference o tr := by
  intro h
  have hrun := @runs_under _ { token := "t" } rfl Sample.container (scopes 1)
    (dispatch Sample.servers Sample.designStore (.envelope assetsRequest)) 0 unassigned
  have haction : assetsRequest.action ≠ actionLogin := by decide
  refine h _ assetsRequest _ _ _ _ haction hrun ?_
  refine (dispatch_iff haction hrun).mpr ⟨?_, Or.inr (Or.inr (Or.inl ⟨rfl, rfl⟩)), rfl⟩
  -- The session check and the two calls for the lock come first.
  refine ⟨_, List.mem_map_of_mem (List.mem_of_getElem? (i := 3) rfl), _, _, rfl⟩

end FutureWas.MissingDatabase
