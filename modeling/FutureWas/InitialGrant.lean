import FutureWas.Isolation

/-!
# The initial grant

`Login` inserts the account of a new channel at once, on the game database, and queues the
grant of the initial asset and item for the commit, on the account's shard. Only the `Login`
that has inserted the account makes the grant: a later one finds the account and takes it for
an old one. A run in which every account that a `Login` finds owns its grant already keeps
the grant of every account that a `Login` has answered (`granted_of_run`).

`Carries` is what a `Login` knows of its unit of work: a loaded model without a primary key
is one whose `INSERT` is queued. It rests on the caches never holding a row without a key.
-/

set_option autoImplicit false

namespace FutureWas.InitialGrant

open Effect UowM Uow Isolation

/-! ## Owning the grant -/

section

variable {c : Container} {d d' : Data} {uid : UInt64} {e : EntityKind} {p : Row e → Prop}

def HasRow (c : Container) (d : Data) (uid : UInt64) (e : EntityKind) (p : Row e → Prop) : Prop :=
  ∃ db, d.routed c uid e = some db ∧ ∃ m ∈ (d.db db) e, m.ownerID = uid ∧ p m

/-- The account owns, in its shard, the asset and the item that `Login` grants. -/
def Granted (c : Container) (d : Data) (uid : UInt64) : Prop :=
  HasRow c d uid .assets (fun m => Asset.assetID m = initialAssetID) ∧
    HasRow c d uid .items (fun m => Item.itemID m = initialItemID)

theorem not_hasRow (h : d.routed c uid e = none) : ¬ HasRow c d uid e p := by simp [HasRow, h]

theorem hasRow_iff {db : DbId} (h : d.routed c uid e = some db) :
    (∃ m ∈ (d.db db) e, m.ownerID = uid ∧ p m) ↔ HasRow c d uid e p := by simp [HasRow, h]

instance [DecidablePred p] : Decidable (HasRow c d uid e p) :=
  match h : d.routed c uid e with
  | none => isFalse (not_hasRow h)
  | some _ => decidable_of_iff _ (hasRow_iff h)

instance : Decidable (Granted c d uid) := inferInstanceAs (Decidable (_ ∧ _))

def Fixed (p : Row e → Prop) : Prop := ∀ m m' : Row e, m'.static = m.static → p m → p m'

theorem fixed_assetID (id : UInt32) :
    Fixed (e := .assets) fun m => Asset.assetID m = id := by
  intro m m' hstatic hm
  have hsame : Asset.assetID (Row.static (e := .assets) m') =
      Asset.assetID (Row.static (e := .assets) m) := by rw [hstatic]
  exact Eq.trans hsame hm

theorem fixed_itemID (id : UInt32) : Fixed (e := .items) fun m => Item.itemID m = id := by
  intro m m' hstatic hm
  have hsame : Item.itemID (Row.static (e := .items) m') =
      Item.itemID (Row.static (e := .items) m) := by rw [hstatic]
  exact Eq.trans hsame hm

theorem hasRow_of_static (hp : Fixed p) {db : DbId} (hdb : d.routed c uid e = some db) {m : Row e}
    (hrow : m.static ∈ ((d.db db) e).map Row.static) (howner : m.ownerID = uid) (hm : p m) :
    HasRow c d uid e p := by
  obtain ⟨row, hmem, hstatic⟩ := List.mem_map.mp hrow
  exact ⟨db, hdb, row, hmem, (Row.ownerID_eq hstatic).trans howner, hp m row hstatic hm⟩

theorem HasRow.grows (hp : Fixed p) (h : HasRow c d uid e p) (hgrows : d.Grows d') :
    HasRow c d' uid e p := by
  obtain ⟨db, hdb, m, hm, howner, hpm⟩ := h
  exact hasRow_of_static hp (hgrows.routed hdb) (hgrows.mem (List.mem_map_of_mem hm)) howner hpm

theorem Granted.grows (h : Granted c d uid) (hgrows : d.Grows d') : Granted c d' uid :=
  ⟨h.1.grows (fixed_assetID _) hgrows, h.2.grows (fixed_itemID _) hgrows⟩

theorem hasRow_of_known (hp : Fixed p) {m : Row e} (hm : d.Known c uid m)
    (hkey : m.primaryKey ≠ 0) (hpm : p m) : HasRow c d uid e p := by
  obtain ⟨howner, hzero | ⟨db, hdb, hrow⟩⟩ := hm
  · exact absurd hzero hkey
  · exact hasRow_of_static hp hdb hrow howner hpm

end

/-! ## Keys in the caches -/

def CacheKeyed (d : Data) : Prop :=
  ∀ id e v, d.cache .user id e = some v → ∀ m ∈ v.rows, m.primaryKey ≠ 0

section

variable {d d' : Data}

theorem CacheKeyed.of_cache (h : CacheKeyed d) (hsame : d'.cache = d.cache) : CacheKeyed d' := by
  unfold CacheKeyed
  rw [hsame]
  exact h

theorem CacheKeyed.setCache (h : CacheKeyed d) {o : Owner} {id : UInt64} {fs : Fields}
    (hfs : o = .user → ∀ e v, fs e = some v → ∀ m ∈ v.rows, m.primaryKey ≠ 0) :
    CacheKeyed (d.setCache o id fs) := by
  intro id' e v hv
  by_cases hsame : o = .user ∧ id' = id
  · obtain ⟨rfl, rfl⟩ := hsame
    rw [Data.setCache_cache_self] at hv
    exact hfs rfl e v hv
  · have hne : Owner.user ≠ o ∨ id' ≠ id := by
      by_contra hboth
      rw [not_or, not_not, not_not] at hboth
      exact hsame ⟨hboth.1.symm, hboth.2⟩
    rw [Data.setCache_cache_of_ne hne] at hv
    exact h id' e v hv

theorem CacheKeyed.hset (h : CacheKeyed d) {o : Owner} {id : UInt64} {fs : Fields}
    (hfs : o = .user → ∀ e v, fs e = some v → ∀ m ∈ v.rows, m.primaryKey ≠ 0) :
    CacheKeyed (d.setCache o id ((d.cache o id).hset fs)) := by
  refine h.setCache ?_
  rintro rfl e v hv
  rcases Option.or_eq_some_iff.mp hv with hnew | ⟨-, hold⟩
  · exact hfs rfl e v hnew
  · exact h id e v hold

theorem CacheKeyed.expires {w w' : World} (h : CacheKeyed w.data) (he : World.Expires w w') :
    CacheKeyed w'.data := by
  cases he with
  | cache o id => exact h.setCache (by simp [Fields.none])
  | session id => exact h
  | lock key => exact h

theorem cacheKeyed_of_step {op : Op} {r : op.Resp} (hs : Data.Step op d r d') (h : CacheKeyed d)
    (hset : ∀ e id v, op = .cacheSet e id v → e.owner = .user → ∀ m ∈ v.rows, m.primaryKey ≠ 0)
    (hmulti : ∀ o id fs, op = .cacheSetMulti o id fs → o = .user →
      ∀ e v, fs e = some v → ∀ m ∈ v.rows, m.primaryKey ≠ 0) : CacheKeyed d' := by
  cases op with
  | findUserID db ch => exact h.of_cache (by rw [hs.1])
  | select db e id => exact h.of_cache (by rw [hs.1])
  | cacheGet e id => exact h.of_cache (by rw [hs.1])
  | create db e m =>
    rcases hs with ⟨-, rfl⟩ | ⟨k, -, -, rfl⟩
    · exact h
    · exact h.of_cache rfl
  | transaction db ops hp =>
    rcases hs with ⟨t', h', -, -, rfl⟩ | ⟨h', -, rfl⟩ | ⟨h', -, rfl⟩
    · exact h.of_cache rfl
    · exact h
    · exact h
  | cacheSet e id v =>
    rcases hs with ⟨-, rfl⟩ | ⟨-, rfl⟩
    · exact h
    · refine h.hset fun howner e' v' hv' => ?_
      by_cases he : e' = e
      · subst he
        have hsame : v = v' := by simpa [Fields.single] using hv'
        rw [← hsame]
        exact hset e' id v rfl howner
      · simp [Fields.single, Fields.none, Function.update_of_ne he] at hv'
  | cacheSetMulti o id fs =>
    rcases hs with ⟨-, rfl⟩ | ⟨-, rfl⟩
    · exact h
    · exact h.hset (hmulti o id fs rfl)
  | cacheDeleteAll o id =>
    rcases hs with ⟨-, rfl⟩ | ⟨-, rfl⟩
    · exact h
    · exact h.setCache (by simp [Fields.none])
  | _ => exact h.of_cache (congrArg Data.cache hs)

end

/-- A `Login` in a run that only adds rows and keeps the caches sound: it answers for the
keys of the caches. -/
def granting (c : Container) : Setting Op.Resp Data where
  step op d r d' := Data.Step op d r d' ∧ d.Grows d' ∧ (d.Sound c → d'.Sound c)
  rely d d' := (d.Grows d' ∧ (d.Sound c → d'.Sound c)) ∧ (CacheKeyed d → CacheKeyed d')
  guar _ _ d d' := CacheKeyed d → CacheKeyed d'
  pre _ _ := True
  rely_refl d := ⟨Data.moved_refl d, id⟩
  rely_trans h h' := ⟨Data.moved_trans h.1 h'.1, fun hd => h'.2 (h.2 hd)⟩

/-! ## The unit of work of a Login -/

def Evolves (u u' : UnitOfWork) : Prop :=
  ∀ e r, u.Held e r → u'.Held e r ∧ (u'.heap.cell e r).static = (u.heap.cell e r).static

def Queued (X : List Stmt) (u : UnitOfWork) (e : EntityKind) (r : Ref) : Prop :=
  .insert e r ∈ X ∨ ∃ db, (⟨db, .insert e r⟩ : DbOp) ∈ u.dbOps

/-- What a `Login` for the user has loaded since it was at `u₀`. -/
structure Carries (c : Container) (uid : UInt64) (u₀ : UnitOfWork) (X : List Stmt)
    (u : UnitOfWork) (d : Data) : Prop where
  holds : Holds c uid true X u d
  cached : CacheKeyed d
  queued : ∀ e r, u.Held e r → (u.heap.cell e r).primaryKey = 0 → Queued X u e r
  since : Evolves u₀ u

section

variable {c : Container} {uid : UInt64} {u₀ u u' u'' : UnitOfWork} {X : List Stmt} {d d' : Data}
  {e : EntityKind} {r : Ref}

theorem Evolves.refl (u : UnitOfWork) : Evolves u u := fun _ _ h => ⟨h, rfl⟩

theorem Evolves.trans (h : Evolves u u') (h' : Evolves u' u'') : Evolves u u'' := by
  intro e r hr
  obtain ⟨hr', hstatic⟩ := h e r hr
  obtain ⟨hr'', hstatic'⟩ := h' e r hr'
  exact ⟨hr'', hstatic'.trans hstatic⟩

theorem evolves_of_cells (h : Holds c uid true X u d) (hkept : u.Kept u')
    (hcells : ∀ e r, r < u.heap.next → u'.heap.cell e r = u.heap.cell e r) : Evolves u u' := by
  intro e r hr
  refine ⟨hkept e r hr, ?_⟩
  rw [hcells e r (h.held hr).2.2.1]

theorem queued_of_dbOps {X' : List Stmt} (hX : ∀ s ∈ X, s ∈ X')
    (hops : ∀ op ∈ u.dbOps, op ∈ u'.dbOps)
    (h : Queued X u e r) : Queued X' u' e r := by
  rcases h with h | ⟨db, h⟩
  · exact Or.inl (hX _ h)
  · exact Or.inr ⟨db, hops _ h⟩

theorem loadedOne_keyed {m : Row e} (hkey : m.primaryKey ≠ 0) {r : Ref}
    (hr : (u.loadedOne e m).Held e r) : ((u.loadedOne e m).heap.cell e r).primaryKey ≠ 0 := by
  obtain ⟨s, hs, hmem⟩ := hr
  rw [u.loadedOne_store] at hs
  cases hs
  have hcell : (u.loadedOne e m).heap.cell e u.heap.next = m := u.heap.alloc_cell_self e m
  rw [List.mem_singleton.mp hmem, hcell]
  exact hkey

theorem loadedMany_keyed {ms : List (Row e)} (hkeys : ∀ m ∈ ms, m.primaryKey ≠ 0) {r : Ref}
    (hr : (u.loadedMany e ms).Held e r) :
    ((u.loadedMany e ms).heap.cell e r).primaryKey ≠ 0 := by
  obtain ⟨s, hs, hmem⟩ := hr
  rw [u.loadedMany_store] at hs
  cases hs
  exact hkeys _ (u.heap.allocMany_cell_mem e ms hmem)

theorem value_keyed {s : Stored} (hs : u.store e = some s)
    (hkeys : ∀ r, u.Held e r → (u.heap.cell e r).primaryKey ≠ 0) :
    ∀ m ∈ (u.value e s).rows, m.primaryKey ≠ 0 := by
  intro m hm
  cases s with
  | one r =>
    rw [List.mem_singleton.mp hm]
    exact hkeys r ⟨.one r, hs, List.mem_singleton.mpr rfl⟩
  | many rs =>
    obtain ⟨r, hr, rfl⟩ := List.mem_map.mp hm
    exact hkeys r ⟨.many rs, hs, hr⟩

namespace Carries

theorem moved (h : Carries c uid u₀ X u d) (hgrows : d.Grows d') (hsound : d.Sound c → d'.Sound c)
    (hcached : CacheKeyed d') : Carries c uid u₀ X u d' :=
  ⟨h.holds.rely ⟨hgrows, hsound⟩, hcached, h.queued, h.since⟩

theorem stable : (granting c).Stable (Carries c uid u₀ X u) :=
  fun _ _ hr h => h.moved hr.1.1 hr.1.2 (hr.2 h.cached)

theorem step {op : Op} {r : op.Resp} (h : Carries c uid u₀ X u d) (hs : (granting c).step op d r d')
    (hcached : CacheKeyed d') : Carries c uid u₀ X u d' :=
  h.moved hs.2.1 hs.2.2 hcached

theorem rebase (h : Carries c uid u₀ X u d) : Carries c uid u X u d :=
  ⟨h.holds, h.cached, h.queued, .refl u⟩

theorem dated {v : UnitOfWork} (h : Carries c uid u X u' d) (hv : Evolves v u) :
    Carries c uid v X u' d :=
  ⟨h.holds, h.cached, h.queued, hv.trans h.since⟩

theorem loadedOne (h : Carries c uid u₀ X u d) {m : Row e} (hstore : u.store e = none)
    (hm : d.Belongs c uid (.one m)) (hkey : m.primaryKey ≠ 0) :
    Carries c uid u₀ X (u.loadedOne e m) d := by
  have hcells : ∀ e' r, r < u.heap.next →
      (u.loadedOne e m).heap.cell e' r = u.heap.cell e' r :=
    fun e' _ hr => u.heap.alloc_cell_of_lt e e' m hr
  refine ⟨h.holds.loadedOne hstore hm, h.cached, ?_,
    h.since.trans (evolves_of_cells h.holds (u.kept_of_loadedOne hstore m) hcells)⟩
  intro e' r hr hzero
  by_cases he : e' = e
  · subst he
    exact absurd hzero (loadedOne_keyed hkey hr)
  · have hheld : u.Held e' r := by
      simpa only [UnitOfWork.Held, u.loadedOne_store_of_ne e m e' he] using hr
    rw [hcells e' r (h.holds.held hheld).2.2.1] at hzero
    exact h.queued e' r hheld hzero

theorem loadedMany (h : Carries c uid u₀ X u d) {ms : List (Row e)} (hstore : u.store e = none)
    (hms : d.Belongs c uid (.many ms)) (hkeys : ∀ m ∈ ms, m.primaryKey ≠ 0) :
    Carries c uid u₀ X (u.loadedMany e ms) d := by
  have hcells : ∀ e' r, r < u.heap.next →
      (u.loadedMany e ms).heap.cell e' r = u.heap.cell e' r :=
    fun e' _ hr => u.heap.allocMany_cell_of_lt e e' ms hr
  refine ⟨h.holds.loadedMany hstore hms, h.cached, ?_,
    h.since.trans (evolves_of_cells h.holds (u.kept_of_loadedMany hstore ms) hcells)⟩
  intro e' r hr hzero
  by_cases he : e' = e
  · subst he
    exact absurd hzero (loadedMany_keyed hkeys hr)
  · have hheld : u.Held e' r := by
      simpa only [UnitOfWork.Held, u.loadedMany_store_of_ne e ms e' he] using hr
    rw [hcells e' r (h.holds.held hheld).2.2.1] at hzero
    exact h.queued e' r hheld hzero

theorem marked (h : Carries c uid u₀ X u d) : Carries c uid u₀ X (u.marked e r) d := by
  refine ⟨h.holds.marked, h.cached, ?_, h.since.trans ?_⟩
  · simpa only [Holds.held_marked, UnitOfWork.marked_heap, Queued, UnitOfWork.marked_dbOps]
      using h.queued
  · intro e' r' hr
    rw [UnitOfWork.marked_heap]
    exact ⟨Holds.held_marked.mpr hr, rfl⟩

theorem changed (h : Carries c uid u₀ [] u d) {f : Row e → Row e} (hr : u.Held e r)
    (hf : ∀ m : Row e, (f m).static = m.static) :
    Carries c uid u₀ [.update e r] (u.changed e r f) d := by
  have hstatic : ∀ e' r', ((u.changed e r f).heap.cell e' r').static =
      (u.heap.cell e' r').static := by
    intro e' r'
    by_cases hsame : e' = e ∧ r' = r
    · obtain ⟨rfl, rfl⟩ := hsame
      have hcell : (u.changed e' r' f).heap.cell e' r' = f (u.heap.cell e' r') :=
        Heap.set_cell_self _ _ _ _
      rw [hcell, hf]
    · have hcell : (u.changed e r f).heap.cell e' r' = u.heap.cell e' r' :=
        Heap.set_cell_other _ (not_and_or.mp hsame) _
      rw [hcell]
  refine ⟨h.holds.changed hr hf, h.cached, ?_, h.since.trans fun e' r' hr' => ⟨hr', hstatic e' r'⟩⟩
  intro e' r' hr' hzero
  rw [Row.primaryKey_eq (hstatic e' r')] at hzero
  exact queued_of_dbOps (by simp) (fun _ hop => hop) (h.queued e' r' hr' hzero)

theorem extended (h : Carries c uid u₀ [] u d) {rs : List Ref} {m : Row e}
    (he : e.owner = .user) (hlist : e.isSingleton = false) (hrs : u.store e = some (.many rs))
    (howner : m.ownerID = u.userID) (hkey : m.primaryKey = 0) :
    Carries c uid u₀ [.insert e u.heap.next] (u.extended e rs m) d := by
  have hcells : ∀ e' r, r < u.heap.next →
      (u.extended e rs m).heap.cell e' r = u.heap.cell e' r :=
    fun e' _ hr => u.heap.alloc_cell_of_lt e e' m hr
  have hself : (u.extended e rs m).store e = some (.many (rs ++ [u.heap.next])) := by
    simp [UnitOfWork.extended]
  have hother : ∀ e', e' ≠ e → (u.extended e rs m).store e' = u.store e' := by
    intro e' hkind
    simp [UnitOfWork.extended, UnitOfWork.setStore_store_of_ne _ _ hkind]
  have hkept : u.Kept (u.extended e rs m) := by
    intro e' r hr
    by_cases hkind : e' = e
    · subst hkind
      obtain ⟨s, hs, hmem⟩ := hr
      rw [hrs] at hs
      cases hs
      exact ⟨_, hself, List.mem_append_left _ hmem⟩
    · simpa only [UnitOfWork.Held, hother e' hkind] using hr
  refine ⟨h.holds.extended he hlist hrs howner hkey, h.cached, ?_,
    h.since.trans (evolves_of_cells h.holds hkept hcells)⟩
  intro e' r hr hzero
  have hold : u.Held e' r → Queued [.insert e u.heap.next] (u.extended e rs m) e' r := by
    intro hheld
    rw [hcells e' r (h.holds.held hheld).2.2.1] at hzero
    exact queued_of_dbOps (by simp) (fun _ hop => hop) (h.queued e' r hheld hzero)
  by_cases hkind : e' = e
  · subst hkind
    obtain ⟨s, hs, hmem⟩ := hr
    rw [hself] at hs
    cases hs
    rcases List.mem_append.mp hmem with hmem | hmem
    · exact hold ⟨.many rs, hrs, hmem⟩
    · rw [List.mem_singleton.mp hmem]
      exact Or.inl (List.mem_singleton.mpr rfl)
  · refine hold ?_
    simpa only [UnitOfWork.Held, hother e' hkind] using hr

theorem enqueue {s : Stmt} (h : Carries c uid u₀ [s] u d) :
    Carries c uid u₀ [] (u.enqueue (u.route c s.kind) s) d := by
  refine ⟨h.holds.enqueue, h.cached, ?_, h.since.trans fun e r hr => ⟨hr, rfl⟩⟩
  intro e r hr hzero
  refine Or.inr ?_
  rcases h.queued e r hr hzero with hs | ⟨db, hop⟩
  · rw [← List.mem_singleton.mp hs]
    exact ⟨_, List.mem_append_right _ (List.mem_singleton.mpr rfl)⟩
  · exact ⟨db, List.mem_append_left _ hop⟩

end Carries

def Read (c : Container) (uid : UInt64) (u₀ : UnitOfWork) (e : EntityKind) (X : List Stmt)
    (u : UnitOfWork) (d : Data) : Prop :=
  Carries c uid u₀ X u d ∧ ∀ r, u.Held e r → (u.heap.cell e r).primaryKey ≠ 0

theorem carries_closed (u₀ : UnitOfWork) :
    Closed c (granting c) (Carries c uid u₀) (Read c uid u₀) where
  stable := fun X u => Carries.stable
  fresh_stable := fun e X u d d' hr h => ⟨Carries.stable d d' hr h.1, h.2⟩
  now := by
    intro X u d h
    refine ⟨trivial, fun r d' hs => ?_⟩
    have hcached : CacheKeyed d' := cacheKeyed_of_step hs.1 h.cached (by simp) (by simp)
    exact ⟨fun _ => hcached, h.step hs hcached⟩
  cacheGet := by
    intro X u d e h he hid
    refine ⟨trivial, fun r d' hs => ?_⟩
    obtain ⟨rfl, hr⟩ := hs.1
    refine ⟨fun hd => hd, h, fun hstore => ?_⟩
    rw [he, h.holds.user] at hr
    refine ⟨fun m hm _ => ?_, fun ms hms _ => ?_⟩
    · rw [cachedOne_eq_some] at hm
      subst hm
      have hcached : d'.cache .user uid e = some (.one m) := by simpa [eq_comm] using hr
      exact h.loadedOne hstore (h.holds.sound.cached uid e _ hcached)
        (h.cached uid e _ hcached m (List.mem_singleton.mpr rfl))
    · rw [cachedMany_eq_some] at hms
      subst hms
      have hcached : d'.cache .user uid e = some (.many ms) := by simpa [eq_comm] using hr
      exact h.loadedMany hstore (h.holds.sound.cached uid e _ hcached)
        (h.cached uid e _ hcached)
  select := by
    intro X u d e db h he hid hstore hroute
    refine ⟨trivial, fun r d' hs => ?_⟩
    obtain ⟨-, hselect⟩ := holds_closed.select h.holds he hid hstore hroute
    obtain ⟨-, -, hone, hmany⟩ := hselect r d' hs.1
    obtain ⟨rfl, hr⟩ := hs.1
    have hkeys : ∀ m ∈ (d'.db db).select e u.userID, m.primaryKey ≠ 0 :=
      fun m hm => (h.holds.sound.keyed db).ne_zero e m (List.mem_filter.mp hm).1
    refine ⟨fun hd => hd, h, fun m ms hms hsingle => ?_, fun ms hms hlist => ?_⟩
    · subst hms
      have hrows : (d'.db db).select e u.userID = m :: ms := by simpa [eq_comm] using hr
      have hkey : m.primaryKey ≠ 0 := hkeys m (by simp [hrows])
      have hbelongs := (hone m ms rfl hsingle).belongs (u.loadedOne_store e m)
      rw [u.value_loadedOne] at hbelongs
      exact ⟨h.loadedOne hstore hbelongs hkey, fun r hr => loadedOne_keyed hkey hr⟩
    · subst hms
      have hrows : (d'.db db).select e u.userID = ms := by simpa [eq_comm] using hr
      rw [hrows] at hkeys
      have hbelongs := (hmany ms rfl hlist).belongs (u.loadedMany_store e ms)
      rw [u.value_loadedMany] at hbelongs
      exact ⟨h.loadedMany hstore hbelongs hkeys, fun r hr => loadedMany_keyed hkeys hr⟩
  fill := by
    intro X u d e s h he hid hs
    refine ⟨trivial, fun r d' hstep => ?_⟩
    have hcached : CacheKeyed d' := by
      refine cacheKeyed_of_step hstep.1 h.1.cached ?_ (by simp)
      intro e' id v hop _
      cases hop
      exact value_keyed hs h.2
    exact ⟨fun _ => hcached, h.1.step hstep hcached⟩
  change := fun h hr hf => (h.changed hr hf).marked
  queue := fun h => h.enqueue

theorem carries_signs (u₀ : UnitOfWork) : Signs (granting c) (Carries c uid u₀) where
  newToken := by
    intro u d r h _
    refine ⟨trivial, fun token d' hs => ?_⟩
    have hcached : CacheKeyed d' := cacheKeyed_of_step hs.1 h.cached (by simp) (by simp)
    exact ⟨fun _ => hcached, h.step hs hcached⟩
  sessionSet := by
    intro u d r token h _
    refine ⟨trivial, fun stored d' hs => ?_⟩
    have hcached : CacheKeyed d' := cacheKeyed_of_step hs.1 h.cached (by simp) (by simp)
    exact ⟨fun _ => hcached, h.step hs hcached⟩

theorem evolves_wp {α : Type} {m : UowM α} {Pre : UnitOfWork → Prop}
    {Post : α → UnitOfWork → Prop}
    (hm : ∀ v, Keeps (granting c) (Carries c uid v) Pre m Post)
    (h : Carries c uid u₀ [] u d) (hu : Pre u) :
    UowM.wp (granting c) m
      (fun r u' d' => Carries c uid u₀ [] u' d' ∧ Evolves u u' ∧ ∀ a, r = .ok a → Post a u')
      (fun _ _ => True) u d := by
  refine wp_mono ?_ (fun _ _ _ => trivial) (hm u u d h.rebase hu)
  intro r u' d' h'
  exact ⟨h'.1.dated h.since, h'.1.since, h'.2.2⟩

end

/-! ## The grant -/

section

variable {c : Container} {uid : UInt64} {u₀ u u' : UnitOfWork} {d : Data} {e : EntityKind}
  {p : Row e → Prop}

def Loaded (e : EntityKind) (p : Row e → Prop) (u : UnitOfWork) : Prop :=
  ∃ r, u.Held e r ∧ p (u.heap.cell e r)

def Grants (u : UnitOfWork) : Prop :=
  Loaded .assets (fun m => Asset.assetID m = initialAssetID) u ∧
    Loaded .items (fun m => Item.itemID m = initialItemID) u

theorem Loaded.evolves (hp : Fixed p) (h : Loaded e p u) (hu : Evolves u u') : Loaded e p u' := by
  obtain ⟨r, hr, hpr⟩ := h
  obtain ⟨hr', hstatic⟩ := hu e r hr
  exact ⟨r, hr', hp _ _ hstatic hpr⟩

theorem Grants.evolves (h : Grants u) (hu : Evolves u u') : Grants u' :=
  ⟨h.1.evolves (fixed_assetID _) hu, h.2.evolves (fixed_itemID _) hu⟩

def Brings (c : Container) (uid : UInt64) (u₀ : UnitOfWork) (e : EntityKind) (p : Row e → Prop)
    (u : UnitOfWork) (r : Except GoError Unit) (u' : UnitOfWork) (d : Data) : Prop :=
  Carries c uid u₀ [] u' d ∧ Evolves u u' ∧ (r = .ok () → Loaded e p u')

theorem Brings.after {r : Except GoError Unit} (h : Brings c uid u₀ e p u r u' d)
    {v : UnitOfWork} (hv : Evolves v u) : Brings c uid u₀ e p v r u' d :=
  ⟨h.1, hv.trans h.2.1, h.2.2⟩

theorem create_wp (hp : Fixed p) {rs : List Ref} {m : Row e} (h : Carries c uid u₀ [] u d)
    (he : e.owner = .user) (hlist : e.isSingleton = false) (hrs : u.store e = some (.many rs))
    (howner : m.ownerID = u.userID) (hkey : m.primaryKey = 0) (hm : p m) :
    UowM.wp (granting c) (new e m >>= fun r => create c e r) (Brings c uid u₀ e p u)
      (fun _ _ => True) u d := by
  let v := (u.extended e rs m).marked e u.heap.next
  have hv : Carries c uid u [.insert e u.heap.next] v d :=
    (h.rebase.extended he hlist hrs howner hkey).marked
  have hheld : v.Held e u.heap.next := Holds.held_marked.mpr
    ⟨.many (rs ++ [u.heap.next]), by simp [UnitOfWork.extended],
      List.mem_append_right _ (List.mem_singleton.mpr rfl)⟩
  have hcell : v.heap.cell e u.heap.next = m := by
    rw [UnitOfWork.marked_heap]
    exact u.heap.alloc_cell_self e m
  have hloaded : Loaded e p v := ⟨u.heap.next, hheld, by rwa [hcell]⟩
  refine wp_create hlist hrs ?_
  refine wp_mono ?_ (fun _ _ _ => trivial) (queueOp_wp (carries_closed v) hv.rebase)
  intro r u' d' h'
  have hu' : Carries c uid u [] u' d' := h'.1.dated hv.since
  exact ⟨hu'.dated h.since, hu'.since, fun _ => hloaded.evolves hp h'.1.since⟩

theorem update_found_wp (hp : Fixed p) {r : Ref} {f : Row e → Row e}
    (h : Carries c uid u₀ [] u d) (hr : u.Held e r) (hf : ∀ m : Row e, (f m).static = m.static)
    (hm : p (u.heap.cell e r)) :
    UowM.wp (granting c) (setModel e r f >>= fun _ => update c e r) (Brings c uid u₀ e p u)
      (fun _ _ => True) u d := by
  have hkeeps : ∀ v, Keeps (granting c) (Carries c uid v) (fun u => u.Held e r)
      (setModel e r f >>= fun _ => update c e r) fun _ u => u.Held e r :=
    fun v => keeps_update (carries_closed v) hf
  refine wp_mono ?_ (fun _ _ h => h) (evolves_wp hkeeps h hr)
  intro o u' d' h'
  have hloaded : Loaded e p u := ⟨r, hr, hm⟩
  exact ⟨h'.1, h'.2.1, fun _ => hloaded.evolves hp h'.2.1⟩

def Searched (e : EntityKind) (q : Row e → Bool) (found : Option Ref) (u : UnitOfWork) : Prop :=
  (∃ rs, u.store e = some (.many rs)) ∧
    ∀ r, found = some r → u.Held e r ∧ q (u.heap.cell e r) = true

theorem search_wp {q : Row e → Bool} {f : Option Ref → Time → UowM Unit}
    (h : Carries c uid u₀ [] u d) (he : e.owner = .user) (hlist : e.isSingleton = false)
    (hf : ∀ found now u₁ d₁, Carries c uid u₀ [] u₁ d₁ → Searched e q found u₁ →
      UowM.wp (granting c) (f found now) (Brings c uid u₀ e p u₁) (fun _ _ => True) u₁ d₁) :
    UowM.wp (granting c)
      ((loadList c e >>= fun rs => firstModel e rs q) >>= fun found =>
        clockNow >>= fun now => f found now)
      (Brings c uid u₀ e p u) (fun _ _ => True) u d := by
  have hfind : ∀ v, Keeps (granting c) (Carries c uid v) (fun _ => True)
      (loadList c e >>= fun rs => firstModel e rs q) (Searched e q) :=
    fun v => keeps_find (carries_closed v) he hlist
  refine wp_bind (wp_mono ?_ (fun _ _ h => h) (evolves_wp hfind h trivial))
  rintro (err | found) u₁ d₁ ⟨h₁, hu₁, hfound⟩
  · exact ⟨h₁, hu₁, by simp⟩
  have hnow : ∀ v, Keeps (granting c) (Carries c uid v) (Searched e q found) clockNow
      fun _ => Searched e q found :=
    fun v => keeps_clockNow (carries_closed v)
  refine wp_bind (wp_mono ?_ (fun _ _ h => h) (evolves_wp hnow h₁ (hfound found rfl)))
  rintro (err | now) u₂ d₂ ⟨h₂, hu₂, hfound₂⟩
  · exact ⟨h₂, hu₁.trans hu₂, by simp⟩
  refine wp_mono ?_ (fun _ _ h => h) (hf found now u₂ d₂ h₂ (hfound₂ now rfl))
  exact fun r u' d' h' => h'.after (hu₁.trans hu₂)

theorem AssetService.addAsset_wp {assetID : UInt32} {quantity : Int64}
    (h : Carries c uid u₀ [] u d) :
    UowM.wp (granting c) (AssetService.addAsset c assetID quantity)
      (Brings c uid u₀ .assets (fun m => Asset.assetID m = assetID) u) (fun _ _ => True) u d := by
  refine search_wp h rfl rfl ?_
  intro asset now u₁ d₁ h₁ hfound
  obtain ⟨⟨rs, hrs⟩, hasset⟩ := hfound
  cases asset with
  | none => exact wp_local rfl (create_wp (fixed_assetID assetID) h₁ rfl rfl hrs rfl rfl rfl)
  | some asset =>
    obtain ⟨hheld, hid⟩ := hasset asset rfl
    exact update_found_wp (fixed_assetID assetID) h₁ hheld (fun _ => rfl) (beq_iff_eq.mp hid)

theorem ItemService.addItem_wp {itemID : UInt32} {amount : UInt64}
    (h : Carries c uid u₀ [] u d) :
    UowM.wp (granting c) (ItemService.addItem c itemID amount)
      (Brings c uid u₀ .items (fun m => Item.itemID m = itemID) u) (fun _ _ => True) u d := by
  refine search_wp h rfl rfl ?_
  intro item now u₁ d₁ h₁ hfound
  obtain ⟨⟨rs, hrs⟩, hitem⟩ := hfound
  cases item with
  | none =>
    refine wp_local rfl ?_
    cases u₁.catalog.item.lookup itemID.toInt32 with
    | none => exact ⟨h₁, .refl u₁, by simp⟩
    | some designItem => exact create_wp (fixed_itemID itemID) h₁ rfl rfl hrs rfl rfl rfl
  | some item =>
    obtain ⟨hheld, hid⟩ := hitem item rfl
    exact update_found_wp (fixed_itemID itemID) h₁ hheld (fun _ => rfl) (beq_iff_eq.mp hid)

theorem grantInitial_wp (h : Carries c uid u₀ [] u d) :
    UowM.wp (granting c) (grantInitial c)
      (fun r u' d' => Carries c uid u₀ [] u' d' ∧ Evolves u u' ∧ (r = .ok () → Grants u'))
      (fun _ _ => True) u d := by
  refine wp_bind (wp_mono ?_ (fun _ _ h => h) (AssetService.addAsset_wp h))
  rintro (err | _) u₁ d₁ ⟨h₁, hu₁, hasset⟩
  · exact ⟨h₁, hu₁, by simp⟩
  refine wp_bind (wp_mono ?_ (fun _ _ h => h) (ItemService.addItem_wp h₁))
  rintro (err | _) u₂ d₂ ⟨h₂, hu₂, hitem⟩
  · exact ⟨h₂, hu₁.trans hu₂, by simp⟩
  have hconsume : ∀ v, Keeps (granting c) (Carries c uid v) (fun _ => True)
      (attempt (ItemService.consumeItem c initialItemID 3)) fun _ _ => True :=
    fun v => keeps_weaken (keeps_attempt (ItemService.keeps_consumeItem (carries_closed v)))
      (fun _ h => h) fun _ _ _ => trivial
  refine wp_bind (wp_mono ?_ (fun _ _ h => h) (evolves_wp hconsume h₂ trivial))
  rintro (err | _) u₃ d₃ ⟨h₃, hu₃, -⟩
  · exact ⟨h₃, (hu₁.trans hu₂).trans hu₃, by simp⟩
  have hgrants : Grants u₂ :=
    ⟨(hasset rfl).evolves (fixed_assetID _) hu₂, hitem rfl⟩
  exact ⟨h₃, (hu₁.trans hu₂).trans hu₃, fun _ => hgrants.evolves hu₃⟩

theorem loginWith_wp {account : Ref} {isNew : Bool} (h : Carries c uid u₀ [] u d)
    (hacc : u.Held .account account) :
    UowM.wp (granting c) (loginWith c account isNew)
      (fun r u' d' => Carries c uid u₀ [] u' d' ∧
        ∀ m, r = .ok m → Names m u' ∧ (isNew = true → Grants u'))
      (fun _ _ => True) u d := by
  have hgrant : UowM.wp (granting c) (grantIfNew c isNew)
      (fun r u' d' => Carries c uid u₀ [] u' d' ∧ Evolves u u' ∧
        (r = .ok () → isNew = true → Grants u')) (fun _ _ => True) u d := by
    cases isNew with
    | true =>
      refine wp_mono ?_ (fun _ _ h => h) (grantInitial_wp h)
      exact fun r u' d' h' => ⟨h'.1, h'.2.1, fun hr _ => h'.2.2 hr⟩
    | false => exact ⟨h, .refl u, by simp⟩
  refine wp_bind (wp_mono ?_ (fun _ _ h => h) hgrant)
  rintro (err | _) u₁ d₁ ⟨h₁, hu₁, hgrants⟩
  · exact ⟨h₁, by simp⟩
  have hsign : ∀ v, Keeps (granting c) (Carries c uid v) (fun u => u.Held .account account)
      (signIn account isNew) Names :=
    fun v => keeps_signIn (carries_closed v) (carries_signs v) account isNew
  refine wp_mono ?_ (fun _ _ h => h) (evolves_wp hsign h₁ (hu₁ .account account hacc).1)
  rintro r u₂ d₂ ⟨h₂, hu₂, hnames⟩
  exact ⟨h₂, fun m hm => ⟨hnames m hm, fun hnew => (hgrants rfl hnew).evolves hu₂⟩⟩

end

/-! ## Statements and keys -/

section

variable {ops : List Stmt} {t t' : Tables} {h h' : Heap} {e : EntityKind} {r : Ref}

theorem setPrimaryKey_setPrimaryKey (k k' : UInt64) (m : Row e) :
    (m.setPrimaryKey k).setPrimaryKey k' = m.setPrimaryKey k' := by
  cases e <;> rfl

theorem setPrimaryKey_self (m : Row e) : m.setPrimaryKey m.primaryKey = m := by
  cases e <;> rfl

theorem stmtRun_cell (hrun : StmtRun ops t h t' h') (e : EntityKind) (r : Ref) :
    ∃ k, h'.cell e r = (h.cell e r).setPrimaryKey k := by
  induction hrun with
  | nil => exact ⟨_, (setPrimaryKey_self _).symm⟩
  | @insert e' r' ops t h t' h' k _ _ ih =>
    obtain ⟨k', hk'⟩ := ih
    by_cases hsame : e = e' ∧ r = r'
    · obtain ⟨rfl, rfl⟩ := hsame
      rw [Heap.set_cell_self, setPrimaryKey_setPrimaryKey] at hk'
      exact ⟨k', hk'⟩
    · rw [Heap.set_cell_other _ (not_and_or.mp hsame)] at hk'
      exact ⟨k', hk'⟩
  | update _ _ ih => exact ih

theorem stmtRun_keyless (hrun : StmtRun ops t h t' h')
    (hzero : (h'.cell e r).primaryKey = 0) :
    (h.cell e r).primaryKey = 0 ∧ .insert e r ∉ ops := by
  induction hrun with
  | nil => exact ⟨hzero, by simp⟩
  | @insert e' r' ops t h t' h' k hk _ ih =>
    obtain ⟨hbefore, hnot⟩ := ih hzero
    have hother : ¬ (e = e' ∧ r = r') := by
      rintro ⟨rfl, rfl⟩
      rw [Heap.set_cell_self, Row.primaryKey_setPrimaryKey] at hbefore
      exact hk.1.1 hbefore
    rw [Heap.set_cell_other _ (not_and_or.mp hother)] at hbefore
    refine ⟨hbefore, ?_⟩
    simp only [List.mem_cons, Stmt.insert.injEq, not_or]
    exact ⟨hother, hnot⟩
  | update _ _ ih =>
    obtain ⟨hbefore, hnot⟩ := ih hzero
    exact ⟨hbefore, by simpa using hnot⟩

end

/-! ## Commit -/

/-- The transactions still to run insert every model that has no key. -/
structure Pending (c : Container) (uid : UInt64) (G : Prop)
    (groups : List (Option DbId × List Stmt)) (u : UnitOfWork) (d : Data) : Prop where
  holds : Holds c uid true [] u d
  cached : CacheKeyed d
  inserts : ∀ e r, u.Held e r → (u.heap.cell e r).primaryKey = 0 → ∃ g ∈ groups, .insert e r ∈ g.2
  grants : G → Grants u

section

variable {c : Container} {uid : UInt64} {G : Prop} {groups : List (Option DbId × List Stmt)}
  {u u₀ : UnitOfWork} {d d' : Data}

namespace Pending

theorem moved (h : Pending c uid G groups u d) (hgrows : d.Grows d')
    (hsound : d.Sound c → d'.Sound c) (hcached : CacheKeyed d') : Pending c uid G groups u d' :=
  ⟨h.holds.rely ⟨hgrows, hsound⟩, hcached, h.inserts, h.grants⟩

theorem stable : (granting c).Stable (Pending c uid G groups u) :=
  fun _ _ hr h => h.moved hr.1.1 hr.1.2 (hr.2 h.cached)

theorem keyed (h : Pending c uid G [] u d) {e : EntityKind} {r : Ref} (hr : u.Held e r) :
    (u.heap.cell e r).primaryKey ≠ 0 := by
  intro hzero
  obtain ⟨g, hg, -⟩ := h.inserts e r hr hzero
  cases hg

theorem granted (h : Pending c uid G [] u d) (hG : G) : Granted c d uid := by
  obtain ⟨⟨r, hr, hasset⟩, ⟨r', hr', hitem⟩⟩ := h.grants hG
  exact ⟨hasRow_of_known (fixed_assetID _) (h.holds.held hr).2.2.2 (h.keyed hr) hasset,
    hasRow_of_known (fixed_itemID _) (h.holds.held hr').2.2.2 (h.keyed hr') hitem⟩

theorem transact {db : DbId} {stmts : List Stmt} {t' : Tables} {h' : Heap}
    (h : Pending c uid G ((some db, stmts) :: groups) u d)
    (hstmts : ∀ s ∈ stmts, (⟨some db, s⟩ : DbOp) ∈ u.dbOps)
    (hrun : StmtRun stmts (d.db db) u.heap t' h') :
    Pending c uid G groups { u with heap := h' } (d.setDb db t') := by
  obtain ⟨-, hmoved⟩ := (h.holds.transact hstmts).2 hrun
  refine ⟨hmoved, h.cached, fun e r hr hzero => ?_, fun hG => ?_⟩
  · obtain ⟨hbefore, hnot⟩ := stmtRun_keyless hrun hzero
    obtain ⟨g, hg, hs⟩ := h.inserts e r hr hbefore
    rcases List.mem_cons.mp hg with rfl | hg
    · exact absurd hs hnot
    · exact ⟨g, hg, hs⟩
  · obtain ⟨⟨r, hr, hasset⟩, ⟨r', hr', hitem⟩⟩ := h.grants hG
    obtain ⟨k, hk⟩ := stmtRun_cell hrun .assets r
    obtain ⟨k', hk'⟩ := stmtRun_cell hrun .items r'
    refine ⟨⟨r, hr, ?_⟩, ⟨r', hr', ?_⟩⟩
    · dsimp only
      rw [hk]
      exact hasset
    · dsimp only
      rw [hk']
      exact hitem

end Pending

theorem commitGroups_granting (groups : List (Option DbId × List Stmt)) {u : UnitOfWork} {d : Data}
    (h : Pending c uid G groups u d)
    (hgroups : ∀ g ∈ groups, ∀ s ∈ g.2, (⟨g.1, s⟩ : DbOp) ∈ u.dbOps) :
    UowM.wp (granting c) (commitGroups groups)
      (fun r u' d' => r = .ok () → Pending c uid G [] u' d') (fun _ _ => True) u d := by
  induction groups generalizing u d with
  | nil => exact fun _ => h
  | cons g groups ih =>
    obtain ⟨_ | db, stmts⟩ := g
    · trivial
    · refine wp_local rfl (wp_perform_bind Pending.stable h ?_)
      intro d₁ h₁
      refine ⟨trivial, fun r d₂ hs => ?_⟩
      refine ⟨fun hd => cacheKeyed_of_step hs.1 hd (by simp) (by simp), ?_⟩
      rcases hs.1 with ⟨t', h', hrun, rfl, rfl⟩ | ⟨h', rfl, rfl⟩ | ⟨h', rfl, rfl⟩
      · have hset : setHeap h' u = .ret (.ok (), { u with heap := h' }) := rfl
        refine wp_local hset (ih (h₁.transact (hgroups _ List.mem_cons_self) hrun) ?_)
        exact fun g hg => hgroups g (List.mem_cons_of_mem _ hg)
      · exact fun h => by cases h
      · trivial

theorem runOps_granting (h : Carries c uid u₀ [] u d) (hG : G → Grants u) :
    UowM.wp (granting c) runOps
      (fun r u' d' => r = .ok () → Pending c uid G [] u' d') (fun _ _ => True) u d := by
  have hqueued : ∀ e r, u.Held e r → (u.heap.cell e r).primaryKey = 0 →
      ∃ op ∈ u.dbOps, op.stmt = .insert e r := by
    intro e r hr hzero
    rcases h.queued e r hr hzero with hs | ⟨db, hop⟩
    · cases hs
    · exact ⟨_, hop, rfl⟩
  refine wp_local rfl ?_
  by_cases hops : u.dbOps = []
  · rw [if_pos hops]
    refine fun _ => ⟨h.holds, h.cached, fun e r hr hzero => ?_, hG⟩
    obtain ⟨op, hop, -⟩ := hqueued e r hr hzero
    simp [hops] at hop
  · rw [if_neg hops]
    have hpending : Pending c uid G (groupOps u.dbOps) u d := by
      refine ⟨h.holds, h.cached, fun e r hr hzero => ?_, hG⟩
      obtain ⟨op, hop, hstmt⟩ := hqueued e r hr hzero
      rw [← hstmt]
      exact exists_mem_groupOps hop
    refine wp_bind (wp_mono ?_ (fun _ _ h => h)
      (commitGroups_granting _ hpending fun g hg s => mem_groupOps hg))
    intro r u' d' hend
    cases r with
    | error err => simp
    | ok _ =>
      have h' := hend rfl
      refine fun _ => ⟨?_, h'.cached, h'.inserts, h'.grants⟩
      exact ⟨h'.holds.user, h'.holds.club, h'.holds.sound, h'.holds.stored, by simp, by simp⟩

theorem writeBack_granting {o : Owner} {context : String} (h : Pending c uid G [] u d) :
    UowM.wp (granting c) (writeBack o context)
      (fun r u' d' => r = .ok () → Pending c uid G [] u' d') (fun _ _ => True) u d := by
  refine wp_local rfl ?_
  split_ifs
  · refine wp_perform_bind Pending.stable h ?_
    intro d₁ h₁
    refine ⟨trivial, fun r d₂ hs => ?_⟩
    have hcached : CacheKeyed d₂ := by
      refine cacheKeyed_of_step hs.1 h₁.cached (by simp) ?_
      intro o' id fs hop _ e v hv
      cases hop
      unfold UnitOfWork.snapshot at hv
      split_ifs at hv
      obtain ⟨s, hs, rfl⟩ := Option.map_eq_some_iff.mp hv
      exact value_keyed hs fun r hr => h₁.keyed hr
    refine ⟨fun _ => hcached, ?_⟩
    cases r with
    | true => exact fun _ => h₁.moved hs.2.1 hs.2.2 hcached
    | false => exact fun h => by cases h
  · exact fun _ => h

theorem commit_granting (h : Carries c uid u₀ [] u d) (hG : G → Grants u) :
    UowM.wp (granting c) commit
      (fun r u' d' => r = .ok () → Pending c uid G [] u' d') (fun _ _ => True) u d := by
  refine wp_bind (wp_mono ?_ (fun _ _ h => h) (runOps_granting h hG))
  rintro (err | _) u₁ d₁ h₁
  · simp
  refine wp_bind (wp_mono ?_ (fun _ _ h => h) (writeBack_granting (h₁ rfl)))
  rintro (err | _) u₂ d₂ h₂
  · simp
  exact writeBack_granting (h₂ rfl)

theorem invalidate_granting {o : Owner} :
    UowM.wp (granting c) (invalidate o) (fun _ _ _ => True) (fun _ _ => True) u d := by
  refine wp_local rfl ?_
  split_ifs
  · refine wp_perform_bind (P := fun _ => True) (fun _ _ _ _ => trivial) trivial ?_
    intro d₁ _
    refine ⟨trivial, fun r d₂ hs => ⟨fun hd => ?_, trivial⟩⟩
    exact cacheKeyed_of_step hs.1 hd (by simp) (by simp)
  · trivial

theorem commitOrRollback_granting (h : Carries c uid u₀ [] u d) (hG : G → Grants u) :
    UowM.wp (granting c) commitOrRollback
      (fun r u' d' => r = .ok () → Pending c uid G [] u' d') (fun _ _ => True) u d := by
  refine wp_bind (wp_attempt (wp_mono ?_ (fun _ _ h => h) (commit_granting h hG)))
  intro r u₁ d₁ h₁
  cases r with
  | ok _ => exact fun _ => h₁ rfl
  | error err =>
    refine wp_bind (wp_mono ?_ (fun _ _ h => h) invalidate_granting)
    rintro (err' | _) u₂ d₂ -
    · simp
    refine wp_bind (wp_mono ?_ (fun _ _ h => h) invalidate_granting)
    rintro (err' | _) u₃ d₃ -
    · simp
    exact fun h => by cases h

end

/-! ## Requests -/

/-- The lookup of a `Login` has found the account. -/
def Finds {W : Type} (uid : UInt64) (e : Event Op.Resp W) : Prop :=
  ∃ db channel before after, e = ⟨.findUserID db channel, some (some uid), before, after⟩

/-- The `Login` of the account is answered with code 200. -/
def Accepts (rep : Reply) (uid : UInt64) : Prop :=
  rep.response.code = codeOK ∧
    ∃ res, rep.response.body = .message (.login res) ∧ res.userId = uid

/-- How a `Login` ends: the account it has answered for owns its grant, or was found. -/
def Answered (c : Container) (o : Outcome UnitOfWork Reply)
    (s : Data × List (Event Op.Resp Data)) : Prop :=
  ∀ rep uid, o = .ret rep → Accepts rep uid → Granted c s.1 uid ∨ ∃ e ∈ s.2, Finds uid e

section

variable {c : Container} {uid : UInt64} {u u₀ : UnitOfWork} {d : Data}
  {s : Data × List (Event Op.Resp Data)}

theorem answered_stable (o : Outcome UnitOfWork Reply) :
    (granting c).traced.Stable (Answered c o) := by
  rintro ⟨d, tr⟩ ⟨d', tr'⟩ ⟨hr, htr⟩ h rep uid ho hrep
  dsimp only at htr
  subst htr
  exact (h rep uid ho hrep).imp_left fun hgranted => hgranted.grows hr.1.1

def Concludes (c : Container) (uid : UInt64) (result : Message) (G : Prop)
    (o : Outcome UnitOfWork Reply) (d : Data) : Prop :=
  ∀ rep, o = .ret rep → rep.response.code = codeOK →
    rep.response.body = .message result ∧ (G → Granted c d uid)

theorem respond_granting {G : Prop} {result : Message} {action : UInt32} {code : Int32}
    {body : ResponseBody} {sync : Option SyncData} {v : Option UnitOfWork}
    (hbody : code = codeOK → body = .message result ∧ (G → Granted c d uid)) :
    (granting c).wp ((sendGameResponse action code body sync).bind fun res => .ret ⟨res, v⟩)
      (Concludes c uid result G) d := by
  intro d₁ hr
  refine ⟨trivial, fun t d₂ hs => ⟨fun hd => cacheKeyed_of_step hs.1 hd (by simp) (by simp), ?_⟩⟩
  rintro rep ⟨⟩ hcode
  obtain ⟨hmessage, hgranted⟩ := hbody hcode
  exact ⟨hmessage, fun hG => (hgranted hG).grows (hr.1.1.trans hs.2.1)⟩

theorem finish_granting {G : Prop} {s : Server} {action : UInt32} {result : Message}
    (h : Carries c uid u₀ [] u d) (hG : G → Grants u) :
    (granting c).wp (finish s action result u) (Concludes c uid result G) d := by
  have hrefused : codeInternalError ≠ codeOK := by decide
  refine Setting.wp_bind (Setting.wp_mono ?_ (commitOrRollback_granting h hG))
  rintro (⟨err | _, u'⟩ | u') d' hend
  · exact respond_granting fun hcode => absurd hcode hrefused
  · dsimp only
    split_ifs
    · exact respond_granting fun _ => ⟨rfl, fun hG => (hend rfl).granted hG⟩
    · exact respond_granting fun hcode => absurd hcode hrefused
  · simp [Concludes]

/-- A `Login` before it has its account; `found` is what its lookup has answered, if it has. -/
structure Ready (c : Container) (found : Option UInt64) (s : Data × List (Event Op.Resp Data)) :
    Prop where
  sound : s.1.Sound c
  cached : CacheKeyed s.1
  looked : ∀ uid, found = some uid → ∃ e ∈ s.2, Finds uid e

theorem ready_stable (found : Option UInt64) : (granting c).traced.Stable (Ready c found) := by
  rintro ⟨d, tr⟩ ⟨d', tr'⟩ ⟨hr, htr⟩ h
  dsimp only at htr
  subst htr
  exact ⟨hr.1.2 h.sound, hr.2 h.cached, h.looked⟩

theorem ready_step {found : Option UInt64} {op : Op} (hop : op.Still) (hs : Ready c found s) :
    (granting c).traced.pre op s ∧ ∀ r s', (granting c).traced.step op s r s' →
      (granting c).traced.guar op r s s' ∧ Ready c found s' := by
  refine ⟨trivial, ?_⟩
  rintro r ⟨d', tr'⟩ ⟨hstep, htr⟩
  have hsame : d' = s.1 := hop.unchanged hstep.1
  dsimp only at htr
  subst hsame htr
  refine ⟨fun hd => hd, hs.sound, hs.cached, fun uid huid => ?_⟩
  obtain ⟨e, he, hfinds⟩ := hs.looked uid huid
  exact ⟨e, List.mem_append_left _ he, hfinds⟩

theorem carries_of_bare (hu : Bare u) (hd : d.Sound c) (hcached : CacheKeyed d) :
    Carries c u.userID u [] u d := by
  refine ⟨hu.holds hd, hcached, ?_, .refl u⟩
  rintro e r ⟨stored, hstored, -⟩
  rw [hu.store e] at hstored
  cases hstored

def Opened (c : Container) (r : Except GoError (Ref × Bool)) (u : UnitOfWork)
    (s : Data × List (Event Op.Resp Data)) : Prop :=
  ∀ p, r = .ok p → ∃ uid u₀, Carries c uid u₀ [] u s.1 ∧ u.Held .account p.1 ∧
    (p.2 = true ∨ ∃ e ∈ s.2, Finds uid e)

theorem opened_error {err : GoError} : Opened c (.error err) u s := by simp [Opened]

theorem AccountService.new_granting {m : Account} (hu : Bare u) (hs : Ready c none s) :
    UowM.wp (granting c).traced
      (do
        let account ← new .account m
        createNow c .account account
        pure (account, true))
      (Opened c) (fun _ _ => True) u s := by
  unfold UowM.wp
  rw [AccountService.new_eq]
  refine Setting.wp_call (ready_stable none) hs ?_
  rintro ⟨d₁, tr₁⟩ h₁
  refine ⟨trivial, ?_⟩
  rintro r ⟨d₂, tr₂⟩ ⟨hstep, -⟩
  have hcached : CacheKeyed d₂ := cacheKeyed_of_step hstep.1 h₁.cached (by simp) (by simp)
  refine ⟨fun _ => hcached, ?_⟩
  rcases hstep.1 with ⟨rfl, -⟩ | ⟨k, ⟨hk, -⟩, rfl, rfl⟩
  · exact opened_error
  · rintro p ⟨⟩
    have hkey : (Row.setPrimaryKey (e := .account) k m).primaryKey ≠ 0 := by
      rw [Row.primaryKey_setPrimaryKey]
      exact hk.1
    refine ⟨k, _, ⟨hu.created h₁.sound hk, hcached, ?_, .refl _⟩, ?_, Or.inl rfl⟩
    · intro e r hr hzero
      by_cases he : e = .account
      · subst he
        exact absurd hzero (loadedOne_keyed hkey hr)
      · obtain ⟨stored, hstored, -⟩ := hr
        rw [UnitOfWork.loadedOne_store_of_ne _ _ _ _ he] at hstored
        rw [hu.store e] at hstored
        cases hstored
    · exact ⟨.one u.heap.next, UnitOfWork.loadedOne_store _ .account _,
        List.mem_singleton.mpr rfl⟩

theorem AccountService.found_granting {deviceID : String} {now : Time} (hu : Bare u)
    (hs : Ready c (some u.userID) s) :
    UowM.wp (granting c).traced
      (do
        let account ← Uow.account c
        setModel .account account fun m =>
          ({ m with deviceID := deviceID, updateTime := now } : Account)
        update c .account account
        pure (account, false))
      (Opened c) (fun _ _ => True) u s := by
  obtain ⟨e, he, hfinds⟩ := hs.looked u.userID rfl
  have hkeeps : Keeps (granting c) (Carries c u.userID u) (fun _ => True) _ _ :=
    AccountService.keeps_found (carries_closed u) deviceID now
  have hwp := UowM.wp_traced (hkeeps u s.1 (carries_of_bare hu hs.sound hs.cached) trivial) s.2
  refine wp_mono ?_ (fun _ _ _ => trivial) hwp
  rintro r u' s' ⟨⟨h', -, hheld⟩, htr⟩ p hp
  exact ⟨u.userID, u, h', hheld p hp, Or.inr ⟨e, htr.subset he, hfinds⟩⟩

theorem AccountService.login_granting {channel : UInt64} {deviceID : String} (hu : Bare u)
    (hs : Ready c none s) :
    UowM.wp (granting c).traced (AccountService.login c channel deviceID) (Opened c)
      (fun _ _ => True) u s := by
  refine wp_perform_bind (ready_stable none) hs ?_
  rintro ⟨d₁, tr₁⟩ hs₁
  obtain ⟨hpre, hstep⟩ := @ready_step _ _ _ (.findUserID c.gameDB channel) trivial hs₁
  refine ⟨hpre, ?_⟩
  rintro reply ⟨d₂, tr₂⟩ hs₂
  obtain ⟨hguar, hready⟩ := hstep reply (d₂, tr₂) hs₂
  refine ⟨hguar, ?_⟩
  have htr : tr₂ = tr₁ ++ [⟨.findUserID c.gameDB channel, reply, d₁, d₂⟩] := hs₂.2
  cases reply with
  | none => exact opened_error
  | some found =>
    have hlooked : Ready c found (d₂, tr₂) := by
      refine ⟨hready.sound, hready.cached, ?_⟩
      rintro uid rfl
      refine ⟨_, ?_, c.gameDB, channel, d₁, d₂, rfl⟩
      rw [htr]
      exact List.mem_append_right _ (List.mem_singleton.mpr rfl)
    refine wp_perform_bind (ready_stable found) hlooked ?_
    intro s₃ hs₃
    obtain ⟨hpre₃, hstep₃⟩ := @ready_step _ _ _ .now trivial hs₃
    refine ⟨hpre₃, fun now s₄ hs₄ => ⟨(hstep₃ now s₄ hs₄).1, ?_⟩⟩
    have hready₄ := (hstep₃ now s₄ hs₄).2
    cases found with
    | none =>
      refine wp_bind (wp_mono ?_ (fun _ _ _ => trivial) (pickShard_wp (ready_stable none)
        (fun n _ => @ready_step _ _ _ (.intN n) trivial) hready₄))
      rintro (err | shardID) u' s₅ ⟨rfl, hs₅⟩
      · exact opened_error
      · exact AccountService.new_granting hu hs₅
    | some uid =>
      have hbare : Bare { u with userID := uid } := ⟨hu.club, hu.store, hu.dbOps⟩
      exact wp_local rfl (AccountService.found_granting hbare hready₄)

theorem login_granting {body : Body} (hu : Bare u) (hs : Ready c none s) :
    UowM.wp (granting c).traced (login c body)
      (fun r u' s' => ∀ m, r = .ok m → ∃ uid u₀, Carries c uid u₀ [] u' s'.1 ∧ Names m u' ∧
        (Grants u' ∨ ∃ e ∈ s'.2, Finds uid e))
      (fun _ _ => True) u s := by
  unfold login
  cases body.login with
  | none => simp [UowM.wp, UowM.throw, Setting.wp, UowM.Ends]
  | some req =>
    dsimp only
    split_ifs
    · simp [UowM.wp, UowM.throw, Setting.wp, UowM.Ends]
    · refine wp_bind (wp_mono ?_ (fun _ _ h => h) (AccountService.login_granting hu hs))
      rintro (err | p) u₁ s₁ h₁
      · simp
      obtain ⟨uid, u₀, hcarries, hacc, hway⟩ := h₁ p rfl
      have hrest : UowM.wp (granting c) (loginWith c p.1 p.2) _ _ u₁ s₁.1 :=
        loginWith_wp hcarries hacc
      have hwp := UowM.wp_traced hrest s₁.2
      refine wp_mono ?_ (fun _ _ _ => trivial) hwp
      rintro r u₂ s₂ ⟨⟨h₂, hpost⟩, htr⟩ m hm
      obtain ⟨hnames, hgrants⟩ := hpost m hm
      refine ⟨uid, u₀, h₂, hnames, hway.imp hgrants ?_⟩
      rintro ⟨e, he, hfinds⟩
      exact ⟨e, htr.subset he, hfinds⟩

theorem refuse_granting {action : UInt32} {code : Int32} {body : ResponseBody}
    {sync : Option SyncData} {v : Option UnitOfWork} (hbody : ∀ m, body ≠ .message m) :
    (granting c).traced.wp ((sendGameResponse action code body sync).bind fun res => .ret ⟨res, v⟩)
      (Answered c) s := by
  rintro ⟨d₁, tr₁⟩ -
  refine ⟨trivial, ?_⟩
  rintro t ⟨d₂, tr₂⟩ ⟨hs, -⟩
  refine ⟨fun hd => cacheKeyed_of_step hs.1 hd (by simp) (by simp), ?_⟩
  rintro rep uid ⟨⟩ ⟨-, res, hres, -⟩
  exact absurd hres (hbody _)

theorem serve_granting {marshals : Message → Bool} {catalog : Catalog} {req : GameRequest}
    (hs : Ready c none s) :
    (granting c).traced.wp (serve (server c marshals) catalog ⟨login c, true⟩ req) (Answered c)
      s := by
  refine Setting.wp_call (ready_stable none) hs ?_
  intro s₁ hs₁
  obtain ⟨hpre, hstep⟩ := @ready_step _ _ none (.enter req.action req.userId) trivial hs₁
  refine ⟨hpre, fun r s₂ hs₂ => ⟨(hstep r s₂ hs₂).1, ?_⟩⟩
  have hbare : Bare (.new req.userId catalog) := ⟨rfl, fun _ => rfl, rfl⟩
  refine Setting.wp_bind (Setting.wp_mono ?_ (login_granting hbare (hstep r s₂ hs₂).2))
  rintro (⟨err | result, u'⟩ | u') ⟨d', tr'⟩ hend
  · exact refuse_granting (by simp)
  · obtain ⟨uid, u₀, hcarries, hnames, hway⟩ := hend result rfl
    have hfinish : (granting c).wp (finish (server c marshals) req.action result u')
        (Concludes c uid result (Grants u')) d' := finish_granting hcarries fun hG => hG
    refine Setting.wp_mono ?_ (Setting.wp_traced hfinish tr')
    rintro o ⟨d'', tr''⟩ ⟨hconcludes, t, htr, -⟩ rep uid' ho hrep
    obtain ⟨hcode, res, hres, rfl⟩ := hrep
    obtain ⟨hmessage, hgranted⟩ := hconcludes rep ho hcode
    -- the answer names the account that is loaded, which is that of the request
    obtain ⟨acc, res', hresult, hacc, hid⟩ := hnames
    have hsame : res = res' := by
      rw [hres, hresult] at hmessage
      cases hmessage
      rfl
    have huid : res.userId = uid := by
      rw [hsame, hid]
      exact (hcarries.holds.held hacc).2.2.2.1
    rw [huid]
    refine hway.imp hgranted ?_
    rintro ⟨e, he, hfinds⟩
    refine ⟨e, ?_, hfinds⟩
    dsimp only at htr
    rw [htr]
    exact List.mem_append_left _ he
  · intro rep uid ho
    cases ho

theorem underUserLock_granting {req : GameRequest} {p : Call UnitOfWork Reply}
    (hs : Ready c none s)
    (hp : ∀ s, Ready c none s → (granting c).traced.wp p (Answered c) s) :
    (granting c).traced.wp (underUserLock req p) (Answered c) s := by
  unfold underUserLock
  split_ifs
  · exact hp s hs
  · have hsafe : (acquireUserLock req.userId : Call UnitOfWork (Option String)).Safe Op.Still :=
      safe_acquireUserLock.mono fun op h => (@still_of_acquire c req.userId true op h).1
    refine Setting.wp_bind (Setting.wp_mono ?_ (Setting.wp_safe (ready_stable none)
      (fun op s hop hs => ready_step hop hs) hsafe hs))
    rintro _ s₁ ⟨⟨token, rfl⟩, hs₁⟩
    cases token with
    | none => exact refuse_granting (by simp)
    | some token =>
      refine Setting.wp_ensure (Setting.wp_mono ?_ (hp s₁ hs₁))
      intro o s₂ hs₂
      refine Setting.wp_call (answered_stable o) hs₂ ?_
      rintro ⟨d₃, tr₃⟩ hs₃
      refine ⟨trivial, ?_⟩
      rintro r ⟨d₄, tr₄⟩ ⟨hstep, htr⟩
      have hsame : d₄ = d₃ := hstep.1
      dsimp only at htr
      subst hsame htr
      refine ⟨fun hd => hd, ?_⟩
      have hkept :
          Answered c o (d₄, tr₃ ++ [⟨.lockRelease (.user req.userId) token, r, d₄, d₄⟩]) := by
        intro rep uid ho hrep
        refine (hs₃ rep uid ho hrep).imp_right ?_
        rintro ⟨e, he, hfinds⟩
        exact ⟨e, List.mem_append_left _ he, hfinds⟩
      cases o with
      | ret rep => exact hkept
      | raise u => exact hkept

end

theorem request_granting {c : Container} {marshals : Message → Bool} {r : Incoming} {d : Data}
    (hlogin : r.raw.LogsIn) (hd : d.Sound c) (hcached : CacheKeyed d) :
    (granting c).traced.wp (r.program (server c marshals)) (Answered c) (d, []) := by
  obtain ⟨store, raw⟩ := r
  cases raw with
  | unreadable => exact hlogin.elim
  | malformed => exact hlogin.elim
  | envelope req =>
    have hs : Ready c none (d, []) := ⟨hd, hcached, by simp⟩
    have haction : req.action = actionLogin := hlogin
    have hregistered : actionRegistry c req.action = some ⟨login c, true⟩ := by
      rw [haction]
      rfl
    simp only [Incoming.program, dispatch, server, hregistered]
    cases store.getByClientVersion req.clientVersion with
    | none => exact refuse_granting (by simp)
    | some catalog => exact underUserLock_granting hs fun s hs => serve_granting hs

/-! ## Runs -/

section

variable {ι : Type} [DecidableEq ι] {c : Container} {marshals : Message → Bool}
  {requests : ι → Incoming} {w : World} {tr : List (Occurrence ι Op.Resp World)}
  {cfg : Config ι Op.Resp UnitOfWork Reply World}

def Moving (c : Container) (op : Op) (w : World) (r : op.Resp) (w' : World) : Prop :=
  World.Step op w r w' ∧ w.data.Grows w'.data ∧ (w.data.Sound c → w'.data.Sound c)

theorem run_answered (hlogin : ∀ i, (requests i).raw.LogsIn) (hw : w.data.Sound c)
    (hcached : CacheKeyed w.data)
    (h : Exec World.Step World.Expires (arrived (server c marshals) requests w) tr cfg) (i : ι) :
    ((granting c).comap World.data (Moving c)).traced.wp (cfg.procs i)
      (fun o s => Answered c o (s.1.data, s.2.map (Event.map World.data)))
      (cfg.world, own i tr) := by
  have hmoving : Exec (Moving c) World.Expires (arrived (server c marshals) requests w) tr cfg :=
    h.restrict fun i e he => by
      have hguar := ((run_settles hw h).2 i e he).2
      exact ⟨hguar.1, hguar.2.1⟩
  have hstep : ∀ op w r w', Moving c op w r w' → (granting c).step op w.data r w'.data :=
    fun _ _ _ _ hs => ⟨hs.1.data, hs.2⟩
  have hsound := Exec.sound (S := fun _ => (granting c).comap World.data (Moving c))
    (Q := fun _ o s => Answered c o (s.1.data, s.2.map (Event.map World.data)))
    (fun _ _ _ _ _ hs => hs)
    (fun _ _ _ he => ⟨expires_rely none he, fun hd => hd.expires he⟩)
    (fun _ _ _ _ _ _ _ hs hguar => ⟨hs.2, hguar⟩) ?_ ?_ hmoving
  · exact hsound.1 i
  · rintro i o ⟨w₁, t₁⟩ ⟨w₂, t₂⟩ ⟨hr, ht⟩ hs
    dsimp only at ht
    subst ht
    exact answered_stable o (w₁.data, t₂.map (Event.map World.data)) _ ⟨hr, rfl⟩ hs
  · intro i
    exact Setting.wp_traced_comap hstep (request_granting (hlogin i) hw hcached)

/-- In a run of logins from a state with nothing to repair, in which a login finds an account
only once the account owns its grant, every account that a login has answered for owns it. -/
theorem granted_of_run (hlogin : ∀ i, (requests i).raw.LogsIn) (hw : w.data.Sound c)
    (hcached : CacheKeyed w.data)
    (h : Exec World.Step World.Expires (arrived (server c marshals) requests w) tr cfg)
    (hfound : ∀ i e uid, .act i e ∈ tr → Finds uid e → Granted c e.before.data uid) :
    ∀ i rep uid, cfg.procs i = .ret rep → Accepts rep uid → Granted c cfg.world.data uid := by
  intro i rep uid hend hrep
  have hwp := run_answered hlogin hw hcached h i
  rw [hend] at hwp
  rcases hwp rep uid rfl hrep with hgranted | ⟨e, he, hfinds⟩
  · exact hgranted
  · obtain ⟨e', he', rfl⟩ := List.mem_map.mp he
    have hevent : Finds uid e' := by
      obtain ⟨op, r, before, after⟩ := e'
      obtain ⟨db, channel, _, _, hsame⟩ := hfinds
      cases hsame
      exact ⟨db, channel, before, after, rfl⟩
    have hact := mem_own.mp he'
    have hgranted := hfound i e' uid hact hevent
    have hmoved := ((run_settles hw h).2 i e' hact).2.1
    obtain ⟨t₁, t₂, rfl⟩ := List.append_of_mem hact
    exact (hgranted.grows hmoved).grows (grows_from hw h)

end

/-! ## A login whose grant is lost -/

def logins : Bool → Incoming := fun _ => Sample.loginRequest 0 77 "a"

def twice (commitFails : Bool) : List (Occurrence Bool Op.Resp World) ×
    Config Bool Op.Resp UnitOfWork Reply World :=
  play World.exec
    (List.replicate 30 (.act false
        { key := fun k => UInt64.ofNat (k + 1), token := "s", commitFails := commitFails }) ++
      List.replicate 30 (.act true { key := fun k => UInt64.ofNat (k + 9), token := "t" }))
    (arrived Sample.servers logins Sample.emptyWorld)

theorem exec_twice (commitFails : Bool) : Exec World.Step World.Expires
    (arrived Sample.servers logins Sample.emptyWorld) (twice commitFails).1
      (twice commitFails).2 := by
  apply exec_play
  intro f hf
  simp at hf

def acceptedID : Call UnitOfWork Reply → Option UInt64
  | .ret rep =>
    match rep.response.body with
    | .message (.login res) => if rep.response.code = codeOK then some res.userId else none
    | _ => none
  | _ => none

theorem accepts_of_acceptedID {p : Call UnitOfWork Reply} {uid : UInt64}
    (h : acceptedID p = some uid) : ∃ rep, p = .ret rep ∧ Accepts rep uid := by
  cases p with
  | ret rep =>
    simp only [acceptedID] at h
    split at h
    · rename_i res hbody
      split_ifs at h with hcode
      exact ⟨rep, rfl, hcode, res, hbody, Option.some.inj h⟩
    · cases h
  | raise u => cases h
  | call op k => cases h

def foundID : (op : Op) → op.Resp → Option UInt64
  | .findUserID _ _, some (some uid) => some uid
  | _, _ => none

theorem foundID_of_finds {uid : UInt64} {e : Event Op.Resp World} (h : Finds uid e) :
    foundID e.op e.resp = some uid := by
  obtain ⟨db, channel, before, after, rfl⟩ := h
  rfl

theorem granted_of_run_twice :
    ∃ rep, (twice false).2.procs true = .ret rep ∧ Accepts rep 1 ∧
      Granted Sample.container (twice false).2.world.data 1 := by
  have hlookups : ((twice false).1.all fun
      | .act _ e => (foundID e.op e.resp).all fun uid =>
          decide (Granted Sample.container e.before.data uid)
      | .env _ _ => true) = true := by decide +kernel
  have hlogin : ∀ i, (logins i).raw.LogsIn := fun _ => rfl
  have hid : acceptedID ((twice false).2.procs true) = some 1 := by decide +kernel
  obtain ⟨rep, hrep, haccepts⟩ := accepts_of_acceptedID hid
  refine ⟨rep, hrep, haccepts, ?_⟩
  refine granted_of_run hlogin sound_empty (fun id e v hv => ?_) (exec_twice false) ?_ true rep 1
    hrep haccepts
  · cases hv
  · intro i e uid he hfinds
    have hall := List.all_eq_true.mp hlookups _ he
    dsimp only at hall
    rw [foundID_of_finds hfinds] at hall
    exact of_decide_eq_true hall

/-- The commit of the first login fails; the second finds the account and is answered. -/
theorem grant_lost :
    ∃ tr cfg rep, Exec World.Step World.Expires
        (arrived Sample.servers logins Sample.emptyWorld) tr cfg ∧
      cfg.procs true = .ret rep ∧ Accepts rep 1 ∧
        ¬ Granted Sample.container cfg.world.data 1 := by
  have hid : acceptedID ((twice true).2.procs true) = some 1 := by decide +kernel
  have hlost : ¬ Granted Sample.container (twice true).2.world.data 1 := by decide +kernel
  obtain ⟨rep, hrep, haccepts⟩ := accepts_of_acceptedID hid
  exact ⟨_, _, rep, exec_twice true, hrep, haccepts, hlost⟩

end FutureWas.InitialGrant
