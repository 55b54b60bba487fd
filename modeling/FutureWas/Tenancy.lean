import FutureWas.ServiceRules

/-!
# Tenancy

Every cached field and every model a request has loaded is a copy, possibly out of date, of
rows of one user: it carries the primary keys and the other unchanging columns of rows that
the routed databases hold for that user (`Data.Known`). `Data.Sound` says so of the caches.

`tenant c uid` is the setting of a request while it acts for the user `uid`: other requests
add rows and change the changing columns, nothing else (`Data.Grows`), and the request itself
touches only rows and the cache key of `uid` (`Change`). `Holds` is what it maintains between
its calls, through every loader, writer and commit.
-/

set_option autoImplicit false

namespace FutureWas

open Effect UowM Uow

variable {e : EntityKind}

/-! ## Rows that grow -/

namespace Row

@[simp] theorem primaryKey_static (m : Row e) : m.static.primaryKey = m.primaryKey := by
  cases e <;> rfl

@[simp] theorem ownerID_static (m : Row e) : m.static.ownerID = m.ownerID := by
  cases e <;> rfl

theorem primaryKey_eq {m m' : Row e} (h : m'.static = m.static) :
    m'.primaryKey = m.primaryKey := by
  rw [← primaryKey_static, h, primaryKey_static]

theorem ownerID_eq {m m' : Row e} (h : m'.static = m.static) : m'.ownerID = m.ownerID := by
  rw [← ownerID_static, h, ownerID_static]

theorem shard_eq {a a' : Account}
    (h : Row.static (e := .account) a' = Row.static (e := .account) a) :
    a'.dbShardID = a.dbShardID := by
  have hstatic : Account.dbShardID (Row.static (e := .account) a') =
      Account.dbShardID (Row.static (e := .account) a) := by rw [h]
  exact hstatic

end Row

structure Tables.Keyed (t : Tables) : Prop where
  nodup : ∀ e, ((t e).map Row.primaryKey).Nodup
  ne_zero : ∀ e, ∀ m ∈ t e, m.primaryKey ≠ 0

def Tables.others (t : Tables) (uid : UInt64) (e : EntityKind) : List (Row e) :=
  (t e).filter fun m => ¬ (e.owner = .user ∧ m.ownerID = uid)

namespace Data

/-- Rows are only added, and their unchanging columns stay. -/
def Grows (d d' : Data) : Prop :=
  ∀ db e, ((d.db db) e).map Row.static <+: ((d'.db db) e).map Row.static

variable (c : Container) (d : Data) (uid : UInt64)

def HasAccount : Prop := ∃ a ∈ (d.db c.gameDB) .account, Account.userID a = uid

/-- A model of the user: without a key yet, or a copy of a row, up to the changing columns. -/
def Known (m : Row e) : Prop :=
  m.ownerID = uid ∧ (m.primaryKey = 0 ∨
    ∃ db, d.routed c uid e = some db ∧ m.static ∈ ((d.db db) e).map Row.static)

def Belongs (v : Cached e) : Prop :=
  e.owner = .user ∧ d.HasAccount c uid ∧ ∀ m ∈ v.rows, d.Known c uid m

structure Sound : Prop where
  keyed : ∀ db, (d.db db).Keyed
  cached : ∀ id e v, d.cache .user id e = some v → d.Belongs c id v

end Data

namespace Data.Grows

variable {c : Container} {d d' d'' : Data} {uid : UInt64}

theorem refl (d : Data) : d.Grows d := fun _ _ => List.prefix_refl _

theorem trans (h : d.Grows d') (h' : d'.Grows d'') : d.Grows d'' :=
  fun db e => (h db e).trans (h' db e)

theorem of_db (h : d'.db = d.db) : d.Grows d' := by
  intro db e
  rw [h]

theorem find (h : d.Grows d') {db : DbId} {p : Row e → Bool}
    (hp : ∀ m, p m.static = p m) {m : Row e} (hm : ((d.db db) e).find? p = some m) :
    ∃ m', ((d'.db db) e).find? p = some m' ∧ m'.static = m.static := by
  have hcomp : p ∘ Row.static = p := funext hp
  have hstatic : (((d.db db) e).map Row.static).find? p = some m.static := by
    rw [List.find?_map, hcomp, hm]
    rfl
  have hlater := (h db e).find?_eq_some hstatic
  rw [List.find?_map, hcomp] at hlater
  exact Option.map_eq_some_iff.mp hlater

theorem mem (h : d.Grows d') {db : DbId} {m : Row e}
    (hm : m ∈ ((d.db db) e).map Row.static) : m ∈ ((d'.db db) e).map Row.static :=
  (h db e).subset hm

theorem hasAccount (h : d.Grows d') (ha : d.HasAccount c uid) : d'.HasAccount c uid := by
  obtain ⟨a, ha, hid⟩ := ha
  obtain ⟨a', ha', hstatic⟩ := List.mem_map.mp (h.mem (List.mem_map_of_mem (f := Row.static) ha))
  refine ⟨a', ha', ?_⟩
  rw [← hid]
  exact Row.primaryKey_eq hstatic

theorem accountOf (h : d.Grows d') {a : Account} (ha : d.accountOf c uid = some a) :
    ∃ a', d'.accountOf c uid = some a' ∧
      Row.static (e := .account) a' = Row.static (e := .account) a :=
  @Grows.find .account d d' h c.gameDB (fun m => Account.userID m = uid) (fun _ => rfl) a ha

theorem routed (h : d.Grows d') {db : DbId} (hdb : d.routed c uid e = some db) :
    d'.routed c uid e = some db := by
  by_cases he : e.isGameDB = true
  · rw [routed_gameDB uid he] at hdb ⊢
    exact hdb
  · simp only [Data.routed, he] at hdb ⊢
    obtain ⟨a, ha, hshard⟩ := Option.bind_eq_some_iff.mp hdb
    obtain ⟨a', ha', hstatic⟩ := h.accountOf ha
    refine Option.bind_eq_some_iff.mpr ⟨a', ha', ?_⟩
    rw [Row.shard_eq hstatic]
    exact hshard

theorem known (h : d.Grows d') {m : Row e} (hm : d.Known c uid m) : d'.Known c uid m := by
  obtain ⟨howner, hkey⟩ := hm
  refine ⟨howner, hkey.imp_right ?_⟩
  intro hrow
  obtain ⟨db, hdb, hmem⟩ := hrow
  exact ⟨db, h.routed hdb, h.mem hmem⟩

theorem belongs (h : d.Grows d') {v : Cached e} (hv : d.Belongs c uid v) :
    d'.Belongs c uid v :=
  ⟨hv.1, h.hasAccount hv.2.1, fun m hm => h.known (hv.2.2 m hm)⟩

end Data.Grows

namespace Data

variable {c : Container} {d d' : Data} {uid : UInt64}

theorem Known.congr {m m' : Row e} (h : m'.static = m.static) (hm : d.Known c uid m) :
    d.Known c uid m' := by
  refine ⟨(Row.ownerID_eq h).trans hm.1, ?_⟩
  rw [Row.primaryKey_eq h, h]
  exact hm.2

theorem Known.row {m : Row e} (hm : d.Known c uid m) (hkey : m.primaryKey ≠ 0) {db : DbId}
    (hdb : d.routed c uid e = some db) : m.static ∈ ((d.db db) e).map Row.static := by
  obtain ⟨db', hdb', hmem⟩ := hm.2.resolve_left hkey
  rw [hdb] at hdb'
  cases hdb'
  exact hmem

theorem known_of_select {db : DbId} (hdb : d.routed c uid e = some db) {m : Row e}
    (hm : m ∈ (d.db db).select e uid) : d.Known c uid m := by
  obtain ⟨hmem, howner⟩ := List.mem_filter.mp hm
  refine ⟨of_decide_eq_true howner, Or.inr ⟨db, hdb, ?_⟩⟩
  exact List.mem_map_of_mem hmem

theorem hasAccount_of_routed {db : DbId} (he : e.isGameDB = false)
    (hdb : d.routed c uid e = some db) : d.HasAccount c uid := by
  simp only [routed, he] at hdb
  obtain ⟨a, ha, -⟩ := Option.bind_eq_some_iff.mp hdb
  exact ⟨a, mem_of_accountOf ha⟩

theorem Sound.ne_zero (hd : d.Sound c) (ha : d.HasAccount c uid) : uid ≠ 0 := by
  obtain ⟨a, ha, rfl⟩ := ha
  exact (hd.keyed c.gameDB).ne_zero .account a ha

theorem Sound.accountOf_eq (hd : d.Sound c) {a : Account} (ha : a ∈ (d.db c.gameDB) .account)
    (hid : a.userID = uid) : d.accountOf c uid = some a := by
  have hsome : (d.accountOf c uid).isSome := List.find?_isSome.mpr ⟨a, ha, decide_eq_true hid⟩
  obtain ⟨a', ha'⟩ := Option.isSome_iff_exists.mp hsome
  obtain ⟨hmem, hid'⟩ := mem_of_accountOf ha'
  have hkeys := (hd.keyed c.gameDB).nodup .account
  rw [ha', List.inj_on_of_nodup_map hkeys hmem ha (hid'.trans hid.symm)]

theorem Sound.accountOf_known (hd : d.Sound c) {m : Account}
    (hm : Known (e := .account) c d uid m) (ha : d.HasAccount c uid) :
    ∃ a, d.accountOf c uid = some a ∧
      Row.static (e := .account) m = Row.static (e := .account) a := by
  have hkey : Row.primaryKey (e := .account) m ≠ 0 := by
    have hzero := hd.ne_zero ha
    rw [← hm.1] at hzero
    exact hzero
  obtain ⟨a, ha, hstatic⟩ := List.mem_map.mp (hm.row hkey (routed_gameDB uid rfl))
  exact ⟨a, hd.accountOf_eq ha ((Row.ownerID_eq hstatic).trans hm.1), hstatic.symm⟩

theorem routed_of_accounts
    (h : ((d'.db c.gameDB) .account).map Row.static = ((d.db c.gameDB) .account).map Row.static) :
    d'.routed c uid e = d.routed c uid e := by
  have hshard : ∀ d : Data, (d.accountOf c uid).map Account.dbShardID =
      ((((d.db c.gameDB) .account).map Row.static).find? fun m => Account.userID m = uid).map
        fun m => Account.dbShardID m := by
    intro d
    rw [List.find?_map, Option.map_map]
    rfl
  have hbind : ∀ d : Data, ((d.accountOf c uid).bind fun a => c.shards.getShard a.dbShardID) =
      ((d.accountOf c uid).map Account.dbShardID).bind c.shards.getShard := by
    intro d
    rw [Option.bind_map]
    rfl
  unfold routed
  rw [hbind, hbind, hshard, hshard, h]

end Data

/-! ## What a request changes -/

structure ConfinedTo (uid : UInt64) (d d' : Data) : Prop where
  others : ∀ db e, (d'.db db).others uid e = (d.db db).others uid e
  keys : ∀ o id, o ≠ .user ∨ id ≠ uid → d'.cache o id = d.cache o id

/-- A change for one user by a request: rows are only added, and no account. -/
structure Change (c : Container) (uid : UInt64) (d d' : Data) : Prop
    extends ConfinedTo uid d d' where
  grows : d.Grows d'
  sound : d.Sound c → d'.Sound c
  accounts : ((d'.db c.gameDB) .account).map Row.static =
    ((d.db c.gameDB) .account).map Row.static

namespace Change

variable {c : Container} {uid : UInt64} {d d' d'' : Data}

theorem refl (d : Data) : Change c uid d d :=
  ⟨⟨fun _ _ => rfl, fun _ _ _ => rfl⟩, .refl d, id, rfl⟩

theorem trans (h : Change c uid d d') (h' : Change c uid d' d'') : Change c uid d d'' where
  grows := h.grows.trans h'.grows
  sound := fun hd => h'.sound (h.sound hd)
  others := fun db e => (h'.others db e).trans (h.others db e)
  keys := fun o id ho => (h'.keys o id ho).trans (h.keys o id ho)
  accounts := h'.accounts.trans h.accounts

theorem of_eq (h : d' = d) : Change c uid d d' := by
  subst h
  exact refl d'

theorem setCache (fs : Fields) (hfs : ∀ e v, fs e = some v →
    d.cache .user uid e = some v ∨ d.Belongs c uid v) :
    Change c uid d (d.setCache .user uid fs) where
  grows := .of_db rfl
  others := fun _ _ => rfl
  accounts := rfl
  keys := fun o id h => Data.setCache_cache_of_ne h fs
  sound := by
    intro hd
    refine ⟨hd.keyed, ?_⟩
    intro id e v hv
    have hsame : (d.setCache .user uid fs).db = d.db := rfl
    have hbelongs : d.Belongs c id v := by
      by_cases hid : id = uid
      · subst hid
        rw [Data.setCache_cache_self] at hv
        exact (hfs e v hv).elim (hd.cached id e v) fun h => h
      · rw [Data.setCache_cache_of_ne (Or.inr hid)] at hv
        exact hd.cached id e v hv
    exact (Data.Grows.of_db hsame).belongs hbelongs

theorem hset {fs : Fields} (hfs : ∀ e v, fs e = some v → d.Belongs c uid v) :
    Change c uid d (d.setCache .user uid ((d.cache .user uid).hset fs)) := by
  refine setCache _ fun e v hv => ?_
  rcases Option.or_eq_some_iff.mp hv with hnew | ⟨-, hold⟩
  · exact Or.inr (hfs e v hnew)
  · exact Or.inl hold

end Change

theorem Data.Sound.expire {c : Container} {d : Data} (hd : d.Sound c) (o : Owner) (id : UInt64) :
    (d.setCache o id Fields.none).Sound c := by
  cases o with
  | user => exact (@Change.setCache c id d Fields.none (by simp [Fields.none])).sound hd
  | club =>
    have hgrow : d.Grows (d.setCache .club id Fields.none) := .of_db rfl
    refine ⟨hd.keyed, fun id' e v hv => hgrow.belongs (hd.cached id' e v ?_)⟩
    rw [Data.setCache_cache_of_ne (Or.inl (by decide))] at hv
    exact hv

/-! ### Statements -/

namespace Tables

variable {t : Tables} {uid : UInt64}

theorem filter_map_of_dropped {α : Type} {p : α → Bool} {f : α → α} {l : List α}
    (h : ∀ a ∈ l, f a = a ∨ (p a = false ∧ p (f a) = false)) :
    (l.map f).filter p = l.filter p := by
  induction l with
  | nil => rfl
  | cons a l ih =>
    have ih := ih fun a ha => h a (List.mem_cons_of_mem _ ha)
    rcases h a List.mem_cons_self with ha | ⟨ha, hfa⟩
    · rw [List.map_cons, ha, List.filter_cons, List.filter_cons, ih]
    · simp [ha, hfa, ih]

theorem Keyed.update_static (ht : t.Keyed) {m : Row e}
    (hm : m.primaryKey = 0 ∨ m.static ∈ (t e).map Row.static) {row : Row e} (hrow : row ∈ t e)
    (hkey : row.primaryKey = m.primaryKey) : m.static = row.static := by
  rcases hm with hzero | hmem
  · exact absurd (hkey.trans hzero) (ht.ne_zero e row hrow)
  · obtain ⟨row', hrow', hstatic⟩ := List.mem_map.mp hmem
    have hkeys : row'.primaryKey = row.primaryKey := (Row.primaryKey_eq hstatic).trans hkey.symm
    rw [← hstatic, List.inj_on_of_nodup_map (ht.nodup e) hrow' hrow hkeys]

theorem Keyed.insert (ht : t.Keyed) {m : Row e} {k : UInt64} (hk : t.Fresh e k) :
    (t.insert e (m.setPrimaryKey k)).Keyed where
  nodup := by
    intro e'
    by_cases he : e' = e
    · subst he
      have hnew : k ∉ (t e').map Row.primaryKey := by
        intro hmem
        obtain ⟨row, hrow, hkey⟩ := List.mem_map.mp hmem
        exact hk.2 row hrow hkey
      rw [insert_self, List.map_append, List.map_singleton, Row.primaryKey_setPrimaryKey]
      exact List.nodup_append.mpr ⟨ht.nodup e', List.nodup_singleton k, by
        intro a ha b hb
        rw [List.mem_singleton.mp hb]
        rintro rfl
        exact hnew ha⟩
    · rw [insert_of_ne _ he]
      exact ht.nodup e'
  ne_zero := by
    intro e' row hrow
    by_cases he : e' = e
    · subst he
      rw [insert_self] at hrow
      rcases List.mem_append.mp hrow with hrow | hrow
      · exact ht.ne_zero e' row hrow
      · rw [List.mem_singleton.mp hrow, Row.primaryKey_setPrimaryKey]
        exact hk.1
    · rw [insert_of_ne _ he] at hrow
      exact ht.ne_zero e' row hrow

theorem Keyed.update_map_static (ht : t.Keyed) {m : Row e}
    (hm : m.primaryKey = 0 ∨ m.static ∈ (t e).map Row.static) (e' : EntityKind) :
    ((t.update e m) e').map Row.static = (t e').map Row.static := by
  by_cases he : e' = e
  · subst he
    rw [update_self, List.map_map]
    apply List.map_congr_left
    intro row hrow
    by_cases hkey : row.primaryKey = m.primaryKey
    · simp [hkey, ht.update_static hm hrow hkey]
    · simp [hkey]
  · rw [update_of_ne _ he]

theorem Keyed.of_map_static {t' : Tables} (ht : t.Keyed)
    (h : ∀ e, (t' e).map Row.static = (t e).map Row.static) : t'.Keyed := by
  have hkeys : ∀ e, (t' e).map Row.primaryKey = (t e).map Row.primaryKey := by
    intro e
    have hfactor : ∀ l : List (Row e), l.map Row.primaryKey =
        (l.map Row.static).map Row.primaryKey := by
      intro l
      simp
    rw [hfactor, h e, ← hfactor]
  refine ⟨fun e => ?_, fun e row hrow => ?_⟩
  · rw [hkeys e]
    exact ht.nodup e
  · have hmem : row.primaryKey ∈ (t e).map Row.primaryKey := by
      rw [← hkeys e]
      exact List.mem_map_of_mem hrow
    obtain ⟨row', hrow', hkey⟩ := List.mem_map.mp hmem
    rw [← hkey]
    exact ht.ne_zero e row' hrow'

theorem prefix_insert {m : Row e} (e' : EntityKind) :
    (t e').map Row.static <+: ((t.insert e m) e').map Row.static := by
  by_cases hkind : e' = e
  · subst hkind
    rw [insert_self, List.map_append]
    exact List.prefix_append _ _
  · rw [insert_of_ne _ hkind]

theorem others_insert {m : Row e} (he : e.owner = .user) (hm : m.ownerID = uid)
    (e' : EntityKind) : (t.insert e m).others uid e' = t.others uid e' := by
  by_cases hkind : e' = e
  · subst hkind
    simp [others, he, hm]
  · simp [others, insert_of_ne _ hkind]

theorem Keyed.others_update (ht : t.Keyed) {m : Row e} (he : e.owner = .user)
    (howner : m.ownerID = uid) (hm : m.primaryKey = 0 ∨ m.static ∈ (t e).map Row.static)
    (e' : EntityKind) : (t.update e m).others uid e' = t.others uid e' := by
  by_cases hkind : e' = e
  · subst hkind
    rw [others, update_self]
    apply filter_map_of_dropped
    intro row hrow
    by_cases hkey : row.primaryKey = m.primaryKey
    · have hsame := Row.ownerID_eq (ht.update_static hm hrow hkey)
      exact Or.inr (by simp [hkey, he, howner, ← hsame])
    · exact Or.inl (by simp [hkey])
  · simp [others, update_of_ne _ hkind]

end Tables

section

variable {c : Container} {uid : UInt64} {d : Data} {db : DbId} {t : Tables}

theorem Data.setDb_db (db' : DbId) :
    (d.setDb db t).db db' = if db' = db then t else d.db db' := by
  by_cases h : db' = db
  · subst h
    simp
  · rw [Data.setDb_db_of_ne h, if_neg h]

theorem Data.grows_setDb (h : ∀ e, ((d.db db) e).map Row.static <+: (t e).map Row.static) :
    d.Grows (d.setDb db t) := by
  intro db' e
  rw [Data.setDb_db]
  split_ifs with hdb
  · subst hdb
    exact h e
  · exact List.prefix_refl _

theorem Data.Sound.setDb (hd : d.Sound c) (hgrow : d.Grows (d.setDb db t)) (ht : t.Keyed) :
    (d.setDb db t).Sound c := by
  refine ⟨fun db' => ?_, fun id e v hv => hgrow.belongs (hd.cached id e v hv)⟩
  rw [Data.setDb_db]
  split_ifs with hdb
  · exact ht
  · exact hd.keyed db'

theorem ConfinedTo.setDb (h : ∀ e, t.others uid e = (d.db db).others uid e) :
    ConfinedTo uid d (d.setDb db t) := by
  refine ⟨fun db' e => ?_, fun _ _ _ => rfl⟩
  rw [Data.setDb_db]
  split_ifs with hdb
  · subst hdb
    exact h e
  · rfl

end

namespace Change

variable {c : Container} {uid : UInt64} {d : Data} {db : DbId}

theorem setDb {t : Tables} (hgrows : ∀ e, ((d.db db) e).map Row.static <+: (t e).map Row.static)
    (hkeyed : (d.db db).Keyed → t.Keyed) (hothers : ∀ e, t.others uid e = (d.db db).others uid e)
    (haccounts : (t .account).map Row.static = ((d.db db) .account).map Row.static) :
    Change c uid d (d.setDb db t) := by
  have hgrow := Data.grows_setDb hgrows
  refine ⟨.setDb hothers, hgrow, fun hd => hd.setDb hgrow (hkeyed (hd.keyed db)), ?_⟩
  rw [Data.setDb_db]
  split_ifs with h
  · rw [h]
    exact haccounts
  · rfl

theorem insert {m : Row e} {k : UInt64} (he : e.owner = .user) (hacc : e ≠ .account)
    (hm : m.ownerID = uid) (hk : (d.db db).Fresh e k) :
    Change c uid d (d.setDb db ((d.db db).insert e (m.setPrimaryKey k))) := by
  refine setDb (fun e' => ?_) (fun ht => ht.insert hk) (fun e' => ?_) ?_
  · exact Tables.prefix_insert e'
  · exact Tables.others_insert he ((Row.ownerID_setPrimaryKey hacc k m).trans hm) e'
  · rw [Tables.insert_of_ne _ (Ne.symm hacc)]

theorem update {m : Row e} (he : e.owner = .user) (hd : d.Sound c) (hm : d.Known c uid m)
    (hdb : d.routed c uid e = some db) :
    Change c uid d (d.setDb db ((d.db db).update e m)) := by
  have hrow : m.primaryKey = 0 ∨ m.static ∈ ((d.db db) e).map Row.static :=
    or_iff_not_imp_left.mpr fun hkey => hm.row hkey hdb
  have hstatic := (hd.keyed db).update_map_static hrow
  refine setDb (fun e' => ?_) (fun ht => ht.of_map_static hstatic) (fun e' => ?_) (hstatic _)
  · rw [hstatic e']
  · exact (hd.keyed db).others_update he hm.1 hrow e'

end Change

/-! ## The setting of a request -/

def Stmt.Allowed (creates : Bool) : Stmt → Prop
  | .insert e _ => creates = true ∧ e ≠ .account
  | .update _ _ => True

structure Stmt.Fits (c : Container) (uid : UInt64) (creates : Bool) (d : Data) (db : DbId)
    (h : Heap) (s : Stmt) : Prop where
  owner : s.kind.owner = .user
  routed : d.routed c uid s.kind = some db
  known : d.Known c uid (h.cell s.kind s.ref)
  allowed : s.Allowed creates

theorem change_of_stmtRun {c : Container} {uid : UInt64} {creates : Bool} {db : DbId}
    {ops : List Stmt} {t t' : Tables} {h h' : Heap} (hrun : StmtRun ops t h t' h') :
    ∀ d : Data, d.db db = t → d.Sound c → (∀ s ∈ ops, s.Fits c uid creates d db h) →
      Change c uid d (d.setDb db t') ∧ h'.next = h.next ∧
        ∀ e r, d.Known c uid (h.cell e r) → (d.setDb db t').Known c uid (h'.cell e r) := by
  induction hrun with
  | nil =>
    intro d ht _ _
    subst ht
    rw [Data.setDb_same]
    exact ⟨.refl d, rfl, fun _ _ hm => hm⟩
  | @insert e r ops t h t' h' k hk _ ih =>
    intro d ht hd hops
    subst ht
    have hs := hops _ List.mem_cons_self
    let m := (h.cell e r).setPrimaryKey k
    have howner : m.ownerID = uid := (Row.ownerID_setPrimaryKey hs.allowed.2 k _).trans hs.known.1
    have hchange : Change c uid d (d.setDb db ((d.db db).insert e m)) :=
      Change.insert hs.owner hs.allowed.2 hs.known.1 hk.1
    have hdb : (d.setDb db ((d.db db).insert e m)).db db = (d.db db).insert e m :=
      Data.setDb_db_self db _
    have hnew : (d.setDb db ((d.db db).insert e m)).Known c uid m := by
      refine ⟨howner, Or.inr ⟨db, hchange.grows.routed hs.routed, ?_⟩⟩
      rw [hdb, Tables.insert_self]
      exact List.mem_map_of_mem (by simp)
    have hcells : ∀ e' r', d.Known c uid (h.cell e' r') →
        (d.setDb db ((d.db db).insert e m)).Known c uid ((h.set e r m).cell e' r') := by
      intro e' r' hm
      by_cases hkind : e' = e
      · subst hkind
        by_cases hr : r' = r
        · subst hr
          rw [Heap.set_cell_self]
          exact hnew
        · rw [Heap.set_cell_of_ne _ _ hr]
          exact hchange.grows.known hm
      · rw [Heap.set_cell_kind _ hkind]
        exact hchange.grows.known hm
    have hrest := ih (d.setDb db ((d.db db).insert e m)) hdb (hchange.sound hd) fun s hmem => by
      have hs' := hops s (List.mem_cons_of_mem _ hmem)
      exact ⟨hs'.owner, hchange.grows.routed hs'.routed, hcells _ _ hs'.known, hs'.allowed⟩
    rw [Data.setDb_setDb] at hrest
    exact ⟨hchange.trans hrest.1, hrest.2.1, fun e' r' hm => hrest.2.2 e' r' (hcells e' r' hm)⟩
  | @update e r ops t h t' h' _ _ ih =>
    intro d ht hd hops
    subst ht
    have hs := hops _ List.mem_cons_self
    have hchange := Change.update hs.owner hd hs.known hs.routed
    have hrest := ih (d.setDb db ((d.db db).update e (h.cell e r))) (Data.setDb_db_self db _)
      (hchange.sound hd) fun s hmem => by
        have hs' := hops s (List.mem_cons_of_mem _ hmem)
        exact ⟨hs'.owner, hchange.grows.routed hs'.routed, hchange.grows.known hs'.known,
          hs'.allowed⟩
    rw [Data.setDb_setDb] at hrest
    exact ⟨hchange.trans hrest.1, hrest.2.1, fun e' r' hm =>
      hrest.2.2 e' r' (hchange.grows.known hm)⟩

theorem Data.moved_refl {c : Container} (d : Data) : d.Grows d ∧ (d.Sound c → d.Sound c) :=
  ⟨.refl d, id⟩

theorem Data.moved_trans {c : Container} {d d' d'' : Data}
    (h : d.Grows d' ∧ (d.Sound c → d'.Sound c)) (h' : d'.Grows d'' ∧ (d'.Sound c → d''.Sound c)) :
    d.Grows d'' ∧ (d.Sound c → d''.Sound c) :=
  ⟨h.1.trans h'.1, fun hd => h'.2 (h.2 hd)⟩

section

variable (c : Container) (uid : UInt64) (creates : Bool)

def MayIssue (d : Data) : Op → Prop
  | .select db e id => e.owner = .user ∧ id = uid ∧ d.routed c uid e = some db
  | .transaction db ops h => ∀ s ∈ ops, s.Fits c uid creates d db h
  | .cacheGet e id => e.owner = .user ∧ id = uid
  | .cacheSet _ id v => id = uid ∧ d.Belongs c uid v
  | .cacheSetMulti o id fs => o = .user ∧ id = uid ∧ ∀ e v, fs e = some v → d.Belongs c uid v
  | .cacheDeleteAll o id => o = .user ∧ id = uid
  | .sessionSet id _ => creates = true ∧ id = uid ∧ d.HasAccount c uid
  | .sessionVerify id _ => id = uid
  | .lockAcquire key _ | .lockRelease key _ => key = .user uid
  | .newToken | .lockWait | .now | .timeNow | .intN _ | .enter _ _ => True
  | .findUserID _ _ | .create _ _ _ => False

def tenant : Setting Op.Resp Data where
  step := Data.Step
  rely d d' := d.Grows d' ∧ (d.Sound c → d'.Sound c)
  guar _ _ d d' := Change c uid d d'
  pre op d := MayIssue c uid creates d op
  rely_refl d := Data.moved_refl d
  rely_trans h h' := Data.moved_trans h h'

/-- What holds of the unit of work between the calls of a request, while the statements `X`
are still to be queued. -/
structure Holds (X : List Stmt) (u : UnitOfWork) (d : Data) : Prop where
  user : u.userID = uid
  club : u.clubID = 0
  sound : d.Sound c
  stored : ∀ e s, u.store e = some s → e.owner = .user ∧ d.HasAccount c uid ∧
    ∀ r ∈ s.refs, r < u.heap.next ∧ d.Known c uid (u.heap.cell e r)
  queued : ∀ op ∈ u.dbOps, (∀ db, op.db = some db → d.routed c uid op.stmt.kind = some db) ∧
    u.Held op.stmt.kind op.stmt.ref ∧ op.stmt.Allowed creates
  pending : ∀ s ∈ X, u.Held s.kind s.ref ∧ s.Allowed creates

end

namespace Holds

variable {c : Container} {uid : UInt64} {creates : Bool} {X : List Stmt} {u : UnitOfWork}
  {d d' : Data}

theorem rely (h : Holds c uid creates X u d) (hr : (tenant c uid creates).rely d d') :
    Holds c uid creates X u d' where
  user := h.user
  club := h.club
  sound := hr.2 h.sound
  stored := by
    intro e s hs
    obtain ⟨howner, hacc, hrefs⟩ := h.stored e s hs
    exact ⟨howner, hr.1.hasAccount hacc, fun r hmem =>
      ⟨(hrefs r hmem).1, hr.1.known (hrefs r hmem).2⟩⟩
  queued := by
    intro op hop
    obtain ⟨hdb, hheld⟩ := h.queued op hop
    exact ⟨fun db hsome => hr.1.routed (hdb db hsome), hheld⟩
  pending := h.pending

theorem change (h : Holds c uid creates X u d) (hc : Change c uid d d') :
    Holds c uid creates X u d' :=
  h.rely ⟨hc.grows, hc.sound⟩

theorem held (h : Holds c uid creates X u d) {r : Ref} (hr : u.Held e r) :
    e.owner = .user ∧ d.HasAccount c uid ∧ r < u.heap.next ∧ d.Known c uid (u.heap.cell e r) := by
  obtain ⟨s, hs, hmem⟩ := hr
  obtain ⟨howner, hacc, hrefs⟩ := h.stored e s hs
  exact ⟨howner, hacc, hrefs r hmem⟩

theorem belongs (h : Holds c uid creates X u d) {s : Stored} (hs : u.store e = some s) :
    d.Belongs c uid (u.value e s) := by
  obtain ⟨howner, hacc, hrefs⟩ := h.stored e s hs
  refine ⟨howner, hacc, ?_⟩
  intro m hm
  cases s with
  | one r =>
    rw [List.mem_singleton.mp hm]
    exact (hrefs r (List.mem_singleton.mpr rfl)).2
  | many rs =>
    obtain ⟨r, hr, rfl⟩ := List.mem_map.mp hm
    exact (hrefs r hr).2

theorem routed (h : Holds c uid creates X u d) {db : DbId} (hdb : u.route c e = some db) :
    d.routed c uid e = some db := by
  by_cases he : e.isGameDB = true
  · rw [Data.routed_gameDB uid he]
    simpa [UnitOfWork.route, he] using hdb
  · simp only [UnitOfWork.route, he] at hdb
    cases hstore : u.store .account with
    | none => simp [hstore] at hdb
    | some s =>
      cases s with
      | many rs => simp [hstore] at hdb
      | one r =>
        obtain ⟨-, hacc, -, hknown⟩ := h.held ⟨.one r, hstore, List.mem_singleton.mpr rfl⟩
        obtain ⟨a, ha, hstatic⟩ := h.sound.accountOf_known hknown hacc
        simp only [hstore, Row.shard_eq hstatic] at hdb
        simp only [Data.routed, he, ha]
        exact hdb

/-! ### Steps of the unit of work -/

theorem loadedOne (h : Holds c uid creates X u d) {m : Row e} (hstore : u.store e = none)
    (hm : d.Belongs c uid (.one m)) : Holds c uid creates X (u.loadedOne e m) d := by
  have hkept := u.kept_of_loadedOne hstore m
  refine ⟨h.user, h.club, h.sound, ?_, ?_, fun s hs => ?_⟩
  · intro e' s hs
    by_cases he : e' = e
    · subst he
      rw [u.loadedOne_store] at hs
      cases hs
      refine ⟨hm.1, hm.2.1, ?_⟩
      intro r hr
      rw [List.mem_singleton.mp hr]
      have hcell : (u.loadedOne e' m).heap.cell e' u.heap.next = m := u.heap.alloc_cell_self e' m
      rw [hcell]
      exact ⟨Nat.lt_succ_self _, hm.2.2 m (List.mem_singleton.mpr rfl)⟩
    · rw [u.loadedOne_store_of_ne e m e' he] at hs
      obtain ⟨howner, hacc, hrefs⟩ := h.stored e' s hs
      refine ⟨howner, hacc, fun r hr => ?_⟩
      have hcell : (u.loadedOne e m).heap.cell e' r = u.heap.cell e' r :=
        u.heap.alloc_cell_of_lt e e' m (hrefs r hr).1
      rw [hcell]
      exact ⟨Nat.lt_succ_of_lt (hrefs r hr).1, (hrefs r hr).2⟩
  · intro op hop
    obtain ⟨hdb, hheld, hallowed⟩ := h.queued op hop
    exact ⟨hdb, hkept _ _ hheld, hallowed⟩
  · exact ⟨hkept _ _ (h.pending s hs).1, (h.pending s hs).2⟩

theorem loadedMany (h : Holds c uid creates X u d) {ms : List (Row e)} (hstore : u.store e = none)
    (hms : d.Belongs c uid (.many ms)) : Holds c uid creates X (u.loadedMany e ms) d := by
  have hkept := u.kept_of_loadedMany hstore ms
  have hnext : (u.loadedMany e ms).heap.next = u.heap.next + ms.length :=
    u.heap.allocMany_next e ms
  refine ⟨h.user, h.club, h.sound, ?_, ?_, fun s hs => ?_⟩
  · intro e' s hs
    by_cases he : e' = e
    · subst he
      rw [u.loadedMany_store] at hs
      cases hs
      refine ⟨hms.1, hms.2.1, ?_⟩
      intro r hr
      exact ⟨(u.heap.allocMany_lt e' ms hr).2, hms.2.2 _ (u.heap.allocMany_cell_mem e' ms hr)⟩
    · rw [u.loadedMany_store_of_ne e ms e' he] at hs
      obtain ⟨howner, hacc, hrefs⟩ := h.stored e' s hs
      refine ⟨howner, hacc, fun r hr => ?_⟩
      have hcell : (u.loadedMany e ms).heap.cell e' r = u.heap.cell e' r :=
        u.heap.allocMany_cell_of_lt e e' ms (hrefs r hr).1
      rw [hcell, hnext]
      exact ⟨Nat.lt_add_right _ (hrefs r hr).1, (hrefs r hr).2⟩
  · intro op hop
    obtain ⟨hdb, hheld, hallowed⟩ := h.queued op hop
    exact ⟨hdb, hkept _ _ hheld, hallowed⟩
  · exact ⟨hkept _ _ (h.pending s hs).1, (h.pending s hs).2⟩

theorem held_marked {r r' : Ref} {e' : EntityKind} :
    (u.marked e r).Held e' r' ↔ u.Held e' r' := by
  simp [UnitOfWork.Held]

theorem marked (h : Holds c uid creates X u d) {r : Ref} :
    Holds c uid creates X (u.marked e r) d where
  user := by simpa using h.user
  club := by simpa using h.club
  sound := h.sound
  stored := by simpa using h.stored
  queued := by simpa [held_marked] using h.queued
  pending := by simpa [held_marked] using h.pending

theorem changed (h : Holds c uid creates [] u d) {r : Ref} {f : Row e → Row e}
    (hr : u.Held e r) (hf : ∀ m : Row e, (f m).static = m.static) :
    Holds c uid creates [.update e r] (u.changed e r f) d := by
  refine ⟨h.user, h.club, h.sound, ?_, h.queued, ?_⟩
  · intro e' s hs
    obtain ⟨howner, hacc, hrefs⟩ := h.stored e' s hs
    refine ⟨howner, hacc, fun r' hr' => ?_⟩
    obtain ⟨hlt, hknown⟩ := hrefs r' hr'
    refine ⟨hlt, ?_⟩
    by_cases he : e' = e
    · subst he
      by_cases hrr : r' = r
      · subst hrr
        have hcell : (u.changed e' r' f).heap.cell e' r' = f (u.heap.cell e' r') :=
          Heap.set_cell_self _ _ _ _
        rw [hcell]
        exact hknown.congr (hf _)
      · have hcell : (u.changed e' r f).heap.cell e' r' = u.heap.cell e' r' :=
          Heap.set_cell_of_ne _ _ hrr _
        rwa [hcell]
    · have hcell : (u.changed e r f).heap.cell e' r' = u.heap.cell e' r' :=
        Heap.set_cell_kind _ he _ _ _
      rwa [hcell]
  · intro s hs
    rw [List.mem_singleton.mp hs]
    exact ⟨hr, trivial⟩

theorem extended (h : Holds c uid true [] u d) {rs : List Ref} {m : Row e}
    (he : e.owner = .user) (hlist : e.isSingleton = false) (hrs : u.store e = some (.many rs))
    (howner : m.ownerID = u.userID) (hkey : m.primaryKey = 0) :
    Holds c uid true [.insert e u.heap.next] (u.extended e rs m) d := by
  have hother : ∀ e' s, e' ≠ e →
      ((u.extended e rs m).store e' = some s ↔ u.store e' = some s) := by
    intro e' s hkind
    simp [UnitOfWork.extended, UnitOfWork.setStore_store_of_ne _ _ hkind]
  have hself : (u.extended e rs m).store e = some (.many (rs ++ [u.heap.next])) := by
    simp [UnitOfWork.extended]
  have hkept : u.Kept (u.extended e rs m) := by
    intro e' r hr
    obtain ⟨s, hs, hmem⟩ := hr
    by_cases hkind : e' = e
    · subst hkind
      rw [hrs] at hs
      cases hs
      exact ⟨_, hself, List.mem_append_left _ hmem⟩
    · exact ⟨s, (hother e' s hkind).mpr hs, hmem⟩
  have hcells : ∀ e' r, r < u.heap.next ∧ d.Known c uid (u.heap.cell e' r) →
      r < (u.extended e rs m).heap.next ∧
        d.Known c uid ((u.extended e rs m).heap.cell e' r) := by
    intro e' r hr
    have hcell : (u.extended e rs m).heap.cell e' r = u.heap.cell e' r :=
      u.heap.alloc_cell_of_lt e e' m hr.1
    rw [hcell]
    exact ⟨Nat.lt_succ_of_lt hr.1, hr.2⟩
  refine ⟨h.user, h.club, h.sound, ?_, ?_, ?_⟩
  · intro e' s hs
    by_cases hkind : e' = e
    · subst hkind
      rw [hself] at hs
      cases hs
      obtain ⟨-, hacc, hrefs⟩ := h.stored e' _ hrs
      refine ⟨he, hacc, fun r hr => ?_⟩
      rcases List.mem_append.mp hr with hr | hr
      · exact hcells e' r (hrefs r hr)
      · rw [List.mem_singleton.mp hr]
        have hcell : (u.extended e' rs m).heap.cell e' u.heap.next = m :=
          u.heap.alloc_cell_self e' m
        rw [hcell]
        exact ⟨Nat.lt_succ_self _, howner.trans h.user, Or.inl hkey⟩
    · obtain ⟨howner', hacc, hrefs⟩ := h.stored e' s ((hother e' s hkind).mp hs)
      exact ⟨howner', hacc, fun r hr => hcells e' r (hrefs r hr)⟩
  · intro op hop
    obtain ⟨hdb, hheld, hallowed⟩ := h.queued op hop
    exact ⟨hdb, hkept _ _ hheld, hallowed⟩
  · intro s hs
    rw [List.mem_singleton.mp hs]
    refine ⟨⟨_, hself, List.mem_append_right _ (List.mem_singleton.mpr rfl)⟩, rfl, ?_⟩
    rintro rfl
    cases hlist

theorem enqueue {s : Stmt} (h : Holds c uid creates [s] u d) :
    Holds c uid creates [] (u.enqueue (u.route c s.kind) s) d := by
  refine ⟨h.user, h.club, h.sound, h.stored, ?_, by simp⟩
  intro op hop
  rcases List.mem_append.mp hop with hop | hop
  · exact h.queued op hop
  · rw [List.mem_singleton.mp hop]
    exact ⟨fun db hdb => h.routed hdb, h.pending s (List.mem_singleton.mpr rfl)⟩

end Holds

theorem Uow.cachedOne_eq_some {r : Option (Option (Cached e))} {m : Row e} :
    cachedOne r = some m ↔ r = some (some (.one m)) := by
  rcases r with _ | _ | _ | _ <;> simp [cachedOne]

theorem Uow.cachedMany_eq_some {r : Option (Option (Cached e))} {ms : List (Row e)} :
    cachedMany r = some ms ↔ r = some (some (.many ms)) := by
  rcases r with _ | _ | _ | _ <;> simp [cachedMany]

theorem Fields.single_belongs {c : Container} {d : Data} {uid : UInt64} {v : Cached e}
    (hv : d.Belongs c uid v) {e' : EntityKind} {v' : Cached e'}
    (h : Fields.single e v e' = some v') : d.Belongs c uid v' := by
  by_cases he : e' = e
  · subst he
    have hsame : v = v' := by simpa [Fields.single] using h
    rwa [← hsame]
  · simp [Fields.single, Fields.none, Function.update_of_ne he] at h

section

variable {c : Container} {uid : UInt64} {creates : Bool}

theorem holds_closed : Closed c (tenant c uid creates) (Holds c uid creates)
    fun _ => Holds c uid creates where
  stable := fun X u d d' hr h => h.rely hr
  fresh_stable := fun e X u d d' hr h => h.rely hr
  now := fun h => ⟨trivial, fun r d' hs => ⟨.of_eq hs, h.change (.of_eq hs)⟩⟩
  cacheGet := by
    intro X u d e h he hid
    refine ⟨⟨he, h.user⟩, fun r d' hs => ?_⟩
    obtain ⟨rfl, hr⟩ := hs
    rw [he, h.user] at hr
    refine ⟨.refl d', h, fun hstore => ⟨fun m hm _ => ?_, fun ms hms _ => ?_⟩⟩
    · rw [cachedOne_eq_some] at hm
      subst hm
      have hcached : d'.cache .user uid e = some (.one m) := by simpa [eq_comm] using hr
      exact h.loadedOne hstore (h.sound.cached uid e _ hcached)
    · rw [cachedMany_eq_some] at hms
      subst hms
      have hcached : d'.cache .user uid e = some (.many ms) := by simpa [eq_comm] using hr
      exact h.loadedMany hstore (h.sound.cached uid e _ hcached)
  select := by
    intro X u d e db h he hid hstore hroute
    refine ⟨⟨he, h.user, h.routed hroute⟩, fun r d' hs => ?_⟩
    obtain ⟨rfl, hr⟩ := hs
    rw [h.user] at hr
    have hknown : ∀ m ∈ (d'.db db).select e uid, d'.Known c uid m :=
      fun m hm => Data.known_of_select (h.routed hroute) hm
    refine ⟨.refl d', h, fun m ms hms hone => ?_, fun ms hms hlist => ?_⟩
    · subst hms
      have hrows : (d'.db db).select e uid = m :: ms := by simpa [eq_comm] using hr
      have hmem : m ∈ (d'.db db).select e uid := by simp [hrows]
      obtain rfl := EntityKind.eq_account he hone
      refine h.loadedOne hstore ⟨rfl, ?_, fun m' hm' => ?_⟩
      · have hdb := h.routed hroute
        rw [Data.routed_gameDB uid rfl] at hdb
        cases hdb
        obtain ⟨hrow, howner⟩ := List.mem_filter.mp hmem
        exact ⟨m, hrow, of_decide_eq_true howner⟩
      · rw [List.mem_singleton.mp hm']
        exact hknown m hmem
    · subst hms
      have hrows : (d'.db db).select e uid = ms := by simpa [eq_comm] using hr
      have hgame := EntityKind.isGameDB_of_list he hlist
      rw [hrows] at hknown
      exact h.loadedMany hstore ⟨he, Data.hasAccount_of_routed hgame (h.routed hroute), hknown⟩
  fill := by
    intro X u d e s h he hid hs
    have hbelongs := h.belongs hs
    refine ⟨⟨h.user, hbelongs⟩, fun r d' hstep => ?_⟩
    have hchange : Change c uid d d' := by
      rcases hstep with ⟨-, rfl⟩ | ⟨-, rfl⟩
      · exact .refl d'
      · rw [he, h.user]
        exact .hset fun e' v hv => Fields.single_belongs hbelongs hv
    exact ⟨hchange, h.change hchange⟩
  change := fun h hr hf => (h.changed hr hf).marked
  queue := fun h => h.enqueue

theorem holds_extends : Extends (Holds c uid true) :=
  fun h he hlist hrs howner hkey => (h.extended he hlist hrs howner hkey).marked

theorem holds_signs : Signs (tenant c uid true) (Holds c uid true) where
  newToken := fun h _ => ⟨trivial, fun _ _ hs => ⟨.of_eq hs, h.change (.of_eq hs)⟩⟩
  sessionSet := by
    intro u d r token h hr
    obtain ⟨-, hacc, -, hknown⟩ := h.held hr
    exact ⟨⟨rfl, hknown.1, hacc⟩, fun _ _ hs => ⟨.of_eq hs, h.change (.of_eq hs)⟩⟩

/-! ## Commit -/

variable {u : UnitOfWork} {d : Data}

def EndsAs (uid : UInt64) (u : UnitOfWork) : Prop := u.userID = uid ∧ u.clubID = 0

theorem Holds.transact (h : Holds c uid creates [] u d) {db : DbId} {stmts : List Stmt}
    (hstmts : ∀ s ∈ stmts, (⟨some db, s⟩ : DbOp) ∈ u.dbOps) :
    (∀ s ∈ stmts, s.Fits c uid creates d db u.heap) ∧
      ∀ {t' h'}, StmtRun stmts (d.db db) u.heap t' h' → Change c uid d (d.setDb db t') ∧
        Holds c uid creates [] { u with heap := h' } (d.setDb db t') := by
  have hfits : ∀ s ∈ stmts, s.Fits c uid creates d db u.heap := by
    intro s hs
    obtain ⟨hdb, hheld, hallowed⟩ := h.queued _ (hstmts s hs)
    obtain ⟨howner, -, -, hknown⟩ := h.held hheld
    exact ⟨howner, hdb db rfl, hknown, hallowed⟩
  refine ⟨hfits, fun hrun => ?_⟩
  obtain ⟨hchange, hnext, hcells⟩ := change_of_stmtRun hrun d rfl h.sound hfits
  have hmoved := h.change hchange
  refine ⟨hchange, h.user, h.club, hmoved.sound, ?_, hmoved.queued, by simp⟩
  intro e s hs
  obtain ⟨howner, hacc, -⟩ := hmoved.stored e s hs
  obtain ⟨-, -, hrefs⟩ := h.stored e s hs
  refine ⟨howner, hacc, fun r hr => ⟨?_, hcells e r (hrefs r hr).2⟩⟩
  rw [hnext]
  exact (hrefs r hr).1

theorem commitGroups_wp (groups : List (Option DbId × List Stmt))
    (h : Holds c uid creates [] u d)
    (hgroups : ∀ g ∈ groups, ∀ s ∈ g.2, (⟨g.1, s⟩ : DbOp) ∈ u.dbOps) :
    UowM.wp (tenant c uid creates) (commitGroups groups)
      (fun r u' d' => EndsAs uid u' ∧ (r = .ok () → Holds c uid creates [] u' d'))
      (fun u' _ => EndsAs uid u') u d := by
  induction groups generalizing u d with
  | nil => exact ⟨⟨h.user, h.club⟩, fun _ => h⟩
  | cons g groups ih =>
    obtain ⟨_ | db, stmts⟩ := g
    · exact ⟨h.user, h.club⟩
    · refine wp_local rfl (wp_perform_bind (holds_closed.stable [] u) h ?_)
      intro d₁ h₁
      obtain ⟨hfits, htransact⟩ := h₁.transact (hgroups _ List.mem_cons_self)
      refine ⟨hfits, fun r d₂ hs => ?_⟩
      rcases hs with ⟨t', h', hrun, rfl, rfl⟩ | ⟨h', rfl, rfl⟩ | ⟨h', rfl, rfl⟩
      · obtain ⟨hchange, hmoved⟩ := htransact hrun
        refine ⟨hchange, ?_⟩
        have hset : setHeap h' u = .ret (.ok (), { u with heap := h' }) := rfl
        exact wp_local hset (ih hmoved fun g hg => hgroups g (List.mem_cons_of_mem _ hg))
      · exact ⟨.refl d₂, ⟨h₁.user, h₁.club⟩, by simp⟩
      · exact ⟨.refl d₂, h₁.user, h₁.club⟩

theorem runOps_wp (h : Holds c uid creates [] u d) :
    UowM.wp (tenant c uid creates) runOps
      (fun r u' d' => EndsAs uid u' ∧ (r = .ok () → Holds c uid creates [] u' d'))
      (fun u' _ => EndsAs uid u') u d := by
  refine wp_local rfl ?_
  by_cases hops : u.dbOps = []
  · rw [if_pos hops]
    exact ⟨⟨h.user, h.club⟩, fun _ => h⟩
  · rw [if_neg hops]
    refine wp_bind (wp_mono ?_ (fun _ _ h => h) (commitGroups_wp _ h fun g hg s => mem_groupOps hg))
    intro r u' d' hends
    cases r with
    | error err => exact ⟨hends.1, by simp⟩
    | ok _ =>
      have h' := hends.2 rfl
      exact ⟨hends.1, fun _ => ⟨h'.user, h'.club, h'.sound, h'.stored, by simp, by simp⟩⟩

theorem writeBack_wp {o : Owner} {context : String} (h : Holds c uid creates [] u d) :
    UowM.wp (tenant c uid creates) (writeBack o context)
      (fun r u' d' => EndsAs uid u' ∧ (r = .ok () → Holds c uid creates [] u' d'))
      (fun u' _ => EndsAs uid u') u d := by
  refine wp_local rfl ?_
  cases o with
  | club =>
    have hclub : ¬ (u.scopeID .club ≠ 0 ∧ u.holds .club) := fun hid => hid.1 h.club
    rw [if_neg hclub]
    exact ⟨⟨h.user, h.club⟩, fun _ => h⟩
  | user =>
    split_ifs with hid
    · refine wp_perform_bind (holds_closed.stable [] u) h ?_
      intro d₁ h₁
      have hfields : ∀ e v, u.snapshot .user e = some v → d₁.Belongs c uid v := by
        intro e v hv
        unfold UnitOfWork.snapshot at hv
        split_ifs at hv with howner
        obtain ⟨s, hs, rfl⟩ := Option.map_eq_some_iff.mp hv
        exact h₁.belongs hs
      refine ⟨⟨rfl, h₁.user, hfields⟩, fun r d₂ hs => ?_⟩
      have hchange : Change c uid d₁ d₂ := by
        rcases hs with ⟨-, rfl⟩ | ⟨-, rfl⟩
        · exact .refl d₂
        · have hscope : u.scopeID .user = uid := h₁.user
          rw [hscope]
          exact .hset hfields
      refine ⟨hchange, ?_⟩
      cases r with
      | true => exact ⟨⟨h₁.user, h₁.club⟩, fun _ => h₁.change hchange⟩
      | false => exact ⟨⟨h₁.user, h₁.club⟩, by simp⟩
    · exact ⟨⟨h.user, h.club⟩, fun _ => h⟩

theorem commit_wp (h : Holds c uid creates [] u d) :
    UowM.wp (tenant c uid creates) commit (fun _ u' _ => EndsAs uid u')
      (fun u' _ => EndsAs uid u') u d := by
  refine wp_bind (wp_mono ?_ (fun _ _ h => h) (runOps_wp h))
  intro r u₁ d₁ h₁
  cases r with
  | error err => exact h₁.1
  | ok _ =>
    refine wp_bind (wp_mono ?_ (fun _ _ h => h) (writeBack_wp (h₁.2 rfl)))
    intro r u₂ d₂ h₂
    cases r with
    | error err => exact h₂.1
    | ok _ =>
      refine wp_mono ?_ (fun _ _ h => h) (writeBack_wp (h₂.2 rfl))
      intro r u₃ d₃ h₃
      exact h₃.1

theorem invalidate_wp {o : Owner} (h : EndsAs uid u) :
    UowM.wp (tenant c uid creates) (invalidate o) (fun _ u' _ => EndsAs uid u')
      (fun u' _ => EndsAs uid u') u d := by
  refine wp_local rfl ?_
  cases o with
  | club =>
    have hclub : ¬ u.scopeID .club ≠ 0 := fun hid => hid h.2
    rw [if_neg hclub]
    exact h
  | user =>
    split_ifs with hid
    · refine wp_perform_bind (P := fun _ => True) (fun _ _ _ _ => trivial) trivial ?_
      intro d₁ _
      refine ⟨⟨rfl, h.1⟩, fun r d₂ hs => ⟨?_, h⟩⟩
      have hscope : u.scopeID .user = uid := h.1
      rcases hs with ⟨-, rfl⟩ | ⟨-, rfl⟩
      · exact .refl d₂
      · rw [hscope]
        exact .setCache _ (by simp [Fields.none])
    · exact h

theorem commitOrRollback_wp (h : Holds c uid creates [] u d) :
    UowM.wp (tenant c uid creates) commitOrRollback (fun _ u' _ => EndsAs uid u')
      (fun u' _ => EndsAs uid u') u d := by
  refine wp_bind (wp_attempt (wp_mono ?_ (fun _ _ h => h) (commit_wp h)))
  intro r u₁ d₁ h₁
  cases r with
  | ok _ => exact h₁
  | error err =>
    refine wp_bind (wp_mono ?_ (fun _ _ h => h) (invalidate_wp h₁))
    intro r u₂ d₂ h₂
    cases r with
    | error err => exact h₂
    | ok _ =>
      refine wp_bind (wp_mono ?_ (fun _ _ h => h) (invalidate_wp h₂))
      intro r u₃ d₃ h₃
      cases r with
      | error err => exact h₃
      | ok _ => exact h₃

end

end FutureWas
