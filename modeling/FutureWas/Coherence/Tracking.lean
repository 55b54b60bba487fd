import FutureWas.Invalidation
import FutureWas.Requests
import FutureWas.Sessions.Commit

/-!
# A request that has its user to itself

While others leave the rows of a user alone, and at most let the cached fields expire
(`Apart`), the request of the user keeps three copies in step: the models of its unit of
work, the cached fields and the rows. A cached field is the rows of its kind (`Mirrors`);
a stored model is its row up to the statements that are still to run (`Tracks`).

`exclusive` is the setting of such a request. Its calls may fail, but a deletion of cached
fields succeeds and a transaction ends by a commit or an error (`Calm`).
-/

set_option autoImplicit false

namespace FutureWas.Coherence

open Effect UowM Uow
open Sessions (Lists inserts mem_own)

variable {e : EntityKind}

/-! ## Cached fields and rows -/

/-- The field decodes, in the shape its loader expects, to these rows in some order. -/
def Copies (v : Cached e) (ms : List (Row e)) : Prop :=
  match v with
  | .one m => e.isSingleton = true ∧ ms = [m]
  | .many ms' => e.isSingleton = false ∧ ms'.Perm ms

def Mirrored (c : Container) (uid : UInt64) (e : EntityKind) (d : Data) : Prop :=
  ∀ v, d.cache .user uid e = some v →
    ∃ db, d.routed c uid e = some db ∧ Copies v ((d.db db).select e uid)

def Mirrors (c : Container) (uid : UInt64) (d : Data) : Prop := ∀ e, Mirrored c uid e d

def Registered (c : Container) (uid : UInt64) (d : Data) : Prop :=
  ∀ a ∈ (d.db c.gameDB) .account, Account.userID a = uid →
    (c.shards.getShard (Account.dbShardID a)).isSome

/-- What others leave as it is: the user's rows, and the cached fields that have not expired. -/
structure Apart (uid : UInt64) (d d' : Data) : Prop where
  rows : ∀ db e, e.owner = .user → (d'.db db).select e uid = (d.db db).select e uid
  fields : ∀ e v, d'.cache .user uid e = some v → d.cache .user uid e = some v

namespace Apart

variable {uid : UInt64} {d d' d'' : Data}

theorem refl (d : Data) : Apart uid d d := ⟨fun _ _ _ => rfl, fun _ _ h => h⟩

theorem trans (h : Apart uid d d') (h' : Apart uid d' d'') : Apart uid d d'' where
  rows db e he := (h'.rows db e he).trans (h.rows db e he)
  fields e v hv := h.fields e v (h'.fields e v hv)

theorem of_confined {uid' : UInt64} (hne : uid ≠ uid') (h : ConfinedTo uid' d d') :
    Apart uid d d' where
  rows := by
    intro db e he
    have hpart : ∀ t : Tables,
        t.select e uid = (t.others uid' e).filter fun m => m.ownerID = uid := by
      intro t
      unfold Tables.select Tables.others
      rw [List.filter_filter]
      refine List.filter_congr fun m _ => ?_
      by_cases hm : m.ownerID = uid
      · simp [hm, hne]
      · simp [hm]
    rw [hpart, hpart, h.others db e]
  fields := by
    intro e v hv
    rwa [h.keys .user uid (Or.inr hne)] at hv

end Apart

section

variable {c : Container} {uid : UInt64} {d d' : Data}

theorem Mirrors.apart (h : Mirrors c uid d) (hsound : d.Sound c) (hgrows : d.Grows d')
    (ha : Apart uid d d') : Mirrors c uid d' := by
  intro e v hv
  have hold := ha.fields e v hv
  obtain ⟨db, hdb, hcopies⟩ := h e v hold
  refine ⟨db, hgrows.routed hdb, ?_⟩
  rwa [ha.rows db e (hsound.cached uid e v hold).1]

theorem mirrors_of_none (h : d.cache .user uid = Fields.none) : Mirrors c uid d := by
  intro e v hv
  rw [h] at hv
  cases hv

theorem mirrors_of_absent (hsound : d.Sound c) (h : ¬ d.HasAccount c uid) : Mirrors c uid d := by
  intro e v hv
  exact absurd (hsound.cached uid e v hv).2.1 h

theorem Registered.of_accounts (h : Registered c uid d)
    (hsame : ((d'.db c.gameDB) .account).map Row.static =
      ((d.db c.gameDB) .account).map Row.static) : Registered c uid d' := by
  intro a ha hid
  have hmem : Row.static (e := .account) a ∈ ((d.db c.gameDB) .account).map Row.static := by
    rw [← hsame]
    exact List.mem_map_of_mem ha
  obtain ⟨a', ha', hstatic⟩ := List.mem_map.mp hmem
  rw [← Row.shard_eq hstatic]
  exact h a' ha' ((Row.primaryKey_eq hstatic).trans hid)

end

/-! ## The setting -/

def unwinds : (op : Op) → op.Resp → Bool
  | .transaction _ _ _, .panicked _ => true
  | _, _ => false

/-- Deletions succeed, and no transaction unwinds. -/
def Calm (op : Op) (r : op.Resp) : Prop :=
  unwinds op r = false ∧ Invalidation.failedDelete op r = false

instance (op : Op) (r : op.Resp) : Decidable (Calm op r) := inferInstanceAs (Decidable (_ ∧ _))

def exclusive (c : Container) (uid : UInt64) (creates : Bool) : Setting Op.Resp Data where
  step op d r d' := Data.Step op d r d' ∧ Calm op r
  rely d d' := (d.Grows d' ∧ (d.Sound c → d'.Sound c)) ∧
    (Registered c uid d → Registered c uid d') ∧ Apart uid d d'
  guar _ _ d d' := Change c uid d d'
  pre op d := MayIssue c uid creates d op
  rely_refl d := ⟨Data.moved_refl d, id, .refl d⟩
  rely_trans h h' :=
    ⟨Data.moved_trans h.1 h'.1, fun hr => h'.2.1 (h.2.1 hr), h.2.2.trans h'.2.2⟩

/-! ## The unit of work -/

def Shaped (e : EntityKind) : Stored → Prop
  | .one _ => e.isSingleton = true
  | .many _ => e.isSingleton = false

def mine (uid : UInt64) (m : Row e) : Bool := decide (m.ownerID = uid)

/-- The stored models of a kind are the user's rows, up to the statements `X`. -/
def Follows (c : Container) (uid : UInt64) (e : EntityKind) (X : List Stmt) (s : Stored)
    (h : Heap) (d : Data) : Prop :=
  ∃ db, d.routed c uid e = some db ∧
    Lists e (mine uid) (fun _ => False) [] (Sessions.own e X) s.refs h ((d.db db) e)

def stmts (u : UnitOfWork) : List Stmt := u.dbOps.map DbOp.stmt

/-- What holds between the calls of a request that has its user to itself, while the
statements `X` are still to be queued. -/
structure Tracks (c : Container) (uid : UInt64) (X : List Stmt) (u : UnitOfWork) (d : Data) :
    Prop where
  mirrors : Mirrors c uid d
  registered : Registered c uid d
  shaped : ∀ e s, u.store e = some s → Shaped e s
  follows : ∀ e s, u.store e = some s → Follows c uid e (stmts u ++ X) s u.heap d
  led : ∀ op ∈ u.dbOps, op.db ≠ none → ∃ r, u.store .account = some (.one r)
  headed : ∀ op ops, u.dbOps = op :: ops → op.db ≠ none → ∀ op' ∈ ops, op'.db ≠ none

structure Keeping (c : Container) (uid : UInt64) (creates : Bool) (X : List Stmt)
    (u : UnitOfWork) (d : Data) : Prop where
  holds : Holds c uid creates X u d
  tracks : Tracks c uid X u d

section

variable {c : Container} {uid : UInt64} {creates : Bool} {X : List Stmt} {u u' : UnitOfWork}
  {d d' : Data}

theorem select_eq (t : Tables) : (t e).filter (mine uid) = t.select e uid := rfl

theorem Follows.congr {s : Stored} {h h' : Heap} (hf : Follows c uid e X s h d)
    (hnext : h.next ≤ h'.next) (hcell : ∀ r ∈ s.refs, h'.cell e r = h.cell e r)
    (hsound : d'.Sound c) (hrouted : ∀ db, d.routed c uid e = some db → d'.routed c uid e = some db)
    (hrows : ∀ db, (d'.db db).select e uid = (d.db db).select e uid) :
    Follows c uid e X s h' d' := by
  obtain ⟨db, hdb, hlists⟩ := hf
  exact ⟨db, hrouted db hdb, hlists.congr hnext hcell ((hsound.keyed db).nodup e) (hrows db)⟩

theorem Tracks.apart (ht : Tracks c uid X u d) (hh : Holds c uid creates X u d)
    (hr : (exclusive c uid creates).rely d d') : Tracks c uid X u d' where
  mirrors := ht.mirrors.apart hh.sound hr.1.1 hr.2.2
  registered := hr.2.1 ht.registered
  shaped := ht.shaped
  follows := by
    intro e s hs
    have howner := (hh.stored e s hs).1
    exact (ht.follows e s hs).congr (le_refl _) (fun _ _ => rfl) (hr.1.2 hh.sound)
      (fun _ hdb => hr.1.1.routed hdb) fun db => hr.2.2.rows db e howner
  led := ht.led
  headed := ht.headed

theorem Keeping.stable {X : List Stmt} {u : UnitOfWork} :
    (exclusive c uid creates).Stable (Keeping c uid creates X u) := by
  intro d d' hr h
  exact ⟨h.holds.rely hr.1, h.tracks.apart h.holds hr⟩

theorem own_eq_nil (hh : Holds c uid creates X u d) (hstore : u.store e = none) :
    Sessions.own e (stmts u ++ X) = [] := by
  refine List.filter_eq_nil_iff.mpr fun s hs hkind => ?_
  have hheld : u.Held s.kind s.ref := by
    rcases List.mem_append.mp hs with hs | hs
    · obtain ⟨op, hop, rfl⟩ := List.mem_map.mp hs
      exact (hh.queued op hop).2.1
    · exact (hh.pending s hs).1
  obtain ⟨st, hst, -⟩ := hheld
  rw [of_decide_eq_true hkind, hstore] at hst
  cases hst

/-! ### Loaders -/

theorem Tracks.loaded (ht : Tracks c uid X u d) (hh : Holds c uid creates X u d)
    (hstore : u.store e = none) {db : DbId} (hdb : d.routed c uid e = some db) {ms : List (Row e)}
    (hms : ms.Perm ((d.db db).select e uid)) {s : Stored} (hshaped : Shaped e s)
    (hrefs : s.refs = (u.heap.allocMany e ms).2) :
    Tracks c uid X ({ u with heap := (u.heap.allocMany e ms).1 }.setStore e s) d where
  mirrors := ht.mirrors
  registered := ht.registered
  shaped := by
    intro e' s' hs'
    by_cases he : e' = e
    · subst he
      rw [UnitOfWork.setStore_store_self] at hs'
      cases hs'
      exact hshaped
    · rw [UnitOfWork.setStore_store_of_ne _ _ he] at hs'
      exact ht.shaped e' s' hs'
  follows := by
    intro e' s' hs'
    by_cases he : e' = e
    · subst he
      rw [UnitOfWork.setStore_store_self] at hs'
      cases hs'
      refine ⟨db, hdb, ?_⟩
      have hnone : Sessions.own e' (stmts u ++ X) = [] := own_eq_nil hh hstore
      change Lists e' (mine uid) _ [] (Sessions.own e' (stmts u ++ X)) s.refs _ _
      rw [hnone, hrefs]
      refine Lists.loaded ((hh.sound.keyed db).nodup e') ?_
      rwa [List.append_nil, select_eq]
    · rw [UnitOfWork.setStore_store_of_ne _ _ he] at hs'
      refine (ht.follows e' s' hs').congr ?_ ?_ hh.sound (fun _ h => h) fun _ => rfl
      · change u.heap.next ≤ (u.heap.allocMany e ms).1.next
        rw [Heap.allocMany_next]
        exact Nat.le_add_right _ _
      · intro r hr
        exact u.heap.allocMany_cell_of_lt e e' ms ((hh.stored e' s' hs').2.2 r hr).1
  led := by
    intro op hop hne
    obtain ⟨r, hr⟩ := ht.led op hop hne
    have he : EntityKind.account ≠ e := by
      rintro rfl
      rw [hstore] at hr
      cases hr
    exact ⟨r, (UnitOfWork.setStore_store_of_ne _ _ he s).trans hr⟩
  headed := ht.headed

theorem Tracks.loadedOne (ht : Tracks c uid X u d) (hh : Holds c uid creates X u d)
    (hstore : u.store e = none) (hone : e.isSingleton = true) {db : DbId}
    (hdb : d.routed c uid e = some db) {m : Row e} (hm : (d.db db).select e uid = [m]) :
    Tracks c uid X (u.loadedOne e m) d := by
  have hperm : [m].Perm ((d.db db).select e uid) := by rw [hm]
  have hrefs : (Stored.one u.heap.next).refs = (u.heap.allocMany e [m]).2 := rfl
  exact ht.loaded (s := .one u.heap.next) hh hstore hdb hperm hone hrefs

theorem Tracks.loadedMany (ht : Tracks c uid X u d) (hh : Holds c uid creates X u d)
    (hstore : u.store e = none) (hlist : e.isSingleton = false) {db : DbId}
    (hdb : d.routed c uid e = some db) {ms : List (Row e)}
    (hms : ms.Perm ((d.db db).select e uid)) : Tracks c uid X (u.loadedMany e ms) d :=
  ht.loaded (s := .many (u.heap.allocMany e ms).2) hh hstore hdb hms hlist rfl

theorem select_account (hsound : d.Sound c) {db : DbId} {m : Row .account}
    {ms : List (Row .account)} (h : (d.db db).select .account uid = m :: ms) :
    (d.db db).select .account uid = [m] := by
  have hnodup : (((d.db db).select .account uid).map Row.primaryKey).Nodup :=
    ((hsound.keyed db).nodup .account).sublist (List.filter_sublist.map _)
  rw [h] at hnodup ⊢
  cases ms with
  | nil => rfl
  | cons m' ms =>
    have howner : ∀ a ∈ (d.db db).select .account uid, Row.primaryKey a = uid := by
      intro a ha
      exact of_decide_eq_true (List.mem_filter.mp ha).2
    rw [h] at howner
    simp [howner m (by simp), howner m' (by simp)] at hnodup

def JustRead (c : Container) (uid : UInt64) (e : EntityKind) (u : UnitOfWork) (d : Data) : Prop :=
  ∀ s, u.store e = some s →
    ∃ db, d.routed c uid e = some db ∧ Copies (u.value e s) ((d.db db).select e uid)

theorem JustRead.apart (hj : JustRead c uid e u d) (he : e.owner = .user)
    (hr : (exclusive c uid creates).rely d d') : JustRead c uid e u d' := by
  intro s hs
  obtain ⟨db, hdb, hcopies⟩ := hj s hs
  refine ⟨db, hr.1.1.routed hdb, ?_⟩
  rwa [hr.2.2.rows db e he]

theorem Mirrors.fill (hm : Mirrors c uid d) (he : e.owner = .user) {s : Stored}
    (hj : JustRead c uid e u d) (hs : u.store e = some s) {done : Bool}
    (hstep : Data.Step (.cacheSet e uid (u.value e s)) d done d') :
    Mirrors c uid d' ∧ d'.db = d.db := by
  rcases hstep with ⟨-, rfl⟩ | ⟨-, rfl⟩
  · exact ⟨hm, rfl⟩
  · refine ⟨?_, rfl⟩
    intro e' v hv
    rw [he, Data.setCache_cache_self] at hv
    rcases Option.or_eq_some_iff.mp hv with hnew | ⟨-, hold⟩
    · by_cases hkind : e' = e
      · subst hkind
        have hvalue : u.value e' s = v := by simpa [Fields.single] using hnew
        rw [← hvalue]
        exact hj s hs
      · simp [Fields.single, Fields.none, Function.update_of_ne hkind] at hnew
    · exact hm e' v hold

/-! ### Writers -/

theorem lists_assigned {T T' : Ref → Prop} {mine : Row e → Bool} {hidden : List (Row e)}
    {X : List Stmt} {rs : List Ref} {h : Heap} {table : List (Row e)}
    (hT : ∀ r, T r → T' r) (hl : Lists e mine T hidden X rs h table) :
    Lists e mine T' hidden X rs h table where
  keys := hl.keys
  nodup := hl.nodup
  lt := hl.lt
  refs := hl.refs
  first := hl.first
  owned := hl.owned
  shows := by
    obtain ⟨held, row, hperm, hsel, hshows⟩ := hl.shows
    refine ⟨held, row, hperm, hsel, fun r hr => ⟨(hshows r hr).1, fun hupdate hT' => ?_⟩⟩
    exact (hshows r hr).2 hupdate fun hr' => hT' (hT r hr')

theorem Tracks.changed (ht : Tracks c uid [] u d) {r : Ref} {f : Row e → Row e} (hr : u.Held e r)
    (hf : ∀ m : Row e, (f m).static = m.static) :
    Tracks c uid [.update e r] ((u.changed e r f).marked e r) d where
  mirrors := ht.mirrors
  registered := ht.registered
  shaped := by simpa [UnitOfWork.changed] using ht.shaped
  follows := by
    intro e' s hs
    have hs' : u.store e' = some s := by simpa [UnitOfWork.changed] using hs
    obtain ⟨db, hdb, hlists⟩ := ht.follows e' s hs'
    rw [List.append_nil] at hlists
    have hstmts : stmts ((u.changed e r f).marked e r) = stmts u := by
      simp [stmts, UnitOfWork.changed]
    have hheap : ((u.changed e r f).marked e r).heap =
        u.heap.set e r (f (u.heap.cell e r)) := by
      simp [UnitOfWork.changed]
    rw [hstmts, hheap]
    refine ⟨db, hdb, ?_⟩
    rw [Sessions.own_append]
    by_cases he : e' = e
    · subst he
      obtain ⟨s₀, hs₀, hmem⟩ := hr
      rw [hs'] at hs₀
      cases hs₀
      have hassigned := hlists.assign (r := r) (m := f (u.heap.cell e' r)) fun _ =>
        ⟨by rw [mine, Row.ownerID_eq (hf _)]; exact hlists.owned r hmem,
          fun _ => Row.primaryKey_eq (hf _)⟩
      have hown : Sessions.own e' [Stmt.update e' r] = [.update e' r] := by
        simp [Sessions.own, Stmt.kind]
      rw [hown]
      refine lists_assigned ?_ (hassigned.queueUpdate hmem).settle
      rintro r' ⟨rfl | hfalse, hnot⟩
      · exact hnot (.update e' r') (by simp) rfl
      · exact hfalse
    · have hown : Sessions.own e' [Stmt.update e r] = [] := by
        simp [Sessions.own, Stmt.kind, Ne.symm he]
      rw [hown, List.append_nil]
      refine hlists.congr (le_refl _) ?_ hlists.keys rfl
      intro r' _
      exact u.heap.set_cell_kind he r r' _
  led := by simpa [UnitOfWork.changed] using ht.led
  headed := by simpa [UnitOfWork.changed] using ht.headed

theorem Tracks.extended (ht : Tracks c uid [] u d) (hh : Holds c uid creates [] u d)
    (hlist : e.isSingleton = false) {rs : List Ref} {m : Row e}
    (hrs : u.store e = some (.many rs)) (howner : m.ownerID = u.userID) :
    Tracks c uid [.insert e u.heap.next] ((u.extended e rs m).marked e u.heap.next) d where
  mirrors := ht.mirrors
  registered := ht.registered
  shaped := by
    intro e' s hs
    by_cases he : e' = e
    · subst he
      have hself : s = .many (rs ++ [u.heap.next]) := by
        simpa [UnitOfWork.extended, eq_comm] using hs
      rw [hself]
      exact hlist
    · refine ht.shaped e' s ?_
      simpa [UnitOfWork.extended, UnitOfWork.setStore_store_of_ne _ _ he] using hs
  follows := by
    intro e' s hs
    have hstmts : stmts ((u.extended e rs m).marked e u.heap.next) = stmts u := by
      simp [stmts, UnitOfWork.extended, UnitOfWork.setStore]
    have hheap : ((u.extended e rs m).marked e u.heap.next).heap = (u.heap.alloc e m).1 := by
      simp [UnitOfWork.extended, UnitOfWork.setStore]
    rw [hstmts, hheap]
    have hnext : u.heap.next ≤ (u.heap.alloc e m).1.next := by
      rw [Heap.alloc_next]
      exact Nat.le_succ _
    have hcells : ∀ s₀, u.store e' = some s₀ →
        ∀ r ∈ s₀.refs, (u.heap.alloc e m).1.cell e' r = u.heap.cell e' r := by
      intro s₀ hs₀ r hr
      exact u.heap.alloc_cell_of_lt e e' m ((hh.stored e' s₀ hs₀).2.2 r hr).1
    by_cases he : e' = e
    · subst he
      have hself : s = .many (rs ++ [u.heap.next]) := by
        simpa [UnitOfWork.extended, eq_comm] using hs
      obtain ⟨db, hdb, hlists⟩ := ht.follows e' _ hrs
      rw [List.append_nil] at hlists
      have hown : Sessions.own e' [Stmt.insert e' u.heap.next] = [.insert e' u.heap.next] := by
        simp [Sessions.own, Stmt.kind]
      refine ⟨db, hdb, ?_⟩
      rw [Sessions.own_append, hown, hself]
      have hmoved := hlists.congr hnext (hcells _ hrs) hlists.keys rfl
      refine hmoved.queueInsert ?_ (Nat.lt_succ_self _) ?_
      · intro hmem
        exact Nat.lt_irrefl _ ((hh.stored e' _ hrs).2.2 _ hmem).1
      · rw [Heap.alloc_cell_self, mine, howner, hh.user]
        exact decide_eq_true rfl
    · have hs' : u.store e' = some s := by
        simpa [UnitOfWork.extended, UnitOfWork.setStore_store_of_ne _ _ he] using hs
      obtain ⟨db, hdb, hlists⟩ := ht.follows e' s hs'
      have hown : Sessions.own e' [Stmt.insert e u.heap.next] = [] := by
        simp [Sessions.own, Stmt.kind, Ne.symm he]
      refine ⟨db, hdb, ?_⟩
      rw [Sessions.own_append, hown]
      rw [Sessions.own_append, Sessions.own_nil] at hlists
      exact hlists.congr hnext (hcells s hs') hlists.keys rfl
  led := by
    intro op hop hne
    obtain ⟨r, hr⟩ := ht.led op (by simpa [UnitOfWork.extended, UnitOfWork.setStore] using hop) hne
    have he : EntityKind.account ≠ e := by
      rintro rfl
      cases hlist
    refine ⟨r, ?_⟩
    simpa [UnitOfWork.extended, UnitOfWork.setStore_store_of_ne _ _ he] using hr
  headed := by simpa [UnitOfWork.extended, UnitOfWork.setStore] using ht.headed

theorem route_isSome (ht : Tracks c uid X u d) (hh : Holds c uid creates X u d) {r : Ref}
    (hr : u.store .account = some (.one r)) (e : EntityKind) : u.route c e ≠ none := by
  unfold UnitOfWork.route
  split_ifs
  · simp
  · rw [hr]
    have hheld : u.Held .account r := ⟨_, hr, List.mem_singleton.mpr rfl⟩
    obtain ⟨-, hacc, -, hknown⟩ := hh.held hheld
    obtain ⟨a, ha, hstatic⟩ := hh.sound.accountOf_known hknown hacc
    have hsome := ht.registered a (Data.mem_of_accountOf ha).1 (Data.mem_of_accountOf ha).2
    dsimp only
    rw [Row.shard_eq hstatic]
    exact Option.isSome_iff_ne_none.mp hsome

theorem Tracks.enqueue {s : Stmt} (ht : Tracks c uid [s] u d) (hh : Holds c uid creates [s] u d) :
    Tracks c uid [] (u.enqueue (u.route c s.kind) s) d where
  mirrors := ht.mirrors
  registered := ht.registered
  shaped := ht.shaped
  follows := by
    intro e st hst
    have hstmts : stmts (u.enqueue (u.route c s.kind) s) ++ [] = stmts u ++ [s] := by
      simp [stmts, UnitOfWork.enqueue]
    rw [hstmts]
    exact ht.follows e st hst
  led := by
    intro op hop hne
    rcases List.mem_append.mp hop with hop | hop
    · exact ht.led op hop hne
    · rw [List.mem_singleton.mp hop] at hne
      obtain ⟨st, hst, hmem⟩ := (hh.pending s (List.mem_singleton.mpr rfl)).1
      by_cases hkind : s.kind.isGameDB = true
      · have howner := (hh.stored s.kind st hst).1
        have haccount : s.kind = .account := by
          cases hk : s.kind <;> simp_all [EntityKind.isGameDB, EntityKind.owner]
        rw [haccount] at hst
        have hshaped := ht.shaped _ _ hst
        cases st with
        | one r => exact ⟨r, hst⟩
        | many rs => cases hshaped
      · unfold UnitOfWork.route at hne
        rw [if_neg hkind] at hne
        split at hne
        · exact ⟨_, ‹_›⟩
        · exact absurd rfl hne
  headed := by
    intro op ops hops hne op' hop'
    change u.dbOps ++ [⟨u.route c s.kind, s⟩] = op :: ops at hops
    cases hold : u.dbOps with
    | nil =>
      rw [hold, List.nil_append, List.cons.injEq] at hops
      rw [← hops.2] at hop'
      cases hop'
    | cons op₀ ops₀ =>
      rw [hold, List.cons_append, List.cons.injEq] at hops
      obtain ⟨rfl, rfl⟩ := hops
      rcases List.mem_append.mp hop' with hop' | hop'
      · exact ht.headed op₀ ops₀ hold hne op' hop'
      · rw [List.mem_singleton.mp hop']
        obtain ⟨r, hr⟩ := ht.led op₀ (by rw [hold]; exact List.mem_cons_self) hne
        exact route_isSome ht hh hr s.kind

/-! ### Every step -/

theorem keeping_closed : Closed c (exclusive c uid creates) (Keeping c uid creates)
    fun e X u d => Keeping c uid creates X u d ∧ (e.owner = .user → JustRead c uid e u d) where
  stable _ _ := Keeping.stable
  fresh_stable := fun e X u d d' hr h =>
    ⟨Keeping.stable _ _ hr h.1, fun he => (h.2 he).apart he hr⟩
  now := by
    intro X u d h
    obtain ⟨hpre, hstep⟩ := holds_closed.now h.holds
    refine ⟨hpre, fun r d' hs => ?_⟩
    have hsame : d' = d := hs.1
    subst hsame
    exact ⟨(hstep r d' hs.1).1, h⟩
  cacheGet := by
    intro X u d e h he hid
    obtain ⟨hpre, hstep⟩ := holds_closed.cacheGet h.holds he hid
    refine ⟨hpre, fun r d' hs => ?_⟩
    obtain ⟨hguar, -, hloaded⟩ := hstep r d' hs.1
    obtain ⟨rfl, hr⟩ := hs.1
    rw [he, h.holds.user] at hr
    refine ⟨hguar, h, fun hstore => ⟨fun m hm hone => ?_, fun ms hms hlist => ?_⟩⟩
    · have hm' := hm
      rw [cachedOne_eq_some] at hm'
      subst hm'
      have hcached : d'.cache .user uid e = some (.one m) := by simpa [eq_comm] using hr
      obtain ⟨db, hdb, -, hrows⟩ := h.tracks.mirrors e _ hcached
      exact ⟨(hloaded hstore).1 m hm hone, h.tracks.loadedOne h.holds hstore hone hdb hrows⟩
    · have hms' := hms
      rw [cachedMany_eq_some] at hms'
      subst hms'
      have hcached : d'.cache .user uid e = some (.many ms) := by simpa [eq_comm] using hr
      obtain ⟨db, hdb, -, hrows⟩ := h.tracks.mirrors e _ hcached
      exact ⟨(hloaded hstore).2 ms hms hlist, h.tracks.loadedMany h.holds hstore hlist hdb hrows⟩
  select := by
    intro X u d e db h he hid hstore hroute
    obtain ⟨hpre, hstep⟩ := holds_closed.select h.holds he hid hstore hroute
    refine ⟨hpre, fun r d' hs => ?_⟩
    obtain ⟨hguar, -, hone, hmany⟩ := hstep r d' hs.1
    obtain ⟨rfl, hr⟩ := hs.1
    have hdb := h.holds.routed hroute
    rw [h.holds.user] at hr
    refine ⟨hguar, h, fun m ms hms hsingle => ?_, fun ms hms hlist => ?_⟩
    · obtain rfl := EntityKind.eq_account he hsingle
      have hrows : (d'.db db).select .account uid = m :: ms := by simpa [hms, eq_comm] using hr
      have hrow := select_account h.holds.sound hrows
      refine ⟨⟨hone m ms hms hsingle,
        h.tracks.loadedOne h.holds hstore hsingle hdb hrow⟩, fun _ s hs => ?_⟩
      rw [u.loadedOne_store] at hs
      cases hs
      rw [u.value_loadedOne]
      exact ⟨db, hdb, hsingle, hrow⟩
    · have hrows : (d'.db db).select e uid = ms := by simpa [hms, eq_comm] using hr
      have hperm : ms.Perm ((d'.db db).select e uid) := by rw [hrows]
      refine ⟨⟨hmany ms hms hlist, h.tracks.loadedMany h.holds hstore hlist hdb hperm⟩,
        fun _ s hs => ?_⟩
      rw [u.loadedMany_store] at hs
      cases hs
      rw [u.value_loadedMany]
      exact ⟨db, hdb, hlist, hperm⟩
  fill := by
    intro X u d e s h he hid hs
    obtain ⟨hpre, hstep⟩ := holds_closed.fill h.1.holds he hid hs
    refine ⟨hpre, fun r d' hstep' => ?_⟩
    obtain ⟨hguar, hholds⟩ := hstep r d' hstep'.1
    have hfill := hstep'.1
    rw [h.1.holds.user] at hfill
    obtain ⟨hmirrors, hdb⟩ := h.1.tracks.mirrors.fill he (h.2 he) hs hfill
    have ht := h.1.tracks
    refine ⟨hguar, hholds, hmirrors, ht.registered.of_accounts (by rw [hdb]), ht.shaped, ?_,
      ht.led, ht.headed⟩
    intro e' s' hs'
    refine (ht.follows e' s' hs').congr (le_refl _) (fun _ _ => rfl) hholds.sound
      (fun _ h => ?_) fun db => by rw [hdb]
    exact hguar.grows.routed h
  change := by
    intro u d e r f h hr hf
    exact ⟨holds_closed.change h.holds hr hf, h.tracks.changed hr hf⟩
  queue := fun h => ⟨holds_closed.queue h.holds, h.tracks.enqueue h.holds⟩

theorem keeping_extends : Extends (Keeping c uid true) := by
  intro u d e rs m h he hlist hrs howner hkey
  exact ⟨holds_extends h.holds he hlist hrs howner hkey,
    h.tracks.extended h.holds hlist hrs howner⟩

theorem keeping_signs : Signs (exclusive c uid true) (Keeping c uid true) where
  newToken := by
    intro u d r h hr
    obtain ⟨hpre, hstep⟩ := holds_signs.newToken h.holds hr
    refine ⟨hpre, fun token d' hs => ?_⟩
    have hsame : d' = d := hs.1
    subst hsame
    exact ⟨(hstep token d' hs.1).1, h⟩
  sessionSet := by
    intro u d r token h hr
    obtain ⟨hpre, hstep⟩ := @Signs.sessionSet _ _ holds_signs u d r token h.holds hr
    refine ⟨hpre, fun stored d' hs => ?_⟩
    have hsame : d' = d := hs.1
    subst hsame
    exact ⟨(hstep stored d' hs.1).1, h⟩

end

end FutureWas.Coherence
