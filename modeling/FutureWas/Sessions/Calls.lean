import FutureWas.MissingDatabase
import FutureWas.Sessions.Models

/-!
# Sessions with a unit of work

A handler loads lists, makes models, assigns to them and passes them to `Create`, `CreateNow`
and `Update`, in an order of its own (`UnitCall`, `Session`). Other requests run meanwhile,
but leave its rows and cached fields alone (`Apart`).

`Inv` ties the stored models of one kind to their rows, and what is marked for the client to
what has been written. Every call that respects `Proper` keeps it.
-/

set_option autoImplicit false

namespace FutureWas.Sessions

open Effect UowM Uow
open MissingDatabase (withModel storeModel_eq withModel_cases)

/-! ## Whose rows -/

/-- For whom a unit of work acts: the ids of its scopes, the shard of its rows, and the rows
that no other request touches meanwhile, those of its scopes among them. -/
structure Party where
  container : Container
  ids : Owner → UInt64
  shard : DbId
  mine : (e : EntityKind) → Row e → Bool
  mine_key : ∀ {e : EntityKind}, e.isSingleton = false → ∀ (k : UInt64) (m : Row e),
    mine e (m.setPrimaryKey k) = mine e m
  mine_owner : ∀ {e : EntityKind} (m : Row e), m.ownerID = ids e.owner → mine e m = true

namespace Party

variable (P : Party)

def home (e : EntityKind) : DbId := if e.isGameDB then P.container.gameDB else P.shard

def Leads (a : Account) : Prop :=
  ∀ db, P.container.shards.getShard a.dbShardID = some db → db = P.shard

def table (d : Data) (e : EntityKind) : List (Row e) := (d.db (P.home e)) e

def rows (d : Data) (e : EntityKind) : List (Row e) := (P.table d e).filter (P.mine e)

structure Apart (d d' : Data) : Prop where
  cache : ∀ o, d'.cache o (P.ids o) = d.cache o (P.ids o)
  accounts : (d'.db P.container.gameDB).select .account (P.ids .user) =
    (d.db P.container.gameDB).select .account (P.ids .user)
  rows : ∀ e, P.rows d' e = P.rows d e
  keys : ∀ e, ((P.table d e).map Row.primaryKey).Nodup → ((P.table d' e).map Row.primaryKey).Nodup

variable {P} {d d' d'' : Data}

theorem Apart.refl (d : Data) : P.Apart d d := ⟨fun _ => rfl, rfl, fun _ => rfl, fun _ h => h⟩

theorem Apart.trans (h : P.Apart d d') (h' : P.Apart d' d'') : P.Apart d d'' where
  cache o := (h'.cache o).trans (h.cache o)
  accounts := h'.accounts.trans h.accounts
  rows e := (h'.rows e).trans (h.rows e)
  keys e hkeys := h'.keys e (h.keys e hkeys)

def others (P : Party) : Setting Op.Resp Data where
  step := Data.Step
  rely := P.Apart
  guar _ _ _ _ := True
  pre _ _ := True
  rely_refl d := .refl d
  rely_trans h h' := h.trans h'

end Party

/-! ## What a request has written -/

def WroteBy (e : EntityKind) : (op : Op) → op.Resp → Data → Data → DbId → UInt64 → Prop
  | .create db' e' _, some k', _, _, db, k => db' = db ∧ e' = e ∧ k' = k
  | .transaction db' ops _, .committed h, d, d', db, k =>
    db' = db ∧ k ∈ ((d'.db db) e).map Row.primaryKey ∧
      (k ∉ ((d.db db) e).map Row.primaryKey ∨
        ∃ r, .update e r ∈ ops ∧ (h.cell e r).primaryKey = k)
  | _, _, _, _, _, _ => False

def Wrote (e : EntityKind) (tr : List (Event Op.Resp Data)) (db : DbId) (k : UInt64) : Prop :=
  ∃ ev ∈ tr, WroteBy e ev.op ev.resp ev.before ev.after db k

theorem wrote_append {e : EntityKind} {tr tr' : List (Event Op.Resp Data)} {db : DbId}
    {k : UInt64} : Wrote e (tr ++ tr') db k ↔ Wrote e tr db k ∨ Wrote e tr' db k := by
  simp [Wrote, or_and_right, exists_or]

theorem wrote_singleton {e : EntityKind} {ev : Event Op.Resp Data} {db : DbId} {k : UInt64} :
    Wrote e [ev] db k ↔ WroteBy e ev.op ev.resp ev.before ev.after db k := by
  simp [Wrote]

/-! ## The state between two calls -/

section

variable (P : Party) (e : EntityKind) (whole : Prop)

def refsOf (u : UnitOfWork) : List Ref :=
  match u.store e with
  | some (.many rs) => rs
  | _ => []

def queued (u : UnitOfWork) : List DbOp := u.dbOps.filter fun op => op.stmt.kind = e

/-- The stored models stand for rows; with `whole`, no row of the party is left out. What is
marked for the client are the models made by `CreateNow` and those with a queued statement,
and the former are what has been written so far. -/
structure Core (T : Ref → Prop) (X : List Stmt) (u : UnitOfWork) (d : Data)
    (tr : List (Event Op.Resp Data)) : Prop where
  lists : ∃ hidden, (whole → u.store e ≠ none → hidden = []) ∧
    Lists e (P.mine e) T hidden X (refsOf e u) u.heap (P.table d e)
  marked : u.dirty.Nodup
  made : ∃ made : List Ref, (∀ r ∈ made, r ∈ refsOf e u ∧ .insert e r ∉ X) ∧
    ((entityNameOf e).isSome → ∀ r, (e, r) ∈ u.dirty ↔ r ∈ made ∨ ∃ s ∈ X, s.ref = r) ∧
    ∀ db k, Wrote e tr db k ↔ db = P.home e ∧ ∃ r ∈ made, (u.heap.cell e r).primaryKey = k

/-- The unit of work of the party between two calls, while `X` is still to be queued. The models
in `M` have been passed to `CreateNow`. -/
structure Inv (T M : Ref → Prop) (X : List Stmt) (u : UnitOfWork) (d : Data)
    (tr : List (Event Op.Resp Data)) : Prop where
  scope : ∀ o, u.scopeID o = P.ids o
  stored : ∀ r, u.store .account = some (.one r) → P.Leads (u.heap.cell .account r)
  cached : ∀ a, d.cache .user (P.ids .user) .account = some (.one a) → P.Leads a
  accounts : ∀ a ∈ (d.db P.container.gameDB).select .account (P.ids .user), P.Leads a
  typed : ∀ r, u.store e ≠ some (.one r)
  routed : ∀ op ∈ queued e u, op.db = none ∨ op.db = some (P.home e)
  pointers : ∀ r, M r → r < u.heap.next
  marks : (entityNameOf e).isSome → ∀ r, (e, r) ∈ u.dirty →
    M r ∨ ∃ s ∈ (queued e u).map DbOp.stmt ++ X, s.ref = r
  core : Core P e whole T ((queued e u).map DbOp.stmt ++ X) u d tr

structure Frame (u u' : UnitOfWork) : Prop where
  store : u'.store e = u.store e
  queued : queued e u' = queued e u
  dirty : ∀ r, (e, r) ∈ u'.dirty ↔ (e, r) ∈ u.dirty
  nodup : u.dirty.Nodup → u'.dirty.Nodup
  next : u.heap.next ≤ u'.heap.next
  cell : u'.heap.cell e = u.heap.cell e

end

section

variable {P : Party} {e : EntityKind} {whole : Prop} {T T' M M' : Ref → Prop} {X : List Stmt}
  {u u' u'' : UnitOfWork} {d d' : Data} {tr tr' : List (Event Op.Resp Data)}

theorem Frame.refl : Frame e u u := ⟨rfl, rfl, fun _ => Iff.rfl, fun h => h, le_refl _, rfl⟩

theorem Frame.trans (h : Frame e u u') (h' : Frame e u' u'') : Frame e u u'' where
  store := h'.store.trans h.store
  queued := h'.queued.trans h.queued
  dirty r := (h'.dirty r).trans (h.dirty r)
  nodup hu := h'.nodup (h.nodup hu)
  next := h.next.trans h'.next
  cell := h'.cell.trans h.cell

theorem Frame.refsOf (h : Frame e u u') : refsOf e u' = refsOf e u := by
  unfold Sessions.refsOf
  rw [h.store]

namespace Inv

theorem of_frame (h : Inv P e whole T M X u d tr) (hf : Frame e u u')
    (hscope : ∀ o, u'.scopeID o = u.scopeID o)
    (hstored : ∀ r, u'.store .account = some (.one r) → P.Leads (u'.heap.cell .account r)) :
    Inv P e whole T M X u' d tr where
  scope o := (hscope o).trans (h.scope o)
  stored := hstored
  cached := h.cached
  accounts := h.accounts
  typed := by
    rw [hf.store]
    exact h.typed
  routed := by
    rw [hf.queued]
    exact h.routed
  pointers r hr := Nat.lt_of_lt_of_le (h.pointers r hr) hf.next
  marks hname r hr := by
    rw [hf.queued]
    exact h.marks hname r ((hf.dirty r).mp hr)
  core := by
    rw [hf.queued]
    obtain ⟨hidden, hwhole, hlists⟩ := h.core.lists
    obtain ⟨made, hmade, hdirty, hwrote⟩ := h.core.made
    refine ⟨⟨hidden, ?_, ?_⟩, hf.nodup h.core.marked, made, ?_, ?_, ?_⟩
    · rwa [hf.store]
    · rw [hf.refsOf]
      exact hlists.congr hf.next (fun r _ => by rw [hf.cell]) hlists.keys rfl
    · rwa [hf.refsOf]
    · intro hname r
      rw [hf.dirty]
      exact hdirty hname r
    · rwa [hf.cell]

theorem of_data (h : Inv P e whole T M X u d tr)
    (hcached : ∀ a, d'.cache .user (P.ids .user) .account = some (.one a) → P.Leads a)
    (haccounts : ∀ a ∈ (d'.db P.container.gameDB).select .account (P.ids .user), P.Leads a)
    (hkeys : ((P.table d' e).map Row.primaryKey).Nodup) (hrows : P.rows d' e = P.rows d e)
    (hwrote : ∀ db k, ¬ Wrote e tr' db k) : Inv P e whole T M X u d' (tr ++ tr') where
  scope := h.scope
  stored := h.stored
  cached := hcached
  accounts := haccounts
  typed := h.typed
  routed := h.routed
  pointers := h.pointers
  marks := h.marks
  core := by
    obtain ⟨hidden, hwhole, hlists⟩ := h.core.lists
    obtain ⟨made, hmade, hdirty, hold⟩ := h.core.made
    refine ⟨⟨hidden, hwhole, hlists.congr (le_refl _) (fun _ _ => rfl) hkeys hrows⟩,
      h.core.marked, made, hmade, hdirty, ?_⟩
    intro db k
    rw [wrote_append, hold]
    exact or_iff_left (hwrote db k)

theorem keys (h : Inv P e whole T M X u d tr) : ((P.table d e).map Row.primaryKey).Nodup := by
  obtain ⟨hidden, -, hlists⟩ := h.core.lists
  exact hlists.keys

theorem apart (h : Inv P e whole T M X u d tr) (hd : P.Apart d d') :
    Inv P e whole T M X u d' tr := by
  have hnone : ∀ db k, ¬ Wrote e [] db k := by
    simp [Wrote]
  rw [← List.append_nil tr]
  apply h.of_data ?_ ?_ (hd.keys e h.keys) (hd.rows e) hnone
  · rw [hd.cache]
    exact h.cached
  · rw [hd.accounts]
    exact h.accounts

theorem read (h : Inv P e whole T M X u d tr) (ev : Event Op.Resp Data)
    (hev : ∀ db k, ¬ WroteBy e ev.op ev.resp ev.before ev.after db k) :
    Inv P e whole T M X u d (tr ++ [ev]) := by
  refine h.of_data h.cached h.accounts h.keys rfl ?_
  intro db k
  rw [wrote_singleton]
  exact hev db k

theorem cacheSet (h : Inv P e whole T M X u d tr) {e' : EntityKind} {id : UInt64} {v : Cached e'}
    {done : Bool} (hs : Data.Step (.cacheSet e' id v) d done d')
    (hv : ∀ a, Fields.single e' v .account = some (.one a) → P.Leads a) :
    Inv P e whole T M X u d' (tr ++ [⟨.cacheSet e' id v, done, d, d'⟩]) := by
  have hwrote : ∀ db k, ¬ Wrote e [⟨.cacheSet e' id v, done, d, d'⟩] db k := by
    intro db k hw
    exact wrote_singleton.mp hw
  rcases hs with ⟨-, rfl⟩ | ⟨-, rfl⟩
  · exact h.of_data h.cached h.accounts h.keys rfl hwrote
  · refine h.of_data ?_ h.accounts h.keys rfl hwrote
    intro a ha
    by_cases hkey : Owner.user = e'.owner ∧ P.ids .user = id
    · obtain ⟨howner, rfl⟩ := hkey
      rw [← howner, Data.setCache_cache_self] at ha
      cases hnew : Fields.single e' v .account with
      | none =>
        rw [Fields.hset, hnew] at ha
        exact h.cached a ha
      | some v' =>
        rw [Fields.hset, hnew] at ha
        refine hv a ?_
        rw [hnew]
        exact ha
    · rw [Data.setCache_cache_of_ne (not_and_or.mp hkey)] at ha
      exact h.cached a ha

end Inv
end

/-! ## Routing -/

section

variable {P : Party} {e : EntityKind} {whole : Prop} {T T' M M' : Ref → Prop} {X : List Stmt}
  {u u' : UnitOfWork} {d d' : Data} {tr : List (Event Op.Resp Data)} {α : Type}
  {Q : Except GoError α → UnitOfWork → Data × List (Event Op.Resp Data) → Prop}
  {R : UnitOfWork → Data × List (Event Op.Resp Data) → Prop}

theorem wp_ask {op : Op} {f : op.Resp → UowM α} {J : Data → Prop}
    (hJ : ∀ d d', P.Apart d d' → J d → J d') (hd : J d)
    (h : ∀ d₁, J d₁ → ∀ r d₂, Data.Step op d₁ r d₂ →
      UowM.wp P.others.traced (f r) Q R u (d₂, tr ++ [⟨op, r, d₁, d₂⟩])) :
    UowM.wp P.others.traced (perform op >>= f) Q R u (d, tr) := by
  refine wp_bind ?_
  intro s₁ hs₁
  obtain ⟨d₁, tr₁⟩ := s₁
  obtain ⟨hrely, htr₁⟩ := hs₁
  dsimp only at hrely htr₁
  subst htr₁
  refine ⟨trivial, ?_⟩
  intro r s₂ hs₂
  obtain ⟨d₂, tr₂⟩ := s₂
  obtain ⟨hstep, htr₂⟩ := hs₂
  dsimp only at hstep htr₂
  subst htr₂
  exact ⟨trivial, h d₁ (hJ d d₁ hrely hd) r d₂ hstep⟩

theorem Inv.stable :
    ∀ d d', P.Apart d d' → Inv P e whole T M X u d tr → Inv P e whole T M X u d' tr :=
  fun _ _ hd h => h.apart hd

theorem frame_loadedOne (he : e ≠ .account) (a : Account) : Frame e u (u.loadedOne .account a) where
  store := u.loadedOne_store_of_ne .account a e he
  queued := rfl
  dirty _ := Iff.rfl
  nodup h := h
  next := Nat.le_succ _
  cell := by
    funext r
    exact u.heap.set_cell_kind he u.heap.next r a

theorem Inv.loadedAccount (h : Inv P e whole T M X u d tr) (he : e ≠ .account) {a : Account}
    (ha : P.Leads a) : Inv P e whole T M X (u.loadedOne .account a) d tr := by
  refine h.of_frame (frame_loadedOne he a) (fun _ => rfl) ?_
  intro r hr
  rw [u.loadedOne_store .account a] at hr
  cases hr
  have hcell : (u.loadedOne .account a).heap.cell .account u.heap.next = a :=
    u.heap.alloc_cell_self .account a
  rwa [hcell]

def Reading (P : Party) (e : EntityKind) (whole : Prop) (T M : Ref → Prop) (X : List Stmt)
    (rows : List (Row e)) (u : UnitOfWork) (d : Data) (tr : List (Event Op.Resp Data)) : Prop :=
  Inv P e whole T M X u d tr ∧ P.rows d e = rows

theorem Reading.stable {rows : List (Row e)} : ∀ d d', P.Apart d d' →
    Reading P e whole T M X rows u d tr → Reading P e whole T M X rows u d' tr :=
  fun _ _ hd h => ⟨h.1.apart hd, (hd.rows e).trans h.2⟩

theorem rows_cacheSet {e' : EntityKind} {id : UInt64} {v : Cached e'} {done : Bool}
    (hs : Data.Step (.cacheSet e' id v) d done d') : P.rows d' e = P.rows d e := by
  rcases hs with ⟨-, rfl⟩ | ⟨-, rfl⟩
  · rfl
  · rfl

def Loaded (P : Party) (e : EntityKind) (whole : Prop) (T M : Ref → Prop) (X : List Stmt)
    (rows : List (Row e)) (u : UnitOfWork) (r : Except GoError Ref) (u' : UnitOfWork)
    (s : Data × List (Event Op.Resp Data)) : Prop :=
  Reading P e whole T M X rows u' s.1 s.2 ∧ Frame e u u' ∧
    ∀ ref, r = .ok ref → P.Leads (u'.heap.cell .account ref)

theorem account_wp {rows : List (Row e)} (h : Reading P e whole T M X rows u d tr)
    (he : e ≠ .account) :
    UowM.wp P.others.traced (account P.container) (Loaded P e whole T M X rows u)
      (fun _ _ => True) u (d, tr) := by
  refine wp_local rfl ?_
  cases hstore : u.store .account with
  | some s =>
    cases s with
    | many rs => trivial
    | one r =>
      refine ⟨h, .refl, fun ref href => ?_⟩
      cases href
      exact h.1.stored r hstore
  | none =>
    change UowM.wp _ (if u.userID = 0 then _ else _) _ _ u _
    have hid : u.scopeID EntityKind.account.owner = P.ids .user := h.1.scope .user
    split_ifs
    · refine ⟨h, .refl, fun ref href => ?_⟩
      cases href
    · refine wp_ask Reading.stable h ?_
      intro d₁ h₁ r d₂ hs
      obtain ⟨rfl, hr⟩ := hs
      have h₂ := h₁.1.read ⟨.cacheGet .account u.userID, r, d₂, d₂⟩ fun _ _ hw => hw
      cases hone : cachedOne r with
      | some a =>
        have ha : P.Leads a := by
          refine h₁.1.cached a ?_
          have hsome := cachedOne_eq_some.mp hone
          rw [hsome, hid] at hr
          have hfield : some (Cached.one a) =
              d₂.cache EntityKind.account.owner (P.ids .user) .account := by
            simpa using hr
          exact hfield.symm
        have h₃ := h₂.loadedAccount he ha
        refine wp_local rfl (wp_local rfl ⟨⟨h₃, h₁.2⟩, frame_loadedOne he a, fun ref href => ?_⟩)
        cases href
        exact h₃.stored _ (u.loadedOne_store .account a)
      | none =>
        refine wp_local rfl (wp_ask Reading.stable ⟨h₂, h₁.2⟩ ?_)
        intro d₃ h₃ found d₄ hs₄
        obtain ⟨rfl, hfound⟩ := hs₄
        have h₄ := h₃.1.read
          ⟨.select P.container.gameDB .account u.userID, found, d₄, d₄⟩ fun _ _ hw => hw
        cases found with
        | none =>
          refine ⟨⟨h₄, h₃.2⟩, .refl, fun ref href => ?_⟩
          cases href
        | some ms =>
          cases ms with
          | nil =>
            refine ⟨⟨h₄, h₃.2⟩, .refl, fun ref href => ?_⟩
            cases href
          | cons a ms =>
            have ha : P.Leads a := by
              refine h₃.1.accounts a ?_
              have hsel : a :: ms = (d₄.db P.container.gameDB).select .account
                  (u.scopeID EntityKind.account.owner) := by
                simpa using hfound
              rw [← hid, ← hsel]
              exact List.mem_cons_self
            have h₅ := h₄.loadedAccount he ha
            refine wp_local rfl (wp_local rfl (wp_ask Reading.stable ⟨h₅, h₃.2⟩ ?_))
            intro d₆ h₆ done d₇ hs₇
            have h₇ := h₆.1.cacheSet hs₇ (by
              intro a' ha'
              have hsame : a = a' := by simpa [Fields.single] using ha'
              rwa [← hsame])
            refine ⟨⟨h₇, (rows_cacheSet hs₇).trans h₆.2⟩, frame_loadedOne he a, fun ref href => ?_⟩
            cases href
            exact h₇.stored _ (u.loadedOne_store .account a)

def Routed (P : Party) (e : EntityKind) (whole : Prop) (T M : Ref → Prop) (X : List Stmt)
    (rows : List (Row e)) (u : UnitOfWork) (e' : EntityKind) (r : Except GoError (Option DbId))
    (u' : UnitOfWork) (s : Data × List (Event Op.Resp Data)) : Prop :=
  (∃ db, r = .ok db ∧ (db = none ∨ db = some (P.home e'))) ∧
    Reading P e whole T M X rows u' s.1 s.2 ∧ Frame e u u'

theorem routedDB_wp {rows : List (Row e)} (h : Reading P e whole T M X rows u d tr)
    (he : e ≠ .account) (e' : EntityKind) :
    UowM.wp P.others.traced (routedDB P.container e') (Routed P e whole T M X rows u e')
      (fun _ _ => True) u (d, tr) := by
  unfold routedDB
  by_cases hgame : e'.isGameDB = true
  · rw [if_pos hgame]
    refine ⟨⟨_, rfl, Or.inr ?_⟩, h, .refl⟩
    rw [Party.home, if_pos hgame]
  · rw [if_neg hgame]
    refine wp_bind (wp_attempt (wp_mono ?_ (fun _ _ h => h) (account_wp h he)))
    intro r u' s hpost
    obtain ⟨h', hframe, hleads⟩ := hpost
    cases r with
    | error err => exact ⟨⟨none, rfl, Or.inl rfl⟩, h', hframe⟩
    | ok ref =>
      refine wp_local rfl ⟨⟨_, rfl, ?_⟩, h', hframe⟩
      cases hshard : P.container.shards.getShard
          (Account.dbShardID (u'.heap.cell .account ref)) with
      | none => exact Or.inl rfl
      | some db =>
        have hdb := hleads ref rfl db hshard
        rw [Party.home, if_neg hgame, hdb]
        exact Or.inr rfl

end

/-! ## Calls -/

/-- What a handler can ask of the unit of work about models of list kinds. -/
inductive UnitCall
  | loadList (e : EntityKind)
  | new (e : EntityKind) (m : Row e)
  | assign (e : EntityKind) (r : Ref) (m : Row e)
  | create (e : EntityKind) (r : Ref)
  | createNow (e : EntityKind) (r : Ref)
  | update (e : EntityKind) (r : Ref)

namespace UnitCall

def run (c : Container) : UnitCall → UowM (List Ref)
  | loadList e => Uow.loadList c e
  | new e m => Uow.new e m >>= fun r => pure [r]
  | assign e r m => setModel e r (fun _ => m) >>= fun _ => pure []
  | create e r => Uow.create c e r >>= fun _ => pure []
  | createNow e r => Uow.createNow c e r >>= fun _ => pure []
  | update e r => Uow.update c e r >>= fun _ => pure []

end UnitCall

/-- The models assigned to since `CreateNow` inserted them, if it did; the latest call first. -/
def assigned (e : EntityKind) : List UnitCall → Ref → Prop
  | [], _ => False
  | .assign e' r' _ :: calls, r => (e' = e ∧ r = r') ∨ assigned e calls r
  | .createNow e' r' :: calls, r => ¬ (e' = e ∧ r = r') ∧ assigned e calls r
  | _ :: calls, r => assigned e calls r

def made (e : EntityKind) (calls : List UnitCall) (r : Ref) : Prop := .createNow e r ∈ calls

/-- The models that need not be equal to their rows: those assigned to, and unless the cached
lists are `whole` those that a `LoadList` may have found in the cache. -/
def loose (e : EntityKind) (whole : Prop) (calls : List UnitCall) (r : Ref) : Prop :=
  assigned e calls r ∨ ¬ whole ∧ ¬ made e calls r

/-- Models that `LoadList` may find in the cache. With `whole` they are the rows; otherwise they
may be older, but each has the key of a row, and no two the same. -/
def Cacheable (P : Party) (whole : Prop) (d : Data) (e : EntityKind) (ms : List (Row e)) : Prop :=
  (whole ∧ ms.Perm (P.rows d e)) ∨
    (¬ whole ∧ (ms.map Row.primaryKey).Nodup ∧
      ∀ m ∈ ms, P.mine e m = true ∧ ∃ row ∈ P.rows d e, row.primaryKey = m.primaryKey)

def CacheAgrees (P : Party) (whole : Prop) (d : Data) (e : EntityKind) : Prop :=
  ∀ ms, d.cache e.owner (P.ids e.owner) e = some (.many ms) → Cacheable P whole d e ms

/-- A model that can be created: it is not stored yet, its columns are the party's, and with
`whole` the list it starts has no rows. -/
structure Creatable (P : Party) (whole : Prop) (u : UnitOfWork) (d : Data) (e : EntityKind)
    (r : Ref) : Prop where
  new : r ∉ refsOf e u
  pointer : r < u.heap.next
  mine : P.mine e (u.heap.cell e r) = true
  rows : whole → u.store e = none → P.rows d e = []

/-- What the calls on the kinds `K` have to respect for their lists to stay true to the rows. -/
def Proper (P : Party) (K : EntityKind → Prop) (whole : Prop) (u : UnitOfWork) (d : Data) :
    UnitCall → Prop
  | .loadList e => e.isSingleton = false ∧ (K e → u.store e = none → CacheAgrees P whole d e)
  | .new e _ => e.isSingleton = false
  | .assign e r m => e.isSingleton = false ∧ (K e → r ∈ refsOf e u → P.mine e m = true ∧
      (.insert e r ∉ (queued e u).map DbOp.stmt → m.primaryKey = (u.heap.cell e r).primaryKey))
  | .create e r => e.isSingleton = false ∧ (K e → Creatable P whole u d e r)
  | .createNow e r => e.isSingleton = false ∧ (K e → Creatable P whole u d e r)
  | .update e r => e.isSingleton = false ∧ (K e → r ∈ refsOf e u)

/-- A sequence of calls among other requests, the latest call first, with the calls that it
has made of the services. A call that fails leaves the session to the handler. -/
inductive Session (P : Party) (ok : UnitOfWork → Data → UnitCall → Prop) (u₀ : UnitOfWork)
    (d₀ : Data) : List UnitCall → UnitOfWork → Data → List (Event Op.Resp Data) → Prop
  | start : Session P ok u₀ d₀ [] u₀ d₀ []
  | call {calls u d tr call r u' d' tr'} : Session P ok u₀ d₀ calls u d tr → ok u d call →
      Runs Data.Step P.Apart (call.run P.container u) d tr' (.ret (r, u')) d' →
      Session P ok u₀ d₀ (call :: calls) u' d' (tr ++ tr')

/-! ## What each call keeps -/

section

variable {P : Party} {e e' : EntityKind} {whole : Prop} {T T' M M' : Ref → Prop} {X : List Stmt}
  {u u' : UnitOfWork} {d d' : Data} {tr : List (Event Op.Resp Data)} {r : Ref}

theorem mem_marked {e₀ : EntityKind} {r₀ : Ref} : (e₀, r₀) ∈ (u.marked e r).dirty ↔
    (e₀, r₀) ∈ u.dirty ∨ ((entityNameOf e).isSome ∧ e₀ = e ∧ r₀ = r) := by
  unfold UnitOfWork.marked
  split_ifs with hnew
  · simp [hnew.1]
  · constructor
    · exact Or.inl
    · intro h
      rcases h with h | ⟨hname, rfl, rfl⟩
      · exact h
      · by_contra hmem
        exact hnew ⟨hname, hmem⟩

theorem mem_marked_queued {made : List Ref} {s₀ : Stmt} {r' : Ref}
    (hname : (entityNameOf e).isSome) (hs₀ : s₀.ref = r)
    (hdirty : (e, r') ∈ u.dirty ↔ r' ∈ made ∨ ∃ s ∈ X, s.ref = r') :
    (e, r') ∈ (u.marked e r).dirty ↔ r' ∈ made ∨ ∃ s ∈ X ++ [s₀], s.ref = r' := by
  rw [mem_marked, hdirty, or_assoc]
  refine or_congr Iff.rfl ?_
  constructor
  · rintro (⟨s, hs, hr'⟩ | ⟨-, -, hr'⟩)
    · exact ⟨s, List.mem_append_left _ hs, hr'⟩
    · exact ⟨s₀, by simp, hs₀.trans hr'.symm⟩
  · rintro ⟨s, hs, hr'⟩
    rcases List.mem_append.mp hs with hs | hs
    · exact Or.inl ⟨s, hs, hr'⟩
    · rw [List.mem_singleton.mp hs, hs₀] at hr'
      exact Or.inr ⟨hname, rfl, hr'.symm⟩

theorem backed_queued {M : Ref → Prop} {s₀ : Stmt} {r' : Ref} (hs₀ : s₀.ref = r)
    (h : (e, r') ∈ u.dirty → M r' ∨ ∃ s ∈ X, s.ref = r')
    (hr' : (e, r') ∈ u.dirty ∨ ((entityNameOf e).isSome ∧ e = e ∧ r' = r)) :
    M r' ∨ ∃ s ∈ X ++ [s₀], s.ref = r' := by
  rcases hr' with hr' | ⟨-, -, rfl⟩
  · refine (h hr').imp_right fun hqueued => ?_
    obtain ⟨s, hs, href⟩ := hqueued
    exact ⟨s, List.mem_append_left _ hs, href⟩
  · exact Or.inr ⟨s₀, by simp, hs₀⟩

theorem nodup_marked (h : u.dirty.Nodup) : (u.marked e r).dirty.Nodup := by
  unfold UnitOfWork.marked
  split_ifs with hnew
  · refine List.nodup_append.mpr ⟨h, List.nodup_singleton _, ?_⟩
    intro a ha b hb hab
    rw [List.mem_singleton.mp hb] at hab
    exact hnew.2 (hab ▸ ha)
  · exact h

@[simp] theorem queued_marked : queued e' (u.marked e r) = queued e' u := by
  unfold queued
  rw [u.marked_dbOps]

theorem scopeID_marked (o : Owner) : (u.marked e r).scopeID o = u.scopeID o := by
  cases o <;> simp [UnitOfWork.scopeID]

namespace Inv

theorem mono (h : Inv P e whole T M X u d tr) (hT : ∀ r ∈ refsOf e u, T r → T' r) :
    Inv P e whole T' M X u d tr := by
  obtain ⟨hidden, hwhole, hlists⟩ := h.core.lists
  refine ⟨h.scope, h.stored, h.cached, h.accounts, h.typed, h.routed, h.pointers, h.marks,
    ⟨hidden, hwhole, ?_⟩, h.core.marked, h.core.made⟩
  refine ⟨hlists.keys, hlists.nodup, hlists.lt, hlists.refs, hlists.first, hlists.owned, ?_⟩
  obtain ⟨held, row, hperm, hsel, hshows⟩ := hlists.shows
  refine ⟨held, row, hperm, hsel, fun r hr => ⟨(hshows r hr).1, fun hupdate hnot => ?_⟩⟩
  have hmem : r ∈ refsOf e u := hperm.mem_iff.mpr (List.mem_append_left _ hr)
  exact (hshows r hr).2 hupdate fun hTr => hnot (hT r hmem hTr)

theorem making (h : Inv P e whole T M X u d tr) (hM : ∀ r, M r → M' r)
    (hlt : ∀ r, M' r → r < u.heap.next) : Inv P e whole T M' X u d tr :=
  ⟨h.scope, h.stored, h.cached, h.accounts, h.typed, h.routed, hlt,
    fun hname r hr => (h.marks hname r hr).imp_left (hM r), h.core⟩

theorem unloaded (h : Inv P e whole T M X u d tr) (hstore : u.store e = none) :
    refsOf e u = [] ∧ (queued e u).map DbOp.stmt ++ X = [] := by
  have hrefs : refsOf e u = [] := by
    unfold refsOf
    rw [hstore]
  obtain ⟨hidden, -, hlists⟩ := h.core.lists
  refine ⟨hrefs, List.eq_nil_iff_forall_not_mem.mpr fun s hs => ?_⟩
  have hmem := (hlists.refs s hs).2
  rw [hrefs] at hmem
  cases hmem

theorem loadedMany (h : Inv P e whole T M [] u d tr) (he : e.isSingleton = false)
    (hstore : u.store e = none) {ms hidden : List (Row e)} {f : Row e → Row e}
    (hhidden : whole → hidden = []) (hms : (ms.map f ++ hidden).Perm (P.rows d e))
    (howned : ∀ m ∈ ms, P.mine e m = true) (hf : ∀ m ∈ ms, m.primaryKey = (f m).primaryKey)
    (hT : (∀ r, u.heap.next ≤ r → T r) ∨ ∀ m ∈ ms, m = f m) :
    Inv P e whole T M [] (u.loadedMany e ms) d tr := by
  have hne : .account ≠ e := by
    intro heq
    rw [← heq] at he
    cases he
  have hrefs : refsOf e (u.loadedMany e ms) = (u.heap.allocMany e ms).2 := by
    unfold refsOf
    rw [u.loadedMany_store]
  obtain ⟨hnone, hX⟩ := h.unloaded hstore
  obtain ⟨made, hmade, hdirty, hwrote⟩ := h.core.made
  have hempty : made = [] := by
    refine List.eq_nil_iff_forall_not_mem.mpr fun r hr => ?_
    have hmem := (hmade r hr).1
    rw [hnone] at hmem
    cases hmem
  have hqueued : queued e (u.loadedMany e ms) = queued e u := rfl
  have hnext : (u.loadedMany e ms).heap.next = u.heap.next + ms.length :=
    u.heap.allocMany_next e ms
  refine ⟨h.scope, ?_, h.cached, h.accounts, ?_, h.routed, ?_, h.marks, ?_⟩
  · intro r hr
    rw [u.loadedMany_store_of_ne e ms .account hne] at hr
    have hcell : (u.loadedMany e ms).heap.cell .account r = u.heap.cell .account r :=
      u.heap.allocMany_cell_kind hne ms r
    rw [hcell]
    exact h.stored r hr
  · intro r hr
    rw [u.loadedMany_store] at hr
    cases hr
  · intro r hr
    rw [hnext]
    exact Nat.lt_of_lt_of_le (h.pointers r hr) (Nat.le_add_right _ _)
  · rw [hqueued, hX]
    rw [hX] at hdirty
    subst hempty
    refine ⟨⟨hidden, fun hw _ => hhidden hw, ?_⟩, h.core.marked, [], by simp, hdirty,
      by simpa using hwrote⟩
    rw [hrefs]
    exact Lists.loadedAs h.keys hms howned hf hT

theorem enqueue {s : Stmt} {db : Option DbId} (h : Inv P e whole T M (own e [s]) u d tr)
    (hdb : db = none ∨ db = some (P.home s.kind)) :
    Inv P e whole T M [] (u.enqueue db s) d tr := by
  have hqueued : queued e (u.enqueue db s) =
      queued e u ++ [⟨db, s⟩].filter fun op => op.stmt.kind = e := List.filter_append _ _
  have hown : ([⟨db, s⟩].filter fun op : DbOp => op.stmt.kind = e).map DbOp.stmt = own e [s] := by
    by_cases hs : s.kind = e
    · simp [own, hs]
    · simp [own, hs]
  have hstmts : (queued e (u.enqueue db s)).map DbOp.stmt ++ [] =
      (queued e u).map DbOp.stmt ++ own e [s] := by
    rw [hqueued, List.map_append, hown, List.append_nil]
  refine ⟨h.scope, h.stored, h.cached, h.accounts, h.typed, ?_, h.pointers, ?_, ?_⟩
  · intro op hop
    rw [hqueued] at hop
    rcases List.mem_append.mp hop with hop | hop
    · exact h.routed op hop
    · obtain ⟨hmem, hkind⟩ := List.mem_filter.mp hop
      rw [List.mem_singleton.mp hmem] at hkind ⊢
      rw [← of_decide_eq_true hkind]
      exact hdb
  · rw [hstmts]
    exact h.marks
  · rw [hstmts]
    exact ⟨h.core.lists, h.core.marked, h.core.made⟩

end Inv

theorem own_self (s : Stmt) : own s.kind [s] = [s] := by
  simp [own]

theorem own_other {s : Stmt} (h : s.kind ≠ e) : own e [s] = [] := by
  simp [own, h]

theorem ne_account (he : e.isSingleton = false) : e ≠ .account := by
  intro heq
  rw [heq] at he
  cases he

theorem frame_marked (he : e' ≠ e) : Frame e u (u.marked e' r) where
  store := by rw [u.marked_store]
  queued := queued_marked
  dirty r' := by
    rw [mem_marked]
    exact or_iff_left fun h => he h.2.1.symm
  nodup := nodup_marked
  next := by rw [u.marked_heap]
  cell := by rw [u.marked_heap]

def storing (u : UnitOfWork) (e : EntityKind) (r : Ref) : UnitOfWork :=
  (withModel u e r).marked e r

theorem storing_scopeID (o : Owner) : (storing u e r).scopeID o = u.scopeID o := by
  obtain ⟨s, hs⟩ := withModel_cases u e r
  rw [storing, scopeID_marked, hs]
  rfl

@[simp] theorem storing_heap : (storing u e r).heap = u.heap := by
  obtain ⟨s, hs⟩ := withModel_cases u e r
  rw [storing, UnitOfWork.marked_heap, hs]
  rfl

@[simp] theorem queued_storing : queued e' (storing u e r) = queued e' u := by
  obtain ⟨s, hs⟩ := withModel_cases u e r
  rw [storing, queued_marked, hs]
  rfl

theorem storing_store_of_ne (he : e' ≠ e) : (storing u e' r).store e = u.store e := by
  obtain ⟨s, hs⟩ := withModel_cases u e' r
  rw [storing, UnitOfWork.marked_store, hs]
  exact u.setStore_store_of_ne e' he.symm s

theorem dirty_withModel : (withModel u e r).dirty = u.dirty := by
  obtain ⟨s, hs⟩ := withModel_cases u e r
  rw [hs]
  rfl

theorem mem_storing {e₀ : EntityKind} {r₀ : Ref} : (e₀, r₀) ∈ (storing u e r).dirty ↔
    (e₀, r₀) ∈ u.dirty ∨ ((entityNameOf e).isSome ∧ e₀ = e ∧ r₀ = r) := by
  rw [storing, mem_marked, dirty_withModel]

theorem nodup_storing (h : u.dirty.Nodup) : (storing u e r).dirty.Nodup := by
  refine nodup_marked ?_
  rwa [dirty_withModel]

theorem frame_storing (he : e' ≠ e) : Frame e u (storing u e' r) where
  store := storing_store_of_ne he
  queued := queued_storing
  dirty r' := by
    rw [mem_storing]
    exact or_iff_left fun h => he h.2.1.symm
  nodup := nodup_storing
  next := by rw [storing_heap]
  cell := by rw [storing_heap]

theorem refsOf_storing (he : e.isSingleton = false) (htyped : ∀ r, u.store e ≠ some (.one r)) :
    refsOf e (storing u e r) = refsOf e u ++ [r] := by
  unfold storing refsOf withModel
  rw [UnitOfWork.marked_store, if_neg (by simp [he])]
  cases hs : u.store e with
  | none => simp
  | some s =>
    cases s with
    | one r' => exact absurd hs (htyped r')
    | many rs => simp

theorem storing_typed (he : e.isSingleton = false) (htyped : ∀ r, u.store e ≠ some (.one r)) :
    ∀ r', (storing u e r).store e ≠ some (.one r') := by
  intro r' hr'
  have hrefs := refsOf_storing (r := r) he htyped
  unfold refsOf at hrefs
  rw [hr'] at hrefs
  simp at hrefs

namespace Inv

theorem stored_storing (h : Inv P e whole T M X u d tr) (he' : e' ≠ .account) :
    ∀ r', (storing u e' r).store .account = some (.one r') →
      P.Leads ((storing u e' r).heap.cell .account r') := by
  rw [storing_store_of_ne he', storing_heap]
  exact h.stored

theorem hidden_of_creatable (hc : Creatable P whole u d e r) {hidden : List (Row e)}
    (hwhole : whole → u.store e ≠ none → hidden = []) {h : Heap} {rs : List Ref}
    (hl : Lists e (P.mine e) T hidden X rs h (P.table d e)) : whole → hidden = [] := by
  intro hw
  by_cases hstore : u.store e = none
  · obtain ⟨held, row, -, hsel, -⟩ := hl.shows
    have hnone : (P.table d e).filter (P.mine e) = [] := hc.rows hw hstore
    rw [hnone] at hsel
    exact (List.append_eq_nil_iff.mp hsel.eq_nil).2
  · exact hwhole hw hstore

theorem created (h : Inv P e whole T M [] u d tr) (he' : e'.isSingleton = false)
    (hc : e' = e → Creatable P whole u d e r) :
    Inv P e whole T M (own e [.insert e' r]) (storing u e' r) d tr := by
  have hstored := h.stored_storing (r := r) (ne_account he')
  by_cases he : e' = e
  · subst he
    have hc := hc rfl
    obtain ⟨hidden, hwhole, hlists⟩ := h.core.lists
    obtain ⟨made, hmade, hdirty, hwrote⟩ := h.core.made
    rw [List.append_nil] at hlists hmade hdirty
    have hown : own e' [.insert e' r] = [.insert e' r] := own_self (.insert e' r)
    have hmarks := h.marks
    rw [List.append_nil] at hmarks
    refine ⟨fun o => (storing_scopeID o).trans (h.scope o), hstored, h.cached, h.accounts,
      storing_typed he' h.typed, ?_, ?_, ?_, ?_⟩
    · rw [queued_storing]
      exact h.routed
    · rw [storing_heap]
      exact h.pointers
    · intro hname r' hr'
      rw [queued_storing, hown]
      exact backed_queued rfl (hmarks hname r') (mem_storing.mp hr')
    · rw [queued_storing, hown]
      refine ⟨⟨hidden, fun hw _ => hidden_of_creatable hc hwhole hlists hw, ?_⟩,
        nodup_storing h.core.marked, made, ?_, ?_, ?_⟩
      · rw [refsOf_storing he' h.typed, storing_heap]
        exact hlists.queueInsert hc.new hc.pointer hc.mine
      · intro r' hr'
        obtain ⟨hmem, hnot⟩ := hmade r' hr'
        rw [refsOf_storing he' h.typed]
        refine ⟨List.mem_append_left _ hmem, fun hins => ?_⟩
        rcases List.mem_append.mp hins with hins | hins
        · exact hnot hins
        · cases List.mem_singleton.mp hins
          exact hc.new hmem
      · intro hname r'
        refine mem_marked_queued hname rfl ?_
        rw [dirty_withModel]
        exact hdirty hname r'
      · rw [storing_heap]
        exact hwrote
  · rw [own_other (s := .insert e' r) he]
    exact h.of_frame (frame_storing he) storing_scopeID hstored

theorem updating (h : Inv P e whole T M [] u d tr) (hr : e' = e → r ∈ refsOf e u) :
    Inv P e whole T M (own e [.update e' r]) (u.marked e' r) d tr := by
  have hscope : ∀ o, (u.marked e' r).scopeID o = u.scopeID o := fun o => scopeID_marked o
  have hstored : ∀ r', (u.marked e' r).store .account = some (.one r') →
      P.Leads ((u.marked e' r).heap.cell .account r') := by
    rw [u.marked_store, u.marked_heap]
    exact h.stored
  by_cases he : e' = e
  · subst he
    have hrefs : refsOf e' (u.marked e' r) = refsOf e' u := by
      unfold refsOf
      rw [u.marked_store]
    obtain ⟨hidden, hwhole, hlists⟩ := h.core.lists
    obtain ⟨made, hmade, hdirty, hwrote⟩ := h.core.made
    rw [List.append_nil] at hlists hmade hdirty
    have hown : own e' [.update e' r] = [.update e' r] := own_self (.update e' r)
    have hmarks := h.marks
    rw [List.append_nil] at hmarks
    refine ⟨fun o => (hscope o).trans (h.scope o), hstored, h.cached, h.accounts, ?_, ?_, ?_, ?_,
      ?_⟩
    · rw [u.marked_store]
      exact h.typed
    · rw [queued_marked]
      exact h.routed
    · rw [u.marked_heap]
      exact h.pointers
    · intro hname r' hr'
      rw [queued_marked, hown]
      exact backed_queued rfl (hmarks hname r') (mem_marked.mp hr')
    · rw [queued_marked, hown]
      refine ⟨⟨hidden, ?_, ?_⟩, nodup_marked h.core.marked, made, ?_, ?_, ?_⟩
      · rwa [u.marked_store]
      · rw [hrefs, u.marked_heap]
        exact hlists.queueUpdate (hr rfl)
      · intro r' hr'
        obtain ⟨hmem, hnot⟩ := hmade r' hr'
        rw [hrefs]
        refine ⟨hmem, fun hins => ?_⟩
        rcases List.mem_append.mp hins with hins | hins
        · exact hnot hins
        · cases List.mem_singleton.mp hins
      · exact fun hname r' => mem_marked_queued hname rfl (hdirty hname r')
      · rwa [u.marked_heap]
  · rw [own_other (s := .update e' r) he]
    exact h.of_frame (frame_marked he) hscope hstored

end Inv
end

/-! ### Rows and cells of other kinds -/

theorem db_insert_other (d : Data) {e e' : EntityKind} (he : e ≠ e') (db db' : DbId) (m : Row e') :
    ((d.setDb db ((d.db db).insert e' m)).db db') e = (d.db db') e := by
  rw [Data.setDb_db]
  split_ifs with hdb
  · rw [Tables.insert_of_ne _ he, hdb]
  · rfl

theorem accounts_insert (d : Data) {e' : EntityKind} (he : e' ≠ .account) (db db' : DbId)
    (m : Row e') (id : UInt64) :
    ((d.setDb db ((d.db db).insert e' m)).db db').select .account id =
      (d.db db').select .account id := by
  unfold Tables.select
  rw [db_insert_other d he.symm]

section

variable {P : Party} {e e' : EntityKind} {whole : Prop} {T T' M M' : Ref → Prop} {X : List Stmt}
  {u u' : UnitOfWork} {d d' : Data} {tr : List (Event Op.Resp Data)} {r : Ref}

theorem frame_changed (he : e' ≠ e) {f : Row e' → Row e'} : Frame e u (u.changed e' r f) where
  store := rfl
  queued := rfl
  dirty _ := Iff.rfl
  nodup h := h
  next := le_refl _
  cell := by
    funext r'
    exact u.heap.set_cell_kind he.symm r r' _

namespace Inv

theorem stored_changed (h : Inv P e whole T M X u d tr) (he' : e' ≠ .account)
    {f : Row e' → Row e'} : ∀ r', (u.changed e' r f).store .account = some (.one r') →
      P.Leads ((u.changed e' r f).heap.cell .account r') := by
  intro r' hr'
  have hcell : (u.changed e' r f).heap.cell .account r' = u.heap.cell .account r' :=
    u.heap.set_cell_kind he'.symm r r' _
  rw [hcell]
  exact h.stored r' hr'

theorem changed (h : Inv P e whole T M [] u d tr) (he' : e'.isSingleton = false) {m : Row e'}
    (hm : e' = e → r ∈ refsOf e u → P.mine e' m = true ∧
      (.insert e r ∉ (queued e u).map DbOp.stmt → m.primaryKey = (u.heap.cell e' r).primaryKey)) :
    Inv P e whole (fun r' => (e' = e ∧ r' = r) ∨ T r') M [] (u.changed e' r fun _ => m) d tr := by
  have hstored := h.stored_changed (r := r) (f := fun _ => m) (ne_account he')
  by_cases he : e' = e
  · subst he
    have hm := hm rfl
    obtain ⟨hidden, hwhole, hlists⟩ := h.core.lists
    obtain ⟨made, hmade, hdirty, hwrote⟩ := h.core.made
    rw [List.append_nil] at hlists hmade hdirty
    refine ⟨h.scope, hstored, h.cached, h.accounts, h.typed, h.routed, h.pointers, h.marks, ?_⟩
    rw [List.append_nil]
    refine ⟨⟨hidden, hwhole, ?_⟩, h.core.marked, made, hmade, hdirty, ?_⟩
    · have hassigned := hlists.assign hm
      have hT : (fun r' => (e' = e' ∧ r' = r) ∨ T r') = fun r' => r' = r ∨ T r' := by
        simp only [true_and]
      rw [hT]
      exact hassigned
    · intro db k
      have hkeys : ∀ r' ∈ made, ((u.changed e' r fun _ => m).heap.cell e' r').primaryKey =
          (u.heap.cell e' r').primaryKey := by
        intro r' hr'
        obtain ⟨hmem, hnot⟩ := hmade r' hr'
        by_cases hrr : r' = r
        · subst hrr
          have hcell : (u.changed e' r' fun _ => m).heap.cell e' r' = m :=
            u.heap.set_cell_self e' r' m
          rw [hcell]
          exact (hm hmem).2 hnot
        · have hcell : (u.changed e' r fun _ => m).heap.cell e' r' = u.heap.cell e' r' :=
            u.heap.set_cell_of_ne e' hrr m
          rw [hcell]
      rw [hwrote]
      refine and_congr Iff.rfl ⟨?_, ?_⟩
      · rintro ⟨r', hr', hk⟩
        exact ⟨r', hr', (hkeys r' hr').trans hk⟩
      · rintro ⟨r', hr', hk⟩
        exact ⟨r', hr', (hkeys r' hr').symm.trans hk⟩
  · refine (h.of_frame (frame_changed he) (fun _ => rfl) hstored).mono ?_
    exact fun _ _ hT => Or.inr hT

theorem allocated (h : Inv P e whole T M [] u d tr) (he' : e'.isSingleton = false) (m : Row e') :
    Inv P e whole T M [] { u with heap := (u.heap.alloc e' m).1 } d tr := by
  have hold : ∀ e₀ r₀, r₀ < u.heap.next → (u.heap.alloc e' m).1.cell e₀ r₀ = u.heap.cell e₀ r₀ :=
    fun e₀ r₀ hr₀ => u.heap.alloc_cell_of_lt e' e₀ m hr₀
  obtain ⟨hidden, hwhole, hlists⟩ := h.core.lists
  obtain ⟨made, hmade, hdirty, hwrote⟩ := h.core.made
  refine ⟨h.scope, ?_, h.cached, h.accounts, h.typed, h.routed,
    fun r' hr' => (h.pointers r' hr').trans (Nat.lt_succ_self _), h.marks, ⟨hidden, hwhole, ?_⟩,
    h.core.marked, made, hmade, hdirty, ?_⟩
  · intro r' hr'
    have hcell : (u.heap.alloc e' m).1.cell .account r' = u.heap.cell .account r' :=
      u.heap.set_cell_kind (ne_account he').symm u.heap.next r' m
    change P.Leads ((u.heap.alloc e' m).1.cell .account r')
    rw [hcell]
    exact h.stored r' hr'
  · exact hlists.congr (Nat.le_succ _) (fun r' hr' => hold e r' (hlists.lt r' hr')) hlists.keys rfl
  · intro db k
    rw [hwrote]
    refine and_congr Iff.rfl (exists_congr fun r' => and_congr_right fun hr' => ?_)
    change _ ↔ ((u.heap.alloc e' m).1.cell e r').primaryKey = k
    rw [hold e r' (hlists.lt r' (hmade r' hr').1)]

theorem insertedNow (h : Inv P e whole T M [] u d tr) (he' : e'.isSingleton = false)
    (hc : e' = e → Creatable P whole u d e r) {k : UInt64}
    (hfresh : (d.db (P.home e')).Fresh e' k) (hd : d' = d.setDb (P.home e')
      ((d.db (P.home e')).insert e' ((u.heap.cell e' r).setPrimaryKey k))) :
    Inv P e whole (fun r' => ¬ (e' = e ∧ r' = r) ∧ T r') (fun r' => (e' = e ∧ r' = r) ∨ M r') []
      (storing (u.changed e' r (Row.setPrimaryKey k)) e' r) d'
      (tr ++ [⟨.create (P.home e') e' (u.heap.cell e' r), some k, d, d'⟩]) := by
  have hacc := ne_account he'
  have hstored : ∀ r', (storing (u.changed e' r (Row.setPrimaryKey k)) e' r).store .account =
      some (.one r') → P.Leads ((storing (u.changed e' r (Row.setPrimaryKey k)) e' r).heap.cell
        .account r') := by
    rw [storing_store_of_ne hacc, storing_heap]
    exact h.stored_changed hacc
  have haccounts : ∀ a ∈ (d'.db P.container.gameDB).select .account (P.ids .user), P.Leads a := by
    rw [hd, accounts_insert d hacc]
    exact h.accounts
  have hcached : ∀ a, d'.cache .user (P.ids .user) .account = some (.one a) → P.Leads a := by
    rw [hd]
    exact h.cached
  by_cases he : e' = e
  · subst he
    have hc := hc rfl
    have htyped : ∀ r', (u.changed e' r (Row.setPrimaryKey k)).store e' ≠ some (.one r') := h.typed
    have hrefs : refsOf e' (storing (u.changed e' r (Row.setPrimaryKey k)) e' r) =
        refsOf e' u ++ [r] := refsOf_storing he' htyped
    have htable : P.table d' e' = P.table d e' ++ [(u.heap.cell e' r).setPrimaryKey k] := by
      rw [hd]
      unfold Party.table
      rw [Data.setDb_db_self, Tables.insert_self]
    have hother : ∀ r' ∈ refsOf e' u, T r' → ¬ (e' = e' ∧ r' = r) ∧ T r' := by
      intro r' hr' hT
      refine ⟨?_, hT⟩
      rintro ⟨-, rfl⟩
      exact hc.new hr'
    have hmono := h.mono hother
    obtain ⟨hidden, hwhole, hlists⟩ := hmono.core.lists
    obtain ⟨made, hmade, hdirty, hwrote⟩ := h.core.made
    have hmarks := h.marks
    rw [List.append_nil] at hlists hmade hdirty hmarks
    refine ⟨fun o => (storing_scopeID o).trans (h.scope o), hstored, hcached, haccounts,
      storing_typed he' htyped, ?_, ?_, ?_, ?_⟩
    · rw [queued_storing]
      exact h.routed
    · rw [storing_heap]
      rintro r' (⟨-, rfl⟩ | hr')
      · exact hc.pointer
      · exact h.pointers r' hr'
    · intro hname r' hr'
      rw [queued_storing, List.append_nil]
      rcases mem_storing.mp hr' with hr' | ⟨-, -, rfl⟩
      · exact (hmarks hname r' hr').imp_left Or.inr
      · exact Or.inl (Or.inl ⟨rfl, rfl⟩)
    · rw [queued_storing, List.append_nil]
      refine ⟨⟨hidden, fun hw _ => hidden_of_creatable hc hwhole hlists hw, ?_⟩,
        nodup_storing h.core.marked, made ++ [r], ?_, ?_, ?_⟩
      · rw [hrefs, storing_heap, htable]
        exact hlists.inserted hc.new hc.pointer hc.mine hfresh.2 (P.mine_key he' k _)
      · intro r' hr'
        rw [hrefs]
        rcases List.mem_append.mp hr' with hr' | hr'
        · exact ⟨List.mem_append_left _ (hmade r' hr').1, (hmade r' hr').2⟩
        · rw [List.mem_singleton.mp hr']
          refine ⟨List.mem_append_right _ (List.mem_singleton.mpr rfl), fun hins => ?_⟩
          exact hc.new (hlists.refs _ hins).2
      · intro hname r'
        have hold : (e', r') ∈ (u.changed e' r (Row.setPrimaryKey k)).dirty ↔
            r' ∈ made ∨ ∃ s ∈ (queued e' u).map DbOp.stmt, s.ref = r' := hdirty hname r'
        rw [mem_storing, hold, List.mem_append, List.mem_singleton, or_right_comm]
        refine or_congr (or_congr Iff.rfl ?_) Iff.rfl
        exact ⟨fun h => h.2.2, fun h => ⟨hname, rfl, h⟩⟩
      · intro db k'
        rw [wrote_append, hwrote, wrote_singleton, storing_heap]
        have hcell : ∀ r' ∈ made, (u.changed e' r (Row.setPrimaryKey k)).heap.cell e' r' =
            u.heap.cell e' r' := by
          intro r' hr'
          have hne : r' ≠ r := by
            rintro rfl
            exact hc.new (hmade r' hr').1
          exact u.heap.set_cell_of_ne e' hne _
        have hself : ((u.changed e' r (Row.setPrimaryKey k)).heap.cell e' r).primaryKey = k := by
          have hset : (u.changed e' r (Row.setPrimaryKey k)).heap.cell e' r =
              (u.heap.cell e' r).setPrimaryKey k := u.heap.set_cell_self e' r _
          rw [hset, Row.primaryKey_setPrimaryKey]
        constructor
        · rintro (⟨hdb, r', hr', hk⟩ | ⟨hdb, -, hk⟩)
          · refine ⟨hdb, r', List.mem_append_left _ hr', ?_⟩
            rwa [hcell r' hr']
          · exact ⟨hdb.symm, r, List.mem_append_right _ (List.mem_singleton.mpr rfl),
              hself.trans hk⟩
        · rintro ⟨hdb, r', hr', hk⟩
          rcases List.mem_append.mp hr' with hr' | hr'
          · rw [hcell r' hr'] at hk
            exact Or.inl ⟨hdb, r', hr', hk⟩
          · rw [List.mem_singleton.mp hr', hself] at hk
            exact Or.inr ⟨hdb.symm, rfl, hk⟩
  · have hsame : P.table d' e = P.table d e := by
      rw [hd]
      exact db_insert_other d (Ne.symm he) _ _ _
    have hmoved : Inv P e whole T M [] u d'
        (tr ++ [⟨.create (P.home e') e' (u.heap.cell e' r), some k, d, d'⟩]) := by
      refine h.of_data hcached haccounts ?_ ?_ ?_
      · rw [hsame]
        exact h.keys
      · unfold Party.rows
        rw [hsame]
      · intro db k' hw
        exact he (wrote_singleton.mp hw).2.1
    have hframe : Frame e u (u.changed e' r (Row.setPrimaryKey k)) := frame_changed he
    have hstoring := hmoved.of_frame (hframe.trans (frame_storing he)) storing_scopeID hstored
    refine (hstoring.mono fun r' _ hT => ⟨fun hsame => he hsame.1, hT⟩).making ?_ ?_
    · exact fun _ => Or.inr
    · rintro r' (⟨hsame, -⟩ | hr')
      · exact absurd hsame he
      · exact hstoring.pointers r' hr'

end Inv
end

/-! ## Weakest preconditions of the calls -/

section

variable {P : Party} {e e' : EntityKind} {whole : Prop} {T T' M M' : Ref → Prop} {X : List Stmt}
  {u u' : UnitOfWork} {d d' : Data} {tr : List (Event Op.Resp Data)} {r : Ref}

theorem single_many {ms : List (Row e)} {a : Account} :
    Fields.single e (.many ms) .account ≠ some (.one a) := by
  by_cases he : EntityKind.account = e
  · subst he
    simp [Fields.single]
  · simp [Fields.single, Function.update_of_ne he, Fields.none]

theorem frame_loadedMany (he : e' ≠ e) (ms : List (Row e')) : Frame e u (u.loadedMany e' ms) where
  store := u.loadedMany_store_of_ne e' ms e he.symm
  queued := rfl
  dirty _ := Iff.rfl
  nodup h := h
  next := by
    have hnext : (u.loadedMany e' ms).heap.next = u.heap.next + ms.length :=
      u.heap.allocMany_next e' ms
    omega
  cell := by
    funext r
    exact u.heap.allocMany_cell_kind he.symm ms r

theorem Inv.loadedOther (h : Inv P e whole T M [] u d tr) (he' : e'.isSingleton = false)
    (he : e' ≠ e) (ms : List (Row e')) : Inv P e whole T M [] (u.loadedMany e' ms) d tr := by
  have hne := (ne_account he').symm
  refine h.of_frame (frame_loadedMany he ms) (fun _ => rfl) ?_
  intro r hr
  rw [u.loadedMany_store_of_ne e' ms .account hne] at hr
  have hcell : (u.loadedMany e' ms).heap.cell .account r = u.heap.cell .account r :=
    u.heap.allocMany_cell_kind hne ms r
  rw [hcell]
  exact h.stored r hr

def Grows (e : EntityKind) (u u' : UnitOfWork) : Prop := ∀ r ∈ refsOf e u, r ∈ refsOf e u'

theorem Frame.grows (h : Frame e u u') : Grows e u u' := by
  intro r hr
  rwa [h.refsOf]

theorem Grows.of_unloaded (hstore : u.store e = none) : Grows e u u' := by
  intro r hr
  unfold refsOf at hr
  rw [hstore] at hr
  cases hr

theorem grows_storing (he : e'.isSingleton = false) (htyped : ∀ r, u.store e ≠ some (.one r)) :
    Grows e u (storing u e' r) ∧ (e' = e → r ∈ refsOf e (storing u e' r)) := by
  by_cases heq : e' = e
  · subst heq
    rw [Grows, refsOf_storing he htyped]
    exact ⟨fun r' hr' => List.mem_append_left _ hr',
      fun _ => List.mem_append_right _ (List.mem_singleton.mpr rfl)⟩
  · exact ⟨(frame_storing heq).grows, fun h => absurd h heq⟩

theorem CacheAgrees.apart (h : CacheAgrees P whole d e) (hd : P.Apart d d') :
    CacheAgrees P whole d' e := by
  intro ms hms
  rw [hd.cache] at hms
  unfold Cacheable
  rw [hd.rows]
  exact h ms hms

theorem Cacheable.rows {ms : List (Row e)} (h : Cacheable P whole d e ms) :
    ∃ (f : Row e → Row e) (hidden : List (Row e)), (whole → hidden = []) ∧
      (ms.map f ++ hidden).Perm (P.rows d e) ∧ (∀ m ∈ ms, P.mine e m = true) ∧
      (∀ m ∈ ms, m.primaryKey = (f m).primaryKey) ∧ (whole → ∀ m ∈ ms, m = f m) := by
  rcases h with ⟨-, hperm⟩ | ⟨hpart, hnodup, hms⟩
  · refine ⟨id, [], fun _ => rfl, by simpa using hperm, fun m hm => ?_, fun _ _ => rfl,
      fun _ _ _ => rfl⟩
    exact (List.mem_filter.mp (hperm.mem_iff.mp hm)).2
  · obtain ⟨f, hidden, hperm, hf⟩ := Lists.exists_rows hnodup fun m hm => (hms m hm).2
    exact ⟨f, hidden, fun hw => absurd hw hpart, hperm, fun m hm => (hms m hm).1, hf,
      fun hw => absurd hw hpart⟩

theorem select_rows (hwhole : whole → ∀ m : Row e, P.mine e m = true → m.ownerID = P.ids e.owner) :
    ∃ hidden, (whole → hidden = []) ∧
      ((d.db (P.home e)).select e (P.ids e.owner) ++ hidden).Perm (P.rows d e) := by
  refine ⟨(P.rows d e).filter fun m => !decide (m.ownerID = P.ids e.owner), ?_, ?_⟩
  · intro hw
    rw [List.filter_eq_nil_iff]
    intro m hm
    have howner := hwhole hw m (List.mem_filter.mp hm).2
    simp [howner]
  · have hselect : (d.db (P.home e)).select e (P.ids e.owner) =
        (P.rows d e).filter fun m => decide (m.ownerID = P.ids e.owner) := by
      unfold Party.rows
      rw [List.filter_filter]
      refine List.filter_congr fun m _ => ?_
      by_cases howner : m.ownerID = P.ids e.owner
      · simp [howner, P.mine_owner m howner]
      · simp [howner]
    rw [hselect]
    exact List.filter_append_perm _ _

theorem loadList_wp (he' : e'.isSingleton = false)
    (hwhole : whole → ∀ m : Row e, P.mine e m = true → m.ownerID = P.ids e.owner)
    (hcache : e' = e → u.store e = none → CacheAgrees P whole d e)
    (hT : whole ∨ ∀ r, u.heap.next ≤ r → T r) (he : e ≠ .account)
    (h : Inv P e whole T M [] u d tr) :
    UowM.wp P.others.traced (loadList P.container e')
      (fun r u' s => Inv P e whole T M [] u' s.1 s.2 ∧ Grows e u u' ∧
        ∀ rs, r = .ok rs → u'.store e' = some (.many rs))
      (fun _ _ => True) u (d, tr) := by
  refine wp_local rfl ?_
  cases hstore : u.store e' with
  | some s =>
    cases s with
    | one r => trivial
    | many rs =>
      refine ⟨h, Frame.refl.grows, fun rs' hrs' => ?_⟩
      cases hrs'
      exact hstore
  | none =>
    change UowM.wp _ (if u.scopeID e'.owner = 0 then _ else _) _ _ u _
    split_ifs
    · refine ⟨h, Frame.refl.grows, fun rs hrs => ?_⟩
      cases hrs
    · have hagree : e' = e → CacheAgrees P whole d e := by
        intro heq
        refine hcache heq ?_
        rw [← heq]
        exact hstore
      have hid := h.scope e'.owner
      have hgrows : ∀ {u₁ : UnitOfWork} (ms : List (Row e')), Frame e u u₁ →
          Grows e u (u₁.loadedMany e' ms) := by
        intro u₁ ms hframe
        by_cases heq : e' = e
        · exact Grows.of_unloaded (heq ▸ hstore)
        · exact (hframe.trans (frame_loadedMany heq ms)).grows
      refine wp_ask (J := fun d => Inv P e whole T M [] u d tr ∧ (e' = e → CacheAgrees P whole d e))
        (fun _ _ hd hJ => ⟨hJ.1.apart hd, fun heq => (hJ.2 heq).apart hd⟩) ⟨h, hagree⟩ ?_
      intro d₁ hJ cached d₂ hs
      obtain ⟨h₁, hagree₁⟩ := hJ
      obtain ⟨rfl, hcached⟩ := hs
      have h₂ := h₁.read ⟨.cacheGet e' (u.scopeID e'.owner), cached, d₂, d₂⟩
        fun _ _ hw => hw
      cases hmany : cachedMany cached with
      | some ms =>
        refine wp_local rfl (wp_local rfl ⟨?_, hgrows ms .refl, fun rs hrs => ?_⟩)
        · by_cases heq : e' = e
          · subst heq
            have hfield : d₂.cache e'.owner (P.ids e'.owner) e' = some (.many ms) := by
              have hsome := cachedMany_eq_some.mp hmany
              rw [hsome, hid] at hcached
              simpa [eq_comm] using hcached
            obtain ⟨f, hidden, hnone, hperm, howned, hkeys, hsame⟩ :=
              (hagree₁ rfl ms hfield).rows
            exact h₂.loadedMany he' hstore hnone hperm howned hkeys
              (hT.symm.imp_right fun hw => hsame hw)
          · exact h₂.loadedOther he' heq ms
        · cases hrs
          exact u.loadedMany_store e' ms
      | none =>
        refine wp_bind (wp_mono ?_ (fun _ _ h => h) (routedDB_wp ⟨h₂, rfl⟩ he e'))
        intro r u₃ s₃ hpost
        obtain ⟨d₃, tr₃⟩ := s₃
        obtain ⟨⟨db, rfl, hdb⟩, ⟨h₃, -⟩, hframe⟩ := hpost
        cases db with
        | none => trivial
        | some db =>
          have hhome : db = P.home e' := by simpa using hdb
          subst hhome
          refine wp_ask Inv.stable h₃ ?_
          intro d₄ h₄ rows d₅ hs₅
          obtain ⟨rfl, hrows⟩ := hs₅
          have h₅ := h₄.read
            ⟨.select (P.home e') e' (u.scopeID e'.owner), rows, d₅, d₅⟩ fun _ _ hw => hw
          cases rows with
          | none =>
            refine ⟨h₅, hframe.grows, fun rs hrs => ?_⟩
            cases hrs
          | some ms =>
            have hms : ms = (d₅.db (P.home e')).select e' (P.ids e'.owner) := by
              rw [← hid]
              simpa using hrows
            have hloaded : ∀ dₓ trₓ, Inv P e whole T M [] u₃ dₓ trₓ → dₓ = d₅ →
                Inv P e whole T M [] (u₃.loadedMany e' ms) dₓ trₓ := by
              intro dₓ trₓ hₓ hd
              subst hd
              by_cases heq : e' = e
              · subst heq
                obtain ⟨hidden, hnone, hperm⟩ := select_rows (d := dₓ) hwhole
                rw [← hms] at hperm
                have howned : ∀ m ∈ ms, P.mine e' m = true := fun m hm =>
                  (List.mem_filter.mp (hperm.mem_iff.mp (List.mem_append_left _ hm))).2
                exact hₓ.loadedMany (f := id) he' (hframe.store.trans hstore) hnone
                  (by rwa [List.map_id]) howned (fun _ _ => rfl) (.inr fun _ _ => rfl)
              · exact hₓ.loadedOther he' heq ms
            refine wp_local rfl (wp_local rfl (wp_ask Inv.stable (hloaded _ _ h₅ rfl) ?_))
            intro d₆ h₆ done d₇ hs₇
            refine ⟨h₆.cacheSet hs₇ fun a ha => absurd ha single_many, hgrows ms hframe,
              fun rs hrs => ?_⟩
            cases hrs
            exact u₃.loadedMany_store e' ms

theorem Creatable.frame (hc : Creatable P whole u d e r) (hf : Frame e u u') :
    Creatable P whole u' d e r := by
  refine ⟨?_, Nat.lt_of_lt_of_le hc.pointer hf.next, ?_, ?_⟩
  · rw [hf.refsOf]
    exact hc.new
  · rw [hf.cell]
    exact hc.mine
  · rw [hf.store]
    exact hc.rows

theorem create_wp (he' : e'.isSingleton = false) (he : e ≠ .account)
    (hc : e' = e → Creatable P whole u d e r) (h : Inv P e whole T M [] u d tr) :
    UowM.wp P.others.traced (create P.container e' r)
      (fun _ u' s => Inv P e whole T M [] u' s.1 s.2 ∧ Grows e u u' ∧ (e' = e → r ∈ refsOf e u'))
      (fun _ _ => True) u (d, tr) := by
  refine wp_local (storeModel_eq u e' r) (wp_local rfl ?_)
  refine wp_bind (wp_mono ?_ (fun _ _ h => h) (routedDB_wp ⟨h.created he' hc, rfl⟩ he e'))
  intro r' u' s hpost
  obtain ⟨⟨db, rfl, hdb⟩, ⟨h', -⟩, hframe⟩ := hpost
  obtain ⟨hgrows, hstored⟩ := grows_storing (u := u) (r := r) he' h.typed
  have hrefs : refsOf e (u'.enqueue db (.insert e' r)) = refsOf e (storing u e' r) := hframe.refsOf
  refine ⟨h'.enqueue hdb, fun r₀ hr₀ => ?_, fun heq => ?_⟩
  · change r₀ ∈ refsOf e (u'.enqueue db (.insert e' r))
    rw [hrefs]
    exact hgrows r₀ hr₀
  · change r ∈ refsOf e (u'.enqueue db (.insert e' r))
    rw [hrefs]
    exact hstored heq

theorem update_wp (he : e ≠ .account) (hr : e' = e → r ∈ refsOf e u)
    (h : Inv P e whole T M [] u d tr) :
    UowM.wp P.others.traced (update P.container e' r)
      (fun _ u' s => Inv P e whole T M [] u' s.1 s.2 ∧ Grows e u u') (fun _ _ => True) u
        (d, tr) := by
  refine wp_local rfl ?_
  refine wp_bind (wp_mono ?_ (fun _ _ h => h) (routedDB_wp ⟨h.updating hr, rfl⟩ he e'))
  intro r' u' s hpost
  obtain ⟨⟨db, rfl, hdb⟩, ⟨h', -⟩, hframe⟩ := hpost
  refine ⟨h'.enqueue hdb, fun r₀ hr₀ => ?_⟩
  have hrefs : refsOf e (u'.enqueue db (.update e' r)) = refsOf e (u.marked e' r) := hframe.refsOf
  change r₀ ∈ refsOf e (u'.enqueue db (.update e' r))
  rw [hrefs]
  unfold refsOf
  rwa [u.marked_store]

theorem createNow_wp (he' : e'.isSingleton = false) (he : e ≠ .account)
    (hc : e' = e → Creatable P whole u d e r) (h : Inv P e whole T M [] u d tr) :
    UowM.wp P.others.traced (createNow P.container e' r)
      (fun _ u' s => Inv P e whole (fun r' => ¬ (e' = e ∧ r' = r) ∧ T r')
        (fun r' => (e' = e ∧ r' = r) ∨ M r') [] u' s.1 s.2 ∧ Grows e u u')
      (fun _ _ => True) u (d, tr) := by
  refine wp_bind (wp_mono ?_ (fun _ _ h => h) (routedDB_wp ⟨h, rfl⟩ he e'))
  intro r₁ u₁ s₁ hpost
  obtain ⟨d₁, tr₁⟩ := s₁
  obtain ⟨⟨db, rfl, hdb⟩, h₁, hframe⟩ := hpost
  cases db with
  | none => trivial
  | some db =>
    have hhome : db = P.home e' := by simpa using hdb
    subst hhome
    refine wp_local rfl (wp_ask Reading.stable h₁ ?_)
    intro d₂ h₂ key d₃ hs
    have hc₂ : e' = e → Creatable P whole u₁ d₂ e r := by
      intro heq
      have hc₁ := (hc heq).frame hframe
      refine ⟨hc₁.new, hc₁.pointer, hc₁.mine, ?_⟩
      rw [h₂.2]
      exact hc₁.rows
    rcases hs with ⟨rfl, rfl⟩ | ⟨k, hfresh, rfl, hd⟩
    · -- The model is not stored, so that nothing is forgotten about its assignments.
      have hread := h₂.1.read ⟨.create (P.home e') e' (u₁.heap.cell e' r), none, d₃, d₃⟩
        fun _ _ hw => hw
      have hforgotten : Inv P e whole (fun r' => ¬ (e' = e ∧ r' = r) ∧ T r') M [] u₁ d₃ _ :=
        hread.mono fun r' hr' hT => ⟨fun hsame => (hc₂ hsame.1).new (hsame.2 ▸ hr'), hT⟩
      refine ⟨hforgotten.making (fun _ => Or.inr) ?_, hframe.grows⟩
      · rintro r' (⟨heq, rfl⟩ | hr')
        · exact (hc₂ heq).pointer
        · exact hread.pointers r' hr'
    · refine wp_local rfl (wp_local (storeModel_eq _ e' r) (wp_local rfl ?_))
      rw [if_neg (ne_account he')]
      refine ⟨h₂.1.insertedNow he' hc₂ hfresh.1 hd, fun r₀ hr₀ => ?_⟩
      have hstored := grows_storing (u := u₁.changed e' r (Row.setPrimaryKey k)) (r := r) he'
        h₂.1.typed
      exact hstored.1 r₀ (hframe.grows r₀ hr₀)

end

/-! ## Sessions -/

structure Untouched (e : EntityKind) (u : UnitOfWork) : Prop where
  store : u.store e = none
  queued : queued e u = []
  dirty : ∀ r, (e, r) ∉ u.dirty
  nodup : u.dirty.Nodup

structure Starts (P : Party) (u : UnitOfWork) (d : Data) : Prop where
  scope : ∀ o, u.scopeID o = P.ids o
  stored : ∀ r, u.store .account = some (.one r) → P.Leads (u.heap.cell .account r)
  cached : ∀ a, d.cache .user (P.ids .user) .account = some (.one a) → P.Leads a
  accounts : ∀ a ∈ (d.db P.container.gameDB).select .account (P.ids .user), P.Leads a
  keys : ∀ e, ((P.table d e).map Row.primaryKey).Nodup

section

variable {P : Party} {K : EntityKind → Prop} {e : EntityKind} {whole : Prop}
  {u u₀ : UnitOfWork} {d d₀ : Data} {tr : List (Event Op.Resp Data)} {calls : List UnitCall}

theorem Starts.inv (h : Starts P u d) (hu : Untouched e u) :
    Inv P e whole (loose e whole []) (made e []) [] u d [] := by
  have hrefs : refsOf e u = [] := by
    unfold refsOf
    rw [hu.store]
  refine ⟨h.scope, h.stored, h.cached, h.accounts, ?_, ?_, ?_, ?_, ?_⟩
  · rw [hu.store]
    simp
  · rw [hu.queued]
    simp
  · intro r hr
    cases hr
  · exact fun _ r hr => absurd hr (hu.dirty r)
  · rw [hu.queued]
    refine ⟨⟨P.rows d e, fun _ hstore => absurd hu.store hstore, ?_⟩, hu.nodup, [], by simp, ?_, ?_⟩
    · rw [hrefs]
      exact Lists.empty (h.keys e)
    · exact fun _ r => iff_of_false (hu.dirty r) (by simp)
    · simp [Wrote]

def Stores (e : EntityKind) (call : UnitCall) (u u' : UnitOfWork) : Prop :=
  Grows e u u' ∧ ∀ r, call = .create e r → r ∈ refsOf e u'

theorem made_cons {call : UnitCall} {r : Ref} :
    made e (call :: calls) r ↔ call = .createNow e r ∨ made e calls r := by
  simp [made, eq_comm]

theorem loose_cons {call : UnitCall} (hcall : ∀ r, call ≠ .createNow e r) {r : Ref}
    (hassigned : assigned e calls r → assigned e (call :: calls) r)
    (h : loose e whole calls r) : loose e whole (call :: calls) r :=
  h.imp hassigned fun hold =>
    ⟨hold.1, fun hmade => hold.2 ((made_cons.mp hmade).resolve_left (hcall r))⟩

theorem Inv.recorded {call : UnitCall} {T : Ref → Prop} (hcall : ∀ r, call ≠ .createNow e r)
    (hT : ∀ r, T r → loose e whole (call :: calls) r)
    (h : Inv P e whole T (made e calls) [] u d tr) :
    Inv P e whole (loose e whole (call :: calls)) (made e (call :: calls)) [] u d tr := by
  have hmade : ∀ r, made e (call :: calls) r → made e calls r := fun r hr =>
    (made_cons.mp hr).resolve_left (hcall r)
  refine (h.mono fun r _ => hT r).making (fun r hr => made_cons.mpr (.inr hr)) ?_
  exact fun r hr => h.pointers r (hmade r hr)

theorem call_wp {call : UnitCall} (hK : K e) (he : e.isSingleton = false)
    (hwhole : whole → ∀ m : Row e, P.mine e m = true → m.ownerID = P.ids e.owner)
    (hok : Proper P K whole u d call)
    (h : Inv P e whole (loose e whole calls) (made e calls) [] u d tr) :
    UowM.wp P.others.traced (call.run P.container)
      (fun _ u' s => Inv P e whole (loose e whole (call :: calls)) (made e (call :: calls)) []
        u' s.1 s.2 ∧ Stores e call u u')
      (fun _ _ => True) u (d, tr) := by
  have hacc := ne_account he
  cases call with
  | loadList e' =>
    have hfresh : whole ∨ ∀ r, u.heap.next ≤ r → loose e whole calls r := by
      refine or_iff_not_imp_left.mpr fun hpart r hr => Or.inr ⟨hpart, fun hmade => ?_⟩
      exact absurd (h.pointers r hmade) (Nat.not_lt_of_le hr)
    refine wp_mono ?_ (fun _ _ h => h) (loadList_wp hok.1 hwhole ?_ hfresh hacc h)
    · rintro _ u' s ⟨h', hgrows, -⟩
      refine ⟨h'.recorded (by simp) fun r => loose_cons (by simp) fun h => h, hgrows, ?_⟩
      exact fun r hr => by cases hr
    · rintro rfl hstore
      exact hok.2 hK hstore
  | new e' m =>
    refine ⟨?_, fun r hr => hr, fun r hr => by cases hr⟩
    exact (h.allocated hok m).recorded (by simp) fun r => loose_cons (by simp) fun h => h
  | assign e' r m =>
    refine ⟨?_, fun r hr => hr, fun r hr => by cases hr⟩
    refine Inv.recorded (by simp) ?_ (h.changed (r := r) hok.1 ?_)
    · rintro r' (hsame | hr')
      · exact Or.inl (Or.inl hsame)
      · exact loose_cons (by simp) (fun h => Or.inr h) hr'
    · rintro rfl
      exact hok.2 hK
  | create e' r =>
    refine wp_bind (wp_mono ?_ (fun _ _ h => h) (create_wp hok.1 hacc ?_ h))
    · have hpost : ∀ (u' : UnitOfWork) (s : Data × List (Event Op.Resp Data)),
          (Inv P e whole (loose e whole calls) (made e calls) [] u' s.1 s.2 ∧ Grows e u u' ∧
            (e' = e → r ∈ refsOf e u')) →
          Inv P e whole (loose e whole (.create e' r :: calls)) (made e (.create e' r :: calls)) []
            u' s.1 s.2 ∧ Stores e (.create e' r) u u' := by
        rintro u' s ⟨h', hgrows, hr⟩
        refine ⟨h'.recorded (by simp) fun r => loose_cons (by simp) fun h => h, hgrows, ?_⟩
        intro r₀ hr₀
        cases hr₀
        exact hr rfl
      rintro (_ | _) u' s h'
      · exact hpost u' s h'
      · exact hpost u' s h'
    · rintro rfl
      exact hok.2 hK
  | createNow e' r =>
    have hpost : ∀ (u' : UnitOfWork) (s : Data × List (Event Op.Resp Data)),
        (Inv P e whole (fun r' => ¬ (e' = e ∧ r' = r) ∧ loose e whole calls r')
          (fun r' => (e' = e ∧ r' = r) ∨ made e calls r') [] u' s.1 s.2 ∧ Grows e u u') →
        Inv P e whole (loose e whole (.createNow e' r :: calls))
          (made e (.createNow e' r :: calls)) [] u' s.1 s.2 ∧ Stores e (.createNow e' r) u u' := by
      rintro u' s ⟨h', hgrows⟩
      have hmade : ∀ r', made e (.createNow e' r :: calls) r' ↔
          (e' = e ∧ r' = r) ∨ made e calls r' := by
        intro r'
        rw [made_cons, UnitCall.createNow.injEq, @eq_comm _ r]
      refine ⟨?_, hgrows, fun r hr => by cases hr⟩
      refine (h'.mono ?_).making (fun r' => (hmade r').mpr) fun r' hr' =>
        h'.pointers r' ((hmade r').mp hr')
      rintro r' - ⟨hne, hr'⟩
      refine hr'.imp (fun hassigned => ⟨hne, hassigned⟩) fun hold => ⟨hold.1, fun hr' => ?_⟩
      exact hold.2 (((hmade r').mp hr').resolve_left hne)
    refine wp_bind (wp_mono ?_ (fun _ _ h => h) (createNow_wp hok.1 hacc ?_ h))
    · rintro (_ | _) u' s h'
      · exact hpost u' s h'
      · exact hpost u' s h'
    · rintro rfl
      exact hok.2 hK
  | update e' r =>
    refine wp_bind (wp_mono ?_ (fun _ _ h => h) (update_wp hacc ?_ h))
    · have hpost : ∀ (u' : UnitOfWork) (s : Data × List (Event Op.Resp Data)),
          (Inv P e whole (loose e whole calls) (made e calls) [] u' s.1 s.2 ∧ Grows e u u') →
          Inv P e whole (loose e whole (.update e' r :: calls)) (made e (.update e' r :: calls)) []
            u' s.1 s.2 ∧ Stores e (.update e' r) u u' := by
        rintro u' s ⟨h', hgrows⟩
        refine ⟨h'.recorded (by simp) fun r => loose_cons (by simp) fun h => h, hgrows, ?_⟩
        exact fun r hr => by cases hr
      rintro (_ | _) u' s h'
      · exact hpost u' s h'
      · exact hpost u' s h'
    · rintro rfl
      exact hok.2 hK

/-- A session whose calls are proper keeps the models and the rows together, and every created
model stored. -/
theorem Session.inv (hK : K e) (he : e.isSingleton = false)
    (hwhole : whole → ∀ m : Row e, P.mine e m = true → m.ownerID = P.ids e.owner)
    (hstarts : Starts P u₀ d₀) (hu : Untouched e u₀)
    (h : Session P (Proper P K whole) u₀ d₀ calls u d tr) :
    Inv P e whole (loose e whole calls) (made e calls) [] u d tr ∧
      ∀ r, .create e r ∈ calls → r ∈ refsOf e u := by
  induction h with
  | start => exact ⟨hstarts.inv hu, by simp⟩
  | call _ hok hrun ih =>
    obtain ⟨hinv, hgrows, hcreated⟩ :=
      Setting.traced_sound (S := P.others) hrun (call_wp hK he hwhole hok ih.1)
    refine ⟨hinv, fun r hr => ?_⟩
    rcases List.mem_cons.mp hr with heq | hr
    · exact hcreated r heq.symm
    · exact hgrows r (ih.2 r hr)

end

end FutureWas.Sessions
