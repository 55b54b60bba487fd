import FutureWas.Coherence.Holdings
import FutureWas.Coherence.Sections
import FutureWas.Ledger

/-!
# Requests as steps of what the user owns

The rows of a user's lists are what the user owns (`Stands`). A request that has its user to
itself, from the handler to the response, does one step of `Holdings.Serves`: its models are what
the user owns up to the statement it has queued (`Ready`), and the commit makes them so.

With the order of `user_serial`, the requests of a user among all others are steps one after
another, in the order in which they got the lock: `user_linearizable`. So no upgrade that has
been answered is ever lost: `user_upgrades`.
-/

set_option autoImplicit false

namespace FutureWas

open Effect UowM Uow Coherence

variable {e : EntityKind} {c : Container} {uid : UInt64} {d d' : Data} {H H' : Holdings}

/-! ## Rows as holdings -/

def Tables.owned (t : Tables) (uid : UInt64) : Holdings := fun e =>
  if e.Listed then (t.select e uid : Multiset (Row e)) else 0

/-- What the rows say the user owns; the lists of a user are all on one shard. -/
def Data.holdings (c : Container) (uid : UInt64) (d : Data) : Holdings :=
  match d.routed c uid .cards with
  | some db => (d.db db).owned uid
  | none => fun _ => 0

def Op.Writes : Op → Prop
  | .create _ _ _ | .transaction _ _ _ => True
  | _ => False

namespace Coherence

def Stands (c : Container) (uid : UInt64) (H : Holdings) (d : Data) : Prop :=
  ∃ db, d.routed c uid .cards = some db ∧ (d.db db).owned uid = H

theorem Stands.holdings (h : Stands c uid H d) : d.holdings c uid = H := by
  obtain ⟨db, hdb, hrows⟩ := h
  unfold Data.holdings
  rw [hdb]
  exact hrows

theorem routed_listed (he : e.Listed) : d.routed c uid e = d.routed c uid .cards := by
  have hshard : e.isGameDB = false := EntityKind.isGameDB_of_list he.1 he.2
  have hcards : EntityKind.cards.isGameDB = false := rfl
  simp only [Data.routed, hshard, hcards]

theorem owned_listed (he : e.Listed) (t : Tables) : t.owned uid e = t.select e uid := if_pos he

theorem owned_congr {t t' : Tables} (h : ∀ e, e.Listed → t'.select e uid = t.select e uid) :
    t'.owned uid = t.owned uid := by
  funext e
  unfold Tables.owned
  by_cases he : e.Listed
  · rw [if_pos he, if_pos he, h e he]
  · rw [if_neg he, if_neg he]

theorem Clean.stands (h : Clean c uid d) (hacc : d.HasAccount c uid) :
    Stands c uid (d.holdings c uid) d := by
  obtain ⟨a, ha, hid⟩ := hacc
  obtain ⟨db, hdb⟩ := Option.isSome_iff_exists.mp (h.registered a ha hid)
  have hrouted : d.routed c uid .cards = some db := by
    simp [Data.routed, EntityKind.isGameDB, h.sound.accountOf_eq ha hid, hdb]
  refine ⟨db, hrouted, ?_⟩
  unfold Data.holdings
  rw [hrouted]

theorem stands_stable : (exclusive c uid true).Stable (Stands c uid H) := by
  rintro d d' hr ⟨db, hdb, hrows⟩
  refine ⟨db, hr.1.1.routed hdb, ?_⟩
  rw [owned_congr fun e he => hr.2.2.rows db e he.1]
  exact hrows

theorem cleanly_stable : (exclusive c uid true).Stable fun d => Clean c uid d ∧ Stands c uid H d :=
  fun _ _ hr h => ⟨h.1.rely hr, stands_stable _ _ hr h.2⟩

theorem Stands.of_db (h : Stands c uid H d) (hdb : d'.db = d.db) : Stands c uid H d' := by
  have hrouted : d'.routed c uid .cards = d.routed c uid .cards := by
    unfold Data.routed Data.accountOf
    rw [hdb]
  unfold Stands
  rw [hrouted, hdb]
  exact h

theorem Stands.nodup (h : Stands c uid H d) (hsound : d.Sound c) (he : e.Listed) :
    ((H e).map Row.primaryKey).Nodup := by
  obtain ⟨db, -, rfl⟩ := h
  rw [owned_listed he, Multiset.map_coe, Multiset.coe_nodup]
  exact ((hsound.keyed db).nodup e).sublist (List.filter_sublist.map _)

/-! ## Programs that write no rows -/

theorem fetching_reads {op : Op} (h : op.Fetching) : ¬ op.Writes := by
  cases op <;> first | exact h.elim | exact not_false

theorem unwritten {op : Op} (hop : ¬ op.Writes) {r : op.Resp} (h : Data.Step op d r d') :
    d'.db = d.db := by
  cases op with
  | create | transaction => exact absurd trivial hop
  | cacheSet | cacheSetMulti | cacheDeleteAll => rcases h with ⟨-, rfl⟩ | ⟨-, rfl⟩ <;> rfl
  | findUserID | select | cacheGet => rw [h.1]
  | _ => exact congrArg Data.db h

theorem Stands.unwritten (h : Stands c uid H d) {op : Op} (hop : ¬ op.Writes) {r : op.Resp}
    (hs : (exclusive c uid true).step op d r d') : Stands c uid H d' :=
  h.of_db (Coherence.unwritten hop hs.1)

section

variable {α : Type} {u : UnitOfWork} {Q : Except GoError α → UnitOfWork → Data → Prop}
  {R : UnitOfWork → Data → Prop}

theorem stands_frame {m : UowM α} (hm : m.Uses fun op => ¬ op.Writes)
    (h : UowM.wp (exclusive c uid true) m Q R u d) (hd : Stands c uid H d) :
    UowM.wp (exclusive c uid true) m (fun r u' d' => Stands c uid H d' ∧ Q r u' d')
      (fun u' d' => Stands c uid H d' ∧ R u' d') u d := by
  have hframe := Setting.wp_frame stands_stable
    (fun op d r d' hop hs hd => Stands.unwritten hd hop hs) (hm u) hd h
  refine Setting.wp_mono ?_ hframe
  rintro (⟨r, u'⟩ | u') d' h'
  · exact h'
  · exact h'

theorem wp_results {S : Setting Op.Resp Data} {φ : Except GoError α × UnitOfWork → Prop}
    {m : UowM α} (hm : (m u).Returns φ) (h : UowM.wp S m Q R u d) :
    UowM.wp S m (fun r u' d' => Q r u' d' ∧ φ (r, u')) R u d := by
  refine Setting.wp_mono ?_ (Setting.wp_returns hm h)
  rintro (⟨r, u'⟩ | u') d' ⟨hQ, hφ⟩
  · exact ⟨hQ, hφ _ rfl⟩
  · exact hQ

end

/-! ## Loading -/

section

variable {u u' : UnitOfWork}

theorem leaves_loadList : (loadList c e).Leaves UnitOfWork.dbOps :=
  within_loadList (R := fun u u' => u'.dbOps = u.dbOps) (fun _ => rfl)
    (fun _ _ _ h h' => h'.trans h) (fun _ _ => rfl) fun _ _ => rfl

theorem stored_eq (he : e.Listed) {rs : List Ref}
    (hf : Follows c uid e [] (.many rs) u.heap d) (hd : Stands c uid H d) :
    ((rs.map (u.heap.cell e) : List (Row e)) : Multiset (Row e)) = H e := by
  obtain ⟨db, hdb, rfl⟩ := hd
  have hshaped : Shaped e (.many rs) := he.2
  obtain ⟨db', hdb', -, hperm⟩ := hf.copies hshaped
  rw [routed_listed he, hdb] at hdb'
  cases hdb'
  rw [owned_listed he]
  exact Multiset.coe_eq_coe.mpr hperm

structure Read (c : Container) (uid : UInt64) (H : Holdings) (u : UnitOfWork) (d : Data) :
    Prop where
  keeping : Keeping c uid true [] u d
  stands : Stands c uid H d
  unqueued : u.dbOps = []

theorem loadList_wp (he : e.Listed) (h : Read c uid H u d) :
    UowM.wp (exclusive c uid true) (loadList c e)
      (fun r u' d' => Read c uid H u' d' ∧ ∀ rs, r = .ok rs → u'.store e = some (.many rs) ∧
        ((rs.map (u'.heap.cell e) : List (Row e)) : Multiset (Row e)) = H e)
      (fun _ d' => Stands c uid H d') u d := by
  have hkeeps : Keeps (exclusive c uid true) (Keeping c uid true) (fun _ => True) _ _ :=
    keeps_loadList keeping_closed he.1 he.2
  have hreads : (loadList c e).Uses fun op => ¬ op.Writes :=
    uses_loadList.mono fun _ => fetching_reads
  refine UowM.wp_mono ?_ (fun _ _ h' => h'.1) (wp_results (leaves_loadList u)
    (stands_frame hreads (hkeeps u d h.keeping trivial) h.stands))
  rintro r u' d' ⟨⟨hstands, hkeeping, -, hstored⟩, hops⟩
  have hunqueued : u'.dbOps = [] := hops.trans h.unqueued
  refine ⟨⟨hkeeping, hstands, hunqueued⟩, fun rs hr => ⟨hstored rs hr, ?_⟩⟩
  have hfollows := hkeeping.tracks.follows e _ (hstored rs hr)
  have hnone : stmts u' ++ [] = [] := by simp [stmts, hunqueued]
  rw [hnone] at hfollows
  exact stored_eq he hfollows hstands

/-! ## Handlers -/

/-- What the user owns once the statement queued has run: the models of its list. -/
inductive Commits (H : Holdings) (u : UnitOfWork) : Holdings → Prop
  | nothing : u.dbOps = [] → Commits H u H
  | update {db : Option DbId} {e : EntityKind} {r : Ref} {rs : List Ref} : e.Listed →
      u.dbOps = [⟨db, .update e r⟩] → u.store e = some (.many rs) →
      Commits H u (Function.update H e (rs.map (u.heap.cell e) : List (Row e)))

structure Ready (c : Container) (uid : UInt64) (H H' : Holdings) (u : UnitOfWork) (d : Data) :
    Prop where
  keeping : Keeping c uid true [] u d
  stands : Stands c uid H d
  commits : Commits H u H'

def Answers (c : Container) (uid : UInt64) (r : Incoming) (req : GameRequest) (H : Holdings) :
    Except GoError Message → UnitOfWork → Data → Prop
  | .error _, _, d => Stands c uid H d
  | .ok m, u, d => ∃ H', Ready c uid H H' u d ∧ Holdings.Grants r req H m H'

variable {r : Incoming} {req : GameRequest}

theorem Read.answers (h : Read c uid H u d) {m : Message} (hm : Holdings.Grants r req H m H) :
    Answers c uid r req H (.ok m) u d :=
  ⟨H, ⟨h.keeping, h.stands, .nothing h.unqueued⟩, hm⟩

theorem lists_wp {D : Type} {view : Row e → D} {answer : List D → Message} (he : e.Listed)
    (hanswer : ∀ list : List D, (list : Multiset D) = (H e).map view →
      Holdings.Grants r req H (answer list) H) (h : Read c uid H u d) :
    UowM.wp (exclusive c uid true) (do
      let list ← loadList c e
      let u ← get
      pure (answer (list.map fun ref => view (u.heap.cell e ref)))) (Answers c uid r req H)
      (fun _ d' => Stands c uid H d') u d := by
  refine wp_bind (UowM.wp_mono ?_ (fun _ _ h' => h') (loadList_wp he h))
  rintro (err | rs) u₁ d₁ ⟨h₁, hlist⟩
  · exact h₁.stands
  · have hview : ((rs.map fun ref => view (u₁.heap.cell e ref) : List D) : Multiset D) =
        (H e).map view := by
      rw [← (hlist rs rfl).2, Multiset.map_coe, List.map_map]
      rfl
    exact wp_local rfl (h₁.answers (hanswer _ hview))

theorem getShopList_wp {catalog : Catalog} (haction : req.action = actionGetShopList)
    (hcatalog : r.designStore.getByClientVersion req.clientVersion = some catalog)
    (hu : u.catalog = catalog) (h : Read c uid H u d) :
    UowM.wp (exclusive c uid true) (getShopList req.body) (Answers c uid r req H)
      (fun _ d' => Stands c uid H d') u d := by
  refine wp_local rfl (wp_bind ?_)
  have hkeeps : Keeps (exclusive c uid true) (Keeping c uid true) (fun _ => True) _ _ :=
    keeps_clockNow keeping_closed
  have hreads : clockNow.Uses fun op => ¬ op.Writes := .perform not_false
  have hsame : (clockNow u).Returns fun p => p.2 = u ∧ ∃ now, p.1 = .ok now :=
    fun now => ⟨rfl, now, rfl⟩
  refine UowM.wp_mono ?_ (fun _ _ h' => h'.1) (wp_results hsame
    (stands_frame hreads (hkeeps u d h.keeping trivial) h.stands))
  rintro result u₁ d₁ ⟨⟨hstands, hkeeping, -⟩, hu₁, now, hnow⟩
  dsimp only at hu₁ hnow
  subst hu₁ hnow
  have h₁ : Read c uid H u₁ d₁ := ⟨hkeeping, hstands, h.unqueued⟩
  refine h₁.answers ?_
  rw [hu]
  exact .getShopList haction hcatalog

theorem update_wp (he : e.Listed) {f : Row e → Row e} (hf : ∀ m : Row e, (f m).static = m.static)
    {rs : List Ref} {ref : Ref} (hstore : u.store e = some (.many rs)) (href : ref ∈ rs)
    (h : Read c uid H u d) :
    UowM.wp (exclusive c uid true) (update c e ref)
      (fun o u' d' => o = .ok () ∧
        u'.heap.cell e = Function.update (u.heap.cell e) ref (f (u.heap.cell e ref)) ∧
        Ready c uid H (Function.update H e (rs.map (u'.heap.cell e) : List (Row e))) u' d')
      (fun _ d' => Stands c uid H d') (u.changed e ref f) d := by
  have hne : e ≠ .account := by
    rintro rfl
    cases he.2
  have hreads : (update c e ref).Uses fun op => ¬ op.Writes :=
    uses_update.mono fun _ => fetching_reads
  have hassigned : (update c e ref (u.changed e ref f)).Returns fun p =>
      p.1 = .ok () ∧ Ledger.Assigned e ref (f (u.heap.cell e ref)) u p.2 :=
    Ledger.update_returns hne f u
  have hheld : u.Held e ref := ⟨_, hstore, href⟩
  refine UowM.wp_mono ?_ (fun _ _ h' => h'.1) (wp_results hassigned
    (stands_frame hreads (FutureWas.update_wp keeping_closed h.keeping hheld hf) h.stands))
  rintro o u' d' ⟨⟨hstands, hkeeping, -⟩, hok, hassigned⟩
  obtain ⟨db, hops⟩ := hassigned.ops
  rw [h.unqueued, List.nil_append] at hops
  refine ⟨hok, hassigned.cell, hkeeping, hstands, .update he hops ?_⟩
  exact hassigned.store.trans hstore

theorem getCard_wp {cardIdx : UInt64} (h : Read c uid H u d) :
    UowM.wp (exclusive c uid true) (CardService.getCard c cardIdx)
      (fun result u' d' => Read c uid H u' d' ∧ ∀ card, result = .ok (some card) →
        ∃ rs, card ∈ rs ∧ u'.store .cards = some (.many rs) ∧
          ((rs.map (u'.heap.cell .cards) : List Card) : Multiset Card) = H .cards ∧
          Card.idx (u'.heap.cell .cards card) = cardIdx)
      (fun _ d' => Stands c uid H d') u d := by
  have hlisted : EntityKind.cards.Listed := ⟨rfl, rfl⟩
  refine wp_bind (UowM.wp_mono ?_ (fun _ _ h' => h') (loadList_wp hlisted h))
  rintro (err | rs) u₁ d₁ ⟨h₁, hlist⟩
  · exact ⟨h₁, by simp⟩
  · obtain ⟨hstore, howned⟩ := hlist rs rfl
    refine ⟨h₁, fun card hcard => ?_⟩
    have hfound : rs.find? (fun r => Card.idx (u₁.heap.cell .cards r) == cardIdx) = some card :=
      Except.ok.inj hcard
    have hidx := List.find?_some (p := fun r => Card.idx (u₁.heap.cell .cards r) == cardIdx) hfound
    exact ⟨rs, List.mem_of_find?_eq_some hfound, hstore, howned, beq_iff_eq.mp hidx⟩

theorem raised_one {rs : List Ref} {cell : Ref → Card} {card : Ref} (hcard : card ∈ rs)
    (hnodup : ((rs.map cell).map Card.idx).Nodup) :
    rs.map (Function.update cell card ((cell card).raised 1)) =
      (rs.map cell).map fun m => m.raised (Holdings.once (cell card).idx m.idx) := by
  rw [List.map_map] at hnodup ⊢
  refine List.map_congr_left fun r hr => ?_
  by_cases hsame : r = card
  · simp [hsame, Holdings.once]
  · have hidx : (cell r).idx ≠ (cell card).idx := fun heq =>
      hsame (List.inj_on_of_nodup_map hnodup hr hcard heq)
    simp [Function.update_of_ne hsame, Holdings.once, hidx, Card.raised]

theorem upgradeCardLevel_wp (haction : req.action = actionUpgradeCardLevel)
    (h : Read c uid H u d) :
    UowM.wp (exclusive c uid true) (upgradeCardLevel c req.body) (Answers c uid r req H)
      (fun _ d' => Stands c uid H d') u d := by
  unfold upgradeCardLevel
  cases hbody : req.body.upgradeCardLevel with
  | none => exact h.stands
  | some upgrade =>
    refine wp_bind (UowM.wp_mono ?_ (fun _ _ h' => h') (getCard_wp h))
    rintro (err | _ | card) u₁ d₁ ⟨h₁, hfound⟩
    · exact h₁.stands
    · exact h₁.stands
    · obtain ⟨rs, hcard, hstore, howned, hidx⟩ := hfound card rfl
      have hlisted : EntityKind.cards.Listed := ⟨rfl, rfl⟩
      refine wp_local rfl (wp_bind (UowM.wp_mono ?_ (fun _ _ h' => h')
        (update_wp hlisted (f := fun m : Card => m.raised 1) (fun _ => rfl) hstore hcard h₁)))
      rintro o u₂ d₂ ⟨rfl, hcell, hready⟩
      refine wp_local rfl ?_
      have hnodup : ((rs.map (u₁.heap.cell .cards)).map Card.idx).Nodup := by
        have hkeys := h₁.stands.nodup h₁.keeping.holds.sound hlisted
        rw [← howned] at hkeys
        exact hkeys
      have hraised : Function.update H .cards (rs.map (u₂.heap.cell .cards) : List Card) =
          H.raised (Holdings.once upgrade.cardIdx) := by
        rw [hcell, raised_one hcard hnodup, hidx, ← Multiset.map_coe, howned]
        rfl
      have hmodel : u₂.heap.cell .cards card = Card.raised 1 (u₁.heap.cell .cards card) := by
        rw [hcell, Function.update_self]
      have hmem : u₁.heap.cell .cards card ∈ H .cards := by
        rw [← howned]
        exact Multiset.mem_coe.mpr (List.mem_map_of_mem hcard)
      refine ⟨_, hready, ?_⟩
      rw [hraised, hmodel]
      exact .upgradeCardLevel haction hbody hmem hidx

theorem handler_wp {catalog : Catalog} {def_ : ActionDef}
    (hdef : actionRegistry c req.action = some def_) (hauth : def_.noAuth = false)
    (hcatalog : r.designStore.getByClientVersion req.clientVersion = some catalog)
    (hu : u.catalog = catalog) (h : Read c uid H u d) :
    UowM.wp (exclusive c uid true) (def_.handler req.body) (Answers c uid r req H)
      (fun _ d' => Stands c uid H d') u d := by
  unfold actionRegistry at hdef
  split_ifs at hdef with _ haction haction haction haction haction <;> cases hdef
  · cases hauth
  · exact lists_wp (e := .cards) ⟨rfl, rfl⟩ (fun _ hlist => .getCards haction hlist) h
  · exact upgradeCardLevel_wp haction h
  · exact lists_wp (e := .items) ⟨rfl, rfl⟩ (fun _ hlist => .getItems haction hlist) h
  · exact lists_wp (e := .assets) ⟨rfl, rfl⟩ (fun _ hlist => .getAssets haction hlist) h
  · exact getShopList_wp haction hcatalog hu h

/-! ## The commit -/

theorem Ready.stable : (exclusive c uid true).Stable (Ready c uid H H' u) := fun _ _ hr h =>
  ⟨Keeping.stable _ _ hr h.keeping, stands_stable _ _ hr h.stands, h.commits⟩

theorem Stands.updated (hd : Stands c uid H d) (h : Keeping c uid true [] u d) (he : e.Listed)
    {db : DbId} {ref : Ref} (hops : u.dbOps = [⟨some db, .update e ref⟩]) {rs : List Ref}
    (hstore : u.store e = some (.many rs)) {t : Tables} {heap : Heap}
    (hrun : StmtRun [.update e ref] (d.db db) u.heap t heap) :
    Stands c uid (Function.update H e (rs.map (u.heap.cell e) : List (Row e)))
      (d.setDb db t) := by
  have hmem : (⟨some db, .update e ref⟩ : DbOp) ∈ u.dbOps := by simp [hops]
  have hstmts : ∀ s ∈ [Stmt.update e ref], (⟨some db, s⟩ : DbOp) ∈ u.dbOps := by
    intro s hs
    rw [List.mem_singleton.mp hs]
    exact hmem
  have hrunning := h.running (by simp [hops])
  have hgroups : (groupOps u.dbOps).flatMap Prod.snd = [.update e ref] ++ [] := by
    rw [hops]
    rfl
  rw [hgroups] at hrunning
  have hfollows := (hrunning.transact hstmts hrun).follows e _ hstore
  have hchange := ((h.holds.transact hstmts).2 hrun).1
  cases hrun with
  | update _ hrest =>
    cases hrest
    have hshard : d.routed c uid .cards = some db := by
      rw [← routed_listed he]
      exact (h.holds.queued _ hmem).1 db rfl
    obtain ⟨db', hdb', rfl⟩ := hd
    rw [hshard] at hdb'
    cases hdb'
    refine ⟨db, hchange.grows.routed hshard, ?_⟩
    funext e'
    by_cases hkind : e' = e
    · subst hkind
      rw [Function.update_self]
      exact (stored_eq (u := u) he hfollows ⟨db, hchange.grows.routed hshard, rfl⟩).symm
    · rw [Function.update_of_ne hkind, Data.setDb_db_self]
      unfold Tables.owned
      rw [Isolation.select_update_of_ne hkind]

theorem runOps_stands (h : Ready c uid H H' u d) :
    UowM.wp (exclusive c uid true).watching runOps
      (fun o _ d' => match o with
        | .ok _ => Stands c uid H' d'
        | .error _ => Stands c uid H d')
      (fun _ d' => Stands c uid H d') u d := by
  refine wp_local rfl ?_
  cases hcommits : h.commits with
  | nothing hops =>
    rw [if_pos hops]
    exact h.stands
  | @update db e ref rs he hops hstore =>
    rw [hops, if_neg (List.cons_ne_nil _ _)]
    cases db with
    | none => exact h.stands
    | some db =>
      refine wp_bind (wp_local rfl (wp_perform_bind Ready.stable h ?_))
      intro d₁ h₁
      refine ⟨trivial, fun reply d₂ hs => ⟨trivial, ?_⟩⟩
      rcases hs.1 with ⟨t, heap, hrun, rfl, rfl⟩ | ⟨heap, rfl, rfl⟩ | ⟨heap, rfl, rfl⟩
      · exact h₁.stands.updated h₁.keeping he hops hstore hrun
      · exact h₁.stands
      · cases hs.2.1

theorem watched_safe {β : Type} {p : Call UnitOfWork β} (hp : p.Safe fun op => ¬ op.Writes)
    (hd : Stands c uid H d) :
    (exclusive c uid true).watching.wp p (fun o d' => (∃ b, o = .ret b) ∧ Stands c uid H d') d := by
  have hstable : (exclusive c uid true).watching.Stable (Stands c uid H) := stands_stable
  refine Setting.wp_safe hstable ?_ hp hd
  exact fun _ _ hop hd => ⟨trivial, fun _ _ hs => ⟨trivial, hd.unwritten hop hs⟩⟩

theorem safe_writeBack {o : Owner} {context : String} :
    (writeBack o context u).Safe fun op => ¬ op.Writes := by
  change Prog.Safe _ ((if u.scopeID o ≠ 0 ∧ u.holds o = true then _ else pure () : UowM Unit) u)
  split_ifs
  · refine ⟨not_false, fun written => ?_⟩
    cases written <;> trivial
  · trivial

theorem safe_invalidate {o : Owner} : (invalidate o u).Safe fun op => ¬ op.Writes := by
  change Prog.Safe _ ((if u.scopeID o ≠ 0 then _ else pure () : UowM Unit) u)
  split_ifs
  · exact ⟨not_false, fun _ => trivial⟩
  · trivial

theorem commit_stands (h : Ready c uid H H' u d) :
    UowM.wp (exclusive c uid true).watching commit
      (fun o _ d' => Stands c uid H' d' ∨ (∃ err, o = .error err) ∧ Stands c uid H d')
      (fun _ d' => Stands c uid H d') u d := by
  refine wp_bind (UowM.wp_mono ?_ (fun _ _ h' => h') (runOps_stands h))
  rintro (err | _) u₁ d₁ h₁
  · exact Or.inr ⟨⟨err, rfl⟩, h₁⟩
  · refine wp_bind (Setting.wp_mono ?_ (watched_safe safe_writeBack h₁))
    rintro _ d₂ ⟨⟨⟨err | _, u₂⟩, rfl⟩, h₂⟩
    · exact Or.inl h₂
    · refine Setting.wp_mono ?_ (watched_safe safe_writeBack h₂)
      rintro _ d₃ ⟨⟨⟨o, u₃⟩, rfl⟩, h₃⟩
      exact Or.inl h₃

theorem commitOrRollback_stands (h : Ready c uid H H' u d) :
    UowM.wp (exclusive c uid true).watching commitOrRollback
      (fun o _ d' => Stands c uid H' d' ∨ (∃ err, o = .error err) ∧ Stands c uid H d')
      (fun _ d' => Stands c uid H d') u d := by
  refine wp_bind (wp_attempt (UowM.wp_mono ?_ (fun _ _ h' => h') (commit_stands h)))
  rintro (err | _) u₁ d₁ h₁
  · have hcleared : ∀ {K}, Stands c uid K d₁ →
        UowM.wp (exclusive c uid true).watching (do
          invalidate .user
          invalidate .club
          throw (.app codeInternalError ("commit failed. err : " ++ err.text)))
          (fun (o : Except GoError Unit) _ d' => (∃ err, o = .error err) ∧ Stands c uid K d')
          (fun _ d' => Stands c uid H d') u₁ d₁ := by
      intro K hK
      refine wp_bind (Setting.wp_mono ?_ (watched_safe safe_invalidate hK))
      rintro _ d₂ ⟨⟨⟨err' | _, u₂⟩, rfl⟩, h₂⟩
      · exact ⟨⟨err', rfl⟩, h₂⟩
      · refine wp_bind (Setting.wp_mono ?_ (watched_safe safe_invalidate h₂))
        rintro _ d₃ ⟨⟨⟨err' | _, u₃⟩, rfl⟩, h₃⟩
        · exact ⟨⟨err', rfl⟩, h₃⟩
        · exact ⟨⟨_, rfl⟩, h₃⟩
    rcases h₁ with h₁ | ⟨-, h₁⟩
    · exact UowM.wp_mono (fun _ _ _ h' => Or.inl h'.2) (fun _ _ h' => h') (hcleared h₁)
    · exact UowM.wp_mono (fun _ _ _ h' => Or.inr h') (fun _ _ h' => h') (hcleared h₁)
  · obtain h₁ | ⟨⟨err, herr⟩, -⟩ := h₁
    · exact Or.inl h₁
    · cases herr

/-! ## Requests -/

def reported : Outcome UnitOfWork Reply → Option ResponseBody
  | .ret reply => some reply.response.body
  | .raise _ => none

def Served (c : Container) (uid : UInt64) (r : Incoming) (H : Holdings)
    (o : Outcome UnitOfWork Reply) (d : Data) : Prop :=
  ∃ K, Stands c uid K d ∧ Holdings.Serves r H (reported o) K

theorem respond_served {action : UInt32} {code : Int32} {body : ResponseBody}
    {sync : Option SyncData} {v : Option UnitOfWork} (hd : Stands c uid H' d)
    (hserves : Holdings.Serves r H (some body) H') :
    (exclusive c uid true).watching.wp
      ((sendGameResponse action code body sync).bind fun res => .ret ⟨res, v⟩)
      (Served c uid r H) d := by
  have hstable : (exclusive c uid true).watching.Stable (Stands c uid H') := stands_stable
  refine Setting.wp_call hstable hd ?_
  intro d₁ h₁
  refine ⟨trivial, fun t d₂ hs => ⟨trivial, H', ?_, hserves⟩⟩
  exact h₁.of_db (congrArg Data.db hs.1)

theorem finish_served {s : Server} {action : UInt32} {result : Message}
    (hr : r.raw = .envelope req) (hresult : Holdings.Grants r req H result H')
    (h : Ready c uid H H' u d) :
    (exclusive c uid true).watching.wp (finish s action result u) (Served c uid r H) d := by
  refine Setting.wp_bind (Setting.wp_mono ?_ (commitOrRollback_stands h))
  rintro (⟨err | _, u₁⟩ | u₁) d₁ h₁
  · rcases h₁ with h₁ | ⟨-, h₁⟩
    · exact respond_served h₁ (.unreported hr hresult)
    · exact respond_served h₁ .refused
  · have hdone : Stands c uid H' d₁ := h₁.resolve_right fun ⟨⟨_, herr⟩, _⟩ => by cases herr
    dsimp only
    split_ifs
    · exact respond_served hdone (.answered hr hresult)
    · exact respond_served hdone (.unreported hr hresult)
  · exact ⟨H, h₁, .unwound⟩

theorem serve_served {marshals : Message → Bool} {catalog : Catalog} {def_ : ActionDef}
    (hr : r.raw = .envelope req) (hid : req.userId = uid)
    (hdef : actionRegistry c req.action = some def_) (hauth : def_.noAuth = false)
    (hcatalog : r.designStore.getByClientVersion req.clientVersion = some catalog)
    (h : Clean c uid d) (hd : Stands c uid H d) :
    (exclusive c uid true).watching.wp (serve (server c marshals) catalog def_ req)
      (Served c uid r H) d := by
  subst hid
  have hstable : (exclusive c req.userId true).watching.Stable fun d =>
      Clean c req.userId d ∧ Stands c req.userId H d := cleanly_stable
  refine Setting.wp_call hstable ⟨h, hd⟩ ?_
  rintro d₁ ⟨h₁, hd₁⟩
  refine ⟨trivial, fun _ d₂ hs => ⟨trivial, ?_⟩⟩
  have hsame : d₂ = d₁ := hs.1
  subst hsame
  have hbare : Bare (.new req.userId catalog) := ⟨rfl, fun _ => rfl, rfl⟩
  have hread : Read c req.userId H (.new req.userId catalog) d₂ :=
    ⟨Bare.keeping hbare h₁, hd₁, rfl⟩
  refine Setting.wp_bind (Setting.wp_mono ?_
    (Setting.wp_watching (handler_wp hdef hauth hcatalog rfl hread)))
  rintro (⟨err | result, u₁⟩ | u₁) d₃ h₃
  · exact respond_served h₃ .refused
  · obtain ⟨H', hready, hresult⟩ := h₃
    exact finish_served hr hresult hready
  · exact ⟨H, h₃, .unwound⟩

/-- A request of the user, from the handler to the response, is one step of what the user
owns. -/
theorem served_serves {marshals : Message → Bool} (hr : Mine uid r) (h : Clean c uid d)
    (hd : Stands c uid H d) :
    (exclusive c uid true).wp (Incoming.served (server c marshals) r)
      (fun o d' => Served c uid r H o d' ∧ Clean c uid d') d := by
  refine Setting.wp_and ?_ (served_clean hr h)
  obtain ⟨store, raw⟩ := r
  cases hraw : raw with
  | unreadable => exact respond_served hd .refused
  | malformed => exact respond_served hd .refused
  | envelope req =>
    simp only [Incoming.served, Incoming.program, dispatch, server]
    cases hdef : actionRegistry c req.action with
    | none => exact respond_served hd .refused
    | some def_ =>
      cases hcatalog : store.getByClientVersion req.clientVersion with
      | none => exact respond_served hd .refused
      | some catalog =>
        subst hraw
        have hauth : def_.noAuth = false := by
          rw [Bool.eq_false_iff]
          exact fun hno => hr.1 ((noAuth_iff hdef).mp hno)
        exact serve_served rfl hr.2 hdef hauth hcatalog h hd

end

/-! ## Runs -/

section

variable {ι : Type} {cfg : Config ι Op.Resp UnitOfWork Reply World}

def answer (cfg : Config ι Op.Resp UnitOfWork Reply World) (i : ι) : Option ResponseBody :=
  match cfg.procs i with
  | .ret reply => some reply.response.body
  | _ => none

theorem answer_eq {i : ι} {o : Outcome UnitOfWork Reply} (h : cfg.procs i = o.prog) :
    answer cfg i = reported o := by
  unfold answer
  rw [h]
  cases o <;> rfl

variable [DecidableEq ι] {marshals : Message → Bool} {requests : ι → Incoming} {w : World}
  {tr : List (Occurrence ι Op.Resp World)}

def answers (uid : UInt64) (requests : ι → Incoming) (tr : List (Occurrence ι Op.Resp World))
    (cfg : Config ι Op.Resp UnitOfWork Reply World) : List (Incoming × Option ResponseBody) :=
  (served uid requests tr).map fun i => (requests i, answer cfg i)

theorem plays_of_series (hw : Clean c uid w.data) (hacc : w.data.HasAccount c uid)
    {episodes : List (Episode Op.Resp UnitOfWork Reply World)}
    (hserved : List.Forall₂ (ServedAs c marshals uid requests tr cfg) (served uid requests tr)
      episodes)
    (hdata : Series (exclusive c uid true).step (exclusive c uid true).rely w.data
      (episodes.map (Episode.map World.data)) cfg.world.data) :
    Holdings.Plays (answers uid requests tr cfg) (w.data.holdings c uid)
      (cfg.world.data.holdings c uid) := by
  have hitems : List.Forall₂ (fun q p => ∃ i p₀, ServedAs c marshals uid requests tr cfg i p₀ ∧
      q = (requests i, answer cfg i) ∧ p = Episode.map World.data p₀)
      (answers uid requests tr cfg) (episodes.map (Episode.map World.data)) := by
    refine List.forall₂_map_left_iff.mpr (List.forall₂_map_right_iff.mpr ?_)
    exact hserved.imp fun i p hp => ⟨i, p, hp, rfl, rfl⟩
  have hstep : ∀ q p, (∃ i p₀, ServedAs c marshals uid requests tr cfg i p₀ ∧
      q = (requests i, answer cfg i) ∧ p = Episode.map World.data p₀) →
      ∀ H d, Clean c uid d ∧ Stands c uid H d → (exclusive c uid true).wp p.program
        (fun o d' => ∃ K, (Clean c uid d' ∧ Stands c uid K d') ∧
          (o = p.outcome → Holdings.Serves q.1 H q.2 K)) d := by
    rintro q p ⟨i, p₀, hran, rfl, rfl⟩ H d ⟨hclean, hd⟩
    rw [Episode.map, hran.program]
    refine Setting.wp_mono ?_ (served_serves hran.mine hclean hd)
    rintro o d' ⟨⟨K, hK, hserves⟩, hclean'⟩
    refine ⟨K, ⟨hclean', hK⟩, ?_⟩
    rintro rfl
    rwa [answer_eq hran.ended]
  obtain ⟨H', ⟨-, hstands⟩, hplays⟩ := hdata.simulates (fun _ => cleanly_stable) hitems hstep
    ⟨hw, hw.stands hacc⟩
  rw [hstands.holdings]
  exact hplays

/-- The requests of a user among all others do to what the user owns, and answer, what they
would do one after another, in the order in which they got the lock. -/
theorem user_linearizable (hw : Clean c uid w.data) (hacc : w.data.HasAccount c uid)
    (hchannels : ∀ i ch, (requests i).raw.channel = some ch → ¬ w.data.Owns c ch uid)
    (h : Exec World.Step World.Expires (arrived (server c marshals) requests w) tr cfg)
    (hkept : LockKept uid tr) (hreleased : Released uid requests tr)
    (hcalm : ∀ i e, Mine uid (requests i) → .act i e ∈ tr → Calm e.op e.resp) :
    Holdings.Plays (answers uid requests tr cfg) (w.data.holdings c uid)
      (cfg.world.data.holdings c uid) := by
  obtain ⟨-, episodes, hserved, hdata⟩ :=
    user_data_serial hw.sound hacc hchannels h hkept hreleased hcalm
  exact plays_of_series hw hacc hserved hdata

theorem user_linearizable_crowded :
    (answers 1 LockFencing.upgrades crowded.1 crowded.2).map Prod.snd =
        [some (.message (.upgradeCardLevel (toCardData (Sample.card.raised 1)))),
          some (.message (.upgradeCardLevel (toCardData (Sample.card.raised 2))))] ∧
      Holdings.Plays (answers 1 LockFencing.upgrades crowded.1 crowded.2)
        (Sample.world.data.holdings Sample.container 1)
        (crowded.2.world.data.holdings Sample.container 1) :=
  ⟨by decide +kernel, user_linearizable (inStep_world.clean 1) hasAccount_world
    (fun _ _ hch => by cases hch) exec_crowded lockKept_crowded released_crowded calm_crowded⟩

/-- The levels of the user's cards are those before the run plus the upgrades made since. None
that was acknowledged is lost, none is made that was not asked for, and a list of cards that is
answered shows those made before it. -/
theorem user_upgrades (hw : Clean c uid w.data) (hacc : w.data.HasAccount c uid)
    (hchannels : ∀ i ch, (requests i).raw.channel = some ch → ¬ w.data.Owns c ch uid)
    (h : Exec World.Step World.Expires (arrived (server c marshals) requests w) tr cfg)
    (hkept : LockKept uid tr) (hreleased : Released uid requests tr)
    (hcalm : ∀ i e, Mine uid (requests i) → .act i e ∈ tr → Calm e.op e.resp) :
    (∃ n, Holdings.Counts (answers uid requests tr cfg) n ∧
        cfg.world.data.holdings c uid = (w.data.holdings c uid).raised n) ∧
      ∀ before after r (list : List CardData),
        answers uid requests tr cfg = before ++ (r, some (.message (.getCards list))) :: after →
        ∃ n, Holdings.Counts before n ∧ (list : Multiset CardData) =
          (((w.data.holdings c uid).raised n) .cards).map toCardData := by
  obtain ⟨-, episodes, hserved, hdata⟩ :=
    user_data_serial hw.sound hacc hchannels h hkept hreleased hcalm
  have hplays := plays_of_series hw hacc hserved hdata
  refine ⟨hplays.counts, fun before after r list hsplit => ?_⟩
  rw [hsplit] at hplays
  exact hplays.shows

theorem user_upgrades_crowded :
    (∃ n, Holdings.Counts (answers 1 LockFencing.upgrades crowded.1 crowded.2) n ∧
        crowded.2.world.data.holdings Sample.container 1 =
          (Sample.world.data.holdings Sample.container 1).raised n) ∧
      (answers 1 LockFencing.upgrades crowded.1 crowded.2).countP (Holdings.Acknowledged 5) = 2 :=
  ⟨(user_upgrades (inStep_world.clean 1) hasAccount_world (fun _ _ hch => by cases hch)
    exec_crowded lockKept_crowded released_crowded calm_crowded).1, by decide +kernel⟩

end

end Coherence

end FutureWas
