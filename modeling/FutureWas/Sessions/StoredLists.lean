import FutureWas.Model.Sample
import FutureWas.Sessions.Commit

/-!
# Stored lists

`storeModel` starts a list of one model when nothing has been loaded. `LoadList` then takes
this list for the whole of it, and `Commit` publishes it to the cache: `create_hides_rows`.
In a session that starts no list this way while the owner has rows, and that keeps to the
other habits of the callers, every list is complete: `lists_complete`.
-/

set_option autoImplicit false

namespace FutureWas.Sessions

open Effect UowM Uow

def party (c : Container) (ids : Owner → UInt64) (shard : DbId) : Party where
  container := c
  ids := ids
  shard := shard
  mine e m := decide (m.ownerID = ids e.owner)
  mine_key := by
    intro e he k m
    rw [Row.ownerID_setPrimaryKey (ne_account he)]
  mine_owner m hm := decide_eq_true hm

/-! ## What a list has to show -/

/-- The list `rs` is all there is: the models whose `INSERT` is queued, every model created,
and one model for each row of the owner. A model is equal to its row until it is assigned to. -/
structure Complete (P : Party) (e : EntityKind) (calls : List UnitCall) (u : UnitOfWork) (d : Data)
    (rs : List Ref) : Prop where
  rows : ∃ (held : List Ref) (row : Ref → Row e),
    rs.Perm (held ++ inserts e ((queued e u).map DbOp.stmt)) ∧
      (held.map row).Perm ((d.db (P.home e)).select e (P.ids e.owner)) ∧
      ∀ r ∈ held, (u.heap.cell e r).primaryKey = (row r).primaryKey ∧
        (.update e r ∉ (queued e u).map DbOp.stmt → ¬ assigned e calls r → u.heap.cell e r = row r)
  created : ∀ r, .create e r ∈ calls → r ∈ rs

def Current (P : Party) (e : EntityKind) (u : UnitOfWork) (d : Data) : Prop :=
  u.store e ≠ none → P.ids e.owner ≠ 0 →
    ∃ ms, d.cache e.owner (P.ids e.owner) e = some (.many ms) ∧
      ms.Perm ((d.db (P.home e)).select e (P.ids e.owner))

def Saved (e : EntityKind) (calls : List UnitCall) (u : UnitOfWork) : Prop :=
  ∀ r ∈ refsOf e u, assigned e calls r → ∃ op ∈ queued e u, op.stmt.ref = r

/-- Every `LoadList` after these calls answers a complete list, and every commit after them that
finds the assignments saved and succeeds leaves the current list in the cache. -/
structure NeverHides (P : Party) (e : EntityKind) (calls : List UnitCall) (u : UnitOfWork)
    (d : Data) : Prop where
  load : ∀ {tr rs u' d'}, Runs Data.Step P.Apart (loadList P.container e u) d tr
    (.ret (.ok rs, u')) d' → Complete P e calls u' d' rs
  commit : Saved e calls u → ∀ {tr u' d'},
    Runs Data.Step P.Apart (commit u) d tr (.ret (.ok (), u')) d' → Current P e u' d'

section

variable {c : Container} {ids : Owner → UInt64} {shard : DbId} {e : EntityKind}
  {calls : List UnitCall} {u u₀ : UnitOfWork} {d d₀ : Data} {tr : List (Event Op.Resp Data)}

theorem loose_whole {r : Ref} : loose e True calls r ↔ assigned e calls r := by
  simp [loose]

theorem complete_of_inv {rs : List Ref}
    (h : Inv (party c ids shard) e True (loose e True calls) (made e calls) [] u d tr)
    (hcreated : ∀ r, .create e r ∈ calls → r ∈ refsOf e u) (hstore : u.store e = some (.many rs)) :
    Complete (party c ids shard) e calls u d rs := by
  have hrefs : refsOf e u = rs := by
    unfold refsOf
    rw [hstore]
  obtain ⟨hidden, hwhole, hlists⟩ := h.core.lists
  have hnone : hidden = [] := by
    refine hwhole trivial ?_
    rw [hstore]
    simp
  obtain ⟨held, row, hperm, hsel, hshows⟩ := hlists.shows
  rw [hrefs] at hperm hcreated
  rw [List.append_nil] at hperm hshows
  rw [hnone, List.append_nil] at hsel
  refine ⟨⟨held, row, hperm, hsel, fun r hr => ⟨(hshows r hr).1, fun hupdate hnot => ?_⟩⟩, hcreated⟩
  exact (hshows r hr).2 hupdate fun hloose => hnot (loose_whole.mp hloose)

theorem current_of_core {T : Ref → Prop} (hT : ∀ r ∈ refsOf e u, ¬ T r)
    (h : Core (party c ids shard) e True T [] u d tr)
    (hpublished : Published (party c ids shard) e u d) (htyped : ∀ r, u.store e ≠ some (.one r)) :
    Current (party c ids shard) e u d := by
  intro hstore hid
  obtain ⟨s, hs⟩ := Option.ne_none_iff_exists'.mp hstore
  cases s with
  | one r => exact absurd hs (htyped r)
  | many rs =>
    have hrefs : refsOf e u = rs := by
      unfold refsOf
      rw [hs]
    obtain ⟨hidden, hwhole, hlists⟩ := h.lists
    rw [hrefs] at hlists hT
    obtain ⟨row, hsel, hrow⟩ := hlists.rows
    rw [hwhole trivial hstore, List.append_nil] at hsel
    have hcells : rs.map (u.heap.cell e) = rs.map row :=
      List.map_congr_left fun r hr => (hrow r hr).2 (hT r hr)
    refine ⟨rs.map (u.heap.cell e), hpublished _ hs hid, ?_⟩
    rw [hcells]
    exact hsel

end

/-- Sessions that respect `Proper`, with nothing hidden, hide no row: a list is started by a
new model only when the owner has no rows, and a cached list that is loaded is the row list. -/
theorem lists_complete {c : Container} {ids : Owner → UInt64} {shard : DbId} {e : EntityKind}
    (he : e.isSingleton = false) {u₀ u : UnitOfWork} {d₀ d : Data} {calls : List UnitCall}
    {tr : List (Event Op.Resp Data)} (hstarts : Starts (party c ids shard) u₀ d₀)
    (huntouched : Untouched e u₀)
    (hsession : Session (party c ids shard) (Proper (party c ids shard) (· = e) True) u₀ d₀
      calls u d tr)
    (hload : u.store e = none → CacheAgrees (party c ids shard) True d e) :
    NeverHides (party c ids shard) e calls u d := by
  have hacc := ne_account he
  have hwhole : True → ∀ m : Row e, (party c ids shard).mine e m = true →
      m.ownerID = (party c ids shard).ids e.owner := fun _ m hm => of_decide_eq_true hm
  obtain ⟨hinv, hcreated⟩ := hsession.inv (K := (· = e)) rfl he hwhole hstarts huntouched
  constructor
  · intro tr' rs u' d' hrun
    have hpost := Setting.traced_sound (S := (party c ids shard).others) hrun
      (loadList_wp he hwhole (fun _ => hload) (.inl trivial) hacc hinv)
    obtain ⟨hinv', hgrows, hstore⟩ := hpost
    exact complete_of_inv hinv' (fun r hr => hgrows r (hcreated r hr)) (hstore rs rfl)
  · intro hsaved tr' u' d' hrun
    have hpost := Setting.traced_sound (S := (party c ids shard).others) hrun
      (commit_wp ((party c ids shard).mine_key he) hinv.settle)
    obtain ⟨hcore, hkept, hpublished⟩ := hpost rfl
    have hrefs : refsOf e u' = refsOf e u := by
      unfold refsOf
      rw [hkept.store]
    refine current_of_core ?_ hcore hpublished ?_
    · intro r hr hT
      rw [hrefs] at hr
      obtain ⟨op, hop, href⟩ := hsaved r hr (loose_whole.mp hT.1)
      exact hT.2 op hop href
    · rw [hkept.store]
      exact hinv.typed

/-! ## A player with one asset -/

def sampleParty : Party :=
  party Sample.container (fun o => match o with
    | .user => 1
    | .club => 0) 10

def oldAsset : Asset := ⟨7, 1, 10000, 5, 0, 0, 0⟩

def newAsset : Asset := ⟨0, 1, 10001, 1, 0, 0, 0⟩

def oneAsset : World :=
  { Sample.emptyWorld with
    data :=
      { db := fun db e =>
          match db, e with
          | 1, .account => [Sample.account]
          | 10, .assets => [oldAsset]
          | _, _ => []
        cache := fun _ _ => Fields.none } }

def opened : UnitOfWork := UnitOfWork.new 1 Sample.catalog

def choices (n : ℕ) : Choice := { key := fun i => 8 + n.toUInt64 + i.toUInt64 }

def ran {α : Type} (p : UowM α) (s : UnitOfWork × World) : UnitOfWork × World :=
  let run := (p s.1).run World.exec choices 0 s.2
  match run.2.1 with
  | .ret (_, u) => (u, run.2.2)
  | .raise u => (u, run.2.2)

theorem ran_fst {α : Type} {p : UowM α} {s : UnitOfWork × World} {r : Except GoError α}
    {u : UnitOfWork} (h : ((p s.1).run World.exec choices 0 s.2).2.1 = .ret (r, u)) :
    (ran p s).1 = u := by
  unfold ran
  dsimp only
  rw [h]

def ranTrace {α : Type} (p : UowM α) (s : UnitOfWork × World) : List (Event Op.Resp Data) :=
  ((p s.1).run World.exec choices 0 s.2).1.map (Event.map World.data)

theorem runs_apart {P : Party} {α : Type} (p : UowM α) (s : UnitOfWork × World)
    {r : Except GoError α}
    (h : ((p s.1).run World.exec choices 0 s.2).2.1 = .ret (r, (ran p s).1)) :
    Runs Data.Step P.Apart (p s.1) s.2.data (ranTrace p s) (.ret (r, (ran p s).1))
      (ran p s).2.data := by
  have hrun := Data.runs choices (p s.1) s.2
  have hlast : (ran p s).2 = ((p s.1).run World.exec choices 0 s.2).2.2 := by
    unfold ran
    dsimp only
    split
    · rfl
    · rfl
  rw [hlast, ← h]
  refine Runs.mono (fun _ _ _ _ h => h) ?_ hrun
  rintro d _ rfl
  exact .refl d

theorem Session.ran {P : Party} {A : UnitOfWork → Data → UnitCall → Prop} {u₀ : UnitOfWork}
    {d₀ : Data} {calls : List UnitCall} {s : UnitOfWork × World} {c : UnitCall}
    {tr : List (Event Op.Resp Data)} (h : Session P A u₀ d₀ calls s.1 s.2.data tr)
    (hok : A s.1 s.2.data c)
    {r : Except GoError (List Ref)} (hrun : ((c.run P.container s.1).run World.exec choices 0
      s.2).2.1 = .ret (r, (Sessions.ran (c.run P.container) s).1)) :
    Session P A u₀ d₀ (c :: calls) (Sessions.ran (c.run P.container) s).1
      (Sessions.ran (c.run P.container) s).2.data (tr ++ ranTrace (c.run P.container) s) :=
  .call h hok (runs_apart (c.run P.container) s hrun)

def loadedFirst : UnitOfWork × World :=
  ran (UnitCall.run Sample.container (.create .assets 2))
    (ran (UnitCall.run Sample.container (.new .assets newAsset))
      (ran (UnitCall.run Sample.container (.loadList .assets)) (opened, oneAsset)))

theorem starts_opened : Starts sampleParty opened oneAsset.data where
  scope o := by cases o <;> rfl
  stored r h := by cases h
  cached a h := by cases h
  accounts a ha db hdb := by
    have hsel : (oneAsset.data.db sampleParty.container.gameDB).select .account
        (sampleParty.ids .user) = [Sample.account] := by decide
    rw [hsel] at ha
    rw [List.mem_singleton.mp ha] at hdb
    have hshard : sampleParty.container.shards.getShard 10 = some 10 := by decide
    exact (Option.some_inj.mp (hshard.symm.trans hdb)).symm
  keys e := by cases e <;> decide

theorem lists_complete_loadedFirst :
    NeverHides sampleParty .assets [.create .assets 2, .new .assets newAsset, .loadList .assets]
      loadedFirst.1 loadedFirst.2.data := by
  have hload := Session.ran (P := sampleParty) (A := Proper sampleParty (· = .assets) True)
    (c := .loadList .assets) (s := (opened, oneAsset)) .start
    ⟨rfl, fun _ _ ms hms => by cases hms⟩ rfl
  have hnew := Session.ran (c := .new .assets newAsset) hload rfl rfl
  have hcreate := Session.ran (c := .create .assets 2) hnew
    ⟨rfl, fun _ => ⟨by decide, by decide, by decide, fun _ h => by cases h⟩⟩ rfl
  refine lists_complete rfl starts_opened ⟨rfl, rfl, ?_, List.nodup_nil⟩ hcreate ?_
  · intro r hr
    cases hr
  · intro h
    cases h

def createdFirst : UnitOfWork × World :=
  ran (UnitCall.run Sample.container (.create .assets 0))
    (ran (UnitCall.run Sample.container (.new .assets newAsset)) (opened, oneAsset))

/-- The `LoadList` after it answers the new model alone, and the commit publishes a list without
asset 7. -/
theorem create_hides_rows :
    (∃ tr, Session sampleParty (fun _ _ _ => True) opened oneAsset.data
        [.create .assets 0, .new .assets newAsset] createdFirst.1 createdFirst.2.data tr) ∧
      (∃ tr rs u' d', Runs Data.Step sampleParty.Apart (loadList Sample.container .assets
          createdFirst.1) createdFirst.2.data tr (.ret (.ok rs, u')) d' ∧
        ¬ Complete sampleParty .assets [.create .assets 0, .new .assets newAsset] u' d' rs) ∧
      ∃ tr u' d', Runs Data.Step sampleParty.Apart (commit createdFirst.1) createdFirst.2.data tr
          (.ret (.ok (), u')) d' ∧ ¬ Current sampleParty .assets u' d' := by
  have hnew := Session.ran (P := sampleParty) (A := fun _ _ _ => True)
    (c := .new .assets newAsset) (s := (opened, oneAsset)) .start trivial rfl
  refine ⟨⟨_, Session.ran (c := .create .assets 0) hnew trivial rfl⟩, ?_, ?_⟩
  · have hrun := runs_apart (P := sampleParty) (loadList Sample.container .assets)
      createdFirst (r := .ok [0]) rfl
    refine ⟨_, [0], _, _, hrun, fun hcomplete => ?_⟩
    obtain ⟨held, row, hperm, hsel, -⟩ := hcomplete.rows
    have hlen := hperm.length_eq
    have hlen' := hsel.length_eq
    rw [List.length_append] at hlen
    rw [List.length_map] at hlen'
    have hone : (inserts .assets ((queued .assets (ran (loadList Sample.container .assets)
        createdFirst).1).map DbOp.stmt)).length = 1 := by decide
    have hrow : (((ran (loadList Sample.container .assets) createdFirst).2.data.db
        (sampleParty.home .assets)).select .assets
          (sampleParty.ids EntityKind.assets.owner)).length = 1 := by decide
    rw [hone] at hlen
    rw [hrow] at hlen'
    simp only [List.length_singleton] at hlen
    omega
  · have hrun := runs_apart (P := sampleParty) commit createdFirst (r := .ok ()) rfl
    refine ⟨_, _, _, hrun, fun hcurrent => ?_⟩
    obtain ⟨ms, hms, hperm⟩ := hcurrent (by decide) (by decide)
    have hlen := hperm.length_eq
    have hcached : ms = [({ newAsset with idx := 8 } : Asset)] := by
      cases hms
      rfl
    rw [hcached] at hlen
    revert hlen
    decide

end FutureWas.Sessions
