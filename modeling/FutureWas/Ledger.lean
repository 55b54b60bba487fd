import FutureWas.Model.Sample
import FutureWas.Sessions.Models
import Mathlib.Algebra.Order.Ring.Int
import Mathlib.Data.List.Find

/-!
# The asset and item ledgers

A unit of work that has loaded the assets or the items of a user keeps one model for each id.
`Stock` reads the id and the quantity of a model; `Loaded` says of a unit of work what holds
after a load: the models are allocated and have distinct ids. Each call of `AddAsset`,
`ConsumeAsset`, `AddItem` and `ConsumeItem` that does not fail assigns to the model found
(`Assigned`) or appends a new one (`Appended`), and a call that fails leaves the unit of work
alone. The services are free to answer anything.

The sums are those of machine integers, so a call keeps the books only if its sum fits:
`asset_ledger_iff`, `item_ledger_iff`.
-/

set_option autoImplicit false

namespace FutureWas.Ledger

open Effect UowM Uow Sessions

variable {c : Container} {e : EntityKind} {u u' u'' : UnitOfWork} {rs : List Ref} {r : Ref}
  {m : Row e}

/-! ## What the unit of work keeps -/

structure Kept (e : EntityKind) (u u' : UnitOfWork) : Prop where
  store : u'.store e = u.store e
  cell : u'.heap.cell e = u.heap.cell e
  next : u.heap.next ≤ u'.heap.next
  ops : u'.dbOps = u.dbOps
  catalog : u'.catalog = u.catalog

theorem Kept.refl (u : UnitOfWork) : Kept e u u := ⟨rfl, rfl, le_refl _, rfl, rfl⟩

theorem Kept.trans (h : Kept e u u') (h' : Kept e u' u'') : Kept e u u'' where
  store := h'.store.trans h.store
  cell := h'.cell.trans h.cell
  next := le_trans h.next h'.next
  ops := h'.ops.trans h.ops
  catalog := h'.catalog.trans h.catalog

theorem kept_account (he : e ≠ .account) : (account c).Within (Kept e) := by
  refine within_account Kept.refl (fun _ _ _ h h' => h.trans h') fun u a => ⟨?_, ?_, ?_, rfl, rfl⟩
  · exact u.loadedOne_store_of_ne .account a e he
  · funext r
    exact u.heap.set_cell_kind he _ r a
  · exact Nat.le_succ _

theorem routedDB_returns (he : e ≠ .account) (u : UnitOfWork) :
    (routedDB c e u).Returns fun p => (∃ db, p.1 = .ok db) ∧ Kept e u p.2 := by
  unfold routedDB
  split
  · exact ⟨⟨_, rfl⟩, Kept.refl u⟩
  · apply Prog.Returns.bind (φ := fun p => (∃ acc, p.1 = .ok acc) ∧ Kept e u p.2)
    · exact Prog.Returns.bind (kept_account he u) fun p hp => ⟨⟨_, rfl⟩, hp⟩
    · intro p hp
      obtain ⟨r, u'⟩ := p
      obtain ⟨⟨acc, hacc⟩, hkept⟩ := hp
      cases hacc
      cases acc with
      | error err => exact ⟨⟨_, rfl⟩, hkept⟩
      | ok acc => exact ⟨⟨_, rfl⟩, hkept⟩

theorem kept_marked : Kept e u (u.marked e r) := by
  unfold UnitOfWork.marked
  split_ifs
  · exact ⟨rfl, rfl, le_refl _, rfl, rfl⟩
  · exact Kept.refl u

/-! ## Writing a model -/

structure Assigned (e : EntityKind) (r : Ref) (m : Row e) (u u' : UnitOfWork) : Prop where
  store : u'.store e = u.store e
  cell : u'.heap.cell e = Function.update (u.heap.cell e) r m
  next : u.heap.next ≤ u'.heap.next
  ops : ∃ db, u'.dbOps = u.dbOps ++ [⟨db, .update e r⟩]
  catalog : u'.catalog = u.catalog

structure Appended (e : EntityKind) (rs : List Ref) (m : Row e) (u u' : UnitOfWork) : Prop where
  store : u'.store e = some (.many (rs ++ [u.heap.next]))
  cell : u'.heap.cell e = Function.update (u.heap.cell e) u.heap.next m
  next : u.heap.next < u'.heap.next
  ops : ∃ db, u'.dbOps = u.dbOps ++ [⟨db, .insert e u.heap.next⟩]
  catalog : u'.catalog = u.catalog

theorem queued_returns (he : e ≠ .account) (s : Stmt) (h : Kept e u u') :
    ((routedDB c e >>= fun db => queueOp db s) u').Returns fun p =>
      p.1 = .ok () ∧ p.2.store e = u.store e ∧ p.2.heap.cell e = u.heap.cell e ∧
        u.heap.next ≤ p.2.heap.next ∧ (∃ db, p.2.dbOps = u.dbOps ++ [⟨db, s⟩]) ∧
        p.2.catalog = u.catalog := by
  apply returns_bind (routedDB_returns he u')
  · intro db u₂ hp
    have hfrom : Kept e u u₂ := h.trans hp.2
    refine ⟨rfl, hfrom.store, hfrom.cell, hfrom.next, ⟨db, ?_⟩, hfrom.catalog⟩
    rw [← hfrom.ops]
  · intro err u₂ hp
    obtain ⟨⟨db, hdb⟩, -⟩ := hp
    cases hdb

theorem update_returns (he : e ≠ .account) (f : Row e → Row e) (u : UnitOfWork) :
    ((setModel e r f >>= fun _ => update c e r) u).Returns fun p =>
      p.1 = .ok () ∧ Assigned e r (f (u.heap.cell e r)) u p.2 := by
  set u₁ : UnitOfWork := { u with heap := u.heap.set e r (f (u.heap.cell e r)) } with hu₁
  have hcell : u₁.heap.cell e = Function.update (u.heap.cell e) r (f (u.heap.cell e r)) :=
    Function.update_self e _ _
  have hqueued := queued_returns (c := c) he (.update e r) (kept_marked (u := u₁) (r := r))
  refine hqueued.mono ?_
  intro p ⟨hok, hstore, hheap, hnext, hops, hcatalog⟩
  exact ⟨hok, hstore, hheap.trans hcell, hnext, hops, hcatalog⟩

theorem storeModel_many (hsingle : e.isSingleton = false) (hstore : u.store e = some (.many rs)) :
    storeModel e r u = .ret (.ok (), u.setStore e (.many (rs ++ [r]))) := by
  unfold storeModel UowM.modify
  simp only [hsingle, Bool.false_eq_true, if_false, hstore]

theorem create_returns (he : e ≠ .account) (hsingle : e.isSingleton = false) (m : Row e)
    (hstore : u.store e = some (.many rs)) :
    ((new e m >>= fun r => create c e r) u).Returns fun p =>
      p.1 = .ok () ∧ Appended e rs m u p.2 := by
  set u₀ : UnitOfWork := { u with heap := (u.heap.alloc e m).1 } with hu₀
  set u₁ := u₀.setStore e (.many (rs ++ [u.heap.next])) with hu₁
  have hcell : u₁.heap.cell e = Function.update (u.heap.cell e) u.heap.next m :=
    Function.update_self e _ _
  have hlist : u₁.store e = some (.many (rs ++ [u.heap.next])) := Function.update_self e _ _
  apply returns_local (v := u₀) (b := u.heap.next) rfl
  apply returns_local (v := u₁) (b := ()) (storeModel_many hsingle hstore)
  have hqueued := queued_returns (c := c) he (.insert e u.heap.next)
    (kept_marked (u := u₁) (r := u.heap.next))
  refine hqueued.mono ?_
  intro p ⟨hok, hstore, hheap, hnext, hops, hcatalog⟩
  have hlt : u.heap.next < p.2.heap.next := lt_of_lt_of_le (Nat.lt_succ_self _) hnext
  exact ⟨hok, hstore.trans hlist, hheap.trans hcell, hlt, hops, hcatalog⟩

/-! ## Stocks -/

structure Stock (e : EntityKind) where
  key : Row e → UInt32
  amount : Row e → ℤ

def assetStock : Stock .assets where
  key := Asset.assetID
  amount m := (Asset.quantity m).toInt

def itemStock : Stock .items where
  key := Item.itemID
  amount m := (Item.amount m).toNat

/-- The loaded list, with one model for each id. -/
structure Loaded (k : Stock e) (rs : List Ref) (u : UnitOfWork) : Prop where
  store : u.store e = some (.many rs)
  lt : ∀ r ∈ rs, r < u.heap.next
  distinct : (rs.map fun r => k.key (u.heap.cell e r)).Nodup

namespace Stock

variable (k : Stock e)

def find (u : UnitOfWork) (rs : List Ref) (id : UInt32) : Option Ref :=
  rs.find? fun r => k.key (u.heap.cell e r) == id

def entry (u : UnitOfWork) (id : UInt32) : Option (Row e) :=
  match u.store e with
  | some (.many rs) => (k.find u rs id).map (u.heap.cell e)
  | _ => none

/-- The quantity stored for the id; what is absent counts nothing. -/
def balance (u : UnitOfWork) (id : UInt32) : ℤ := ((k.entry u id).map k.amount).getD 0

end Stock

section

variable {k : Stock e} {id : UInt32}

theorem entry_eq (h : u.store e = some (.many rs)) :
    k.entry u id = (k.find u rs id).map (u.heap.cell e) := by
  unfold Stock.entry
  rw [h]

theorem key_of_find (h : k.find u rs id = some r) : r ∈ rs ∧ k.key (u.heap.cell e r) = id := by
  have hkey := List.find?_some h
  exact ⟨List.mem_of_find?_eq_some h, beq_iff_eq.mp hkey⟩

theorem not_mem_of_find (h : k.find u rs id = none) :
    id ∉ rs.map fun r => k.key (u.heap.cell e r) := by
  intro hmem
  obtain ⟨r, hr, hkey⟩ := List.mem_map.mp hmem
  have hnot := List.find?_eq_none.mp h r hr
  exact hnot (beq_iff_eq.mpr hkey)

theorem ne_of_find (hr : k.find u rs id = some r) {r' : Ref} {id' : UInt32} (hne : id' ≠ id)
    (hr' : k.find u rs id' = some r') : r' ≠ r := by
  intro heq
  apply hne
  rw [← (key_of_find hr').2, ← (key_of_find hr).2, heq]

theorem key_assigned (h : Assigned e r m u u') (hkey : k.key m = k.key (u.heap.cell e r))
    (r' : Ref) : k.key (u'.heap.cell e r') = k.key (u.heap.cell e r') := by
  rw [h.cell]
  by_cases hr : r' = r
  · rw [hr, Function.update_self, hkey]
  · rw [Function.update_of_ne hr]

theorem loaded_assigned (hl : Loaded k rs u) (h : Assigned e r m u u')
    (hkey : k.key m = k.key (u.heap.cell e r)) : Loaded k rs u' where
  store := h.store.trans hl.store
  lt r' hr' := lt_of_lt_of_le (hl.lt r' hr') h.next
  distinct := by
    have hkeys : (fun r' => k.key (u'.heap.cell e r')) = fun r' => k.key (u.heap.cell e r') :=
      funext (key_assigned h hkey)
    rw [hkeys]
    exact hl.distinct

theorem entry_assigned (hl : Loaded k rs u) (h : Assigned e r m u u')
    (hr : k.find u rs id = some r) (hkey : k.key m = id) (id' : UInt32) :
    k.entry u' id' = if id' = id then some m else k.entry u id' := by
  have hkeyr : k.key m = k.key (u.heap.cell e r) := hkey.trans (key_of_find hr).2.symm
  have hfind : k.find u' rs id' = k.find u rs id' := by
    unfold Stock.find
    have hkeys : (fun r' => k.key (u'.heap.cell e r') == id') =
        fun r' => k.key (u.heap.cell e r') == id' :=
      funext fun r' => by rw [key_assigned h hkeyr r']
    rw [hkeys]
  rw [entry_eq (h.store.trans hl.store), entry_eq hl.store, hfind, h.cell]
  by_cases hid : id' = id
  · rw [if_pos hid, hid, hr, Option.map_some, Function.update_self]
  · rw [if_neg hid]
    cases hr' : k.find u rs id' with
    | none => rfl
    | some r' =>
      have hne : r' ≠ r := ne_of_find hr hid hr'
      rw [Option.map_some, Option.map_some, Function.update_of_ne hne]

theorem cell_appended (hl : Loaded k rs u) (h : Appended e rs m u u') {r' : Ref} (hr' : r' ∈ rs) :
    u'.heap.cell e r' = u.heap.cell e r' := by
  have hne : r' ≠ u.heap.next := Nat.ne_of_lt (hl.lt r' hr')
  rw [h.cell, Function.update_of_ne hne]

theorem cell_new (h : Appended e rs m u u') : u'.heap.cell e u.heap.next = m := by
  rw [h.cell, Function.update_self]

theorem loaded_appended (hl : Loaded k rs u) (h : Appended e rs m u u')
    (hnone : k.find u rs (k.key m) = none) : Loaded k (rs ++ [u.heap.next]) u' where
  store := h.store
  lt r' hr' := by
    rcases List.mem_append.mp hr' with hr' | hr'
    · exact lt_trans (hl.lt r' hr') h.next
    · rw [List.mem_singleton.mp hr']
      exact h.next
  distinct := by
    have hold : (rs.map fun r => k.key (u'.heap.cell e r)) =
        rs.map fun r => k.key (u.heap.cell e r) :=
      List.map_congr_left fun r' hr' => by rw [cell_appended hl h hr']
    rw [List.map_append, hold, List.map_singleton, cell_new h]
    refine List.nodup_append.mpr ⟨hl.distinct, List.nodup_singleton _, ?_⟩
    intro a ha b hb hab
    rw [List.mem_singleton.mp hb] at hab
    rw [hab] at ha
    exact not_mem_of_find hnone ha

theorem entry_appended (hl : Loaded k rs u) (h : Appended e rs m u u')
    (hnone : k.find u rs (k.key m) = none) (id' : UInt32) :
    k.entry u' id' = if id' = k.key m then some m else k.entry u id' := by
  have hold : k.find u' rs id' = k.find u rs id' := by
    unfold Stock.find
    refine List.find?_congr fun r' hr' => ?_
    rw [cell_appended hl h hr']
  have hfind : k.find u' (rs ++ [u.heap.next]) id' =
      (k.find u rs id').or (k.find u' [u.heap.next] id') := by
    rw [← hold]
    exact List.find?_append
  rw [entry_eq h.store, entry_eq hl.store, hfind]
  by_cases hid : id' = k.key m
  · have hnew : k.find u' [u.heap.next] id' = some u.heap.next := by
      unfold Stock.find
      rw [List.find?_singleton, cell_new h, hid, beq_self_eq_true, if_pos rfl]
    rw [if_pos hid, hnew, hid, hnone, Option.none_or, Option.map_some, cell_new h]
  · have hnew : k.find u' [u.heap.next] id' = none := by
      unfold Stock.find
      rw [List.find?_singleton, cell_new h, if_neg]
      exact fun heq => hid (beq_iff_eq.mp heq).symm
    rw [if_neg hid, hnew, Option.or_none]
    cases hr' : k.find u rs id' with
    | none => rfl
    | some r' => rw [Option.map_some, Option.map_some, cell_appended hl h (key_of_find hr').1]

/-- The list has grown by the models whose `INSERT`s have been queued, in their order. -/
structure Grown (k : Stock e) (rs rs' : List Ref) (u u' : UnitOfWork) : Prop where
  loaded : Loaded k rs' u'
  catalog : u'.catalog = u.catalog
  queued : ∃ ops, u'.dbOps = u.dbOps ++ ops ∧ rs' = rs ++ inserts e (ops.map DbOp.stmt)

theorem Grown.refl (hl : Loaded k rs u) : Grown k rs rs u u :=
  ⟨hl, rfl, [], by simp, by simp⟩

theorem Grown.trans {rs' rs'' : List Ref} (h : Grown k rs rs' u u')
    (h' : Grown k rs' rs'' u' u'') : Grown k rs rs'' u u'' where
  loaded := h'.loaded
  catalog := h'.catalog.trans h.catalog
  queued := by
    obtain ⟨ops, hops, hrs⟩ := h.queued
    obtain ⟨ops', hops', hrs'⟩ := h'.queued
    refine ⟨ops ++ ops', ?_, ?_⟩
    · rw [hops', hops, List.append_assoc]
    · rw [hrs', hrs, List.map_append, inserts_append, List.append_assoc]

theorem grown_assigned (hl : Loaded k rs u) (h : Assigned e r m u u')
    (hkey : k.key m = k.key (u.heap.cell e r)) : Grown k rs rs u u' := by
  obtain ⟨db, hops⟩ := h.ops
  exact ⟨loaded_assigned hl h hkey, h.catalog, _, hops, by simp⟩

theorem grown_appended (hl : Loaded k rs u) (h : Appended e rs m u u')
    (hnone : k.find u rs (k.key m) = none) : Grown k rs (rs ++ [u.heap.next]) u u' := by
  obtain ⟨db, hops⟩ := h.ops
  exact ⟨loaded_appended hl h hnone, h.catalog, _, hops, by simp⟩

end

/-! ## Histories -/

structure Step (C : Type) where
  before : UnitOfWork
  call : C
  result : Except GoError Unit
  after : UnitOfWork

/-- Calls in one unit of work, one after the other; those that fail are part of it. -/
inductive History {C : Type} (run : C → UowM Unit) :
    UnitOfWork → List (Step C) → UnitOfWork → Prop
  | nil (u : UnitOfWork) : History run u [] u
  | cons {u u' u'' : UnitOfWork} {call : C} {result : Except GoError Unit}
      {steps : List (Step C)} (h : (run call u).Yields (result, u'))
      (rest : History run u' steps u'') : History run u (⟨u, call, result, u'⟩ :: steps) u''

theorem history_grown {C : Type} {run : C → UowM Unit} {k : Stock e}
    (hstep : ∀ call u rs, Loaded k rs u →
      (run call u).Returns fun p => ∃ rs', Grown k rs rs' u p.2)
    {u₀ : UnitOfWork} {rs₀ : List Ref} {steps : List (Step C)} (h : History run u steps u')
    (hg : Grown k rs₀ rs u₀ u) : ∀ s ∈ steps, ∃ rs₁ rs₂, Loaded k rs₁ s.before ∧
      (run s.call s.before).Yields (s.result, s.after) ∧ Grown k rs₀ rs₂ u₀ s.after := by
  induction h generalizing rs with
  | nil u =>
    intro s hs
    cases hs
  | @cons u u' u'' call result steps hcall _ ih =>
    obtain ⟨rs', hgrown⟩ := (hstep call u rs hg.loaded).of_yields hcall
    have hg' := hg.trans hgrown
    intro s hs
    rcases List.mem_cons.mp hs with hs | hs
    · rw [hs]
      exact ⟨rs, rs', hg.loaded, hcall, hg'⟩
    · exact ih hg' s hs

/-- One entry for each id, and one `INSERT` for each entry that `u` did not have. -/
def InsertedOnce (k : Stock e) (u u' : UnitOfWork) : Prop :=
  ∃ rs ops, u.store e = some (.many rs) ∧ u'.dbOps = u.dbOps ++ ops ∧
    u'.store e = some (.many (rs ++ inserts e (ops.map DbOp.stmt))) ∧
    ((rs ++ inserts e (ops.map DbOp.stmt)).map fun r => k.key (u'.heap.cell e r)).Nodup

theorem insertedOnce {k : Stock e} {rs' : List Ref} (hl : Loaded k rs u)
    (h : Grown k rs rs' u u') : InsertedOnce k u u' := by
  obtain ⟨ops, hops, hrs⟩ := h.queued
  have hloaded := h.loaded
  rw [hrs] at hloaded
  exact ⟨rs, ops, hl.store, hops, hloaded.store, hloaded.distinct⟩

/-! ## Assets -/

inductive AssetCall
  | add (assetID : UInt32) (quantity : Int64)
  | consume (assetID : UInt32) (quantity : Int64)

namespace AssetCall

def run (c : Container) : AssetCall → UowM Unit
  | .add assetID quantity => AssetService.addAsset c assetID quantity
  | .consume assetID quantity => AssetService.consumeAsset c assetID quantity

def id : AssetCall → UInt32
  | .add assetID _ => assetID
  | .consume assetID _ => assetID

def signed : AssetCall → ℤ
  | .add _ quantity => quantity.toInt
  | .consume _ quantity => -quantity.toInt

end AssetCall

inductive AssetEffect (rs : List Ref) (u : UnitOfWork) :
    AssetCall → Except GoError Unit → UnitOfWork → Prop
  | created {assetID : UInt32} {quantity : Int64} {m : Asset} {u' : UnitOfWork}
      (absent : assetStock.find u rs assetID = none) (key : m.assetID = assetID)
      (amount : m.quantity = quantity) (appended : Appended .assets rs m u u') :
      AssetEffect rs u (.add assetID quantity) (.ok ()) u'
  | added {assetID : UInt32} {quantity : Int64} {r : Ref} {old m : Asset} {u' : UnitOfWork}
      (found : assetStock.find u rs assetID = some r) (cell : u.heap.cell .assets r = old)
      (key : m.assetID = old.assetID) (amount : m.quantity = old.quantity + quantity)
      (assigned : Assigned .assets r m u u') :
      AssetEffect rs u (.add assetID quantity) (.ok ()) u'
  | refused {assetID : UInt32} {quantity : Int64} {err : GoError}
      (short : ∀ old, assetStock.entry u assetID = some old → Asset.quantity old < quantity) :
      AssetEffect rs u (.consume assetID quantity) (.error err) u
  | consumed {assetID : UInt32} {quantity : Int64} {r : Ref} {old m : Asset} {u' : UnitOfWork}
      (found : assetStock.find u rs assetID = some r) (cell : u.heap.cell .assets r = old)
      (enough : ¬ old.quantity < quantity) (key : m.assetID = old.assetID)
      (amount : m.quantity = old.quantity - quantity) (assigned : Assigned .assets r m u u') :
      AssetEffect rs u (.consume assetID quantity) (.ok ()) u'

theorem getAsset_loaded (hl : Loaded assetStock rs u) (assetID : UInt32) :
    AssetService.getAsset c assetID u = .ret (.ok (assetStock.find u rs assetID), u) := by
  have hlist : assets c u = .ret (.ok rs, u) := by
    unfold assets loadList
    change (UowM.bind UowM.get _) u = _
    simp only [UowM.bind, UowM.get, Prog.ret_bind, hl.store]
    rfl
  change (UowM.bind (assets c) _) u = _
  simp only [UowM.bind, hlist, Prog.ret_bind]
  rfl

theorem asset_effect (hl : Loaded assetStock rs u) (call : AssetCall) :
    (call.run c u).Returns fun p => AssetEffect rs u call p.1 p.2 := by
  cases call with
  | add assetID quantity =>
    apply returns_local (getAsset_loaded hl assetID)
    intro now
    cases hfind : assetStock.find u rs assetID with
    | none =>
      refine (create_returns (by decide) rfl _ hl.store).mono ?_
      intro p ⟨hok, happended⟩
      rw [hok]
      refine .created hfind ?_ ?_ happended
      · rfl
      · rfl
    | some r =>
      refine (update_returns (by decide) _ u).mono ?_
      intro p ⟨hok, hassigned⟩
      rw [hok]
      refine .added hfind rfl ?_ ?_ hassigned
      · rfl
      · rfl
  | consume assetID quantity =>
    apply returns_local (getAsset_loaded hl assetID)
    cases hfind : assetStock.find u rs assetID with
    | none =>
      have hshort : ∀ old, assetStock.entry u assetID = some old →
          Asset.quantity old < quantity := by
        intro old hold
        rw [entry_eq hl.store, hfind] at hold
        cases hold
      exact .refused hshort
    | some r =>
      apply returns_local (v := u) (b := u.heap.cell .assets r) rfl
      by_cases hlt : Asset.quantity (u.heap.cell .assets r) < quantity
      · have hshort : ∀ old, assetStock.entry u assetID = some old →
            Asset.quantity old < quantity := by
          intro old hold
          rw [entry_eq hl.store, hfind] at hold
          cases hold
          exact hlt
        rw [if_pos hlt]
        exact .refused hshort
      · rw [if_neg hlt]
        intro now
        refine (update_returns (by decide) _ u).mono ?_
        intro p ⟨hok, hassigned⟩
        rw [hok]
        refine .consumed hfind rfl hlt ?_ ?_ hassigned
        · rfl
        · rfl

structure AssetLaw (s : Step AssetCall) : Prop where
  exact : s.result = .ok () →
    assetStock.balance s.after s.call.id = assetStock.balance s.before s.call.id + s.call.signed
  others : s.result = .ok () → ∀ id ≠ s.call.id,
    assetStock.entry s.after id = assetStock.entry s.before id
  spent : ∀ assetID quantity, s.call = .consume assetID quantity → s.result = .ok () →
    assetStock.balance s.after assetID ≤ assetStock.balance s.before assetID ∧
      0 ≤ assetStock.balance s.after assetID
  refused : ∀ err, s.result = .error err → s.after = s.before

/-- The sum stays in the range of the column, and what is spent is not negative. -/
def AssetCall.Fits (u : UnitOfWork) : AssetCall → Prop
  | .add assetID quantity => ∀ m, assetStock.entry u assetID = some m →
      -2 ^ 63 ≤ (Asset.quantity m).toInt + quantity.toInt ∧
        (Asset.quantity m).toInt + quantity.toInt < 2 ^ 63
  | .consume assetID quantity => ∀ m, assetStock.entry u assetID = some m →
      quantity ≤ Asset.quantity m → 0 ≤ quantity

theorem toInt_add_iff (a b : Int64) : (a + b).toInt = a.toInt + b.toInt ↔
    -2 ^ 63 ≤ a.toInt + b.toInt ∧ a.toInt + b.toInt < 2 ^ 63 := by
  constructor
  · intro h
    rw [← h]
    exact ⟨(a + b).le_toInt, (a + b).toInt_lt⟩
  · intro h
    rw [Int64.toInt_add]
    apply Int.bmod_eq_of_le <;> omega

theorem toInt_sub_of_le {a b : Int64} (hle : b ≤ a) (hb : 0 ≤ b) :
    (a - b).toInt = a.toInt - b.toInt := by
  have hle' : b.toInt ≤ a.toInt := Int64.le_iff_toInt_le.mp hle
  have hb' : 0 ≤ b.toInt := Int64.le_iff_toInt_le.mp hb
  have ha := a.toInt_lt
  rw [Int64.toInt_sub]
  apply Int.bmod_eq_of_le <;> omega

section

variable {k : Stock e} {id : UInt32}

theorem balance_found (hl : Loaded k rs u) (hr : k.find u rs id = some r) :
    k.balance u id = k.amount (u.heap.cell e r) := by
  unfold Stock.balance
  rw [entry_eq hl.store, hr]
  rfl

theorem balance_absent (hl : Loaded k rs u) (hr : k.find u rs id = none) :
    k.balance u id = 0 := by
  unfold Stock.balance
  rw [entry_eq hl.store, hr]
  rfl

theorem balance_assigned (hl : Loaded k rs u) (h : Assigned e r m u u')
    (hr : k.find u rs id = some r) (hkey : k.key m = id) : k.balance u' id = k.amount m := by
  unfold Stock.balance
  rw [entry_assigned hl h hr hkey, if_pos rfl]
  rfl

theorem balance_appended (hl : Loaded k rs u) (h : Appended e rs m u u')
    (hnone : k.find u rs (k.key m) = none) : k.balance u' (k.key m) = k.amount m := by
  unfold Stock.balance
  rw [entry_appended hl h hnone, if_pos rfl]
  rfl

end

theorem assetLaw_iff {s : Step AssetCall} (hl : Loaded assetStock rs s.before)
    (h : AssetEffect rs s.before s.call s.result s.after) :
    AssetLaw s ↔ s.call.Fits s.before := by
  obtain ⟨u, call, result, u'⟩ := s
  dsimp only at hl h ⊢
  cases h with
  | @created assetID quantity m u' habsent hkey hamount happended =>
    subst hkey
    have hbefore := balance_absent hl habsent
    have hafter := balance_appended hl happended habsent
    have hfits : (AssetCall.add m.assetID quantity).Fits u := by
      intro m' hm'
      rw [entry_eq hl.store, habsent] at hm'
      cases hm'
    refine iff_of_true ⟨?_, ?_, ?_, ?_⟩ hfits
    · intro _
      refine hafter.trans ?_
      change m.quantity.toInt = assetStock.balance u m.assetID + quantity.toInt
      rw [hbefore, hamount, Int.zero_add]
    · intro _ id hid
      exact (entry_appended hl happended habsent id).trans (if_neg hid)
    · intro assetID quantity hcall
      cases hcall
    · intro err herr
      cases herr
  | @added assetID quantity r old m u' hfound hcell hkey hamount hassigned =>
    have hid : m.assetID = assetID := by
      rw [hkey, ← hcell]
      exact (key_of_find hfound).2
    have hbefore : assetStock.balance u assetID = old.quantity.toInt := by
      rw [balance_found hl hfound, hcell]
      rfl
    have hafter : assetStock.balance u' assetID = (old.quantity + quantity).toInt := by
      rw [balance_assigned hl hassigned hfound hid, ← hamount]
      rfl
    have hentry : assetStock.entry u assetID = some old := by
      rw [entry_eq hl.store, hfound, ← hcell]
      rfl
    constructor
    · intro hlaw m' hm'
      rw [hentry] at hm'
      cases hm'
      have hexact : assetStock.balance u' assetID =
          assetStock.balance u assetID + quantity.toInt := hlaw.exact rfl
      rw [hafter, hbefore] at hexact
      exact (toInt_add_iff _ _).mp hexact
    · intro hfits
      have hsum := (toInt_add_iff _ _).mpr (hfits old hentry)
      refine ⟨?_, ?_, ?_, ?_⟩
      · intro _
        change assetStock.balance u' assetID = assetStock.balance u assetID + quantity.toInt
        rw [hafter, hbefore, hsum]
      · intro _ id hne
        exact (entry_assigned hl hassigned hfound hid id).trans (if_neg hne)
      · intro assetID quantity hcall
        cases hcall
      · intro err herr
        cases herr
  | @refused assetID quantity err hshort =>
    have hfits : (AssetCall.consume assetID quantity).Fits u := by
      intro m hm hle
      exact absurd (hshort m hm) (Int64.not_lt.mpr hle)
    refine iff_of_true ⟨?_, ?_, ?_, ?_⟩ hfits
    · intro hok
      cases hok
    · intro hok
      cases hok
    · intro _ _ _ hok
      cases hok
    · intro _ _
      rfl
  | @consumed assetID quantity r old m u' hfound hcell henough hkey hamount hassigned =>
    have hid : m.assetID = assetID := by
      rw [hkey, ← hcell]
      exact (key_of_find hfound).2
    have hle : quantity ≤ old.quantity := Int64.not_lt.mp henough
    have hbefore : assetStock.balance u assetID = old.quantity.toInt := by
      rw [balance_found hl hfound, hcell]
      rfl
    have hafter : assetStock.balance u' assetID = (old.quantity - quantity).toInt := by
      rw [balance_assigned hl hassigned hfound hid, ← hamount]
      rfl
    have hentry : assetStock.entry u assetID = some old := by
      rw [entry_eq hl.store, hfound, ← hcell]
      rfl
    constructor
    · intro hlaw m' hm' _
      have hexact : assetStock.balance u' assetID =
          assetStock.balance u assetID + -quantity.toInt := hlaw.exact rfl
      have hspent : assetStock.balance u' assetID ≤ assetStock.balance u assetID :=
        (hlaw.spent assetID quantity rfl rfl).1
      apply Int64.le_iff_toInt_le.mpr
      rw [Int64.toInt_zero]
      omega
    · intro hfits
      have hnonneg : 0 ≤ quantity := hfits old hentry hle
      have hdiff := toInt_sub_of_le hle hnonneg
      have hle' : quantity.toInt ≤ old.quantity.toInt := Int64.le_iff_toInt_le.mp hle
      have hnonneg' : 0 ≤ quantity.toInt := Int64.le_iff_toInt_le.mp hnonneg
      refine ⟨?_, ?_, ?_, ?_⟩
      · intro _
        change assetStock.balance u' assetID = assetStock.balance u assetID + -quantity.toInt
        omega
      · intro _ id hne
        exact (entry_assigned hl hassigned hfound hid id).trans (if_neg hne)
      · intro assetID' quantity' hcall _
        cases hcall
        change assetStock.balance u' assetID ≤ assetStock.balance u assetID ∧
          0 ≤ assetStock.balance u' assetID
        omega
      · intro err herr
        cases herr

theorem asset_grown (hl : Loaded assetStock rs u) (call : AssetCall) :
    (call.run c u).Returns fun p => ∃ rs', Grown assetStock rs rs' u p.2 := by
  refine (asset_effect hl call).mono ?_
  intro p h
  generalize p.1 = result at h
  generalize p.2 = u' at h
  cases h with
  | created habsent hkey _ happended =>
    subst hkey
    exact ⟨_, grown_appended hl happended habsent⟩
  | added hfound hcell hkey _ hassigned =>
    rw [← hcell] at hkey
    exact ⟨_, grown_assigned hl hassigned hkey⟩
  | refused => exact ⟨_, Grown.refl hl⟩
  | consumed hfound hcell _ hkey _ hassigned =>
    rw [← hcell] at hkey
    exact ⟨_, grown_assigned hl hassigned hkey⟩

/-- The books are kept along a history if and only if every call fits where it is made. -/
theorem asset_ledger_iff {steps : List (Step AssetCall)} (hl : Loaded assetStock rs u)
    (h : History (AssetCall.run c) u steps u') :
    (∀ s ∈ steps, AssetLaw s ∧ InsertedOnce assetStock u s.after) ↔
      ∀ s ∈ steps, s.call.Fits s.before := by
  have hsteps := history_grown (fun call u rs hl => asset_grown hl call) h (Grown.refl hl)
  constructor
  · intro hlaw s hs
    obtain ⟨rs₁, _, hl₁, hcall, _⟩ := hsteps s hs
    exact (assetLaw_iff hl₁ ((asset_effect hl₁ s.call).of_yields hcall)).mp (hlaw s hs).1
  · intro hfits s hs
    obtain ⟨rs₁, _, hl₁, hcall, hgrown⟩ := hsteps s hs
    have heffect := (asset_effect hl₁ s.call).of_yields hcall
    exact ⟨(assetLaw_iff hl₁ heffect).mpr (hfits s hs), insertedOnce hl hgrown⟩

def fiveAssets : UnitOfWork :=
  { UnitOfWork.new 1 Sample.catalog with
    store := fun
      | .account => some (.one 0)
      | .assets => some (.many [1])
      | _ => none
    heap := ((Heap.empty.alloc .account Sample.account).1.alloc .assets
      ⟨1, 1, 7, 5, 0, 0, 0⟩).1 }

theorem loaded_fiveAssets : Loaded assetStock [1] fiveAssets where
  store := rfl
  lt := by decide
  distinct := by decide

theorem asset_ledger_iff_purchases : ∃ steps u',
    History (AssetCall.run Sample.container) fiveAssets steps u' ∧
      steps.map Step.call = [.add 8 2, .add 7 3, .consume 7 6, .consume 8 3] ∧
      assetStock.balance u' 7 = 2 ∧ assetStock.balance u' 8 = 2 ∧
      ∀ s ∈ steps, AssetLaw s ∧ InsertedOnce assetStock fiveAssets s.after := by
  have hhistory : History (AssetCall.run Sample.container) fiveAssets _ _ :=
    .cons (show (AssetCall.run Sample.container (.add 8 2) fiveAssets).Yields (.ok (), _) from
      ⟨0, rfl⟩) <|
    .cons (show (AssetCall.run Sample.container (.add 7 3) _).Yields (.ok (), _) from ⟨0, rfl⟩) <|
    .cons (show (AssetCall.run Sample.container (.consume 7 6) _).Yields (.ok (), _) from
      ⟨0, rfl⟩) <|
    .cons (show (AssetCall.run Sample.container (.consume 8 3) _).Yields (.error _, _) from
      rfl) (.nil _)
  refine ⟨_, _, hhistory, rfl, rfl, rfl, (asset_ledger_iff loaded_fiveAssets hhistory).mpr ?_⟩
  simp only [List.forall_mem_cons]
  refine ⟨?_, ?_, ?_, ?_, nofun⟩
  · intro m hm
    cases hm
  · intro m hm
    rw [Option.some_inj.mp (hm.symm.trans
      (rfl : assetStock.entry _ 7 = some ⟨1, 1, 7, 5, 0, 0, 0⟩))]
    decide
  · intro m _ _
    decide
  · intro m _ _
    decide

/-- Minus three of an asset are consumed, and there are more of it. -/
theorem consume_negative : ∃ u', History (AssetCall.run Sample.container) fiveAssets
      [⟨fiveAssets, .consume 7 (-3), .ok (), u'⟩] u' ∧
    assetStock.balance fiveAssets 7 = 5 ∧ assetStock.balance u' 7 = 8 ∧
    ¬ AssetLaw ⟨fiveAssets, .consume 7 (-3), .ok (), u'⟩ := by
  obtain ⟨u', hstep, hafter⟩ : ∃ u', (AssetCall.run Sample.container (.consume 7 (-3))
      fiveAssets).Yields (.ok (), u') ∧ assetStock.balance u' 7 = 8 := ⟨_, ⟨0, rfl⟩, rfl⟩
  have hbefore : assetStock.balance fiveAssets 7 = 5 := rfl
  refine ⟨u', .cons hstep (.nil _), hbefore, hafter, ?_⟩
  intro hlaw
  have hspent : assetStock.balance u' 7 ≤ assetStock.balance fiveAssets 7 :=
    (hlaw.spent 7 (-3) rfl rfl).1
  omega

/-! ## Items -/

inductive ItemCall
  | add (itemID : UInt32) (amount : UInt64)
  | consume (itemID : UInt32) (amount : UInt64)

namespace ItemCall

def run (c : Container) : ItemCall → UowM Unit
  | .add itemID amount => ItemService.addItem c itemID amount
  | .consume itemID amount => ItemService.consumeItem c itemID amount

def id : ItemCall → UInt32
  | .add itemID _ => itemID
  | .consume itemID _ => itemID

def signed : ItemCall → ℤ
  | .add _ amount => amount.toNat
  | .consume _ amount => -amount.toNat

end ItemCall

inductive ItemEffect (rs : List Ref) (u : UnitOfWork) :
    ItemCall → Except GoError Unit → UnitOfWork → Prop
  | created {itemID : UInt32} {amount : UInt64} {d : ItemListDesign} {m : Item}
      {u' : UnitOfWork} (absent : itemStock.find u rs itemID = none)
      (design : u.catalog.item.lookup itemID.toInt32 = some d) (key : m.itemID = itemID)
      (sum : m.amount = amount) (type : m.itemType = d.itemType.toUInt32.toUInt16)
      (appended : Appended .items rs m u u') : ItemEffect rs u (.add itemID amount) (.ok ()) u'
  | unknown {itemID : UInt32} {amount : UInt64} {err : GoError}
      (absent : itemStock.find u rs itemID = none)
      (design : u.catalog.item.lookup itemID.toInt32 = none) :
      ItemEffect rs u (.add itemID amount) (.error err) u
  | added {itemID : UInt32} {amount : UInt64} {r : Ref} {old m : Item} {u' : UnitOfWork}
      (found : itemStock.find u rs itemID = some r) (cell : u.heap.cell .items r = old)
      (key : m.itemID = old.itemID) (sum : m.amount = old.amount + amount)
      (assigned : Assigned .items r m u u') : ItemEffect rs u (.add itemID amount) (.ok ()) u'
  | refused {itemID : UInt32} {amount : UInt64} {err : GoError} :
      ItemEffect rs u (.consume itemID amount) (.error err) u
  | consumed {itemID : UInt32} {amount : UInt64} {r : Ref} {old m : Item} {u' : UnitOfWork}
      (found : itemStock.find u rs itemID = some r) (cell : u.heap.cell .items r = old)
      (enough : ¬ old.amount < amount) (key : m.itemID = old.itemID)
      (sum : m.amount = old.amount - amount) (assigned : Assigned .items r m u u') :
      ItemEffect rs u (.consume itemID amount) (.ok ()) u'

theorem getItem_loaded (hl : Loaded itemStock rs u) (itemID : UInt32) :
    ItemService.getItem c itemID u = .ret (.ok (itemStock.find u rs itemID), u) := by
  have hlist : items c u = .ret (.ok rs, u) := by
    unfold items loadList
    change (UowM.bind UowM.get _) u = _
    simp only [UowM.bind, UowM.get, Prog.ret_bind, hl.store]
    rfl
  change (UowM.bind (items c) _) u = _
  simp only [UowM.bind, hlist, Prog.ret_bind]
  rfl

theorem item_effect (hl : Loaded itemStock rs u) (call : ItemCall) :
    (call.run c u).Returns fun p => ItemEffect rs u call p.1 p.2 := by
  cases call with
  | add itemID amount =>
    apply returns_local (getItem_loaded hl itemID)
    intro now
    cases hfind : itemStock.find u rs itemID with
    | none =>
      apply returns_local (v := u) (b := u) rfl
      cases hlookup : u.catalog.item.lookup itemID.toInt32 with
      | none => exact .unknown hfind hlookup
      | some d =>
        refine (create_returns (by decide) rfl _ hl.store).mono ?_
        intro p ⟨hok, happended⟩
        rw [hok]
        refine .created hfind hlookup ?_ ?_ ?_ happended
        · rfl
        · rfl
        · rfl
    | some r =>
      refine (update_returns (by decide) _ u).mono ?_
      intro p ⟨hok, hassigned⟩
      rw [hok]
      refine .added hfind rfl ?_ ?_ hassigned
      · rfl
      · rfl
  | consume itemID amount =>
    apply returns_local (getItem_loaded hl itemID)
    cases hfind : itemStock.find u rs itemID with
    | none => exact .refused
    | some r =>
      apply returns_local (v := u) (b := u.heap.cell .items r) rfl
      by_cases hlt : Item.amount (u.heap.cell .items r) < amount
      · rw [if_pos hlt]
        exact .refused
      · rw [if_neg hlt]
        intro now
        refine (update_returns (by decide) _ u).mono ?_
        intro p ⟨hok, hassigned⟩
        rw [hok]
        refine .consumed hfind rfl hlt ?_ ?_ hassigned
        · rfl
        · rfl

structure ItemLaw (s : Step ItemCall) : Prop where
  exact : s.result = .ok () →
    itemStock.balance s.after s.call.id = itemStock.balance s.before s.call.id + s.call.signed
  others : s.result = .ok () → ∀ id ≠ s.call.id,
    itemStock.entry s.after id = itemStock.entry s.before id
  created : ∀ m, s.result = .ok () → itemStock.entry s.before s.call.id = none →
    itemStock.entry s.after s.call.id = some m →
    ∃ k d, s.before.catalog.item.lookup k = some d ∧ k.toInt = s.call.id.toNat ∧
      (Item.itemType m).toNat = d.itemType.toInt
  refused : ∀ err, s.result = .error err → s.after = s.before

/-- The sum stays in the range of the column, and the id and the type of a new item in those of
the conversions. -/
def ItemCall.Fits (u : UnitOfWork) : ItemCall → Prop
  | .add itemID amount =>
      (∀ m, itemStock.entry u itemID = some m →
        (Item.amount m).toNat + amount.toNat < 2 ^ 64) ∧
      (itemStock.entry u itemID = none → ∀ d, u.catalog.item.lookup itemID.toInt32 = some d →
        itemID.toNat < 2 ^ 31 ∧ 0 ≤ d.itemType.toInt ∧ d.itemType.toInt < 2 ^ 16)
  | .consume _ _ => True

theorem toNat_add_iff (a b : UInt64) : (a + b).toNat = a.toNat + b.toNat ↔
    a.toNat + b.toNat < 2 ^ 64 := by
  rw [UInt64.toNat_add]
  constructor
  · intro h
    rw [← h]
    exact Nat.mod_lt _ (by decide)
  · exact Nat.mod_eq_of_lt

theorem toInt32_iff (id : UInt32) : id.toInt32.toInt = id.toNat ↔ id.toNat < 2 ^ 31 := by
  have hbits : id.toInt32.toInt = id.toBitVec.toInt := rfl
  have hnat : id.toBitVec.toNat = id.toNat := rfl
  rw [hbits, BitVec.toInt_eq_toNat_cond, hnat]
  have hlt := id.toNat_lt
  split_ifs with h <;> omega

theorem toUInt16_iff (type : Int32) : (type.toUInt32.toUInt16.toNat : ℤ) = type.toInt ↔
    0 ≤ type.toInt ∧ type.toInt < 2 ^ 16 := by
  have hbits : type.toInt = type.toBitVec.toInt := rfl
  have hnat : type.toUInt32.toNat = type.toBitVec.toNat := rfl
  rw [UInt32.toNat_toUInt16, hnat, hbits, BitVec.toInt_eq_toNat_cond]
  have hlt := type.toBitVec.isLt
  split_ifs with h <;> omega

theorem itemLaw_iff {s : Step ItemCall} (hl : Loaded itemStock rs s.before)
    (h : ItemEffect rs s.before s.call s.result s.after) :
    ItemLaw s ↔ s.call.Fits s.before := by
  obtain ⟨u, call, result, u'⟩ := s
  dsimp only at hl h ⊢
  cases h with
  | @created itemID amount d m u' habsent hdesign hkey hsum htype happended =>
    subst hkey
    have hbefore := balance_absent hl habsent
    have hafter := balance_appended hl happended habsent
    have hnone : itemStock.entry u m.itemID = none := by
      rw [entry_eq hl.store, habsent]
      rfl
    have hnew : itemStock.entry u' m.itemID = some m :=
      (entry_appended hl happended habsent _).trans (if_pos rfl)
    constructor
    · intro hlaw
      obtain ⟨k, d', hlookup, hk, htype'⟩ := hlaw.created m rfl hnone hnew
      have hlt : m.itemID.toNat < 2 ^ 31 := by
        have hbound := k.toInt_lt
        rw [hk] at hbound
        exact_mod_cast hbound
      have hkey : k = m.itemID.toInt32 :=
        Int32.toInt_inj.mp (hk.trans ((toInt32_iff _).mpr hlt).symm)
      rw [hkey] at hlookup
      have hd : d' = d := Option.some_inj.mp (hlookup.symm.trans hdesign)
      rw [hd, htype] at htype'
      refine ⟨?_, ?_⟩
      · intro old hold
        rw [hnone] at hold
        cases hold
      · intro _ d' hd'
        rw [Option.some_inj.mp (hd'.symm.trans hdesign)]
        exact ⟨hlt, (toUInt16_iff _).mp htype'⟩
    · intro hfits
      obtain ⟨hlt, hrange⟩ := hfits.2 hnone d hdesign
      refine ⟨?_, ?_, ?_, ?_⟩
      · intro _
        refine hafter.trans ?_
        change (m.amount.toNat : ℤ) = itemStock.balance u m.itemID + amount.toNat
        rw [hbefore, hsum, Int.zero_add]
      · intro _ id hid
        exact (entry_appended hl happended habsent id).trans (if_neg hid)
      · intro m' _ _ hm'
        have hm : m' = m := Option.some_inj.mp (hm'.symm.trans hnew)
        rw [hm, htype]
        exact ⟨_, d, hdesign, (toInt32_iff _).mpr hlt, (toUInt16_iff _).mpr hrange⟩
      · intro err herr
        cases herr
  | @unknown itemID amount err habsent hdesign =>
    have hfits : (ItemCall.add itemID amount).Fits u := by
      refine ⟨?_, ?_⟩
      · intro m hm
        rw [entry_eq hl.store, habsent] at hm
        cases hm
      · intro _ d hd
        rw [hdesign] at hd
        cases hd
    refine iff_of_true ⟨?_, ?_, ?_, ?_⟩ hfits
    · intro hok
      cases hok
    · intro hok
      cases hok
    · intro _ hok
      cases hok
    · intro _ _
      rfl
  | @added itemID amount r old m u' hfound hcell hkey hsum hassigned =>
    have hid : m.itemID = itemID := by
      rw [hkey, ← hcell]
      exact (key_of_find hfound).2
    have hbefore : itemStock.balance u itemID = old.amount.toNat := by
      rw [balance_found hl hfound, hcell]
      rfl
    have hafter : itemStock.balance u' itemID = (old.amount + amount).toNat := by
      rw [balance_assigned hl hassigned hfound hid, ← hsum]
      rfl
    have hentry : itemStock.entry u itemID = some old := by
      rw [entry_eq hl.store, hfound, ← hcell]
      rfl
    constructor
    · intro hlaw
      have hexact : itemStock.balance u' itemID = itemStock.balance u itemID + amount.toNat :=
        hlaw.exact rfl
      rw [hafter, hbefore] at hexact
      refine ⟨?_, ?_⟩
      · intro m' hm'
        rw [hentry] at hm'
        cases hm'
        exact (toNat_add_iff _ _).mp (by exact_mod_cast hexact)
      · intro hnone
        rw [hentry] at hnone
        cases hnone
    · intro hfits
      have hexact := (toNat_add_iff _ _).mpr (hfits.1 old hentry)
      refine ⟨?_, ?_, ?_, ?_⟩
      · intro _
        change itemStock.balance u' itemID = itemStock.balance u itemID + amount.toNat
        rw [hafter, hbefore, hexact]
        exact Int.natCast_add _ _
      · intro _ id hne
        exact (entry_assigned hl hassigned hfound hid id).trans (if_neg hne)
      · intro m' _ hnone
        have hsome : itemStock.entry u itemID = none := hnone
        rw [hentry] at hsome
        cases hsome
      · intro err herr
        cases herr
  | refused =>
    refine iff_of_true ⟨?_, ?_, ?_, ?_⟩ trivial
    · intro hok
      cases hok
    · intro hok
      cases hok
    · intro _ hok
      cases hok
    · intro _ _
      rfl
  | @consumed itemID amount r old m u' hfound hcell henough hkey hsum hassigned =>
    have hid : m.itemID = itemID := by
      rw [hkey, ← hcell]
      exact (key_of_find hfound).2
    have hle : amount ≤ old.amount := UInt64.not_lt.mp henough
    have hbefore : itemStock.balance u itemID = old.amount.toNat := by
      rw [balance_found hl hfound, hcell]
      rfl
    have hafter : itemStock.balance u' itemID = (old.amount - amount).toNat := by
      rw [balance_assigned hl hassigned hfound hid, ← hsum]
      rfl
    have hentry : itemStock.entry u itemID = some old := by
      rw [entry_eq hl.store, hfound, ← hcell]
      rfl
    have hdiff := UInt64.toNat_sub_of_le _ _ hle
    have hle' : amount.toNat ≤ old.amount.toNat := UInt64.le_iff_toNat_le.mp hle
    refine iff_of_true ⟨?_, ?_, ?_, ?_⟩ trivial
    · intro _
      change itemStock.balance u' itemID = itemStock.balance u itemID + -amount.toNat
      omega
    · intro _ id hne
      exact (entry_assigned hl hassigned hfound hid id).trans (if_neg hne)
    · intro m' _ hnone
      have hsome : itemStock.entry u itemID = none := hnone
      rw [hentry] at hsome
      cases hsome
    · intro err herr
      cases herr

theorem item_grown (hl : Loaded itemStock rs u) (call : ItemCall) :
    (call.run c u).Returns fun p => ∃ rs', Grown itemStock rs rs' u p.2 := by
  refine (item_effect hl call).mono ?_
  intro p h
  generalize p.1 = result at h
  generalize p.2 = u' at h
  cases h with
  | created habsent _ hkey _ _ happended =>
    subst hkey
    exact ⟨_, grown_appended hl happended habsent⟩
  | unknown => exact ⟨_, Grown.refl hl⟩
  | added hfound hcell hkey _ hassigned =>
    rw [← hcell] at hkey
    exact ⟨_, grown_assigned hl hassigned hkey⟩
  | refused => exact ⟨_, Grown.refl hl⟩
  | consumed hfound hcell _ hkey _ hassigned =>
    rw [← hcell] at hkey
    exact ⟨_, grown_assigned hl hassigned hkey⟩

/-- The books are kept along a history if and only if every call fits where it is made. -/
theorem item_ledger_iff {steps : List (Step ItemCall)} (hl : Loaded itemStock rs u)
    (h : History (ItemCall.run c) u steps u') :
    (∀ s ∈ steps, ItemLaw s ∧ InsertedOnce itemStock u s.after) ↔
      ∀ s ∈ steps, s.call.Fits s.before := by
  have hsteps := history_grown (fun call u rs hl => item_grown hl call) h (Grown.refl hl)
  constructor
  · intro hlaw s hs
    obtain ⟨rs₁, _, hl₁, hcall, _⟩ := hsteps s hs
    exact (itemLaw_iff hl₁ ((item_effect hl₁ s.call).of_yields hcall)).mp (hlaw s hs).1
  · intro hfits s hs
    obtain ⟨rs₁, _, hl₁, hcall, hgrown⟩ := hsteps s hs
    have heffect := (item_effect hl₁ s.call).of_yields hcall
    exact ⟨(itemLaw_iff hl₁ heffect).mpr (hfits s hs), insertedOnce hl hgrown⟩

def manyItems : UnitOfWork :=
  { UnitOfWork.new 1 Sample.catalog with
    store := fun
      | .account => some (.one 0)
      | .items => some (.many [1])
      | _ => none
    heap := ((Heap.empty.alloc .account Sample.account).1.alloc .items
      ⟨1, 1, 3, 7, 9223372036854775807, 0, 0⟩).1 }

theorem loaded_manyItems : Loaded itemStock [1] manyItems where
  store := rfl
  lt := by decide
  distinct := by decide

theorem item_ledger_iff_purchases : ∃ steps u',
    History (ItemCall.run Sample.container) manyItems steps u' ∧
      steps.map Step.call = [.add 25000 5, .add 7 3, .consume 7 10, .consume 25000 6,
        .consume 25000 5] ∧
      itemStock.balance u' 7 = 9223372036854775800 ∧ itemStock.balance u' 25000 = 0 ∧
      ∀ s ∈ steps, ItemLaw s ∧ InsertedOnce itemStock manyItems s.after := by
  have hhistory : History (ItemCall.run Sample.container) manyItems _ _ :=
    .cons (show (ItemCall.run Sample.container (.add 25000 5) manyItems).Yields (.ok (), _) from
      ⟨0, rfl⟩) <|
    .cons (show (ItemCall.run Sample.container (.add 7 3) _).Yields (.ok (), _) from ⟨0, rfl⟩) <|
    .cons (show (ItemCall.run Sample.container (.consume 7 10) _).Yields (.ok (), _) from
      ⟨0, rfl⟩) <|
    .cons (show (ItemCall.run Sample.container (.consume 25000 6) _).Yields (.error _, _) from
      rfl) <|
    .cons (show (ItemCall.run Sample.container (.consume 25000 5) _).Yields (.ok (), _) from
      ⟨0, rfl⟩) (.nil _)
  refine ⟨_, _, hhistory, rfl, rfl, rfl, (item_ledger_iff loaded_manyItems hhistory).mpr ?_⟩
  simp only [List.forall_mem_cons]
  refine ⟨⟨?_, ?_⟩, ⟨?_, ?_⟩, trivial, trivial, trivial, nofun⟩
  · intro m hm
    cases hm
  · intro _ d hd
    have hlookup : manyItems.catalog.item.lookup (25000 : UInt32).toInt32 =
        some ⟨1, 25000, "", 3⟩ := by decide
    rw [hlookup] at hd
    cases hd
    decide
  · intro m hm
    rw [Option.some_inj.mp (hm.symm.trans
      (rfl : itemStock.entry _ 7 = some ⟨1, 1, 3, 7, 9223372036854775807, 0, 0⟩))]
    decide
  · intro hnone
    cases hnone

/-- The sum is `2 ^ 64`, and none is left. -/
theorem add_item_wraps : ∃ u', History (ItemCall.run Sample.container) manyItems
      [⟨manyItems, .add 7 9223372036854775809, .ok (), u'⟩] u' ∧
    itemStock.balance manyItems 7 = 9223372036854775807 ∧ itemStock.balance u' 7 = 0 ∧
    ¬ ItemLaw ⟨manyItems, .add 7 9223372036854775809, .ok (), u'⟩ := by
  obtain ⟨u', hstep, hafter⟩ : ∃ u', (ItemCall.run Sample.container (.add 7 9223372036854775809)
      manyItems).Yields (.ok (), u') ∧ itemStock.balance u' 7 = 0 := ⟨_, ⟨0, rfl⟩, rfl⟩
  have hbefore : itemStock.balance manyItems 7 = 9223372036854775807 := rfl
  refine ⟨u', .cons hstep (.nil _), hbefore, hafter, ?_⟩
  intro hlaw
  have hexact : itemStock.balance u' 7 = itemStock.balance manyItems 7 + 9223372036854775809 :=
    hlaw.exact rfl
  omega

end FutureWas.Ledger
