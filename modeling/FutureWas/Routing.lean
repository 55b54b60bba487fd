import FutureWas.Model.Uow

/-!
# What a cached field stands for

The rows of an owner live in one database for each kind: the game database, or the shard
that the owner's account names. A cached field is meant to be a copy of the rows of its kind
there; `CoherentAt` says that it is.
-/

set_option autoImplicit false

namespace FutureWas

variable {e : EntityKind}

namespace Cached

def rows : Cached e → List (Row e)
  | .one m => [m]
  | .many ms => ms

/-- The field decodes, in the shape its loader expects, to exactly these rows. -/
def Shows (v : Cached e) (ms : List (Row e)) : Prop :=
  match v with
  | .one m => e.isSingleton = true ∧ ms = [m]
  | .many ms' => e.isSingleton = false ∧ ms = ms'

end Cached

namespace Data

variable (c : Container) (d : Data)

def accountOf (id : UInt64) : Option Account :=
  ((d.db c.gameDB) .account).find? fun a => Account.userID a = id

def routed (id : UInt64) (e : EntityKind) : Option DbId :=
  if e.isGameDB then some c.gameDB
  else (d.accountOf c id).bind fun a => c.shards.getShard a.dbShardID

variable {c d}

theorem mem_of_accountOf {id : UInt64} {a : Account} (h : d.accountOf c id = some a) :
    a ∈ (d.db c.gameDB) .account ∧ a.userID = id := by
  unfold accountOf at h
  have hid := List.find?_some (p := fun a : Account => decide (a.userID = id)) h
  exact ⟨List.mem_of_find?_eq_some h, of_decide_eq_true hid⟩

theorem routed_gameDB (id : UInt64) (he : e.isGameDB = true) :
    d.routed c id e = some c.gameDB := by
  simp [routed, he]

@[simp] theorem setDb_db_self (db : DbId) (t : Tables) : (d.setDb db t).db db = t := by
  simp [setDb]

theorem setDb_db_of_ne {db db' : DbId} (h : db' ≠ db) (t : Tables) :
    (d.setDb db t).db db' = d.db db' := by
  simp [setDb, Function.update_of_ne h]

@[simp] theorem setDb_cache (db : DbId) (t : Tables) : (d.setDb db t).cache = d.cache := rfl

@[simp] theorem setDb_same (db : DbId) : d.setDb db (d.db db) = d := by
  simp [setDb]

@[simp] theorem setDb_setDb (db : DbId) (t t' : Tables) :
    (d.setDb db t).setDb db t' = d.setDb db t' := by
  simp [setDb]

@[simp] theorem setCache_db (o : Owner) (id : UInt64) (fs : Fields) :
    (d.setCache o id fs).db = d.db := rfl

@[simp] theorem setCache_cache_self (o : Owner) (id : UInt64) (fs : Fields) :
    (d.setCache o id fs).cache o id = fs := by
  simp [setCache]

theorem setCache_cache_of_ne {o o' : Owner} {id id' : UInt64} (h : o' ≠ o ∨ id' ≠ id)
    (fs : Fields) : (d.setCache o id fs).cache o' id' = d.cache o' id' := by
  by_cases ho : o' = o
  · subst ho
    have hid : id' ≠ id := h.resolve_left (by simp)
    simp [setCache, Function.update_of_ne hid]
  · simp [setCache, Function.update_of_ne ho]

@[simp] theorem accountOf_setCache (o : Owner) (id id' : UInt64) (fs : Fields) :
    (d.setCache o id fs).accountOf c id' = d.accountOf c id' := rfl

@[simp] theorem routed_setCache (o : Owner) (id id' : UInt64) (fs : Fields) :
    (d.setCache o id fs).routed c id' e = d.routed c id' e := rfl

end Data

/-! ## Tables -/

namespace Tables

@[simp] theorem insert_self (t : Tables) (e : EntityKind) (m : Row e) :
    t.insert e m e = t e ++ [m] := by
  simp [insert]

theorem insert_of_ne (t : Tables) {e e' : EntityKind} (h : e' ≠ e) (m : Row e) :
    t.insert e m e' = t e' := by
  simp [insert, Function.update_of_ne h]

@[simp] theorem update_self (t : Tables) (e : EntityKind) (m : Row e) :
    t.update e m e = (t e).map fun row => if row.primaryKey = m.primaryKey then m else row := by
  simp [update]

theorem update_of_ne (t : Tables) {e e' : EntityKind} (h : e' ≠ e) (m : Row e) :
    t.update e m e' = t e' := by
  simp [update, Function.update_of_ne h]

end Tables

theorem StmtRun.other {ops : List Stmt} {t t' : Tables} {h h' : Heap}
    (hrun : StmtRun ops t h t' h') (he : ∀ s ∈ ops, s.kind ≠ e) : t' e = t e := by
  induction hrun with
  | nil => rfl
  | insert k _ _ ih =>
    rw [ih fun s hs => he s (List.mem_cons_of_mem _ hs)]
    exact Tables.insert_of_ne _ (Ne.symm (he _ List.mem_cons_self)) _
  | update _ _ ih =>
    rw [ih fun s hs => he s (List.mem_cons_of_mem _ hs)]
    exact Tables.update_of_ne _ (Ne.symm (he _ List.mem_cons_self)) _

end FutureWas
