import FutureWas.Model.Design
import FutureWas.Model.World
import Mathlib.Data.List.AList

/-!
# The unit of work

`internal/uow` and the shard registry of `internal/database`. A unit of work collects the
models a request has loaded (`store`), the writes it has queued (`dbOps`) and the models it
has changed (`dirty`); `commit` runs the writes, one transaction for each database, and then
writes the loaded models back to the caches.

`UowM` is the code of a request: it may answer an error, which keeps what the unit of work
has collected, and it may unwind. The scope of a kind decides which of the two Go stores
holds it, so one `store` stands for both.

The text of an error that a driver or a client library returns is not modelled
(`driverError`). `Update` is modelled without its `columns`, which no caller passes.
-/

set_option autoImplicit false

namespace FutureWas

open Effect

/-! ## Shards -/

/-- `cumWeight` sums the weights up to this shard; the sums stay below `2 ^ 63`. -/
structure WeightedShard where
  id : Int8
  cumWeight : ℤ
  deriving DecidableEq

structure Shards where
  shardMap : AList fun _ : Int8 => DbId
  shardPool : List WeightedShard
  totalWeight : ℤ

namespace Shards

def empty : Shards := ⟨∅, [], 0⟩

def registerShard (s : Shards) (shardID : Int8) (db : DbId) (weight : ℤ) : Shards :=
  let s := { s with shardMap := s.shardMap.insert shardID db }
  if weight > 0 then
    { s with
      totalWeight := s.totalWeight + weight
      shardPool := s.shardPool ++ [⟨shardID, s.totalWeight + weight⟩] }
  else s

def getShard (s : Shards) (shardID : Int8) : Option DbId := s.shardMap.lookup shardID

end Shards

structure Container where
  gameDB : DbId
  shards : Shards

/-! ## State of a request -/

inductive Stored
  | one (r : Ref)
  | many (rs : List Ref)
  deriving DecidableEq

structure DbOp where
  db : Option DbId
  stmt : Stmt
  deriving DecidableEq

structure UnitOfWork where
  userID : UInt64
  clubID : UInt64
  catalog : Catalog
  store : EntityKind → Option Stored
  dbOps : List DbOp
  dirty : List (EntityKind × Ref)
  heap : Heap

namespace UnitOfWork

def new (userID : UInt64) (catalog : Catalog) : UnitOfWork :=
  ⟨userID, 0, catalog, fun _ => none, [], [], Heap.empty⟩

def scopeID (u : UnitOfWork) : Owner → UInt64
  | .user => u.userID
  | .club => u.clubID

def setStore (u : UnitOfWork) (e : EntityKind) (s : Stored) : UnitOfWork :=
  { u with store := Function.update u.store e (some s) }

def value (u : UnitOfWork) (e : EntityKind) : Stored → Cached e
  | .one r => .one (u.heap.cell e r)
  | .many rs => .many (rs.map (u.heap.cell e))

def snapshot (u : UnitOfWork) (o : Owner) : Fields := fun e =>
  if e.owner = o then (u.store e).map (u.value e) else none

/-- `len(store) > 0` for the store of one scope. -/
def holds (u : UnitOfWork) (o : Owner) : Bool :=
  EntityKind.all.any fun e => e.owner = o ∧ (u.store e).isSome

end UnitOfWork

/-- The kinds that `RegisterModelEntity` is called for. -/
def entityNameOf : EntityKind → Option String
  | .assets => some EntityKind.assets.name
  | .items => some EntityKind.items.name
  | _ => none

/-- `u.dirty[m] = name`; a model of another type is ignored. -/
def UnitOfWork.marked (u : UnitOfWork) (e : EntityKind) (r : Ref) : UnitOfWork :=
  if (entityNameOf e).isSome ∧ (e, r) ∉ u.dirty then { u with dirty := u.dirty ++ [(e, r)] }
  else u

def errNoID : Owner → GoError
  | .user => .noUserID
  | .club => .noClubID

def driverError : GoError := .external ""

def errNoRows : GoError := .external "sql: no rows in result set"

/-! ## Code of a request -/

def UowM (α : Type) : Type := UnitOfWork → Call UnitOfWork (Except GoError α × UnitOfWork)

namespace UowM

variable {α β : Type}

def ret (a : α) : UowM α := fun u => .ret (.ok a, u)

def bind (m : UowM α) (f : α → UowM β) : UowM β := fun u =>
  (m u).bind fun
    | (.ok a, u) => f a u
    | (.error err, u) => .ret (.error err, u)

instance : Monad UowM where
  pure := ret
  bind := bind

def throw (err : GoError) : UowM α := fun u => .ret (.error err, u)

def panic : UowM α := fun u => .raise u

/-- The error of a call as a value, as Go returns it. -/
def attempt (m : UowM α) : UowM (Except GoError α) := fun u =>
  (m u).bind fun (r, u) => .ret (.ok r, u)

def perform (op : Op) : UowM op.Resp := fun u => .call op fun r => .ret (.ok r, u)

def get : UowM UnitOfWork := fun u => .ret (.ok u, u)

def modify (f : UnitOfWork → UnitOfWork) : UowM Unit := fun u => .ret (.ok (), f u)

end UowM

namespace Uow

open UowM

def clockNow : UowM Time := perform .now

/-- `PickShard`; `IntN` draws below `totalWeight`. -/
def pickShard (c : Container) : UowM Int8 :=
  if c.shards.totalWeight = 0 then throw .noShardAvailable
  else do
    let r ← perform (.intN c.shards.totalWeight.toNat)
    match c.shards.shardPool.find? fun s => (r : ℤ) < s.cumWeight with
    | some s => pure s.id
    | none =>
      match c.shards.shardPool.getLast? with
      | some s => pure s.id
      | none => panic

def setUserID (id : UInt64) : UowM Unit := modify fun u => { u with userID := id }

/-- `new(T)` filled with `m`. -/
def new (e : EntityKind) (m : Row e) : UowM Ref := fun u =>
  .ret (.ok (u.heap.alloc e m).2, { u with heap := (u.heap.alloc e m).1 })

def newMany (e : EntityKind) (ms : List (Row e)) : UowM (List Ref) := fun u =>
  .ret (.ok (u.heap.allocMany e ms).2, { u with heap := (u.heap.allocMany e ms).1 })

def model (e : EntityKind) (r : Ref) : UowM (Row e) := fun u =>
  .ret (.ok (u.heap.cell e r), u)

def setModel (e : EntityKind) (r : Ref) (f : Row e → Row e) : UowM Unit :=
  modify fun u => { u with heap := u.heap.set e r (f (u.heap.cell e r)) }

def setStore (e : EntityKind) (s : Stored) : UowM Unit := modify (·.setStore e s)

def cachedOne {e : EntityKind} : Option (Option (Cached e)) → Option (Row e)
  | some (some (.one m)) => some m
  | _ => none

def cachedMany {e : EntityKind} : Option (Option (Cached e)) → Option (List (Row e))
  | some (some (.many ms)) => some ms
  | _ => none

/-! ### Loaders -/

/-- `LoadOne`, given how it finds the database. -/
def loadOneFrom (route : UowM (Option DbId)) (e : EntityKind) : UowM Ref := do
  let u ← get
  match u.store e with
  | some (.one r) => pure r
  | some (.many _) => panic
  | none =>
    if u.scopeID e.owner = 0 then throw (errNoID e.owner)
    else
      match cachedOne (← perform (.cacheGet e (u.scopeID e.owner))) with
      | some m =>
        let dest ← new e m
        setStore e (.one dest)
        pure dest
      | none =>
        match ← route with
        | none => panic
        | some db =>
          match ← perform (.select db e (u.scopeID e.owner)) with
          | none => throw driverError
          | some [] => throw errNoRows
          | some (m :: _) =>
            let dest ← new e m
            setStore e (.one dest)
            let _ ← perform (.cacheSet e (u.scopeID e.owner) (.one m))
            pure dest

variable (c : Container)

def account : UowM Ref := loadOneFrom (pure (some c.gameDB)) .account

def shardDB : UowM (Option DbId) := do
  match ← attempt (account c) with
  | .error _ => pure none
  | .ok acc =>
    let m ← model .account acc
    pure (c.shards.getShard (Account.dbShardID m))

/-- The routing that every loader and writer repeats: `GameDB` or `ShardDB()`. -/
def routedDB (e : EntityKind) : UowM (Option DbId) :=
  if e.isGameDB then pure (some c.gameDB) else shardDB c

def loadOne (e : EntityKind) : UowM Ref := loadOneFrom (routedDB c e) e

def loadList (e : EntityKind) : UowM (List Ref) := do
  let u ← get
  match u.store e with
  | some (.many rs) => pure rs
  | some (.one _) => panic
  | none =>
    if u.scopeID e.owner = 0 then throw (errNoID e.owner)
    else
      match cachedMany (← perform (.cacheGet e (u.scopeID e.owner))) with
      | some ms =>
        let list ← newMany e ms
        setStore e (.many list)
        pure list
      | none =>
        match ← routedDB c e with
        | none => panic
        | some db =>
          match ← perform (.select db e (u.scopeID e.owner)) with
          | none => throw driverError
          | some ms =>
            let list ← newMany e ms
            setStore e (.many list)
            let _ ← perform (.cacheSet e (u.scopeID e.owner) (.many ms))
            pure list

def assets : UowM (List Ref) := loadList c .assets
def cards : UowM (List Ref) := loadList c .cards
def items : UowM (List Ref) := loadList c .items

/-! ### Writers -/

def queueOp (db : Option DbId) (stmt : Stmt) : UowM Unit :=
  modify fun u => { u with dbOps := u.dbOps ++ [⟨db, stmt⟩] }

def markDirty (e : EntityKind) (r : Ref) : UowM Unit := modify (·.marked e r)

def storeModel (e : EntityKind) (r : Ref) : UowM Unit := modify fun u =>
  if e.isSingleton then u.setStore e (.one r)
  else match u.store e with
    | some (.many rs) => u.setStore e (.many (rs ++ [r]))
    | _ => u.setStore e (.many [r])

def create (e : EntityKind) (r : Ref) : UowM Unit := do
  storeModel e r
  markDirty e r
  let db ← routedDB c e
  queueOp db (.insert e r)

def createNow (e : EntityKind) (r : Ref) : UowM Unit := do
  match ← routedDB c e with
  | none => panic
  | some db =>
    let m ← model e r
    match ← perform (.create db e m) with
    | none => throw driverError
    | some id =>
      setModel e r (Row.setPrimaryKey id)
      storeModel e r
      markDirty e r
      if e = .account then setUserID id else pure ()

def update (e : EntityKind) (r : Ref) : UowM Unit := do
  markDirty e r
  let db ← routedDB c e
  queueOp db (.update e r)

/-! ### Commit -/

def addToGroup (op : DbOp) :
    List (Option DbId × List Stmt) → List (Option DbId × List Stmt)
  | [] => [(op.db, [op.stmt])]
  | g :: gs => if g.1 = op.db then (g.1, g.2 ++ [op.stmt]) :: gs else g :: addToGroup op gs

def groupOps (ops : List DbOp) : List (Option DbId × List Stmt) :=
  ops.foldl (fun gs op => addToGroup op gs) []

def setHeap (h : Heap) : UowM Unit := modify fun u => { u with heap := h }

/-- One transaction for each group; a missing database is dereferenced. -/
def commitGroups : List (Option DbId × List Stmt) → UowM Unit
  | [] => pure ()
  | (none, _) :: _ => panic
  | (some db, stmts) :: groups => do
    let u ← get
    match ← perform (.transaction db stmts u.heap) with
    | .committed h => do
      setHeap h
      commitGroups groups
    | .failed h => do
      setHeap h
      throw (.wrap "uow commit" driverError)
    | .panicked h => do
      setHeap h
      panic

/-- `SetMulti` of one scope, when it has an id and holds anything. -/
def writeBack (o : Owner) (context : String) : UowM Unit := do
  let u ← get
  if u.scopeID o ≠ 0 ∧ u.holds o then
    let written ← perform (.cacheSetMulti o (u.scopeID o) (u.snapshot o))
    if written then pure () else throw (.wrap context driverError)
  else pure ()

def runOps : UowM Unit := do
  let u ← get
  if u.dbOps = [] then pure ()
  else
    commitGroups (groupOps u.dbOps)
    modify fun u => { u with dbOps := [] }

def commit : UowM Unit := do
  runOps
  writeBack .user "user cache set"
  writeBack .club "club cache set"

/-- `DeleteAll` of one scope; its error is dropped. -/
def invalidate (o : Owner) : UowM Unit := do
  let u ← get
  if u.scopeID o ≠ 0 then
    let _ ← perform (.cacheDeleteAll o (u.scopeID o))
    pure ()
  else pure ()

def commitOrRollback : UowM Unit := do
  match ← attempt commit with
  | .ok _ => pure ()
  | .error err =>
    invalidate .user
    invalidate .club
    throw (.app codeInternalError ("commit failed. err : " ++ err.text))

end Uow
end FutureWas
