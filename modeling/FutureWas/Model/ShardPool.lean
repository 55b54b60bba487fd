import FutureWas.Model.Uow

/-!
# The shard registry

The package variables of `internal/database` and the functions on them, with the `int` weights
of the source as 64-bit words. `Shards` is the registry as a request sees it, with the sums as
integers; `Registry.shards` reads one as the other.
-/

set_option autoImplicit false

namespace FutureWas.Database

/-- `weightedShard`. -/
structure PoolEntry where
  id : Int8
  cumWeight : Int64
  deriving DecidableEq

structure Registry where
  shardMap : AList fun _ : Int8 => DbId
  shardPool : List PoolEntry
  totalWeight : Int64

structure Registration where
  shardID : Int8
  db : DbId
  weight : Int64
  deriving DecidableEq

/-- How a call of `PickShard` ends: `last` is the return after the loop. -/
inductive Picked
  | noShardAvailable
  | matched (id : Int8)
  | last (id : Int8)
  | panicked
  deriving DecidableEq

namespace Registry

def registerShard (s : Registry) (shardID : Int8) (db : DbId) (weight : Int64) : Registry :=
  let s := { s with shardMap := s.shardMap.insert shardID db }
  if weight > 0 then
    { s with
      totalWeight := s.totalWeight + weight
      shardPool := s.shardPool ++ [⟨shardID, s.totalWeight + weight⟩] }
  else s

/-- `PickShard`, when `rand.IntN(totalWeight)` answers `r`. -/
def pickShard (s : Registry) (r : Int64) : Picked :=
  if s.totalWeight = 0 then .noShardAvailable
  else
    match s.shardPool.find? fun e => r < e.cumWeight with
    | some e => .matched e.id
    | none =>
      match s.shardPool.getLast? with
      | some e => .last e.id
      | none => .panicked

def getShard (s : Registry) (shardID : Int8) : Option DbId := s.shardMap.lookup shardID

/-- `CloseAll`: the ids are deleted one by one, in some order. -/
def closeAll (s : Registry) : Registry where
  shardMap := s.shardMap.keys.foldl (fun m id => m.erase id) s.shardMap
  shardPool := []
  totalWeight := 0

def registerAll (s : Registry) (calls : List Registration) : Registry :=
  calls.foldl (fun s c => s.registerShard c.shardID c.db c.weight) s

def shards (s : Registry) : Shards where
  shardMap := s.shardMap
  shardPool := s.shardPool.map fun e => ⟨e.id, e.cumWeight.toInt⟩
  totalWeight := s.totalWeight.toInt

end Registry

def positiveWeights (calls : List Registration) : List (Int8 × ℕ) :=
  (calls.filter fun c => c.weight > 0).map fun c => (c.shardID, c.weight.toInt.toNat)

end FutureWas.Database
