import FutureWas.Model.Dispatch

/-!
# A small installation

One game database (1), one shard (10 in database 10) and one catalog, with one account in
it: the concrete inputs at which statements about requests are exhibited or refuted.
-/

set_option autoImplicit false

namespace FutureWas.Sample

open Effect

def container : Container :=
  ⟨1, (Shards.empty.registerShard 1 1 0).registerShard 10 10 1⟩

def catalog : Catalog :=
  { newCatalog "1.00.00.00" with
    item := (∅ : Design Int32 ItemListDesign).insert 25000 ⟨1, 25000, "", 3⟩ }

def designStore : DesignStore := ⟨(∅ : ClientMap).insert "1.00.00" catalog⟩

def servers : Server := server container fun _ => true

def loginRequest (userId channelUid : UInt64) (deviceId : String) : Incoming :=
  ⟨designStore, .envelope
    ⟨actionLogin, userId, "1.00.00", "", ⟨some ⟨channelUid, deviceId⟩, none⟩⟩⟩

def upgradeRequest (userId : UInt64) (token : String) (cardIdx : UInt64) : Incoming :=
  ⟨designStore, .envelope
    ⟨actionUpgradeCardLevel, userId, "1.00.00", token, ⟨none, some ⟨cardIdx⟩⟩⟩⟩

def account : Account := ⟨1, 77, "a", 1, 10, 0, 0⟩

def card : Card := ⟨5, 1, 100739, 0, 0, 0, 0, 0, 1, 0, 0, 0, 0, 0, none, none, 0, 0, 0⟩

/-- Account 1 of channel 77, with one card and a session. -/
def world : World where
  data :=
    { db := fun db e =>
        match db, e with
        | 1, .account => [account]
        | 10, .cards => [card]
        | _, _ => []
      cache := fun _ _ => Fields.none }
  session := fun id => if id = 1 then some "s" else none
  lock := fun _ => none
  issued := []

def emptyWorld : World where
  data := ⟨fun _ _ => [], fun _ _ => Fields.none⟩
  session := fun _ => none
  lock := fun _ => none
  issued := []

end FutureWas.Sample
