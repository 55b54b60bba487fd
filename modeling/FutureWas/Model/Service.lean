import FutureWas.Model.Uow

/-!
# Services and handlers

`internal/service` and the handlers of `internal/handler/*`: what each action does with the
unit of work of its request, and the protobuf message it answers. Functions of a service keep
its name as their namespace, since several services share a method name.

`Body` stands for the bytes of a request: what they decode to as each message type a handler
reads. A Go map is iterated in the order of its entries. Log lines are left out.
-/

set_option autoImplicit false

namespace FutureWas

open Effect UowM Uow

/-! ## Messages -/

structure LoginRequest where
  channelUid : UInt64
  deviceId : String
  deriving DecidableEq

structure UpgradeCardLevelRequest where
  cardIdx : UInt64
  deriving DecidableEq

/-- `none` where `proto.Unmarshal` fails for the type. -/
structure Body where
  login : Option LoginRequest
  upgradeCardLevel : Option UpgradeCardLevelRequest

structure LoginResponse where
  userId : UInt64
  channelUid : UInt64
  isNew : Bool
  sessionToken : String
  deriving DecidableEq

structure AssetData where
  idx : UInt64
  assetId : UInt32
  amount : Int64
  lastRechargeTime : Int64
  deriving DecidableEq

structure ItemData where
  idx : UInt64
  itemType : UInt32
  itemId : UInt32
  amount : UInt64
  deriving DecidableEq

structure CardData where
  idx : UInt64
  userId : UInt64
  cardId : UInt32
  twoWayIdx : UInt64
  levelBreakStep : UInt32
  levelBreakCurMaterial : UInt32
  limitBreakLevel : UInt32
  limitBreakExp : UInt32
  level : UInt32
  exp : UInt32
  expExceed : UInt32
  themeId : UInt32
  extraThemeId : UInt32
  isLock : UInt32
  skill : List SkillData
  potentialList : List (UInt32 × UInt32)
  enhanceCardIdx : UInt64
  deriving DecidableEq

structure ShopData where
  idx : UInt32
  shopId : UInt32
  type : UInt32
  openTime : Int64
  closeTime : Int64
  assetId : UInt32
  showFlag : UInt32
  price : UInt32
  shopType : UInt32
  ticker : UInt32
  deriving DecidableEq

inductive Message
  | login (res : LoginResponse)
  | getAssets (assets : List AssetData)
  | getItems (items : List ItemData)
  | getCards (cards : List CardData)
  | upgradeCardLevel (card : CardData)
  | getShopList (shopList : List ShopData)
  deriving DecidableEq

def toAssetData (asset : Asset) : AssetData where
  idx := asset.idx
  assetId := asset.assetID
  amount := asset.quantity
  lastRechargeTime := asset.lastRechargeTime

def toItemData (item : Item) : ItemData where
  idx := item.idx
  itemType := item.itemType.toUInt32
  itemId := item.itemID
  amount := item.amount

/-- `toPbSkills` drops nil elements. -/
def toCardData (card : Card) : CardData where
  idx := card.idx
  userId := card.userID
  cardId := card.cardID
  twoWayIdx := card.twoWayIdx
  levelBreakStep := card.levelBreakStep.toUInt32
  levelBreakCurMaterial := card.levelBreakCurMaterial.toUInt32
  limitBreakLevel := card.limitBreakLevel.toUInt32
  limitBreakExp := card.limitBreakExp
  level := card.level.toUInt32
  exp := card.exp
  expExceed := card.expExceed
  themeId := card.themeID.toUInt32
  extraThemeId := card.extraThemeID.toUInt32
  isLock := card.isLock.toUInt32
  skill := (card.skill.getD []).filterMap id
  potentialList := (card.potentialList.map PotentialMap.entries).getD []
  enhanceCardIdx := card.enhanceCardIdx

def toShopData (shop : ShopListDesign) : ShopData where
  idx := shop.idx.toUInt32
  shopId := shop.shopId.toUInt32
  type := shop.type.toUInt32
  openTime := shop.openTime
  closeTime := shop.closeTime
  assetId := shop.currencyId.toUInt32
  showFlag := shop.showFlag.toUInt32
  price := shop.price.toUInt32
  shopType := shop.shopType.toUInt32
  ticker := shop.ticker.toUInt32

/-- `time.Time.Unix`. -/
def unix (t : Time) : Int64 := Int64.ofInt (t / 1000000000)

variable (c : Container)

/-! ## Services -/

/-- The loop of `GetAsset`, `GetItem` and `GetCard`: the first loaded model that matches. -/
def firstModel (e : EntityKind) (list : List Ref) (p : Row e → Bool) : UowM (Option Ref) := do
  let u ← get
  pure (list.find? fun r => p (u.heap.cell e r))

namespace AssetService

def getAssets : UowM (List Ref) := assets c

def getAsset (assetID : UInt32) : UowM (Option Ref) := do
  let list ← assets c
  firstModel .assets list fun m => Asset.assetID m == assetID

def addAsset (assetID : UInt32) (quantity : Int64) : UowM Unit := do
  let asset ← getAsset c assetID
  let now ← clockNow
  match asset with
  | none =>
    let u ← get
    let newAsset ← new .assets (
      { idx := 0
        userID := u.userID
        assetID := assetID
        quantity := quantity
        lastRechargeTime := 0
        insertTime := now
        updateTime := now } : Asset)
    create c .assets newAsset
  | some asset =>
    setModel .assets asset fun m =>
      ({ m with quantity := Asset.quantity m + quantity, updateTime := now } : Asset)
    update c .assets asset

def consumeAsset (assetID : UInt32) (quantity : Int64) : UowM Unit := do
  match ← getAsset c assetID with
  | none =>
    throw (.app codeAssetNotFound s!"asset not found: asset_id={assetID}")
  | some asset =>
    let m ← model .assets asset
    if Asset.quantity m < quantity then
      throw (.app codeAssetInsufficient
        s!"insufficient asset: have {Asset.quantity m}, need {quantity}")
    else
      let now ← clockNow
      setModel .assets asset fun m =>
        ({ m with quantity := Asset.quantity m - quantity, updateTime := now } : Asset)
      update c .assets asset

end AssetService

namespace ItemService

def getItems : UowM (List Ref) := items c

def getItem (itemID : UInt32) : UowM (Option Ref) := do
  let list ← items c
  firstModel .items list fun m => Item.itemID m == itemID

def addItem (itemID : UInt32) (amount : UInt64) : UowM Unit := do
  let item ← getItem c itemID
  let now ← clockNow
  match item with
  | some item =>
    setModel .items item fun m =>
      ({ m with amount := Item.amount m + amount, updateTime := now } : Item)
    update c .items item
  | none =>
    let u ← get
    match u.catalog.item.lookup itemID.toInt32 with
    | none =>
      throw (.app codeNotFoundDesign s!"not found design item. item_id({itemID})")
    | some designItem =>
      let item ← new .items (
        { idx := 0
          userID := u.userID
          itemType := designItem.itemType.toUInt32.toUInt16
          itemID := itemID
          amount := amount
          insertTime := now
          updateTime := now } : Item)
      create c .items item

def consumeItem (itemID : UInt32) (amount : UInt64) : UowM Unit := do
  match ← getItem c itemID with
  | none => throw (.app codeItemNotFound s!"not found item. item_id({itemID})")
  | some item =>
    let m ← model .items item
    if Item.amount m < amount then
      throw (.app codeItemInsufficient
        s!"not enough item. item_id({itemID}), amount({amount})")
    else
      let now ← clockNow
      setModel .items item fun m =>
        ({ m with amount := Item.amount m - amount, updateTime := now } : Item)
      update c .items item

end ItemService

namespace CardService

def getCards : UowM (List Ref) := cards c

def getCard (cardIdx : UInt64) : UowM (Option Ref) := do
  let list ← cards c
  firstModel .cards list fun m => Card.idx m == cardIdx

end CardService

namespace AccountService

/-- The account and whether it is new. -/
def login (channelUID : UInt64) (deviceID : String) : UowM (Ref × Bool) := do
  match ← perform (.findUserID c.gameDB channelUID) with
  | none => throw driverError
  | some found =>
    let now ← clockNow
    match found with
    | none =>
      let shardID ← pickShard c
      let account ← new .account (
        { userID := 0
          channelUID := channelUID
          deviceID := deviceID
          isActive := 1
          dbShardID := shardID
          insertTime := now
          updateTime := now } : Account)
      createNow c .account account
      pure (account, true)
    | some userID =>
      setUserID userID
      let account ← Uow.account c
      setModel .account account fun m =>
        ({ m with deviceID := deviceID, updateTime := now } : Account)
      update c .account account
      pure (account, false)

end AccountService

/-! ## Handlers -/

/-- `UserSession.Set`. -/
def userSessionSet (userID : UInt64) : UowM String := do
  match ← perform .newToken with
  | none => throw driverError
  | some token =>
    let stored ← perform (.sessionSet userID token)
    if stored then pure token else throw (.wrap "user session set" driverError)

def initialAssetID : UInt32 := 10000
def initialItemID : UInt32 := 25000

/-- The grant `accountHandler.Login` makes to a new account. -/
def grantInitial : UowM Unit := do
  AssetService.addAsset c initialAssetID 100
  ItemService.addItem c initialItemID 5
  let _ ← attempt (ItemService.consumeItem c initialItemID 3)
  pure ()

def grantIfNew (isNew : Bool) : UowM Unit := if isNew then grantInitial c else pure ()

/-- `accountHandler.Login`. -/
def login (body : Body) : UowM Message :=
  match body.login with
  | none => throw (.badRequest "invalid request")
  | some req =>
    if req.channelUid = 0 ∨ req.deviceId = "" then
      throw (.badRequest "channel_uid and device_id are required")
    else do
      let (account, isNew) ← AccountService.login c req.channelUid req.deviceId
      grantIfNew c isNew
      let m ← model .account account
      match ← attempt (userSessionSet (Account.userID m)) with
      | .error err => throw (.app codeInternalError ("session set: " ++ err.text))
      | .ok token =>
        pure (.login
          { userId := Account.userID m
            channelUid := Account.channelUID m
            isNew := isNew
            sessionToken := token })

def getAssets (_ : Body) : UowM Message := do
  let list ← AssetService.getAssets c
  let u ← get
  pure (.getAssets (list.map fun r => toAssetData (u.heap.cell .assets r)))

def getItems (_ : Body) : UowM Message := do
  let list ← ItemService.getItems c
  let u ← get
  pure (.getItems (list.map fun r => toItemData (u.heap.cell .items r)))

def getCards (_ : Body) : UowM Message := do
  let list ← CardService.getCards c
  let u ← get
  pure (.getCards (list.map fun r => toCardData (u.heap.cell .cards r)))

def upgradeCardLevel (body : Body) : UowM Message :=
  match body.upgradeCardLevel with
  | none => throw (.badRequest "invalid request")
  | some req => do
    match ← CardService.getCard c req.cardIdx with
    | none => throw (.app codeCardNotFound s!"not found card. idx({req.cardIdx})")
    | some card =>
      setModel .cards card fun m => ({ m with level := Card.level m + 1 } : Card)
      update c .cards card
      let m ← model .cards card
      pure (.upgradeCardLevel (toCardData m))

/-- Shops with `UseFlag` whose sale period contains the clock. -/
def getShopList (_ : Body) : UowM Message := do
  let u ← get
  let now ← clockNow
  let onSale := (u.catalog.shop.entries.map Sigma.snd).filter fun v =>
    v.useFlag ≠ 0 ∧ v.openTime ≤ unix now ∧ unix now < v.closeTime
  pure (.getShopList (onSale.map toShopData))

end FutureWas
