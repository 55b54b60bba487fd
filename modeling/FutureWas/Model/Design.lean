import FutureWas.Model.Errcode
import Mathlib.Data.Finset.Insert
import Mathlib.Data.List.AList
import Mathlib.Data.Nat.Notation

/-!
# Design catalogs and their reload

`internal/design`: the keyed collections of one server version (`Catalog`), the loader that
fills them from the files of a manifest, and the syncer's `loadActive`, which maps every
client version of the newest server versions to a catalog.

A Go map is an `AList`: its keys are distinct and insertion replaces. The CDN and the JSON
decoder are parameters (`Cdn`); a decoded array may hold nil elements, and dereferencing one
panics. Columns of the generated structs that no function reads are left out.
-/

set_option autoImplicit false

namespace FutureWas

structure BatDataDesign where
  idx : Int32
  nid : Int32
  useflag : Bool
  deriving DecidableEq

structure CurrencyListDesign where
  idx : Int32
  itemId : Int32
  comment : String
  deriving DecidableEq

structure ItemListDesign where
  idx : Int32
  itemId : Int32
  comment : String
  itemType : Int32
  deriving DecidableEq

structure ShopListDesign where
  idx : Int32
  shopId : Int32
  type : Int32
  openTime : Int64
  closeTime : Int64
  currencyId : Int32
  useFlag : Int32
  showFlag : Int32
  price : Int32
  shopType : Int32
  ticker : Int32
  comment : String
  deriving DecidableEq

/-- `Design[K, V]`: `Get` and `Find` are `lookup`, `All` the entries, `set` is `insert`. -/
abbrev Design (K V : Type) : Type := AList fun _ : K => V

structure Catalog where
  version : String
  batData : Design Int32 BatDataDesign
  currency : Design Int32 CurrencyListDesign
  item : Design Int32 ItemListDesign
  shop : Design Int32 ShopListDesign
  batDataByUseFlag : Design Int32 BatDataDesign

def newCatalog (version : String) : Catalog := ⟨version, ∅, ∅, ∅, ∅, ∅⟩

/-! ## Loader -/

abbrev Bytes : Type := List UInt8

structure ManifestFile where
  name : String
  checksum : String

structure Manifest where
  version : String
  files : List ManifestFile

/-- How a call ends other than by returning its value. -/
inductive Failure
  | error (err : GoError)
  | panic
  deriving DecidableEq

structure Cdn where
  baseURL : String
  httpGet : String → Except GoError Bytes
  decodeManifest : Bytes → Except GoError Manifest
  decodeBatData : Bytes → Except GoError (List (Option BatDataDesign))
  decodeCurrency : Bytes → Except GoError (List (Option CurrencyListDesign))
  decodeItem : Bytes → Except GoError (List (Option ItemListDesign))
  decodeShop : Bytes → Except GoError (List (Option ShopListDesign))
  sha256Hex : Bytes → String

def returns {α : Type} : Except GoError α → Except Failure α
  | .ok a => .ok a
  | .error err => .error (.error err)

/-- `fmt.Errorf("context: %w", err)` on the error path. -/
def wrapError {α : Type} (context : String) : Except Failure α → Except Failure α
  | .error (.error err) => .error (.error (.wrap context err))
  | r => r

/-- `for _, v := range list { set(v) }`: a nil element panics where `v` is dereferenced. -/
def fill {V : Type} (set : Catalog → V → Catalog) :
    Catalog → List (Option V) → Except Failure Catalog
  | c, [] => .ok c
  | _, none :: _ => .error .panic
  | c, some v :: vs => fill set (set c v) vs

def setBatData (c : Catalog) (v : BatDataDesign) : Catalog :=
  let c := { c with batData := c.batData.insert v.nid v }
  if v.useflag then { c with batDataByUseFlag := c.batDataByUseFlag.insert v.nid v } else c

def setCurrency (c : Catalog) (v : CurrencyListDesign) : Catalog :=
  { c with currency := c.currency.insert v.itemId v }

def setItem (c : Catalog) (v : ItemListDesign) : Catalog :=
  { c with item := c.item.insert v.itemId v }

def setShop (c : Catalog) (v : ShopListDesign) : Catalog :=
  { c with shop := c.shop.insert v.shopId v }

def unmarshalInto (cdn : Cdn) (c : Catalog) (name : String) (data : Bytes) :
    Except Failure Catalog :=
  match name with
  | "BAT_DATA.json" => returns (cdn.decodeBatData data) >>= fill setBatData c
  | "CURRENCY_LIST.json" => returns (cdn.decodeCurrency data) >>= fill setCurrency c
  | "ITEM_LIST.json" => returns (cdn.decodeItem data) >>= fill setItem c
  | "SHOP_LIST.json" => returns (cdn.decodeShop data) >>= fill setShop c
  | _ => .ok c

def verifyChecksum (cdn : Cdn) (data : Bytes) (expected : String) : Except GoError Unit :=
  if ¬ "sha256:".isPrefixOf expected then
    .error (.external ("unsupported checksum format: " ++ expected))
  else
    let want := (expected.drop 7).toString
    let got := cdn.sha256Hex data
    if got ≠ want then
      .error (.external ("checksum mismatch: got " ++ got ++ ", want " ++ want))
    else .ok ()

def fetchManifest (cdn : Cdn) (version : String) : Except GoError Manifest := do
  let data ← cdn.httpGet (cdn.baseURL ++ "/" ++ version ++ "/manifest.json")
  cdn.decodeManifest data

def fetchFile (cdn : Cdn) (version name expectedChecksum : String) : Except GoError Bytes := do
  let data ← cdn.httpGet (cdn.baseURL ++ "/" ++ version ++ "/" ++ name)
  if expectedChecksum ≠ "" then verifyChecksum cdn data expectedChecksum
  return data

def loadFiles (cdn : Cdn) (version : String) :
    List ManifestFile → Catalog → Except Failure Catalog
  | [], c => .ok c
  | f :: fs, c => do
    let data ← wrapError ("fetch " ++ f.name) (returns (fetchFile cdn version f.name f.checksum))
    let c ← wrapError ("unmarshal " ++ f.name) (unmarshalInto cdn c f.name data)
    loadFiles cdn version fs c

def load (cdn : Cdn) (version : String) : Except Failure Catalog := do
  let manifest ← wrapError "fetch manifest" (returns (fetchManifest cdn version))
  loadFiles cdn version manifest.files (newCatalog version)

/-! ## Syncer -/

structure Version where
  idx : UInt64
  clientVersion : String
  serverVersion : String
  appID : String
  isActive : UInt8
  deriving DecidableEq

abbrev ClientMap : Type := AList fun _ : String => Catalog

/-- `Store`: the active mapping from client version to catalog. -/
structure DesignStore where
  catalogs : ClientMap

def DesignStore.getByClientVersion (s : DesignStore) (clientVersion : String) : Option Catalog :=
  s.catalogs.lookup clientVersion

def DesignStore.replace (_ : DesignStore) (m : ClientMap) : DesignStore := ⟨m⟩

def maxActiveVersions : ℕ := 2

/-- The three variables of the grouping loop in `LoadActive`. -/
structure Grouping where
  orderedSV : List String
  seen : Finset String
  cvBySV : AList fun _ : String => List String

namespace Grouping

def empty : Grouping := ⟨[], ∅, ∅⟩

def clientVersions (g : Grouping) (sv : String) : List String := (g.cvBySV.lookup sv).getD []

def addRow (g : Grouping) (v : Version) : Grouping :=
  let g := if v.serverVersion ∈ g.seen then g else
    { g with
      seen := insert v.serverVersion g.seen
      orderedSV := g.orderedSV ++ [v.serverVersion] }
  { g with
    cvBySV := g.cvBySV.insert v.serverVersion
      (g.clientVersions v.serverVersion ++ [v.clientVersion]) }

def ofRows (rows : List Version) : Grouping := rows.foldl addRow empty

/-- `orderedSV` cut to the newest `maxActiveVersions`. -/
def retained (g : Grouping) : List String := g.orderedSV.take maxActiveVersions

end Grouping

/-- `for _, cv := range cvs { newMap[cv] = catalog }`. -/
def assign (catalog : Catalog) (cvs : List String) (m : ClientMap) : ClientMap :=
  cvs.foldl (fun m cv => m.insert cv catalog) m

def loadVersions (load : String → Except Failure Catalog) (g : Grouping) :
    ℕ → List String → ClientMap → Except Failure ClientMap
  | _, [], m => .ok m
  | i, sv :: svs, m =>
    match load sv with
    | .error .panic => .error .panic
    | .error (.error err) =>
      if i = 0 then .error (.error (.wrap ("load latest " ++ sv) err))
      else loadVersions load g (i + 1) svs m
    | .ok catalog => loadVersions load g (i + 1) svs (assign catalog (g.clientVersions sv) m)

/-- `Syncer.LoadActive`, from the answer of the `TB_VERSION` query. -/
def loadActive (load : String → Except Failure Catalog) (query : Except GoError (List Version))
    (s : DesignStore) : Except Failure DesignStore := do
  let rows ← wrapError "query TB_VERSION" (returns query)
  let g := Grouping.ofRows rows
  if g.orderedSV = [] then
    throw (.error (.external "no active version in TB_VERSION"))
  let newMap ← loadVersions load g 0 g.retained ∅
  return s.replace newMap

end FutureWas
