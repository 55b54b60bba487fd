import FutureWas.Collections.Dictionary
import FutureWas.Model.Design
import Mathlib.Data.Rat.Lemmas

/-!
# Design files and their decoding

A design file is an array of objects, each of which is decoded into the struct generated for
its domain, as `encoding/json` does it: an entry goes to the field with its key as tag, or else
to the first one whose tag folds to the same name; `null` leaves the field as it is; an integer
literal goes to an integer field that can hold it, a literal with a fraction or an exponent to a
float field only. A float is kept as it is written, before it is rounded to its type.

The loader keeps a pointer to each element of the decoded array: here the element with its
position in the array.
-/

set_option autoImplicit false

namespace FutureWas

open Collections

abbrev Text : Type := List Char

instance : LawfulBEq Text := inferInstance

/-! ## Values -/

/-- Half a unit over the largest double: from here on, values round to infinity. -/
def doubleLimit : ℕ := (2 ^ 54 - 1) <<< 970

theorem doubleLimit_pos : 0 < doubleLimit := by decide

structure Double where
  value : ℚ
  bounded : value.num.natAbs < doubleLimit * value.den
  deriving DecidableEq

theorem zero_bounded : (0 : ℚ).num.natAbs < doubleLimit * (0 : ℚ).den := by
  simpa using doubleLimit_pos

def Double.zero : Double := ⟨0, zero_bounded⟩

inductive Float64
  | nan
  | inf (negative : Bool)
  | finite (x : Double)
  deriving DecidableEq

/-- A value of a design file. The tokens `NaN` and `Infinity` are no JSON. -/
inductive Json
  | null
  | bool (b : Bool)
  | str (s : Text)
  | int (z : ℤ)
  | float (x : Float64)
  deriving DecidableEq

def Json.valid : Json → Bool
  | .float .nan => false
  | .float (.inf _) => false
  | _ => true

abbrev Object : Type := Dictionary Text Json

inductive GoType
  | string | bool
  | int8 | int16 | int32 | int64
  | uint8 | uint16 | uint32 | uint64
  | float32 | float64
  deriving DecidableEq

namespace GoType

def range : GoType → Option (ℤ × ℤ)
  | int8 => some (-2 ^ 7, 2 ^ 7 - 1)
  | int16 => some (-2 ^ 15, 2 ^ 15 - 1)
  | int32 => some (-2 ^ 31, 2 ^ 31 - 1)
  | int64 => some (-2 ^ 63, 2 ^ 63 - 1)
  | uint8 => some (0, 2 ^ 8 - 1)
  | uint16 => some (0, 2 ^ 16 - 1)
  | uint32 => some (0, 2 ^ 32 - 1)
  | uint64 => some (0, 2 ^ 64 - 1)
  | _ => none

/-- From where on `strconv.ParseFloat` answers a range error. -/
def limit : GoType → Option ℕ
  | float32 => some (2 ^ 128 - 2 ^ 103)
  | float64 => some doubleLimit
  | _ => none

end GoType

inductive GoValue
  | string (s : Text)
  | bool (b : Bool)
  | int (z : ℤ)
  | float (q : ℚ)
  deriving DecidableEq

def GoType.zero : GoType → GoValue
  | .string => .string []
  | .bool => .bool false
  | .float32 => .float 0
  | .float64 => .float 0
  | _ => .int 0

def storeFloat (t : GoType) (q : ℚ) : Option GoValue :=
  match t.limit with
  | some n => if q.num.natAbs < n * q.den then some (.float q) else none
  | none => none

/-- The value stored for a literal other than `null`, or a type error. -/
def literalStore (t : GoType) : Json → Option GoValue
  | .null => none
  | .bool b => if t = .bool then some (.bool b) else none
  | .str s => if t = .string then some (.string s) else none
  | .int z =>
    match t.range with
    | some (lo, hi) => if lo ≤ z ∧ z ≤ hi then some (.int z) else none
    | none => storeFloat t z
  | .float (.finite x) => storeFloat t x.value
  | .float _ => none

def GoType.accepts (t : GoType) (j : Json) : Bool := j = .null || (literalStore t j).isSome

/-! ## Structs -/

structure Unicode where
  isLetter : Char → Bool
  isUpper : Char → Bool
  isDigit : Char → Bool
  foldName : Text → Text

structure GoField where
  name : Text
  type : GoType
  tag : Text

abbrev GoStruct : Type := List GoField

abbrev GoRow : Type := Text → Option GoValue

variable (uni : Unicode)

def isExported : Text → Bool
  | [] => false
  | c :: cs => uni.isUpper c && cs.all fun c => c = '_' || uni.isLetter c || uni.isDigit c

/-! ### Tags -/

section

variable (quoted : Text → Option Text)

def tagQuotes : Text := "\"\\\x60".toList

/-- What `reflect` reads of the tag written for a column, in a raw string, which has no carriage
returns. `strconv.Unquote` refuses a line break; a tag with quotes is left to `quoted`. -/
def tagValue (col : Text) : Option Text :=
  let tag := col.filter fun c => c ≠ '\r'
  if tag.any tagQuotes.contains then quoted tag
  else if tag.contains '\n' then none
  else some tag

def tagMarks : Text := "!#$%&()*+-./:;<=>?@[]^_\x7b|\x7d~ ".toList

def isValidTag (s : Text) : Bool :=
  s ≠ [] && s.all fun c => tagMarks.contains c || uni.isLetter c || uni.isDigit c

structure JsonField where
  name : Text
  tagged : Bool
  field : GoField

def jsonField (f : GoField) : Option JsonField :=
  if isExported uni f.name = false then none
  else match tagValue quoted f.tag with
    | none => some ⟨f.name, false, f⟩
    | some tag =>
      let name := tag.takeWhile fun c => c ≠ ','
      if tag = ['-'] then none
      else if isValidTag uni name then some ⟨name, true, f⟩
      else some ⟨f.name, false, f⟩

/-- Of fields with one name a single tagged one stands, or a single one. -/
def dominant (all : List JsonField) (v : JsonField) : Bool :=
  (all.filter fun w => w.name = v.name && (w.tagged || !v.tagged)).length = 1

def jsonFields (fields : GoStruct) : List JsonField :=
  let all := fields.filterMap (jsonField uni quoted)
  all.filter (dominant all)

def jsonFieldOf (fields : GoStruct) (key : Text) : Option GoField :=
  match (jsonFields uni quoted fields).find? fun v => v.name = key with
  | some v => some v.field
  | none =>
    ((jsonFields uni quoted fields).find? fun v => uni.foldName v.name = uni.foldName key).map
      JsonField.field

end

/-! ### Decoding -/

/-- `jsonFieldOf` for a struct whose fields are exported and have valid tags. -/
def fieldOf (fields : GoStruct) (key : Text) : Option GoField :=
  match fields.find? fun f => f.tag = key with
  | some f => some f
  | none => fields.find? fun f => uni.foldName f.tag = uni.foldName key

def zeroRow (fields : GoStruct) : GoRow := fun tag =>
  (fields.find? fun f => f.tag = tag).map fun f => f.type.zero

def decodeEntry (fields : GoStruct) (row : GoRow) (entry : Text × Json) : Option GoRow :=
  match fieldOf uni fields entry.1 with
  | none => some row
  | some f =>
    if entry.2 = .null then some row
    else (literalStore f.type entry.2).map fun v => Function.update row f.tag (some v)

def decodeObject (fields : GoStruct) (object : Object) : Option GoRow :=
  object.foldlM (decodeEntry uni fields) (zeroRow fields)

/-- `json.Unmarshal(data, &list)`. The whole file is checked before anything is decoded. -/
def decodeFile (fields : GoStruct) (file : List Object) : Option (List GoRow) :=
  if file.all fun object => object.all fun entry => entry.2.valid then
    file.mapM (decodeObject uni fields)
  else none

/-! ## Domains -/

/-- A case of `unmarshalInto`: a file, the struct generated for it, and the tag of the field
that it is stored by. -/
structure Domain where
  file : String
  fields : GoStruct
  key : Text

def field (name : String) (type : GoType) (tag : String) : GoField :=
  ⟨name.toList, type, tag.toList⟩

def batDataDesign : GoStruct :=
  [field "Idx" .int32 "IDX", field "Nid" .int32 "NID", field "LbNumber" .uint64 "LB_NUMBER",
   field "Useflag" .bool "USEFLAG", field "Season" .int32 "SEASON", field "Team" .int32 "TEAM",
   field "FullName" .string "FULL_NAME", field "BasePosition" .int32 "BASE_POSITION",
   field "SubPosition" .int32 "SUB_POSITION", field "Bats" .int32 "BATS",
   field "Throws" .int32 "THROWS", field "LbId" .int32 "LB_ID", field "Rarity" .int32 "RARITY",
   field "Kind" .int32 "KIND", field "Ovr" .int32 "OVR", field "Power" .int32 "POWER",
   field "Contact" .int32 "CONTACT", field "Vision" .int32 "VISION",
   field "Discipline" .int32 "DISCIPLINE", field "RunningSpeed" .int32 "RUNNING_SPEED",
   field "Fielding" .int32 "FIELDING", field "Ala" .int32 "ALA",
   field "Edition" .int32 "EDITION", field "FullSwing" .int32 "FULL_SWING",
   field "Clutch" .int32 "CLUTCH", field "Steal" .int32 "STEAL", field "Bunt" .int32 "BUNT",
   field "Throw" .int32 "THROW", field "Defense" .int32 "DEFENSE",
   field "Running" .int32 "RUNNING", field "VsUp" .int32 "VS_UP",
   field "VsDown" .int32 "VS_DOWN", field "VsIn" .int32 "VS_IN", field "VsOut" .int32 "VS_OUT",
   field "VsPitL" .int32 "VS_PIT_L", field "VsPitR" .int32 "VS_PIT_R",
   field "VsFb" .int32 "VS_FB", field "VsBb" .int32 "VS_BB", field "VsOsb" .int32 "VS_OSB",
   field "GbHitter" .int32 "GB_HITTER", field "FbHitter" .int32 "FB_HITTER",
   field "FranchiseBat" .int32 "FRANCHISE_BAT", field "ExclusiveTheme" .int32 "EXCLUSIVE_THEME",
   field "TwoWay" .int32 "TWO_WAY", field "EditionType" .int32 "EDITION_TYPE"]

def currencyListDesign : GoStruct :=
  [field "Idx" .int32 "IDX", field "ItemId" .int32 "ITEM_ID", field "Comment" .string "COMMENT"]

def itemListDesign : GoStruct :=
  [field "Idx" .int32 "IDX", field "ItemId" .int32 "ITEM_ID", field "Comment" .string "COMMENT",
   field "ItemType" .int32 "ITEM_TYPE"]

def shopListDesign : GoStruct :=
  [field "Idx" .int32 "IDX", field "ShopId" .int32 "SHOP_ID", field "Type" .int32 "TYPE",
   field "OpenTime" .int64 "OPEN_TIME", field "CloseTime" .int64 "CLOSE_TIME",
   field "CurrencyId" .int32 "CURRENCY_ID", field "UseFlag" .int32 "USE_FLAG",
   field "ShowFlag" .int32 "SHOW_FLAG", field "Price" .int32 "PRICE",
   field "ShopType" .int32 "SHOP_TYPE", field "Ticker" .int32 "TICKER",
   field "Comment" .string "COMMENT"]

def batDataDomain : Domain := ⟨"BAT_DATA.json", batDataDesign, "NID".toList⟩
def currencyDomain : Domain := ⟨"CURRENCY_LIST.json", currencyListDesign, "ITEM_ID".toList⟩
def itemDomain : Domain := ⟨"ITEM_LIST.json", itemListDesign, "ITEM_ID".toList⟩
def shopDomain : Domain := ⟨"SHOP_LIST.json", shopListDesign, "SHOP_ID".toList⟩

def domains : List Domain := [batDataDomain, currencyDomain, itemDomain, shopDomain]

namespace Domain

def keyOf (dom : Domain) (row : GoRow) : ℤ :=
  match row dom.key with
  | some (.int z) => z
  | _ => 0

def load (dom : Domain) (file : List Object) : Option (Design ℤ (GoRow × ℕ)) :=
  (decodeFile uni dom.fields file).map (fillTable dom.keyOf)

end Domain

end FutureWas
