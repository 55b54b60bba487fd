import FutureWas.Model.Encoding
import Mathlib.Data.List.DropRight

/-!
# The design tools

`tools/excel2json` turns the first sheet of an Excel file into a design file, and
`tools/excel2struct` into the struct that the file is decoded into. Both read a header of four
rows: the columns used by the client, those used by the server, types and names.

A sheet is the data frame that `pandas` reads. What Python and `pandas` do with texts, times and
floats is a parameter (`Python`). Where a conversion raises, the error stays in the file's run;
`json.dumps` raises outside of it. The text of the generated Go file is left out but for its
fields.
-/

set_option autoImplicit false

namespace FutureWas

open Collections

/-! ## Python values -/

structure Datetime where
  year : ℕ
  month : ℕ
  day : ℕ
  hour : ℕ
  minute : ℕ
  second : ℕ
  microsecond : ℕ
  deriving DecidableEq

/-- A cell of a data frame. `other` is a date, a time or a duration, with its text. -/
inductive Cell
  | none
  | str (s : Text)
  | int (z : ℤ)
  | float (x : Float64)
  | bool (b : Bool)
  | datetime (t : Datetime)
  | other (text : Text)
  deriving DecidableEq

/-- A value of a row: a cell or, under a name that several columns have, their cells. -/
inductive Value
  | cell (c : Cell)
  | series (cells : List Cell)
  deriving DecidableEq

/-- `str.isspace`. -/
def isSpace (c : Char) : Bool :=
  (9 ≤ c.toNat && c.toNat ≤ 13) || (28 ≤ c.toNat && c.toNat ≤ 32) ||
    (0x2000 ≤ c.toNat && c.toNat ≤ 0x200a) ||
    [0x85, 0xa0, 0x1680, 0x2028, 0x2029, 0x202f, 0x205f, 0x3000].contains c.toNat

def strip (s : Text) : Text := (s.dropWhile isSpace).rdropWhile isSpace

/-- `pattern in s`. -/
def contains (pattern s : Text) : Bool := s.tails.any fun t => pattern.isPrefixOf t

/-- `s.replace(pattern, "")`; the number of characters still to skip comes first. -/
def removeAll (pattern : Text) : ℕ → Text → Text
  | _, [] => []
  | n + 1, _ :: cs => removeAll pattern n cs
  | 0, c :: cs =>
    if pattern.isPrefixOf (c :: cs) then removeAll pattern (pattern.length - 1) cs
    else c :: removeAll pattern 0 cs

/-- What is used of Python and `pandas`: `str.upper` by characters, `str.capitalize`,
`str.isdigit`, `int` and `float` of a text, `float` of an integer, `str` of a double, of a
`datetime` and of a series, `strptime` with the tool's format, and the seconds of `timestamp` in
the local time zone. `none` stands for an error. -/
structure Python where
  upperChar : Char → List Char
  upperChar_upper : ∀ c, ∀ d ∈ upperChar c, upperChar d = [d]
  capitalize : Text → Text
  isDigit : Char → Bool
  intOfText : Text → Option ℤ
  floatOfText : Text → Option Float64
  floatOfInt : ℤ → Option Double
  strDouble : Double → Text
  strDatetime : Datetime → Text
  strSeries : List Cell → Text
  strptime : Text → Option Datetime
  strptime_series : ∀ cells, strptime (strip (strSeries cells)) = none
  timestamp : Datetime → Option ℤ
  timestamp_range : ∀ t s, timestamp t = some s → -2 ^ 63 ≤ s ∧ s ≤ 2 ^ 63 - 1

inductive ConversionError
  | typeError
  | valueError
  | overflowError
  deriving DecidableEq

/-- NaN and None, of which only a float or nothing can be one. -/
def Cell.isEmpty : Cell → Bool
  | .none => true
  | .float .nan => true
  | _ => false

def Value.isEmpty : Value → Bool
  | .cell c => c.isEmpty
  | .series _ => false

def truncate (q : ℚ) : ℤ := q.num.tdiv q.den

namespace Python

variable (py : Python)

def upper (s : Text) : Text := s.flatMap py.upperChar

def str : Cell → Text
  | .none => "None".toList
  | .str s => s
  | .int z => (toString z).toList
  | .float .nan => "nan".toList
  | .float (.inf false) => "inf".toList
  | .float (.inf true) => "-inf".toList
  | .float (.finite x) => py.strDouble x
  | .bool true => "True".toList
  | .bool false => "False".toList
  | .datetime t => py.strDatetime t
  | .other text => text

def strValue : Value → Text
  | .cell c => py.str c
  | .series cells => py.strSeries cells

def int : Value → Except ConversionError ℤ
  | .cell (.str s) =>
    match py.intOfText s with
    | some z => .ok z
    | none => .error .valueError
  | .cell (.int z) => .ok z
  | .cell (.float .nan) => .error .valueError
  | .cell (.float (.inf _)) => .error .overflowError
  | .cell (.float (.finite x)) => .ok (truncate x.value)
  | .cell (.bool b) => .ok b.toInt
  | _ => .error .typeError

def float : Value → Except ConversionError Float64
  | .cell (.str s) =>
    match py.floatOfText s with
    | some x => .ok x
    | none => .error .valueError
  | .cell (.int z) =>
    match py.floatOfInt z with
    | some x => .ok (.finite x)
    | none => .error .overflowError
  | .cell (.float x) => .ok x
  | .cell (.bool b) =>
    match py.floatOfInt b.toInt with
    | some x => .ok (.finite x)
    | none => .error .overflowError
  | _ => .error .typeError

end Python

/-! ## Headers -/

structure Sheet where
  height : ℕ
  width : ℕ
  iat : ℕ → ℕ → Cell

inductive Target
  | server
  | client
  deriving DecidableEq

inductive SheetError
  | tooFewRows
  | emptyColumnName (col : ℕ)
  | noColumns
  | pkCount (names : List Text)
  | invalidTime (s : Text)
  | overflow

def clientMarker : Text := "CLIENT".toList
def serverMarker : Text := "SERVER".toList
def pkMarker : Text := "(PK)".toList

def Target.marker : Target → Text
  | .server => serverMarker
  | .client => clientMarker

def Target.markerRow : Target → ℕ
  | .server => 1
  | .client => 0

variable (py : Python)

def cellStr (c : Cell) : Text := if c.isEmpty then [] else strip (py.str c)

def typeName (typeCell : Text) : Text := strip (removeAll pkMarker 0 typeCell)

namespace Excel2json

structure Columns where
  indices : List ℕ
  names : List Text
  types : List Text
  pkNames : List Text

structure Selection where
  indices : List ℕ
  names : List Text
  types : List Text
  pk : Text

def selectColumn (df : Sheet) (marker : Text) (markerRow : ℕ) (columns : Columns) (col : ℕ) :
    Except SheetError Columns :=
  if py.upper (cellStr py (df.iat markerRow col)) ≠ marker then .ok columns
  else
    let colName := cellStr py (df.iat 3 col)
    if colName = [] then .error (.emptyColumnName col)
    else
      let typeCell := py.upper (cellStr py (df.iat 2 col))
      .ok
        { indices := columns.indices ++ [col]
          names := columns.names ++ [colName]
          types := columns.types ++ [typeName typeCell]
          pkNames := if contains pkMarker typeCell then columns.pkNames ++ [colName]
            else columns.pkNames }

def Columns.check (columns : Columns) : Except SheetError Selection :=
  if columns.indices = [] then .error .noColumns
  else match columns.pkNames with
    | [pk] => .ok ⟨columns.indices, columns.names, columns.types, pk⟩
    | pkNames => .error (.pkCount pkNames)

def selectColumns (df : Sheet) (target : Target) : Except SheetError Selection :=
  if df.height < 5 then .error .tooFewRows
  else
    (List.range df.width).foldlM (selectColumn py df target.marker target.markerRow)
      ⟨[], [], [], []⟩ >>= Columns.check

/-! ## Data -/

def intTypes : List Text :=
  ["INT", "INT8", "INT16", "INT32", "INT64", "UINT", "UINT8", "UINT16", "UINT32", "UINT64",
    "LONG"].map String.toList

def floatTypes : List Text := ["FLOAT", "FLOAT32", "FLOAT64", "DOUBLE", "REAL"].map String.toList

def boolTypes : List Text := ["BOOL", "BOOLEAN"].map String.toList

def stringTypes : List Text := ["STRING", "STR", "TEXT"].map String.toList

def timeTypes : List Text := ["TIME", "DATETIME"].map String.toList

def timestamp (t : Datetime) : Except SheetError ℤ :=
  match py.timestamp t with
  | some s => .ok s
  | none => .error .overflow

def parseTimeToUnix (v : Value) : Except SheetError ℤ :=
  match v with
  | .cell (.datetime t) => timestamp py t
  | _ =>
    let s := strip (py.strValue v)
    match py.strptime s with
    | some t => timestamp py t
    | none => .error (.invalidTime s)

/-- Only type and value errors are caught. -/
def caught {α : Type} (fallback : α) : Except ConversionError α → Except SheetError α
  | .ok a => .ok a
  | .error .overflowError => .error .overflow
  | .error _ => .ok fallback

def coerceValue (v : Value) (type : Text) : Except SheetError Value :=
  if type ∈ stringTypes then
    .ok (.cell (.str (if v.isEmpty then [] else py.strValue v)))
  else if type ∈ intTypes then
    if v.isEmpty then .ok (.cell (.int 0))
    else (caught 0 (py.int v)).map fun z => .cell (.int z)
  else if type ∈ floatTypes then
    if v.isEmpty then .ok (.cell (.float (.finite .zero)))
    else (caught (.finite .zero) (py.float v)).map fun x => .cell (.float x)
  else if type ∈ boolTypes then
    if v.isEmpty then .ok (.cell (.bool false))
    else match v with
      | .cell (.bool b) => .ok (.cell (.bool b))
      | _ =>
        let s := py.upper (strip (py.strValue v))
        .ok (.cell (.bool (["TRUE", "1", "Y", "YES"].map String.toList |>.contains s)))
  else if type ∈ timeTypes then
    if v.isEmpty then .ok (.cell (.int 0))
    else (parseTimeToUnix py v).map fun z => .cell (.int z)
  else .ok (if v.isEmpty then .cell .none else v)

abbrev Record : Type := Dictionary Text Value

/-- `row[name]`. -/
def rowValue (df : Sheet) (sel : Selection) (i : ℕ) (name : Text) : Value :=
  match (sel.names.zip sel.indices).filter fun c => c.1 = name with
  | [c] => .cell (df.iat i c.2)
  | cs => .series (cs.map fun c => df.iat i c.2)

def record (df : Sheet) (sel : Selection) (i : ℕ) : Except SheetError Record :=
  (sel.names.zip sel.types).foldlM (fun rec c => do
    let v ← coerceValue py (rowValue df sel i c.1) c.2
    return rec.assign c.1 v) []

def dataRows (df : Sheet) : List ℕ := List.range' 4 (df.height - 4)

def toRecords (df : Sheet) (target : Target) : Except SheetError (List Record × Text) := do
  let sel ← selectColumns py df target
  let records ← (dataRows df).mapM (record py df sel)
  return (records, sel.pk)

/-! ## Output -/

def dumpsValue : Value → Option Json
  | .cell .none => some .null
  | .cell (.str s) => some (.str s)
  | .cell (.int z) => some (.int z)
  | .cell (.float x) => some (.float x)
  | .cell (.bool b) => some (.bool b)
  | _ => none

def dumpsRecord (rec : Record) : Option Object :=
  rec.mapM fun e => (dumpsValue e.2).map fun j => (e.1, j)

def writeJson (records : List Record) : Option (List Object) := records.mapM dumpsRecord

def convert (df : Sheet) (target : Target) : Option (List Object) :=
  match toRecords py df target with
  | .ok (records, _) => writeJson records
  | .error _ => none

end Excel2json

namespace Excel2struct

def typeMap : List (Text × GoType) :=
  [("STRING", GoType.string), ("STR", .string), ("TEXT", .string), ("INT", .int32),
    ("INT32", .int32), ("INT64", .int64), ("LONG", .int64), ("INT8", .int8), ("INT16", .int16),
    ("UINT", .uint32), ("UINT32", .uint32), ("UINT64", .uint64), ("UINT8", .uint8),
    ("UINT16", .uint16), ("FLOAT", .float32), ("FLOAT32", .float32), ("FLOAT64", .float64),
    ("DOUBLE", .float64), ("REAL", .float64), ("BOOL", .bool), ("BOOLEAN", .bool),
    ("TIME", .int64), ("DATETIME", .int64)].map (Prod.map String.toList id)

def goTypeFor (type : Text) : GoType := (typeMap.lookup (py.upper type)).getD .string

structure Columns where
  names : List Text
  types : List GoType
  pkNames : List Text

structure Selection where
  names : List Text
  types : List GoType
  pk : Text

def selectColumn (df : Sheet) (columns : Columns) (col : ℕ) : Except SheetError Columns :=
  if py.upper (cellStr py (df.iat 1 col)) ≠ serverMarker then .ok columns
  else
    let colName := cellStr py (df.iat 3 col)
    if colName = [] then .error (.emptyColumnName col)
    else
      let typeCell := py.upper (cellStr py (df.iat 2 col))
      .ok
        { names := columns.names ++ [colName]
          types := columns.types ++ [goTypeFor py (typeName typeCell)]
          pkNames := if contains pkMarker typeCell then columns.pkNames ++ [colName]
            else columns.pkNames }

def Columns.check (columns : Columns) : Except SheetError Selection :=
  if columns.names = [] then .error .noColumns
  else match columns.pkNames with
    | [pk] => .ok ⟨columns.names, columns.types, pk⟩
    | pkNames => .error (.pkCount pkNames)

def selectColumns (df : Sheet) : Except SheetError Selection :=
  if df.height < 5 then .error .tooFewRows
  else (List.range df.width).foldlM (selectColumn py df) ⟨[], [], []⟩ >>= Columns.check

/-! ## Fields -/

/-- A separator of `re.split(r"[_\-\s]+", name)`. -/
def isSeparator (c : Char) : Bool := c = '_' || c = '-' || isSpace c

def toPascalCase (name : Text) : Text :=
  ((name.splitOnP isSeparator).filter fun p => p ≠ []).flatMap py.capitalize

def toGoFieldName (col : Text) : Text :=
  match toPascalCase py col with
  | [] => []
  | c :: cs => if py.isDigit c then 'F' :: c :: cs else c :: cs

def renderStruct (columns : List (Text × GoType)) : GoStruct :=
  columns.map fun c => ⟨toGoFieldName py c.1, c.2, c.1⟩

end Excel2struct

end FutureWas
