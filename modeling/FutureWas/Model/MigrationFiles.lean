import FutureWas.Model.Migrations
import FutureWas.Collections.Text
import FutureWas.Collections.Disk
import Mathlib.Data.List.DropRight

/-!
# Migration files

`sql/migrations/create.go`, the listing of version directories in `migrator.go` and the file
endpoints of `router/admin.go`. A string is read as its runes, the way a pattern and
`strings.ToLower` read it: an invalid byte is U+FFFD, which no class of characters has.
-/

set_option autoImplicit false

namespace FutureWas.Migrations

open Collections Pattern Path

/-! ## Patterns -/

def lowerOrDigit : List Char := "abcdefghijklmnopqrstuvwxyz0123456789".toList

def wordChars : List Char := lowerOrDigit ++ ['_']

def twoDigits : RegularExpression Char := oneOf digits ^ 2

/-- `^\d+\.\d{2}\.\d{2}$`, in `create.go` and again in `admin.go`. -/
def versionPattern : RegularExpression Char :=
  plus (oneOf digits) * (.char '.' * (twoDigits * (.char '.' * twoDigits)))

def versionRE : RegularExpression Char :=
  plus (oneOf digits) * (.char '.' * (twoDigits * (.char '.' * twoDigits)))

/-- `^[a-z0-9][a-z0-9_]*$`. -/
def namePattern : RegularExpression Char := oneOf lowerOrDigit * (oneOf wordChars).star

/-- `^\d{14}_[a-z0-9_]+\.sql$`. -/
def filenameRE : RegularExpression Char :=
  oneOf digits ^ 14 * (.char '_' * (plus (oneOf wordChars) * Pattern.text ".sql".toList))

def matchString (p : RegularExpression Char) (s : String) : Bool := p.rmatch s.toList

/-! ## Directories -/

structure DirEntry where
  name : String
  isDir : Bool

/-- `fs.ReadDir`. -/
def readDir (disk : Disk) (rooted : Bool) (stack : List (List Char)) : List DirEntry :=
  let entries := (disk.children rooted stack).map fun c =>
    (⟨String.ofList c.1, c.2.isDirectory⟩ : DirEntry)
  entries.insertionSort fun d e => d.name ≤ e.name

/-- `sort.Strings` compares bytes, which is the order of `String`. -/
def listVersionDirs (entries : List DirEntry) : List String :=
  ((entries.filter DirEntry.isDir).map DirEntry.name).insertionSort (· ≤ ·)

/-! ## `CreateMigrationFile` -/

/-- A reading of the clock in `kstZone`. -/
structure KST where
  year : ℕ
  month : ℕ
  day : ℕ
  hour : ℕ
  minute : ℕ
  second : ℕ
  month_le : month ≤ 12
  day_le : day ≤ 31
  hour_lt : hour < 24
  minute_lt : minute < 60
  second_lt : second < 60

namespace KST

variable (now : KST)

/-- `Format("20060102150405")`. -/
def timestamp : List Char :=
  pad 4 now.year ++ pad 2 now.month ++ pad 2 now.day ++ pad 2 now.hour ++ pad 2 now.minute ++
    pad 2 now.second

/-- `Format("2006-01-02 15:04:05 KST")`. -/
def created : List Char :=
  pad 4 now.year ++ '-' :: pad 2 now.month ++ '-' :: pad 2 now.day ++ ' ' :: pad 2 now.hour ++
    ':' :: pad 2 now.minute ++ ':' :: pad 2 now.second ++ " KST".toList

def stamp : ℕ :=
  ((((now.year * 100 + now.month) * 100 + now.day) * 100 + now.hour) * 100 + now.minute) * 100 +
    now.second

end KST

structure CreateRequest where
  category : String
  version : String
  name : String
  author : String
  baseDir : String
  upSQL : String
  downSQL : String

def errInvalidCategory : GoError := .external "category must be 'game' or 'shard'"

def errInvalidVersion : GoError := .external "invalid version format (expected x.yy.zz)"

def errInvalidName : GoError := .external "name must be snake_case"

def errAuthorRequired : GoError := .external "author required (or invalid after sanitize)"

def errFileExists : GoError := .external "migration file already exists"

/-- One rune of an author, already in lower case. -/
def sanitizeRune (r : Char) : Option Char :=
  if 'a' ≤ r ∧ r ≤ 'z' ∨ '0' ≤ r ∧ r ≤ '9' then some r
  else if r = '_' ∨ r = '-' then some '_'
  else none

/-- `lower` is `unicode.ToLower`. -/
def sanitizeAuthor (lower : Char → Char) (s : String) : List Char :=
  s.toList.filterMap fun r => sanitizeRune (lower r)

/-- `strings.TrimRight(s, " \n\t")`. -/
def trimRight (s : List Char) : List Char := s.rdropWhile fun c => c = ' ' ∨ c = '\n' ∨ c = '\t'

def block (sql : String) : List Char :=
  let body := trimRight sql.toList
  if body = [] then [] else body ++ ['\n']

def buildTemplate (name author : List Char) (createdAt : KST) (upSQL downSQL : String) :
    List Char :=
  "-- migration: ".toList ++ name ++ "\n-- author:    ".toList ++ author ++
    "\n-- created:   ".toList ++ createdAt.created ++ "\n\n-- +goose Up\n".toList ++
    block upSQL ++ "\n\n-- +goose Down\n".toList ++ block downSQL ++ "\n".toList

/-- The calls that the operating system fails for reasons of its own, with what they leave of the
disk. -/
structure OperatingSystem where
  mkdirAll : List Char → Disk → Option (GoError × Disk)
  stat : List Char → Disk → Option GoError
  writeFile : List Char → Disk → Option (GoError × Disk)

section

variable (os : OperatingSystem) (disk : Disk)

def mkdirAll (dir : List Char) : Option GoError × Disk :=
  match os.mkdirAll dir disk with
  | some (err, left) => (some err, left)
  | none =>
    match disk.makeAll (.of dir) with
    | .error p => (some (.external ("mkdir " ++ String.ofList p.path ++ ": not a directory")), disk)
    | .ok made => (none, made)

/-- `os.Stat` without an error. -/
def hasFile (path : List Char) : Bool :=
  (os.stat path disk).isNone && (disk.find (.of path)).isSome

def writeFile (path content : List Char) : Option GoError × Disk :=
  match os.writeFile path disk with
  | some (err, left) => (some err, left)
  | none =>
    match disk.write (.of path) content with
    | some written => (none, written)
    | none =>
      let reason := if disk.find (.of path) = some .directory then "is a directory"
        else "no such file or directory"
      (some (.external ("open " ++ String.ofList path ++ ": " ++ reason)), disk)

end

/-- The file of an accepted request; its path is what the call returns. -/
structure CreatedFile where
  filename : List Char
  path : List Char
  content : List Char
  deriving DecidableEq

def createMigrationFile (lower : Char → Char) (os : OperatingSystem) (now : KST)
    (req : CreateRequest) (disk : Disk) : Except GoError CreatedFile × Disk :=
  if req.category ≠ "game" ∧ req.category ≠ "shard" then (.error errInvalidCategory, disk)
  else if ¬ matchString versionPattern req.version then (.error errInvalidVersion, disk)
  else if ¬ matchString namePattern req.name then (.error errInvalidName, disk)
  else
    let author := sanitizeAuthor lower req.author
    if author = [] then (.error errAuthorRequired, disk)
    else
      let filename := now.timestamp ++ '_' :: author ++ '_' :: req.name.toList ++ ".sql".toList
      let dir := join [req.baseDir.toList, req.category.toList, req.version.toList]
      match mkdirAll os disk dir with
      | (some err, left) => (.error (.wrap "mkdir" err), left)
      | (none, made) =>
        let path := join [dir, filename]
        if hasFile os made path then (.error errFileExists, made)
        else
          let content := buildTemplate req.name.toList author now req.upSQL req.downSQL
          match writeFile os made path content with
          | (some err, left) => (.error (.wrap "write" err), left)
          | (none, written) => (.ok ⟨filename, path, content⟩, written)

/-! ## The admin endpoints -/

/-- The body of `POST /admin/migrations`. -/
structure CreateBody where
  category : String
  version : String
  name : String
  author : String
  upSQL : String
  downSQL : String

def CreateBody.request (body : CreateBody) : CreateRequest where
  category := body.category
  version := body.version
  name := body.name
  author := body.author
  baseDir := "sql/migrations"
  upSQL := body.upSQL
  downSQL := body.downSQL

def stageLocal : String := "local"

/-- The status of a failed creation. The sentinel errors are compared with `errors.Is`. -/
def createStatus (err : GoError) : ℕ :=
  if err = errFileExists then 409
  else if err = errInvalidCategory ∨ err = errInvalidVersion ∨ err = errInvalidName ∨
    err = errAuthorRequired then 400
  else 500

/-- `POST /admin/migrations`: the status, and the file created or the text of the error. -/
def postMigrations (lower : Char → Char) (os : OperatingSystem) (now : KST) (stage : String)
    (body : CreateBody) (disk : Disk) : (ℕ × Except String CreatedFile) × Disk :=
  if stage ≠ stageLocal then
    ((403, .error ("migration file creation is only allowed in local stage (current: " ++ stage ++
      ")")), disk)
  else
    match createMigrationFile lower os now body.request disk with
    | (.error err, left) => ((createStatus err, .error err.text), left)
    | (.ok f, written) => ((200, .ok f), written)

/-- `GET /admin/migrations/file`: the path it reads, or the text of its refusal. -/
def adminFilePath (category version filename : String) : Except String (List Char) :=
  if category ≠ "game" ∧ category ≠ "shard" then .error "category must be 'game' or 'shard'"
  else if version ≠ "" ∧ ¬ matchString versionRE version then
    .error "invalid version format (expected x.yy.zz)"
  else if ¬ matchString filenameRE filename then .error "invalid filename format"
  else
    .ok (category.toList ++ '/' ::
      (if version ≠ "" then version.toList ++ ['/'] else []) ++ filename.toList)

end FutureWas.Migrations
