import FutureWas.Model.Errcode
import Mathlib.Data.List.Infix
import Mathlib.Data.List.Sort

/-!
# The migrator

`sql/migrations/migrator.go`. A category tree is the directory of a category: its own SQL
files and its version directories, each listed as `fs.ReadDir` lists it. `goose` is a library,
so what it does with one directory is a parameter (`Goose`) whose fields state the documented
behaviour. The statements the migrator sends itself do not fail.

`Database` holds the table `goose_db_version` in the order of insertion and the SQL that has
run. `VersionRow.file` is not a column: it names the file a row was inserted for.
-/

set_option autoImplicit false

namespace FutureWas.Migrations

inductive MigrationCategory
  | game
  | shard
  deriving DecidableEq

def MigrationCategory.name : MigrationCategory → String
  | game => "game"
  | shard => "shard"

structure MigrationFile where
  version : String
  filename : String
  versionID : ℕ
  deriving DecidableEq

structure Dir where
  label : String
  names : List String
  sorted : names.Pairwise (· < ·)

structure Tree where
  root : Dir
  versions : List Dir
  root_label : root.label = ""
  sorted : ((root :: versions).map Dir.label).Pairwise (· < ·)

/-- Root first, then the version directories by name. -/
def Tree.dirs (t : Tree) : List Dir := t.root :: t.versions

/-! ## Files -/

def isSQL (name : String) : Bool := ".sql".toList.isSuffixOf name.toList

/-- The 14 digits before the first underscore; they stay below `2 ^ 63`. -/
def parseVersionID (filename : String) : Option ℕ :=
  let chars := filename.toList
  let idx := chars.idxOf '_'
  if idx = chars.length ∨ idx = 0 then none
  else
    let tsStr := chars.take idx
    if tsStr.length ≠ 14 ∨ ¬ tsStr.all Char.isDigit then none
    else some (tsStr.foldl (fun v ch => v * 10 + (ch.toNat - '0'.toNat)) 0)

def dirPath (cat : MigrationCategory) (d : Dir) : String :=
  if d.label = "" then cat.name else cat.name ++ "/" ++ d.label

def migrationFile (path label name : String) : Except GoError MigrationFile :=
  match parseVersionID name with
  | none => .error (.external
      ("invalid migration filename: " ++ path ++ "/" ++ name ++ " (expected <timestamp>_...)"))
  | some vid => .ok ⟨label, name, vid⟩

/-- Files of one version id keep their order by name, which `sort.Slice` does not promise. -/
def collectSQLFiles (path : String) (d : Dir) : Except GoError (List MigrationFile) := do
  let files ← (d.names.filter isSQL).mapM (migrationFile path d.label)
  return files.insertionSort fun f g => f.versionID ≤ g.versionID

def walkDirs (cat : MigrationCategory) : List Dir → Except GoError (List MigrationFile)
  | [] => .ok []
  | d :: ds => do
    let files ← collectSQLFiles (dirPath cat d) d
    let rest ← walkDirs cat ds
    return files ++ rest

def walkMigrationFiles (cat : MigrationCategory) (t : Tree) :
    Except GoError (List MigrationFile) :=
  walkDirs cat t.dirs

def hasRootSQL (t : Tree) : Bool := t.root.names.any isSQL

/-! ## The database -/

structure VersionRow where
  versionID : ℕ
  file : Option MigrationFile
  deriving DecidableEq

inductive Execution
  | up (f : MigrationFile)
  | down (f : MigrationFile)
  deriving DecidableEq

/-- `versionTable` is `none` until the table is created; it then starts with `initialRow`. -/
structure Database where
  versionTable : Option (List VersionRow)
  executed : List Execution
  deriving DecidableEq

def initialRow : VersionRow := ⟨0, none⟩

def rowOf (f : MigrationFile) : VersionRow := ⟨f.versionID, some f⟩

namespace Database

def empty : Database := ⟨none, []⟩

def rows (db : Database) : List VersionRow := db.versionTable.getD [initialRow]

def recorded (db : Database) : List ℕ := db.rows.map VersionRow.versionID

def applied (db : Database) : List MigrationFile := db.rows.filterMap VersionRow.file

def ups (db : Database) : List MigrationFile := db.executed.filterMap fun
  | .up f => some f
  | .down _ => none

def pending (db : Database) (files : List MigrationFile) : List MigrationFile :=
  files.filter fun f => f.versionID ∉ db.recorded

def apply (db : Database) (fs : List MigrationFile) : Database where
  versionTable := some (db.rows ++ fs.map rowOf)
  executed := db.executed ++ fs.map .up

def rollBack (db : Database) (f : MigrationFile) : Database where
  versionTable := some (db.rows.filter fun r => r.versionID ≠ f.versionID)
  executed := db.executed ++ [.down f]

end Database

def loadAppliedVersionIDs (db : Database) : List ℕ :=
  (db.versionTable.getD []).map VersionRow.versionID

/-- `SELECT MAX(version_id)`; 0 without a table. -/
def currentVersion (db : Database) : ℕ := (loadAppliedVersionIDs db).foldr max 0

/-! ## goose -/

def Accepts (files : List MigrationFile) : Prop :=
  (files.map MigrationFile.versionID).Nodup ∧ ∀ f ∈ files, 0 < f.versionID

instance (files : List MigrationFile) : Decidable (Accepts files) :=
  inferInstanceAs (Decidable (_ ∧ _))

def errNoNextVersion : GoError := .external "no next version found"

/-- `UpContext` with `WithAllowMissing` on a directory of `files`: it refuses the directory, or
runs the pending files by ascending version until one of them fails. -/
inductive UpSpec (files : List MigrationFile) (db : Database) :
    Option GoError × Database → Prop
  | refused (err : GoError) : UpSpec files db (some err, db)
  | failed (err : GoError) (fs : List MigrationFile) : Accepts files → fs <+: db.pending files →
      UpSpec files db (some err, db.apply fs)
  | done : Accepts files → UpSpec files db (none, db.apply (db.pending files))

/-- `UpByOneContext`: the first pending file, or an error. -/
inductive UpByOneSpec (files : List MigrationFile) (db : Database) :
    Option GoError × Database → Prop
  | refused (err : GoError) : UpByOneSpec files db (some err, db)
  | failed (err : GoError) : UpByOneSpec files db (some err, db.apply [])
  | done (f : MigrationFile) (rest : List MigrationFile) : Accepts files →
      db.pending files = f :: rest → UpByOneSpec files db (none, db.apply [f])

/-- `DownContext`: the file of the row inserted last, when the directory has it. -/
inductive DownSpec (files : List MigrationFile) (db : Database) :
    Option GoError × Database → Prop
  | refused (err : GoError) : ¬ Accepts files → DownSpec files db (some err, db)
  | notFound (err : GoError) :
      (∀ r, db.rows.getLast? = some r → ∀ f ∈ files, f.versionID ≠ r.versionID) →
      DownSpec files db (some err, db)
  | done (r : VersionRow) (f : MigrationFile) : Accepts files → db.rows.getLast? = some r →
      f ∈ files → f.versionID = r.versionID → DownSpec files db (none, db.rollBack f)

structure Goose where
  up : Dir → Database → Option GoError × Database
  upByOne : Dir → Database → Option GoError × Database
  down : Dir → Database → Option GoError × Database
  up_spec {path d files} (db : Database) : collectSQLFiles path d = .ok files →
    UpSpec files db (up d db)
  upByOne_spec {path d files} (db : Database) : collectSQLFiles path d = .ok files →
    UpByOneSpec files db (upByOne d db)
  down_spec {path d files} (db : Database) : collectSQLFiles path d = .ok files →
    DownSpec files db (down d db)

/-! ## Commands -/

section

variable (g : Goose) (cat : MigrationCategory)

def upVersions : List Dir → ℕ → Database → (ℕ × Option GoError) × Database
  | [], applied, db => ((applied, none), db)
  | d :: ds, applied, db =>
    match g.up d db with
    | (some err, db) => ((applied, some (.wrap (cat.name ++ "/" ++ d.label) err)), db)
    | (none, db) => upVersions ds (applied + 1) db

def migrateUp (t : Tree) (db : Database) : (ℕ × Option GoError) × Database :=
  if hasRootSQL t then
    match g.up t.root db with
    | (some err, db) => ((0, some (.wrap (cat.name ++ "/ (root)") err)), db)
    | (none, db) => upVersions g cat t.versions 1 db
  else upVersions g cat t.versions 0 db

/-- `strings.Contains(text, "no migrations")`. -/
def saysNoMigrations (text : String) : Bool := "no migrations".toList <:+: text.toList

def upByOneFrom : List Dir → Database → Option GoError × Database
  | [], db => (some (.external ("nothing to apply in " ++ cat.name ++ "/")), db)
  | d :: ds, db =>
    match g.upByOne d db with
    | (none, db) => (none, db)
    | (some err, db) =>
      if saysNoMigrations err.text ∨ err = errNoNextVersion then upByOneFrom ds db
      else (some (.wrap (dirPath cat d) err), db)

def migrateUpByOne (t : Tree) (db : Database) : Option GoError × Database :=
  upByOneFrom g cat t.dirs db

/-- Whether `MigrateDown` stops its search at a directory. -/
def holdsVersion (current : ℕ) (d : Dir) : Bool :=
  d.names.any fun name => isSQL name && parseVersionID name == some current

def migrateDown (t : Tree) (db : Database) : Option GoError × Database :=
  let current := currentVersion db
  if current = 0 then (some (.external "nothing to rollback (current version = 0)"), db)
  else match t.dirs.find? (holdsVersion current) with
    | some d => g.down d db
    | none =>
      (some (.external s!"rollback target version_id {current} not found in any migration dir"),
        db)

end

structure MigrationStatus where
  version : String
  filename : String
  versionID : ℕ
  applied : Bool
  deriving DecidableEq

def status (cat : MigrationCategory) (t : Tree) (db : Database) :
    Except GoError (List MigrationStatus) := do
  let applied := loadAppliedVersionIDs db
  let files ← walkMigrationFiles cat t
  return files.map fun f => ⟨f.version, f.filename, f.versionID, f.versionID ∈ applied⟩

/-- The set of applied versions is read once, before the loop. -/
def baseline (cat : MigrationCategory) (t : Tree) (db : Database) :
    (ℕ × Option GoError) × Database :=
  let db : Database := { db with versionTable := some db.rows }
  match walkMigrationFiles cat t with
  | .error err => ((0, some err), db)
  | .ok files =>
    let marked := files.filter fun f => f.versionID ∉ loadAppliedVersionIDs db
    ((marked.length, none), { db with versionTable := some (db.rows ++ marked.map rowOf) })

end FutureWas.Migrations
