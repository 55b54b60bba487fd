import FutureWas.Model.Migrations
import FutureWas.Effect.Program

/-!
# The version table

`Baseline`, `Status` and `CountPending` of `sql/migrations/migrator.go`, with one call for
each statement they send. A statement that fails may have taken effect all the same, and a
process that is stopped between two statements leaves what a failure of the next one leaves.
-/

set_option autoImplicit false

namespace FutureWas.VersionTable

open Effect Migrations

/-- A row of `goose_db_version`, without its `tstamp`. -/
structure Row where
  id : ℤ
  versionID : ℤ
  isApplied : Bool
  deriving DecidableEq

structure Table where
  rows : List Row
  nodup : (rows.map Row.id).Nodup

namespace Table

def ids (t : Table) : List ℤ := t.rows.map Row.id

theorem nodup_insert (t : Table) {r : Row} (h : r.id ∉ t.ids) :
    ((t.rows ++ [r]).map Row.id).Nodup := by
  rw [List.map_append, List.map_singleton]
  exact List.nodup_append.mpr ⟨t.nodup, List.nodup_singleton _, by
    intro a ha b hb hab
    rw [List.mem_singleton] at hb
    rw [hab, hb] at ha
    exact h ha⟩

def empty : Table := ⟨[], List.nodup_nil⟩

def insert (t : Table) (r : Row) (h : r.id ∉ t.ids) : Table := ⟨t.rows ++ [r], t.nodup_insert h⟩

def initialRow : Row := ⟨1, 0, true⟩

/-- `INSERT IGNORE` of the initial row: the key decides, not the version. -/
def seed (t : Table) : Table :=
  if h : initialRow.id ∈ t.ids then t else t.insert initialRow h

/-- `SELECT version_id FROM goose_db_version WHERE is_applied = true`. -/
def appliedIDs (t : Table) : List ℤ := (t.rows.filter Row.isApplied).map Row.versionID

end Table

structure Server where
  table : Option Table
  executed : List Execution

namespace Server

def rows (w : Server) : List Row := (w.table.map Table.rows).getD []

def ids (w : Server) : List ℤ := w.rows.map Row.id

def applied (w : Server) : Set ℤ := {v | ∃ r ∈ w.rows, r.isApplied = true ∧ r.versionID = v}

def createTable (w : Server) : Server := { w with table := some (w.table.getD .empty) }

/-- What `goose` reads of a row. The version id of a file is never negative. -/
def versionRow (r : Row) : Option VersionRow :=
  if 0 ≤ r.versionID then some ⟨r.versionID.toNat, none⟩ else none

def view (w : Server) : Database :=
  ⟨w.table.map fun t => t.rows.filterMap versionRow, w.executed⟩

end Server

/-! ## Statements -/

inductive Statement
  | createTable
  | seed
  | selectApplied
  | markApplied (versionID : ℤ)

/-- `queryFailed` is the error of `QueryContext`, `scanFailed` one met while reading rows. -/
inductive Selected
  | queryFailed (err : GoError)
  | scanFailed (err : GoError)
  | rows (versionIDs : List ℤ)

abbrev Statement.Answer : Statement → Type
  | .createTable => Option GoError
  | .seed => Option GoError
  | .selectApplied => Selected
  | .markApplied _ => Option GoError

def Executes : Statement → Server → Server → Prop
  | .createTable, w, w' => w' = w.createTable
  | .seed, w, w' => ∃ t, w.table = some t ∧ w' = { w with table := some t.seed }
  | .selectApplied, w, w' => w' = w
  | .markApplied v, w, w' => ∃ t id, ∃ h : (⟨id, v, true⟩ : Row).id ∉ t.ids,
      w.table = some t ∧ w' = { w with table := some (t.insert ⟨id, v, true⟩ h) }

def Reports (s : Statement) (err : Option GoError) (w w' : Server) : Prop :=
  Executes s w w' ∨ err.isSome = true ∧ w' = w

def step : (s : Statement) → Server → s.Answer → Server → Prop
  | .createTable, w, err, w' => Reports .createTable err w w'
  | .seed, w, err, w' => Reports .seed err w w'
  | .selectApplied, w, answer, w' =>
    w' = w ∧ ∀ vs, answer = .rows vs → ∃ t, w.table = some t ∧ vs = t.appliedIDs
  | .markApplied v, w, err, w' => Reports (.markApplied v) err w w'

def served : (s : Statement) → s.Answer → Bool
  | .createTable, err => err.isNone
  | .seed, err => err.isNone
  | .selectApplied, .rows _ => true
  | .selectApplied, _ => false
  | .markApplied _, err => err.isNone

/-! ## Commands -/

abbrev Statements (α : Type) : Type := Prog Statement.Answer Empty α

/-- `strings.Contains(err.Error(), "1146")`. -/
def isTableNotFound (err : GoError) : Bool := "1146".toList <:+: err.text.toList

def loadAppliedVersionIDs : Statements (Except GoError (List ℤ)) :=
  .call .selectApplied fun
    | .queryFailed err => .ret (if isTableNotFound err then .ok [] else .error err)
    | .scanFailed err => .ret (.error err)
    | .rows vs => .ret (.ok vs)

section

variable (cat : MigrationCategory) (t : Tree)

def status : Statements (Except GoError (List MigrationStatus)) :=
  loadAppliedVersionIDs.bind fun
    | .error err => .ret (.error err)
    | .ok applied =>
      match walkMigrationFiles cat t with
      | .error err => .ret (.error err)
      | .ok files => .ret (.ok (files.map fun f =>
          ⟨f.version, f.filename, f.versionID, decide ((f.versionID : ℤ) ∈ applied)⟩))

def countPending : Statements (ℕ × Option GoError) :=
  (status cat t).bind fun
    | .error err => .ret (0, some err)
    | .ok st => .ret (st.countP fun s => ¬ s.applied, none)

/-- The insert loop; `applied` was read once, before it. -/
def markFiles (applied : List ℤ) : List MigrationFile → ℕ → Statements (ℕ × Option GoError)
  | [], marked => .ret (marked, none)
  | f :: fs, marked =>
    if (f.versionID : ℤ) ∈ applied then markFiles applied fs marked
    else .call (.markApplied f.versionID) fun
      | some err => .ret (marked, some (.wrap ("baseline mark " ++ toString f.versionID) err))
      | none => markFiles applied fs (marked + 1)

def baseline : Statements (ℕ × Option GoError) :=
  .call .createTable fun
    | some err => .ret (0, some (.wrap "create goose_db_version" err))
    | none => .call .seed fun
      | some err => .ret (0, some (.wrap "seed goose_db_version" err))
      | none =>
        match walkMigrationFiles cat t with
        | .error err => .ret (0, some err)
        | .ok files => loadAppliedVersionIDs.bind fun
          | .error err => .ret (0, some err)
          | .ok applied => markFiles applied files 0

end
end FutureWas.VersionTable
