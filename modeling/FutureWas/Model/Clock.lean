import Mathlib.Data.List.MinMax
import Mathlib.Logic.Function.Basic

/-!
# The clock offset

`internal/clock/clock.go`, `POST /admin/clock/jump` in `router/admin.go`, the repository of
`TB_ADD_SERVER_TIME` and the loading of the offset in `main.go`. A jump inserts a row and then
sets the offset, two steps that nothing holds together; any number of jumps are in progress
at once. A restart ends them all.
-/

set_option autoImplicit false

namespace FutureWas.Clock

/-- A row of `TB_ADD_SERVER_TIME`. -/
structure AddServerTime where
  idx : ℕ
  addSecond : Int64
  lastEditUserName : String
  deriving DecidableEq

/-- `time.Second`, in nanoseconds. -/
def second : Int64 := 1000000000

/-- `time.Duration(n) * time.Second`, a product of 64 bits. -/
def seconds (n : Int64) : Int64 := n * second

/-- `SELECT * FROM TB_ADD_SERVER_TIME ORDER BY idx DESC LIMIT 1`. -/
def findLatest (rows : List AddServerTime) : Option AddServerTime :=
  rows.argmax AddServerTime.idx

inductive Phase
  | bound (addSecond : Int64) (user : String)
  | inserted (row : AddServerTime)
  deriving DecidableEq

structure Server (ι : Type) where
  rows : List AddServerTime
  offsetNs : Int64
  requests : ι → Option Phase

/-- How an insert ends: reported as done, rejected, or done but reported as failed. -/
inductive Inserted
  | done (idx : ℕ)
  | failed
  | unreported (idx : ℕ)
  deriving DecidableEq

inductive Event (ι : Type)
  | arrive (i : ι) (addSecond : Int64) (user : String)
  | insert (i : ι) (result : Inserted)
  | set (i : ι)
  | restart (found : Bool)

/-- `main`: the offset starts at zero, and stays there when the lookup fails. -/
def boot {ι : Type} (rows : List AddServerTime) (found : Bool) : Server ι where
  rows := rows
  offsetNs :=
    match found, findLatest rows with
    | true, some m => seconds m.addSecond
    | _, _ => 0
  requests _ := none

section

variable {ι : Type} [DecidableEq ι]

namespace Server

variable (s : Server ι)

def answer (i : ι) : Server ι := { s with requests := Function.update s.requests i none }

def enter (i : ι) (phase : Phase) : Server ι :=
  { s with requests := Function.update s.requests i (some phase) }

def addRow (row : AddServerTime) : Server ι := { s with rows := s.rows ++ [row] }

def setOffset (d : Int64) : Server ι := { s with offsetNs := d }

def IsNew (idx : ℕ) : Prop := ∀ row ∈ s.rows, row.idx < idx

instance (idx : ℕ) : Decidable (s.IsNew idx) :=
  inferInstanceAs (Decidable (∀ row ∈ s.rows, row.idx < idx))

end Server

/-- One occurrence, when it is possible. A request without a user is answered at once. -/
def step (s : Server ι) : Event ι → Option (Server ι)
  | .arrive i addSecond user =>
    if s.requests i ≠ none then none
    else if user = "" then some s
    else some (s.enter i (.bound addSecond user))
  | .insert i result =>
    match s.requests i, result with
    | some (.bound addSecond user), .done idx =>
      if s.IsNew idx then
        some ((s.addRow ⟨idx, addSecond, user⟩).enter i (.inserted ⟨idx, addSecond, user⟩))
      else none
    | some (.bound _ _), .failed => some (s.answer i)
    | some (.bound addSecond user), .unreported idx =>
      if s.IsNew idx then some ((s.addRow ⟨idx, addSecond, user⟩).answer i) else none
    | _, _ => none
  | .set i =>
    match s.requests i with
    | some (.inserted row) => some ((s.setOffset (seconds row.addSecond)).answer i)
    | _ => none
  | .restart found => some (boot s.rows found)

def run (s : Server ι) : List (Event ι) → Option (Server ι)
  | [] => some s
  | e :: es => (step s e).bind fun s => run s es

end
end FutureWas.Clock
