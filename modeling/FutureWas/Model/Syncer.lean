import FutureWas.Model.Design
import Mathlib.Data.List.Sort
import Mathlib.Logic.Function.Basic

/-!
# Reloads over Pub/Sub

`Trigger` and `subscribe` of `design.Syncer` and `resource.Syncer`. The two follow one
protocol and differ in the table they read and in what they compute from it (`Syncer.load`).

A load reads its table, computes a new value and replaces the store of its server; other steps
may come in between. A server runs any number of triggers at a time and one subscriber, which
handles one message after the other. Loads and publishes succeed, and a published message
reaches every server.

An `Edition` is the contents of the table between two edits. Its number, and the number kept in
`computedFrom`, are no data of the servers: they say which contents a load has read.
-/

set_option autoImplicit false

namespace FutureWas

/-! ## What is loaded -/

/-- `FindActiveOrderedByServerVersion`; rows of one server version keep their order. -/
def findActiveOrderedByServerVersion (table : List Version) : List Version :=
  (table.filter fun v => v.isActive = 1).insertionSort fun a b => b.serverVersion ≤ a.serverVersion

structure ServerMaintenance where
  idx : UInt64
  startTime : UInt32
  endTime : UInt32
  msg : String
  maintenanceVersion : UInt32
  useFlag : UInt8
  deriving DecidableEq

/-- `ServerMaintenanceRepository.FindActive`. -/
def findActive (table : List ServerMaintenance) : List ServerMaintenance :=
  (table.filter fun m => m.useFlag = 1).insertionSort fun a b =>
    b.maintenanceVersion ≤ a.maintenanceVersion

structure Snapshot where
  maintenance : List ServerMaintenance
  deriving DecidableEq

/-- `load rows store` is the store after `Replace`, which takes nothing from the old one. -/
structure Syncer (Row Store : Type) where
  load : List Row → Store → Except Failure Store
  replaces : ∀ rows s s', load rows s = load rows s'

def designSyncer (cdn : Cdn) : Syncer Version DesignStore where
  load rows s := loadActive (load cdn) (.ok (findActiveOrderedByServerVersion rows)) s
  replaces _ _ _ := rfl

def resourceSyncer : Syncer ServerMaintenance Snapshot where
  load rows _ := .ok ⟨findActive rows⟩
  replaces _ _ _ := rfl

/-! ## Servers -/

namespace Reload

/-- `NewInstanceID` gives every process its own id, or none. -/
structure Fleet (ι : Type) where
  selfID : ι → String
  distinct : ∀ i j, selfID i = selfID j → selfID i ≠ "" → i = j

structure Edition (Row : Type) where
  number : ℕ
  rows : List Row

inductive TriggerPhase (ι Row : Type)
  | idle
  | begun (i : ι)
  | read (i : ι) (ed : Edition Row)
  | replaced (i : ι)
  | done

inductive SubscriberPhase (Row : Type)
  | waiting
  | begun
  | read (ed : Edition Row)

/-- `inFlight i` holds the payloads that server `i` has yet to receive. -/
structure System (ι κ Row Store : Type) where
  table : Edition Row
  store : ι → Store
  computedFrom : ι → Option ℕ
  trigger : κ → TriggerPhase ι Row
  subscriber : ι → SubscriberPhase Row
  inFlight : ι → List String

inductive Action (ι κ Row : Type)
  | edit (rows : List Row)
  | trigger (k : κ) (i : ι)
  | read (k : κ)
  | replace (k : κ)
  | publish (k : κ)
  | receive (i : ι)
  | subscriberRead (i : ι)
  | subscriberReplace (i : ι)

section

variable {ι κ Row Store : Type} [DecidableEq ι] [DecidableEq κ]

namespace System

def setTrigger (s : System ι κ Row Store) (k : κ) (p : TriggerPhase ι Row) :
    System ι κ Row Store :=
  { s with trigger := Function.update s.trigger k p }

def setSubscriber (s : System ι κ Row Store) (i : ι) (p : SubscriberPhase Row) :
    System ι κ Row Store :=
  { s with subscriber := Function.update s.subscriber i p }

def setInFlight (s : System ι κ Row Store) (i : ι) (ms : List String) : System ι κ Row Store :=
  { s with inFlight := Function.update s.inFlight i ms }

def replaceStore (s : System ι κ Row Store) (i : ι) (v : Store) (n : ℕ) :
    System ι κ Row Store :=
  { s with
    store := Function.update s.store i v
    computedFrom := Function.update s.computedFrom i (some n) }

def broadcast (s : System ι κ Row Store) (payload : String) : System ι κ Row Store :=
  { s with inFlight := fun i => s.inFlight i ++ [payload] }

end System

/-- `msg.Payload == s.selfID && s.selfID != ""`. -/
def Fleet.skips (fleet : Fleet ι) (i : ι) (payload : String) : Bool :=
  payload == fleet.selfID i && fleet.selfID i != ""

inductive Step (fleet : Fleet ι) (S : Syncer Row Store) :
    System ι κ Row Store → Action ι κ Row → System ι κ Row Store → Prop
  | edit {s} (rows : List Row) :
      Step fleet S s (.edit rows) { s with table := ⟨s.table.number + 1, rows⟩ }
  | trigger {s k} (i : ι) : s.trigger k = .idle →
      Step fleet S s (.trigger k i) (s.setTrigger k (.begun i))
  | read {s k i} : s.trigger k = .begun i →
      Step fleet S s (.read k) (s.setTrigger k (.read i s.table))
  | replace {s k i ed v} : s.trigger k = .read i ed → S.load ed.rows (s.store i) = .ok v →
      Step fleet S s (.replace k) ((s.replaceStore i v ed.number).setTrigger k (.replaced i))
  | publish {s k i} : s.trigger k = .replaced i →
      Step fleet S s (.publish k) ((s.broadcast (fleet.selfID i)).setTrigger k .done)
  | skip {s i payload before after} : s.subscriber i = .waiting →
      s.inFlight i = before ++ payload :: after → fleet.skips i payload = true →
      Step fleet S s (.receive i) (s.setInFlight i (before ++ after))
  | receive {s i payload before after} : s.subscriber i = .waiting →
      s.inFlight i = before ++ payload :: after → fleet.skips i payload = false →
      Step fleet S s (.receive i)
        ((s.setInFlight i (before ++ after)).setSubscriber i .begun)
  | subscriberRead {s i} : s.subscriber i = .begun →
      Step fleet S s (.subscriberRead i) (s.setSubscriber i (.read s.table))
  | subscriberReplace {s i ed v} : s.subscriber i = .read ed →
      S.load ed.rows (s.store i) = .ok v →
      Step fleet S s (.subscriberReplace i)
        ((s.replaceStore i v ed.number).setSubscriber i .waiting)

inductive Run (fleet : Fleet ι) (S : Syncer Row Store)
    (allowed : System ι κ Row Store → Action ι κ Row → Prop) :
    System ι κ Row Store → List (Action ι κ Row) → System ι κ Row Store → Prop
  | nil {s} : Run fleet S allowed s [] s
  | cons {s a s₁ acts s'} : allowed s a → Step fleet S s a s₁ → Run fleet S allowed s₁ acts s' →
      Run fleet S allowed s (a :: acts) s'

end

end Reload
end FutureWas
