import FutureWas.Effect.Program
import FutureWas.Effect.Interleaving
import FutureWas.Effect.Reordering
import FutureWas.Effect.Series
import FutureWas.Effect.Sections
import FutureWas.Collections.Loops
import FutureWas.Collections.Dictionary
import FutureWas.Collections.Text
import FutureWas.Collections.Paths
import FutureWas.Collections.Disk
import FutureWas.Collections.RunningSums
import FutureWas.Collections.Entries
import FutureWas.Collections.Json
import FutureWas.Collections.Calendar
import FutureWas.Model.Rows
import FutureWas.Model.PotentialMap
import FutureWas.Model.CardJson
import FutureWas.Model.Errcode
import FutureWas.Model.Design
import FutureWas.Model.World
import FutureWas.Model.Uow
import FutureWas.Model.Service
import FutureWas.Model.Dispatch
import FutureWas.Model.Sample
import FutureWas.Model.Locks
import FutureWas.Model.Migrations
import FutureWas.Model.VersionTable
import FutureWas.Model.MigrationFiles
import FutureWas.Model.Clock
import FutureWas.Model.ShardPool
import FutureWas.Model.Syncer
import FutureWas.Model.Encoding
import FutureWas.Model.Excel
import FutureWas.ActiveVersions
import FutureWas.UowRules
import FutureWas.LockFencing
import FutureWas.Cancellation
import FutureWas.OneAccount
import FutureWas.FailedLogin
import FutureWas.InitialGrant
import FutureWas.LockSafety
import FutureWas.Commit
import FutureWas.Routing
import FutureWas.Invalidation
import FutureWas.ServiceRules
import FutureWas.Tenancy
import FutureWas.Requests
import FutureWas.Isolation
import FutureWas.Authentication
import FutureWas.Migrations
import FutureWas.Baseline
import FutureWas.ReleaseOrder
import FutureWas.MigrationTrees
import FutureWas.CreatedFiles
import FutureWas.Template
import FutureWas.ClockOffset
import FutureWas.ShardChoice
import FutureWas.PotentialOrder
import FutureWas.CardRoundTrip
import FutureWas.Timestamps
import FutureWas.MigrationSteps
import FutureWas.Reload
import FutureWas.RetainedVersions
import FutureWas.MissingDatabase
import FutureWas.GroupedCommit
import FutureWas.Ledger
import FutureWas.Sessions.Models
import FutureWas.Sessions.Calls
import FutureWas.Sessions.Commit
import FutureWas.Sessions.StoredLists
import FutureWas.Sessions.SyncedRows
import FutureWas.GeneratedStructs
import FutureWas.FieldNames
import FutureWas.FilledFields
import FutureWas.ToolAgreement
import FutureWas.DesignTables
import FutureWas.CatalogLoading
import FutureWas.ReloadOutcome
import FutureWas.Coherence.Tracking
import FutureWas.Coherence.Commit
import FutureWas.Coherence.Requests
import FutureWas.Coherence.Beside
import FutureWas.Coherence.Sections
import FutureWas.Coherence.Holdings
import FutureWas.Coherence.Serving
