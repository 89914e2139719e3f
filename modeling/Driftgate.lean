import Driftgate.Lib.Transition
import Driftgate.Lib.Progress
import Driftgate.Lib.Linearize
import Driftgate.Lib.ReadCommitted
import Driftgate.Lib.LockOrder
import Driftgate.Lib.Completion
import Driftgate.Lib.Alone
import Driftgate.Lib.SideBySide
import Driftgate.Lib.Whereabouts
import Driftgate.Lib.Ownership
import Driftgate.Lib.SingleUse
import Driftgate.Lib.VersionLog
import Driftgate.Lib.LastBinding
import Driftgate.Lib.PrefixCode
import Driftgate.Lib.Accumulators
import Driftgate.Lib.Occurrence
import Driftgate.Lib.AdvisoryLock
import Driftgate.Lib.Exceptions
import Driftgate.Lib.Windows
import Driftgate.Lib.Nesting
import Driftgate.Lib.Sessions
import Driftgate.Schema.Payload
import Driftgate.Schema.Canonical
import Driftgate.Schema.Classifier
import Driftgate.Schema.Shown
import Driftgate.Schema.Jsonb
import Driftgate.Schema.Verdict
import Driftgate.Schema.LostLeaf
import Driftgate.Schema.Nulls
import Driftgate.Schema.Shape
import Driftgate.Schema.EmptyDiff
import Driftgate.Schema.Composition
import Driftgate.Core.Engine
import Driftgate.Core.TwoEngines
import Driftgate.Runtime.Tables
import Driftgate.Runtime.Webhook
import Driftgate.Runtime.Registry
import Driftgate.Runtime.Subscriptions
import Driftgate.Runtime.Service
import Driftgate.Runtime.OutboxWorker
import Driftgate.Runtime.System
import Driftgate.Runtime.VersionChain
import Driftgate.Runtime.RegistryRuns
import Driftgate.Runtime.DriftReport
import Driftgate.Runtime.Rows
import Driftgate.Runtime.Outbox
import Driftgate.Runtime.Delivered
import Driftgate.Runtime.DeliveryRuns
import Driftgate.Runtime.OrphanedRows
import Driftgate.Runtime.Crashes
import Driftgate.Runtime.Announcements
import Driftgate.Runtime.Notifications
import Driftgate.Runtime.VersionRows
import Driftgate.Runtime.SkippedVersions
import Driftgate.Runtime.Fingerprint
import Driftgate.Runtime.PythonText
import Driftgate.Runtime.StoredSchemas
import Driftgate.Runtime.DriftSummary
import Driftgate.Runtime.DeadLetters
import Driftgate.Runtime.EnqueuedRows
import Driftgate.Runtime.RowLifecycle
import Driftgate.Runtime.Names
import Driftgate.Runtime.DlqReplay
import Driftgate.Runtime.GivenUp
import Driftgate.Runtime.DriftEventDlq
import Driftgate.Runtime.EventReplay
import Driftgate.Runtime.Acknowledged
import Driftgate.Runtime.SingleAttempt
import Driftgate.Runtime.AtomicRegistry
import Driftgate.Runtime.Repeats
import Driftgate.Runtime.LockRanks
import Driftgate.Runtime.Completion
import Driftgate.Runtime.FirstAttempt
import Driftgate.Gateway.Server
import Driftgate.Gateway.Idempotency
import Driftgate.Gateway.Journal
import Driftgate.Monitor.SchemaInfer
import Driftgate.Monitor.Observations
import Driftgate.Monitor.Profile
import Driftgate.Monitor.SchemaHash
import Driftgate.Monitor.ElementOrder
import Driftgate.Monitor.SchemaDiff
import Driftgate.Monitor.DiffLaws
import Driftgate.Monitor.HiddenChanges
import Driftgate.Monitor.Values
import Driftgate.Monitor.Required
import Driftgate.Monitor.RootArray
import Driftgate.Monitor.JsonText
import Driftgate.Monitor.Normalize
import Driftgate.Monitor.NormalizedSchema
import Driftgate.Monitor.Runner
import Driftgate.Monitor.RegistryLoader
import Driftgate.Monitor.DiffTrail
import Driftgate.Monitor.Retention
import Driftgate.Monitor.MonitorRun
import Driftgate.Monitor.MonitorLock
import Driftgate.Monitor.RunRecord
import Driftgate.Monitor.RunningId
import Driftgate.Monitor.Changelog
import Driftgate.Monitor.ChangelogCache
import Driftgate.Scripts.PySets
import Driftgate.Scripts.OpenapiDiff
import Driftgate.Scripts.DocumentForms
import Driftgate.Scripts.ApprovedChain
import Driftgate.Scripts.Migrations
import Driftgate.Review.PyText
import Driftgate.Review.Evidence
import Driftgate.Review.Verdict
import Driftgate.Review.Heuristic
import Driftgate.Review.Grounding
import Driftgate.Runtime.CallRecords
import Driftgate.Runtime.NotifiedOnce
import Driftgate.Runtime.Drained
import Driftgate.Runtime.EndToEnd
import Driftgate.Review.Records
import Driftgate.Core.Parser
import Driftgate.Core.Rearranged
import Driftgate.Core.Ambiguity
import Driftgate.Core.FirstStored
import Driftgate.Core.Snapshots
import Driftgate.Core.Registration
import Driftgate.Core.RegisteredOnce
import Driftgate.Core.Submission
import Driftgate.Core.SnapshotRuns
import Driftgate.Core.Baseline
import Driftgate.Core.BaselineLoss
import Driftgate.Core.TwoRegistries
import Driftgate.Review.LoggedViolations
import Driftgate.Events.Failures
import Driftgate.Review.Collect
import Driftgate.Review.History
import Driftgate.Review.Isolation
import Driftgate.Review.SeverityOrder
import Driftgate.Review.Confident
