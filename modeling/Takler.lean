import Takler.Lib.StepSystem
import Takler.Lib.Directory
import Takler.Lib.Program
import Takler.Lib.Account
import Takler.Checkpoint.CrashSafety
import Takler.Server.TriggerSafety
import Takler.Server.AttemptIdentity
import Takler.Server.LimitSafety
import Takler.Server.Scheduler
import Takler.Core.Requeue
import Takler.Core.Aggregate
import Takler.Server.AggregateStatus
import Takler.Lib.Fallible
import Takler.Lib.KeyedTree
import Takler.Server.AttemptIsolation
import Takler.Server.ChildRejection
import Takler.Checkpoint.Publication
import Takler.Server.ShellRunner
import Takler.Server.FlowScan
import Takler.Live.Objects
import Takler.Live.Binding
import Takler.Live.Replace
import Takler.Live.Lifecycle
import Takler.Core.StatusOutcome
import Takler.Server.StatusOutcome
import Takler.Core.RequeueReturns
import Takler.Core.Climb
import Takler.Core.Swim
import Takler.Lib.Binary64
import Takler.Lib.Calendar
import Takler.Lib.DateText
import Takler.Core.RepeatDates
import Takler.Core.RepeatGrid
import Takler.Checkpoint.Occupancy
import Takler.Checkpoint.LimitReferences
import Takler.Checkpoint.OccupancyAgreement
import Takler.Lib.CodePoints
import Takler.Lib.Interleaved
import Takler.Server.Credentials
import Takler.Server.CredentialSafety
import Takler.Lib.OrderedDict
import Takler.Query.Retention
import Takler.Query.RetentionSafety
import Takler.Query.RetentionRuns
import Takler.Lib.Json
import Takler.Lib.JsonRoundTrip
import Takler.Version.Objects
import Takler.Lib.LinkedForest
import Takler.Linked.Objects
import Takler.Linked.Edits
import Takler.Linked.StatusCalls
import Takler.Linked.StatusCounts
import Takler.Linked.CalendarCache
import Takler.Linked.Generations
import Takler.Query.ChangeJournal
import Takler.Lib.PrefixReduction
import Takler.Query.DeltaPaths
import Takler.Core.Scope
import Takler.Server.FlowWork
import Takler.Artifact.IndexSafety
import Takler.Lib.JsonSize
import Takler.Query.SummaryPages
import Takler.Query.PagePacking
import Takler.Client.Retry
import Takler.Lib.Utf8
import Takler.Tui.TailLines
import Takler.Server.AuditLines
import Takler.Lib.Base64
import Takler.Query.Cursor
import Takler.Core.PathLookup
import Takler.Version.ParameterLookup
import Takler.Definition.Documents
import Takler.Definition.Build
import Takler.Lib.DecimalText
import Takler.Definition.RoundTrip
import Takler.Client.SummaryReceiver
import Takler.Checkpoint.Recovery
