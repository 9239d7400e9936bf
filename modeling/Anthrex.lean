import Anthrex.Bisect.Engine
import Anthrex.Bisect.Search
import Anthrex.Conversation.Bound
import Anthrex.Conversation.Client
import Anthrex.Conversation.Deltas
import Anthrex.Conversation.Encoding
import Anthrex.Conversation.Wire
import Anthrex.Data.Base64
import Anthrex.Data.Cuts
import Anthrex.Data.Files
import Anthrex.Data.Graph
import Anthrex.Data.Kernel
import Anthrex.Data.Ladder
import Anthrex.Data.Lines
import Anthrex.Data.Lists
import Anthrex.Data.Longest
import Anthrex.Data.Runs
import Anthrex.Data.SortedMap
import Anthrex.Data.Sorting
import Anthrex.Data.Spans
import Anthrex.Data.Text
import Anthrex.Data.Utf8
import Anthrex.Data.Wildcard
import Anthrex.Data.Worklist
import Anthrex.Delivery.Quote
import Anthrex.Design.InlineCode
import Anthrex.Engine.Actions
import Anthrex.Engine.Charge
import Anthrex.Engine.Clock
import Anthrex.Engine.Early
import Anthrex.Engine.Failover
import Anthrex.Engine.Pause
import Anthrex.Engine.Rungs
import Anthrex.Engine.Runtimes
import Anthrex.Engine.Schedule
import Anthrex.Git.Root
import Anthrex.Git.Schedule
import Anthrex.Globs
import Anthrex.Globs.Area
import Anthrex.Globs.Covering
import Anthrex.Globs.Overlap
import Anthrex.Globs.Protected
import Anthrex.History.Effective
import Anthrex.History.Passes
import Anthrex.History.Record
import Anthrex.History.Reverts
import Anthrex.Journal
import Anthrex.Lessons.Compact
import Anthrex.Lessons.Fold
import Anthrex.Lessons.Known
import Anthrex.Lessons.Lesson
import Anthrex.Lessons.Oracle
import Anthrex.Log.Rotation
import Anthrex.Manager.Persist
import Anthrex.Manager.Restore
import Anthrex.Plan.Areas
import Anthrex.Plan.Circles
import Anthrex.Plan.Cycles
import Anthrex.Plan.Edits
import Anthrex.Plan.Held
import Anthrex.Plan.Implicit
import Anthrex.Plan.Kept
import Anthrex.Plan.Messages
import Anthrex.Plan.Moves
import Anthrex.Plan.Provenance
import Anthrex.Plan.Resolve
import Anthrex.Plan.Rules
import Anthrex.Plan.Tarjan
import Anthrex.Plan.Threads
import Anthrex.Plan.Valid
import Anthrex.Plan.WellFormed
import Anthrex.Quota.Book
import Anthrex.Quota.Rule
import Anthrex.Redact.Basic
import Anthrex.Report.Fence
import Anthrex.Report.Prose
import Anthrex.Run.Escalation
import Anthrex.Run.Model
import Anthrex.Run.Models
import Anthrex.Run.Routes
import Anthrex.Run.SafeText
import Anthrex.Run.Task
import Anthrex.Salvage.Apart
import Anthrex.Salvage.Removals
import Anthrex.Scout.Machine
import Anthrex.Scout.Service
import Anthrex.Slots
import Anthrex.TargetPool.Book
import Anthrex.TargetPool.Crash
import Anthrex.TargetPool.Ledger
import Anthrex.TargetPool.Table
import Anthrex.Tiers.Affected
import Anthrex.Tiers.Inputs
import Anthrex.Tiers.Stale
import Anthrex.Transcript.Reader
