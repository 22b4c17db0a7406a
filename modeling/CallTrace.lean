import CallTrace.Analyst
import CallTrace.Analyst.Chat
import CallTrace.Analyst.Tools
import CallTrace.Cache.DurableTier
import CallTrace.Cache.SessionTier
import CallTrace.Cache.Store
import CallTrace.Cache.Table
import CallTrace.Clock
import CallTrace.CommandLine.Options
import CallTrace.CommandLine.Run
import CallTrace.CommandLine.Switches
import CallTrace.Digest.Sha256
import CallTrace.Failure
import CallTrace.Files.Path
import CallTrace.Files.Tree
import CallTrace.Json.Reader
import CallTrace.Json.Record
import CallTrace.Json.Value
import CallTrace.Json.Writer
import CallTrace.LogLevel
import CallTrace.Main
import CallTrace.Method.Analysis
import CallTrace.Method.Key
import CallTrace.Method.Record
import CallTrace.Number.Decimal
import CallTrace.Number.Double
import CallTrace.Number.Written
import CallTrace.Oracle.Chat
import CallTrace.Oracle.Texts
import CallTrace.Reply.Absence
import CallTrace.Reply.Citation
import CallTrace.Reply.Classification
import CallTrace.Reply.Line
import CallTrace.Reply.Parse
import CallTrace.Reply.Section
import CallTrace.Request
import CallTrace.Request.Record
import CallTrace.Run.Describe
import CallTrace.Run.Expand
import CallTrace.Run.Layers
import CallTrace.Run.Limits
import CallTrace.Run.Listen
import CallTrace.Run.Session
import CallTrace.Run.Surroundings
import CallTrace.Settings
import CallTrace.Slice
import CallTrace.Source.Declaration
import CallTrace.Source.File
import CallTrace.Source.Fingerprint
import CallTrace.Source.Language
import CallTrace.Source.Resolve
import CallTrace.Source.Supertypes
import CallTrace.Source.TypeName
import CallTrace.Source.Workspace
import CallTrace.Telemetry
import CallTrace.Text.Blank
import CallTrace.Text.Case
import CallTrace.Text.Lines
import CallTrace.Text.Pattern
import CallTrace.Text.Qualified
import CallTrace.Text.Quoted
import CallTrace.Text.Ranges
import CallTrace.Text.Utf8
import CallTrace.Text.Word
import CallTrace.Trace.Assembly
import CallTrace.Trace.Mark
import CallTrace.Trace.Markdown
import CallTrace.Trace.Record
import CallTrace.Trace.Registry
import CallTrace.Trace.Stats
import CallTrace.Trace.Step
import CallTrace.Proofs.Action
import CallTrace.Proofs.Analyst.Cancelled
import CallTrace.Proofs.Analyst.Contained
import CallTrace.Proofs.Analyst.Lifetime
import CallTrace.Proofs.Cache.Admission
import CallTrace.Proofs.Cache.Document
import CallTrace.Proofs.Cache.Entries
import CallTrace.Proofs.Cache.Eviction
import CallTrace.Proofs.Cache.Exact
import CallTrace.Proofs.Cache.Faults
import CallTrace.Proofs.Cache.Lasting
import CallTrace.Proofs.Cache.Loading
import CallTrace.Proofs.Cache.Newest
import CallTrace.Proofs.Cache.Restart
import CallTrace.Proofs.Cache.Retention
import CallTrace.Proofs.Cache.SessionTier
import CallTrace.Proofs.Cache.Table
import CallTrace.Proofs.Cache.TwoTiers
import CallTrace.Proofs.Cache.Uses
import CallTrace.Proofs.Distinct
import CallTrace.Proofs.Files.Contents
import CallTrace.Proofs.Files.Saving
import CallTrace.Proofs.Json.Leaves
import CallTrace.Proofs.Json.Legible
import CallTrace.Proofs.Json.Proper
import CallTrace.Proofs.Json.RoundTrip
import CallTrace.Proofs.Number.ReadBack
import CallTrace.Proofs.Number.Rounding
import CallTrace.Proofs.Number.Written
import CallTrace.Proofs.Reply.Citation
import CallTrace.Proofs.Reply.Denial
import CallTrace.Proofs.Reply.Dropped
import CallTrace.Proofs.Reply.Entries
import CallTrace.Proofs.Reply.Grammar
import CallTrace.Proofs.Reply.Labels
import CallTrace.Proofs.Reply.Outcome
import CallTrace.Proofs.Reply.Presence
import CallTrace.Proofs.Reply.RoundTrip
import CallTrace.Proofs.Reply.Sections
import CallTrace.Proofs.Reply.Separator
import CallTrace.Proofs.Reply.Targets
import CallTrace.Proofs.Reply.Tidy
import CallTrace.Proofs.Reply.Verdict
import CallTrace.Proofs.Reply.Written
import CallTrace.Proofs.Request
import CallTrace.Proofs.Run.Again
import CallTrace.Proofs.Run.Bare
import CallTrace.Proofs.Run.Brackets
import CallTrace.Proofs.Run.Budget
import CallTrace.Proofs.Run.Calm
import CallTrace.Proofs.Run.Cancelled
import CallTrace.Proofs.Run.Carried
import CallTrace.Proofs.Run.Closure
import CallTrace.Proofs.Run.Contained
import CallTrace.Proofs.Run.Course
import CallTrace.Proofs.Run.Deeds
import CallTrace.Proofs.Run.Deeper
import CallTrace.Proofs.Run.Describe
import CallTrace.Proofs.Run.Enriched
import CallTrace.Proofs.Run.Faithful
import CallTrace.Proofs.Run.Fixed
import CallTrace.Proofs.Run.Growth
import CallTrace.Proofs.Run.Holdings
import CallTrace.Proofs.Run.InStep
import CallTrace.Proofs.Run.Inherited
import CallTrace.Proofs.Run.Lasting
import CallTrace.Proofs.Run.Layers
import CallTrace.Proofs.Run.Lines
import CallTrace.Proofs.Run.Listen
import CallTrace.Proofs.Run.Moves
import CallTrace.Proofs.Run.Provenance
import CallTrace.Proofs.Run.Reachable
import CallTrace.Proofs.Run.Replied
import CallTrace.Proofs.Run.Shared
import CallTrace.Proofs.Run.Sound
import CallTrace.Proofs.Run.Steady
import CallTrace.Proofs.Run.Suggestions
import CallTrace.Proofs.Run.Targets
import CallTrace.Proofs.Run.Tour
import CallTrace.Proofs.Run.Transparent
import CallTrace.Proofs.Run.Walkthrough
import CallTrace.Proofs.Source.BaseLists
import CallTrace.Proofs.Source.Clauses
import CallTrace.Proofs.Source.Completeness
import CallTrace.Proofs.Source.Declared
import CallTrace.Proofs.Source.Generics
import CallTrace.Proofs.Source.Names
import CallTrace.Proofs.Source.Resolve
import CallTrace.Proofs.Source.Soundness
import CallTrace.Proofs.Text.Blank
import CallTrace.Proofs.Text.Lines
import CallTrace.Proofs.Text.Pattern
import CallTrace.Proofs.Text.Qualified
import CallTrace.Proofs.Text.Runs
import CallTrace.Proofs.Text.Utf8
import CallTrace.Proofs.Trace.Emission
import CallTrace.Proofs.Trace.Fuel
import CallTrace.Proofs.Trace.Registry
import CallTrace.Proofs.Trace.Timeless
import CallTrace.Proofs.Trace.Walkthrough
import CallTrace.Proofs.Trace.WellFormed
import CallTrace.Proofs.Source.Groups
import CallTrace.Proofs.Cache.Counted
import CallTrace.Proofs.Text.Case
import CallTrace.Proofs.Source.Workspace
import CallTrace.Proofs.Run.Abreast
import CallTrace.Proofs.Run.Uncached
import CallTrace.Proofs.Analyst.Uncached
