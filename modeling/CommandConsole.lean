import CommandConsole.Text.Blank
import CommandConsole.Text.Bytes
import CommandConsole.Text.CaseTable
import CommandConsole.Text.Json
import CommandConsole.Text.Lowercase
import CommandConsole.Text.Split
import CommandConsole.Decimal.Binary
import CommandConsole.Decimal.Digits
import CommandConsole.Decimal.Reading
import CommandConsole.Decimal.Shortest
import CommandConsole.Keyed
import CommandConsole.Line.Fault
import CommandConsole.Line.Reader
import CommandConsole.Line.Scan
import CommandConsole.Line.Span
import CommandConsole.Line.StringReader
import CommandConsole.Number.Bounds
import CommandConsole.Number.Quantity
import CommandConsole.Suggestion.Basic
import CommandConsole.Suggestion.Draft
import CommandConsole.Suggestion.Group
import CommandConsole.Argument.Builtin
import CommandConsole.Argument.Value
import CommandConsole.Tree.Basic
import CommandConsole.Tree.Blueprint
import CommandConsole.Tree.Gate
import CommandConsole.Tree.Language
import CommandConsole.Tree.Node
import CommandConsole.Tree.Registration
import CommandConsole.Matching.Attempt
import CommandConsole.Matching.Context
import CommandConsole.Matching.Parsed
import CommandConsole.Matching.Place
import CommandConsole.Running.Error
import CommandConsole.Running.Execution
import CommandConsole.Running.Invocation
import CommandConsole.Dispatcher
import CommandConsole.Views.Ambiguity
import CommandConsole.Views.Completion
import CommandConsole.Views.Declaration
import CommandConsole.Views.Export
import CommandConsole.Views.Usage
import CommandConsole.Console.Actions
import CommandConsole.Console.Commands
import CommandConsole.Console.Permission
import CommandConsole.Console.Session
import CommandConsole.Console.State
import CommandConsole.Document.Basic
import CommandConsole.Document.Moment
import CommandConsole.Document.Quoted
import CommandConsole.Document.Reading
import CommandConsole.Document.Scalar
import CommandConsole.Document.Table
import CommandConsole.Document.Take
import CommandConsole.Document.Value
import CommandConsole.Document.Writing
import CommandConsole.Settings
import CommandConsole.Document.Library
import CommandConsole.Cli.Request
import CommandConsole.Cli.Response
import CommandConsole.Main
import CommandConsole.Proofs.Growth
import CommandConsole.Proofs.Run
import CommandConsole.Proofs.Reading
import CommandConsole.Proofs.Console
import CommandConsole.Proofs.Exactness
import CommandConsole.Proofs.Execution
import CommandConsole.Proofs.Lockstep
import CommandConsole.Proofs.GateSafety
import CommandConsole.Proofs.Tiling
import CommandConsole.Proofs.Place
import CommandConsole.Proofs.Cut
import CommandConsole.Proofs.Cursor
import CommandConsole.Proofs.Tokens
import CommandConsole.Proofs.BlueprintGates
import CommandConsole.Proofs.Filing
import CommandConsole.Proofs.Exported
import CommandConsole.Proofs.Walks
import CommandConsole.Proofs.Grouping
import CommandConsole.Proofs.LastWord
import CommandConsole.Proofs.Completeness
import CommandConsole.Proofs.Unlinking
import CommandConsole.Proofs.Changes
import CommandConsole.Proofs.Privileges
import CommandConsole.Proofs.AllOrNothing
import CommandConsole.Proofs.Continuation
import CommandConsole.Proofs.Shown
import CommandConsole.Proofs.Edits
import CommandConsole.Proofs.Paths
import CommandConsole.Proofs.Indexes
import CommandConsole.Proofs.Derivations
import CommandConsole.Proofs.Redirects
import CommandConsole.Proofs.Layers
import CommandConsole.Proofs.Confined
import CommandConsole.Proofs.Registered
import CommandConsole.Proofs.Named
import CommandConsole.Proofs.NewNames
import CommandConsole.Proofs.Alignment
import CommandConsole.Proofs.Ahead
import CommandConsole.Proofs.Interchange
import CommandConsole.Proofs.Renaming
import CommandConsole.Proofs.Gaps
import CommandConsole.Proofs.RenamedRuns
import CommandConsole.Proofs.Reordering
import CommandConsole.Proofs.Progress
import CommandConsole.Proofs.Shifting
import CommandConsole.Proofs.Ranking
import CommandConsole.Proofs.Ranges
import CommandConsole.Proofs.Bans
import CommandConsole.Proofs.Captures
import CommandConsole.Proofs.Once
import CommandConsole.Proofs.Failures
import CommandConsole.Proofs.LineEnd
import CommandConsole.Proofs.Anywhere
import CommandConsole.Proofs.Relocation
import CommandConsole.Proofs.BehindOption
import CommandConsole.Proofs.Regrouping
import CommandConsole.Proofs.Candidates
import CommandConsole.Proofs.Replacements
import CommandConsole.Proofs.Consulted
import CommandConsole.Proofs.Entries
import CommandConsole.Proofs.Linked
import CommandConsole.Proofs.Shortcuts
import CommandConsole.Proofs.UsageLines
import CommandConsole.Proofs.Runnable
import CommandConsole.Proofs.Composition
import CommandConsole.Proofs.FirstPaths
import CommandConsole.Proofs.Quotation
import CommandConsole.Proofs.Ambiguities
import CommandConsole.Proofs.Inheritance
import CommandConsole.Proofs.Permissions
import CommandConsole.Proofs.Squares
import CommandConsole.Proofs.WholeNumbers
import CommandConsole.Proofs.Replies
import CommandConsole.Proofs.Offsets
import CommandConsole.Proofs.ReaderRuns
import CommandConsole.Proofs.LeadingBlanks
import CommandConsole.Proofs.Settling
