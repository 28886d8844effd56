import PersistedQueries.CallSite.Basic
import PersistedQueries.CallSite.Ignored
import PersistedQueries.CallSite.Import
import PersistedQueries.CallSite.Shape
import PersistedQueries.CallSite.Unbound
import PersistedQueries.Command.Arguments
import PersistedQueries.Command.Flag
import PersistedQueries.Command.Run
import PersistedQueries.Command.Settings
import PersistedQueries.Command.Usage
import PersistedQueries.Disk.Atomic
import PersistedQueries.Disk.Basic
import PersistedQueries.Disk.Glob
import PersistedQueries.Disk.Path
import PersistedQueries.Disk.Reading
import PersistedQueries.Disk.Search
import PersistedQueries.GraphQL.BlockString
import PersistedQueries.GraphQL.Canonical
import PersistedQueries.GraphQL.Document
import PersistedQueries.GraphQL.Fault
import PersistedQueries.GraphQL.Lexer
import PersistedQueries.GraphQL.Parser.Basic
import PersistedQueries.GraphQL.Parser.Executable
import PersistedQueries.GraphQL.Parser.System
import PersistedQueries.GraphQL.Parser.Value
import PersistedQueries.GraphQL.Printer
import PersistedQueries.GraphQL.Token
import PersistedQueries.Index.Basic
import PersistedQueries.Index.DiskHost
import PersistedQueries.Index.Host
import PersistedQueries.Index.Indexing
import PersistedQueries.Index.Survey
import PersistedQueries.Introspection.Endpoint
import PersistedQueries.Introspection.Minified
import PersistedQueries.Introspection.PossibleTypes
import PersistedQueries.Introspection.Publisher
import PersistedQueries.Introspection.Query
import PersistedQueries.Introspection.Result
import PersistedQueries.Json.Access
import PersistedQueries.Json.Basic
import PersistedQueries.Json.Brief
import PersistedQueries.Json.Reader
import PersistedQueries.Json.Writer
import PersistedQueries.Main
import PersistedQueries.Manifest.Basic
import PersistedQueries.NameSet
import PersistedQueries.Number.Binary64
import PersistedQueries.Options.Basic
import PersistedQueries.Options.Environment
import PersistedQueries.Options.Truth
import PersistedQueries.Persist.Basic
import PersistedQueries.Persist.Merge
import PersistedQueries.Report.Output
import PersistedQueries.Report.Progress
import PersistedQueries.Report.Results
import PersistedQueries.Schema.Basic
import PersistedQueries.Schema.Build
import PersistedQueries.Schema.Default
import PersistedQueries.Schema.Literal
import PersistedQueries.Schema.Misfit
import PersistedQueries.Schema.Rules
import PersistedQueries.Schema.Source
import PersistedQueries.Schema.Standard
import PersistedQueries.Schema.Suggestion
import PersistedQueries.Schema.Validity
import PersistedQueries.Schema.Violation
import PersistedQueries.Session.Basic
import PersistedQueries.Session.Flush
import PersistedQueries.Session.Transform
import PersistedQueries.Sha256
import PersistedQueries.Splice.PersistedCall
import PersistedQueries.Splice.SourceMap
import PersistedQueries.Splice.Splicer
import PersistedQueries.Splice.Vlq
import PersistedQueries.Table
import PersistedQueries.Text.Alphanumeric
import PersistedQueries.Text.Basic
import PersistedQueries.Text.Blank
import PersistedQueries.Text.Digit
import PersistedQueries.Text.Lines
import PersistedQueries.Text.Printable
import PersistedQueries.Text.Quoted
import PersistedQueries.Text.Utf8
import PersistedQueries.Proofs.Canonical.Confluence
import PersistedQueries.Proofs.Index.Laws
import PersistedQueries.Proofs.Index.Growth
import PersistedQueries.Proofs.Index.Soundness
import PersistedQueries.Proofs.Index.Closure
import PersistedQueries.Proofs.Index.Incremental
import PersistedQueries.Proofs.CallSite.Spans
import PersistedQueries.Proofs.Splice.Exactness
import PersistedQueries.Proofs.Index.Binding
import PersistedQueries.Proofs.Canonical.MutationOrder
import PersistedQueries.Proofs.Disk.Replacing
import PersistedQueries.Proofs.Json.RoundTrip
import PersistedQueries.Proofs.Manifest.Saving
import PersistedQueries.Proofs.Persist.Merging
import PersistedQueries.Proofs.Introspection.Publishing
import PersistedQueries.Proofs.Introspection.Closure
import PersistedQueries.Proofs.Command.Saved
import PersistedQueries.Proofs.Disk.Searching
import PersistedQueries.Proofs.Splice.Octets
import PersistedQueries.Proofs.Command.InPlace
import PersistedQueries.Proofs.Command.Writes
import PersistedQueries.Proofs.Command.Contained
import PersistedQueries.Proofs.CallSite.Scanning
import PersistedQueries.Proofs.CallSite.CallFree
import PersistedQueries.Proofs.Splice.Finality
import PersistedQueries.Proofs.Session.Growing
import PersistedQueries.Proofs.Index.Reachable
import PersistedQueries.Proofs.Splice.Tracing
import PersistedQueries.Proofs.Command.BrokenFiles
import PersistedQueries.Proofs.Manifest.Timers
import PersistedQueries.Proofs.Manifest.Debouncing
import PersistedQueries.Proofs.Session.Atomicity
import PersistedQueries.Proofs.Json.Reordering
import PersistedQueries.Proofs.Json.Compact
import PersistedQueries.Proofs.Introspection.Unchanged
import PersistedQueries.Proofs.Index.Jobs
import PersistedQueries.Proofs.Index.Ending
import PersistedQueries.Proofs.Persist.DepthFirst
import PersistedQueries.Proofs.Canonical.Arranging
import PersistedQueries.Proofs.Canonical.TypeNames
import PersistedQueries.Proofs.CallSite.Rendering
import PersistedQueries.Proofs.CallSite.Recovery
import PersistedQueries.Proofs.CallSite.Templates
import PersistedQueries.Proofs.CallSite.Imports
import PersistedQueries.Proofs.CallSite.Comments
import PersistedQueries.Proofs.CallSite.NameLists
import PersistedQueries.Proofs.Splice.Overwriting
import PersistedQueries.Proofs.Splice.Escaping
import PersistedQueries.Proofs.Introspection.Idempotence
import PersistedQueries.Proofs.Introspection.Fetching
import PersistedQueries.Proofs.Introspection.Retrying
import PersistedQueries.Proofs.Disk.Absolute
import PersistedQueries.Proofs.Disk.Temporary
import PersistedQueries.Proofs.Disk.Patterns
import PersistedQueries.Proofs.Disk.Walking
import PersistedQueries.Proofs.Index.Provenance
import PersistedQueries.Proofs.Index.FileIds
import PersistedQueries.Proofs.CallSite.Ranges
