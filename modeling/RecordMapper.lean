import RecordMapper.Calendar.Reader
import RecordMapper.Failure.Report
import RecordMapper.Form.Basic
import RecordMapper.Sample.Network
import RecordMapper.Save.Rows
import RecordMapper.Schema.Build
import RecordMapper.Settings.Load
import RecordMapper.Value.Decode
import RecordMapper.Proofs.Entries
import RecordMapper.Proofs.Outcomes
import RecordMapper.Proofs.Registry.Built
import RecordMapper.Proofs.Registry.Lineage
import RecordMapper.Proofs.Store.Constraints
import RecordMapper.Proofs.Store.Selection
import RecordMapper.Proofs.Store.Inserts
import RecordMapper.Proofs.Store.Updates
import RecordMapper.Proofs.Store.Deletes
import RecordMapper.Proofs.Database.Constraints
import RecordMapper.Proofs.Steps.Running
import RecordMapper.Proofs.Steps.Transactions
import RecordMapper.Proofs.Steps.Made
import RecordMapper.Proofs.Steps.Twins
import RecordMapper.Proofs.Database.Runs
import RecordMapper.Proofs.Steps.Changes
import RecordMapper.Proofs.Steps.Endings
import RecordMapper.Proofs.Save.Parts
import RecordMapper.Proofs.Save.Statements
import RecordMapper.Proofs.Read.Fetched
import RecordMapper.Proofs.Store.Cascades
import RecordMapper.Proofs.Store.Cells
import RecordMapper.Proofs.Store.Links
import RecordMapper.Text.Dotted
import RecordMapper.Proofs.Registry.Navigable
import RecordMapper.Proofs.Registry.Routes
import RecordMapper.Proofs.Store.Hops
import RecordMapper.Proofs.Store.Trails
import RecordMapper.Proofs.Store.Aggregates
import RecordMapper.Proofs.Store.Collecting
import RecordMapper.Proofs.Read.Correlated
import RecordMapper.Proofs.Read.Unfiltered
import RecordMapper.Proofs.Read.Filtered
import RecordMapper.Proofs.Scope.Canonical
import RecordMapper.Proofs.Context.Selection
import RecordMapper.Proofs.Schema.Sources
import RecordMapper.Proofs.Schema.Declared
import RecordMapper.Proofs.Schema.Placed
import RecordMapper.Proofs.Registry.Keys
import RecordMapper.Proofs.Read.Plans
import RecordMapper.Proofs.Read.Collected
import RecordMapper.Proofs.Read.Journal
import RecordMapper.Proofs.Read.Resolving
import RecordMapper.Proofs.Read.Histories
import RecordMapper.Proofs.Read.Prepared
import RecordMapper.Proofs.Read.Once
import RecordMapper.Proofs.Read.Levels
import RecordMapper.Proofs.Read.Provenance
import RecordMapper.Proofs.Read.Leftovers
import RecordMapper.Proofs.Save.Columns
import RecordMapper.Proofs.Save.Listed
import RecordMapper.Proofs.Save.Written
import RecordMapper.Proofs.Save.Extending
import RecordMapper.Proofs.Save.Linking
import RecordMapper.Proofs.Save.Skipped
import RecordMapper.Proofs.Steps.Joined
import RecordMapper.Proofs.Read.SideBySide
import RecordMapper.Proofs.Read.StoredRow
import RecordMapper.Proofs.Read.Agreement
import RecordMapper.Proofs.Concurrency
import RecordMapper.Proofs.Read.Returned
import RecordMapper.Proofs.Read.Grouped
import RecordMapper.Proofs.Read.OneQuery
import RecordMapper.Proofs.Read.Reached
import RecordMapper.Proofs.Store.Removals
import RecordMapper.Proofs.Store.References
import RecordMapper.Proofs.Database.References
import RecordMapper.Proofs.Store.Refusals
import RecordMapper.Proofs.Save.Forbidden
import RecordMapper.Proofs.Save.ReadBack
import RecordMapper.Proofs.Steps.Leading
import RecordMapper.Proofs.Store.Carried
import RecordMapper.Proofs.Store.Rewriting
import RecordMapper.Proofs.Store.NamedColumns
import RecordMapper.Proofs.Schema.Relations
import RecordMapper.Proofs.Store.Settled
import RecordMapper.Proofs.Database.Nesting
import RecordMapper.Proofs.Form.Pages
import RecordMapper.Proofs.Save.Completing
import RecordMapper.Proofs.Save.Settling
import RecordMapper.Proofs.Save.Repeating
import RecordMapper.Proofs.Registry.Tracks
import RecordMapper.Proofs.Store.Tracked
import RecordMapper.Proofs.Schema.ByPaths
import RecordMapper.Proofs.Read.Meeting
import RecordMapper.Proofs.Read.FieldsFound
import RecordMapper.Proofs.Read.Strict
import RecordMapper.Proofs.Read.Failing
import RecordMapper.Proofs.Schema.Variants
import RecordMapper.Proofs.Read.InStep
import RecordMapper.Proofs.Read.Variants
import RecordMapper.Proofs.Read.Narrowing
import RecordMapper.Proofs.Read.Scoped
import RecordMapper.Proofs.Steps.Within
import RecordMapper.Proofs.Store.Unlisted
import RecordMapper.Proofs.Save.Replacing
import RecordMapper.Proofs.Read.Databases
import RecordMapper.Proofs.Save.Overlapping
import RecordMapper.Proofs.Save.Displacing
import RecordMapper.Proofs.Save.Assigned
import RecordMapper.Proofs.Save.Given
import RecordMapper.Proofs.Read.Forced
import RecordMapper.Proofs.Read.Settled
import RecordMapper.Proofs.Read.Single
import RecordMapper.Proofs.Store.Sorted
import RecordMapper.Proofs.Store.Annotations
import RecordMapper.Proofs.Form.Shares
import RecordMapper.Proofs.Form.Filters
import RecordMapper.Proofs.Form.Terms
import RecordMapper.Proofs.Registry.Typed
import RecordMapper.Proofs.Store.Found
import RecordMapper.Proofs.Store.Narrowed
import RecordMapper.Proofs.Context.Dotted
import RecordMapper.Proofs.Database.Generated
import RecordMapper.Proofs.Store.Exact
import RecordMapper.Proofs.Json.Merging
import RecordMapper.Proofs.Value.Hashing
import RecordMapper.Proofs.Registry.Inheritance
import RecordMapper.Proofs.Registry.Names
import RecordMapper.Proofs.Value.Documents
import RecordMapper.Proofs.Store.SingleValues
