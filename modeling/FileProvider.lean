import FileProvider.Library.Outcome
import FileProvider.Library.Table
import FileProvider.Library.Reach
import FileProvider.Library.Keyset
import FileProvider.Library.Bytes
import FileProvider.Library.Json
import FileProvider.Library.JsonReference
import FileProvider.Library.Blocks
import FileProvider.Library.Transition
import FileProvider.Object.Model
import FileProvider.Object.Codec
import FileProvider.Object.Check
import FileProvider.Object.Statements
import FileProvider.Object.Impl
import FileProvider.Object.Store
import FileProvider.Object.System
import FileProvider.Object.Validation
import FileProvider.Object.Frame
import FileProvider.Object.Ingest
import FileProvider.Object.History
import FileProvider.Object.Calls
import FileProvider.Object.Reachable
import FileProvider.Object.Histories
import FileProvider.Object.Concurrency
import FileProvider.Object.Content
import FileProvider.Object.TamperEvidence
import FileProvider.Object.Originals
import FileProvider.Object.CompactIndex
import FileProvider.Ontology.Model
import FileProvider.Ontology.Codec
import FileProvider.Ontology.Impl
import FileProvider.Ontology.Apply
import FileProvider.Ontology.Edits
import FileProvider.Object.Journal
import FileProvider.Object.JournalOrder
import FileProvider.Object.Schemas
import FileProvider.Object.Chains
import FileProvider.Object.LiveMigration
import FileProvider.Object.Documents
import FileProvider.Object.Envelopes
import FileProvider.Ontology.System
import FileProvider.Ontology.Sessions
import FileProvider.Catalog.Model
import FileProvider.Catalog.Paths
import FileProvider.Catalog.Metadata
import FileProvider.Catalog.Statements
import FileProvider.Catalog.Calls
import FileProvider.Catalog.Frame
import FileProvider.Catalog.System
import FileProvider.Catalog.Documents
import FileProvider.Catalog.Registration
import FileProvider.Catalog.Companions
import FileProvider.Catalog.Reference
import FileProvider.Catalog.NewFiles
import FileProvider.Catalog.Soundness
import FileProvider.Catalog.Batches
import FileProvider.Catalog.Refresh
import FileProvider.Library.Engine
import FileProvider.Library.Program
import FileProvider.Sql.Model
import FileProvider.Sql.Blobs
import FileProvider.Sql.Ownership
import FileProvider.Sql.Transactions
import FileProvider.Sql.Exchange
import FileProvider.Library.Fairness
import FileProvider.Presentation.Queue
import FileProvider.Presentation.Normalized
import FileProvider.Library.Utf8
import FileProvider.Native.Profiles
import FileProvider.Native.Authorship
import FileProvider.Native.Roster
import FileProvider.Native.Reference
import FileProvider.Catalog.Observations
import FileProvider.Library.ListDiff
import FileProvider.Object.Diffs
import FileProvider.Ontology.Changes
import FileProvider.Ontology.Batches
import FileProvider.Library.CappedPages
import FileProvider.Object.WorkSessions
import FileProvider.Ontology.Journal
import FileProvider.Library.RecursiveQuery
import FileProvider.Ontology.Traversal
import FileProvider.Ontology.Queries
import FileProvider.Library.WorkerPool
import FileProvider.Object.BatchImport
import FileProvider.Compatibility.LockOwner
import FileProvider.Compatibility.WriteLock
import FileProvider.Compatibility.Exclusion
import FileProvider.Compatibility.Guards
import FileProvider.Files.Calls
import FileProvider.Files.Updates
import FileProvider.Object.CleanAudit
import FileProvider.Object.Accounting
import FileProvider.Object.Repackaging
import FileProvider.Object.Inventory
import FileProvider.Object.Coverage
import FileProvider.Ontology.Definitions
import FileProvider.Ontology.Validation
import FileProvider.Ontology.Invariant
import FileProvider.Ontology.Paging
import FileProvider.Ontology.History
import FileProvider.Catalog.Search
import FileProvider.Library.JsonDiff
import FileProvider.Object.MetadataDiffs
import FileProvider.Object.Credentials
import FileProvider.Catalog.SavedFilters
import FileProvider.Catalog.SideTables
import FileProvider.Catalog.Paging
import FileProvider.Identity.Emails
import FileProvider.Library.FixedWidth
import FileProvider.Native.Calendar
import FileProvider.Native.Instants
import FileProvider.Catalog.Creations
import FileProvider.Catalog.SearchEntries
import FileProvider.Library.Spans
import FileProvider.Sql.Patches
import FileProvider.Catalog.Patches
import FileProvider.Sql.Windows
import FileProvider.Catalog.Confinement
import FileProvider.Identity.Links
import FileProvider.Library.Reading
import FileProvider.Presentation.Cards
import FileProvider.Presentation.Waves
import FileProvider.Presentation.Escapes
import FileProvider.Presentation.Inert
import FileProvider.Crypto.Compression
import FileProvider.Crypto.Hashers
import FileProvider.Presentation.Base64
import FileProvider.Presentation.Records
import FileProvider.Identity.Authors
import FileProvider.Presentation.Access
import FileProvider.Identity.Credentials
import FileProvider.Identity.Ledgers
import FileProvider.Filesystem.AtomicSave
import FileProvider.Filesystem.DeviceCalls
import FileProvider.Filesystem.Publication
import FileProvider.Library.Advisory
import FileProvider.Temporary.Lease
import FileProvider.Temporary.Protection
import FileProvider.Object.SnapshotCalls
import FileProvider.Object.SnapshotMoments
import FileProvider.Object.SnapshotBatches
import FileProvider.Native.Ledgers
import FileProvider.Catalog.Provision
import FileProvider.Catalog.Ranges
import FileProvider.Catalog.Recovery
