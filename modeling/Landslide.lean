import Landslide.Txn.Store
import Landslide.Txn.Prog
import Landslide.Txn.System
import Landslide.Txn.Serial
import Landslide.Txn.Rely
import Landslide.Txn.Traces
import Landslide.Txn.Crash
import Landslide.Txn.Coding
import Landslide.Envelope
import Landslide.Kv
import Landslide.EventStore
import Landslide.Steps
import Landslide.Calls
import Landslide.History
import Landslide.Fencing
import Landslide.Sequence
import Landslide.Reads
import Landslide.Alone
import Landslide.Transactions
import Landslide.Stream
import Landslide.Log
import Landslide.Snapshots
import Landslide.Compaction
import Landslide.Forks
import Landslide.Branches
import Landslide.Deletion
import Landslide.Pins
import Landslide.Chains
import Landslide.Aside
import Landslide.Retries
import Landslide.Lineage
import Landslide.Rehydration
import Landslide.Ranges
import Landslide.Inheritance
import Landslide.Withdrawal
import Landslide.Reader
import Landslide.Cursor
import Landslide.Announcements
import Landslide.Jobs
import Landslide.Completions
import Landslide.Overlay
import Landslide.Subtree
import Landslide.Separated
import Landslide.Objects
import Landslide.Sqlite.Image
import Landslide.Sqlite.Wal
import Landslide.Sqlite.Store
import Landslide.Sqlite.Remote
import Landslide.Sqlite.Sync
import Landslide.Sqlite.Runs
import Landslide.Script
import Landslide.Sqlite.Steps
import Landslide.Sqlite.Interrupts
import Landslide.Sqlite.Segments
import Landslide.Sqlite.PointInTime
import Landslide.Sqlite.Spans
import Landslide.Sqlite.WalFile
import Landslide.Sqlite.Capture
import Landslide.TwoWay
import Landslide.Fuse.Path
import Landslide.Fuse.Image
import Landslide.Fuse.Inodes
import Landslide.Fuse.Store
import Landslide.Fuse.Checkpoint
import Landslide.Fuse.Volumes
import Landslide.Fuse.Effects
import Landslide.Fuse.Runs
import Landslide.Guarded
import Landslide.Fuse.Handles
import Landslide.Fuse.Tails
import Landslide.Fuse.Replica
import Landslide.Fuse.Following
import Landslide.Fuse.Fs
import Landslide.Fuse.Opening
import Landslide.Fuse.Clocks
import Landslide.Fuse.Blocks
import Landslide.Fuse.Shapes
import Landslide.Fuse.Collapse
import Landslide.Staging
import Landslide.Fuse.Commit
import Landslide.Fuse.Extents
import Landslide.Fuse.Renames
import Landslide.Fuse.Requests
import Landslide.Fuse.Flushes
import Landslide.Paged
import Landslide.Fuse.Readdir
import Landslide.Raw.Keys
import Landslide.Raw.Store
import Landslide.Raw.Writes
import Landslide.Raw.Isolation
import Landslide.Raw.Listing
import Landslide.Decimal
import Landslide.Raw.Purge
import Landslide.Raw.Additions
import Landslide.Disk
import Landslide.Near
import Landslide.Fuse.Mirror
import Landslide.Contiguity
import Landslide.Marks
import Landslide.Floors
import Landslide.Overwrites
import Landslide.Fuse.OwnWrites
import Landslide.Fuse.Failures
import Landslide.Json
import Landslide.Fuse.Caps
import Landslide.JsonValue
import Landslide.Fuse.Decoding
import Landslide.Fuse.Labels
import Landslide.Fuse.Faithful
import Landslide.Fuse.Truncations
import Landslide.Fuse.Serving
import Landslide.Fuse.Edits
import Landslide.Fuse.Confined
import Landslide.Fuse.Mirrored
import Landslide.Timing
import Landslide.TimeIndex
import Landslide.Pages
import Landslide.Chronology
import Landslide.Raw.Bounds
import Landslide.Bincode
import Landslide.Wire
import Landslide.Cuts
import Landslide.Sqlite.Batches
import Landslide.Contention
import Landslide.Branching
import Landslide.Ledger
import Landslide.Tailing
import Landslide.Backlog
import Landslide.Durability
import Landslide.Pool
import Landslide.Fuse.Steps
import Landslide.Fuse.Pointers
import Landslide.Linearity
import Landslide.NameTree
import Landslide.Fuse.Names
import Landslide.Fuse.NameOps
import Landslide.Fuse.Namespace
import Landslide.Fuse.Posix
