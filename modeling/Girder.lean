import Girder.Lib.Numeral
import Girder.Lib.Layers
import Girder.Lib.Journal
import Girder.Lib.Lists
import Girder.Lib.Maps
import Girder.Lib.Prefix
import Girder.Lib.Sorting
import Girder.Lib.Rotation
import Girder.Lib.TopK
import Girder.Lib.Chunks
import Girder.Lib.Codec
import Girder.Lib.Cuts
import Girder.Lib.Lru
import Girder.Lib.Utf8
import Girder.Lib.Runs
import Girder.Lib.Keyset
import Girder.Lib.Shared
import Girder.Text
import Girder.Like
import Girder.Record
import Girder.Zone
import Girder.MemTable
import Girder.Segment
import Girder.Cursor
import Girder.Constraints
import Girder.Tokens
import Girder.Postings
import Girder.Candidates
import Girder.Columns
import Girder.Selection
import Girder.Format
import Girder.RoundTrip
import Girder.Loading
import Girder.Assembly
import Girder.Matching
import Girder.Cache
import Girder.Sections
import Girder.Shelves
import Girder.Merge
import Girder.Engine
import Girder.Order
import Girder.Walk
import Girder.Scan
import Girder.ScanWalk
import Girder.ScanSpec
import Girder.ScanFold
import Girder.Paging
import Girder.History
import Girder.Retention
import Girder.Slots
import Girder.Compaction
import Girder.Rewrite
import Girder.Tally
import Girder.Placement
import Girder.Compact
import Girder.Purge
import Girder.Expiry
import Girder.Groom
import Girder.Ticks
import Girder.Reclaim
import Girder.Wal
import Girder.LogFile
import Girder.Durability
import Girder.Leftovers
import Girder.Replaying
import Girder.Process
import Girder.Layout
import Girder.Serving
import Girder.Recovery
import Girder.Reopen
import Girder.Crashes
import Girder.Actors
import Girder.Traces
import Girder.Visibility
import Girder.Coverage
import Girder.Counting
import Girder.Readers
import Girder.Whereabouts
import Girder.Batches
import Girder.Blob
import Girder.BlobRaces
import Girder.Upkeep
import Girder.Queries
import Girder.Served
import Girder.Replies
import Girder.Answers
import Girder.PullBudget
import Girder.Quiet
import Girder.Migration
import Girder.Space
import Girder.Damage
import Girder.Custody
import Girder.Housekeeping
import Girder.Moves
import Girder.Vanishing
import Girder.Rounds
import Girder.Objects
import Girder.Stranded
import Girder.Restarts
import Girder.FailClosed
import Girder.Footprint
import Girder.Converge
