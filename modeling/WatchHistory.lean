import WatchHistory.Main
import WatchHistory.Proofs.Decimal.Order
import WatchHistory.Proofs.Duration
import WatchHistory.Proofs.Event.Bounded
import WatchHistory.Proofs.Event.Buckets
import WatchHistory.Proofs.Event.Conservation
import WatchHistory.Proofs.Event.Contained
import WatchHistory.Proofs.Event.Counting
import WatchHistory.Proofs.Event.Evenly
import WatchHistory.Proofs.Event.Latest
import WatchHistory.Proofs.Event.Ledger
import WatchHistory.Proofs.Event.Minutes
import WatchHistory.Proofs.Event.Repeated
import WatchHistory.Proofs.Event.Sign
import WatchHistory.Proofs.Event.Tally
import WatchHistory.Proofs.Event.Telescope
import WatchHistory.Proofs.Event.Window
import WatchHistory.Proofs.Fallible
import WatchHistory.Proofs.Ingest.Activity
import WatchHistory.Proofs.Ingest.Frames
import WatchHistory.Proofs.Ingest.Isolation
import WatchHistory.Proofs.Ingest.Kept
import WatchHistory.Proofs.Ingest.Maintainable
import WatchHistory.Proofs.Ingest.Newest
import WatchHistory.Proofs.Ingest.Nodes
import WatchHistory.Proofs.Ingest.Omission
import WatchHistory.Proofs.Ingest.OwnRows
import WatchHistory.Proofs.Ingest.Placement
import WatchHistory.Proofs.Ingest.Previous
import WatchHistory.Proofs.Ingest.Recovery
import WatchHistory.Proofs.Ingest.Repetition
import WatchHistory.Proofs.Ingest.Summaries
import WatchHistory.Proofs.Ingest.Writes
import WatchHistory.Proofs.Instant.RoundTrip
import WatchHistory.Proofs.Json.Numeral
import WatchHistory.Proofs.Json.Omission
import WatchHistory.Proofs.Json.Places
import WatchHistory.Proofs.Json.RoundTrip
import WatchHistory.Proofs.Key.Codec
import WatchHistory.Proofs.Key.Dispatch
import WatchHistory.Proofs.Key.Observation
import WatchHistory.Proofs.Key.Prefix
import WatchHistory.Proofs.Key.RoundTrip
import WatchHistory.Proofs.Key.Stem
import WatchHistory.Proofs.Partition.Between
import WatchHistory.Proofs.Partition.Clock
import WatchHistory.Proofs.Partition.Id
import WatchHistory.Proofs.Payload.Node
import WatchHistory.Proofs.Payload.Omission
import WatchHistory.Proofs.Retention.Active
import WatchHistory.Proofs.Retention.CatchUp
import WatchHistory.Proofs.Retention.Interleaving
import WatchHistory.Proofs.Retention.Refusals
import WatchHistory.Proofs.Row.RoundTrip
import WatchHistory.Proofs.SortedMap
import WatchHistory.Proofs.Store.Agree
import WatchHistory.Proofs.Store.Bounds
import WatchHistory.Proofs.Store.Damage
import WatchHistory.Proofs.Store.Filled
import WatchHistory.Proofs.Store.Histogram
import WatchHistory.Proofs.Store.Independence
import WatchHistory.Proofs.Store.Isolation
import WatchHistory.Proofs.Store.Partitions
import WatchHistory.Proofs.Store.Preceding
import WatchHistory.Proofs.Store.Prefix
import WatchHistory.Proofs.Store.Previous
import WatchHistory.Proofs.Store.Purge
import WatchHistory.Proofs.Store.Restriction
import WatchHistory.Proofs.Store.Rows
import WatchHistory.Proofs.Store.Scan
import WatchHistory.Proofs.Text.Blank
import WatchHistory.Proofs.Text.Bytes
import WatchHistory.Proofs.Text.Order
