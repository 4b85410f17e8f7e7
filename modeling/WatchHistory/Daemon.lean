import WatchHistory.Config
import WatchHistory.Ingest.Stage

/-!
# The commands of the daemon

What each command does to the store and what it tells. `Daemon.feed` ingests lines of observations,
`Daemon.inspect` reports on the store, and `Daemon.purge` deletes keys.
-/

set_option autoImplicit false

namespace WatchHistory.Daemon

/-! ## Feeding -/

/-- The lines of a text. -/
def lines (text : String) : List String := (Text.split '\n' text.toList).map String.ofList

/-- The observations of the lines that hold one. -/
def observations (text : String) : List Observation := (lines text).filterMap Observation.read?

/-- How many observations may wait for ingestion at most: an eighth of what 64 bits count. -/
def greatestCapacity : Nat := 2305843009213693951

/-- Why nothing is ingested. -/
inductive FeedError
  | tooManyWaiting (capacity : Nat)
deriving DecidableEq

def FeedError.message : FeedError → String
  | tooManyWaiting capacity => "a channel cannot hold " ++ toString capacity ++ " observations"

/-- Let retention catch up, and ingest the observations of a text. How many bytes a store takes is
told by `footprint`. -/
def feed (c : Config) (policy : RetentionPolicy) (footprint : Store → Nat) (now : Instant)
    (s : Store) (text : String) : Except FeedError Store :=
  if greatestCapacity < c.ingest.channelCapacity then
    .error (.tooManyWaiting c.ingest.channelCapacity)
  else
    let kept := (Retention.catchUp policy [] footprint now ⟨s, .zero⟩).store
    .ok (Ingestion.processAll c.store.partition c.ingest.keepMinorNodeUpdates ⟨kept, .zero⟩
      (observations text)).store

/-! ## Inspecting -/

/-- What is told about a store. -/
structure Report where
  partition : Granularity
  tables : List String
  /-- The oldest and the newest partition. -/
  bounds : Option (String × String)
  /-- How many observations of each kind of object are kept. -/
  watchRowsByKind : SortedMap String Nat
  partitions : SortedMap String Store.PartitionCount
  /-- How many bytes the store takes. -/
  footprint : Nat

/-- How many keys there are of each kind. -/
def countKinds (keys : List (Key .watch)) : SortedMap String Nat :=
  keys.foldl (fun counts k => counts.alter k.kind 0 (· + 1)) .empty

/-- The kinds of the observations between the bounds. -/
def watchKinds (g : Granularity) (s : Store) :
    Option (String × String) → Except StoreError (SortedMap String Nat)
  | none => return .empty
  | some (min, max) => do
    let start ← Partition.start min
    let stop ← Partition.start max
    let found ← s.scan (t := .watch) g none (fun _ => true) (fun _ => true) start stop
    return countKinds found.rows.keys

/-- Report on a store. -/
def inspect (g : Granularity) (footprint : Store → Nat) (s : Store) :
    Except StoreError Report := do
  let bounds ← s.bounds
  return {
    partition := g
    tables := Table.all.map Table.name
    bounds := bounds
    watchRowsByKind := ← watchKinds g s bounds
    partitions := s.histogram
    footprint := footprint s }

/-! ## Purging -/

/-- Why nothing was purged. -/
inductive PurgeError
  | noLeadingSlash (stem : String)
deriving DecidableEq

def PurgeError.message : PurgeError → String
  | noLeadingSlash stem => "prefix must start with '/': " ++ Text.quoted stem

/-- Delete every key under a stem in batches; also how many there were. -/
def purge (c : Config) (s : Store) (stem : String) : Except PurgeError (Store × Nat) :=
  if stem.toList.head? = some '/' then .ok (s.purge stem c.retention.deletionBatchSize)
  else .error (.noLeadingSlash stem)

/-- What is told about a purge. -/
def purgeText (stem : String) (removed : Nat) : String :=
  "removed " ++ toString removed ++ " keys under " ++ stem ++ "\n"

/-- What is told about a command that fails. -/
def failureText (message : String) : String := "Error: " ++ message ++ "\n"

end WatchHistory.Daemon
