import WatchHistory.EventDelta
import WatchHistory.Ingest.Intake

/-!
# Counting events

What an event adds since its last observation is put into the tallies of the object that it is
about. Counts go only into partitions that the store already holds.
-/

set_option autoImplicit false

namespace WatchHistory.Intake

/-- The counts of each minute, where minutes after `lastMinute` count as that one. -/
def foldMinutes (lastMinute : Int) (buckets : List (Int × Int)) : SortedMap Int Int :=
  buckets.foldr (fun bucket minutes => minutes.alter (min bucket.1 lastMinute) 0 (· + bucket.2))
    .empty

/-- The minutes and counts of each partition. -/
def groupMinutes (g : Granularity) (minutes : SortedMap Int Int) :
    SortedMap String (List (Int × Int)) :=
  minutes.entries.foldr (fun bucket groups =>
    match Instant.ofSeconds? bucket.1 with
    | none => groups
    | some time => groups.alter (g.partitionOf time) [] (bucket :: ·)) .empty

/-- The key of the tally of the involved object in a partition. -/
def tallyKey (r : Intake) (partition : String) : Key .eventCount :=
  ⟨partition, r.involved.kind, r.involved.ns, r.involved.name, r.involved.uid⟩

/-- Add the counts of one partition to the tally of the involved object. -/
def addBuckets (r : Intake) (reason : String) (partition : String) (buckets : List (Int × Int))
    (s : Store) : Except IngestError Store := do
  let key := r.tallyKey partition
  let tally ← fromStore (s.getOrInitial key)
  match tally.byMinute with
  | none => throw (.lostMinutes key.render)
  | some minutes =>
    let counted := buckets.foldl (fun m bucket => EventTally.addTo m bucket.1 reason bucket.2)
      minutes
    fromStore (s.set key ⟨some counted⟩)

/-- What an event has told before, where its last observation can still be read. -/
def previousEvent? (r : Intake) (g : Granularity) (s : Store) :
    Except StoreError (Option EventInfo) := do
  return (← r.previous? g s).bind fun o => (EventInfo.ofPayload o.payload).toOption

/-- The part of a delta within the partitions of the given bounds, but after the oldest one if
there are several, and the last minute of the newest one. -/
def clip (g : Granularity) (bounds : String × String) (d : EventDelta) :
    Except StoreError (EventDelta × Int) := do
  let start ← EventDelta.truncationPoint g d.last (some bounds)
  let stop ← Partition.start (← g.next bounds.2)
  return ((d.truncate start).clampEnd stop, stop.seconds - 60)

/-- Count an event, and tell how many minutes of it were counted. Objects of other kinds are passed
over, and so is an event that tells no first or last time. -/
def countEvent (r : Intake) (g : Granularity) (s : Store) : Except IngestError (Store × Nat) := do
  if r.observation.kind ≠ Payload.eventKind then return (s, 0)
  let current ← fromPayload (EventInfo.ofPayload r.observation.payload)
  let previous ← fromStore (r.previousEvent? g s)
  if current.first = .epoch ∨ current.last = .epoch then return (s, 0)
  let delta := EventDelta.ofObservations previous current
  if delta.count = 0 then return (s, 0)
  match ← fromStore s.bounds with
  | none => return (s, 0)
  | some bounds =>
    let (clipped, lastMinute) ← fromStore (clip g bounds delta)
    let groups := groupMinutes g (foldMinutes lastMinute clipped.spread)
    let counted ← groups.entries.foldlM
      (fun s group => r.addBuckets current.reasonKey group.1 group.2 s) s
    return (counted, groups.values.foldr (fun buckets n => buckets.length + n) 0)

end WatchHistory.Intake
