import WatchHistory.Ingest.Intake
import WatchHistory.Payload.Node

/-!
# Keeping observations

The table of observations and the table of when objects were observed.
-/

set_option autoImplicit false

namespace WatchHistory.Intake

/-- Whether an observation tells something new. Updates of a node that only refresh heartbeats do
not, unless they are kept as well. -/
def isNew (r : Intake) (g : Granularity) (keepMinor : Bool) (s : Store) :
    Except IngestError Bool := do
  if r.observation.kind = Payload.nodeKind ∧ keepMinor = false then
    match ← fromStore (r.previous? g s) with
    | none => return true
    | some previous => fromPayload (Payload.isMajorUpdate previous.payload r.observation.payload)
  else return true

/-- Keep an observation if it tells something new, and tell whether it was kept. -/
def keep (r : Intake) (g : Granularity) (keepMinor : Bool) (s : Store) :
    Except IngestError (Store × Bool) := do
  if ← r.isNew g keepMinor s then
    let s ← fromStore (s.set (r.key g .watch (some r.observation.time)) r.observation)
    return (s, true)
  else return (s, false)

/-- Whether the version of an object differs from the one observed before; so does any version from
one that cannot be read. -/
def hasChanged (r : Intake) (previous : Option Observation) : Bool :=
  match previous with
  | none => false
  | some previous =>
    match Metadata.ofPayload previous.payload with
    | .ok metadata => metadata.resourceVersion ≠ r.metadata.resourceVersion
    | .error _ => true

/-- Note when an object was observed. Events are passed over. -/
def noteActivity (r : Intake) (g : Granularity) (s : Store) : Except IngestError Store := do
  if r.observation.kind = Payload.eventKind then return s
  let previous ← fromStore (r.previous? g s)
  let key := r.key g .activity r.metadata.uid
  let activity ← fromStore (s.getOrInitial key)
  fromStore (s.set key (activity.record (r.hasChanged previous) r.observation.time.seconds))

end WatchHistory.Intake
