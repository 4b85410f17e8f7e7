import WatchHistory.Payload.Metadata
import WatchHistory.Store.Scan

/-!
# Records on their way into the store

An observation with what its payload tells about the object, and the observation before it.
-/

set_option autoImplicit false

namespace WatchHistory

/-- Why an observation did not get into a table. -/
inductive IngestError
  | store (cause : StoreError)
  | payload (cause : PayloadError)
  /-- The row under the key has lost its minutes. -/
  | lostMinutes (key : String)
deriving DecidableEq

def IngestError.message : IngestError → String
  | store cause => cause.message
  | payload cause => cause.message
  | lostMinutes key => "data integrity: event count row " ++ key ++ " has no minute map"

/-- An observation and the object that it is of. -/
structure Intake where
  observation : Observation
  metadata : Metadata
  /-- The object that an event is about. -/
  involved : InvolvedObject

namespace Intake

/-- What a store answered, as a step of ingestion. -/
def fromStore {α : Type} : Except StoreError α → Except IngestError α := Except.mapError .store

/-- What a payload told, as a step of ingestion. -/
def fromPayload {α : Type} : Except PayloadError α → Except IngestError α :=
  Except.mapError .payload

/-- Read the payload of an observation. Only an event has to tell what it is about. -/
def ofObservation (o : Observation) : Except PayloadError Intake := do
  let metadata ← Metadata.ofPayload o.payload
  if o.kind = Payload.eventKind then
    return ⟨o, metadata, ← InvolvedObject.ofPayload o.payload⟩
  else return ⟨o, metadata, .initial⟩

/-- The key of the object, in the partition of the observation. -/
def key (r : Intake) (g : Granularity) (t : Table) (last : t.Last) : Key t :=
  .within g t r.observation.time r.observation.kind r.metadata.ns r.metadata.name last

/-- The newest stored observation of the object, in the partition of this one or an older one. -/
def previous? (r : Intake) (g : Granularity) (s : Store) :
    Except StoreError (Option Observation) :=
  let kind := r.observation.kind
  let stem := Key.observations g r.observation.time kind r.metadata.ns r.metadata.name
  match s.previousKey g stem (.comparator .watch kind r.metadata.ns r.metadata.name none) with
  | .ok found => (s.get found).map some
  | .error e => if e.isNotFound then .ok none else .error e

end Intake

end WatchHistory
