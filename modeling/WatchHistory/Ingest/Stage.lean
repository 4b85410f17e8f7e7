import WatchHistory.Ingest.EventCount
import WatchHistory.Ingest.Summary
import WatchHistory.Ingest.Watch

/-!
# Stages of ingestion

Each observation runs through the stages in order. A stage is one transaction on the store: it
either changes its own table or, if it fails, nothing, and the stages after it run in either case.

* `Stage.run` is one stage.
* `Ingestion.process` is all of them, with the counters.
-/

set_option autoImplicit false

namespace WatchHistory

inductive Stage
  | eventCount
  | activity
  | watch
  | summary
  | relation
deriving DecidableEq

namespace Stage

/-- Every stage, in the order in which they run. Events are counted before they are kept, so that
the observation before them is still the newest one. -/
def all : List Stage := [eventCount, activity, watch, summary, relation]

def name : Stage → String
  | eventCount => "event_count"
  | activity => "watch_activity"
  | watch => "watch"
  | summary => "resource_summary"
  | relation => "relationship"

/-- Whether the stage runs for objects of a kind. -/
def appliesTo (stage : Stage) (kind : String) : Bool :=
  match stage with
  | eventCount => kind = Payload.eventKind
  | activity | summary => kind ≠ Payload.eventKind
  | watch => true
  | relation => kind = Payload.podKind

end Stage

/-- What a stage did. -/
inductive StageResult
  /-- The number of minutes that were counted. -/
  | counted (minutes : Nat)
  /-- Whether the observation was kept. -/
  | kept (kept : Bool)
  | written
deriving DecidableEq

/-- Run one stage on a store. -/
def Stage.run (stage : Stage) (g : Granularity) (keepMinor : Bool) (r : Intake) (s : Store) :
    Except IngestError (Store × StageResult) :=
  match stage with
  | eventCount => (r.countEvent g s).map fun (s, minutes) => (s, .counted minutes)
  | activity => (r.noteActivity g s).map fun s => (s, .written)
  | watch => (r.keep g keepMinor s).map fun (s, kept) => (s, .kept kept)
  | summary => (r.summarize g s).map fun s => (s, .written)
  | relation => (r.relate g s).map fun s => (s, .written)

/-- What has been ingested so far. -/
structure IngestCounters where
  received : Nat
  /-- Observations whose payload could not be read. -/
  rejected : Nat
  stagesRun : Nat
  stageFailures : Nat
  minutesCounted : Nat
  /-- Updates of nodes that told nothing new. -/
  updatesSkipped : Nat
deriving DecidableEq

namespace IngestCounters

def zero : IngestCounters := ⟨0, 0, 0, 0, 0, 0⟩

/-- Count what a stage did. -/
def add (c : IngestCounters) : StageResult → IngestCounters
  | .counted minutes => { c with minutesCounted := c.minutesCounted + minutes }
  | .kept kept => { c with updatesSkipped := c.updatesSkipped + if kept then 0 else 1 }
  | .written => c

end IngestCounters

/-- A store and what has been ingested into it. -/
structure Ingestion where
  store : Store
  counters : IngestCounters

namespace Ingestion

/-- Run one stage; if it fails, the store stays as it is. -/
def runStage (g : Granularity) (keepMinor : Bool) (r : Intake) (i : Ingestion) (stage : Stage) :
    Ingestion :=
  let counters := { i.counters with stagesRun := i.counters.stagesRun + 1 }
  match stage.run g keepMinor r i.store with
  | .ok (s, result) => ⟨s, counters.add result⟩
  | .error _ => ⟨i.store, { counters with stageFailures := counters.stageFailures + 1 }⟩

/-- The stages that run for objects of a kind. -/
def stagesFor (kind : String) : List Stage := Stage.all.filter (·.appliesTo kind)

/-- Ingest one observation. -/
def process (g : Granularity) (keepMinor : Bool) (i : Ingestion) (o : Observation) : Ingestion :=
  let counters := { i.counters with received := i.counters.received + 1 }
  match Intake.ofObservation o with
  | .error _ => ⟨i.store, { counters with rejected := counters.rejected + 1 }⟩
  | .ok r => (stagesFor o.kind).foldl (runStage g keepMinor r) ⟨i.store, counters⟩

/-- Ingest observations in the order in which they came. -/
def processAll (g : Granularity) (keepMinor : Bool) (i : Ingestion) (os : List Observation) :
    Ingestion :=
  os.foldl (process g keepMinor) i

end Ingestion

end WatchHistory
