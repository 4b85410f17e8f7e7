import WatchHistory.Ingest.Intake

/-!
# Summing up objects

The table of the lifetimes of objects, and the table of the owners and nodes of pods.
-/

set_option autoImplicit false

namespace WatchHistory.Intake

/-- The summary of an object after one more observation. -/
def observe (r : Intake) (before : Option Summary) : Summary :=
  let time := r.observation.time
  let known := match before with
    | some known =>
      if r.observation.change = Change.add then { known with firstSeen := some time } else known
    | none => { Summary.initial with firstSeen := some time, createTime := r.metadata.createdAt? }
  { known with
    lastSeen := some time
    deletedAtEnd := known.deletedAtEnd || decide (r.observation.change = Change.delete) }

/-- The keys of the summaries of the owners, in the partition of the observation. -/
def ownerKeys (r : Intake) (g : Granularity) : List String :=
  r.metadata.owners.map fun owner =>
    (Key.within g .summary r.observation.time owner.kind r.metadata.ns owner.name owner.uid).render

/-- The key of the summary of a node, in the partition of the observation. -/
def nodeKey (r : Intake) (g : Granularity) (node : String) : String :=
  (Key.within g .summary r.observation.time Payload.nodeKind "" node "").render

/-- Sum up an object. Events are passed over. -/
def summarize (r : Intake) (g : Granularity) (s : Store) : Except IngestError Store := do
  if r.observation.kind = Payload.eventKind then return s
  let key := r.key g .summary r.metadata.uid
  let summary := r.observe (← fromStore (s.find? key))
  fromStore (s.set key { summary with relationships := r.ownerKeys g })

/-- Add the links that are not there yet. -/
def addLinks (known links : List String) : List String :=
  links.foldl (fun known link => if known.contains link then known else known ++ [link]) known

/-- Link a pod with its owners and its node. Other objects are passed over. -/
def relate (r : Intake) (g : Granularity) (s : Store) : Except IngestError Store := do
  if r.observation.kind ≠ Payload.podKind then return s
  let key := r.key g .relation r.metadata.uid
  let relation := r.observe (← fromStore (s.find? key))
  let node ← fromPayload (Payload.nodeName? r.observation.payload)
  let links := r.ownerKeys g ++ node.toList.map (r.nodeKey g)
  fromStore (s.set key { relation with relationships := addLinks relation.relationships links })

end WatchHistory.Intake
