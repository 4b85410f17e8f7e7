import Mathlib.Data.List.Induction
import WatchHistory.Proofs.Ingest.Writers
import WatchHistory.Proofs.Json.RoundTrip

/-!
# The rows that sum objects up

A summary, like the row of a pod's relations, is read, changed and written again with every
observation. What comes out in the end is told by the observations that were written
(`Ingestion.writers`) without going through the rows in between:

* `Intake.lifetime?` is that row. `Intake.lifetime?_concat` is what one more observation does to it.
* `Intake.toldOwners` and `Intake.toldNode` are the keys that it names, spelled from the fields of
  an observation and from its payload (`ownerKeys_eq`, `map_nodeKey_nodeName?`).
* `ingested_sums_up` puts them together for both tables.
-/

set_option autoImplicit false

namespace WatchHistory

/-! ## Rows from their observations -/

namespace Intake

/-- The row of an object that was written by the observations `rs`, with the given links: when the
last one that added the object came, or else the first one, when the last one came, what the first
one told of its creation, and whether any of them deleted it. -/
def lifetime? (rs : List Intake) (links : List String) : Option Summary :=
  rs.head?.map fun first => {
    firstSeen :=
      some ((rs.filter (·.observation.change = .add)).getLast?.getD first).observation.time
    lastSeen := rs.getLast?.map (·.observation.time)
    createTime := first.metadata.creationTimestamp.bind Rfc3339.read?
    deletedAtEnd := rs.any (·.observation.change = .delete)
    relationships := links }

theorem lifetime?_concat (rs : List Intake) (r : Intake) (links links' : List String) :
    lifetime? (rs ++ [r]) links' =
      some { r.observe (lifetime? rs links) with relationships := links' } := by
  have hfilter : (rs ++ [r]).filter (·.observation.change = .add) =
      rs.filter (·.observation.change = .add) ++
        if r.observation.change = .add then [r] else [] := by
    rw [List.filter_append]
    by_cases hadd : r.observation.change = .add <;> simp [hadd]
  have hlast : (rs ++ [r]).getLast? = some r := List.getLast?_concat
  unfold lifetime?
  rw [hfilter, hlast, List.any_append]
  cases rs with
  | nil =>
    by_cases hadd : r.observation.change = .add <;>
      simp [observe, Summary.initial, Metadata.createdAt?, hadd]
  | cons first rs => by_cases hadd : r.observation.change = .add <;> simp [observe, hadd]

/-- The keys of the summaries of the owners that an observation tells: in the namespace of the
object and in the partition of the observation. -/
def toldOwners (r : Intake) (g : Granularity) : List String :=
  r.metadata.owners.map fun owner => Key.render
    (⟨g.partitionOf r.observation.time, owner.kind, r.metadata.ns, owner.name, owner.uid⟩ :
      Key .summary)

/-- The key of the summary of the node in the payload of a pod, if there is one: of no namespace, of
no uid, and in the partition of the observation. -/
def toldNode (r : Intake) (g : Granularity) : List String :=
  match Payload.read (Payload.envelope? "spec" "" (Payload.envelope? "nodeName" "" Json.string?))
    r.observation.payload with
  | .error _ => []
  | .ok name => if name = "" then [] else
    [Key.render (⟨g.partitionOf r.observation.time, "Node", "", name, ""⟩ : Key .summary)]

theorem ownerKeys_eq (r : Intake) (g : Granularity) : r.ownerKeys g = r.toldOwners g := rfl

theorem map_nodeKey_nodeName? (r : Intake) (g : Granularity) :
    (Payload.nodeName? r.observation.payload).toOption.join.toList.map (r.nodeKey g) =
      r.toldNode g := by
  unfold Payload.nodeName? toldNode
  cases Payload.read (Payload.envelope? "spec" "" (Payload.envelope? "nodeName" "" Json.string?))
    r.observation.payload with
  | error e => rfl
  | ok name =>
    show (if name = "" then none else some name).toList.map (r.nodeKey g) =
      if name = "" then [] else [r.nodeKey g name]
    split <;> rfl

/-- The keys that an observation of a pod tells, of its owners and of its node. -/
def links (r : Intake) (g : Granularity) : List String := r.toldOwners g ++ r.toldNode g

theorem addLinks_eraseDups (known links : List String) :
    addLinks known.eraseDups links = (known ++ links).eraseDups := by
  induction links generalizing known with
  | nil => rw [List.append_nil]; rfl
  | cons link links ih =>
    have hnext : (if known.eraseDups.contains link then known.eraseDups
        else known.eraseDups ++ [link]) = (known ++ [link]).eraseDups := by
      rw [List.eraseDups_append]
      by_cases hlink : link ∈ known <;> simp [hlink, List.removeAll, List.eraseDups_cons]
    have hrest := ih (known ++ [link])
    rw [← hnext, List.append_assoc] at hrest
    exact hrest

/-- The row that an observation makes of the summary of its object. -/
def sumUp (r : Intake) (g : Granularity) (before : Option Summary) : Summary :=
  { r.observe before with relationships := r.toldOwners g }

/-- The row that an observation makes of the relations of its pod. -/
def linkUp (r : Intake) (g : Granularity) (before : Option Summary) : Summary :=
  { r.observe before with
    relationships := addLinks (r.observe before).relationships (r.links g) }

theorem upserts_summary (g : Granularity) :
    Stage.summary.Upserts g (fun _ => true) fun r => r.sumUp g where
  run_eq_ok_iff keepMinor r s s' happlies := by
    have hkind : r.observation.kind ≠ Payload.eventKind := of_decide_eq_true happlies
    simp only [Stage.run_summary_eq_ok, exists_and_left, exists_eq, and_true, true_and]
    exact summarize_eq_ok hkind
  representable _ := rfl

theorem upserts_relation (g : Granularity) : Stage.relation.Upserts g
    (fun r => (Payload.nodeName? r.observation.payload).isOk) fun r => r.linkUp g where
  run_eq_ok_iff keepMinor r s s' happlies := by
    have hkind : r.observation.kind = Payload.podKind := of_decide_eq_true happlies
    simp only [Stage.run_relation_eq_ok, exists_and_left, exists_eq, and_true]
    rw [relate_eq_ok hkind]
    cases hnode : Payload.nodeName? r.observation.payload with
    | error e => simp [Except.isOk, Except.toBool]
    | ok node =>
      have hlinks : r.ownerKeys g ++ node.toList.map (r.nodeKey g) = r.links g := by
        rw [links, ← ownerKeys_eq, ← map_nodeKey_nodeName?, hnode]
        rfl
      simp only [Except.ok.injEq, exists_and_left, exists_eq_left', hlinks]
      exact (and_iff_right rfl).symm
  representable _ := rfl

/-- Summing up one intake after the other leaves the row that is told by their `lifetime?`, with the
owners that were told last. -/
theorem foldl_sumUp (g : Granularity) (rs : List Intake) :
    rs.foldl (fun before r => some (r.sumUp g before)) none =
      lifetime? rs ((rs.getLast?.map (·.toldOwners g)).getD []) := by
  induction rs using List.reverseRecOn with
  | nil => rfl
  | append_singleton rs r ih =>
    rw [List.foldl_concat, ih, List.getLast?_concat, lifetime?_concat]
    rfl

theorem relationships_observe (r : Intake) (before : Option Summary) :
    (r.observe before).relationships = (before.map (·.relationships)).getD [] := by
  cases before with
  | none => rfl
  | some known => by_cases hadd : r.observation.change = .add <;> simp [observe, hadd]

/-- Relating one intake after the other leaves the row that is told by their `lifetime?`, with every
link that was ever told. -/
theorem foldl_linkUp (g : Granularity) (rs : List Intake) :
    rs.foldl (fun before r => some (r.linkUp g before)) none =
      lifetime? rs (rs.flatMap (·.links g)).eraseDups := by
  induction rs using List.reverseRecOn with
  | nil => rfl
  | append_singleton rs r ih =>
    have hknown : (r.observe (lifetime? rs (rs.flatMap (·.links g)).eraseDups)).relationships =
        (rs.flatMap (·.links g)).eraseDups := by
      rw [relationships_observe]
      cases rs <;> rfl
    have hlinks : ((rs ++ [r]).flatMap (·.links g)).eraseDups =
        addLinks (rs.flatMap (·.links g)).eraseDups (r.links g) := by
      rw [addLinks_eraseDups, List.flatMap_append, List.flatMap_singleton]
    rw [List.foldl_concat, ih, hlinks,
      lifetime?_concat rs r (rs.flatMap (·.links g)).eraseDups]
    simp only [linkUp, hknown]

end Intake

/-- **Summaries and relations told by their observations.** Whatever is observed, the row of a
summary or of a pod's relations is told by the observations that were written into it, and there is
none if there are no such observations. They are observations with this key, in the order in which
they came. The times of the row are those of the last one that added the object, or else of the
first one, and of the last one; it tells the creation as the first one did, and whether the object
was ever deleted. A summary names the owners that the last observation told, and the relations of a
pod are all owners and nodes that were told, each once, in the order in which they were told
first. -/
theorem ingested_sums_up (g : Granularity) (keepMinor : Bool) (os : List Observation) :
    let s := ingested g keepMinor os
    let writers := fun stage key =>
      Ingestion.writers g keepMinor stage key .empty (Ingestion.stageRuns os)
    (∀ k : Key .summary,
      let rs := writers .summary k.render
      let row := Intake.lifetime? rs ((rs.getLast?.map (·.toldOwners g)).getD [])
      (rs.map (·.observation)).Sublist os ∧
      (∀ r ∈ rs, Metadata.ofPayload r.observation.payload = .ok r.metadata ∧
        Key.render (⟨g.partitionOf r.observation.time, r.observation.kind, r.metadata.ns,
          r.metadata.name, r.metadata.uid⟩ : Key .summary) = k.render) ∧
      s.get? k.render = row.map Table.summary.write ∧
        (s.get? k.render).bind Table.summary.read? = row) ∧
    ∀ k : Key .relation,
      let rs := writers .relation k.render
      let row := Intake.lifetime? rs (rs.flatMap (·.links g)).eraseDups
      (rs.map (·.observation)).Sublist os ∧
      (∀ r ∈ rs, Metadata.ofPayload r.observation.payload = .ok r.metadata ∧
        Key.render (⟨g.partitionOf r.observation.time, r.observation.kind, r.metadata.ns,
          r.metadata.name, r.metadata.uid⟩ : Key .relation) = k.render) ∧
      s.get? k.render = row.map Table.relation.write ∧
        (s.get? k.render).bind Table.relation.read? = row := by
  refine ⟨fun k => ?_, fun k => ?_⟩
  · exact Stage.row_ingested (Intake.upserts_summary g) keepMinor os k rfl (Intake.foldl_sumUp g _)
  · exact Stage.row_ingested (Intake.upserts_relation g) keepMinor os k rfl
      (Intake.foldl_linkUp g _)

/-- The owner of a pod. -/
def replicaSet : Json :=
  .ofMembers [("kind", .ofText "ReplicaSet"), ("name", .ofText "web-5d"), ("uid", .ofText "r")]

/-- A pod of the replica set that was created with the year 2019. It is on a node, or has an empty
name in the place of one. -/
def replicaOn (node : String) : Json :=
  .ofMembers [("metadata", .ofMembers [("name", .ofText "web"), ("namespace", .ofText "ns"),
      ("uid", .ofText "u"), ("creationTimestamp", .ofText "2019-01-01T00:00:00Z"),
      ("ownerReferences", .array [replicaSet])]),
    ("spec", .ofMembers [("nodeName", .ofText node)])]

theorem read?_replicaOn (node : String) :
    Json.read? (replicaOn node).render = some (replicaOn node) := by
  have howner : replicaSet.Written := Json.written_ofMembers (by simp [Json.Written.text])
  refine Json.read?_render (Json.written_ofMembers ?_)
  simp [Json.written_ofMembers, Json.Written.array, Json.Written.text, howner]

/-- What is read of a pod of the replica set at a second. -/
def replicaAt (second : Int) (change : Change) (node : String) : Intake where
  observation := ⟨Partition.startAt second, "Pod", change, (replicaOn node).render⟩
  metadata := ⟨"web", "ns", "u", "", "", some "2019-01-01T00:00:00Z",
    [⟨"ReplicaSet", "web-5d", "r"⟩]⟩
  involved := .initial

/-- A pod of the replica set that is added, put on a node and deleted. -/
def podLifecycle : List Intake :=
  [replicaAt 1546300860 .add "", replicaAt 1546300920 .update "node-1",
    replicaAt 1546300980 .delete ""]

theorem ofObservation_replicaAt (node : String)
    (hmetadata : Payload.envelope? "metadata" .initial Metadata.ofJson? (replicaOn node) =
      some (replicaAt 0 .add "").metadata) (second : Int) (change : Change) :
    Intake.ofObservation (replicaAt second change node).observation =
      .ok (replicaAt second change node) := by
  have hread : Metadata.ofPayload (replicaOn node).render =
      .ok (replicaAt second change node).metadata :=
    Payload.read_eq_ok (read?_replicaOn node) hmetadata
  refine bind_eq_ok.mpr ⟨_, hread, ?_⟩
  have hkind : "Pod" ≠ Payload.eventKind := by decide
  exact if_neg hkind

theorem read_node_replicaAt (node : String)
    (hnode : Payload.envelope? "spec" "" (Payload.envelope? "nodeName" "" Json.string?)
      (replicaOn node) = some node) (second : Int) (change : Change) :
    Payload.read (Payload.envelope? "spec" "" (Payload.envelope? "nodeName" "" Json.string?))
      (replicaAt second change node).observation.payload = .ok node :=
  Payload.read_eq_ok (read?_replicaOn node) hnode

theorem intakes_podLifecycle :
    Ingestion.intakes (podLifecycle.map (·.observation)) = podLifecycle := by
  have hnone := ofObservation_replicaAt "" (by decide +kernel)
  have hnode := ofObservation_replicaAt "node-1" (by decide +kernel)
  simp only [podLifecycle, List.map_cons, List.map_nil, Ingestion.intakes_cons, hnone, hnode]
  rfl

/-- Every intake of `podLifecycle` is written into the rows of the pod in both tables. -/
theorem writers_podLifecycle :
    Ingestion.writers .hour false .summary
        (⟨"001546300800", "Pod", "ns", "web", "u"⟩ : Key .summary).render .empty
        (Ingestion.stageRuns (podLifecycle.map (·.observation))) = podLifecycle ∧
      Ingestion.writers .hour false .relation
        (⟨"001546300800", "Pod", "ns", "web", "u"⟩ : Key .relation).render .empty
        (Ingestion.stageRuns (podLifecycle.map (·.observation))) = podLifecycle := by
  have hnone := read_node_replicaAt "" (by decide +kernel)
  have hnode := read_node_replicaAt "node-1" (by decide +kernel)
  refine ⟨(Stage.writers_ingested (Intake.upserts_summary .hour) false _ _).trans ?_,
    (Stage.writers_ingested (Intake.upserts_relation .hour) false _ _).trans ?_⟩
  · rw [intakes_podLifecycle, List.filter_eq_self]
    simp only [podLifecycle, List.forall_mem_cons]
    refine ⟨?_, ?_, ?_, by simp⟩ <;> decide +kernel
  · rw [intakes_podLifecycle, List.filter_eq_self]
    simp only [podLifecycle, List.forall_mem_cons, Stage.writes, Payload.nodeName?, hnone, hnode]
    refine ⟨?_, ?_, ?_, by simp⟩ <;> decide +kernel

/-- The summary of the pod of `podLifecycle` names its owner, and its relations name the owner and
the node. -/
theorem ingested_sums_up_podLifecycle :
    let s := ingested .hour false (podLifecycle.map (·.observation))
    (s.get? "/ressum/001546300800/Pod/ns/web/u").bind Table.summary.read? = some {
      firstSeen := some (Partition.startAt 1546300860)
      lastSeen := some (Partition.startAt 1546300980)
      createTime := some (Partition.startAt 1546300800)
      deletedAtEnd := true
      relationships := ["/ressum/001546300800/ReplicaSet/ns/web-5d/r"] } ∧
    (s.get? "/relation/001546300800/Pod/ns/web/u").bind Table.relation.read? = some {
      firstSeen := some (Partition.startAt 1546300860)
      lastSeen := some (Partition.startAt 1546300980)
      createTime := some (Partition.startAt 1546300800)
      deletedAtEnd := true
      relationships := ["/ressum/001546300800/ReplicaSet/ns/web-5d/r",
        "/ressum/001546300800/Node//node-1"] } := by
  obtain ⟨hsummary, hrelation⟩ :=
    ingested_sums_up .hour false (podLifecycle.map (·.observation))
  obtain ⟨-, -, -, hrow⟩ := hsummary ⟨"001546300800", "Pod", "ns", "web", "u"⟩
  obtain ⟨-, -, -, hlinked⟩ := hrelation ⟨"001546300800", "Pod", "ns", "web", "u"⟩
  have hsummaryKey : (⟨"001546300800", "Pod", "ns", "web", "u"⟩ : Key .summary).render =
      "/ressum/001546300800/Pod/ns/web/u" := by decide +kernel
  have hrelationKey : (⟨"001546300800", "Pod", "ns", "web", "u"⟩ : Key .relation).render =
      "/relation/001546300800/Pod/ns/web/u" := by decide +kernel
  have hnone := read_node_replicaAt "" (by decide +kernel)
  have hnode := read_node_replicaAt "node-1" (by decide +kernel)
  have hlinks : podLifecycle.flatMap (·.links .hour) = [
      "/ressum/001546300800/ReplicaSet/ns/web-5d/r", "/ressum/001546300800/ReplicaSet/ns/web-5d/r",
      "/ressum/001546300800/Node//node-1", "/ressum/001546300800/ReplicaSet/ns/web-5d/r"] := by
    simp only [podLifecycle, List.flatMap_cons, List.flatMap_nil, Intake.links, Intake.toldNode,
      hnone, hnode]
    decide +kernel
  dsimp only at hrow hlinked
  rw [writers_podLifecycle.1, hsummaryKey] at hrow
  rw [writers_podLifecycle.2, hrelationKey, hlinks] at hlinked
  refine ⟨hrow.trans ?_, hlinked.trans ?_⟩ <;> decide +kernel

end WatchHistory
