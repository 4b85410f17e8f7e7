import WatchHistory.Proofs.Ingest.Newest
import WatchHistory.Proofs.Key.RoundTrip
import WatchHistory.Proofs.Payload.Node

/-!
# Nodes

An observation of a node is not kept if it only refreshes what the observation before told, apart
from a heartbeat.

* `Intake.keep_eq_skipped_iff`, `Intake.keep_eq_error_iff`: when an observation is passed over, and
  when this cannot be told.
* `ingested_skips`: in a history, the observation that is passed over refreshes one that is stored.
  What has happened to the node is not compared: that it is gone can be passed over
  (`skipped_deletedNode`).
* `keep_ingested`: in a history of the years from 1970 on, the stage fails only on an observation
  before that cannot be read as a value. There is one that can be ingested (`keep_afterHugeNode`).
-/

set_option autoImplicit false

namespace WatchHistory

open WatchHistory.Partition Store

/-- Whether a payload tells of a node what an earlier one told, apart from a heartbeat. -/
def Payload.Refreshes (previous current : String) : Prop :=
  ∃ v w, Json.Value.read? previous = some v ∧ Json.Value.read? current = some w ∧
    Json.Value.AgreeBut Heartbeat v w

namespace Intake

variable {g : Granularity} {keepMinor : Bool} {r : Intake} {s s' : Store} {e : IngestError}

theorem isNew_eq_false_iff : r.isNew g keepMinor s = .ok false ↔
    (r.observation.kind = Payload.nodeKind ∧ keepMinor = false) ∧
      ∃ p, r.previous? g s = .ok (some p) ∧ Payload.Refreshes p.payload r.observation.payload := by
  unfold isNew
  split
  · next hnode =>
    rw [and_iff_right hnode, bind_eq_ok]
    constructor
    · rintro ⟨_ | p, hp, h⟩
      · cases h
      · exact ⟨p, fromStore_eq_ok.mp hp,
          Payload.isMajorUpdate_eq_false_iff.mp (fromPayload_eq_ok.mp h)⟩
    · rintro ⟨p, hp, h⟩
      exact ⟨some p, fromStore_eq_ok.mpr hp,
        fromPayload_eq_ok.mpr (Payload.isMajorUpdate_eq_false_iff.mpr h)⟩
  · next hnode => exact iff_of_false nofun fun h => hnode h.1

theorem isNew_eq_error_iff : r.isNew g keepMinor s = .error e ↔
    (r.observation.kind = Payload.nodeKind ∧ keepMinor = false) ∧
      ((∃ e', r.previous? g s = .error e' ∧ e = .store e') ∨
        ∃ p, r.previous? g s = .ok (some p) ∧ e = .payload .unreadable ∧
          (Json.Value.read? p.payload = none ∨
            Json.Value.read? r.observation.payload = none)) := by
  unfold isNew
  split
  · next hnode =>
    rw [and_iff_right hnode, bind_eq_error]
    refine or_congr ?_ ?_
    · rw [fromStore, mapError_eq_error]
      simp only [eq_comm]
    · constructor
      · rintro ⟨_ | p, hp, h⟩
        · cases h
        · obtain ⟨e', he', rfl⟩ := mapError_eq_error.mp h
          obtain ⟨rfl, hunread⟩ := Payload.isMajorUpdate_eq_error_iff.mp he'
          exact ⟨p, fromStore_eq_ok.mp hp, rfl, hunread⟩
      · rintro ⟨p, hp, rfl, hunread⟩
        exact ⟨some p, fromStore_eq_ok.mpr hp, mapError_eq_error.mpr
          ⟨.unreadable, Payload.isMajorUpdate_eq_error_iff.mpr ⟨rfl, hunread⟩, rfl⟩⟩
  · next hnode => exact iff_of_false nofun fun h => hnode h.1

/-- `keep` passes over exactly an observation of a node that `Refreshes` the one found before it. -/
theorem keep_eq_skipped_iff : r.keep g keepMinor s = .ok (s', false) ↔
    s' = s ∧ (r.observation.kind = Payload.nodeKind ∧ keepMinor = false) ∧
      ∃ p, r.previous? g s = .ok (some p) ∧ Payload.Refreshes p.payload r.observation.payload := by
  rw [keep_eq_ok, isNew_eq_false_iff, and_comm]
  simp [eq_comm]

theorem keep_eq_error_iff {k : Key .watch} (hk : Key.parse .watch (Key.observation g
      r.object.kind r.object.ns r.object.name r.observation.time).render = .ok k) :
    r.keep g keepMinor s = .error e ↔ r.isNew g keepMinor s = .error e := by
  have hset : fromStore (s.set (r.key g .watch (some r.observation.time)) r.observation) = .ok _ :=
    fromStore_eq_ok.mpr (set_of_parse hk s r.observation)
  unfold keep
  rw [bind_eq_error]
  refine or_iff_left ?_
  rintro ⟨kept, -, h⟩
  cases kept with
  | false => cases h
  | true =>
    rw [if_pos rfl, hset] at h
    cases h

end Intake

theorem Observation.Dated.fits {o : Observation} (h : o.Dated) :
    Decimal.fits o.time.totalNanos = true := by
  have hfirst := h.first
  refine Decimal.fits_iff.mpr ⟨?_, h.last⟩
  unfold Instant.totalNanos Decimal.least
  omega

theorem Store.Records.of_previous? {g : Granularity} {s : Store} {r : Intake}
    {P : Observation → Prop} {p : Observation} (h : s.Records g P)
    (hp : r.previous? g s = .ok (some p)) : P p := by
  unfold Intake.previous? at hp
  dsimp only at hp
  split at hp
  · next found _ =>
    obtain ⟨row, hget, hrow⟩ := map_eq_ok.mp hp
    obtain rfl := Option.some.inj hrow
    obtain ⟨⟨k, hk⟩, text, htext, hread⟩ := get_eq_ok.mp hget
    obtain ⟨x, o, hP, hkept, hkey⟩ := h _ _ k htext hk
    have hrow := hkept.row
    rw [← hkey, htext] at hrow
    rw [Option.some.inj hrow, Table.read?_write .watch o] at hread
    exact Option.some.inj hread ▸ hP
  · split at hp <;> cases hp

/-- **What is passed over.** In a history, exactly an observation of a node is passed over that
refreshes the one found before it, which was ingested earlier; how the node changed is not compared.
In the years from 1970 on, for an object with a name and without slashes, the observation that is
found is one of the node, and the latest one exactly if no text of another time in the partition of
that comes behind the text of its time. -/
theorem ingested_skips (g : Granularity) (os : List Observation) (r : Intake) :
    (∀ s', r.keep g false (ingested g false os) = .ok (s', false) ↔
      s' = ingested g false os ∧ r.observation.kind = Payload.nodeKind ∧
        ∃ p ∈ os, r.previous? g (ingested g false os) = .ok (some p) ∧
          Payload.Refreshes p.payload r.observation.payload) ∧
    ((∀ o ∈ os, o.Dated) → r.object.Unslashed → r.metadata.name ≠ "" →
      ∀ p, r.previous? g (ingested g false os) = .ok (some p) →
        r.Sees g (ingested g false os) r.object p ∧
        ∀ q, r.LastSeen g (ingested g false os) q →
          (p = q ↔ ∀ q', r.Sees g (ingested g false os) r.object q' →
            g.partitionOf q'.time = g.partitionOf q.time →
              ¬ Key.instantText q.time < Key.instantText q'.time)) := by
  have hrecords := records_ingested g false os
  refine ⟨fun s' => ?_, fun hdated hslash hname p hp => ?_⟩
  · rw [Intake.keep_eq_skipped_iff]
    constructor
    · rintro ⟨hs, ⟨hnode, -⟩, p, hp, hrefreshes⟩
      exact ⟨hs, hnode, p, hrecords.of_previous? hp, hp, hrefreshes⟩
    · rintro ⟨hs, hnode, p, -, hp, hrefreshes⟩
      exact ⟨hs, ⟨hnode, rfl⟩, p, hp, hrefreshes⟩
  · have hs := filled_ingested g false hdated
    obtain ⟨y, hsees, -⟩ := (Intake.previous?_eq_some_iff hs hrecords hslash).mp hp
    obtain rfl : y = r.object := (ObjectName.covers_iff_eq hname).mp hsees.covers
    refine ⟨hsees, fun q hq => ?_⟩
    have hlatest := hq.previous?_eq_iff hs hrecords hslash hname
    rwa [hp, Except.ok.injEq, Option.some.injEq] at hlatest

/-! ## After one observation -/

theorem Intake.isNew_empty {g : Granularity} {keepMinor : Bool} {r : Intake}
    (hslash : r.object.Unslashed) : r.isNew g keepMinor .empty = .ok true := by
  have hnone : r.previous? g .empty = .ok none :=
    (previous?_eq_none_iff (filled_empty g fun _ => True) (Records.empty g fun _ => True)
      hslash).mpr fun y p h => by cases h.kept.row
  unfold isNew
  split
  · rw [hnone]
    rfl
  · rfl

theorem exists_lastSeen_ingested (g : Granularity) (keepMinor : Bool) {o p : Observation}
    {x : ObjectName} (ho : o.Dated) (hevent : o.kind ≠ Payload.eventKind)
    (hobject : o.object? = some x) (hevent' : p.kind ≠ Payload.eventKind)
    (hobject' : p.object? = some x) (hslash : x.Unslashed)
    (hpartition : ¬ g.partitionOf p.time < g.partitionOf o.time) :
    ∃ r, Intake.ofObservation p = .ok r ∧ r.observation = p ∧ r.object = x ∧
      r.LastSeen g (ingested g keepMinor [o]) o ∧
      r.previous? g (ingested g keepMinor [o]) = .ok (some o) := by
  obtain ⟨r, hread, rfl, rfl⟩ := Intake.exists_of_object? hevent' hobject'
  have hs := filled_ingested g keepMinor (List.forall_mem_singleton.mpr ho)
  have hrecords := records_ingested g keepMinor [o]
  have honly : ∀ {y q}, r.Sees g (ingested g keepMinor [o]) y q → q = o ∧ y = r.object := by
    intro y q hq
    obtain rfl := List.mem_singleton.mp (hq.kept.of_records hs hrecords)
    exact ⟨rfl, Option.some.inj (hq.kept.object_eq.symm.trans hobject)⟩
  obtain ⟨r', hread', -, hsame⟩ := Intake.exists_of_object? hevent hobject
  obtain ⟨k, hk⟩ := Key.exists_parse_observation (g := g) hslash.slash_kind hslash.slash_ns
    hslash.slash_name ho.fits
  have hsees : r.Sees g (ingested g keepMinor [o]) r.object o := by
    refine ⟨r.object.covers_self, ?_, hpartition⟩
    rw [← hsame] at hslash hk ⊢
    exact Ingestion.keeps_process_of_isNew hread' (Intake.isNew_empty hslash) hk
  refine ⟨r, hread, rfl, rfl, ⟨hsees, fun q hq => ?_⟩,
    (Intake.previous?_eq_some_iff hs hrecords hslash).mpr ⟨_, hsees, fun z q hq => ?_⟩⟩
  · rw [(honly hq).1]
    exact StrictOrder.irrefl _
  · obtain ⟨rfl, rfl⟩ := honly hq
    exact StrictOrder.irrefl _

/-- A node at a second, with a version and a weight. -/
def nodeAt (second : Int) (change : Change) (version weight : String) : Observation :=
  ⟨startAt second, "Node", change, "\x7b\"metadata\":\x7b\"name\":\"node-1\",\"uid\":\"n\"," ++
    "\"resourceVersion\":\"" ++ version ++ "\"\x7d,\"spec\":\x7b\"weight\":" ++ weight ++
    "\x7d\x7d"⟩

/-- A node in the first second of 2019. -/
def firstNode : Observation := nodeAt 1546300800 .update "1" "1"

/-- The node of `firstNode` ten seconds later, in another version. -/
def refreshedNode : Observation := nodeAt 1546300810 .update "2" "1"

/-- The node of `firstNode` ten seconds later, gone. -/
def deletedNode : Observation := nodeAt 1546300810 .delete "2" "1"

theorem unslashed_node : ObjectName.Unslashed ⟨"Node", "", "node-1"⟩ :=
  ⟨by decide, by decide, by decide⟩

theorem dated_firstNode : firstNode.Dated := ⟨by decide, by decide⟩

theorem exists_refreshes_firstNode (change : Change) :
    ∃ r, Intake.ofObservation (nodeAt 1546300810 change "2" "1") = .ok r ∧
      r.observation = nodeAt 1546300810 change "2" "1" ∧ r.object = ⟨"Node", "", "node-1"⟩ ∧
      r.LastSeen .hour (ingested .hour false [firstNode]) firstNode ∧
      r.previous? .hour (ingested .hour false [firstNode]) = .ok (some firstNode) ∧
      Payload.Refreshes firstNode.payload r.observation.payload := by
  have hobject : refreshedNode.object? = some ⟨"Node", "", "node-1"⟩ := by decide +kernel
  have hrefreshes : Payload.Refreshes firstNode.payload refreshedNode.payload :=
    Payload.isMajorUpdate_eq_false_iff.mp (eq_ok_of_toOption (by decide +kernel))
  obtain ⟨r, hread, hobservation, hx, hlatest, hprevious⟩ :=
    exists_lastSeen_ingested .hour false (o := firstNode)
      (p := nodeAt 1546300810 change "2" "1") dated_firstNode (by decide) (by decide +kernel)
      (show "Node" ≠ Payload.eventKind by decide) hobject unslashed_node
      (show ¬ Granularity.hour.partitionOf refreshedNode.time <
        Granularity.hour.partitionOf firstNode.time by decide +kernel)
  exact ⟨r, hread, hobservation, hx, hlatest, hprevious, hobservation ▸ hrefreshes⟩

/-- `refreshedNode` only refreshes `firstNode`, and is passed over. -/
theorem ingested_skips_refreshedNode :
    (∀ o ∈ [firstNode], o.Dated) ∧ ∃ r, Intake.ofObservation refreshedNode = .ok r ∧
      r.object.Unslashed ∧ r.metadata.name ≠ "" ∧
      r.keep .hour false (ingested .hour false [firstNode]) =
        .ok (ingested .hour false [firstNode], false) ∧
      r.Sees .hour (ingested .hour false [firstNode]) r.object firstNode := by
  obtain ⟨r, hread, hobservation, hobject, -, hprevious, hrefreshes⟩ :=
    exists_refreshes_firstNode .update
  have hdated : ∀ o ∈ [firstNode], o.Dated := List.forall_mem_singleton.mpr dated_firstNode
  have hslash : r.object.Unslashed := hobject ▸ unslashed_node
  have hname : r.metadata.name ≠ "" := by
    rw [show r.metadata.name = "node-1" from congrArg ObjectName.name hobject]
    decide
  obtain ⟨hskips, hfound⟩ := ingested_skips .hour [firstNode] r
  exact ⟨hdated, r, hread, hslash, hname,
    (hskips _).mpr ⟨rfl, hobservation ▸ rfl, firstNode, by simp, hprevious, hrefreshes⟩,
    (hfound hdated hslash hname firstNode hprevious).1⟩

/-- `deletedNode` tells that the node is gone, and is passed over as well. -/
theorem skipped_deletedNode :
    ∃ r, Intake.ofObservation deletedNode = .ok r ∧
      r.keep .hour false (ingested .hour false [firstNode]) =
        .ok (ingested .hour false [firstNode], false) ∧
      r.LastSeen .hour (ingested .hour false [firstNode]) firstNode ∧
      firstNode.change ≠ r.observation.change := by
  obtain ⟨r, hread, hobservation, -, hlatest, hprevious, hrefreshes⟩ :=
    exists_refreshes_firstNode .delete
  exact ⟨r, hread, Intake.keep_eq_skipped_iff.mpr
    ⟨rfl, ⟨hobservation ▸ rfl, rfl⟩, firstNode, hprevious, hrefreshes⟩, hlatest,
    by rw [hobservation]; decide⟩

/-- **When an observation cannot be kept.** In a history of the years from 1970 on, an observation
of an object without slashes whose payload is read as a value fails to be kept exactly if it is one
of a node and the observation found before it cannot be read as a value. So none fails if all nodes
that were ingested can be. -/
theorem keep_ingested (g : Granularity) {os : List Observation} {r : Intake}
    (hos : ∀ o ∈ os, o.Dated) (hr : r.observation.Dated) (hslash : r.object.Unslashed)
    (hread : Json.Value.read? r.observation.payload ≠ none) :
    (∀ e, r.keep g false (ingested g false os) = .error e ↔
      e = .payload .unreadable ∧ r.observation.kind = Payload.nodeKind ∧
        ∃ p, r.previous? g (ingested g false os) = .ok (some p) ∧
          Json.Value.read? p.payload = none) ∧
    ((∀ o ∈ os, o.kind = Payload.nodeKind → Json.Value.read? o.payload ≠ none) →
      ∃ s' kept, r.keep g false (ingested g false os) = .ok (s', kept)) := by
  have hs := filled_ingested g false hos
  have hrecords := records_ingested g false os
  obtain ⟨k, hk⟩ := Key.exists_parse_observation (g := g) hslash.slash_kind hslash.slash_ns
    hslash.slash_name hr.fits
  have herror : ∀ e, r.keep g false (ingested g false os) = .error e ↔
      e = .payload .unreadable ∧ r.observation.kind = Payload.nodeKind ∧
        ∃ p, r.previous? g (ingested g false os) = .ok (some p) ∧
          Json.Value.read? p.payload = none := by
    intro e
    rw [Intake.keep_eq_error_iff hk, Intake.isNew_eq_error_iff]
    constructor
    · rintro ⟨⟨hnode, -⟩, ⟨e', he', -⟩ | ⟨p, hp, rfl, hunread⟩⟩
      · rcases Intake.previous?_cases hs hrecords hslash with ⟨-, p, -, -, heq⟩ | ⟨-, heq⟩ <;>
          cases he'.symm.trans heq
      · exact ⟨rfl, hnode, p, hp, hunread.resolve_right hread⟩
    · rintro ⟨rfl, hnode, p, hp, hunread⟩
      exact ⟨⟨hnode, rfl⟩, .inr ⟨p, hp, rfl, .inl hunread⟩⟩
  refine ⟨herror, fun hall => ?_⟩
  cases hkeep : r.keep g false (ingested g false os) with
  | ok found => exact ⟨found.1, found.2, rfl⟩
  | error e =>
    obtain ⟨-, hnode, p, hp, hunread⟩ := (herror e).mp hkeep
    refine absurd hunread (hall p (hrecords.of_previous? hp) ?_)
    -- It is one of a node, because only nodes are looked for.
    obtain ⟨y, hsees, -⟩ := (Intake.previous?_eq_some_iff hs hrecords hslash).mp hp
    have hnamed : r.object.kind ≠ "" := by
      rw [show r.object.kind = Payload.nodeKind from hnode]
      decide
    have hkind : y.kind = r.observation.kind := hsees.covers.1 (.inl hnamed)
    rw [← Observation.kind_of_object? hsees.kept.object_eq, hkind, hnode]

/-- `refreshedNode` can be kept or passed over after `firstNode`, which is read. -/
theorem keep_ingested_firstNode :
    (∀ o ∈ [firstNode], o.Dated) ∧ ∃ r, Intake.ofObservation refreshedNode = .ok r ∧
      r.observation.Dated ∧ r.object.Unslashed ∧
      Json.Value.read? r.observation.payload ≠ none ∧
      (∀ o ∈ [firstNode], o.kind = Payload.nodeKind → Json.Value.read? o.payload ≠ none) ∧
      ∃ s' kept, r.keep .hour false (ingested .hour false [firstNode]) = .ok (s', kept) := by
  obtain ⟨r, hread, hobservation, hobject, -, -, v, w, hv, hw, -⟩ :=
    exists_refreshes_firstNode .update
  have hdated : ∀ o ∈ [firstNode], o.Dated := List.forall_mem_singleton.mpr dated_firstNode
  have hnext : r.observation.Dated := by
    rw [hobservation]
    exact ⟨by decide, by decide⟩
  have hslash : r.object.Unslashed := hobject ▸ unslashed_node
  have hpayload : Json.Value.read? r.observation.payload ≠ none := by simp [hw]
  have hall : ∀ o ∈ [firstNode], o.kind = Payload.nodeKind →
      Json.Value.read? o.payload ≠ none := by simp [hv]
  exact ⟨hdated, r, hread, hnext, hslash, hpayload, hall,
    (keep_ingested .hour hdated hnext hslash hpayload).2 hall⟩

/-- The node of `firstNode`, with a weight too large for a number. -/
def hugeNode : Observation := nodeAt 1546300800 .update "1" "1e999"

/-- After `hugeNode`, the payload of which is not read, `refreshedNode` cannot be kept. -/
theorem keep_afterHugeNode :
    (∀ o ∈ [hugeNode], o.Dated) ∧ ∃ r, Intake.ofObservation refreshedNode = .ok r ∧
      r.observation.Dated ∧ r.object.Unslashed ∧
      Json.Value.read? r.observation.payload ≠ none ∧
      r.keep .hour false (ingested .hour false [hugeNode]) = .error (.payload .unreadable) := by
  have hdated : hugeNode.Dated := ⟨by decide, by decide⟩
  obtain ⟨r, hread, hobservation, hobject, -, hprevious⟩ :=
    exists_lastSeen_ingested .hour false (o := hugeNode) (p := refreshedNode) hdated (by decide)
      (by decide +kernel) (by decide) (by decide +kernel) unslashed_node (by decide +kernel)
  have hnext : r.observation.Dated := by
    rw [hobservation]
    exact ⟨by decide, by decide⟩
  have hslash : r.object.Unslashed := hobject ▸ unslashed_node
  have hpayload : Json.Value.read? r.observation.payload ≠ none := by
    rw [hobservation]
    decide +kernel
  obtain ⟨k, hk⟩ := Key.exists_parse_observation (g := .hour) hslash.slash_kind hslash.slash_ns
    hslash.slash_name hnext.fits
  refine ⟨List.forall_mem_singleton.mpr hdated, r, hread, hnext, hslash, hpayload, ?_⟩
  rw [Intake.keep_eq_error_iff hk, Intake.isNew_eq_error_iff]
  exact ⟨⟨hobservation ▸ rfl, rfl⟩, .inr ⟨hugeNode, hprevious, rfl, .inl (by decide +kernel)⟩⟩

end WatchHistory
