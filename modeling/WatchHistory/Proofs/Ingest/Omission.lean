import WatchHistory.Ingest.Stage
import WatchHistory.Proofs.Fallible
import WatchHistory.Proofs.Payload.Omission
import WatchHistory.Proofs.Row.RoundTrip

/-!
# Records whose payloads leave out nulls

Only the table of observations keeps payloads. Every other stage reads out of the payload what it
writes, so it does not tell apart whether members of the payload are null or left out
(`Stage.run_withPayload`).
-/

set_option autoImplicit false

namespace WatchHistory

open Payload (LeavesOut)

/-- An observation with another payload. -/
def Observation.withPayload (o : Observation) (payload : String) : Observation :=
  { o with payload }

/-- A record with another payload, but with what has been read of its own. -/
def Intake.withPayload (r : Intake) (payload : String) : Intake :=
  { r with observation := r.observation.withPayload payload }

variable {q : String}

theorem Intake.ofObservation_withPayload {o : Observation} (h : LeavesOut o.payload q) :
    ofObservation (o.withPayload q) = (ofObservation o).map (·.withPayload q) := by
  unfold ofObservation Observation.withPayload
  dsimp only
  rw [← h.metadata_eq, ← h.involved_eq, map_bind]
  refine bind_congr fun metadata => ?_
  split
  · rw [map_bind]
    rfl
  · rfl

theorem Intake.countEvent_withPayload {r : Intake} (h : LeavesOut r.observation.payload q)
    (g : Granularity) (s : Store) : (r.withPayload q).countEvent g s = r.countEvent g s := by
  unfold countEvent
  rw [h.event_eq]
  rfl

theorem Intake.relate_withPayload {r : Intake} (h : LeavesOut r.observation.payload q)
    (g : Granularity) (s : Store) : (r.withPayload q).relate g s = r.relate g s := by
  unfold relate
  rw [h.nodeName?_eq]
  rfl

theorem Stage.run_withPayload {r : Intake} (h : LeavesOut r.observation.payload q) {stage : Stage}
    (hstage : stage ≠ .watch) (g : Granularity) (keepMinor : Bool) (s : Store) :
    stage.run g keepMinor (r.withPayload q) s = stage.run g keepMinor r s := by
  cases stage with
  | eventCount => rw [run, run, Intake.countEvent_withPayload h]
  | relation => rw [run, run, Intake.relate_withPayload h]
  | watch => exact absurd rfl hstage
  | activity | summary => rfl

/-- **A null is a missing member.** Whether members of a payload are null or left out makes no
difference to what is read of it, nor to whether it can be read, and so none to what the stages make
of a record with that payload, apart from the one that keeps the payload itself. -/
theorem Payload.LeavesOut.makes_no_difference {p q : String} (h : LeavesOut p q) :
    Metadata.ofPayload p = Metadata.ofPayload q ∧
    InvolvedObject.ofPayload p = InvolvedObject.ofPayload q ∧
    Payload.nodeName? p = Payload.nodeName? q ∧
    EventInfo.ofPayload p = EventInfo.ofPayload q ∧
    (∀ o : Observation, o.payload = p →
      Intake.ofObservation (o.withPayload q) = (Intake.ofObservation o).map (·.withPayload q)) ∧
    ∀ r : Intake, r.observation.payload = p → ∀ stage ≠ Stage.watch, ∀ g keepMinor s,
      stage.run g keepMinor (r.withPayload q) s = stage.run g keepMinor r s := by
  refine ⟨h.metadata_eq, h.involved_eq, h.nodeName?_eq, h.event_eq, ?_, ?_⟩
  · rintro o rfl
    exact Intake.ofObservation_withPayload h
  · rintro r rfl stage hstage g keepMinor s
    exact Stage.run_withPayload h hstage g keepMinor s

/-- The owner of a pod. -/
def podOwner : Json := .ofMembers [("kind", .ofText "Set"), ("uid", .ofText "u")]

/-- A pod with an owner and a node. -/
def ownedPod : Json :=
  .ofMembers [("metadata", .ofMembers [("name", .ofText "web"), ("namespace", .ofText "shop"),
      ("uid", .ofText "p"), ("ownerReferences", .array [podOwner])]),
    ("spec", .ofMembers [("nodeName", .ofText "n")])]

theorem written_ownedPod : ownedPod.Written := by
  have howner : podOwner.Written := Json.written_ofMembers (by simp [Json.Written.text])
  refine Json.written_ofMembers ?_
  simp [Json.written_ofMembers, Json.Written.array, Json.Written.text, howner]

theorem distinct_ownedPod : ownedPod.Distinct := by
  have htext (s : String) : (Json.ofText s).Distinct := .text _
  have howner : podOwner.Distinct := Json.distinct_ofMembers (by decide) (by simp [htext])
  refine Json.distinct_ofMembers (by decide) ?_
  simp [Json.distinct_ofMembers, Json.Distinct.array, htext, howner]

/-- The namespace of an object, the identity of its first owner, and how it is meant to be. -/
def untold (place : List Json.Step) : Bool :=
  place ∈ [[.member "metadata", .member "namespace"],
    [.member "metadata", .member "ownerReferences", .item 0, .member "uid"], [.member "spec"]]

/-- `ownedPod` as a payload in which the members that are `untold` are null. -/
def nullPod : String := (ownedPod.giveNull untold).render

/-- `ownedPod` as a payload without the members that are `untold`. -/
def barePod : String := (ownedPod.leaveOut untold).render

/-- What `nullPod` and `barePod` tell about the pod. -/
def podMetadata : Metadata := ⟨"web", "", "p", "", "", none, [⟨"Set", "", ""⟩]⟩

/-- The record of an observation with the payload `nullPod`. -/
def podRecord : Intake :=
  ⟨⟨.epoch, Payload.podKind, .add, nullPod⟩, podMetadata, .initial⟩

/-- The pod is read and linked with its owner from either of `nullPod` and `barePod`. -/
theorem Payload.LeavesOut.makes_no_difference_ownedPod :
    nullPod = "\x7b\"metadata\":\x7b\"name\":\"web\",\"namespace\":null,\"uid\":\"p\"," ++
      "\"ownerReferences\":[\x7b\"kind\":\"Set\",\"uid\":null\x7d]\x7d,\"spec\":null\x7d" ∧
    barePod = "\x7b\"metadata\":\x7b\"name\":\"web\",\"uid\":\"p\"," ++
      "\"ownerReferences\":[\x7b\"kind\":\"Set\"\x7d]\x7d\x7d" ∧
    LeavesOut nullPod barePod ∧ Metadata.ofPayload barePod = .ok podMetadata ∧
    Intake.ofObservation (podRecord.withPayload barePod).observation =
      .ok (podRecord.withPayload barePod) ∧
    ∃ s, Stage.relation.run .hour false (podRecord.withPayload barePod) .empty =
      .ok (s, .written) := by
  have hleaves : LeavesOut nullPod barePod :=
    Payload.leavesOut_render written_ownedPod distinct_ownedPod untold
  have hread : Metadata.ofPayload nullPod = .ok podMetadata :=
    eq_ok_of_toOption (by decide +kernel)
  have hrecord : Intake.ofObservation podRecord.observation = .ok podRecord := by
    rw [Intake.ofObservation, show podRecord.observation.payload = nullPod from rfl, hread]
    rfl
  have hrun : ((Stage.relation.run .hour false podRecord .empty).map Prod.snd).toOption =
      some .written := by decide +kernel
  obtain ⟨hmetadata, -, -, -, hintake, hstage⟩ := hleaves.makes_no_difference
  refine ⟨by decide +kernel, by decide +kernel, hleaves, hmetadata ▸ hread, ?_, ?_⟩
  · exact (hintake podRecord.observation rfl).trans (by rw [hrecord]; rfl)
  · obtain ⟨⟨s, result⟩, hs, rfl⟩ := map_eq_ok.mp (eq_ok_of_toOption hrun)
    exact ⟨s, (hstage podRecord rfl .relation (by decide) .hour false .empty).trans hs⟩

end WatchHistory
