import Mathlib.Data.List.Chain
import WatchHistory.Payload.Node
import WatchHistory.Proofs.Fallible
import WatchHistory.Proofs.Json.Places

/-!
# What a heartbeat changes

Two payloads of a node differ in no more than a heartbeat exactly if they agree at every place but
the version of the node and the times of its last heartbeats (`isMajorUpdate_eq_false_iff`). So
updates that are not major never add up to one that is (`isMajorUpdate_equivalence`).
-/

set_option autoImplicit false

namespace WatchHistory.Payload

open Json (Value Step)

/-- Whether a place is one that a heartbeat changes, or is within one: the version of a node, or the
time of the last heartbeat in one of its conditions. -/
def Heartbeat (place : List Step) : Prop :=
  [.member "metadata", .member "resourceVersion"] <+: place ∨
    ∃ index, [.member "status", .member "conditions", .item index,
      .member "lastHeartbeatTime"] <+: place

theorem erases_withoutHeartbeat : Value.Erases withoutHeartbeat Heartbeat := by
  have hversion := (Value.Erases.without "resourceVersion").changeMember "metadata"
  have htimes := ((Value.Erases.without "lastHeartbeatTime").changeItems.changeMember
    "conditions").changeMember "status"
  refine (hversion.comp htimes).congr fun place => ?_
  unfold Heartbeat
  simp only [List.cons_prefix_iff]
  refine or_congr Iff.rfl ⟨?_, ?_⟩
  · rintro ⟨_, rfl, _, rfl, index, rest, rfl, hrest⟩
    exact ⟨index, _, rfl, _, rfl, rest, rfl, hrest⟩
  · rintro ⟨index, _, rfl, _, rfl, rest, rfl, hrest⟩
    exact ⟨_, rfl, _, rfl, index, rest, rfl, hrest⟩

theorem sorted_withoutHeartbeat {v : Value} (h : v.Sorted) : (withoutHeartbeat v).Sorted :=
  (h.changeMember (fun _ hw => hw.without _) _).changeMember
    (fun _ hw => hw.changeMember (fun _ hw => hw.changeItems fun _ hw => hw.without _) _) _

theorem withoutHeartbeat_eq_iff {previous current : String} {v w : Value}
    (hv : Value.read? previous = some v) (hw : Value.read? current = some w) :
    withoutHeartbeat v = withoutHeartbeat w ↔ Value.AgreeBut Heartbeat v w :=
  erases_withoutHeartbeat.eq_iff (sorted_withoutHeartbeat (Value.sorted_of_read? hv))
    (sorted_withoutHeartbeat (Value.sorted_of_read? hw))

/-- An update is not major exactly if both payloads can be read and agree but for a `Heartbeat`. -/
theorem isMajorUpdate_eq_false_iff {previous current : String} :
    isMajorUpdate previous current = .ok false ↔ ∃ v w, Value.read? previous = some v ∧
      Value.read? current = some w ∧ Value.AgreeBut Heartbeat v w := by
  unfold isMajorUpdate
  split
  · next v w hv hw =>
    rw [Except.ok.injEq, decide_eq_false_iff_not, Decidable.not_not,
      withoutHeartbeat_eq_iff hv hw]
    constructor
    · exact fun hagree => ⟨v, w, hv, hw, hagree⟩
    · rintro ⟨v', w', hv', hw', hagree⟩
      cases hv.symm.trans hv'
      cases hw.symm.trans hw'
      exact hagree
  · next hnot =>
    refine iff_of_false nofun ?_
    rintro ⟨v, w, hv, hw, -⟩
    exact hnot v w hv hw

/-- Whether an update is major can be told exactly if both payloads can be read. -/
theorem isMajorUpdate_eq_error_iff {previous current : String} {e : PayloadError} :
    isMajorUpdate previous current = .error e ↔
      e = .unreadable ∧ (Value.read? previous = none ∨ Value.read? current = none) := by
  unfold isMajorUpdate
  cases Value.read? previous <;> cases Value.read? current <;> simp [eq_comm]

/-- Whether a payload can be read as a value. -/
def Legible (payload : String) : Prop := (Value.read? payload).isSome = true

instance (payload : String) : Decidable (Legible payload) :=
  inferInstanceAs (Decidable (_ = true))

theorem legible_iff {payload : String} : Legible payload ↔ ∃ v, Value.read? payload = some v :=
  Option.isSome_iff_exists

/-- Payloads that can be read, of which the second is a minor update of the first. -/
def Minor (p q : Subtype Legible) : Prop := isMajorUpdate p.1 q.1 = .ok false

theorem minor_iff {p q : Subtype Legible} {v w : Value} (hv : Value.read? p.1 = some v)
    (hw : Value.read? q.1 = some w) : Minor p q ↔ Value.AgreeBut Heartbeat v w := by
  rw [Minor, isMajorUpdate_eq_false_iff, hv, hw]
  simp

theorem minor_equivalence : Equivalence Minor where
  refl p := by
    obtain ⟨v, hv⟩ := legible_iff.mp p.2
    exact (minor_iff hv hv).mpr fun _ _ => rfl
  symm {p q} h := by
    obtain ⟨v, hv⟩ := legible_iff.mp p.2
    obtain ⟨w, hw⟩ := legible_iff.mp q.2
    exact (minor_iff hw hv).mpr fun place hplace => ((minor_iff hv hw).mp h place hplace).symm
  trans {p q r} hpq hqr := by
    obtain ⟨u, hu⟩ := legible_iff.mp p.2
    obtain ⟨v, hv⟩ := legible_iff.mp q.2
    obtain ⟨w, hw⟩ := legible_iff.mp r.2
    exact (minor_iff hu hw).mpr fun place hplace =>
      ((minor_iff hu hv).mp hpq place hplace).trans ((minor_iff hv hw).mp hqr place hplace)

/-- **What a minor update changes.** Payloads that can be read are told apart by whether they agree
but for a heartbeat. Minor updates are so an equivalence, and at the end of a chain of them the
node is still the same but for a heartbeat. -/
theorem isMajorUpdate_equivalence :
    (∀ {previous current v w}, Value.read? previous = some v → Value.read? current = some w →
      ∃ major, isMajorUpdate previous current = .ok major ∧
        (major = false ↔ Value.AgreeBut Heartbeat v w)) ∧
    Equivalence Minor ∧
    ∀ p ps, List.IsChain Minor (p :: ps) → ∀ q ∈ ps, Minor p q := by
  refine ⟨fun {previous current v w} hv hw => ?_, minor_equivalence, fun p ps hchain q hq => ?_⟩
  · have hread : isMajorUpdate previous current =
        .ok (decide (withoutHeartbeat v ≠ withoutHeartbeat w)) := by
      rw [isMajorUpdate, hv, hw]
    refine ⟨_, hread, ?_⟩
    rw [decide_eq_false_iff_not, Decidable.not_not, withoutHeartbeat_eq_iff hv hw]
  · have : Trans Minor Minor Minor := ⟨minor_equivalence.trans⟩
    exact hchain.rel_cons hq

/-- A node with one condition, as what its metadata and the condition tell. -/
def nodeOf (metadata condition : String) : String :=
  "\x7b\"metadata\":\x7b" ++ metadata ++ "\x7d,\"status\":\x7b\"conditions\":[\x7b" ++
    condition ++ "\x7d]\x7d\x7d"

/-- A ready node with a version and the time of a heartbeat. -/
def versionedNode : Subtype Legible :=
  ⟨nodeOf "\"name\":\"n\",\"resourceVersion\":\"1\""
    "\"status\":\"True\",\"lastHeartbeatTime\":5", by decide +kernel⟩

/-- The node of `versionedNode` with another time and no version. -/
def unversionedNode : Subtype Legible :=
  ⟨nodeOf "\"name\":\"n\"" "\"lastHeartbeatTime\":null,\"status\":\"True\"", by decide +kernel⟩

/-- The node of `versionedNode` with another version and no time. -/
def untimedNode : Subtype Legible :=
  ⟨nodeOf "\"resourceVersion\":[],\"name\":\"n\"" "\"status\":\"True\"", by decide +kernel⟩

/-- The node of `versionedNode`, no longer ready. -/
def unreadyNode : Subtype Legible :=
  ⟨nodeOf "\"name\":\"n\"" "\"status\":\"False\"", by decide +kernel⟩

/-- The node is the same after two minor updates, and not the same once it is no longer ready. -/
theorem isMajorUpdate_equivalence_untimed :
    List.IsChain Minor [versionedNode, unversionedNode, untimedNode] ∧
      Minor versionedNode untimedNode ∧ isMajorUpdate untimedNode.1 unreadyNode.1 = .ok true ∧
      ¬ Minor versionedNode unreadyNode := by
  obtain ⟨-, hequivalence, hchains⟩ := isMajorUpdate_equivalence
  have hchain : List.IsChain Minor [versionedNode, unversionedNode, untimedNode] :=
    .cons_cons (eq_ok_of_toOption (by decide +kernel))
      (.cons_cons (eq_ok_of_toOption (by decide +kernel)) (.singleton _))
  have hminor : Minor versionedNode untimedNode := hchains _ _ hchain _ (by simp)
  have hmajor : isMajorUpdate untimedNode.1 unreadyNode.1 = .ok true :=
    eq_ok_of_toOption (by decide +kernel)
  refine ⟨hchain, hminor, hmajor, fun h => ?_⟩
  have hsame : Minor untimedNode unreadyNode :=
    hequivalence.trans (hequivalence.symm hminor) h
  cases hmajor.symm.trans hsame

end WatchHistory.Payload
