import WatchHistory.Payload.Event
import WatchHistory.Payload.Metadata
import WatchHistory.Proofs.Json.Omission

/-!
# Payloads that leave out nulls

Every record in a payload is read with fields that may be missing or null, and so are the envelopes
around the records. So a payload tells the same whether members of it are null or left out
(`LeavesOut.read_eq`).
-/

set_option autoImplicit false

namespace WatchHistory

open Json (Indifferent indifferent_string? indifferent_int?)

theorem Owner.indifferent_ofJson? : Indifferent Owner.ofJson? := by
  refine Indifferent.record ["kind", "name", "uid"] fun slots slots' h => ?_
  rcases h with _ | ⟨hkind, _ | ⟨hname, _ | ⟨huid, _ | ⟨-, -⟩⟩⟩⟩ <;> try rfl
  simp only [hkind.nullable? indifferent_string?, hname.nullable? indifferent_string?,
    huid.nullable? indifferent_string?]

theorem Metadata.indifferent_ofJson? : Indifferent Metadata.ofJson? := by
  refine Indifferent.record ["name", "namespace", "uid", "selfLink", "resourceVersion",
    "creationTimestamp", "ownerReferences"] fun slots slots' h => ?_
  rcases h with _ | ⟨hname, _ | ⟨hns, _ | ⟨huid, _ | ⟨hlink, _ | ⟨hversion, _ | ⟨hcreation,
    _ | ⟨howners, _ | ⟨-, -⟩⟩⟩⟩⟩⟩⟩⟩ <;> try rfl
  simp only [hname.nullable? indifferent_string?, hns.nullable? indifferent_string?,
    huid.nullable? indifferent_string?, hlink.nullable? indifferent_string?,
    hversion.nullable? indifferent_string?,
    hcreation.default? indifferent_string?.optional? rfl,
    howners.nullable? Owner.indifferent_ofJson?.list?]

theorem InvolvedObject.indifferent_ofJson? : Indifferent InvolvedObject.ofJson? := by
  refine Indifferent.record ["kind", "name", "namespace", "uid"] fun slots slots' h => ?_
  rcases h with _ | ⟨hkind, _ | ⟨hname, _ | ⟨hns, _ | ⟨huid, _ | ⟨-, -⟩⟩⟩⟩⟩ <;> try rfl
  simp only [hkind.nullable? indifferent_string?, hname.nullable? indifferent_string?,
    hns.nullable? indifferent_string?, huid.nullable? indifferent_string?]

theorem EventInfo.indifferent_ofJson? : Indifferent EventInfo.ofJson? := by
  refine Indifferent.record ["reason", "type", "firstTimestamp", "lastTimestamp", "count"]
    fun slots slots' h => ?_
  rcases h with _ | ⟨hreason, _ | ⟨htype, _ | ⟨hfirst, _ | ⟨hlast, _ | ⟨hcount,
    _ | ⟨-, -⟩⟩⟩⟩⟩⟩ <;> try rfl
  simp only [hreason.nullable? indifferent_string?, htype.nullable? indifferent_string?,
    hfirst.default? indifferent_string?.optional? rfl,
    hlast.default? indifferent_string?.optional? rfl, hcount.nullable? indifferent_int?]

namespace Payload

theorem indifferent_envelope? {α : Type} {reader : Json → Option α} (h : Indifferent reader)
    (name : String) (initial : α) : Indifferent (envelope? name initial reader) := by
  refine Indifferent.record [name] fun slots slots' hslots => ?_
  rcases hslots with _ | ⟨hslot, _ | ⟨-, -⟩⟩ <;> try rfl
  exact hslot.nullable? h initial

/-- Whether two payloads are the same but for some members that the first gives as null and the
second leaves out. -/
def LeavesOut (p q : String) : Prop :=
  ∃ (j : Json) (places : List Json.Step → Bool), j.Distinct ∧
    Json.read? p = some (j.giveNull places) ∧ Json.read? q = some (j.leaveOut places)

/-- Any members of a tree that can be written and repeats none can be left out. -/
theorem leavesOut_render {j : Json} (h : j.Written) (hj : j.Distinct)
    (places : List Json.Step → Bool) :
    LeavesOut (j.giveNull places).render (j.leaveOut places).render :=
  ⟨j, places, hj, Json.read?_render (h.giveNull places), Json.read?_render (h.leaveOut places)⟩

namespace LeavesOut

variable {p q : String}

theorem read_eq (h : LeavesOut p q) {α : Type} {reader : Json → Option α}
    (hreader : Indifferent reader) : read reader p = read reader q := by
  obtain ⟨j, places, hj, hp, hq⟩ := h
  rw [read, read, hp, hq, Option.bind_some, Option.bind_some, hreader places j hj]

theorem metadata_eq (h : LeavesOut p q) : Metadata.ofPayload p = Metadata.ofPayload q :=
  h.read_eq (indifferent_envelope? Metadata.indifferent_ofJson? _ _)

theorem involved_eq (h : LeavesOut p q) :
    InvolvedObject.ofPayload p = InvolvedObject.ofPayload q :=
  h.read_eq (indifferent_envelope? InvolvedObject.indifferent_ofJson? _ _)

theorem nodeName?_eq (h : LeavesOut p q) : nodeName? p = nodeName? q := by
  unfold nodeName?
  rw [h.read_eq (indifferent_envelope? (indifferent_envelope? indifferent_string? _ _) _ _)]

theorem event_eq (h : LeavesOut p q) : EventInfo.ofPayload p = EventInfo.ofPayload q :=
  h.read_eq EventInfo.indifferent_ofJson?

end LeavesOut

end Payload

end WatchHistory
