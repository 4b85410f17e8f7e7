import WatchHistory.Proofs.Event.Counting
import WatchHistory.Proofs.Ingest.Previous

/-!
# The latest record of an event

While the records of one event are ingested in the order of their times, the record before the next
one is the greatest observation of the event in the partitions up to that of any record (`Latest`),
so it is the one that is found (`Latest.previousEvent?_eq`). Rows that are no observation of the
event keep it so (`Latest.of_agree`, `Latest.set_other`), and the next record takes its place
(`Latest.set_next`).
-/

set_option autoImplicit false

namespace WatchHistory

open WatchHistory.Partition Store

/-! ## What a record tells -/

theorem Json.Slot.fits_of_nullable? {slot : Json.Slot} {i : Int}
    (h : slot.nullable? 0 Json.int? = some i) : Decimal.fits i = true := by
  unfold Json.Slot.nullable? Json.Slot.default? at h
  split at h
  · cases h
    decide
  · next j _ =>
    cases j with
    | null => cases h; decide
    | number n => exact Json.Numeral.fits_of_int? h
    | _ => cases h

theorem EventInfo.count_bounds {payload : String} {info : EventInfo}
    (h : EventInfo.ofPayload payload = .ok info) :
    0 ≤ info.count ∧ info.count ≤ Decimal.greatest := by
  unfold EventInfo.ofPayload Payload.read at h
  split at h
  · next found hread =>
    cases h
    obtain ⟨j, -, hj⟩ := Option.bind_eq_some_iff.mp hread
    unfold EventInfo.ofJson? at hj
    obtain ⟨slots, -, hj⟩ := Option.bind_eq_some_iff.mp hj
    split at hj
    · simp only [Option.bind_eq_bind, Option.bind_eq_some_iff, pure, Option.some.injEq] at hj
      obtain ⟨_, -, _, -, _, -, _, -, count, hcount, rfl⟩ := hj
      have hle := (Decimal.fits_iff.mp (Json.Slot.fits_of_nullable? hcount)).2
      unfold Decimal.greatest at hle ⊢
      dsimp only
      omega
    · cases hj
  · cases h

/-- What every record of one event tells. -/
structure EventIdentity where
  /-- The namespace of the event. -/
  ns : String
  name : String
  involved : InvolvedObject
  reason : String
  type : String
  first : Instant

/-- What the records of an event are counted under. -/
def EventIdentity.reasonKey (e : EventIdentity) : String := e.reason ++ ":" ++ e.type

/-- Whether an observation is a record of an event that tells `info`. -/
structure Tells (e : EventIdentity) (o : Observation) (info : EventInfo) : Prop where
  kind_eq : o.kind = Payload.eventKind
  metadata : ∃ m, Metadata.ofPayload o.payload = .ok m ∧ m.ns = e.ns ∧ m.name = e.name
  involved : InvolvedObject.ofPayload o.payload = .ok e.involved
  told : EventInfo.ofPayload o.payload = .ok info
  reason_eq : info.reason = e.reason
  type_eq : info.type = e.type
  first_eq : info.first = e.first

namespace Tells

variable {e : EventIdentity} {o : Observation} {info : EventInfo}

theorem reasonKey_eq (h : Tells e o info) : info.reasonKey = e.reasonKey := by
  rw [EventInfo.reasonKey, h.reason_eq, h.type_eq, EventIdentity.reasonKey]

theorem ofObservation (h : Tells e o info) : ∃ r, Intake.ofObservation o = .ok r ∧
    r.observation = o ∧ r.metadata.ns = e.ns ∧ r.metadata.name = e.name ∧
      r.involved = e.involved := by
  obtain ⟨m, hm, hns, hname⟩ := h.metadata
  refine ⟨⟨o, m, e.involved⟩, ?_, rfl, hns, hname, rfl⟩
  refine bind_eq_ok.mpr ⟨m, hm, ?_⟩
  rw [if_pos h.kind_eq]
  exact bind_eq_ok.mpr ⟨e.involved, h.involved, rfl⟩

end Tells

theorem tells_of_read {e : EventIdentity} {o : Observation} {info : EventInfo} {m : Metadata}
    (hkind : o.kind = Payload.eventKind)
    (hread : (Json.read? o.payload).map (fun j =>
      (Payload.envelope? "metadata" .initial Metadata.ofJson? j,
        Payload.envelope? "involvedObject" .initial InvolvedObject.ofJson? j,
        EventInfo.ofJson? j)) = some (some m, some e.involved, some info))
    (hname : m.ns = e.ns ∧ m.name = e.name) (hreason : info.reason = e.reason)
    (htype : info.type = e.type) (hfirst : info.first = e.first) : Tells e o info := by
  obtain ⟨j, hj, hall⟩ := Option.map_eq_some_iff.mp hread
  simp only [Prod.mk.injEq] at hall
  obtain ⟨hmetadata, hinvolved, hinfo⟩ := hall
  exact ⟨hkind, ⟨m, Payload.read_eq_ok hj hmetadata, hname⟩, Payload.read_eq_ok hj hinvolved,
    Payload.read_eq_ok hj hinfo, hreason, htype, hfirst⟩

/-! ## The newest observation -/

/-- Whether a record, if any, is the newest stored observation of an event, apart from those in
partitions after the ones of all records. -/
structure Latest (g : Granularity) (e : EventIdentity) (records : List Observation)
    (latest : Option Observation) (s : Store) : Prop where
  stored : ∀ o, latest = some o →
    s.get? (Key.observation g Payload.eventKind e.ns e.name o.time).render =
      some (Table.watch.write o)
  sighted : ∀ key row k, s.get? key = some row → Observes Payload.eventKind e.ns e.name key k →
    (∀ o ∈ records, g.partitionOf o.time < k.partition) ∨
      ∃ o, latest = some o ∧ ∃ u : Instant, u.Timely ∧ ¬ o.time < u ∧
        key = (Key.observation g Payload.eventKind e.ns e.name u).render

namespace Latest

variable {g : Granularity} {e : EventIdentity} {records : List Observation}
  {latest : Option Observation} {s s' : Store}

theorem of_agree (h : Latest g e records latest s) (hagree : Agree .watch s s') :
    Latest g e records latest s' := by
  refine ⟨fun o ho => ?_, fun key row k hrow hk => ?_⟩
  · obtain ⟨rest, hrest⟩ := exists_stem_append_retarget (p := g.partitionOf o.time)
      (ranked_idAt (g.floor o.time.seconds)).1
      (Key.observation g Payload.eventKind e.ns e.name o.time)
    exact (hagree _ rest hrest).symm.trans (h.stored o ho)
  · obtain ⟨rest, hrest⟩ := exists_stem_append hk.parse
    exact h.sighted key row k ((hagree key rest hrest).trans hrow) hk

theorem set_other (h : Latest g e records latest s) {kind ns name : String} {time : Instant}
    {o : Observation} (hkind : kind ≠ Payload.eventKind)
    (hset : s.set (Key.observation g kind ns name time) o = .ok s') :
    Latest g e records latest s' := by
  obtain ⟨⟨k', hk'⟩, -⟩ := set_eq_ok.mp hset
  obtain ⟨-, hkind', -⟩ := Key.of_parse_observation hk'
  refine ⟨fun o ho => ?_, fun key row k hrow hk => ?_⟩
  · rw [get?_set hset]
    split
    · next hsame =>
      rw [← hsame] at hk'
      obtain ⟨-, hevent, -⟩ := Key.of_parse_observation hk'
      exact absurd (hkind'.symm.trans hevent) hkind
    · exact h.stored o ho
  · rw [get?_set hset] at hrow
    split at hrow
    · next hsame =>
      have hparse := hk.parse
      rw [hsame, hk'] at hparse
      cases hparse
      exact absurd (hkind'.symm.trans hk.kind_eq) hkind
    · exact h.sighted key row k hrow hk

/-- A record that is kept and is later than all before it becomes the newest one of its event. -/
theorem set_next (h : Latest g e records latest s) {o : Observation} (htimely : o.time.Timely)
    (hlater : ∀ p, latest = some p → p.time < o.time)
    (hset : s.set (Key.observation g Payload.eventKind e.ns e.name o.time) o = .ok s') :
    Latest g e records (some o) s' := by
  refine ⟨fun o' ho' => ?_, fun key row k hrow hk => ?_⟩
  · cases ho'
    rw [get?_set hset, if_pos rfl]
  · rw [get?_set hset] at hrow
    split at hrow
    · next hsame => exact .inr ⟨o, rfl, o.time, htimely, StrictOrder.irrefl _, hsame⟩
    · rcases h.sighted key row k hrow hk with hafter | ⟨p, hp, u, hu, hle, hkey⟩
      · exact .inl hafter
      · exact .inr ⟨o, rfl, u, hu, fun hlt => hle (StrictOrder.trans (hlater p hp) hlt), hkey⟩

/-- `previous?` finds the newest record of the event before the one that is ingested. -/
theorem previous?_eq (h : Latest g e records latest s)
    (hsearch : Searchable Payload.eventKind e.ns e.name) {ids : List String}
    (hids : s.Lists g ids) {r : Intake} (hkind : r.observation.kind = Payload.eventKind)
    (hns : r.metadata.ns = e.ns) (hname : r.metadata.name = e.name)
    (hrecord : r.observation ∈ records) (htimely : r.observation.time.Timely)
    (hlatest : ∀ o, latest = some o → o.time.Timely ∧ o.time < r.observation.time) :
    r.previous? g s = .ok latest := by
  rw [← hkind, ← hns, ← hname] at hsearch
  have hsighted := h.sighted
  rw [← hkind, ← hns, ← hname] at hsighted
  cases latest with
  | none =>
    refine Intake.previous?_eq_none hsearch hids fun key row k hrow hk => ?_
    rcases hsighted key row k hrow hk with hafter | ⟨o, ho, -⟩
    · exact hafter _ hrecord
    · cases ho
  | some o =>
    obtain ⟨ho, hlt⟩ := hlatest o rfl
    have hstored := h.stored o rfl
    rw [← hkind, ← hns, ← hname] at hstored
    refine Intake.previous?_eq_some hsearch hids ho htimely (Instant.le_of_lt hlt) hstored
      fun key row k hrow hk => ?_
    rcases hsighted key row k hrow hk with hafter | ⟨o', ho', u, hu, hnot, hkey⟩
    · exact .inl (hafter _ hrecord)
    · cases ho'
      exact .inr ⟨u, hu, hnot, hkey⟩

end Latest

end WatchHistory
