import WatchHistory.Ingest.Stage
import WatchHistory.Proofs.Store.Previous
import WatchHistory.Proofs.Store.Rows

/-!
# What the stages write

When a stage succeeds it has written rows of its own table, and this module tells which:

* `noteActivity_eq_ok`, `keep_eq_ok`, `summarize_eq_ok`, `relate_eq_ok`, `addBuckets_eq_ok` and
  `countEvent_eq_ok` take the stages apart.
* `Stage.after` is what a stage leaves of a store, whether it fails or not, and `store_process` is
  the store after an observation; `process_induction` goes through its stages.
* `Stage.after_cases`: a stage that does not count events writes at most one row, under a key of the
  object in the partition of the observation. `Stage.after_eventCount_cases` is the stage that does.
-/

set_option autoImplicit false

namespace WatchHistory

/-! ## Stages -/

theorem Payload.read_eq_ok {α : Type} {reader : Json → Option α} {payload : String} {j : Json}
    {a : α} (hj : Json.read? payload = some j) (ha : reader j = some a) :
    Payload.read reader payload = .ok a := by
  unfold Payload.read
  rw [hj, Option.bind_some, ha]

namespace Intake

variable {r : Intake} {g : Granularity} {keepMinor : Bool} {s s' : Store}

theorem fromStore_eq_ok {α : Type} {x : Except StoreError α} {a : α} :
    fromStore x = .ok a ↔ x = .ok a := mapError_eq_ok

theorem fromPayload_eq_ok {α : Type} {x : Except PayloadError α} {a : α} :
    fromPayload x = .ok a ↔ x = .ok a := mapError_eq_ok

theorem observation_ofObservation {o : Observation} (h : ofObservation o = .ok r) :
    r.observation = o := by
  unfold ofObservation at h
  obtain ⟨metadata, -, h⟩ := bind_eq_ok.mp h
  split at h
  · obtain ⟨involved, -, h⟩ := bind_eq_ok.mp h
    cases h
    rfl
  · cases h
    rfl

theorem ofPayload_of_ofObservation {o : Observation} (h : ofObservation o = .ok r) :
    Metadata.ofPayload o.payload = .ok r.metadata := by
  unfold ofObservation at h
  obtain ⟨metadata, hmetadata, h⟩ := bind_eq_ok.mp h
  split at h
  · obtain ⟨involved, -, h⟩ := bind_eq_ok.mp h
    cases h
    exact hmetadata
  · cases h
    exact hmetadata

theorem ofObservation_at (o : Observation) (time : Instant) :
    ofObservation { o with time } =
      (ofObservation o).map fun r => { r with observation := { o with time } } := by
  unfold ofObservation
  cases Metadata.ofPayload o.payload with
  | error e => rfl
  | ok metadata =>
    dsimp only [bind, Except.bind]
    split
    · cases InvolvedObject.ofPayload o.payload <;> rfl
    · rfl

theorem previous?_error_cases {e : StoreError} (h : r.previous? g s = .error e) :
    s.tablePartitions g .watch = .error e ∨ ∃ k : Key .watch, s.get k = .error e := by
  unfold previous? at h
  dsimp only at h
  split at h
  · next found _ =>
    refine .inr ⟨found, ?_⟩
    cases hget : s.get found with
    | error e' => rw [hget] at h; cases h; rfl
    | ok row => rw [hget] at h; cases h
  · next e' he' =>
    split at h
    · cases h
    · next hfound =>
      cases h
      exact .inl ((Store.previousKey_error_cases he').resolve_right hfound)

/-- The last field of the key of an object's row: when the object was observed, or its uid. -/
def ownLast (r : Intake) : (t : Table) → t.Last
  | .watch => some r.observation.time
  | .summary | .eventCount | .activity | .relation => r.metadata.uid

/-- The key of the object's row, in the partition of the observation. -/
def ownKey (r : Intake) (g : Granularity) (t : Table) : Key t := r.key g t (r.ownLast t)

theorem noteActivity_eq_ok (hkind : r.observation.kind ≠ Payload.eventKind) :
    r.noteActivity g s = .ok s' ↔ ∃ previous activity, r.previous? g s = .ok previous ∧
      s.getOrInitial (r.key g .activity r.metadata.uid) = .ok activity ∧
      s.set (r.key g .activity r.metadata.uid)
        (activity.record (r.hasChanged previous) r.observation.time.seconds) = .ok s' := by
  unfold noteActivity
  rw [if_neg hkind]
  simp only [bind_eq_ok, fromStore_eq_ok]
  constructor
  · rintro ⟨previous, hprevious, activity, hactivity, hset⟩
    exact ⟨previous, activity, hprevious, hactivity, hset⟩
  · rintro ⟨previous, activity, hprevious, hactivity, hset⟩
    exact ⟨previous, hprevious, activity, hactivity, hset⟩

theorem isNew_of_ne (hnode : r.observation.kind ≠ Payload.nodeKind) :
    r.isNew g keepMinor s = .ok true := by
  unfold isNew
  rw [if_neg fun hboth => hnode hboth.1]
  rfl

theorem keep_eq_ok {kept : Bool} : r.keep g keepMinor s = .ok (s', kept) ↔
    r.isNew g keepMinor s = .ok kept ∧
      if kept then s.set (r.key g .watch (some r.observation.time)) r.observation = .ok s'
      else s = s' := by
  unfold keep
  simp only [bind_eq_ok]
  constructor
  · rintro ⟨new, hnew, h⟩
    split at h
    · next htrue =>
      obtain ⟨s₁, hs₁, h⟩ := bind_eq_ok.mp h
      cases h
      exact ⟨by rw [hnew, htrue], by simpa [fromStore_eq_ok] using hs₁⟩
    · next hfalse =>
      cases h
      exact ⟨by rw [hnew, Bool.eq_false_iff.mpr hfalse], by simp⟩
  · rintro ⟨hnew, h⟩
    refine ⟨kept, hnew, ?_⟩
    cases kept with
    | true => simpa [bind_eq_ok, fromStore_eq_ok, pure, Except.pure] using h
    | false => simpa [pure, Except.pure] using h

theorem summarize_eq_ok (hkind : r.observation.kind ≠ Payload.eventKind) :
    r.summarize g s = .ok s' ↔ ∃ before,
      s.find? (r.key g .summary r.metadata.uid) = .ok before ∧
      s.set (r.key g .summary r.metadata.uid)
        { r.observe before with relationships := r.ownerKeys g } = .ok s' := by
  unfold summarize
  rw [if_neg hkind]
  simp only [bind_eq_ok, fromStore_eq_ok]

theorem relate_eq_ok (hkind : r.observation.kind = Payload.podKind) :
    r.relate g s = .ok s' ↔ ∃ before node,
      s.find? (r.key g .relation r.metadata.uid) = .ok before ∧
      Payload.nodeName? r.observation.payload = .ok node ∧
      s.set (r.key g .relation r.metadata.uid)
        { r.observe before with
          relationships := addLinks (r.observe before).relationships
            (r.ownerKeys g ++ node.toList.map (r.nodeKey g)) } = .ok s' := by
  unfold relate
  rw [if_neg (Decidable.not_not.mpr hkind)]
  simp only [bind_eq_ok, fromStore_eq_ok, fromPayload_eq_ok]
  constructor
  · rintro ⟨before, hbefore, node, hnode, hset⟩
    exact ⟨before, node, hbefore, hnode, hset⟩
  · rintro ⟨before, node, hbefore, hnode, hset⟩
    exact ⟨before, hbefore, node, hnode, hset⟩

/-- The minutes of a tally with the counts of buckets added under a reason. -/
def addedTo (minutes : SortedMap Int ReasonCounts) (reason : String) (buckets : List (Int × Int)) :
    SortedMap Int ReasonCounts :=
  buckets.foldl (fun m bucket => EventTally.addTo m bucket.1 reason bucket.2) minutes

theorem addBuckets_eq_ok {reason partition : String} {buckets : List (Int × Int)} :
    r.addBuckets reason partition buckets s = .ok s' ↔ ∃ minutes,
      s.getOrInitial (r.tallyKey partition) = .ok ⟨some minutes⟩ ∧
      s.set (r.tallyKey partition) ⟨some (addedTo minutes reason buckets)⟩ = .ok s' := by
  unfold addBuckets
  simp only [bind_eq_ok, fromStore_eq_ok]
  constructor
  · rintro ⟨⟨byMinute⟩, htally, h⟩
    cases byMinute with
    | none => cases h
    | some minutes => exact ⟨minutes, htally, fromStore_eq_ok.mp h⟩
  · rintro ⟨minutes, htally, hset⟩
    exact ⟨⟨some minutes⟩, htally, fromStore_eq_ok.mpr hset⟩

/-- The minutes and counts of a delta in each partition, up to a last minute. -/
def groups (g : Granularity) (lastMinute : Int) (d : EventDelta) :
    SortedMap String (List (Int × Int)) :=
  groupMinutes g (foldMinutes lastMinute d.spread)

/-- The part of an event that is counted in a store, and the last minute that may be counted. None
is counted of an event without a first or last time or that tells nothing new, or in a store without
rows. -/
def counted? (r : Intake) (g : Granularity) (s : Store) :
    Except IngestError (Option (String × EventDelta × Int)) := do
  let current ← fromPayload (EventInfo.ofPayload r.observation.payload)
  let previous ← fromStore (r.previousEvent? g s)
  if current.first = .epoch ∨ current.last = .epoch then return none
  let delta := EventDelta.ofObservations previous current
  if delta.count = 0 then return none
  match ← fromStore s.bounds with
  | none => return none
  | some bounds =>
    let (clipped, lastMinute) ← fromStore (clip g bounds delta)
    return some (current.reasonKey, clipped, lastMinute)

/-- When and what is counted of an event: what it tells anew, cut by the window of the store. -/
theorem counted?_eq_some_iff {reason : String} {d : EventDelta} {lastMinute : Int} :
    r.counted? g s = .ok (some (reason, d, lastMinute)) ↔
      ∃ current previous bounds, EventInfo.ofPayload r.observation.payload = .ok current ∧
        r.previousEvent? g s = .ok previous ∧ ¬ (current.first = .epoch ∨ current.last = .epoch) ∧
        (EventDelta.ofObservations previous current).count ≠ 0 ∧ s.bounds = .ok (some bounds) ∧
        clip g bounds (EventDelta.ofObservations previous current) = .ok (d, lastMinute) ∧
        reason = current.reasonKey := by
  constructor
  · intro h
    obtain ⟨current, hcurrent, h⟩ := bind_eq_ok.mp h
    obtain ⟨previous, hprevious, h⟩ := bind_eq_ok.mp h
    split at h
    · cases h
    · next hepoch =>
      dsimp only at h
      split at h
      · cases h
      · next hcount =>
        obtain ⟨found, hfound, h⟩ := bind_eq_ok.mp h
        split at h
        · cases h
        · next bounds =>
          obtain ⟨⟨clipped, last⟩, hclip, h⟩ := bind_eq_ok.mp h
          cases h
          exact ⟨current, previous, bounds, fromPayload_eq_ok.mp hcurrent,
            fromStore_eq_ok.mp hprevious, hepoch, hcount, fromStore_eq_ok.mp hfound,
            fromStore_eq_ok.mp hclip, rfl⟩
  · rintro ⟨current, previous, bounds, hcurrent, hprevious, hepoch, hcount, hbounds, hclip, rfl⟩
    refine bind_eq_ok.mpr ⟨current, fromPayload_eq_ok.mpr hcurrent,
      bind_eq_ok.mpr ⟨previous, fromStore_eq_ok.mpr hprevious, ?_⟩⟩
    rw [if_neg hepoch]
    dsimp only
    rw [if_neg hcount]
    exact bind_eq_ok.mpr ⟨some bounds, fromStore_eq_ok.mpr hbounds,
      bind_eq_ok.mpr ⟨(d, lastMinute), fromStore_eq_ok.mpr hclip, rfl⟩⟩

theorem counted?_eq_none_iff : r.counted? g s = .ok none ↔
    ∃ current previous, EventInfo.ofPayload r.observation.payload = .ok current ∧
      r.previousEvent? g s = .ok previous ∧
      (current.first = .epoch ∨ current.last = .epoch ∨
        (EventDelta.ofObservations previous current).count = 0 ∨ s.bounds = .ok none) := by
  constructor
  · intro h
    obtain ⟨current, hcurrent, h⟩ := bind_eq_ok.mp h
    obtain ⟨previous, hprevious, h⟩ := bind_eq_ok.mp h
    refine ⟨current, previous, fromPayload_eq_ok.mp hcurrent, fromStore_eq_ok.mp hprevious, ?_⟩
    split at h
    · next hepoch => exact hepoch.imp_right .inl
    · dsimp only at h
      split at h
      · next hcount => exact .inr (.inr (.inl hcount))
      · obtain ⟨found, hfound, h⟩ := bind_eq_ok.mp h
        cases found with
        | none => exact .inr (.inr (.inr (fromStore_eq_ok.mp hfound)))
        | some bounds =>
          obtain ⟨clipped, -, h⟩ := bind_eq_ok.mp h
          cases h
  · rintro ⟨current, previous, hcurrent, hprevious, hwhy⟩
    refine bind_eq_ok.mpr ⟨current, fromPayload_eq_ok.mpr hcurrent,
      bind_eq_ok.mpr ⟨previous, fromStore_eq_ok.mpr hprevious, ?_⟩⟩
    by_cases hepoch : current.first = .epoch ∨ current.last = .epoch
    · exact if_pos hepoch
    · rw [if_neg hepoch]
      dsimp only
      by_cases hcount : (EventDelta.ofObservations previous current).count = 0
      · exact if_pos hcount
      · rw [if_neg hcount]
        have hbounds := ((hwhy.resolve_left fun h => hepoch (.inl h)).resolve_left
          fun h => hepoch (.inr h)).resolve_left hcount
        exact bind_eq_ok.mpr ⟨none, fromStore_eq_ok.mpr hbounds, rfl⟩

theorem counted?_eq_some {reason : String} {d : EventDelta} {lastMinute : Int}
    (h : r.counted? g s = .ok (some (reason, d, lastMinute))) :
    ∃ current previous bounds, EventInfo.ofPayload r.observation.payload = .ok current ∧
      r.previousEvent? g s = .ok previous ∧ s.bounds = .ok (some bounds) ∧
      clip g bounds (EventDelta.ofObservations previous current) = .ok (d, lastMinute) := by
  obtain ⟨current, previous, bounds, hcurrent, hprevious, -, -, hbounds, hclip, -⟩ :=
    counted?_eq_some_iff.mp h
  exact ⟨current, previous, bounds, hcurrent, hprevious, hbounds, hclip⟩

theorem countEvent_eq (hkind : r.observation.kind = Payload.eventKind) :
    r.countEvent g s = (do
      match ← r.counted? g s with
      | none => return (s, 0)
      | some (reason, delta, lastMinute) =>
        let counted ← (groups g lastMinute delta).entries.foldlM
          (fun s group => r.addBuckets reason group.1 group.2 s) s
        return (counted,
          (groups g lastMinute delta).values.foldr (fun buckets n => buckets.length + n) 0)) := by
  unfold countEvent counted?
  rw [if_neg (Decidable.not_not.mpr hkind)]
  cases fromPayload (EventInfo.ofPayload r.observation.payload) with
  | error e => rfl
  | ok current =>
    cases fromStore (r.previousEvent? g s) with
    | error e => rfl
    | ok previous =>
      by_cases hepoch : current.first = .epoch ∨ current.last = .epoch
      · simp [bind, Except.bind, pure, Except.pure, hepoch]
      · by_cases hcount : (EventDelta.ofObservations previous current).count = 0
        · simp [bind, Except.bind, pure, Except.pure, hepoch, hcount]
        · cases fromStore s.bounds with
          | error e => simp [bind, Except.bind, hepoch, hcount]
          | ok bounds =>
            cases bounds with
            | none => simp [bind, Except.bind, pure, Except.pure, hepoch, hcount]
            | some bounds =>
              cases hclip :
                  fromStore (clip g bounds (EventDelta.ofObservations previous current)) with
              | error e => simp [bind, Except.bind, hepoch, hcount, hclip]
              | ok clipped =>
                simp [bind, Except.bind, pure, Except.pure, hepoch, hcount, hclip, groups]

/-- `countEvent` leaves the store as it is, or adds what `counted?` tells, one partition after the
other. -/
theorem countEvent_eq_ok (hkind : r.observation.kind = Payload.eventKind) {minutes : Nat} :
    r.countEvent g s = .ok (s', minutes) ↔
      (r.counted? g s = .ok none ∧ s' = s ∧ minutes = 0) ∨
      ∃ reason d lastMinute, r.counted? g s = .ok (some (reason, d, lastMinute)) ∧
        (groups g lastMinute d).entries.foldlM
          (fun s group => r.addBuckets reason group.1 group.2 s) s = .ok s' ∧
        minutes = (groups g lastMinute d).values.foldr (fun buckets n => buckets.length + n) 0 := by
  rw [countEvent_eq hkind, bind_eq_ok]
  constructor
  · rintro ⟨found, hfound, h⟩
    cases found with
    | none =>
      cases h
      exact .inl ⟨hfound, rfl, rfl⟩
    | some found =>
      obtain ⟨reason, d, lastMinute⟩ := found
      obtain ⟨counted, hcounted, h⟩ := bind_eq_ok.mp h
      cases h
      exact .inr ⟨reason, d, lastMinute, hfound, hcounted, rfl⟩
  · rintro (⟨hfound, rfl, rfl⟩ | ⟨reason, d, lastMinute, hfound, hcounted, rfl⟩)
    · exact ⟨none, hfound, rfl⟩
    · exact ⟨_, hfound, bind_eq_ok.mpr ⟨s', hcounted, rfl⟩⟩

end Intake

/-! ## The store after a stage -/

namespace Stage

variable {g : Granularity} {keepMinor : Bool} {r : Intake} {s : Store}

/-- The table that a stage writes to. -/
def table : Stage → Table
  | eventCount => .eventCount
  | activity => .activity
  | watch => .watch
  | summary => .summary
  | relation => .relation

theorem table_injective {a b : Stage} (h : a.table = b.table) : a = b := by
  cases a <;> cases b <;> first | rfl | cases h

/-- What a stage leaves of a store; if it fails, the store stays as it is. -/
def after (g : Granularity) (keepMinor : Bool) (r : Intake) (s : Store) (stage : Stage) : Store :=
  match stage.run g keepMinor r s with
  | .ok (s', _) => s'
  | .error _ => s

theorem run_activity_eq_ok {s' : Store} {result : StageResult} :
    activity.run g keepMinor r s = .ok (s', result) ↔
      r.noteActivity g s = .ok s' ∧ result = .written := by
  simp only [run, map_eq_ok, Prod.mk.injEq]
  exact ⟨fun ⟨_, h, h₁, h₂⟩ => ⟨h₁ ▸ h, h₂.symm⟩, fun ⟨h, h₂⟩ => ⟨_, h, rfl, h₂.symm⟩⟩

theorem run_summary_eq_ok {s' : Store} {result : StageResult} :
    summary.run g keepMinor r s = .ok (s', result) ↔
      r.summarize g s = .ok s' ∧ result = .written := by
  simp only [run, map_eq_ok, Prod.mk.injEq]
  exact ⟨fun ⟨_, h, h₁, h₂⟩ => ⟨h₁ ▸ h, h₂.symm⟩, fun ⟨h, h₂⟩ => ⟨_, h, rfl, h₂.symm⟩⟩

theorem run_relation_eq_ok {s' : Store} {result : StageResult} :
    relation.run g keepMinor r s = .ok (s', result) ↔
      r.relate g s = .ok s' ∧ result = .written := by
  simp only [run, map_eq_ok, Prod.mk.injEq]
  exact ⟨fun ⟨_, h, h₁, h₂⟩ => ⟨h₁ ▸ h, h₂.symm⟩, fun ⟨h, h₂⟩ => ⟨_, h, rfl, h₂.symm⟩⟩

theorem run_watch_eq_ok {s' : Store} {result : StageResult} :
    watch.run g keepMinor r s = .ok (s', result) ↔
      ∃ kept, r.keep g keepMinor s = .ok (s', kept) ∧ result = .kept kept := by
  simp only [run, map_eq_ok, Prod.exists, Prod.mk.injEq]
  exact ⟨fun ⟨_, kept, h, h₁, h₂⟩ => ⟨kept, h₁ ▸ h, h₂.symm⟩,
    fun ⟨kept, h, h₂⟩ => ⟨_, kept, h, rfl, h₂.symm⟩⟩

theorem run_eventCount_eq_ok {s' : Store} {result : StageResult} :
    eventCount.run g keepMinor r s = .ok (s', result) ↔
      ∃ minutes, r.countEvent g s = .ok (s', minutes) ∧ result = .counted minutes := by
  simp only [run, map_eq_ok, Prod.exists, Prod.mk.injEq]
  exact ⟨fun ⟨_, minutes, h, h₁, h₂⟩ => ⟨minutes, h₁ ▸ h, h₂.symm⟩,
    fun ⟨minutes, h, h₂⟩ => ⟨_, minutes, h, rfl, h₂.symm⟩⟩

/-- A stage leaves what its run has written, or it fails and leaves the store as it was. -/
theorem after_spec (stage : Stage) (g : Granularity) (keepMinor : Bool) (r : Intake) (s : Store) :
    (∃ result, stage.run g keepMinor r s = .ok (stage.after g keepMinor r s, result)) ∨
      ((∃ e, stage.run g keepMinor r s = .error e) ∧ stage.after g keepMinor r s = s) := by
  unfold after
  cases h : stage.run g keepMinor r s with
  | error e => exact .inr ⟨⟨e, rfl⟩, rfl⟩
  | ok found => exact .inl ⟨found.2, rfl⟩

theorem after_eventCount_of_ne (hkind : r.observation.kind ≠ Payload.eventKind) :
    eventCount.after g keepMinor r s = s := by
  simp [after, run, Intake.countEvent, hkind, pure, Except.pure, Except.map]

theorem after_eventCount_cases (g : Granularity) (keepMinor : Bool) (r : Intake) (s : Store) :
    eventCount.after g keepMinor r s = s ∨
      ∃ reason d lastMinute, r.observation.kind = Payload.eventKind ∧
        r.counted? g s = .ok (some (reason, d, lastMinute)) ∧
        (Intake.groups g lastMinute d).entries.foldlM
          (fun s group => r.addBuckets reason group.1 group.2 s) s =
            .ok (eventCount.after g keepMinor r s) := by
  by_cases hkind : r.observation.kind = Payload.eventKind
  · rcases after_spec .eventCount g keepMinor r s with ⟨result, hrun⟩ | ⟨-, hafter⟩
    · obtain ⟨minutes, hcount, -⟩ := run_eventCount_eq_ok.mp hrun
      rcases (Intake.countEvent_eq_ok hkind).mp hcount with
        ⟨-, hsame, -⟩ | ⟨reason, d, lastMinute, hcounted, hadd, -⟩
      · exact .inl hsame
      · exact .inr ⟨reason, d, lastMinute, hkind, hcounted, hadd⟩
    · exact .inl hafter
  · exact .inl (after_eventCount_of_ne hkind)

theorem after_cases_own (g : Granularity) (keepMinor : Bool) (r : Intake) (s : Store)
    {stage : Stage} (hstage : stage ≠ .eventCount) :
    stage.after g keepMinor r s = s ∨
      (stage = .watch ∧ s.set (r.ownKey g .watch) r.observation =
        .ok (stage.after g keepMinor r s)) ∨
      ∃ (t : Table) (row : t.Row), t = stage.table ∧ t ≠ .watch ∧ t ≠ .eventCount ∧
        s.set (r.ownKey g t) row = .ok (stage.after g keepMinor r s) := by
  rcases after_spec stage g keepMinor r s with ⟨result, hrun⟩ | ⟨-, hafter⟩
  · cases stage with
    | eventCount => exact absurd rfl hstage
    | activity =>
      obtain ⟨h, -⟩ := run_activity_eq_ok.mp hrun
      by_cases hkind : r.observation.kind = Payload.eventKind
      · rw [Intake.noteActivity, if_pos hkind] at h
        exact .inl (Except.ok.inj h).symm
      · obtain ⟨_, activity, -, -, hset⟩ := (Intake.noteActivity_eq_ok hkind).mp h
        exact .inr (.inr ⟨.activity, _, rfl, by decide, by decide, hset⟩)
    | watch =>
      obtain ⟨kept, h, -⟩ := run_watch_eq_ok.mp hrun
      obtain ⟨-, hset⟩ := Intake.keep_eq_ok.mp h
      cases kept with
      | true => exact .inr (.inl ⟨rfl, hset⟩)
      | false => exact .inl (Eq.symm hset)
    | summary =>
      obtain ⟨h, -⟩ := run_summary_eq_ok.mp hrun
      by_cases hkind : r.observation.kind = Payload.eventKind
      · rw [Intake.summarize, if_pos hkind] at h
        exact .inl (Except.ok.inj h).symm
      · obtain ⟨before, -, hset⟩ := (Intake.summarize_eq_ok hkind).mp h
        exact .inr (.inr ⟨.summary, _, rfl, by decide, by decide, hset⟩)
    | relation =>
      obtain ⟨h, -⟩ := run_relation_eq_ok.mp hrun
      by_cases hkind : r.observation.kind = Payload.podKind
      · obtain ⟨before, node, -, -, hset⟩ := (Intake.relate_eq_ok hkind).mp h
        exact .inr (.inr ⟨.relation, _, rfl, by decide, by decide, hset⟩)
      · rw [Intake.relate, if_pos hkind] at h
        exact .inl (Except.ok.inj h).symm
  · exact .inl hafter

/-- A stage other than `.eventCount` writes no row, or the observation, or a row of a table of
objects for the observed object in the partition of the observation. -/
theorem after_cases (g : Granularity) (keepMinor : Bool) (r : Intake) (s : Store) {stage : Stage}
    (hstage : stage ≠ .eventCount) :
    stage.after g keepMinor r s = s ∨
      (stage = .watch ∧ s.set (r.key g .watch (some r.observation.time)) r.observation =
        .ok (stage.after g keepMinor r s)) ∨
      ∃ (t : Table) (last : t.Last) (row : t.Row), t = stage.table ∧ t ≠ .watch ∧
        t ≠ .eventCount ∧ s.set (r.key g t last) row = .ok (stage.after g keepMinor r s) := by
  rcases after_cases_own g keepMinor r s hstage with hsame | hset | ⟨t, row, hset⟩
  · exact .inl hsame
  · exact .inr (.inl hset)
  · exact .inr (.inr ⟨t, _, row, hset⟩)

end Stage

namespace Ingestion

variable {g : Granularity} {keepMinor : Bool}

theorem store_runStage (r : Intake) (i : Ingestion) (stage : Stage) :
    (runStage g keepMinor r i stage).store = stage.after g keepMinor r i.store := by
  unfold runStage Stage.after
  cases stage.run g keepMinor r i.store with
  | error e => rfl
  | ok found => rfl

theorem store_foldl_runStage (r : Intake) (stages : List Stage) (i : Ingestion) :
    (stages.foldl (runStage g keepMinor r) i).store =
      stages.foldl (Stage.after g keepMinor r) i.store := by
  induction stages generalizing i with
  | nil => rfl
  | cons stage stages ih => rw [List.foldl_cons, ih, store_runStage, List.foldl_cons]

theorem store_process (i : Ingestion) (o : Observation) :
    (process g keepMinor i o).store = match Intake.ofObservation o with
      | .error _ => i.store
      | .ok r => (stagesFor o.kind).foldl (Stage.after g keepMinor r) i.store := by
  unfold process
  cases Intake.ofObservation o with
  | error e => rfl
  | ok r => exact store_foldl_runStage r _ _

/-- Ingesting an observation keeps what every stage that runs for it keeps. -/
theorem process_induction_of_read {P : Store → Prop} {o : Observation}
    (hafter : ∀ (r : Intake) (stage : Stage) (s : Store), Intake.ofObservation o = .ok r → P s →
      P (stage.after g keepMinor r s)) {i : Ingestion} (h : P i.store) :
    P (process g keepMinor i o).store := by
  rw [store_process]
  cases hread : Intake.ofObservation o with
  | error e => exact h
  | ok r => exact List.foldlRecOn _ _ h fun s hs stage _ => hafter r stage s hread hs

theorem process_induction {P : Store → Prop} {o : Observation}
    (hafter : ∀ (r : Intake) (stage : Stage) (s : Store), r.observation = o → P s →
      P (stage.after g keepMinor r s)) {i : Ingestion} (h : P i.store) :
    P (process g keepMinor i o).store :=
  process_induction_of_read
    (fun r stage s hread hs => hafter r stage s (Intake.observation_ofObservation hread) hs) h

/-- A run keeps what ingesting each of its observations keeps. -/
theorem processAll_induction {P : Store → Prop} {os : List Observation}
    (hprocess : ∀ o ∈ os, ∀ i : Ingestion, P i.store → P (process g keepMinor i o).store)
    {i : Ingestion} (h : P i.store) : P (processAll g keepMinor i os).store :=
  List.foldlRecOn (motive := fun i : Ingestion => P i.store) os (process g keepMinor) h
    fun i hi o ho => hprocess o ho i hi

theorem processAll_concat {i : Ingestion} {os : List Observation} {o : Observation} :
    processAll g keepMinor i (os ++ [o]) = process g keepMinor (processAll g keepMinor i os) o :=
  List.foldl_append

theorem stagesFor_event : stagesFor Payload.eventKind = [.eventCount, .watch] := by decide

theorem stagesFor_of_ne {kind : String} (h : kind ≠ Payload.eventKind) :
    stagesFor kind =
      .activity :: .watch :: .summary :: if kind = Payload.podKind then [.relation] else [] := by
  by_cases hpod : kind = Payload.podKind
  · subst hpod
    decide
  · simp [stagesFor, Stage.all, Stage.appliesTo, h, hpod]

theorem eventCount_notMem_stagesFor {kind : String} (h : kind ≠ Payload.eventKind) :
    .eventCount ∉ stagesFor kind := by
  simp [stagesFor, Stage.all, Stage.appliesTo, h]

end Ingestion

end WatchHistory
