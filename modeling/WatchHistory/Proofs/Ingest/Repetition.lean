import WatchHistory.Proofs.Event.Conservation
import WatchHistory.Proofs.Event.Repeated
import WatchHistory.Proofs.Ingest.Kept
import WatchHistory.Proofs.Ingest.Recovery

/-!
# Ingesting an event again

When an event is ingested for a second time, its first row is the observation before, if no text of
another time in the partition comes behind it (`Intake.previous?_process`). So it is told apart from
itself, and counted again only if it ends before it starts.

* `Ingestion.process_event`: when no stage fails for an event, and what it leaves then.
* `agree_process_again_iff`: the step. An event that is ingested again changes a tally exactly if it
  is counted again and the counting does not fail.
* `ingested_event_again`: what this comes to in a run.
* `process_recounted`: an event that ends before it starts is counted in full, however often it was
  told before.
-/

set_option autoImplicit false

namespace WatchHistory

open WatchHistory.Partition Store

namespace Ingestion

variable {g : Granularity} {keepMinor : Bool} {r : Intake}

/-! ## Runs in which no stage fails -/

theorem stageFailures_runStage_of_ok {i : Ingestion} {stage : Stage} {found : Store × StageResult}
    (h : stage.run g keepMinor r i.store = .ok found) :
    (runStage g keepMinor r i stage).counters.stageFailures = i.counters.stageFailures := by
  obtain ⟨s, result⟩ := found
  unfold runStage
  rw [h]
  cases result <;> rfl

theorem stageFailures_runStage_of_error {i : Ingestion} {stage : Stage} {e : IngestError}
    (h : stage.run g keepMinor r i.store = .error e) :
    (runStage g keepMinor r i stage).counters.stageFailures = i.counters.stageFailures + 1 := by
  unfold runStage
  rw [h]

theorem stageFailures_le_foldl (g : Granularity) (keepMinor : Bool) (r : Intake)
    (stages : List Stage) (i : Ingestion) :
    i.counters.stageFailures ≤
      (stages.foldl (runStage g keepMinor r) i).counters.stageFailures := by
  induction stages generalizing i with
  | nil => exact Nat.le_refl _
  | cons stage stages ih =>
    refine Nat.le_trans ?_ (ih _)
    cases h : stage.run g keepMinor r i.store with
    | ok found => rw [stageFailures_runStage_of_ok h]
    | error e =>
      rw [stageFailures_runStage_of_error h]
      exact Nat.le_succ _

theorem stageFailures_foldl_cons_iff (g : Granularity) (keepMinor : Bool) (r : Intake)
    (i : Ingestion) (stage : Stage) (stages : List Stage) :
    ((stage :: stages).foldl (runStage g keepMinor r) i).counters.stageFailures =
        i.counters.stageFailures ↔
      (∃ result, stage.run g keepMinor r i.store =
        .ok (stage.after g keepMinor r i.store, result)) ∧
      (stages.foldl (runStage g keepMinor r)
        (runStage g keepMinor r i stage)).counters.stageFailures =
          (runStage g keepMinor r i stage).counters.stageFailures := by
  rw [List.foldl_cons]
  have hle := stageFailures_le_foldl g keepMinor r stages (runStage g keepMinor r i stage)
  rcases Stage.after_spec stage g keepMinor r i.store with ⟨result, hrun⟩ | ⟨⟨e, hrun⟩, -⟩
  · rw [stageFailures_runStage_of_ok hrun]
    exact ⟨fun h => ⟨⟨result, hrun⟩, h⟩, fun h => h.2⟩
  · rw [stageFailures_runStage_of_error hrun] at hle ⊢
    refine iff_of_false (by omega) ?_
    rintro ⟨⟨result, hok⟩, -⟩
    cases hrun.symm.trans hok

theorem store_process_event {o : Observation} (hread : Intake.ofObservation o = .ok r)
    (hkind : o.kind = Payload.eventKind) (i : Ingestion) :
    (process g keepMinor i o).store =
      Stage.watch.after g keepMinor r (Stage.eventCount.after g keepMinor r i.store) := by
  rw [store_process, hread, hkind, stagesFor_event]
  rfl

theorem run_watch_iff {s s' : Store} {result : StageResult}
    (hnode : r.observation.kind ≠ Payload.nodeKind) :
    Stage.watch.run g keepMinor r s = .ok (s', result) ↔
      s.set (r.key g .watch (some r.observation.time)) r.observation = .ok s' ∧
        result = .kept true := by
  rw [Stage.run_watch_eq_ok]
  simp only [Intake.keep_eq_ok, Intake.isNew_of_ne hnode, Except.ok.injEq]
  constructor
  · rintro ⟨kept, ⟨rfl, hset⟩, rfl⟩
    exact ⟨by simpa using hset, rfl⟩
  · rintro ⟨hset, rfl⟩
    exact ⟨true, ⟨rfl, by simpa using hset⟩, rfl⟩

/-- No stage fails for an event exactly if it can be counted and its key is read; then it is counted
and kept. -/
theorem process_event {o : Observation} (hread : Intake.ofObservation o = .ok r)
    (hkind : o.kind = Payload.eventKind) {i : Ingestion} :
    (process g keepMinor i o).counters.stageFailures = i.counters.stageFailures ↔
      (∃ minutes, r.countEvent g i.store =
        .ok (Stage.eventCount.after g keepMinor r i.store, minutes)) ∧
      (Stage.eventCount.after g keepMinor r i.store).set
        (Key.observation g r.object.kind r.object.ns r.object.name o.time) o =
          .ok (process g keepMinor i o).store := by
  obtain rfl := Intake.observation_ofObservation hread
  have hstages : process g keepMinor i r.observation =
      [Stage.eventCount, .watch].foldl (runStage g keepMinor r)
        { i with counters := { i.counters with received := i.counters.received + 1 } } := by
    unfold process
    rw [hread, hkind, stagesFor_event]
  have hfailures := stageFailures_foldl_cons_iff g keepMinor r
    { i with counters := { i.counters with received := i.counters.received + 1 } }
    .eventCount [.watch]
  rw [← hstages, stageFailures_foldl_cons_iff, store_runStage] at hfailures
  refine hfailures.trans (and_congr ?_ ?_)
  · simp only [Stage.run_eventCount_eq_ok]
    exact ⟨fun ⟨_, minutes, h, _⟩ => ⟨minutes, h⟩, fun ⟨minutes, h⟩ => ⟨_, minutes, h, rfl⟩⟩
  · rw [store_process_event hread hkind]
    simp only [run_watch_iff (show r.observation.kind ≠ _ by rw [hkind]; decide), List.foldl_nil,
      and_true]
    exact ⟨fun ⟨_, h, _⟩ => h, fun h => ⟨_, h, rfl⟩⟩

end Ingestion

/-! ## Counting an event again -/

namespace Intake

variable {g : Granularity} {r : Intake} {s : Store}

theorem info_of_countEvent {found : Store × Nat} (hkind : r.observation.kind = Payload.eventKind)
    (h : r.countEvent g s = .ok found) :
    ∃ e, EventInfo.ofPayload r.observation.payload = .ok e := by
  rw [countEvent_eq hkind] at h
  obtain ⟨_, hcounted, -⟩ := bind_eq_ok.mp h
  obtain ⟨e, he, -⟩ := bind_eq_ok.mp hcounted
  exact ⟨e, fromPayload_eq_ok.mp he⟩

/-- An event that was told before `Adds` to a store exactly if it is `Recounted` and the counting
does not fail. -/
theorem adds_iff_recounted {e : EventInfo} (hkind : r.observation.kind = Payload.eventKind)
    (he : EventInfo.ofPayload r.observation.payload = .ok e)
    (hprevious : r.previousEvent? g s = .ok (some e)) :
    r.Adds g s ↔ e.Recounted g s ∧ ∃ found, r.countEvent g s = .ok found := by
  unfold Adds
  rw [if_pos hkind]
  constructor
  · rintro ⟨s', minutes, hcount, hne⟩
    exact ⟨(minutes_ne_zero_iff hkind he hprevious hcount).mp hne, _, hcount⟩
  · rintro ⟨hrecounted, ⟨s', minutes⟩, hcount⟩
    exact ⟨s', minutes, hcount, (minutes_ne_zero_iff hkind he hprevious hcount).mpr hrecounted⟩

theorem previousEvent?_eq {o : Observation} {e : EventInfo} (h : r.previous? g s = .ok (some o))
    (he : EventInfo.ofPayload o.payload = .ok e) : r.previousEvent? g s = .ok (some e) := by
  unfold previousEvent?
  rw [h]
  show Except.ok (EventInfo.ofPayload o.payload).toOption = _
  rw [he]
  rfl

end Intake

/-! ## Repetitions -/

/-- How many stages have failed for observations. -/
def failedStages (g : Granularity) (keepMinor : Bool) (os : List Observation) : Nat :=
  (Ingestion.processAll g keepMinor ⟨.empty, .zero⟩ os).counters.stageFailures

/-- Whether an observation that can be read tells of an event that is counted again. -/
def Observation.Recounted (o : Observation) (g : Granularity) (s : Store) : Prop :=
  (∃ r, Intake.ofObservation o = .ok r) ∧
    ∃ e, EventInfo.ofPayload o.payload = .ok e ∧ e.Recounted g s

/-- Whether an observation of an object with a name comes behind all others of the object that are
kept in its partition, in the order of the texts of their times. -/
def Observation.Newest (o : Observation) (g : Granularity) (os : List Observation) (s : Store) :
    Prop :=
  ∀ x, o.object? = some x → x.name ≠ "" ∧ ∀ p ∈ os, s.Keeps g x p →
    g.partitionOf p.time = g.partitionOf o.time →
      ¬ Key.instantText o.time < Key.instantText p.time

theorem Observation.Newest.of_agree {o : Observation} {g : Granularity} {os : List Observation}
    {s s' : Store} (h : o.Newest g os s) (hagree : Agree .watch s s') : o.Newest g os s' := by
  intro x hx
  obtain ⟨hnamed, hnewest⟩ := h x hx
  exact ⟨hnamed, fun p hp hkept => hnewest p hp (hkept.of_agree hagree.symm)⟩

section

variable {g : Granularity} {keepMinor : Bool} {os : List Observation} {o : Observation}
  {i : Ingestion}

theorem Intake.previous?_of_newest {r again : Intake} {s s' : Store}
    (hread : Intake.ofObservation o = .ok r) (hobject : again.object = r.object)
    (hpartition : g.partitionOf o.time = g.partitionOf again.observation.time)
    (hrecords : s.Records g (· ∈ os)) (hnewest : o.Newest g os s)
    (hset : s.set (Key.observation g r.object.kind r.object.ns r.object.name o.time) o = .ok s') :
    again.previous? g s' = .ok (some o) := by
  have hread' := Intake.object?_of_ofObservation hread
  obtain ⟨hnamed, hnewest⟩ := hnewest _ hread'
  obtain ⟨⟨k, hk⟩, -⟩ := set_eq_ok.mp hset
  obtain ⟨hkind, hns, hname⟩ := ObjectName.mk.inj hobject
  have hrecords' : s'.Records g (· ∈ os ++ [o]) :=
    (hrecords.mono fun p hp => List.mem_append_left _ hp).set hread' (by simp) hset
  have hkept : s'.Keeps g r.object o := ⟨hread', (get?_set hset _).trans (if_pos rfl)⟩
  refine previous?_of_greatest (k := k) (hname ▸ hnamed) hrecords' (hobject ▸ hkept)
    (by rw [hkind, hns, hname]; exact hk) hpartition fun p hp hkept' hsame => ?_
  rw [hobject] at hkept'
  by_cases hkey : (Key.observation g r.object.kind r.object.ns r.object.name p.time).render =
      (Key.observation g r.object.kind r.object.ns r.object.name o.time).render
  · rw [← Key.observation_lt_iff (Key.searchable_of_parse hk hnamed) hsame.symm]
    exact fun hlt => String.lt_irrefl _ (hkey ▸ hlt)
  · rcases List.mem_append.mp hp with hp | hp
    · have hrow := hkept'.row
      rw [get?_set hset, if_neg hkey] at hrow
      exact hnewest p hp ⟨hkept'.object_eq, hrow⟩ hsame
    · exact absurd (by rw [List.mem_singleton.mp hp]) hkey

theorem agree_process_iff {r : Intake} (hread : Intake.ofObservation o = .ok r)
    (hkind : o.kind = Payload.eventKind) :
    Agree .eventCount i.store (Ingestion.process g keepMinor i o).store ↔
      ¬ r.Adds g i.store := by
  have hfirst : r.firstStage = .eventCount := by
    rw [Intake.firstStage, Intake.observation_ofObservation hread, if_pos hkind]
  have hwatch : Agree .eventCount (Stage.eventCount.after g keepMinor r i.store)
      (Ingestion.process g keepMinor i o).store := by
    rw [Ingestion.store_process_event hread hkind]
    exact Stage.agree_after (by decide)
  constructor
  · intro hagree hadds
    have hnot := Intake.not_agree_of_adds keepMinor hadds
    rw [hfirst] at hnot
    exact hnot (hagree.trans hwatch.symm)
  · intro hnot
    have hsame : r.firstStage.after g keepMinor r i.store = i.store :=
      Intake.after_eq_of_not_adds hnot
    rw [hfirst] at hsame
    rwa [hsame] at hwatch

theorem Intake.previous?_process {later : Instant} {r again : Intake}
    (hread : Intake.ofObservation o = .ok r)
    (hagain : Intake.ofObservation { o with time := later } = .ok again)
    (hkind : o.kind = Payload.eventKind)
    (hrun : (Ingestion.process g keepMinor i o).counters.stageFailures = i.counters.stageFailures)
    (hrecords : i.store.Records g (· ∈ os)) (hnewest : o.Newest g os i.store)
    (hlater : g.partitionOf later = g.partitionOf o.time) :
    again.previous? g (Ingestion.process g keepMinor i o).store = .ok (some o) := by
  obtain ⟨-, hset⟩ := (Ingestion.process_event hread hkind).mp hrun
  have hobject : again.object = r.object := by
    have hobject := Intake.object?_of_ofObservation hread
    have hobject' := Intake.object?_of_ofObservation hagain
    exact Option.some.inj (hobject'.symm.trans hobject)
  have hframe : Agree .watch i.store (Stage.eventCount.after g keepMinor r i.store) :=
    Stage.agree_after (by decide)
  exact Intake.previous?_of_newest hread hobject
    (by rw [Intake.observation_ofObservation hagain, hlater]) (hrecords.of_agree hframe)
    (hnewest.of_agree hframe) hset

/-- An event that is ingested again right after it was changes a tally exactly if it is `Recounted`
and the counting does not fail. -/
theorem agree_process_again_iff {later : Instant} {r again : Intake}
    (hread : Intake.ofObservation o = .ok r)
    (hagain : Intake.ofObservation { o with time := later } = .ok again)
    (hkind : o.kind = Payload.eventKind)
    (hrun : (Ingestion.process g keepMinor i o).counters.stageFailures = i.counters.stageFailures)
    (hrecords : i.store.Records g (· ∈ os)) (hnewest : o.Newest g os i.store)
    (hlater : g.partitionOf later = g.partitionOf o.time) :
    Agree .eventCount (Ingestion.process g keepMinor i o).store
        (Ingestion.process g keepMinor (Ingestion.process g keepMinor i o)
          { o with time := later }).store ↔
      ¬ (o.Recounted g (Ingestion.process g keepMinor i o).store ∧
        ∃ found, again.countEvent g (Ingestion.process g keepMinor i o).store = .ok found) := by
  obtain ⟨⟨minutes, hcount⟩, -⟩ := (Ingestion.process_event hread hkind).mp hrun
  have hobservation := Intake.observation_ofObservation hread
  have hobservation' := Intake.observation_ofObservation hagain
  obtain ⟨e, he⟩ := Intake.info_of_countEvent (by rw [hobservation, hkind]) hcount
  rw [hobservation] at he
  have hprevious :=
    Intake.previous?_process hread hagain hkind hrun hrecords hnewest hlater
  have hadds := Intake.adds_iff_recounted (by rw [hobservation', hkind])
    (by rw [hobservation', he]) (Intake.previousEvent?_eq hprevious he)
  rw [agree_process_iff hagain hkind, hadds]
  refine not_congr (and_congr_left fun _ => ⟨fun h => ⟨⟨r, hread⟩, e, he, h⟩, ?_⟩)
  rintro ⟨-, e', he', h⟩
  obtain rfl := Except.ok.inj (he.symm.trans he')
  exact h

theorem Observation.newest_of_later {s : Store} {x : ObjectName} (hobject : o.object? = some x)
    (hnamed : x.name ≠ "") (htimely : o.time.Timely)
    (hlater : ∀ p ∈ os, s.Keeps g x p → p.time.Timely ∧ p.time < o.time) : o.Newest g os s := by
  intro x' hx'
  obtain rfl := Option.some.inj (hobject.symm.trans hx')
  refine ⟨hnamed, fun p hp hkept _ => ?_⟩
  obtain ⟨htimely', hlt⟩ := hlater p hp hkept
  rw [htimely.instantText_lt_iff htimely']
  exact Instant.le_of_lt hlt

/-- **Ingesting an event again**, or a copy of it with another time of the same partition, changes
no tally unless the event is counted again, if no stage failed for it the first time and no text of
another time in its partition comes behind that of its own; the texts of times of nineteen digits
are ordered as the times are. If the event is counted again and no stage fails for it the second
time either, a tally is changed. -/
theorem ingested_event_again {later : Instant} (hkind : o.kind = Payload.eventKind)
    (hrun : failedStages g keepMinor (os ++ [o]) = failedStages g keepMinor os)
    (hnewest : o.Newest g os (ingested g keepMinor os))
    (hlater : g.partitionOf later = g.partitionOf o.time) :
    (¬ o.Recounted g (ingested g keepMinor (os ++ [o])) →
      Agree .eventCount (ingested g keepMinor (os ++ [o]))
        (ingested g keepMinor (os ++ [o] ++ [{ o with time := later }]))) ∧
    (o.Recounted g (ingested g keepMinor (os ++ [o])) →
      failedStages g keepMinor (os ++ [o] ++ [{ o with time := later }]) =
        failedStages g keepMinor (os ++ [o]) →
      ¬ Agree .eventCount (ingested g keepMinor (os ++ [o]))
        (ingested g keepMinor (os ++ [o] ++ [{ o with time := later }]))) := by
  have hrecords := records_ingested g keepMinor os
  simp only [failedStages, ingested, Ingestion.processAll_concat] at *
  generalize Ingestion.processAll g keepMinor ⟨.empty, .zero⟩ os = i at *
  have hagain := Intake.ofObservation_at o later
  cases hread : Intake.ofObservation o with
  | error e =>
    rw [hread] at hagain
    refine ⟨fun _ => ?_, fun ⟨⟨r, hr⟩, _⟩ => ?_⟩
    · rw [Ingestion.store_process (o := { o with time := later }), hagain]
      exact .refl _ _
    · rw [hread] at hr
      cases hr
  | ok r =>
    rw [hread] at hagain
    have hiff := agree_process_again_iff hread hagain hkind hrun hrecords hnewest hlater
    refine ⟨fun hnot => hiff.mpr fun h => hnot h.1, fun hrecounted hrun' hagree =>
      hiff.mp hagree ⟨hrecounted, ?_⟩⟩
    obtain ⟨⟨minutes, hcount⟩, -⟩ := (Ingestion.process_event hagain hkind).mp hrun'
    exact ⟨_, hcount⟩

end

/-- A copy of the record `failedTwice`, made three minutes later, adds nothing. -/
theorem ingested_failedTwice_again :
    failedTwice.Newest .hour [Ingestion.firstPod] (ingested .hour false [Ingestion.firstPod]) ∧
      failedStages .hour false ([Ingestion.firstPod] ++ [failedTwice]) =
        failedStages .hour false [Ingestion.firstPod] ∧
      Agree .eventCount (ingested .hour false ([Ingestion.firstPod] ++ [failedTwice]))
        (ingested .hour false ([Ingestion.firstPod] ++ [failedTwice] ++
          [{ failedTwice with time := startAt 1546301100 }])) := by
  obtain ⟨r, hread, hobservation, -, hname, -⟩ := tells_failedTwice.ofObservation
  have hobject := Intake.object?_of_ofObservation hread
  have hother : Ingestion.firstPod.object? ≠ failedTwice.object? := by decide +kernel
  have hnewest : failedTwice.Newest .hour [Ingestion.firstPod]
      (ingested .hour false [Ingestion.firstPod]) :=
    Observation.newest_of_later hobject (show r.metadata.name ≠ "" by rw [hname]; decide)
      ⟨by decide, by decide, by decide⟩ fun p hp hkept => by
        obtain rfl := List.mem_singleton.mp hp
        exact absurd (hkept.object_eq.trans hobject.symm) hother
  have hrun : failedStages .hour false ([Ingestion.firstPod] ++ [failedTwice]) =
      failedStages .hour false [Ingestion.firstPod] := by decide +kernel
  refine ⟨hnewest, hrun, (ingested_event_again rfl hrun hnewest (by rfl)).1 ?_⟩
  rintro ⟨-, e, he, hrecounted⟩
  obtain rfl := Except.ok.inj (tells_failedTwice.told.symm.trans he)
  exact absurd hrecounted.inverted (by decide)

/-! ## Events that end before they start -/

section

variable {g : Granularity} {keepMinor : Bool} {os : List Observation}

/-- **An event that ends before it starts**, with both ends nearest to one minute of the store, is
counted in full, also if it was told before. -/
theorem process_recounted (keepMinor : Bool) {e : EventIdentity} {info : EventInfo}
    {previous : Option EventInfo} {r : Intake} {o : Observation} {i : Ingestion} {room : Int}
    (h : Ledger g e.involved e.reasonKey room i.store) (hobject : e.involved.Countable)
    (hsearch : Searchable Payload.eventKind e.ns e.name)
    (hread : Intake.ofObservation o = .ok r) (htells : Tells e o info) (htimely : o.time.Timely)
    (hprevious : r.previousEvent? g i.store = .ok previous)
    (hdelta : EventDelta.ofObservations previous info = .ofInfo info)
    (hrecounted : info.Recounted g i.store) (hcount : info.count ≤ room)
    (hroom : room ≤ Decimal.greatest) :
    (Ingestion.process g keepMinor i o).counters.stageFailures = i.counters.stageFailures ∧
      Ledger g e.involved e.reasonKey (room - info.count)
        (Ingestion.process g keepMinor i o).store ∧
      (Ingestion.process g keepMinor i o).store.eventTotal e.involved e.reasonKey =
        i.store.eventTotal e.involved e.reasonKey + info.count := by
  obtain ⟨r', hread', hobservation, hns, hname, hinvolved⟩ := htells.ofObservation
  obtain rfl := Except.ok.inj (hread.symm.trans hread')
  subst hobservation
  have hkind := htells.kind_eq
  rw [← hinvolved, ← htells.reasonKey_eq] at h
  obtain ⟨s, minutes, hcounted, hledger, htotal⟩ := countEvent_adds h (hinvolved ▸ hobject) hkind
    htells.told hprevious hrecounted.first_ne hrecounted.last_ne hdelta
    (EventDelta.sum_spread_of_le (Int.le_of_eq hrecounted.nearest_eq) (.inr hrecounted.nearest_eq))
    hrecounted.within (EventInfo.count_bounds htells.told).1 hcount hroom
  have hafter : Stage.eventCount.after g keepMinor r i.store = s := by
    unfold Stage.after
    rw [Stage.run_eventCount_eq_ok.mpr ⟨minutes, hcounted, rfl⟩]
  have hset := Tracked.set_after_watch (g := g) (s := s) keepMinor hsearch hkind hns hname htimely
  rw [← hns, ← hname, ← hkind, ← hafter, ← Ingestion.store_process_event hread hkind] at hset
  obtain ⟨hrange, -⟩ := htimely.inRange g
  refine ⟨(Ingestion.process_event hread hkind).mpr ⟨⟨minutes, hafter ▸ hcounted⟩, hset⟩, ?_, ?_⟩
  · rw [← hinvolved, ← htells.reasonKey_eq]
    exact (hafter ▸ hledger).set_of_ne rfl hrange (g.dvd_floor _) (by decide) hset
  · rw [eventTotal_set_of_ne hset (by decide), hafter, htotal, hinvolved, htells.reasonKey_eq,
      if_pos ⟨rfl, rfl⟩]

theorem bounds_ingested_of_partition {second : Int} {key row : String}
    (hos : ∀ o ∈ os, g.partitionOf o.time = idAt second)
    (hrow : (ingested g keepMinor os).get? key = some row) :
    (ingested g keepMinor os).bounds = .ok (some (idAt second, idAt second)) := by
  have hgrounded : Grounded g os (ingested g keepMinor os) := grounded_processAll g keepMinor os
  obtain ⟨b, hb, hspans⟩ := bounds_spec hgrounded.keyed
  cases b with
  | none =>
    obtain ⟨t, second', hfiled, -⟩ := hgrounded key row hrow
    exact absurd ⟨t, key, row, hrow, hfiled⟩ (hspans (idAt second'))
  | some bounds =>
    obtain ⟨first, hfirst, last, hlast, hmin, hmax, -⟩ := hgrounded.bounds hb
    rw [hos first hfirst] at hmin
    rw [hos last hlast] at hmax
    rw [hb, show bounds = (idAt second, idAt second) from Prod.ext hmin hmax]

/-- A container that fails for the first time after eighty seconds of 2019. -/
def skewed : EventIdentity := { failing with first := startAt 1546300880 }

/-- The record of `skewed` in which it fails for the last time ten seconds before it first does, by
a clock that is slow. -/
def skewedEvent : Observation where
  time := startAt 1546301100
  kind := "Event"
  change := .add
  payload := "\x7b\"metadata\":\x7b\"name\":\"e\"\x7d," ++
    "\"involvedObject\":\x7b\"uid\":\"web\"\x7d,\"firstTimestamp\":\"2019-01-01T00:01:20Z\"," ++
    "\"lastTimestamp\":\"2019-01-01T00:01:10Z\",\"count\":5\x7d"

/-- What `skewedEvent` tells. -/
def skewedInfo : EventInfo := ⟨"", "", startAt 1546300880, startAt 1546300870, 5⟩

theorem tells_skewedEvent : Tells skewed skewedEvent skewedInfo :=
  tells_of_read (m := { Metadata.initial with name := "e" }) rfl (by decide +kernel) ⟨rfl, rfl⟩
    rfl rfl rfl

theorem tracked_empty (g : Granularity) (e : EventIdentity) (info : Observation → EventInfo)
    (records : List Observation) (target : Int) :
    Tracked g e info records target none .empty where
  ledger := ⟨fun _ _ h => (by cases h), fun _ _ _ h => (by cases h)⟩
  latest := ⟨fun _ h => (by cases h), fun _ _ _ h => (by cases h)⟩

theorem recounted_skewedInfo {s : Store}
    (hbounds : s.bounds = .ok (some (idAt 1546300800, idAt 1546300800))) :
    skewedInfo.Recounted .hour s where
  inverted := by decide
  nearest_eq := by decide
  count_ne := by decide
  first_ne := by decide
  last_ne := by decide
  within := within_of_bounds (by decide) (by decide) (by decide) hbounds (by decide) (by decide)

theorem timely_skewedEvent : skewedEvent.time.Timely := ⟨by decide, by decide, by decide⟩

theorem ingested_concat_skewedEvent (keepMinor : Bool) (os : List Observation) {key row : String}
    (h : Tracked .hour skewed (fun _ => skewedInfo) [skewedEvent] 10 none
      (ingested .hour keepMinor os))
    (hos : ∀ o ∈ os, Granularity.hour.partitionOf o.time = idAt 1546300800)
    (hother : ∀ o ∈ os, o.object? ≠ skewedEvent.object?)
    (hrow : (ingested .hour keepMinor os).get? key = some row) :
    failedStages .hour keepMinor (os ++ [skewedEvent]) = failedStages .hour keepMinor os ∧
      (ingested .hour keepMinor (os ++ [skewedEvent])).eventTotal skewed.involved
        skewed.reasonKey =
          (ingested .hour keepMinor os).eventTotal skewed.involved skewed.reasonKey + 5 ∧
      (ingested .hour keepMinor (os ++ [skewedEvent, skewedEvent])).eventTotal skewed.involved
        skewed.reasonKey =
          (ingested .hour keepMinor os).eventTotal skewed.involved skewed.reasonKey + 10 ∧
      ¬ Agree .eventCount (ingested .hour keepMinor (os ++ [skewedEvent]))
        (ingested .hour keepMinor (os ++ [skewedEvent, skewedEvent])) := by
  have hkind : skewedEvent.kind = Payload.eventKind := rfl
  have hsearch : Searchable Payload.eventKind skewed.ns skewed.name :=
    ⟨by decide, by decide, by decide, by decide⟩
  have hobject : skewed.involved.Countable :=
    ⟨by decide, by decide, by decide, by decide, by decide⟩
  have hpartition : Granularity.hour.partitionOf skewedEvent.time = idAt 1546300800 := rfl
  obtain ⟨r, hread, hobservation, hns, hname, -⟩ := Tells.ofObservation tells_skewedEvent
  have hrecords := records_ingested .hour keepMinor os
  have hnewest : skewedEvent.Newest .hour os (ingested .hour keepMinor os) :=
    Observation.newest_of_later (Intake.object?_of_ofObservation hread)
      (show r.metadata.name ≠ "" by rw [hname]; decide) timely_skewedEvent fun p hp hkept =>
        absurd (hkept.object_eq.trans (Intake.object?_of_ofObservation hread).symm) (hother p hp)
  have hrecounted := recounted_skewedInfo (bounds_ingested_of_partition hos hrow)
  have hbounds' : ∀ row', (ingested .hour keepMinor (os ++ [skewedEvent])).get?
      (Key.observation .hour r.object.kind r.object.ns r.object.name skewedEvent.time).render =
        some row' → (ingested .hour keepMinor (os ++ [skewedEvent])).bounds =
          .ok (some (idAt 1546300800, idAt 1546300800)) := fun row' hrow' =>
    bounds_ingested_of_partition (fun o ho => (List.mem_append.mp ho).elim (hos o) fun ho =>
      List.mem_singleton.mp ho ▸ hpartition) hrow'
  have happend : os ++ [skewedEvent, skewedEvent] = os ++ [skewedEvent] ++ [skewedEvent] := by simp
  rw [happend]
  simp only [failedStages, ingested, Ingestion.processAll_concat] at *
  generalize Ingestion.processAll .hour keepMinor ⟨.empty, .zero⟩ os = i at *
  -- The first time nothing is found.
  obtain ⟨oldest, newest, hframed⟩ := h.ledger.framed hrecounted.within
  obtain ⟨ids, hids⟩ := h.exists_lists hframed
  have hfirst : r.previousEvent? .hour i.store = .ok none :=
    bind_eq_ok.mpr ⟨none, h.latest.previous?_eq hsearch hids (hobservation ▸ hkind) hns hname
      (by simp [hobservation]) (hobservation ▸ timely_skewedEvent) (fun _ h => by cases h), rfl⟩
  obtain ⟨hrun, hledger, htotal⟩ := process_recounted keepMinor h.ledger hobject
    hsearch hread tells_skewedEvent timely_skewedEvent hfirst rfl hrecounted (by decide)
    (by decide)
  -- The second time it finds itself.
  have hsecond := Intake.previousEvent?_eq
    (Intake.previous?_process hread hread hkind hrun hrecords hnewest rfl)
    (Tells.told tells_skewedEvent)
  obtain ⟨-, hset⟩ := (Ingestion.process_event hread hkind).mp hrun
  have hrecounted' := recounted_skewedInfo (hbounds' _ ((get?_set hset _).trans (if_pos rfl)))
  obtain ⟨hrun', -, htotal'⟩ := process_recounted keepMinor hledger hobject
    hsearch hread tells_skewedEvent timely_skewedEvent hsecond
    ((EventDelta.ofObservations_self _).trans (if_pos hrecounted.inverted)) hrecounted' (by decide)
    (by decide)
  obtain ⟨⟨minutes, hcount⟩, -⟩ := (Ingestion.process_event hread hkind).mp hrun'
  have hfive : skewedInfo.count = 5 := rfl
  rw [hfive] at htotal htotal'
  exact ⟨hrun, htotal, by rw [htotal', htotal, Int.add_assoc]; rfl, fun hagree =>
    (agree_process_again_iff hread hread hkind hrun hrecords hnewest rfl).mp hagree
      ⟨⟨⟨r, hread⟩, _, Tells.told tells_skewedEvent, hrecounted'⟩, _, hcount⟩⟩

end

theorem object?_firstPod_ne {p : Observation} (hp : p ∈ [Ingestion.firstPod]) :
    p.object? ≠ skewedEvent.object? := by
  intro h
  obtain rfl := List.mem_singleton.mp hp
  obtain ⟨r, hread, hobservation, -⟩ := Tells.ofObservation tells_skewedEvent
  have hobject := Intake.object?_of_ofObservation hread
  have hkind := Observation.kind_of_object? hobject
  rw [Observation.kind_of_object? (h.trans hobject)] at hkind
  exact absurd hkind (by decide)

/-- `skewedEvent` ends before it starts, and is counted each time it is ingested. -/
theorem ingested_skewedEvent_twice :
    (∀ p ∈ [Ingestion.firstPod], p.object? ≠ skewedEvent.object?) ∧
      failedStages .hour false [Ingestion.firstPod, skewedEvent] =
        failedStages .hour false [Ingestion.firstPod] ∧
      (ingested .hour false [Ingestion.firstPod, skewedEvent]).eventTotal skewed.involved
        skewed.reasonKey = 5 ∧
      (ingested .hour false [Ingestion.firstPod, skewedEvent, skewedEvent]).eventTotal
        skewed.involved skewed.reasonKey = 10 ∧
      ¬ Agree .eventCount (ingested .hour false [Ingestion.firstPod, skewedEvent])
        (ingested .hour false [Ingestion.firstPod, skewedEvent, skewedEvent]) := by
  obtain ⟨hpod, hnone⟩ := (tracked_empty .hour skewed (fun _ => skewedInfo) [skewedEvent] 10
    ).process_other false (o := Ingestion.firstPod) (by decide)
      ⟨by decide, by decide, by decide⟩ .zero
  have hrow : (ingested .hour false [Ingestion.firstPod]).get?
      "/watchactivity/001546300800/Pod/ns/web/u" =
        some "\x7b\"changed_at\":[],\"no_change_at\":[1546300800]\x7d" := by
    decide +kernel
  obtain ⟨hrun, htotal, htotal', hagree⟩ := ingested_concat_skewedEvent false
    [Ingestion.firstPod] hpod
    (fun o ho => by rw [List.mem_singleton.mp ho]; rfl)
    (fun o ho => object?_firstPod_ne ho) hrow
  have hzero : (ingested .hour false [Ingestion.firstPod]).eventTotal skewed.involved
      skewed.reasonKey = 0 := hnone _ _
  rw [hzero] at htotal htotal'
  exact ⟨fun o ho => object?_firstPod_ne ho, hrun, htotal, htotal', hagree⟩

end WatchHistory
