import WatchHistory.Proofs.Event.Latest

/-!
# Conservation of event counts

The records of one event are cumulative, and each of them adds what the one before did not tell. A
run of them, with records of other kinds in between, in whose every step the window of the store
reaches far enough (`EventRun`), adds the count of the last record to the total of the involved
object and the reason of the event, and adds nothing to any other total
(`processAll_conserves_event_counts`).

The invariant is `Tracked`: the record before is the newest observation of the event, and the
tallies have room for what is still to be told. `Tracked.process_other` and `Tracked.process_record`
are the steps that keep it.
-/

set_option autoImplicit false

namespace WatchHistory

open WatchHistory.Partition Store Ingestion

/-! ## Series of records -/

/-- The records of one event in the order in which they were made: times and ends ascend, counts do
not descend, and no record ends before the event started. -/
structure Series (e : EventIdentity) (info : Observation → EventInfo) (records : List Observation) :
    Prop where
  tells : ∀ o ∈ records, Tells e o (info o)
  timely : ∀ o ∈ records, o.time.Timely
  times : records.Pairwise fun a b => a.time < b.time
  lasts : records.Pairwise fun a b => (info a).last < (info b).last
  counts : records.Pairwise fun a b => (info a).count ≤ (info b).count
  first_le : ∀ o ∈ records, e.first ≤ (info o).last

namespace Series

variable {e : EventIdentity} {info : Observation → EventInfo} {records fewer : List Observation}
  {p o : Observation}

theorem sublist (h : Series e info records) (hsub : fewer.Sublist records) :
    Series e info fewer :=
  ⟨fun o ho => h.tells o (hsub.subset ho), fun o ho => h.timely o (hsub.subset ho),
    h.times.sublist hsub, h.lasts.sublist hsub, h.counts.sublist hsub,
    fun o ho => h.first_le o (hsub.subset ho)⟩

theorem time_lt (h : Series e info [p, o]) : p.time < o.time :=
  List.rel_of_pairwise_cons h.times List.mem_cons_self

theorem last_lt (h : Series e info [p, o]) : (info p).last < (info o).last :=
  List.rel_of_pairwise_cons h.lasts List.mem_cons_self

theorem count_le (h : Series e info [p, o]) : (info p).count ≤ (info o).count :=
  List.rel_of_pairwise_cons h.counts List.mem_cons_self

theorem earlier {latest : Option Observation} (h : Series e info (latest.toList ++ [o]))
    (hp : latest = some p) : p.time.Timely ∧ p.time < o.time := by
  subst hp
  exact ⟨h.timely p (by simp), time_lt h⟩

end Series

/-- How often the event has happened by the record before the next one, if any. -/
def toldBy (info : Observation → EventInfo) (latest : Option Observation) : Int :=
  (latest.map fun o => (info o).count).getD 0

/-- The instant since when the next record tells something new. -/
def sinceOf (e : EventIdentity) (info : Observation → EventInfo) (latest : Option Observation) :
    Instant :=
  (latest.map fun o => (info o).last).getD e.first

theorem ofObservations_eq {e : EventIdentity} {info : Observation → EventInfo}
    {latest : Option Observation} {o : Observation} (h : Series e info (latest.toList ++ [o])) :
    EventDelta.ofObservations (latest.map info) (info o) =
      ⟨sinceOf e info latest, (info o).last, (info o).count - toldBy info latest⟩ := by
  have hfirst := (h.tells o (by simp)).first_eq
  cases latest with
  | none =>
    show EventDelta.mk (info o).first (info o).last (info o).count =
      ⟨e.first, (info o).last, (info o).count - 0⟩
    rw [hfirst, Int.sub_zero]
  | some p =>
    have hfirst' := (h.tells p (by simp)).first_eq
    have hle := h.first_le p (by simp)
    have hlast := Series.last_lt h
    have hcount := Series.count_le h
    have hgrown := Decimal.wrap_of_fits (Decimal.fits_sub
      (EventInfo.count_bounds (h.tells o (by simp)).told)
      (EventInfo.count_bounds (h.tells p (by simp)).told))
    show EventDelta.ofObservations (some (info p)) (info o) =
      ⟨(info p).last, (info o).last, (info o).count - (info p).count⟩
    unfold EventDelta.ofObservations
    dsimp only
    rw [hfirst, hfirst', if_neg hle, if_neg (fun h => h hlast), if_pos rfl, hgrown,
      if_neg (Int.not_lt.mpr (Int.sub_nonneg_of_le hcount))]

section

variable {e : EventIdentity} {info : Observation → EventInfo} {latest : Option Observation}
  {o : Observation}

theorem toldBy_nonneg (h : Series e info (latest.toList ++ [o])) : 0 ≤ toldBy info latest := by
  cases latest with
  | none => exact Int.le_refl 0
  | some p => exact (EventInfo.count_bounds (h.tells p (by simp)).told).1

theorem toldBy_le (h : Series e info (latest.toList ++ [o])) :
    0 ≤ (info o).count - toldBy info latest := by
  cases latest with
  | none =>
    have hnonneg := (EventInfo.count_bounds (h.tells o (by simp)).told).1
    show 0 ≤ (info o).count - 0
    omega
  | some p =>
    have hcount := Series.count_le h
    show 0 ≤ (info o).count - (info p).count
    omega

theorem since_le_last (h : Series e info (latest.toList ++ [o])) :
    sinceOf e info latest ≤ (info o).last := by
  cases latest with
  | none => exact h.first_le o (by simp)
  | some p => exact Instant.le_of_lt (Series.last_lt h)

end

/-! ## Steps -/

/-- What holds before each record of a run: the record before is the newest observation of the
event, and there is room for what is still to be told up to a count of `target`. -/
structure Tracked (g : Granularity) (e : EventIdentity) (info : Observation → EventInfo)
    (records : List Observation) (target : Int) (latest : Option Observation) (s : Store) :
    Prop where
  ledger : Ledger g e.involved e.reasonKey (target - toldBy info latest) s
  latest : Latest g e records latest s

namespace Tracked

variable {g : Granularity} {keepMinor : Bool} {e : EventIdentity}
  {info : Observation → EventInfo} {records : List Observation} {target : Int}
  {latest : Option Observation} {s : Store}

/-- A stage other than `.eventCount` leaves the totals and the newest record of the event as they
are, if it is run for an object of another kind. -/
theorem after_of_ne (keepMinor : Bool) (h : Tracked g e info records target latest s) {r : Intake}
    (hkind : r.observation.kind ≠ Payload.eventKind) (htimely : r.observation.time.Timely)
    {stage : Stage} (hstage : stage ≠ .eventCount) :
    Tracked g e info records target latest (stage.after g keepMinor r s) ∧
      ∀ object reason, (stage.after g keepMinor r s).eventTotal object reason =
        s.eventTotal object reason := by
  obtain ⟨hrange, -⟩ := htimely.inRange g
  have hdvd := g.dvd_floor r.observation.time.seconds
  rcases Stage.after_cases g keepMinor r s hstage with
    hsame | ⟨-, hset⟩ | ⟨t, last, row, -, hwatch, hcount, hset⟩
  · rw [hsame]
    exact ⟨h, fun _ _ => rfl⟩
  · exact ⟨⟨h.ledger.set_of_ne rfl hrange hdvd (by decide) hset, h.latest.set_other hkind hset⟩,
      eventTotal_set_of_ne hset (by decide)⟩
  · exact ⟨⟨h.ledger.set_of_ne rfl hrange hdvd hcount hset,
      h.latest.of_agree (.of_set hset hwatch)⟩, eventTotal_set_of_ne hset hcount⟩

theorem process_other (keepMinor : Bool) (h : Tracked g e info records target latest s)
    {o : Observation} (hkind : o.kind ≠ Payload.eventKind) (htimely : o.time.Timely)
    (counters : IngestCounters) :
    Tracked g e info records target latest (process g keepMinor ⟨s, counters⟩ o).store ∧
      ∀ object reason, (process g keepMinor ⟨s, counters⟩ o).store.eventTotal object reason =
        s.eventTotal object reason := by
  rw [store_process]
  cases hread : Intake.ofObservation o with
  | error fault => exact ⟨h, fun _ _ => rfl⟩
  | ok r =>
    obtain rfl := Intake.observation_ofObservation hread
    have hall : ∀ stages : List Stage, .eventCount ∉ stages → ∀ s,
        Tracked g e info records target latest s →
        Tracked g e info records target latest (stages.foldl (Stage.after g keepMinor r) s) ∧
          ∀ object reason, (stages.foldl (Stage.after g keepMinor r) s).eventTotal object reason =
            s.eventTotal object reason := by
      intro stages hstages
      induction stages with
      | nil => exact fun s h => ⟨h, fun _ _ => rfl⟩
      | cons stage stages ih =>
        intro s h
        obtain ⟨hne, hrest⟩ := List.ne_and_not_mem_of_not_mem_cons hstages
        obtain ⟨h₁, htotal₁⟩ := h.after_of_ne keepMinor hkind htimely hne.symm
        obtain ⟨h₂, htotal₂⟩ := ih hrest _ h₁
        exact ⟨h₂, fun object reason => (htotal₂ object reason).trans (htotal₁ object reason)⟩
    exact hall _ (eventCount_notMem_stagesFor hkind) s h

theorem exists_lists (h : Tracked g e info records target latest s) {since last : Instant}
    {oldest newest : Int} (hframed : Framed g s since last oldest newest) :
    ∃ ids, s.Lists g ids := by
  have hend := hframed.inRange_next
  unfold InRange idLimit at hend
  have hpos := g.seconds_pos
  refine Store.exists_lists h.ledger.keyed fun p hp => ?_
  obtain ⟨second, rfl, hrange, hdvd, hle⟩ := hframed.le_newest _ _ hp
  have hrange' := hrange
  unfold InRange idLimit at hrange'
  exact ⟨second, rfl, hrange, hdvd, by unfold InRange idLimit; omega⟩

theorem previousEvent?_eq (h : Tracked g e info records target latest s) {r : Intake}
    (hseries : Series e info (latest.toList ++ [r.observation]))
    (hsearch : Searchable Payload.eventKind e.ns e.name) {ids : List String}
    (hids : s.Lists g ids) (hns : r.metadata.ns = e.ns) (hname : r.metadata.name = e.name)
    (hrecord : r.observation ∈ records) :
    r.previousEvent? g s = .ok (latest.map info) := by
  refine bind_eq_ok.mpr ⟨latest, h.latest.previous?_eq hsearch hids
    (hseries.tells _ (by simp)).kind_eq hns hname hrecord (hseries.timely _ (by simp))
    fun p hp => hseries.earlier hp, ?_⟩
  cases latest with
  | none => rfl
  | some p =>
    have htold := (hseries.tells p (by simp)).told
    show Except.ok ((EventInfo.ofPayload p.payload).toOption) = _
    rw [htold]
    rfl

theorem last_ne_epoch {o : Observation} {oldest newest : Int} (hfirst : e.first ≠ .epoch)
    (hseries : Series e info (latest.toList ++ [o]))
    (hframed : Framed g s (sinceOf e info latest) (info o).last oldest newest) :
    (info o).last ≠ .epoch := by
  have hstart := (EventDelta.windowStart_spec hframed.inRange_oldest hframed.dvd_oldest
    hframed.inRange_newest hframed.dvd_newest hframed.le).1
  have hsince : ¬ sinceOf e info latest < .epoch := by
    have hle := Instant.seconds_le_of_le hframed.start_le
    rw [seconds_startAt hstart] at hle
    have hnonneg := hstart.1
    rw [Instant.lt_iff]
    show ¬ ((sinceOf e info latest).seconds < 0 ∨
      ¬ 0 < (sinceOf e info latest).seconds ∧ (sinceOf e info latest).nanos < 0)
    omega
  intro hepoch
  cases latest with
  | none =>
    have hle : e.first ≤ (info o).last := hseries.first_le o (by simp)
    rw [hepoch] at hle
    exact hfirst (StrictOrder.connex hsince hle)
  | some p =>
    have hlt := Series.last_lt hseries
    rw [hepoch] at hlt
    exact hsince hlt

theorem set_after_watch (keepMinor : Bool) (hsearch : Searchable Payload.eventKind e.ns e.name)
    {r : Intake} (hkind : r.observation.kind = Payload.eventKind) (hns : r.metadata.ns = e.ns)
    (hname : r.metadata.name = e.name) (htimely : r.observation.time.Timely) :
    s.set (Key.observation g Payload.eventKind e.ns e.name r.observation.time) r.observation =
      .ok (Stage.watch.after g keepMinor r s) := by
  rw [← hns, ← hname, ← hkind] at hsearch ⊢
  exact Stage.set_after_watch keepMinor s hsearch htimely (by rw [hkind]; decide)

/-- **Ingesting the next record** adds what it tells more than the one before to the total of the
event's object and reason, and to no other. -/
theorem process_record (keepMinor : Bool) (h : Tracked g e info records target latest s)
    (hsearch : Searchable Payload.eventKind e.ns e.name) (hobject : e.involved.Countable)
    (hfirst : e.first ≠ .epoch) {o : Observation} (hrecord : o ∈ records)
    (hseries : Series e info (latest.toList ++ [o]))
    (hwithin : s.Within g (sinceOf e info latest) (info o).last)
    (hcount : (info o).count ≤ target) (htarget : target ≤ Decimal.greatest)
    (counters : IngestCounters) :
    Tracked g e info records target (some o) (process g keepMinor ⟨s, counters⟩ o).store ∧
      ∀ object reason, (process g keepMinor ⟨s, counters⟩ o).store.eventTotal object reason =
        s.eventTotal object reason + if object = e.involved ∧ reason = e.reasonKey then
          (info o).count - toldBy info latest else 0 := by
  have htells := hseries.tells o (by simp)
  have htimely := hseries.timely o (by simp)
  obtain ⟨r, hread, rfl, hns, hname, hinvolved⟩ := htells.ofObservation
  have hkind := htells.kind_eq
  obtain ⟨oldest, newest, hframed⟩ := h.ledger.framed hwithin
  obtain ⟨ids, hids⟩ := h.exists_lists hframed
  have hnonneg := toldBy_nonneg hseries
  have hledger := h.ledger
  rw [← hinvolved, ← htells.reasonKey_eq] at hledger
  -- First the event is counted.
  obtain ⟨s₁, minutes, hcounted, hledger₁, htotal₁⟩ := countEvent_conserves hledger
    (hinvolved.symm ▸ hobject) hkind htells.told
    (h.previousEvent?_eq hseries hsearch hids hns hname hrecord) (htells.first_eq.symm ▸ hfirst)
    (last_ne_epoch hfirst hseries hframed) (ofObservations_eq hseries)
    (since_le_last hseries) hwithin (toldBy_le hseries) (by omega) (by omega)
  have hafter : Stage.eventCount.after g keepMinor r s = s₁ := by
    unfold Stage.after
    rw [Stage.run_eventCount_eq_ok.mpr ⟨minutes, hcounted, rfl⟩]
  have hagree : Agree .watch s s₁ := hafter ▸ Stage.agree_after (by decide)
  rw [hinvolved, htells.reasonKey_eq] at hledger₁
  -- Then it is kept.
  obtain ⟨hrange, -⟩ := htimely.inRange g
  have hset := set_after_watch (g := g) (s := s₁) keepMinor hsearch hkind hns hname htimely
  rw [store_process, hread]
  dsimp only
  rw [hkind, stagesFor_event, List.foldl_cons, List.foldl_cons, List.foldl_nil, hafter]
  refine ⟨⟨?_, (h.latest.of_agree hagree).set_next htimely
    (fun p hp => (hseries.earlier hp).2) hset⟩, fun object reason => ?_⟩
  · apply (hledger₁.set_of_ne rfl hrange (g.dvd_floor _) (by decide) hset).mono
    show target - (info r.observation).count ≤ _
    omega
  · rw [eventTotal_set_of_ne hset (by decide), htotal₁, hinvolved, htells.reasonKey_eq]

end Tracked

/-! ## Runs -/

/-- The observations of events. -/
def eventsOf (os : List Observation) : List Observation :=
  os.filter fun o => o.kind = Payload.eventKind

theorem eventsOf_cons_of_eq {o : Observation} (h : o.kind = Payload.eventKind)
    (os : List Observation) : eventsOf (o :: os) = o :: eventsOf os :=
  List.filter_cons_of_pos (decide_eq_true h)

theorem eventsOf_cons_of_ne {o : Observation} (h : o.kind ≠ Payload.eventKind)
    (os : List Observation) : eventsOf (o :: os) = eventsOf os :=
  List.filter_cons_of_neg (by simpa using h)

theorem getLast?_or_eq (o : Observation) (os : List Observation) (latest : Option Observation) :
    (o :: os).getLast?.or latest = os.getLast?.or (some o) := by
  rw [List.getLast?_cons]
  cases os.getLast? <;> rfl

section

variable {g : Granularity} {keepMinor : Bool} {e : EventIdentity}
  {info : Observation → EventInfo}

/-- What a run adds to the totals, from any record of the event on. -/
theorem Tracked.processAll {records : List Observation} {target : Int}
    {latest : Option Observation} {i : Ingestion}
    (h : Tracked g e info records target latest i.store)
    (hsearch : Searchable Payload.eventKind e.ns e.name) (hobject : e.involved.Countable)
    (hfirst : e.first ≠ .epoch) (htarget : target ≤ Decimal.greatest) {os : List Observation}
    (hrecords : ∀ o ∈ eventsOf os, o ∈ records) (htimely : ∀ o ∈ os, o.time.Timely)
    (hseries : Series e info (latest.toList ++ eventsOf os))
    (hcount : ∀ o ∈ eventsOf os, (info o).count ≤ target)
    (hwithin : ∀ before o after, os = before ++ o :: after → o.kind = Payload.eventKind →
      (processAll g keepMinor i before).store.Within g
        (sinceOf e info ((eventsOf before).getLast?.or latest)) (info o).last)
    (object : InvolvedObject) (reason : String) :
    (Ingestion.processAll g keepMinor i os).store.eventTotal object reason =
      i.store.eventTotal object reason + if object = e.involved ∧ reason = e.reasonKey then
        toldBy info ((eventsOf os).getLast?.or latest) - toldBy info latest else 0 := by
  induction os generalizing i latest with
  | nil =>
    simp [Ingestion.processAll, eventsOf]
  | cons o os ih =>
    have hnext : Ingestion.processAll g keepMinor i (o :: os) =
        Ingestion.processAll g keepMinor (process g keepMinor i o) os := rfl
    have hrest : ∀ o' ∈ os, o'.time.Timely := fun o' ho' => htimely o' (List.mem_cons_of_mem _ ho')
    by_cases hkind : o.kind = Payload.eventKind
    · rw [eventsOf_cons_of_eq hkind] at hrecords hseries hcount
      obtain ⟨h₁, htotal₁⟩ := h.process_record keepMinor hsearch hobject hfirst
        (hrecords o List.mem_cons_self)
        (hseries.sublist ((List.cons_sublist_cons.mpr (List.nil_sublist _)).append_left _))
        (hwithin [] o os rfl hkind) (hcount o List.mem_cons_self) htarget i.counters
      have htotal := ih h₁ (fun o' ho' => hrecords o' (List.mem_cons_of_mem _ ho')) hrest
        (hseries.sublist (List.sublist_append_right _ _))
        (fun o' ho' => hcount o' (List.mem_cons_of_mem _ ho')) fun before o' after hos hkind' => by
          have hstep := hwithin (o :: before) o' after (by rw [hos]; rfl) hkind'
          rw [eventsOf_cons_of_eq hkind, getLast?_or_eq] at hstep
          exact hstep
      have htold : toldBy info (some o) = (info o).count := rfl
      rw [hnext, htotal, htotal₁, eventsOf_cons_of_eq hkind, getLast?_or_eq, htold]
      split <;> omega
    · have hsame := eventsOf_cons_of_ne hkind os
      rw [hsame] at hrecords hseries hcount
      obtain ⟨h₁, htotal₁⟩ :=
        h.process_other keepMinor hkind (htimely o List.mem_cons_self) i.counters
      have htotal := ih h₁ hrecords hrest hseries hcount fun before o' after hos hkind' => by
        have hstep := hwithin (o :: before) o' after (by rw [hos]; rfl) hkind'
        rw [eventsOf_cons_of_ne hkind] at hstep
        exact hstep
      rw [hnext, htotal, htotal₁, hsame]

/-- A run of observations among which the events are the records of one event. Its times have
nineteen digits, the store it starts from has no observation of the event up to the partitions of
the records, and before each record the window of the store reaches from where the record before
ended, or the event started, to where the record ends. -/
structure EventRun (g : Granularity) (keepMinor : Bool) (e : EventIdentity)
    (info : Observation → EventInfo) (i : Ingestion) (os : List Observation) : Prop where
  searchable : Searchable Payload.eventKind e.ns e.name
  countable : e.involved.Countable
  first_ne : e.first ≠ .epoch
  timely : ∀ o ∈ os, o.time.Timely
  series : Series e info (eventsOf os)
  unseen : ∀ key row k, i.store.get? key = some row →
    Observes Payload.eventKind e.ns e.name key k →
    ∀ o ∈ eventsOf os, g.partitionOf o.time < k.partition
  within : ∀ before o after, os = before ++ o :: after → o.kind = Payload.eventKind →
    (processAll g keepMinor i before).store.Within g
      (sinceOf e info (eventsOf before).getLast?) (info o).last

/-- **Event counts are conserved.** A run adds the count that the last record of the event tells to
the total of its object and reason, and adds nothing to any other total. -/
theorem processAll_conserves_event_counts {i : Ingestion} {os : List Observation}
    {last : Observation} (h : EventRun g keepMinor e info i os)
    (hlast : (eventsOf os).getLast? = some last)
    (hledger : Ledger g e.involved e.reasonKey (info last).count i.store)
    (object : InvolvedObject) (reason : String) :
    (processAll g keepMinor i os).store.eventTotal object reason =
      i.store.eventTotal object reason +
        if object = e.involved ∧ reason = e.reasonKey then (info last).count else 0 := by
  obtain ⟨earlier, hevents⟩ := List.getLast?_eq_some_iff.mp hlast
  have hmem : last ∈ eventsOf os := List.mem_of_getLast? hlast
  have hcount : ∀ o ∈ eventsOf os, (info o).count ≤ (info last).count := by
    intro o ho
    have hcounts := h.series.counts
    rw [hevents] at ho hcounts
    rcases List.mem_append.mp ho with ho | ho
    · exact (List.pairwise_append.mp hcounts).2.2 o ho last List.mem_cons_self
    · rw [List.mem_singleton.mp ho]
  have hroom : (info last).count - toldBy info none ≤ (info last).count := by
    show (info last).count - 0 ≤ (info last).count
    omega
  have htracked : Tracked g e info (eventsOf os) (info last).count none i.store :=
    ⟨hledger.mono hroom, fun o ho => (by cases ho),
      fun key row k hrow hk => .inl (h.unseen key row k hrow hk)⟩
  have htotal := htracked.processAll h.searchable h.countable h.first_ne
    (EventInfo.count_bounds (h.series.tells last hmem).told).2 (fun _ ho => ho) h.timely h.series
    hcount (fun before o after hos hkind => by
      rw [Option.or_none]
      exact h.within before o after hos hkind) object reason
  rw [htotal, hlast]
  show _ + (if _ then (info last).count - 0 else 0) = _
  rw [Int.sub_zero]

end

/-! ## A run of two records -/

/-- A container that fails since the first second of 2019. -/
def failing : EventIdentity where
  ns := ""
  name := "e"
  involved := ⟨"", "", "", "web"⟩
  reason := ""
  type := ""
  first := startAt 1546300800

/-- The record of `failing` after two minutes, with two failures. -/
def failedTwice : Observation where
  time := startAt 1546300920
  kind := "Event"
  change := .add
  payload := "\x7b\"metadata\":\x7b\"name\":\"e\"\x7d," ++
    "\"involvedObject\":\x7b\"uid\":\"web\"\x7d,\"firstTimestamp\":\"2019-01-01T00:00:00Z\"," ++
    "\"lastTimestamp\":\"2019-01-01T00:02:00Z\",\"count\":2\x7d"

/-- The record of `failing` after five minutes, with five failures. -/
def failedFiveTimes : Observation where
  time := startAt 1546301100
  kind := "Event"
  change := .update
  payload := "\x7b\"metadata\":\x7b\"name\":\"e\"\x7d," ++
    "\"involvedObject\":\x7b\"uid\":\"web\"\x7d,\"firstTimestamp\":\"2019-01-01T00:00:00Z\"," ++
    "\"lastTimestamp\":\"2019-01-01T00:05:00Z\",\"count\":5\x7d"

/-- What `failedTwice` and `failedFiveTimes` tell. -/
def failures (o : Observation) : EventInfo where
  reason := ""
  type := ""
  first := failing.first
  last := o.time
  count := if o.change = .add then 2 else 5

/-- A store with a pod of the first hour of 2019. -/
def onePod : Store := Store.empty.insert "/ressum/001546300800/Pod/ns/web/u" "\x7b\x7d"

theorem tells_failures {o : Observation} (hkind : o.kind = Payload.eventKind)
    (hread : (Json.read? o.payload).map (fun j =>
      (Payload.envelope? "metadata" .initial Metadata.ofJson? j,
        Payload.envelope? "involvedObject" .initial InvolvedObject.ofJson? j,
        EventInfo.ofJson? j)) =
      some (some { Metadata.initial with name := "e" }, some failing.involved,
        some (failures o))) : Tells failing o (failures o) :=
  tells_of_read hkind hread ⟨rfl, rfl⟩ rfl rfl rfl

theorem tells_failedTwice : Tells failing failedTwice (failures failedTwice) :=
  tells_failures rfl (by decide +kernel)

theorem tells_failedFiveTimes : Tells failing failedFiveTimes (failures failedFiveTimes) :=
  tells_failures rfl (by decide +kernel)

theorem filed_onePod : Filed .summary (idAt 1546300800) "/ressum/001546300800/Pod/ns/web/u" :=
  ⟨⟨"001546300800", "Pod", "ns", "web", "u"⟩,
    Key.parse_eq_ok_iff.mpr ⟨['u'], by decide +kernel, rfl⟩, by decide +kernel⟩

theorem get?_onePod {key text : String} (h : onePod.get? key = some text) :
    key = "/ressum/001546300800/Pod/ns/web/u" := by
  rw [onePod, get?_insert] at h
  split at h
  · assumption
  · cases h

theorem ledger_onePod (object : InvolvedObject) (reason : String) (room : Int) :
    Ledger .hour object reason room onePod := by
  refine ⟨fun key text htext => ?_, fun key text k htext hk => ?_⟩
  · obtain rfl := get?_onePod htext
    exact ⟨_, _, filed_onePod, by decide, by decide⟩
  · obtain rfl := get?_onePod htext
    obtain ⟨k', hk', -⟩ := filed_onePod
    cases Key.table_eq_of_parse hk hk'

theorem within_firstHour {s : Store} {since last : Instant}
    (hbounds : s.bounds.toOption = some (some ("001546300800", "001546300800")))
    (hsince : startAt 1546300800 ≤ since) (hlast : last ≤ startAt 1546304400) :
    s.Within .hour since last := by
  have hid : idAt 1546300800 = "001546300800" := by decide +kernel
  rw [← hid] at hbounds
  cases hb : s.bounds with
  | error e =>
    rw [hb] at hbounds
    cases hbounds
  | ok b =>
    rw [hb] at hbounds
    exact within_of_bounds (by decide) (by decide) (by decide)
      (hb.trans (congrArg Except.ok (Option.some.inj hbounds))) hsince hlast

theorem timely_failures {o : Observation} (ho : o ∈ [failedTwice, failedFiveTimes]) :
    o.time.Timely := by
  rcases List.mem_pair.mp ho with rfl | rfl
  · exact ⟨by decide, by decide, by decide⟩
  · exact ⟨by decide, by decide, by decide⟩

theorem run_failures : EventRun .hour false failing failures ⟨onePod, .zero⟩
    [failedTwice, failedFiveTimes] where
  searchable := ⟨by decide, by decide, by decide, by decide⟩
  countable := ⟨by decide, by decide, by decide, by decide, by decide⟩
  first_ne := by decide
  timely _ ho := timely_failures ho
  series := by
    have hevents : eventsOf [failedTwice, failedFiveTimes] = [failedTwice, failedFiveTimes] := rfl
    rw [hevents]
    refine ⟨fun o ho => ?_, fun o ho => ?_, by decide, by decide, by decide, fun o ho => ?_⟩
    · rcases List.mem_pair.mp ho with rfl | rfl
      · exact tells_failedTwice
      · exact tells_failedFiveTimes
    · exact timely_failures ho
    · rcases List.mem_pair.mp ho with rfl | rfl <;> decide
  unseen := by
    intro key row k hrow hk
    obtain rfl := get?_onePod hrow
    obtain ⟨k', hk', -⟩ := filed_onePod
    cases Key.table_eq_of_parse hk.parse hk'
  within := by
    intro before o after hos hkind
    rcases before with _ | ⟨first, _ | ⟨second, before⟩⟩
    · obtain ⟨rfl, -⟩ := List.cons.inj hos
      exact within_firstHour (by decide +kernel) (by decide) (by decide)
    · obtain ⟨rfl, hrest⟩ := List.cons.inj hos
      obtain ⟨rfl, -⟩ := List.cons.inj hrest
      exact within_firstHour (by decide +kernel) (by decide) (by decide)
    · have hlength := congrArg List.length hos
      simp at hlength

/-- Of two records that tell of two failures and of five, five are counted. -/
theorem processAll_conserves_failures :
    EventRun .hour false failing failures ⟨onePod, .zero⟩ [failedTwice, failedFiveTimes] ∧
      (processAll .hour false ⟨onePod, .zero⟩ [failedTwice, failedFiveTimes]).store.eventTotal
        failing.involved failing.reasonKey = 5 := by
  refine ⟨run_failures, ?_⟩
  have hnone : onePod.eventTotal failing.involved failing.reasonKey = 0 := by decide +kernel
  have hlast : (eventsOf [failedTwice, failedFiveTimes]).getLast? = some failedFiveTimes := rfl
  rw [processAll_conserves_event_counts run_failures hlast (ledger_onePod _ _ _), hnone,
    if_pos ⟨rfl, rfl⟩]
  rfl

end WatchHistory
