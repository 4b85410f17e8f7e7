import WatchHistory.Proofs.Event.Sign
import WatchHistory.Proofs.Ingest.Recovery
import WatchHistory.Proofs.Retention.Interleaving

/-!
# Rows in their partitions

Whatever is observed and whenever retention runs, every instant that a row tells is in the partition
of its key (`Table.Placed`). The counts of a tally are at least one as well, if no event was ever
told to start or to end in the leap second at the end of a day (`Table.Steady`); the time from such
a second to the next one comes out negative, and so does a share of it
(`History.counts_below_zero`).

* `Store.Sound` is the invariant: `Sound.set` for a row that is written, and `Sound.of_text` for one
  that is read.
* `Stage.sound_after`: every stage keeps it. What is written is made of what was read under the same
  key and of the time of the observation, or of the minutes that are grouped by their partitions.
* `History.run_sound`: every run keeps it.
-/

set_option autoImplicit false

namespace WatchHistory

open WatchHistory.Partition

/-! ## What rows tell -/

/-- The segment of a key's text in which its partition stands, whether the key is complete or
not. -/
def Key.partitionSegment? (text : String) : Option String :=
  ((Text.split '/' text.toList)[2]?).map String.ofList

/-- Whether a summary lies in a partition: its times, and the keys that it links to. -/
structure Summary.Placed (g : Granularity) (p : String) (row : Summary) : Prop where
  first : ∃ time, row.firstSeen = some time ∧ g.partitionOf time = p
  last : ∃ time, row.lastSeen = some time ∧ g.partitionOf time = p
  links : ∀ link ∈ row.relationships, Key.partitionSegment? link = some p

theorem Summary.Placed.relink {g : Granularity} {p : String} {row : Summary} (h : row.Placed g p)
    {links : List String} (hlinks : ∀ link ∈ links, Key.partitionSegment? link = some p) :
    ({ row with relationships := links } : Summary).Placed g p :=
  ⟨h.first, h.last, hlinks⟩

/-- Whether the minutes of a tally are minutes of a partition. -/
def EventTally.Placed (g : Granularity) (p : String) (minutes : SortedMap Int ReasonCounts) :
    Prop :=
  ∀ minute ∈ minutes.keys, 60 ∣ minute ∧ idAt (g.floor minute) = p

/-- Whether every count of a tally is at least one. -/
def EventTally.Positive (minutes : SortedMap Int ReasonCounts) : Prop :=
  ∀ e ∈ minutes.entries, ∀ c ∈ e.2.entries, 1 ≤ c.2

/-- Whether every instant that a row tells is in a partition. -/
def Table.Placed (g : Granularity) (p : String) : (t : Table) → t.Row → Prop
  | .watch, o => g.partitionOf o.time = p
  | .activity, a => ∀ second ∈ a.changedAt ++ a.noChangeAt, idAt (g.floor second) = p
  | .summary, row | .relation, row => row.Placed g p
  | .eventCount, row => ∃ minutes, row.byMinute = some minutes ∧ EventTally.Placed g p minutes

/-- Whether an event, if an observation is of one, tells no time in the leap second at the end of a
day. -/
def Observation.Steady (o : Observation) : Prop :=
  ∀ e, EventInfo.ofPayload o.payload = .ok e → ¬ e.first.EndsDay ∧ ¬ e.last.EndsDay

theorem Observation.Steady.info {o : Observation} (h : o.Steady) {e : EventInfo}
    (he : EventInfo.ofPayload o.payload = .ok e) : e.Steady :=
  ⟨(EventInfo.count_bounds he).1, (h e he).1, (h e he).2⟩

/-- Whether the counts of a row are at least one, and the observations from which events are counted
on tell no time in the leap second at the end of a day. -/
def Table.Steady : (t : Table) → t.Row → Prop
  | .watch, o => o.Steady
  | .eventCount, row => ∃ minutes, row.byMinute = some minutes ∧ EventTally.Positive minutes
  | .activity, _ | .summary, _ | .relation, _ => True

theorem Activity.mem_record {a : Activity} {changed : Bool} {second time : Int}
    (h : second ∈ (a.record changed time).changedAt ++ (a.record changed time).noChangeAt) :
    second ∈ a.changedAt ++ a.noChangeAt ∨ second = time := by
  unfold record at h
  split at h <;> simp only [List.mem_append, List.mem_singleton] at h ⊢ <;> tauto

/-! ## Minutes that are added -/

namespace EventTally

variable {minutes : SortedMap Int ReasonCounts} {reason : String} {buckets : List (Int × Int)}

theorem Placed.addedTo {g : Granularity} {p : String} (h : Placed g p minutes)
    (hbuckets : ∀ bucket ∈ buckets, 60 ∣ bucket.1 ∧ idAt (g.floor bucket.1) = p) :
    Placed g p (Intake.addedTo minutes reason buckets) := by
  induction buckets generalizing minutes with
  | nil => exact h
  | cons bucket buckets ih =>
    rw [addedTo_cons]
    refine ih (fun minute hminute => ?_) fun b hb => hbuckets b (List.mem_cons_of_mem _ hb)
    rcases SortedMap.mem_keys_alter.mp hminute with rfl | hminute
    · exact hbuckets bucket List.mem_cons_self
    · exact h minute hminute

theorem Positive.addTo (h : Positive minutes) {minute count : Int} (hcount : 0 < count) :
    Positive (addTo minutes minute reason count) := by
  have hknown : ∀ c ∈ ((minutes.get? minute).getD .empty).entries, 1 ≤ c.2 := by
    cases hget : minutes.get? minute with
    | none => exact nofun
    | some counts => exact h _ (SortedMap.mem_iff_get?.mpr hget)
  intro e he c hc
  rcases SortedMap.mem_entries_alter he with rfl | he
  · rcases SortedMap.mem_entries_alter hc with rfl | hc
    · cases hget : ((minutes.get? minute).getD .empty).get? reason with
      | none =>
        show 1 ≤ (none : Option Int).getD 0 + count
        rw [Option.getD_none]
        omega
      | some n =>
        have hn : 1 ≤ n := hknown _ (SortedMap.mem_iff_get?.mpr hget)
        show 1 ≤ (some n).getD 0 + count
        rw [Option.getD_some]
        omega
    · exact hknown c hc
  · exact h e he c hc

theorem Positive.addedTo (h : Positive minutes) (hbuckets : ∀ bucket ∈ buckets, 0 < bucket.2) :
    Positive (Intake.addedTo minutes reason buckets) := by
  induction buckets generalizing minutes with
  | nil => exact h
  | cons bucket buckets ih =>
    rw [addedTo_cons]
    exact ih (h.addTo (hbuckets bucket List.mem_cons_self))
      fun b hb => hbuckets b (List.mem_cons_of_mem _ hb)

end EventTally

/-- Minutes are added to the tally of the partition that they lie in, with counts that are not
negative if that of the delta is not. -/
theorem Intake.mem_bucket_groups {g : Granularity} {lastMinute : Int} {d : EventDelta} {p : String}
    {buckets : List (Int × Int)} (h : (p, buckets) ∈ (groups g lastMinute d).entries)
    (hlast : 60 ∣ lastMinute) {bucket : Int × Int} (hbucket : bucket ∈ buckets) :
    60 ∣ bucket.1 ∧ idAt (g.floor bucket.1) = p ∧ (0 ≤ d.count → 0 < bucket.2) := by
  obtain ⟨-, rfl⟩ := mem_entries_groupMinutes h
  obtain ⟨hmem, hp⟩ := List.mem_filter.mp hbucket
  obtain ⟨t, -, hid⟩ := partitionOfMinute?_eq_some_iff.mp (of_decide_eq_true hp)
  obtain ⟨⟨⟨minute, count⟩, hspread, hminute⟩, hpos, -⟩ := mem_entries_foldMinutes hmem
  refine ⟨?_, hid.symm, fun hcount => hpos fun b hb => (EventDelta.mem_spread hb).2.2.2.1 hcount⟩
  have hdvd := (EventDelta.mem_spread hspread).2.2.1
  rw [hminute]
  dsimp only
  rcases Int.le_total minute lastMinute with hle | hle
  · rw [Int.min_eq_left hle]
    exact hdvd
  · rw [Int.min_eq_right hle]
    exact hlast

/-! ## Links -/

theorem Key.partitionSegment?_render {t : Table} {k : Key t} (hslash : '/' ∉ k.partition.toList)
    (hne : k.partition.toList ≠ []) : partitionSegment? k.render = some k.partition := by
  rw [partitionSegment?, split_render, fields, dropEmptyEnd_cons hne, List.flatMap_cons,
    Text.split_of_not_mem hslash]
  simp

theorem Key.partitionSegment?_within {g : Granularity} {t : Table} {time : Instant}
    {kind ns name : String} {last : t.Last} :
    partitionSegment? (within g t time kind ns name last).render = some (g.partitionOf time) :=
  partitionSegment?_render (k := within g t time kind ns name last)
    (slash_notMem_idAt (g.floor time.seconds)) (ranked_idAt (g.floor time.seconds)).1

namespace Intake

variable {r : Intake} {g : Granularity}

theorem partitionSegment?_of_mem_ownerKeys {link : String} (h : link ∈ r.ownerKeys g) :
    Key.partitionSegment? link = some (g.partitionOf r.observation.time) := by
  obtain ⟨owner, -, rfl⟩ := List.mem_map.mp h
  exact Key.partitionSegment?_within

theorem placed_observe {before : Option Summary}
    (hbefore : ∀ known ∈ before, known.Placed g (g.partitionOf r.observation.time)) :
    (r.observe before).Placed g (g.partitionOf r.observation.time) := by
  cases before with
  | none => exact ⟨⟨_, rfl, rfl⟩, ⟨_, rfl, rfl⟩, nofun⟩
  | some known =>
    obtain ⟨hfirst, -, hlinks⟩ := hbefore known rfl
    unfold observe
    dsimp only
    split
    · exact ⟨⟨_, rfl, rfl⟩, ⟨_, rfl, rfl⟩, hlinks⟩
    · exact ⟨hfirst, ⟨_, rfl, rfl⟩, hlinks⟩

end Intake

/-! ## The invariant -/

/-- Whether every row was written under a complete key and tells instants of its partition only.
Where `strict` holds, its counts are at least one as well. -/
def Store.Sound (g : Granularity) (strict : Prop) (s : Store) : Prop :=
  ∀ key text, s.get? key = some text → ∃ (t : Table) (k : Key t) (row : t.Row),
    Key.parse t key = .ok k ∧ text = t.write row ∧ t.Placed g k.partition row ∧
    (strict → t.Steady row)

namespace Store.Sound

variable {g : Granularity} {strict : Prop} {s s' : Store} {t : Table} {k : Key t} {row : t.Row}

theorem empty (g : Granularity) (strict : Prop) : Store.empty.Sound g strict := nofun

theorem mono (h : s.Sound g strict)
    (hless : ∀ key text, s'.get? key = some text → s.get? key = some text) : s'.Sound g strict :=
  fun key text htext => h key text (hless key text htext)

theorem set (h : s.Sound g strict) {second : Int} (hp : k.partition = idAt second)
    (hset : s.set k row = .ok s') (hplaced : t.Placed g k.partition row)
    (hsteady : strict → t.Steady row) : s'.Sound g strict := by
  intro key text htext
  rw [get?_set hset] at htext
  split at htext
  · next hkey =>
    cases htext
    obtain ⟨k', hk', hk'p⟩ := filed_of_set hp hset
    exact ⟨t, k', row, hkey ▸ hk', rfl, by rw [hk'p, ← hp]; exact hplaced, hsteady⟩
  · exact h key text htext

theorem of_text (h : s.Sound g strict) {key text : String} (htext : s.get? key = some text)
    (hk : Key.parse t key = .ok k) (hread : t.read? text = some row) :
    t.Placed g k.partition row ∧ (strict → t.Steady row) := by
  obtain ⟨u, k', row', hk', rfl, hplaced, hsteady⟩ := h key text htext
  obtain rfl := Key.table_eq_of_parse hk' hk
  obtain rfl := Except.ok.inj (hk'.symm.trans hk)
  obtain rfl := Table.eq_of_read?_write hread
  exact ⟨hplaced, hsteady⟩

theorem of_find? (h : s.Sound g strict) {second : Int} (hp : k.partition = idAt second)
    {found : Option t.Row} (hfound : s.find? k = .ok found) :
    ∀ row ∈ found, t.Placed g k.partition row ∧ (strict → t.Steady row) := by
  obtain ⟨⟨k', hk'⟩, ⟨-, rfl⟩ | ⟨text, row, htext, hread, rfl⟩⟩ := find?_eq_ok.mp hfound
  · exact nofun
  · have hpartition : k'.partition = k.partition :=
      Key.partition_of_parse_render (hp ▸ slash_notMem_idAt second) (hp ▸ (ranked_idAt second).1)
        hk'
    rintro _ ⟨⟩
    rw [← hpartition]
    exact h.of_text htext hk' hread

end Store.Sound

/-! ## Stages -/

namespace Intake

variable {g : Granularity} {keepMinor : Bool} {strict : Prop} {r : Intake} {s s' : Store}

theorem sound_noteActivity (h : s.Sound g strict)
    (hkind : r.observation.kind ≠ Payload.eventKind) (hrun : r.noteActivity g s = .ok s') :
    s'.Sound g strict := by
  obtain ⟨previous, activity, -, hactivity, hset⟩ := (noteActivity_eq_ok hkind).mp hrun
  obtain ⟨found, hfound, rfl⟩ := Store.getOrInitial_eq_ok.mp hactivity
  have hbefore : Table.Placed g (g.partitionOf r.observation.time) .activity
      (found.getD (Table.initial .activity)) := by
    have hfound := h.of_find? (k := r.key g .activity r.metadata.uid) rfl hfound
    cases found with
    | none => exact nofun
    | some row => exact (hfound row rfl).1
  refine h.set (k := r.key g .activity r.metadata.uid) rfl hset (fun second hsecond => ?_)
    fun _ => trivial
  rcases Activity.mem_record hsecond with hold | rfl
  · exact hbefore second hold
  · rfl

theorem sound_keep (h : s.Sound g strict) (hsteady : strict → r.observation.Steady) {kept : Bool}
    (hrun : r.keep g keepMinor s = .ok (s', kept)) : s'.Sound g strict := by
  obtain ⟨-, hset⟩ := keep_eq_ok.mp hrun
  cases kept with
  | true => exact h.set (k := r.key g .watch (some r.observation.time)) rfl hset rfl hsteady
  | false =>
    obtain rfl : s = s' := hset
    exact h

theorem sound_summarize (h : s.Sound g strict)
    (hkind : r.observation.kind ≠ Payload.eventKind) (hrun : r.summarize g s = .ok s') :
    s'.Sound g strict := by
  obtain ⟨before, hbefore, hset⟩ := (summarize_eq_ok hkind).mp hrun
  have hobserved := placed_observe (r := r) fun known hknown =>
    (h.of_find? (k := r.key g .summary r.metadata.uid) rfl hbefore known hknown).1
  exact h.set (k := r.key g .summary r.metadata.uid) rfl hset
    (hobserved.relink fun _ => partitionSegment?_of_mem_ownerKeys) fun _ => trivial

theorem sound_relate (h : s.Sound g strict) (hkind : r.observation.kind = Payload.podKind)
    (hrun : r.relate g s = .ok s') : s'.Sound g strict := by
  obtain ⟨before, node, hbefore, -, hset⟩ := (relate_eq_ok hkind).mp hrun
  have hobserved := placed_observe (r := r) fun known hknown =>
    (h.of_find? (k := r.key g .relation r.metadata.uid) rfl hbefore known hknown).1
  refine h.set (k := r.key g .relation r.metadata.uid) rfl hset
    (hobserved.relink fun link hlink => ?_) fun _ => trivial
  rcases mem_addLinks.mp hlink with hknown | hlink
  · exact hobserved.links link hknown
  · rcases List.mem_append.mp hlink with howner | hnode
    · exact partitionSegment?_of_mem_ownerKeys howner
    · obtain ⟨name, -, rfl⟩ := List.mem_map.mp hnode
      exact Key.partitionSegment?_within

/-- The event that `previousEvent?` reads is one that was kept, and so `Steady`. -/
theorem steady_previousEvent? (h : s.Sound g strict) {previous : Option EventInfo}
    (hrun : r.previousEvent? g s = .ok previous) (hstrict : strict) :
    ∀ e ∈ previous, e.Steady := by
  obtain ⟨found, hfound, hprevious⟩ := bind_eq_ok.mp hrun
  obtain rfl := Except.ok.inj hprevious
  intro e he
  obtain ⟨o, rfl, he⟩ := Option.bind_eq_some_iff.mp he
  have hpayload : EventInfo.ofPayload o.payload = .ok e := eq_ok_of_toOption he
  unfold previous? at hfound
  dsimp only at hfound
  split at hfound
  · next k _ =>
    obtain ⟨row, hrow, hsame⟩ := map_eq_ok.mp hfound
    obtain rfl : row = o := Option.some.inj hsame
    obtain ⟨⟨k', hk'⟩, text, htext, hread⟩ := Store.get_eq_ok.mp hrow
    have hsteady : row.Steady := (h.of_text htext hk' hread).2 hstrict
    exact hsteady.info hpayload
  · split at hfound <;> cases hfound

theorem sound_foldlM_addBuckets (h : s.Sound g strict) {reason : String} {lastMinute : Int}
    (hlast : 60 ∣ lastMinute) {d : EventDelta} (hcount : strict → 0 ≤ d.count)
    {added : List (String × List (Int × Int))}
    (hadded : ∀ group ∈ added, group ∈ (groups g lastMinute d).entries)
    (hrun : added.foldlM (fun s group => r.addBuckets reason group.1 group.2 s) s = .ok s') :
    s'.Sound g strict := by
  induction added generalizing s with
  | nil =>
    cases hrun
    exact h
  | cons group added ih =>
    rw [List.foldlM_cons] at hrun
    obtain ⟨s₁, hadd, hrun⟩ := bind_eq_ok.mp hrun
    refine ih ?_ (fun other hother => hadded other (List.mem_cons_of_mem _ hother)) hrun
    have hgroup := hadded group List.mem_cons_self
    obtain ⟨second, hp⟩ := exists_idAt_of_mem_groups hgroup
    obtain ⟨minutes, hminutes, hset⟩ := addBuckets_eq_ok.mp hadd
    obtain ⟨found, hfound, hrow⟩ := Store.getOrInitial_eq_ok.mp hminutes
    have hbefore : EventTally.Placed g group.1 minutes ∧
        (strict → EventTally.Positive minutes) := by
      have hfound := h.of_find? (k := r.tallyKey group.1) hp hfound
      cases found with
      | none =>
        obtain rfl : SortedMap.empty = minutes :=
          Option.some.inj (congrArg EventTally.byMinute hrow)
        exact ⟨nofun, fun _ => nofun⟩
      | some row =>
        obtain rfl : row = ⟨some minutes⟩ := hrow
        obtain ⟨⟨_, ⟨⟩, hplaced⟩, hsteady⟩ := hfound _ rfl
        refine ⟨hplaced, fun hstrict => ?_⟩
        obtain ⟨_, ⟨⟩, hpositive⟩ := hsteady hstrict
        exact hpositive
    refine h.set (k := r.tallyKey group.1) hp hset ⟨_, rfl, hbefore.1.addedTo fun bucket hb => ?_⟩
      fun hstrict => ⟨_, rfl, (hbefore.2 hstrict).addedTo fun bucket hb =>
        (mem_bucket_groups hgroup hlast hb).2.2 (hcount hstrict)⟩
    obtain ⟨hdvd, hid, -⟩ := mem_bucket_groups hgroup hlast hb
    exact ⟨hdvd, hid⟩

theorem sound_countEvent (h : s.Sound g strict) (hsteady : strict → r.observation.Steady)
    (hkind : r.observation.kind = Payload.eventKind) {minutes : Nat}
    (hrun : r.countEvent g s = .ok (s', minutes)) : s'.Sound g strict := by
  rcases (countEvent_eq_ok hkind).mp hrun with
    ⟨-, rfl, -⟩ | ⟨reason, d, lastMinute, hcounted, hfold, -⟩
  · exact h
  · obtain ⟨current, previous, bounds, hcurrent, hprevious, -, hclip⟩ :=
      counted?_eq_some hcounted
    refine sound_foldlM_addBuckets h (dvd_lastMinute hclip) (fun hstrict => ?_)
      (fun _ hgroup => hgroup) hfold
    exact count_clip_nonneg hclip (EventDelta.steady_ofObservations
      (steady_previousEvent? h hprevious hstrict) ((hsteady hstrict).info hcurrent))

end Intake

/-- Every stage keeps a store `Sound`. -/
theorem Stage.sound_after {g : Granularity} {keepMinor : Bool} {strict : Prop} {r : Intake}
    {s : Store} (h : s.Sound g strict) (hsteady : strict → r.observation.Steady) (stage : Stage) :
    (stage.after g keepMinor r s).Sound g strict := by
  rcases after_spec stage g keepMinor r s with ⟨result, hrun⟩ | ⟨-, hafter⟩
  · revert hrun
    generalize stage.after g keepMinor r s = s'
    intro hrun
    cases stage with
    | eventCount =>
      obtain ⟨minutes, hrun, -⟩ := run_eventCount_eq_ok.mp hrun
      by_cases hkind : r.observation.kind = Payload.eventKind
      · exact Intake.sound_countEvent h hsteady hkind hrun
      · rw [Intake.countEvent, if_pos hkind] at hrun
        exact (Prod.mk.inj (Except.ok.inj hrun)).1 ▸ h
    | activity =>
      obtain ⟨hrun, -⟩ := run_activity_eq_ok.mp hrun
      by_cases hkind : r.observation.kind = Payload.eventKind
      · rw [Intake.noteActivity, if_pos hkind] at hrun
        exact Except.ok.inj hrun ▸ h
      · exact Intake.sound_noteActivity h hkind hrun
    | watch =>
      obtain ⟨kept, hrun, -⟩ := run_watch_eq_ok.mp hrun
      exact Intake.sound_keep h hsteady hrun
    | summary =>
      obtain ⟨hrun, -⟩ := run_summary_eq_ok.mp hrun
      by_cases hkind : r.observation.kind = Payload.eventKind
      · rw [Intake.summarize, if_pos hkind] at hrun
        exact Except.ok.inj hrun ▸ h
      · exact Intake.sound_summarize h hkind hrun
    | relation =>
      obtain ⟨hrun, -⟩ := run_relation_eq_ok.mp hrun
      by_cases hkind : r.observation.kind = Payload.podKind
      · exact Intake.sound_relate h hkind hrun
      · rw [Intake.relate, if_pos hkind] at hrun
        exact Except.ok.inj hrun ▸ h
  · rw [hafter]
    exact h

theorem Ingestion.sound_process {g : Granularity} {keepMinor : Bool} {strict : Prop}
    {i : Ingestion} (h : i.store.Sound g strict) {o : Observation} (hsteady : strict → o.Steady) :
    (process g keepMinor i o).store.Sound g strict :=
  process_induction (P := Store.Sound g strict)
    (fun _ stage _ hobservation hs => Stage.sound_after hs (hobservation.symm ▸ hsteady) stage) h

/-! ## Retention -/

theorem Retention.sound_check {g : Granularity} {strict : Prop} {r : Retention}
    (h : r.store.Sound g strict) (policy : RetentionPolicy) (locked : List Table)
    (footprint : Store → Nat) (now : Instant) :
    (check policy locked footprint now r).1.store.Sound g strict :=
  h.mono fun _ _ => get?_of_get?_check

/-! ## Runs -/

/-- A store, and what has been ingested into it and dropped from it. -/
structure History where
  store : Store
  ingested : IngestCounters
  retained : RetentionCounters

namespace History

def empty : History := ⟨.empty, .zero, .zero⟩

/-- What may happen to a history. -/
inductive Step
  | observe (keepMinor : Bool) (o : Observation)
  /-- A cycle of retention; the tables in `locked` refuse to drop. -/
  | check (policy : RetentionPolicy) (locked : List Table) (footprint : Store → Nat)
      (now : Instant)

/-- Whether no event is told to start or to end in the leap second at the end of a day. -/
def Step.Steady : Step → Prop
  | observe _ o => o.Steady
  | check .. => True

def step (g : Granularity) (h : History) : Step → History
  | .observe keepMinor o =>
    let i := Ingestion.process g keepMinor ⟨h.store, h.ingested⟩ o
    ⟨i.store, i.counters, h.retained⟩
  | .check policy locked footprint now =>
    let r := (Retention.check policy locked footprint now ⟨h.store, h.retained⟩).1
    ⟨r.store, h.ingested, r.counters⟩

def run (g : Granularity) (steps : List Step) : History := steps.foldl (step g) empty

theorem sound_step {g : Granularity} {strict : Prop} {h : History} (hs : h.store.Sound g strict)
    {step : Step} (hsteady : strict → step.Steady) : (h.step g step).store.Sound g strict := by
  cases step with
  | observe keepMinor o => exact Ingestion.sound_process (i := ⟨h.store, h.ingested⟩) hs hsteady
  | check policy locked footprint now =>
    exact Retention.sound_check (r := ⟨h.store, h.retained⟩) hs policy locked footprint now

/-- **Every row is in its partition**, after any observations and cycles of retention: every instant
that it tells is in the partition of its key. Its counts are at least one, if no event was told to
start or to end in the leap second at the end of a day. -/
theorem run_sound (g : Granularity) (steps : List Step) :
    (run g steps).store.Sound g (∀ step ∈ steps, step.Steady) := by
  have hfold : ∀ (strict : Prop) (left : List Step) (h : History), h.store.Sound g strict →
      (∀ step ∈ left, strict → step.Steady) →
      (left.foldl (step g) h).store.Sound g strict := by
    intro strict left
    induction left with
    | nil => exact fun h hs _ => hs
    | cons first left ih =>
      exact fun h hs hsteady => ih _ (sound_step hs (hsteady first List.mem_cons_self))
        fun step hstep => hsteady step (List.mem_cons_of_mem _ hstep)
  exact hfold _ steps empty (Store.Sound.empty g _) fun step hstep hall => hall step hstep

/-- A job observed on a day, and then an event that is told to have gone on from the leap second
before the day until a fifth of a second after midnight, ten times in all. -/
def overMidnight : List Step :=
  [.observe false ⟨startAt 1546389000, "Job", .update, "\x7b\x7d"⟩,
    .observe false ⟨startAt 1546389060, "Event", .add,
      "\x7b\"involvedObject\":\x7b\"uid\":\"u\"\x7d,\"count\":10," ++
      "\"firstTimestamp\":\"2019-01-01T23:59:60.5Z\"," ++
      "\"lastTimestamp\":\"2019-01-02T00:00:00.2Z\"\x7d"⟩]

/-- The share of `overMidnight` behind midnight is counted as less than nothing. -/
theorem counts_below_zero :
    ∃ tally, (run .hour overMidnight).store.get
        (⟨"001546387200", "", "", "", "u"⟩ : Key .eventCount) = .ok tally ∧
      tally.total = -6 ∧ ¬ (run .hour overMidnight).store.Sound .hour True := by
  have hrow : (run .hour overMidnight).store.get
      (⟨"001546387200", "", "", "", "u"⟩ : Key .eventCount) =
        .ok ⟨some (.ofList [(1546387200, .ofList [(":", -6)])])⟩ :=
    eq_ok_of_toOption (by decide +kernel)
  refine ⟨_, hrow, by decide +kernel, fun hsound => ?_⟩
  obtain ⟨⟨k, hk⟩, text, htext, hread⟩ := Store.get_eq_ok.mp hrow
  obtain ⟨minutes, hminutes, hpositive⟩ := (hsound.of_text htext hk hread).2 trivial
  obtain rfl := Option.some.inj hminutes
  exact absurd (hpositive (1546387200, .ofList [(":", -6)]) (by decide +kernel) (":", -6)
    (by decide +kernel)) (by decide)

end History

end WatchHistory
