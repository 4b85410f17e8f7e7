import WatchHistory.Proofs.Event.Bounded
import WatchHistory.Proofs.Event.Contained
import WatchHistory.Proofs.Event.Repeated

/-!
# Minutes added to tallies

Counting an event reads and writes the tally of each partition once, for all minutes in it. What
that comes to is that the count of every minute is added on its own, to the tally of its partition
and under the reason of the event (`Store.Incremented`).

* `countIn_addedTo`: what adding buckets to a tally does to each minute and reason.
* `exists_addGroups_iff`: the minutes of several partitions can be added exactly if each of their
  tallies can be read.
* `countEvent_increments`: counting an event increments the tallies by its minutes, which add up to
  what is counted of it; if it fails, the store stays as it was.
-/

set_option autoImplicit false

namespace WatchHistory

open WatchHistory.Partition

theorem SortedMap.sum_filter_key (m : SortedMap Int Int) (k : Int) :
    ((m.entries.filter fun e => e.1 = k).map Prod.snd).sum = (m.get? k).getD 0 := by
  obtain ⟨es, hes⟩ := m
  unfold get?
  dsimp only
  induction es with
  | nil => rfl
  | cons e es ih =>
    obtain ⟨he, hes'⟩ := List.pairwise_cons.mp hes
    rw [List.filter_cons, List.find?_cons]
    by_cases hk : e.1 = k
    · have hrest : es.filter (fun e => e.1 = k) = [] :=
        List.filter_eq_nil_iff.mpr fun d hd => by
          have hlt := he d hd
          simp only [decide_eq_true_eq]
          omega
      simp [hk, hrest]
    · rw [if_neg (by simpa using hk), Bool.eq_false_iff.mpr fun h => hk (eq_of_not_lt.mp h)]
      exact ih hes'

namespace EventTally

variable {minutes : SortedMap Int ReasonCounts}

theorem countIn_addTo (minutes : SortedMap Int ReasonCounts) (minute minute' : Int)
    (reason reason' : String) (count : Int) :
    countIn (addTo minutes minute reason count) minute' reason' =
      countIn minutes minute' reason' +
        if reason' = reason ∧ minute' = minute then count else 0 := by
  unfold addTo countIn
  rw [SortedMap.get?_alter]
  by_cases hminute : minute' = minute
  · subst hminute
    rw [if_pos rfl, Option.getD_some, SortedMap.get?_alter]
    by_cases hreason : reason' = reason
    · subst hreason
      rw [if_pos rfl, Option.getD_some, if_pos ⟨rfl, rfl⟩]
    · rw [if_neg hreason, if_neg fun h => hreason h.1, Int.add_zero]
  · rw [if_neg hminute, if_neg fun h => hminute h.2, Int.add_zero]

theorem countIn_addedTo (minutes : SortedMap Int ReasonCounts) (minute : Int)
    (reason reason' : String) (buckets : List (Int × Int)) :
    countIn (Intake.addedTo minutes reason buckets) minute reason' =
      countIn minutes minute reason' +
        if reason' = reason then ((buckets.filter fun b => b.1 = minute).map Prod.snd).sum
        else 0 := by
  induction buckets generalizing minutes with
  | nil => simp [Intake.addedTo]
  | cons bucket buckets ih =>
    rw [addedTo_cons, ih, countIn_addTo, Int.add_assoc]
    congr 1
    by_cases hreason : reason' = reason
    · by_cases hminute : bucket.1 = minute
      · have hhead := List.filter_cons_of_pos (l := buckets) (a := bucket)
          (p := fun b => b.1 = minute) (by simpa using hminute)
        rw [hhead, List.map_cons, List.sum_cons, if_pos ⟨hreason, hminute.symm⟩, if_pos hreason,
          if_pos hreason]
      · have htail := List.filter_cons_of_neg (l := buckets) (a := bucket)
          (p := fun b => b.1 = minute) (by simpa using hminute)
        rw [htail, if_neg fun h => hminute h.2.symm, Int.zero_add]
    · rw [if_neg fun h => hreason h.1, if_neg hreason, if_neg hreason, Int.zero_add]

end EventTally

/-! ## Increments -/

/-- Whether the row under a key is a tally of the given minutes, as it is read or as it was written.
Where there is no row, none is told. -/
def Store.Tallies (s : Store) (key : String) (minutes : SortedMap Int ReasonCounts) : Prop :=
  (s.get? key = none ∧ minutes = .empty) ∨
    ∃ text, s.get? key = some text ∧ (Table.eventCount.read? text = some ⟨some minutes⟩ ∨
      text = Table.eventCount.write ⟨some minutes⟩)

/-- The key under which a minute is counted for the object of an event. -/
def Intake.minuteKey? (r : Intake) (g : Granularity) (minute : Int) : Option String :=
  (Intake.partitionOfMinute? g minute).map fun p => (r.tallyKey p).render

/-- Whether a store comes from another one by adding the count of each minute, under a reason, to
the tally of the object of an event in the partition of the minute. Counts are whole numbers here,
whether they fit into 64 bits or not. -/
structure Store.Incremented (g : Granularity) (r : Intake) (reason : String)
    (counts : SortedMap Int Int) (s s' : Store) : Prop where
  /-- The tallies to which something is added. -/
  counted : ∀ minute ∈ counts.keys, ∃ key old, r.minuteKey? g minute = some key ∧ s.Tallies key old
  /-- What every tally tells of every minute and reason. -/
  added : ∀ key old, s.Tallies key old → ∃ new, s'.Tallies key new ∧ ∀ minute reason',
    EventTally.countIn new minute reason' = EventTally.countIn old minute reason' +
      if reason' = reason ∧ r.minuteKey? g minute = some key then (counts.get? minute).getD 0 else 0
  /-- Rows to which nothing is added keep their text. -/
  kept : ∀ key, (∀ minute ∈ counts.keys, r.minuteKey? g minute ≠ some key) →
    s'.get? key = s.get? key

namespace Intake

variable {g : Granularity} {r : Intake} {s s' : Store} {reason : String} {lastMinute : Int}
  {d : EventDelta}

theorem tallies_of_getOrInitial {k : Key .eventCount} {minutes : SortedMap Int ReasonCounts}
    (h : s.getOrInitial k = .ok ⟨some minutes⟩) : s.Tallies k.render minutes := by
  obtain ⟨found, hfound, hinitial⟩ := Store.getOrInitial_eq_ok.mp h
  obtain ⟨-, ⟨hnone, rfl⟩ | ⟨text, row, htext, hread, rfl⟩⟩ := Store.find?_eq_ok.mp hfound
  · cases hinitial
    exact .inl ⟨hnone, rfl⟩
  · obtain rfl : row = ⟨some minutes⟩ := hinitial
    exact .inr ⟨text, htext, .inl hread⟩

theorem eq_of_tallies {k : Key .eventCount} {minutes old : SortedMap Int ReasonCounts}
    (h : s.getOrInitial k = .ok ⟨some minutes⟩) (hold : s.Tallies k.render old) :
    old = minutes := by
  have hread : ∀ {a b : SortedMap Int ReasonCounts} {text : String},
      Table.eventCount.read? text = some ⟨some a⟩ →
      (Table.eventCount.read? text = some ⟨some b⟩ ∨
        text = Table.eventCount.write ⟨some b⟩) → b = a := by
    rintro a b text ha (hb | rfl)
    · exact Option.some.inj (congrArg EventTally.byMinute (Option.some.inj (hb.symm.trans ha)))
    · exact Option.some.inj (congrArg EventTally.byMinute (Table.eq_of_read?_write ha)).symm
  obtain ⟨found, hfound, hinitial⟩ := Store.getOrInitial_eq_ok.mp h
  obtain ⟨-, ⟨hnone, rfl⟩ | ⟨text, row, htext, hrow, rfl⟩⟩ := Store.find?_eq_ok.mp hfound
  · cases hinitial
    rcases hold with ⟨-, rfl⟩ | ⟨text, htext, -⟩
    · rfl
    · cases hnone.symm.trans htext
  · obtain rfl : row = ⟨some minutes⟩ := hinitial
    rcases hold with ⟨hnone, -⟩ | ⟨text', htext', hold⟩
    · cases hnone.symm.trans htext
    · obtain rfl := Option.some.inj (htext.symm.trans htext')
      exact hread hrow hold

theorem mem_keys_groupMinutes_iff {minutes : SortedMap Int Int} {p : String} :
    p ∈ (groupMinutes g minutes).keys ↔
      ∃ minute ∈ minutes.keys, partitionOfMinute? g minute = some p := by
  rw [SortedMap.mem_keys_iff]
  constructor
  · rintro ⟨buckets, hbuckets⟩
    obtain ⟨hne, rfl⟩ := mem_entries_groupMinutes (SortedMap.mem_iff_get?.mpr hbuckets)
    obtain ⟨bucket, hbucket⟩ := List.exists_mem_of_ne_nil _ hne
    obtain ⟨hentry, hp⟩ := List.mem_filter.mp hbucket
    exact ⟨bucket.1, List.mem_map_of_mem hentry, of_decide_eq_true hp⟩
  · rintro ⟨minute, hminute, hp⟩
    obtain ⟨count, hcount⟩ := SortedMap.mem_keys_iff.mp hminute
    exact ⟨_, (get?_groupMinutes minutes p).trans (if_neg (List.ne_nil_of_mem (List.mem_filter.mpr
      ⟨SortedMap.mem_iff_get?.mpr hcount, by simpa using hp⟩)))⟩

theorem sum_filter_group {minutes : SortedMap Int Int} {p : String} {buckets : List (Int × Int)}
    (h : (p, buckets) ∈ (groupMinutes g minutes).entries) (minute : Int) :
    ((buckets.filter fun b => b.1 = minute).map Prod.snd).sum =
      if partitionOfMinute? g minute = some p then (minutes.get? minute).getD 0 else 0 := by
  obtain ⟨-, rfl⟩ := mem_entries_groupMinutes h
  rw [List.filter_filter]
  by_cases hp : partitionOfMinute? g minute = some p
  · rw [if_pos hp, ← SortedMap.sum_filter_key]
    congr 2
    refine List.filter_congr fun b _ => ?_
    by_cases hb : b.1 = minute
    · simp [hb, hp]
    · simp [hb]
  · rw [if_neg hp, List.filter_eq_nil_iff.mpr]
    · rfl
    · rintro b -
      simp only [Bool.and_eq_true, decide_eq_true_eq, not_and]
      rintro rfl
      exact hp

/-- Minutes can be added to the tallies of several partitions exactly if each of these can be read
and has not lost its minutes. -/
theorem exists_addGroups_iff {groups : List (String × List (Int × Int))}
    (hids : ∀ group ∈ groups, ∃ second, group.1 = idAt second)
    (hdistinct : groups.Pairwise fun a b => a.1 ≠ b.1) :
    (∃ s', groups.foldlM (fun s group => r.addBuckets reason group.1 group.2 s) s = .ok s') ↔
      ∀ group ∈ groups, ∃ minutes, s.getOrInitial (r.tallyKey group.1) = .ok ⟨some minutes⟩ := by
  constructor
  · rintro ⟨s', h⟩ group hgroup
    obtain ⟨minutes, hminutes, -⟩ := (addGroups_spec hids hdistinct h).2 group hgroup
    exact ⟨minutes, hminutes⟩
  · intro h
    induction groups generalizing s with
    | nil => exact ⟨s, rfl⟩
    | cons group groups ih =>
      obtain ⟨minutes, hminutes⟩ := h group List.mem_cons_self
      obtain ⟨found, hfound, -⟩ := Store.getOrInitial_eq_ok.mp hminutes
      obtain ⟨⟨k, hk⟩, -⟩ := Store.find?_eq_ok.mp hfound
      have hset := Store.set_of_parse hk s ⟨some (addedTo minutes reason group.2)⟩
      obtain ⟨hhead, htail⟩ := List.pairwise_cons.mp hdistinct
      obtain ⟨s', hs'⟩ := ih (fun e he => hids e (List.mem_cons_of_mem _ he)) htail
        (s := s.insert (r.tallyKey group.1).render
          (Table.eventCount.write ⟨some (addedTo minutes reason group.2)⟩)) fun e he => by
        obtain ⟨minutes', hminutes'⟩ := h e (List.mem_cons_of_mem _ he)
        refine ⟨minutes', hminutes' ▸ Store.getOrInitial_congr ?_⟩
        -- The first tally lies under a key of its own.
        have hne := hhead e he
        obtain ⟨a, ha⟩ := hids group List.mem_cons_self
        obtain ⟨b, hb⟩ := hids e (List.mem_cons_of_mem _ he)
        rw [ha] at hk hne ⊢
        rw [hb] at hne ⊢
        rw [Store.get?_insert, if_neg (render_tallyKey_ne hne hk).symm]
      refine ⟨s', ?_⟩
      rw [List.foldlM_cons, addBuckets_eq_ok.mpr ⟨minutes, hminutes, hset⟩]
      exact hs'

/-! ## The minutes of an event -/

theorem exists_partitionOfMinute?_of_clip {bounds : String × String} {clipped : EventDelta}
    (h : clip g bounds d = .ok (clipped, lastMinute)) {minute : Int}
    (hmem : minute ∈ (foldMinutes lastMinute clipped.spread).keys) :
    ∃ p, partitionOfMinute? g minute = some p := by
  obtain ⟨-, next, stop, -, -, hstop, -, rfl⟩ := clip_eq_ok_iff.mp h
  obtain ⟨hfirst, hlast⟩ := (eq_idAt_of_start hstop).2.1
  unfold idLimit at hlast
  obtain ⟨count, hcount⟩ := SortedMap.mem_keys_iff.mp hmem
  obtain ⟨⟨⟨m, c⟩, hbucket, rfl⟩, -⟩ := mem_entries_foldMinutes (SortedMap.mem_iff_get?.mpr hcount)
  have hminute := (EventDelta.mem_spread hbucket).1
  have hleast := EventDelta.le_nearestMinute (s := -8334601228800) (by decide)
    clipped.first.first_le
  apply exists_partitionOfMinute? <;> dsimp only <;> omega

theorem length_groups {minutes : SortedMap Int Int}
    (h : ∀ minute ∈ minutes.keys, ∃ p, partitionOfMinute? g minute = some p) :
    (groupMinutes g minutes).values.foldr (fun buckets n => buckets.length + n) 0 =
      minutes.size := by
  have hfold : ∀ groups : List (String × List (Int × Int)),
      ((groups.map Prod.snd).foldr (fun buckets n => buckets.length + n) 0 : Nat) =
        (groups.map fun group => (group.2.map fun _ => (1 : Int)).sum).sum := by
    intro groups
    induction groups with
    | nil => rfl
    | cons group groups ih => simp [ih]
  have hsum := sumBy_groupMinutes_map (fun _ => 1) fun bucket hbucket =>
    h bucket.1 (List.mem_map_of_mem hbucket)
  have hsize : (minutes.entries.map fun _ => (1 : Int)).sum = minutes.size := by
    simp [SortedMap.size]
  rw [← Int.ofNat_inj, SortedMap.values, hfold, ← hsize, ← hsum]
  rfl

theorem sum_foldMinutes_clip {bounds : String × String} {clipped : EventDelta}
    (hd : 0 ≤ d.count) (h : clip g bounds d = .ok (clipped, lastMinute)) :
    (foldMinutes lastMinute clipped.spread).sumBy (fun _ count => count) =
      if EventDelta.nearestMinute clipped.last < EventDelta.nearestMinute clipped.first then 0
      else clipped.count := by
  rw [sumBy_foldMinutes]
  split
  · next hinverted =>
    have hspread : clipped.spread = [] := if_pos (.inr hinverted)
    rw [hspread]
    rfl
  · next hordered =>
    obtain ⟨start, stop, hstart, hstop, -, rfl, -⟩ := exists_starts_of_clip h
    exact EventDelta.sum_spread_of_le (Int.not_lt.mp hordered)
      (EventDelta.count_cut_nonneg_or hd hstart hstop)

theorem minuteKey?_eq_iff {second minute : Int} {k : Key .eventCount}
    (hk : Key.parse .eventCount (r.tallyKey (idAt second)).render = .ok k) :
    r.minuteKey? g minute = some (r.tallyKey (idAt second)).render ↔
      partitionOfMinute? g minute = some (idAt second) := by
  unfold minuteKey?
  rw [Option.map_eq_some_iff]
  constructor
  · rintro ⟨p, hp, hsame⟩
    obtain ⟨t, -, rfl⟩ := partitionOfMinute?_eq_some_iff.mp hp
    refine hp.trans (congrArg some (Decidable.byContradiction fun hne => ?_))
    exact render_tallyKey_ne (fun h => hne h.symm) hk hsame.symm
  · exact fun hp => ⟨_, hp, rfl⟩

/-- Adding the minutes of each partition in turn (`addBuckets`) adds all of them (`Incremented`). -/
theorem incremented_of_addGroups {minutes : SortedMap Int Int}
    (hminutes : ∀ minute ∈ minutes.keys, ∃ p, partitionOfMinute? g minute = some p)
    (hids : ∀ group ∈ (groupMinutes g minutes).entries, ∃ second, group.1 = idAt second)
    (hdistinct : (groupMinutes g minutes).entries.Pairwise fun a b => a.1 ≠ b.1)
    (h : (groupMinutes g minutes).entries.foldlM
      (fun s group => r.addBuckets reason group.1 group.2 s) s = .ok s') :
    Store.Incremented g r reason minutes s s' := by
  obtain ⟨hother, hadded⟩ := addGroups_spec hids hdistinct h
  -- Every minute is in the group of its partition.
  have hgroup : ∀ minute ∈ minutes.keys, ∃ group ∈ (groupMinutes g minutes).entries,
      r.minuteKey? g minute = some (r.tallyKey group.1).render := by
    intro minute hminute
    obtain ⟨p, hp⟩ := hminutes minute hminute
    obtain ⟨buckets, hbuckets⟩ := SortedMap.mem_keys_iff.mp
      (mem_keys_groupMinutes_iff.mpr ⟨minute, hminute, hp⟩)
    exact ⟨(p, buckets), SortedMap.mem_iff_get?.mpr hbuckets, by rw [minuteKey?, hp]; rfl⟩
  refine ⟨fun minute hminute => ?_, fun key old hold => ?_, fun key hkeys => ?_⟩
  · obtain ⟨group, hmem, hkey⟩ := hgroup minute hminute
    obtain ⟨old, hold, -⟩ := hadded group hmem
    exact ⟨_, old, hkey, tallies_of_getOrInitial hold⟩
  · by_cases hwritten : ∃ group ∈ (groupMinutes g minutes).entries,
        key = (r.tallyKey group.1).render
    · obtain ⟨⟨p, buckets⟩, hmem, rfl⟩ := hwritten
      obtain ⟨known, hknown, htext⟩ := hadded _ hmem
      obtain rfl := eq_of_tallies hknown hold
      obtain ⟨found, hfound, -⟩ := Store.getOrInitial_eq_ok.mp hknown
      obtain ⟨⟨k, hk⟩, -⟩ := Store.find?_eq_ok.mp hfound
      obtain ⟨second, rfl⟩ : ∃ second, p = idAt second := hids _ hmem
      refine ⟨_, .inr ⟨_, htext, .inr rfl⟩, fun minute reason' => ?_⟩
      rw [EventTally.countIn_addedTo, sum_filter_group hmem minute]
      simp only [minuteKey?_eq_iff hk, ite_and]
    · have hrow := hother key fun group hmem hkey => hwritten ⟨group, hmem, hkey⟩
      refine ⟨old, by rw [Store.Tallies, hrow]; exact hold, fun minute reason' => ?_⟩
      split
      · next hadd =>
        have hnone : minutes.get? minute = none := Option.eq_none_iff_forall_not_mem.mpr
          fun count hcount => by
            obtain ⟨group, hmem, hkey⟩ := hgroup minute (SortedMap.mem_keys_iff.mpr ⟨count, hcount⟩)
            exact hwritten ⟨group, hmem, Option.some.inj (hadd.2.symm.trans hkey)⟩
        rw [hnone, Option.getD_none, Int.add_zero]
      · rw [Int.add_zero]
  · refine hother key fun group hmem hkey => ?_
    obtain ⟨minute, hminute, hp⟩ := mem_keys_groupMinutes_iff.mp (List.mem_map_of_mem hmem)
    exact hkeys minute hminute (by rw [minuteKey?, hp, hkey]; rfl)

theorem exists_countEvent_iff (hkind : r.observation.kind = Payload.eventKind)
    (hcounted : r.counted? g s = .ok (some (reason, d, lastMinute))) :
    (∃ s' n, r.countEvent g s = .ok (s', n)) ↔
      ∀ minute ∈ (foldMinutes lastMinute d.spread).keys, ∃ p old,
        partitionOfMinute? g minute = some p ∧
        s.getOrInitial (r.tallyKey p) = .ok ⟨some old⟩ := by
  obtain ⟨current, previous, bounds, -, -, -, -, -, hclip, -⟩ := counted?_eq_some_iff.mp hcounted
  have hadd : (∃ s' n, r.countEvent g s = .ok (s', n)) ↔
      ∃ s', (groups g lastMinute d).entries.foldlM
        (fun s group => r.addBuckets reason group.1 group.2 s) s = .ok s' := by
    constructor
    · rintro ⟨s', n, h⟩
      rcases (countEvent_eq_ok hkind).mp h with ⟨hnone, -⟩ | ⟨_, _, _, hsome, hadd, -⟩
      · cases hcounted.symm.trans hnone
      · cases hcounted.symm.trans hsome
        exact ⟨s', hadd⟩
    · rintro ⟨s', hadd⟩
      exact ⟨s', _, (countEvent_eq_ok hkind).mpr (.inr ⟨_, _, _, hcounted, hadd, rfl⟩)⟩
  rw [hadd,
    exists_addGroups_iff (fun _ => exists_idAt_of_mem_groups) (pairwise_groups lastMinute d)]
  constructor
  · intro h minute hminute
    obtain ⟨p, hp⟩ := exists_partitionOfMinute?_of_clip hclip hminute
    obtain ⟨buckets, hbuckets⟩ := SortedMap.mem_keys_iff.mp
      (mem_keys_groupMinutes_iff.mpr ⟨minute, hminute, hp⟩)
    obtain ⟨old, hold⟩ := h (p, buckets) (SortedMap.mem_iff_get?.mpr hbuckets)
    exact ⟨p, old, hp, hold⟩
  · intro h group hgroup
    obtain ⟨minute, hminute, hp⟩ := mem_keys_groupMinutes_iff.mp (List.mem_map_of_mem hgroup)
    obtain ⟨p, old, hp', hold⟩ := h minute hminute
    obtain rfl := Option.some.inj (hp.symm.trans hp')
    exact ⟨old, hold⟩

/-- **Counting an event increments the tallies minute by minute**, by the counts of the part of it
that is counted, however many partitions the minutes lie in. It fails if the tally of any of them
cannot be read, and then none is changed. -/
theorem countEvent_increments (hkind : r.observation.kind = Payload.eventKind) :
    (∀ s' n, r.countEvent g s = .ok (s', n) → ∃ current previous,
      EventInfo.ofPayload r.observation.payload = .ok current ∧
      r.previousEvent? g s = .ok previous ∧
      ((s' = s ∧ n = 0 ∧ (current.first = .epoch ∨ current.last = .epoch ∨
        (EventDelta.ofObservations previous current).count = 0 ∨ s.bounds = .ok none)) ∨
      ∃ bounds d lastMinute counts, s.bounds = .ok (some bounds) ∧
        clip g bounds (EventDelta.ofObservations previous current) = .ok (d, lastMinute) ∧
        counts = foldMinutes lastMinute d.spread ∧
        Store.Incremented g r current.reasonKey counts s s' ∧ n = counts.size ∧
        counts.sumBy (fun _ count => count) =
          if EventDelta.nearestMinute d.last < EventDelta.nearestMinute d.first then 0
          else d.count)) ∧
    (∀ reason d lastMinute, r.counted? g s = .ok (some (reason, d, lastMinute)) →
      ((∃ s' n, r.countEvent g s = .ok (s', n)) ↔
        ∀ minute ∈ (foldMinutes lastMinute d.spread).keys, ∃ p old,
          partitionOfMinute? g minute = some p ∧
          s.getOrInitial (r.tallyKey p) = .ok ⟨some old⟩)) ∧
    ∀ e, r.countEvent g s = .error e → ∀ keepMinor counters,
      (Ingestion.runStage g keepMinor r ⟨s, counters⟩ .eventCount).store = s := by
  refine ⟨fun s' n h => ?_, fun reason d lastMinute => exists_countEvent_iff hkind,
    fun e he keepMinor counters => ?_⟩
  · rcases (countEvent_eq_ok hkind).mp h with
      ⟨hnone, rfl, rfl⟩ | ⟨reason, d, lastMinute, hcounted, hadd, rfl⟩
    · obtain ⟨current, previous, hcurrent, hprevious, hwhy⟩ := counted?_eq_none_iff.mp hnone
      exact ⟨current, previous, hcurrent, hprevious, .inl ⟨rfl, rfl, hwhy⟩⟩
    · obtain ⟨current, previous, bounds, hcurrent, hprevious, -, -, hbounds, hclip, rfl⟩ :=
        counted?_eq_some_iff.mp hcounted
      have hminutes : ∀ minute ∈ (foldMinutes lastMinute d.spread).keys,
          ∃ p, partitionOfMinute? g minute = some p :=
        fun _ => exists_partitionOfMinute?_of_clip hclip
      have hdelta := EventDelta.count_ofObservations_nonneg previous
        (EventInfo.count_bounds hcurrent).1
      exact ⟨current, previous, hcurrent, hprevious, .inr ⟨bounds, d, lastMinute, _, hbounds, hclip,
        rfl, incremented_of_addGroups hminutes (fun _ => exists_idAt_of_mem_groups)
          (pairwise_groups lastMinute d) hadd, length_groups hminutes,
        sum_foldMinutes_clip hdelta hclip⟩⟩
  · unfold Ingestion.runStage Stage.run
    dsimp only
    rw [he]
    rfl

/-- An event about the pod of `firstAndThirdHour`, four times from the end of the second hour to the
start of the third. -/
def acrossHours : Intake :=
  ⟨⟨startAt 7320, "Event", .add, "\x7b\"count\":4,\"reason\":\"BackOff\",\"type\":\"Warning\"," ++
    "\"firstTimestamp\":\"1970-01-01T01:58:00Z\",\"lastTimestamp\":\"1970-01-01T02:01:00Z\"\x7d"⟩,
    .initial, ⟨"Pod", "web", "ns", "u"⟩⟩

/-- What is counted of `acrossHours`, and the tallies of the two hours that it goes to. -/
theorem counted?_acrossHours :
    ∃ s, firstAndThirdHour = .ok s ∧
      acrossHours.counted? .hour s =
        .ok (some ("BackOff:Warning", ⟨startAt 7080, startAt 7260, 4⟩, 10740)) ∧
      s.getOrInitial (acrossHours.tallyKey (idAt 3600)) = .ok ⟨some .empty⟩ ∧
      s.getOrInitial (acrossHours.tallyKey (idAt 7200)) = .ok ⟨some .empty⟩ := by
  obtain ⟨s₁, h₁⟩ : ∃ s₁, Store.empty.set (podAt 0) ⟨[], [0]⟩ = .ok s₁ := ⟨_, rfl⟩
  obtain ⟨s, h₂⟩ : ∃ s, s₁.set (podAt 7200) ⟨[], [7200]⟩ = .ok s := ⟨_, rfl⟩
  have hs : firstAndThirdHour = .ok s := by rw [← h₂, firstAndThirdHour, h₁]; rfl
  have htold : EventInfo.ofPayload acrossHours.observation.payload =
      .ok ⟨"BackOff", "Warning", startAt 7080, startAt 7260, 4⟩ :=
    eq_ok_of_toOption (by decide +kernel)
  have hclip : clip .hour (idAt 0, idAt 7200) ⟨startAt 7080, startAt 7260, 4⟩ =
      .ok (⟨startAt 7080, startAt 7260, 4⟩, 10740) :=
    eq_ok_of_toOption (by decide +kernel)
  have hstore : firstAndThirdHour.toOption.map (fun s => (s.bounds.toOption,
      (acrossHours.previousEvent? .hour s).toOption,
      (s.getOrInitial (acrossHours.tallyKey (idAt 3600))).toOption,
      (s.getOrInitial (acrossHours.tallyKey (idAt 7200))).toOption)) =
        some (some (some (idAt 0, idAt 7200)), some none, some ⟨some .empty⟩,
          some ⟨some .empty⟩) := by decide +kernel
  rw [hs] at hstore
  obtain ⟨hbounds, hprevious, hsecond, hthird⟩ : s.bounds.toOption = _ ∧
      (acrossHours.previousEvent? .hour s).toOption = _ ∧ (s.getOrInitial _).toOption = _ ∧
      (s.getOrInitial _).toOption = _ := by
    simpa only [Prod.mk.injEq] using Option.some.inj hstore
  exact ⟨s, hs, counted?_eq_some_iff.mpr ⟨_, _, _, htold, eq_ok_of_toOption hprevious, by decide,
    by decide, eq_ok_of_toOption hbounds, hclip, rfl⟩, eq_ok_of_toOption hsecond,
    eq_ok_of_toOption hthird⟩

/-- Two of the minutes of `acrossHours` are added to the tally of each of the two hours. -/
theorem countEvent_increments_acrossHours :
    acrossHours.observation.kind = Payload.eventKind ∧
      ∃ s s' counts, firstAndThirdHour = .ok s ∧
        acrossHours.countEvent .hour s = .ok (s', 4) ∧
        Store.Incremented .hour acrossHours "BackOff:Warning" counts s s' ∧
        counts.entries = [(7080, 1), (7140, 1), (7200, 1), (7260, 1)] := by
  obtain ⟨s, hs, hcounted, hsecond, hthird⟩ := counted?_acrossHours
  have hkind : acrossHours.observation.kind = Payload.eventKind := by decide
  have hcounts : (foldMinutes 10740 (EventDelta.spread ⟨startAt 7080, startAt 7260, 4⟩)).entries =
      [(7080, 1), (7140, 1), (7200, 1), (7260, 1)] := by decide +kernel
  obtain ⟨hincrements, hcount, -⟩ := countEvent_increments (g := .hour) (s := s) hkind
  obtain ⟨s', n, hfound⟩ := (hcount _ _ _ hcounted).mpr fun minute hminute => by
    obtain rfl | rfl | rfl | rfl :
        minute = 7080 ∨ minute = 7140 ∨ minute = 7200 ∨ minute = 7260 := by
      simpa [SortedMap.keys, hcounts] using hminute
    · exact ⟨_, _, by decide, hsecond⟩
    · exact ⟨_, _, by decide, hsecond⟩
    · exact ⟨_, _, by decide, hthird⟩
    · exact ⟨_, _, by decide, hthird⟩
  obtain ⟨current, previous, bounds, hcurrent, hprevious, hepoch, hzero, hbounds, hclip, hreason⟩ :=
    counted?_eq_some_iff.mp hcounted
  obtain ⟨current', previous', hcurrent', hprevious', hcases⟩ := hincrements s' n hfound
  obtain rfl := Except.ok.inj (hcurrent.symm.trans hcurrent')
  obtain rfl := Except.ok.inj (hprevious.symm.trans hprevious')
  rcases hcases with ⟨-, -, hfirst | hlast | hnone | hempty⟩ |
    ⟨bounds', d, lastMinute, counts, hbounds', hclip', rfl, hincremented, rfl, -⟩
  · exact absurd (.inl hfirst) hepoch
  · exact absurd (.inr hlast) hepoch
  · exact absurd hnone hzero
  · cases hempty.symm.trans hbounds
  · cases hbounds.symm.trans hbounds'
    cases hclip.symm.trans hclip'
    rw [SortedMap.size, hcounts] at hfound
    rw [← hreason] at hincremented
    exact ⟨hkind, s, s', _, hs, hfound, hincremented, hcounts⟩

end Intake

end WatchHistory
