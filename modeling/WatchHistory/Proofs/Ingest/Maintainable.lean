import WatchHistory.Proofs.Event.Window
import WatchHistory.Proofs.Ingest.Writes
import WatchHistory.Proofs.Key.Observation
import WatchHistory.Retention

/-!
# When an ingested history can be maintained

Observations are filed under the partitions of their times, whatever these are, and events are
counted between the bounds of the store. So every row lies between the partitions of two
observations that have rows themselves (`Grounded`, `grounded_processAll`).

* `bounds_readable_iff`: the bounds of an ingested history can be read exactly if every observation
  that has rows in its partition lies between two of which the partitions have ids of twelve digits.
  If they can be read, no cycle of retention fails, and events fail to be counted because of an id
  only if it is the one after the newest partition.
* `bounds_unreadable`: an observation of the year 1 makes every cycle of retention fail.
-/

set_option autoImplicit false

namespace WatchHistory

open WatchHistory.Partition

/-! ## Rows between observations -/

/-- Whether a partition lies between those of two observations, which hold rows themselves. -/
def Bracketed (g : Granularity) (os : List Observation) (s : Store) (p : String) : Prop :=
  ∃ first ∈ os, ∃ last ∈ os, (s.HoldsAny (g.partitionOf first.time) ∧
    s.HoldsAny (g.partitionOf last.time)) ∧ ¬ p < g.partitionOf first.time ∧
    ¬ g.partitionOf last.time < p

/-- Whether every row lies in a partition on the grid between those of two observations; an
observation itself is stored only if its nanoseconds have 64 bits. -/
def Grounded (g : Granularity) (os : List Observation) (s : Store) : Prop :=
  ∀ key row, s.get? key = some row → ∃ t second, Filed t (idAt second) key ∧
    g.seconds ∣ second ∧ (t = .watch → second ≤ 9223372036) ∧ Bracketed g os s (idAt second)

variable {g : Granularity} {keepMinor : Bool} {os : List Observation} {s s' : Store} {t : Table}
  {r : Intake} {i : Ingestion}

theorem Bracketed.set {p : String} (h : Bracketed g os s p) {k : Key t} {row : t.Row}
    (hset : s.set k row = .ok s') : Bracketed g os s' p := by
  obtain ⟨first, hfirst, last, hlast, ⟨hheld, hheld'⟩, hle⟩ := h
  exact ⟨first, hfirst, last, hlast, ⟨hheld.set hset, hheld'.set hset⟩, hle⟩

namespace Grounded

theorem empty (g : Granularity) (os : List Observation) : Grounded g os .empty := nofun

theorem keyed (h : Grounded g os s) : s.Keyed := by
  intro key row hrow
  obtain ⟨t, second, hfiled, -⟩ := h key row hrow
  exact ⟨t, second, hfiled⟩

theorem of_holds (h : Grounded g os s) {p : String} (hp : s.Holds t p) :
    ∃ second, p = idAt second ∧ g.seconds ∣ second ∧ (t = .watch → second ≤ 9223372036) ∧
      Bracketed g os s (idAt second) := by
  obtain ⟨key, row, hrow, hfiled⟩ := hp
  obtain ⟨u, second, hid, hrest⟩ := h key row hrow
  obtain ⟨rfl, rfl⟩ := hfiled.unique hid
  exact ⟨second, rfl, hrest⟩

/-- A row may be written into any partition between those of two observations. -/
theorem set (h : Grounded g os s) {k : Key t} {row : t.Row} {second : Int}
    (hp : k.partition = idAt second) (hdvd : g.seconds ∣ second)
    (hwatch : t = .watch → second ≤ 9223372036) (hset : s.set k row = .ok s')
    (hbracketed : Bracketed g os s' (idAt second)) : Grounded g os s' := by
  intro key text htext
  rw [Store.get?_set hset] at htext
  split at htext
  · next hkey =>
    subst hkey
    exact ⟨t, second, Store.filed_of_set hp hset, hdvd, hwatch, hbracketed⟩
  · obtain ⟨u, second', hfiled, hdvd', hwatch', hbracketed'⟩ := h key text htext
    exact ⟨u, second', hfiled, hdvd', hwatch', hbracketed'.set hset⟩

theorem set_object (h : Grounded g os s) (hr : r.observation ∈ os) {last : t.Last} {row : t.Row}
    (hwatch : t = .watch → g.floor r.observation.time.seconds ≤ 9223372036)
    (hset : s.set (r.key g t last) row = .ok s') : Grounded g os s' := by
  have hheld : s'.HoldsAny (g.partitionOf r.observation.time) := Store.holdsAny_of_set rfl hset
  exact h.set rfl (g.dvd_floor _) hwatch hset ⟨r.observation, hr, r.observation, hr,
    ⟨hheld, hheld⟩, String.lt_irrefl _, String.lt_irrefl _⟩

theorem after_of_ne (h : Grounded g os s) (hr : r.observation ∈ os) {stage : Stage}
    (hstage : stage ≠ .eventCount) : Grounded g os (stage.after g keepMinor r s) := by
  rcases Stage.after_cases g keepMinor r s hstage with
    hsame | ⟨-, hset⟩ | ⟨t, last, row, -, hwatch, -, hset⟩
  · rw [hsame]
    exact h
  · refine h.set_object hr (fun _ => ?_) hset
    obtain ⟨⟨k, hk⟩, -⟩ := Store.set_eq_ok.mp hset
    obtain ⟨hfits, -⟩ := Key.of_parse_observation hk
    exact Int.le_trans (g.floor_le _) (Key.seconds_le_of_fits hfits)
  · exact h.set_object hr (fun ht => absurd ht hwatch) hset

theorem bounds (h : Grounded g os s) {min max : String}
    (hbounds : s.bounds = .ok (some (min, max))) :
    ∃ first ∈ os, ∃ last ∈ os, min = g.partitionOf first.time ∧ max = g.partitionOf last.time ∧
      Spans s.HoldsAny (some (min, max)) := by
  obtain ⟨⟨t, hmin⟩, ⟨u, hmax⟩, hall⟩ := Store.spans_of_bounds h.keyed hbounds
  obtain ⟨a, rfl, -, -, first, hfirst, -, -, ⟨hheld, -⟩, hle, -⟩ := h.of_holds hmin
  obtain ⟨z, rfl, -, -, -, -, last, hlast, ⟨-, hheld'⟩, -, hle'⟩ := h.of_holds hmax
  exact ⟨first, hfirst, last, hlast, StrictOrder.connex hle (hall _ hheld).1,
    StrictOrder.connex (hall _ hheld').2 hle', ⟨t, hmin⟩, ⟨u, hmax⟩, hall⟩

theorem foldlM_addBuckets {reason : String} {groups : List (String × List (Int × Int))}
    (h : Grounded g os s)
    (hgroups : ∀ group ∈ groups, ∃ second, group.1 = idAt second ∧ g.seconds ∣ second ∧
      Bracketed g os s (idAt second))
    (hfold : groups.foldlM (fun s group => r.addBuckets reason group.1 group.2 s) s = .ok s') :
    Grounded g os s' := by
  induction groups generalizing s with
  | nil =>
    cases hfold
    exact h
  | cons group groups ih =>
    rw [List.foldlM_cons] at hfold
    obtain ⟨s₁, hadd, hfold⟩ := bind_eq_ok.mp hfold
    obtain ⟨minutes, -, hset⟩ := Intake.addBuckets_eq_ok.mp hadd
    obtain ⟨second, hp, hdvd, hbracketed⟩ := hgroups group List.mem_cons_self
    have hgrounded : Grounded g os s₁ :=
      h.set (k := r.tallyKey group.1) hp hdvd (fun ht => by cases ht) hset (hbracketed.set hset)
    refine ih hgrounded (fun group' hgroup' => ?_) hfold
    obtain ⟨second', hp', hdvd', hbracketed'⟩ := hgroups group' (List.mem_cons_of_mem _ hgroup')
    exact ⟨second', hp', hdvd', hbracketed'.set hset⟩

theorem addGroups (h : Grounded g os s) {reason : String} {d : EventDelta} {lastMinute : Int}
    (hcounted : r.counted? g s = .ok (some (reason, d, lastMinute)))
    (hfold : (Intake.groups g lastMinute d).entries.foldlM
      (fun s group => r.addBuckets reason group.1 group.2 s) s = .ok s') : Grounded g os s' := by
  obtain ⟨current, previous, ⟨min, max⟩, -, -, hbounds, hclip⟩ :=
    Intake.counted?_eq_some hcounted
  obtain ⟨first, hfirst, last, hlast, rfl, rfl, hheld, hheld', hall⟩ := h.bounds hbounds
  have hfirstdvd := g.dvd_floor first.time.seconds
  have hlastdvd := g.dvd_floor last.time.seconds
  obtain ⟨hfirstrange, hlastrange, hle, -⟩ :=
    Intake.window_of_clip hfirstdvd hlastdvd (hall _ hheld').1 hclip
  have hstart := (EventDelta.windowStart_spec hfirstrange hfirstdvd hlastrange hlastdvd hle).2.2.1
  refine h.foldlM_addBuckets (fun group hgroup => ?_) hfold
  obtain ⟨second, hp, hrange, hdvd, hge, hle'⟩ :=
    Intake.mem_entries_groups_clip hfirstdvd hlastdvd (hall _ hheld').1 hclip hgroup
  refine ⟨second, hp, hdvd, first, hfirst, last, hlast, ⟨hheld, hheld'⟩, ?_, ?_⟩
  · rw [Granularity.partitionOf, idAt_lt_idAt_iff hrange hfirstrange]
    omega
  · rw [Granularity.partitionOf, idAt_lt_idAt_iff hlastrange hrange]
    omega

/-- Every stage keeps a store `Grounded`: its rows lie between the partitions of two
observations. -/
theorem after (h : Grounded g os s) (hr : r.observation ∈ os) (stage : Stage) :
    Grounded g os (stage.after g keepMinor r s) := by
  by_cases hstage : stage = .eventCount
  · subst hstage
    rcases Stage.after_eventCount_cases g keepMinor r s with
      hsame | ⟨reason, d, lastMinute, -, hcounted, hfold⟩
    · rw [hsame]
      exact h
    · exact h.addGroups hcounted hfold
  · exact h.after_of_ne hr hstage

theorem process (h : Grounded g os i.store) {o : Observation} (ho : o ∈ os) :
    Grounded g os (Ingestion.process g keepMinor i o).store :=
  Ingestion.process_induction (P := Grounded g os)
    (fun _ stage _ hobservation hs => hs.after (hobservation.symm ▸ ho) stage) h

end Grounded

/-- Every row of an ingested history lies between the partitions of two of its observations. -/
theorem grounded_processAll (g : Granularity) (keepMinor : Bool) (os : List Observation) :
    Grounded g os (Ingestion.processAll g keepMinor ⟨.empty, .zero⟩ os).store :=
  Ingestion.processAll_induction (P := Grounded g os) (fun _ ho _ hi => hi.process ho)
    (Grounded.empty g os)

/-! ## Reading the bounds -/

/-- What is left of an empty store after observations. -/
def ingested (g : Granularity) (keepMinor : Bool) (os : List Observation) : Store :=
  (Ingestion.processAll g keepMinor ⟨.empty, .zero⟩ os).store

/-- Whether the starts of the oldest and the newest partition can be read. -/
def Readable : Option (String × String) → Prop
  | none => True
  | some (min, max) => (∃ t, start min = .ok t) ∧ ∃ t, start max = .ok t

/-- The observations whose partition has an id of twelve digits. -/
def dated (g : Granularity) (os : List Observation) : List Observation :=
  os.filter fun o => InRange (g.floor o.time.seconds)

theorem mem_dated {o : Observation} :
    o ∈ dated g os ↔ o ∈ os ∧ InRange (g.floor o.time.seconds) := by
  simp [dated]

/-- The bounds of a grounded store can be read exactly if every observation with rows in its
partition lies between two whose partitions have ids of twelve digits. -/
theorem Grounded.readable_iff (h : Grounded g os s) {b : Option (String × String)}
    (hb : s.bounds = .ok b) : Readable b ↔ ∀ o ∈ os, s.HoldsAny (g.partitionOf o.time) →
      Bracketed g (dated g os) s (g.partitionOf o.time) := by
  have hspans := Store.spans_of_bounds h.keyed hb
  cases b with
  | none => exact ⟨fun _ o _ hheld => absurd hheld (hspans _), fun _ => trivial⟩
  | some bounds =>
    obtain ⟨min, max⟩ := bounds
    obtain ⟨first, hfirst, last, hlast, rfl, rfl, hheld, hheld', hall⟩ := h.bounds hb
    constructor
    · rintro ⟨hread, hread'⟩ o - ho
      obtain ⟨hge, hle⟩ := hall _ ho
      exact ⟨first, mem_dated.mpr ⟨hfirst, start_idAt_iff.mp hread⟩, last,
        mem_dated.mpr ⟨hlast, start_idAt_iff.mp hread'⟩, ⟨hheld, hheld'⟩, hge, hle⟩
    · intro hbetween
      obtain ⟨a, ha, -, -, ⟨haheld, -⟩, hage, -⟩ := hbetween first hfirst hheld
      obtain ⟨-, -, z, hz, ⟨-, hzheld⟩, -, hzle⟩ := hbetween last hlast hheld'
      have hsame : g.partitionOf first.time = g.partitionOf a.time :=
        StrictOrder.connex hage (hall _ haheld).1
      have hsame' : g.partitionOf last.time = g.partitionOf z.time :=
        StrictOrder.connex (hall _ hzheld).2 hzle
      refine ⟨?_, ?_⟩
      · rw [hsame]
        exact start_idAt_iff.mpr (mem_dated.mp ha).2
      · rw [hsame']
        exact start_idAt_iff.mpr (mem_dated.mp hz).2

theorem check_of_readable {b : Option (String × String)} (hb : s.bounds = .ok b)
    (hreadable : Readable b) (policy : RetentionPolicy) (locked : List Table)
    (footprint : Store → Nat) (now : Instant) (counters : RetentionCounters) :
    ∃ outcome, (Retention.check policy locked footprint now ⟨s, counters⟩).2 = .ok outcome := by
  have hjudge : ∃ verdict, Retention.judge policy footprint now s = .ok verdict := by
    unfold Retention.judge
    rw [hb]
    cases b with
    | none => exact ⟨_, rfl⟩
    | some bounds =>
      obtain ⟨min, max⟩ := bounds
      obtain ⟨t, ht⟩ := hreadable.1
      have hevaluate : ∃ found, policy.evaluate (footprint s) now min max = .ok found := by
        unfold RetentionPolicy.evaluate
        rw [ht]
        split
        · exact ⟨_, rfl⟩
        · dsimp only [bind, Except.bind]
          split
          · exact ⟨_, rfl⟩
          · split <;> exact ⟨_, rfl⟩
      obtain ⟨found, hfound⟩ := hevaluate
      cases found with
      | none => exact ⟨_, bind_eq_ok.mpr ⟨_, rfl, bind_eq_ok.mpr ⟨_, hfound, rfl⟩⟩⟩
      | some trigger => exact ⟨_, bind_eq_ok.mpr ⟨_, rfl, bind_eq_ok.mpr ⟨_, hfound, rfl⟩⟩⟩
  obtain ⟨verdict, hverdict⟩ := hjudge
  unfold Retention.check
  rw [hverdict]
  cases verdict <;> exact ⟨_, rfl⟩

theorem check_of_not_readable {min max : String} (hb : s.bounds = .ok (some (min, max)))
    (hne : min ≠ max) {e : StoreError} (hmin : start min = .error e) (policy : RetentionPolicy)
    (locked : List Table) (footprint : Store → Nat) (now : Instant)
    (counters : RetentionCounters) :
    (Retention.check policy locked footprint now ⟨s, counters⟩).2 = .error e := by
  have hjudge : Retention.judge policy footprint now s = .error e := by
    unfold Retention.judge
    rw [hb]
    dsimp only [bind, Except.bind]
    unfold RetentionPolicy.evaluate
    rw [if_neg hne, hmin]
    rfl
  unfold Retention.check
  rw [hjudge]

/-! ## Counting events -/

theorem Grounded.lists (h : Grounded g os s) {b : Option (String × String)} (hb : s.bounds = .ok b)
    (hreadable : Readable b) : ∃ ids, s.Lists g ids := by
  have hspans := Store.spans_of_bounds h.keyed hb
  have hgrid : ∀ p, s.Holds .watch p → ∃ second, p = idAt second ∧ InRange second ∧
      g.seconds ∣ second ∧ InRange (second + g.seconds) := by
    intro p hp
    obtain ⟨second, rfl, hdvd, hlast, -⟩ := h.of_holds hp
    have hsecond := hlast rfl
    have hnonneg : 0 ≤ second := by
      apply Int.not_lt.mp
      intro hneg
      cases b with
      | none => exact hspans _ ⟨_, hp⟩
      | some bounds =>
        obtain ⟨min, max⟩ := bounds
        obtain ⟨first, -, -, -, rfl, -, -⟩ := h.bounds hb
        exact (hspans.2.2 _ ⟨_, hp⟩).1 (idAt_lt_idAt_of_neg hneg (start_idAt_iff.mp hreadable.1))
    have hpos := g.seconds_pos
    have hle := g.seconds_le
    refine ⟨second, rfl, ⟨hnonneg, ?_⟩, hdvd, ⟨by omega, ?_⟩⟩ <;> unfold idLimit <;> omega
  exact Store.exists_lists h.keyed hgrid

theorem foldlM_addBuckets_ne_badPartition {reason id : String}
    {groups : List (String × List (Int × Int))} :
    groups.foldlM (fun s group => r.addBuckets reason group.1 group.2 s) s ≠
      .error (.store (.badPartition id)) := by
  intro h
  induction groups generalizing s with
  | nil => cases h
  | cons group groups ih =>
    rw [List.foldlM_cons] at h
    rcases bind_eq_error.mp h with h | ⟨s₁, -, h⟩
    · unfold Intake.addBuckets at h
      rcases bind_eq_error.mp h with h | ⟨tally, -, h⟩
      · obtain ⟨e, he, hstore⟩ := mapError_eq_error.mp h
        cases hstore
        rcases bind_eq_error.mp he with he | ⟨_, -, he⟩
        · rcases Store.find?_eq_error he with ⟨fault, hfault⟩ | htext
          · cases hfault
          · cases htext
        · cases he
      · split at h
        · cases h
        · obtain ⟨e, he, hstore⟩ := mapError_eq_error.mp h
          cases hstore
          obtain ⟨fault, hfault⟩ := Store.set_eq_error he
          cases hfault
    · exact ih h

theorem Grounded.clip_badPartition (h : Grounded g os s) {bounds : String × String}
    (hb : s.bounds = .ok (some bounds)) (hreadable : Readable (some bounds)) {d : EventDelta}
    {id : String} (herror : Intake.clip g bounds d = .error (.badPartition id)) :
    ∃ min max, some bounds = some (min, max) ∧ g.next max = .ok id ∧ ¬ ∃ t, start id = .ok t := by
  obtain ⟨min, max⟩ := bounds
  obtain ⟨first, -, last, -, rfl, rfl, -, hheld', hall⟩ := h.bounds hb
  have hfirst : InRange (g.floor first.time.seconds) := start_idAt_iff.mp hreadable.1
  have hlast : InRange (g.floor last.time.seconds) := start_idAt_iff.mp hreadable.2
  have hfirstdvd := g.dvd_floor first.time.seconds
  have hlastdvd := g.dvd_floor last.time.seconds
  have hle : g.floor first.time.seconds ≤ g.floor last.time.seconds := by
    have hnot := (hall _ hheld').1
    rw [Granularity.partitionOf, Granularity.partitionOf, idAt_lt_idAt_iff hlast hfirst] at hnot
    omega
  by_cases hnext : InRange (g.floor last.time.seconds + g.seconds)
  · cases (Intake.clip_eq hfirst hfirstdvd hlast hlastdvd hle hnext d).symm.trans herror
  · cases (Intake.clip_of_not_inRange hfirst hfirstdvd hlast hlastdvd hle hnext d).symm.trans herror
    exact ⟨_, _, rfl, g.next_idAt hlast hlastdvd, mt start_idAt_iff.mp hnext⟩

theorem Grounded.countEvent_badPartition (h : Grounded g os s) {b : Option (String × String)}
    (hb : s.bounds = .ok b) (hreadable : Readable b) {id : String}
    (herror : r.countEvent g s = .error (.store (.badPartition id))) :
    ∃ min max, b = some (min, max) ∧ g.next max = .ok id ∧ ¬ ∃ t, start id = .ok t := by
  obtain ⟨ids, hids⟩ := h.lists hb hreadable
  have hkind : r.observation.kind = Payload.eventKind := by
    apply Decidable.byContradiction
    intro hkind
    rw [Intake.countEvent, if_pos hkind] at herror
    cases herror
  rw [Intake.countEvent_eq hkind] at herror
  rcases bind_eq_error.mp herror with herror | ⟨found, -, herror⟩
  · unfold Intake.counted? at herror
    rcases bind_eq_error.mp herror with herror | ⟨current, -, herror⟩
    · obtain ⟨e, -, he⟩ := mapError_eq_error.mp herror
      cases he
    · rcases bind_eq_error.mp herror with herror | ⟨previous, -, herror⟩
      · obtain ⟨e, he, hstore⟩ := mapError_eq_error.mp herror
        cases hstore
        rcases bind_eq_error.mp he with he | ⟨_, -, he⟩
        · rcases Intake.previous?_error_cases he with he | ⟨k, hk⟩
          · cases hids.eq_ok.symm.trans he
          · rcases Store.get_eq_error hk with hk | ⟨fault, hk⟩ | hk <;> cases hk
        · cases he
      · split at herror
        · cases herror
        · dsimp only at herror
          split at herror
          · cases herror
          · rw [hb] at herror
            rcases bind_eq_error.mp herror with herror | ⟨found, hfound, herror⟩
            · cases herror
            · obtain rfl : b = found := Except.ok.inj (Intake.fromStore_eq_ok.mp hfound)
              cases b with
              | none => cases herror
              | some bounds =>
                rcases bind_eq_error.mp herror with herror | ⟨_, -, herror⟩
                · obtain ⟨e, he, hstore⟩ := mapError_eq_error.mp herror
                  cases hstore
                  exact h.clip_badPartition hb hreadable he
                · cases herror
  · split at herror
    · cases herror
    · rcases bind_eq_error.mp herror with herror | ⟨_, -, herror⟩
      · exact absurd herror foldlM_addBuckets_ne_badPartition
      · cases herror

/-- **When an ingested history can be maintained.** Its bounds are always found. They can be read
exactly if every observation with rows in its partition lies between two whose partitions have ids
of twelve digits. If they can be read, no cycle of retention fails, and counting an event fails for
an id only if that is the id after the newest partition and has more than twelve digits. If the
oldest of several partitions cannot be read, every cycle of retention fails. -/
theorem bounds_readable_iff (g : Granularity) (keepMinor : Bool) (os : List Observation) :
    ∃ b, (ingested g keepMinor os).bounds = .ok b ∧
      (Readable b ↔ ∀ o ∈ os, (ingested g keepMinor os).HoldsAny (g.partitionOf o.time) →
        Bracketed g (dated g os) (ingested g keepMinor os) (g.partitionOf o.time)) ∧
      (Readable b →
        (∀ policy locked footprint now counters, ∃ outcome, (Retention.check policy locked footprint
          now ⟨ingested g keepMinor os, counters⟩).2 = .ok outcome) ∧
        ∀ (r : Intake) (id : String),
          r.countEvent g (ingested g keepMinor os) = .error (.store (.badPartition id)) →
          ∃ min max, b = some (min, max) ∧ g.next max = .ok id ∧ ¬ ∃ t, start id = .ok t) ∧
      ∀ min max, b = some (min, max) → min ≠ max → (¬ ∃ t, start min = .ok t) →
        ∀ policy locked footprint now counters, (Retention.check policy locked footprint now
          ⟨ingested g keepMinor os, counters⟩).2 = .error (.badPartition min) := by
  have hgrounded := grounded_processAll g keepMinor os
  obtain ⟨b, hb, -⟩ := Store.bounds_spec hgrounded.keyed
  refine ⟨b, hb, hgrounded.readable_iff hb, fun hreadable => ⟨?_, ?_⟩, ?_⟩
  · exact fun policy locked footprint now counters =>
      check_of_readable hb hreadable policy locked footprint now counters
  · exact fun r id herror => hgrounded.countEvent_badPartition hb hreadable herror
  · rintro min max rfl hne hmin policy locked footprint now counters
    cases hstart : start min with
    | ok t => exact absurd ⟨t, hstart⟩ hmin
    | error e =>
      rw [start_error hstart] at hstart
      exact check_of_not_readable hb hne hstart policy locked footprint now counters

/-- A pod observed in the first second of the year 1 and in the first second of 2019. -/
def sinceYearOne : List Observation :=
  let payload := "\x7b\"metadata\":\x7b\"name\":\"web\",\"namespace\":\"ns\",\"uid\":\"u\"\x7d\x7d"
  [⟨startAt (-62135596800), "Pod", .add, payload⟩,
    ⟨startAt 1546300800, "Pod", .update, payload⟩]

/-- An observation of the year 1 leaves bounds that cannot be read, and every cycle of retention
fails. -/
theorem bounds_unreadable :
    ∃ b, (ingested .day true sinceYearOne).bounds = .ok b ∧ ¬ Readable b ∧
      ∀ policy locked footprint now counters, (Retention.check policy locked footprint now
        ⟨ingested .day true sinceYearOne, counters⟩).2 =
          .error (.badPartition "-62135596800") := by
  have hrun : (ingested .day true sinceYearOne).bounds.toOption =
      some (some ("-62135596800", "001546300800")) := by decide +kernel
  have hbounds : (ingested .day true sinceYearOne).bounds =
      .ok (some ("-62135596800", "001546300800")) := by
    cases hb : (ingested .day true sinceYearOne).bounds with
    | error e => rw [hb] at hrun; cases hrun
    | ok b => rw [hb] at hrun; exact congrArg Except.ok (Option.some.inj hrun)
  have hstart : start "-62135596800" = .error (.badPartition "-62135596800") := by
    unfold start
    rw [if_neg (by decide)]
  refine ⟨_, hbounds, ?_, fun policy locked footprint now counters =>
    check_of_not_readable hbounds (by decide) hstart policy locked footprint now counters⟩
  rintro ⟨⟨t, ht⟩, -⟩
  cases hstart.symm.trans ht

end WatchHistory
