import WatchHistory.Proofs.Event.Bounded
import WatchHistory.Proofs.Ingest.Placement

/-!
# The partition that is being written to

A cycle of retention spares the partition of the present as long as no newer one holds a row, since
it drops the oldest partition only if that is not the newest one as well. Rows lie in the partitions
of the times that the observations tell, not of those at which they arrive, so one observation that
is stamped ahead of the clock is enough for the present to be the oldest of several partitions.

* `Retention.get?_check_eq_none_iff`: which rows a cycle drops.
* `Store.UpTo` says of a store that no row lies in a partition after a given one. Every stage keeps
  it (`UpTo.after`), and so does every run (`History.upTo_run`, by `History.run_induction`).
* `History.check_drops_present_iff`: when a cycle drops rows of the present, and that it never does
  if no observation was stamped ahead of the present's partition.
-/

set_option autoImplicit false

namespace WatchHistory

open WatchHistory.Partition

/-! ## What a cycle drops -/

/-- Whether a partition is to go by a policy, if it is the oldest one and another one is newer: it
starts longer ago than the history is kept, or the store is too large. -/
def RetentionPolicy.Exceeded (policy : RetentionPolicy) (bytes : Nat) (now : Instant)
    (partition : String) : Prop :=
  ∃ start, Partition.start partition = .ok start ∧
    (policy.maxLookback.nanos < (now.since start).toNat ∨
      policy.maxBytes ≠ 0 ∧ policy.maxBytes < bytes)

theorem RetentionPolicy.exists_evaluate_iff {policy : RetentionPolicy} {bytes : Nat}
    {now : Instant} {min max : String} :
    (∃ trigger, policy.evaluate bytes now min max = .ok (some trigger)) ↔
      min ≠ max ∧ policy.Exceeded bytes now min := by
  unfold evaluate Exceeded
  by_cases hsame : min = max
  · simp [hsame, pure, Except.pure]
  · cases Partition.start min with
    | error e => simp [hsame, bind, Except.bind]
    | ok start =>
      simp only [hsame, bind, Except.bind, if_false, ne_eq, not_false_eq_true, true_and,
        Except.ok.injEq, exists_eq_left']
      generalize (now.since start).toNat = age
      by_cases hage : policy.maxLookback.nanos < age
      · simp [hage, pure, Except.pure]
      · by_cases hsize : policy.maxBytes ≠ 0 ∧ policy.maxBytes < bytes <;>
          simp [hage, hsize, pure, Except.pure]

namespace Retention

variable {policy : RetentionPolicy} {locked : List Table} {footprint : Store → Nat}
  {now : Instant} {r : Retention}

theorem judge_eq_inr {s : Store} {partition : String} {trigger : Trigger} :
    judge policy footprint now s = .ok (.inr (partition, trigger)) ↔
      ∃ max, s.bounds = .ok (some (partition, max)) ∧
        policy.evaluate (footprint s) now partition max = .ok (some trigger) := by
  cases hb : s.bounds with
  | error e => simp [judge, hb, bind, Except.bind]
  | ok b =>
    cases b with
    | none => simp [judge, hb, bind, Except.bind, pure, Except.pure]
    | some bounds =>
      obtain ⟨min, max⟩ := bounds
      rw [judge_of_bounds hb, map_eq_ok]
      constructor
      · intro h
        obtain ⟨found, hfound, hverdict⟩ := h
        cases found with
        | none => cases hverdict
        | some trigger =>
          cases hverdict
          exact ⟨max, rfl, hfound⟩
      · intro h
        obtain ⟨max, hsame, hverdict⟩ := h
        cases hsame
        exact ⟨some trigger, hverdict, rfl⟩

theorem get?_check_cases {key row : String} (hrow : r.store.get? key = some row) :
    (check policy locked footprint now r).1.store.get? key = none ∨
      (check policy locked footprint now r).1.store.get? key = some row := by
  cases hleft : (check policy locked footprint now r).1.store.get? key with
  | none => exact .inl rfl
  | some row' => exact .inr ((get?_of_get?_check hleft).symm.trans hrow)

/-- **Which rows a cycle drops**: those of the oldest partition, if a newer one holds a row and a
budget is `Exceeded`, in the tables that do not refuse, unless their kind starts with the greatest
character. -/
theorem get?_check_eq_none_iff (hs : r.store.Keyed) {key row : String}
    (hrow : r.store.get? key = some row) {t : Table} {k : Key t} (hk : Key.parse t key = .ok k) :
    (check policy locked footprint now r).1.store.get? key = none ↔
      (∃ max, r.store.bounds = .ok (some (k.partition, max)) ∧ k.partition ≠ max) ∧
        policy.Exceeded (footprint r.store) now k.partition ∧ t ∉ locked ∧
        Text.Plain k.kind.toList := by
  have hslash : ∀ {min max}, r.store.bounds = .ok (some (min, max)) → '/' ∉ min.toList := by
    intro min max hbounds
    obtain ⟨⟨u, key', row', hrow', hfiled⟩, -⟩ := Store.spans_of_bounds hs hbounds
    exact hfiled.slash_notMem
  rw [store_check]
  constructor
  · intro hgone
    split at hgone
    · next partition trigger hjudge =>
      obtain ⟨max, hbounds, hverdict⟩ := judge_eq_inr.mp hjudge
      obtain ⟨rfl, hrest⟩ := (Drop.get?_all_eq_none_iff hrow hk (hslash hbounds)).mp hgone
      obtain ⟨hne, hexceeded⟩ := RetentionPolicy.exists_evaluate_iff.mp ⟨trigger, hverdict⟩
      exact ⟨⟨max, hbounds, hne⟩, hexceeded, hrest⟩
    · rw [hrow] at hgone
      cases hgone
  · intro h
    obtain ⟨⟨max, hbounds, hne⟩, hexceeded, hrest⟩ := h
    obtain ⟨trigger, hverdict⟩ := RetentionPolicy.exists_evaluate_iff.mpr ⟨hne, hexceeded⟩
    rw [judge_eq_inr.mpr ⟨max, hbounds, hverdict⟩]
    exact (Drop.get?_all_eq_none_iff hrow hk (hslash hbounds)).mpr ⟨rfl, hrest⟩

end Retention

/-! ## No row after a partition -/

/-- Whether every row lies in a partition of the granularity, and in none after `last`. -/
def Store.UpTo (g : Granularity) (last : String) (s : Store) : Prop :=
  s.FiledIn fun second => g.seconds ∣ second ∧ ¬ last < idAt second

variable {g : Granularity} {keepMinor : Bool} {last : String} {s s' : Store} {r : Intake}

namespace Store.UpTo

theorem countEvent (h : s.UpTo g last) {n : Nat} (hcount : r.countEvent g s = .ok (s', n)) :
    s'.UpTo g last := by
  obtain ⟨b, hbounds, hspans⟩ := bounds_spec h.keyed
  cases b with
  | none =>
    rw [(Intake.eq_of_countEvent_of_bounds_none hbounds hcount).1]
    exact h
  | some bounds =>
    obtain ⟨min, max⟩ := bounds
    obtain ⟨oldest, rfl, hod, -⟩ := h.of_holdsAny hspans.1
    obtain ⟨newest, rfl, hnd, hlast⟩ := h.of_holdsAny hspans.2.1
    have htallied :=
      Intake.tallied_countEvent hbounds (hspans.2.2 _ hspans.2.1).1 hod hnd hcount
    refine htallied.filedIn h fun p hp => ?_
    obtain ⟨⟨second, rfl, -, hdvd⟩, hwindow, -⟩ := hp
    exact ⟨second, rfl, hdvd, Shared.not_lt_trans hwindow hlast⟩

theorem after (h : s.UpTo g last) (hr : ¬ last < g.partitionOf r.observation.time)
    (stage : Stage) : (stage.after g keepMinor r s).UpTo g last := by
  by_cases hstage : stage = .eventCount
  · subst hstage
    rcases Stage.after_spec .eventCount g keepMinor r s with ⟨result, hrun⟩ | ⟨-, hafter⟩
    · obtain ⟨n, hcount, -⟩ := Stage.run_eventCount_eq_ok.mp hrun
      exact h.countEvent hcount
    · rw [hafter]
      exact h
  · have hdvd := g.dvd_floor r.observation.time.seconds
    rcases Stage.after_cases g keepMinor r s hstage with
      hsame | ⟨-, hset⟩ | ⟨t, uid, row, -, -, -, hset⟩
    · rw [hsame]
      exact h
    · exact h.set rfl ⟨hdvd, hr⟩ hset
    · exact h.set rfl ⟨hdvd, hr⟩ hset

end Store.UpTo

/-! ## Cycles of a history -/

namespace History

variable {steps : List Step}

/-- A run keeps what the stages of its observations keep, if that is kept when rows are taken
away. -/
theorem run_induction {P : Store → Prop} (hempty : P .empty)
    (hafter : ∀ {keepMinor : Bool} {o : Observation}, .observe keepMinor o ∈ steps →
      ∀ (r : Intake) (stage : Stage) (s : Store), r.observation = o → P s →
        P (stage.after g keepMinor r s))
    (hless : ∀ {s s' : Store}, P s →
      (∀ key row, s'.get? key = some row → s.get? key = some row) → P s') :
    P (run g steps).store := by
  refine List.foldlRecOn (motive := fun h => P h.store) (b := empty) steps (step g) hempty ?_
  intro h hstore next hnext
  cases next with
  | observe keepMinor o =>
    exact Ingestion.process_induction (i := ⟨h.store, h.ingested⟩) (hafter hnext) hstore
  | check policy locked footprint now =>
    exact hless hstore fun key row => Retention.get?_of_get?_check

theorem keyed_run (g : Granularity) (steps : List Step) : (run g steps).store.Keyed :=
  run_induction (P := Store.Keyed) nofun (fun _ _ stage _ _ hs => Stage.keyed_after hs stage)
    fun hs hless key row hrow => hs key row (hless key row hrow)

theorem upTo_run {last : String}
    (h : ∀ keepMinor o, .observe keepMinor o ∈ steps → ¬ last < g.partitionOf o.time) :
    (run g steps).store.UpTo g last :=
  run_induction (P := Store.UpTo g last) (Store.FiledIn.empty _)
    (fun hstep _ stage _ hobservation hs => hs.after (hobservation.symm ▸ h _ _ hstep) stage)
    Store.FiledIn.mono

theorem store_run_check (g : Granularity) (steps : List Step) (policy : RetentionPolicy)
    (locked : List Table) (footprint : Store → Nat) (now : Instant) :
    (run g (steps ++ [.check policy locked footprint now])).store =
      (Retention.check policy locked footprint now
        ⟨(run g steps).store, (run g steps).retained⟩).1.store := by
  simp only [run, List.foldl_append, List.foldl_cons, List.foldl_nil, step]

/-- A cycle spares the partition of the present if no observation was stamped after it: it is then
the newest one if it is the oldest one. -/
theorem get?_check_of_past {policy : RetentionPolicy} {locked : List Table}
    {footprint : Store → Nat} {now : Instant} {counters : RetentionCounters}
    (hpast : ∀ keepMinor o, .observe keepMinor o ∈ steps →
      g.floor o.time.seconds ≤ g.floor now.seconds) {key row : String}
    (hrow : (run g steps).store.get? key = some row)
    (hpresent : Store.partitionOf? key = some (g.partitionOf now)) :
    (Retention.check policy locked footprint now
      ⟨(run g steps).store, counters⟩).1.store.get? key = some row := by
  obtain ⟨t, k, hk, hp⟩ := Store.partitionOf?_eq_some_iff.mp hpresent
  refine (Retention.get?_check_cases hrow).resolve_left fun hgone => ?_
  obtain ⟨⟨max, hbounds, hne⟩, ⟨start, hstart, -⟩, -⟩ :=
    (Retention.get?_check_eq_none_iff (keyed_run g steps) hrow hk).mp hgone
  rw [hp] at hbounds hne hstart
  have hrange : InRange (g.floor now.seconds) := start_idAt_iff.mp ⟨start, hstart⟩
  have hupTo : (run g steps).store.UpTo g (g.partitionOf now) := upTo_run fun keepMinor o hstep =>
    not_idAt_lt_idAt_of_le hrange (hpast keepMinor o hstep)
  obtain ⟨-, hmax, hall⟩ := Store.spans_of_bounds (keyed_run g steps) hbounds
  obtain ⟨newest, rfl, -, hlast⟩ := hupTo.of_holdsAny hmax
  exact hne (StrictOrder.connex hlast (hall _ hmax).1)

/-- **When the present is dropped**: a cycle at the end of a run drops a row of the partition of the
present exactly if no older partition holds a row, a newer one does and a budget is exceeded, unless
the table refuses or the row's kind starts with the greatest character. So it drops none if no
observation was stamped after that partition. -/
theorem check_drops_present_iff (g : Granularity) (steps : List Step) (policy : RetentionPolicy)
    (locked : List Table) (footprint : Store → Nat) (now : Instant) :
    let s := (run g steps).store
    let s' := (run g (steps ++ [.check policy locked footprint now])).store
    (∀ key row, s.get? key = some row →
      ∀ (t : Table) (k : Key t), Key.parse t key = .ok k → k.partition = g.partitionOf now →
        (s'.get? key = none ∨ s'.get? key = some row) ∧
        (s'.get? key = none ↔
          (∃ max, s.bounds = .ok (some (g.partitionOf now, max)) ∧ g.partitionOf now ≠ max) ∧
            policy.Exceeded (footprint s) now (g.partitionOf now) ∧ t ∉ locked ∧
            Text.Plain k.kind.toList)) ∧
      ((∀ keepMinor o, .observe keepMinor o ∈ steps →
          g.floor o.time.seconds ≤ g.floor now.seconds) →
        ∀ key row, s.get? key = some row → Store.partitionOf? key = some (g.partitionOf now) →
          s'.get? key = some row) := by
  dsimp only
  rw [store_run_check]
  refine ⟨fun key row hrow t k hk hp => ⟨Retention.get?_check_cases hrow, ?_⟩, ?_⟩
  · rw [← hp]
    exact Retention.get?_check_eq_none_iff (keyed_run g steps) hrow hk
  · exact fun hpast key row hrow hpresent => get?_check_of_past hpast hrow hpresent

/-- A pod observed at a second. -/
def podSeen (second : Int) : Step :=
  .observe false ⟨startAt second, "Pod", .update,
    "\x7b\"metadata\":\x7b\"name\":\"web\",\"namespace\":\"ns\",\"uid\":\"u\"\x7d\x7d"⟩

/-- A cycle at half past midnight on the first day of 2019 that finds the store too large. -/
def cramped : Step := .check ⟨.ofSeconds 1209600, 1⟩ [] (fun _ => 2) (startAt 1546302600)

/-- The cycle `cramped` spares the summary of a pod that was observed in the present hour. -/
theorem cramped_spares_present :
    ∃ row, (run .hour [podSeen 1546301100]).store.get? "/ressum/001546300800/Pod/ns/web/u" =
        some row ∧
      (run .hour [podSeen 1546301100, cramped]).store.get?
        "/ressum/001546300800/Pod/ns/web/u" = some row := by
  have hheld : (run .hour [podSeen 1546301100]).store.get?
      "/ressum/001546300800/Pod/ns/web/u" ≠ none := by decide +kernel
  obtain ⟨row, hrow⟩ := Option.ne_none_iff_exists'.mp hheld
  have hpast : ∀ keepMinor o, .observe keepMinor o ∈ [podSeen 1546301100] →
      Granularity.hour.floor o.time.seconds ≤
        Granularity.hour.floor (startAt 1546302600).seconds := by
    intro keepMinor o hstep
    cases List.mem_singleton.mp hstep
    decide +kernel
  exact ⟨row, hrow, (check_drops_present_iff .hour [podSeen 1546301100] ⟨.ofSeconds 1209600, 1⟩ []
    (fun _ => 2) (startAt 1546302600)).2 hpast _ row hrow (by decide +kernel)⟩

/-- The cycle `cramped` drops the summary of the present hour if another observation was stamped
ahead of the clock, in the next hour. -/
theorem cramped_drops_present :
    (run .hour [podSeen 1546301100, podSeen 1546304700]).store.get?
        "/ressum/001546300800/Pod/ns/web/u" ≠ none ∧
      Store.partitionOf? "/ressum/001546300800/Pod/ns/web/u" =
        some (Granularity.hour.partitionOf (startAt 1546302600)) ∧
      (run .hour [podSeen 1546301100, podSeen 1546304700, cramped]).store.get?
        "/ressum/001546300800/Pod/ns/web/u" = none := by
  decide +kernel

end History

end WatchHistory
