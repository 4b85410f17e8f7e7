import WatchHistory.Proofs.Partition.Clock
import WatchHistory.Proofs.Retention.Active

/-!
# Tables that refuse

A table that refuses to drop a partition keeps its rows, and the cycle goes on with the next table.
As long as a row of the partition is left, it stays the oldest one, and every cycle tries again.

* `Store.OldestOfSeveral` and `RetentionPolicy.Calls` say which partition has to go and why, and
  `Retention.check_eq_dropped_iff` that a cycle drops exactly that partition.
* `Drop.keysRemoved_all`: what is counted as removed is what is gone.
* `Retention.counters_checks`: the counters after a series of cycles, from what each cycle did.
* `Retention.check_drops_unlocked` puts them together for a cycle that follows any series of cycles.
-/

set_option autoImplicit false

namespace WatchHistory

open WatchHistory.Partition

/-! ## The oldest of several partitions -/

theorem Partition.lt_iff_start_lt {p q : String} {a b : Instant} (hp : start p = .ok a)
    (hq : start q = .ok b) : p < q ↔ a < b := by
  obtain ⟨hpid, ha, -⟩ := eq_idAt_of_start hp
  obtain ⟨hqid, hb, hwhole⟩ := eq_idAt_of_start hq
  rw [hpid, hqid, idAt_lt_idAt_iff ha hb, Instant.lt_iff_of_whole hwhole]

namespace Store

variable {s s' : Store}

/-- Whether a partition with a given start is the oldest one that holds a row, and not the only
one. -/
structure OldestOfSeveral (s : Store) (p : String) (start : Instant) : Prop where
  held : s.HoldsAny p
  reads : Partition.start p = .ok start
  oldest : ∀ q, s.HoldsAny q → q ≠ p → ∃ later, Partition.start q = .ok later ∧ start < later
  several : ∃ q, s.HoldsAny q ∧ q ≠ p

theorem Dated.exists_start (hs : s.Dated) {p : String} (hp : s.HoldsAny p) :
    ∃ start, Partition.start p = .ok start := by
  obtain ⟨second, rfl, hrange⟩ := hs.inRange_of_holdsAny hp
  exact ⟨_, start_idAt hrange⟩

/-- The oldest of several partitions is the first bound of a store whose bounds differ. -/
theorem oldestOfSeveral_iff (hs : s.Dated) {p : String} {start : Instant} :
    s.OldestOfSeveral p start ↔
      Partition.start p = .ok start ∧ ∃ max, s.bounds = .ok (some (p, max)) ∧ p ≠ max := by
  constructor
  · intro h
    have hlt : ∀ q, s.HoldsAny q → q ≠ p → p < q := by
      intro q hq hne
      obtain ⟨later, hlater, hstart⟩ := h.oldest q hq hne
      exact (lt_iff_start_lt h.reads hlater).mpr hstart
    obtain ⟨q, hq, hne⟩ := h.several
    obtain ⟨b, hb, hspans⟩ := bounds_spec hs.keyed
    cases b with
    | none => exact absurd h.held (hspans p)
    | some bounds =>
      obtain ⟨min, max⟩ := bounds
      obtain ⟨hmin, -, hall⟩ := hspans
      have hfirst : min = p := Decidable.byContradiction fun hother =>
        (hall p h.held).1 (hlt min hmin hother)
      subst hfirst
      refine ⟨h.reads, max, hb, ?_⟩
      rintro rfl
      exact (hall q hq).2 (hlt q hq hne)
  · intro h
    obtain ⟨hreads, max, hb, hne⟩ := h
    obtain ⟨hmin, hmax, hall⟩ := spans_of_bounds hs.keyed hb
    refine ⟨hmin, hreads, fun q hq hother => ?_, max, hmax, hne.symm⟩
    obtain ⟨later, hlater⟩ := hs.exists_start hq
    refine ⟨later, hlater, (lt_iff_start_lt hreads hlater).mp ?_⟩
    exact Decidable.byContradiction fun hlt => hother (StrictOrder.connex (hall q hq).1 hlt)

theorem exists_oldestOfSeveral_iff (hs : s.Dated) :
    (∃ p start, s.OldestOfSeveral p start) ↔ ∃ p q, s.HoldsAny p ∧ s.HoldsAny q ∧ p ≠ q := by
  constructor
  · intro h
    obtain ⟨p, start, holdest⟩ := h
    obtain ⟨q, hq, hne⟩ := holdest.several
    exact ⟨p, q, holdest.held, hq, hne.symm⟩
  · intro h
    obtain ⟨p, q, hp, hq, hne⟩ := h
    obtain ⟨b, hb, hspans⟩ := bounds_spec hs.keyed
    cases b with
    | none => exact absurd hp (hspans p)
    | some bounds =>
      obtain ⟨min, max⟩ := bounds
      obtain ⟨hmin, -, hall⟩ := hspans
      obtain ⟨start, hstart⟩ := hs.exists_start hmin
      refine ⟨min, start, (oldestOfSeveral_iff hs).mpr ⟨hstart, max, hb, ?_⟩⟩
      -- if the bounds were the same, both partitions would be that one
      rintro rfl
      have honly : ∀ p, s.HoldsAny p → p = min := fun p hp =>
        StrictOrder.connex (hall p hp).1 (hall p hp).2
      exact hne ((honly p hp).trans (honly q hq).symm)

theorem length_gone (h : ∀ key row, s'.get? key = some row → s.get? key = some row) :
    (s.rows.keys.filter fun key => (s'.get? key).isNone).length + s'.rows.size = s.rows.size := by
  have hkept : s.rows.keys.filter (fun key => (s'.get? key).isSome) = s'.rows.keys := by
    refine SortedMap.keys_eq_of_mem (s.rows.pairwise_keys.filter _) s'.rows.pairwise_keys
      fun key => ?_
    rw [List.mem_filter, Option.isSome_iff_exists]
    constructor
    · exact fun hkey => SortedMap.mem_keys_iff.mpr hkey.2
    · intro hkey
      obtain ⟨row, hrow⟩ := SortedMap.mem_keys_iff.mp hkey
      exact ⟨SortedMap.mem_keys_iff.mpr ⟨row, h key row hrow⟩, row, hrow⟩
  have hsize (s : Store) : s.rows.size = s.rows.keys.length := (List.length_map _).symm
  rw [hsize s, hsize s', ← hkept, ← List.countP_eq_length_filter, ← List.countP_eq_length_filter,
    List.length_eq_countP_add_countP fun key => (s'.get? key).isNone]
  refine congrArg (_ + ·) (List.countP_congr fun key _ => ?_)
  cases s'.get? key <;> simp

theorem Constructed.mono {g : Granularity} (hs : s.Constructed g)
    (h : ∀ key row, s'.get? key = some row → s.get? key = some row) : s'.Constructed g :=
  fun key row hrow => hs key row (h key row hrow)

end Store

/-! ## What is dropped -/

/-- Whether a policy calls for the oldest partition to go: because it starts longer ago than the
history is kept or, failing that, because the store is too large. -/
def RetentionPolicy.Calls (policy : RetentionPolicy) (bytes : Nat) (now start : Instant) :
    Trigger → Prop
  | .age => (policy.maxLookback.nanos : Int) < now.totalNanos - start.totalNanos
  | .size => ¬ (policy.maxLookback.nanos : Int) < now.totalNanos - start.totalNanos ∧
      policy.maxBytes ≠ 0 ∧ policy.maxBytes < bytes

namespace Drop

variable {s : Store}

theorem keysRemoved_all (locked : List Table) (partition : String) (s : Store) :
    (all locked partition s).keysRemoved =
      (s.rows.keys.filter fun key => ((all locked partition s).store.get? key).isNone).length := by
  obtain ⟨-, hcount⟩ := foldl_step_counts locked partition Table.all ⟨s, 0, []⟩
  have hless : ∀ key row, (all locked partition s).store.get? key = some row →
      s.get? key = some row := fun key row => get?_of_get?_foldl_step
  have hgone := Store.length_gone hless
  rw [all] at hgone ⊢
  dsimp only at hcount
  omega

end Drop

namespace Retention

variable {policy : RetentionPolicy} {locked : List Table} {footprint : Store → Nat}
  {now : Instant} {r : Retention}

theorem expired_eq_true_iff (hnow : now.isLeap = false) {second : Int} (hrange : InRange second) :
    expired policy now (idAt second) = true ↔
      (policy.maxLookback.nanos : Int) < now.totalNanos - (startAt second).totalNanos := by
  simp only [expired, start_idAt hrange, decide_eq_true_eq, since_startAt hnow hrange,
    Instant.totalNanos, seconds_startAt hrange, nanos_startAt]
  omega

theorem evaluate_eq_some_iff (hnow : now.isLeap = false) {second : Int} (hrange : InRange second)
    {bytes : Nat} {max : String} {trigger : Trigger} :
    policy.evaluate bytes now (idAt second) max = .ok (some trigger) ↔
      idAt second ≠ max ∧ policy.Calls bytes now (startAt second) trigger := by
  rw [evaluate_eq hrange, Except.ok.injEq]
  by_cases hmax : idAt second = max
  · simp [hmax]
  · rw [if_neg hmax, and_iff_right hmax]
    by_cases hage : expired policy now (idAt second) = true
    · have hold := (expired_eq_true_iff hnow hrange).mp hage
      rw [if_pos hage]
      cases trigger <;> simp [RetentionPolicy.Calls, hold]
    · have hyoung := mt (expired_eq_true_iff hnow hrange).mpr hage
      rw [if_neg hage]
      cases trigger <;> simp [RetentionPolicy.Calls, hyoung]

theorem exists_judge (policy : RetentionPolicy) (footprint : Store → Nat) (now : Instant)
    {s : Store} (hs : s.Dated) : ∃ verdict, judge policy footprint now s = .ok verdict := by
  obtain ⟨b, hb, hspans⟩ := Store.bounds_spec hs.keyed
  cases b with
  | none => exact ⟨.inl .empty, by rw [judge, hb]; rfl⟩
  | some bounds =>
    obtain ⟨min, max⟩ := bounds
    obtain ⟨second, rfl, hrange⟩ := hs.inRange_of_holdsAny hspans.1
    rw [judge_of_bounds hb, evaluate_eq hrange]
    exact ⟨_, rfl⟩

/-- **What has to go**: the oldest of several partitions, if the policy `Calls` for it. -/
theorem judge_eq_inr_iff (hs : r.store.Dated) (hnow : now.isLeap = false) {p : String}
    {trigger : Trigger} : judge policy footprint now r.store = .ok (.inr (p, trigger)) ↔
      ∃ start, r.store.OldestOfSeveral p start ∧
        policy.Calls (footprint r.store) now start trigger := by
  simp only [judge_eq_inr, Store.oldestOfSeveral_iff hs]
  constructor
  · intro h
    obtain ⟨max, hb, hverdict⟩ := h
    obtain ⟨second, rfl, hrange⟩ :=
      hs.inRange_of_holdsAny (Store.spans_of_bounds hs.keyed hb).1
    obtain ⟨hne, hcalls⟩ := (evaluate_eq_some_iff hnow hrange).mp hverdict
    exact ⟨_, ⟨start_idAt hrange, max, hb, hne⟩, hcalls⟩
  · intro h
    obtain ⟨start, ⟨hreads, max, hb, hne⟩, hcalls⟩ := h
    obtain ⟨second, rfl, hrange⟩ :=
      hs.inRange_of_holdsAny (Store.spans_of_bounds hs.keyed hb).1
    rw [start_idAt hrange] at hreads
    cases hreads
    exact ⟨max, hb, (evaluate_eq_some_iff hnow hrange).mpr ⟨hne, hcalls⟩⟩

theorem eq_of_judge_eq_inl {s : Store} {outcome : CycleOutcome}
    (h : judge policy footprint now s = .ok (.inl outcome)) :
    outcome = .empty ∨ outcome = .withinBudget := by
  obtain ⟨b, -, hrest⟩ := bind_eq_ok.mp h
  cases b with
  | none =>
    cases hrest
    exact .inl rfl
  | some bounds =>
    obtain ⟨found, -, hverdict⟩ := bind_eq_ok.mp hrest
    cases found with
    | none =>
      cases hverdict
      exact .inr rfl
    | some trigger => cases hverdict

theorem check_eq_dropped_iff {p : String} {trigger : Trigger} {removed : Nat}
    {failures : List RetentionFailure} :
    (check policy locked footprint now r).2 = .ok (.dropped p trigger removed failures) ↔
      judge policy footprint now r.store = .ok (.inr (p, trigger)) ∧
        removed = (Drop.all locked p r.store).keysRemoved ∧
        failures = (Drop.all locked p r.store).failures := by
  unfold check
  cases hjudge : judge policy footprint now r.store with
  | error e => simp
  | ok verdict =>
    cases verdict with
    | inl outcome => rcases eq_of_judge_eq_inl hjudge with rfl | rfl <;> simp
    | inr found =>
      obtain ⟨q, why⟩ := found
      simp only [Except.ok.injEq, CycleOutcome.dropped.injEq, Sum.inr.injEq, Prod.mk.injEq]
      constructor
      · rintro ⟨rfl, rfl, rfl, rfl⟩
        exact ⟨⟨rfl, rfl⟩, rfl, rfl⟩
      · rintro ⟨⟨rfl, rfl⟩, rfl, rfl⟩
        exact ⟨rfl, rfl, rfl, rfl⟩

theorem store_check_of_judge {p : String} {trigger : Trigger}
    (h : judge policy footprint now r.store = .ok (.inr (p, trigger))) :
    (check policy locked footprint now r).1.store = (Drop.all locked p r.store).store := by
  rw [store_check, h]

/-- A cycle that drops a partition drops its rows in the tables that do not refuse, counts them and
reports the others. -/
theorem check_of_dropped (hs : r.store.Dated) {p : String} {trigger : Trigger} {removed : Nat}
    {failures : List RetentionFailure}
    (h : (check policy locked footprint now r).2 = .ok (.dropped p trigger removed failures)) :
    (∀ key row, (check policy locked footprint now r).1.store.get? key = some row ↔
      r.store.get? key = some row ∧ ∀ t, Filed t p key → t ∈ locked) ∧
    removed = (r.store.rows.keys.filter fun key =>
      ((check policy locked footprint now r).1.store.get? key).isNone).length ∧
    failures = (Table.all.filter (· ∈ locked)).map fun t => ⟨t, p, .readOnly t⟩ := by
  obtain ⟨hjudge, hremoved, hfailures⟩ := check_eq_dropped_iff.mp h
  obtain ⟨max, hb, -⟩ := judge_eq_inr.mp hjudge
  obtain ⟨second, rfl, -⟩ := hs.inRange_of_holdsAny (Store.spans_of_bounds hs.keyed hb).1
  rw [store_check_of_judge hjudge]
  refine ⟨fun key row => Drop.get?_all_eq_some_iff hs locked second,
    hremoved.trans (Drop.keysRemoved_all locked _ r.store), ?_⟩
  rw [hfailures, Drop.all, (Drop.foldl_step_counts locked _ Table.all _).1, List.nil_append]

theorem store_check_of_not_dropped (h : ∀ p trigger removed failures,
      (check policy locked footprint now r).2 ≠ .ok (.dropped p trigger removed failures)) :
    (check policy locked footprint now r).1.store = r.store := by
  rw [store_check]
  split
  · next p trigger hjudge =>
    exact absurd (check_eq_dropped_iff.mpr ⟨hjudge, rfl, rfl⟩) (h p trigger _ _)
  · rfl

theorem exists_check_eq_ok (hs : r.store.Dated) :
    ∃ outcome, (check policy locked footprint now r).2 = .ok outcome := by
  obtain ⟨verdict, hjudge⟩ := exists_judge policy footprint now hs
  unfold check
  rw [hjudge]
  cases verdict <;> exact ⟨_, rfl⟩

/-! ## Series of cycles -/

/-- Run cycles one after the other, each with its own footprint and at its own time; also what each
of them did. -/
def checks (policy : RetentionPolicy) (locked : List Table) :
    List ((Store → Nat) × Instant) → Retention → Retention × List (Except StoreError CycleOutcome)
  | [], r => (r, [])
  | (footprint, now) :: rounds, r =>
    let (next, outcome) := check policy locked footprint now r
    let (last, outcomes) := checks policy locked rounds next
    (last, outcome :: outcomes)

/-- How many keys a cycle removed. -/
def keysRemovedIn : Except StoreError CycleOutcome → Nat
  | .ok (.dropped _ _ removed _) => removed
  | _ => 0

/-- The tables that refused in a cycle. -/
def failuresIn : Except StoreError CycleOutcome → List RetentionFailure
  | .ok (.dropped _ _ _ failures) => failures
  | _ => []

theorem counters_check (policy : RetentionPolicy) (locked : List Table) (footprint : Store → Nat)
    (now : Instant) (r : Retention) :
    let outcome := (check policy locked footprint now r).2
    (check policy locked footprint now r).1.counters =
      ⟨r.counters.cycles + 1, r.counters.partitionsDropped + (if isCleanDrop outcome then 1 else 0),
        r.counters.keysRemoved + keysRemovedIn outcome,
        r.counters.failures + (failuresIn outcome).length⟩ := by
  dsimp only
  unfold check
  cases hjudge : judge policy footprint now r.store with
  | error e => rfl
  | ok verdict =>
    cases verdict with
    | inl outcome => rcases eq_of_judge_eq_inl hjudge with rfl | rfl <;> rfl
    | inr found => rfl

/-- The counters after a series of cycles are the sums of what the outcomes of the cycles tell. -/
theorem counters_checks (policy : RetentionPolicy) (locked : List Table)
    (rounds : List ((Store → Nat) × Instant)) (r : Retention) :
    let outcomes := (checks policy locked rounds r).2
    (checks policy locked rounds r).1.counters =
      ⟨r.counters.cycles + rounds.length,
        r.counters.partitionsDropped + outcomes.countP isCleanDrop,
        r.counters.keysRemoved + (outcomes.map keysRemovedIn).sum,
        r.counters.failures + (outcomes.map fun outcome => (failuresIn outcome).length).sum⟩ := by
  induction rounds generalizing r with
  | nil => rfl
  | cons round rounds ih =>
    obtain ⟨footprint, now⟩ := round
    have hnext := counters_check policy locked footprint now r
    dsimp only [checks] at ih hnext ⊢
    rw [ih, hnext]
    simp only [List.length_cons, List.countP_cons, List.map_cons, List.sum_cons,
      RetentionCounters.mk.injEq]
    omega

theorem get?_of_get?_checks {rounds : List ((Store → Nat) × Instant)} {key row : String}
    (h : (checks policy locked rounds r).1.store.get? key = some row) :
    r.store.get? key = some row := by
  induction rounds generalizing r with
  | nil => exact h
  | cons round rounds ih => exact get?_of_get?_check (ih h)

/-- **Tables that refuse do not keep the others from dropping.** After any series of cycles the
counters are the sums of what the cycles did. The next cycle drops a partition exactly if this is
the oldest of several, which there is if two partitions hold rows, and the policy calls for it to
go. Then every row of the partition in a table that does not refuse is gone and no other row is, the
number of rows that are gone is reported, and so is each of the tables that refuse, in the order of
the tables. If it drops none, the store stays as it is. -/
theorem check_drops_unlocked (g : Granularity) (policy : RetentionPolicy) (locked : List Table)
    (rounds : List ((Store → Nat) × Instant)) (footprint : Store → Nat) (now : Instant) (s : Store)
    (hs : s.Constructed g) (hnow : now.isLeap = false) :
    let r := (checks policy locked rounds ⟨s, .zero⟩).1
    let outcomes := (checks policy locked rounds ⟨s, .zero⟩).2
    let next := (check policy locked footprint now r).1
    let outcome := (check policy locked footprint now r).2
    r.counters = ⟨rounds.length, outcomes.countP isCleanDrop, (outcomes.map keysRemovedIn).sum,
      (outcomes.map fun outcome => (failuresIn outcome).length).sum⟩ ∧
    (∃ result, outcome = .ok result) ∧
    ((∃ p start, r.store.OldestOfSeveral p start) ↔
      ∃ p q, r.store.HoldsAny p ∧ r.store.HoldsAny q ∧ p ≠ q) ∧
    (∀ p trigger, (∃ removed failures, outcome = .ok (.dropped p trigger removed failures)) ↔
      ∃ start, r.store.OldestOfSeveral p start ∧
        policy.Calls (footprint r.store) now start trigger) ∧
    (∀ p trigger removed failures, outcome = .ok (.dropped p trigger removed failures) →
      (∀ key row, next.store.get? key = some row ↔
        r.store.get? key = some row ∧ ∀ t, Filed t p key → t ∈ locked) ∧
      removed = (r.store.rows.keys.filter fun key => (next.store.get? key).isNone).length ∧
      failures = (Table.all.filter (· ∈ locked)).map fun t => ⟨t, p, .readOnly t⟩) ∧
    ((∀ p trigger removed failures, outcome ≠ .ok (.dropped p trigger removed failures)) →
      next.store = r.store) := by
  dsimp only
  have hcounters := counters_checks policy locked rounds ⟨s, .zero⟩
  have hdated : (checks policy locked rounds ⟨s, .zero⟩).1.store.Dated :=
    (hs.mono fun key row => get?_of_get?_checks).dated
  revert hcounters hdated
  generalize checks policy locked rounds ⟨s, .zero⟩ = run
  intro hcounters hdated
  refine ⟨by simpa [RetentionCounters.zero] using hcounters, exists_check_eq_ok hdated,
    Store.exists_oldestOfSeveral_iff hdated, fun p trigger => ?_,
    fun p trigger removed failures => check_of_dropped hdated, store_check_of_not_dropped⟩
  rw [← judge_eq_inr_iff hdated hnow]
  constructor
  · intro h
    obtain ⟨removed, failures, hdropped⟩ := h
    exact (check_eq_dropped_iff.mp hdropped).1
  · exact fun hjudge => ⟨_, _, check_eq_dropped_iff.mpr ⟨hjudge, rfl, rfl⟩⟩

/-- The pod of `twoDays` with a summary for the first day. -/
def twoDaysSummed : Except StoreError Store := do
  (← twoDays).set (Key.within .day .summary .epoch "Pod" "default" "web" "u1") .initial

/-- If the table of activity refuses, a cycle drops the summary of the first day of `twoDaysSummed`,
and the next cycle tries the first day again. -/
theorem check_retries_activity :
    ∃ s, twoDaysSummed = .ok s ∧ s.Constructed .day ∧ secondDay.isLeap = false ∧
      let r := (checks keepAnHour [.activity] [(Store.bytes, secondDay)] ⟨s, .zero⟩).1
      r.counters = ⟨1, 0, 1, 1⟩ ∧
      (check keepAnHour [.activity] Store.bytes secondDay r).2 =
        .ok (.dropped "000000000000" .age 0 [⟨.activity, "000000000000", .readOnly .activity⟩]) ∧
      ∃ start, r.store.OldestOfSeveral "000000000000" start := by
  obtain ⟨s, hs⟩ : ∃ s, twoDaysSummed = .ok s := ⟨_, rfl⟩
  have hplain : Text.Plain "Pod".toList := Text.plain_cons (by decide) _
  have hconstructed : s.Constructed .day := by
    obtain ⟨s₂, htwo, h₃⟩ := bind_eq_ok.mp hs
    obtain ⟨s₁, h₁, h₂⟩ := bind_eq_ok.mp htwo
    exact (((Store.constructed_empty .day).set (by decide) (by decide) hplain h₁).set
      (by decide) (by decide) hplain h₂).set (by decide) (by decide) hplain h₃
  have hretried : twoDaysSummed.toOption.map (fun s =>
      (check keepAnHour [.activity] Store.bytes secondDay
        (checks keepAnHour [.activity] [(Store.bytes, secondDay)] ⟨s, .zero⟩).1).2) =
      some (.ok (.dropped "000000000000" .age 0
        [⟨.activity, "000000000000", .readOnly .activity⟩])) := by decide +kernel
  have hfirst : twoDaysSummed.toOption.map (fun s =>
      (checks keepAnHour [.activity] [(Store.bytes, secondDay)] ⟨s, .zero⟩).2) =
      some [.ok (.dropped "000000000000" .age 1
        [⟨.activity, "000000000000", .readOnly .activity⟩])] := by decide +kernel
  simp only [hs, Except.toOption, Option.map_some, Option.some.injEq] at hretried hfirst
  obtain ⟨hcounters, -, -, hdropped, -⟩ := check_drops_unlocked .day keepAnHour [.activity]
    [(Store.bytes, secondDay)] Store.bytes secondDay s hconstructed (by decide)
  obtain ⟨start, holdest, -⟩ := (hdropped _ _).mp ⟨_, _, hretried⟩
  rw [hfirst] at hcounters
  exact ⟨s, hs, hconstructed, by decide, hcounters, hretried, start, holdest⟩

end Retention

end WatchHistory
