import WatchHistory.Proofs.Store.Rows
import WatchHistory.Retention
import WatchHistory.Store.Text

/-!
# What retention leaves

In a store whose keys lie in partitions with readable ids, a cycle drops the oldest partition if it
has expired and is not the newest one, and changes nothing otherwise (`check_of_due_cons`,
`check_of_due_nil`). The partitions that have expired are the oldest ones, so running cycles drops
`Retention.due` from the front, one partition a cycle.

* `catchUp_drops_exactly_due`: what each cycle does, when the cycles come to an end, and what is
  left then.
* `exists_cycles_eq_catchUp`: catching up is running cycles, in whatever store and by whatever
  policy.
-/

set_option autoImplicit false

namespace WatchHistory

open WatchHistory.Partition

/-- Whether every row was written under the key of an object in the partition of an instant of the
years from 1970 to 9999, of a kind that does not start with the greatest character. -/
def Store.Constructed (g : Granularity) (s : Store) : Prop :=
  ∀ key text, s.get? key = some text →
    ∃ (t : Table) (time : Instant) (kind ns name : String) (last : t.Last) (row : t.Row),
      (0 ≤ time.seconds ∧ time.seconds < 253402300800) ∧ Text.Plain kind.toList ∧
      key = (Key.within g t time kind ns name last).render ∧
      (∃ k, Store.parseKey t key = .ok k) ∧ text = t.write row

/-- Whether every key is complete, of a kind that does not start with the greatest character, and
lies in a partition with a readable id. -/
def Store.Dated (s : Store) : Prop :=
  ∀ key row, s.get? key = some row → ∃ (t : Table) (k : Key t) (second : Int),
    Key.parse t key = .ok k ∧ k.partition = idAt second ∧ InRange second ∧
    Text.Plain k.kind.toList

namespace Store

variable {s : Store}

theorem Constructed.dated {g : Granularity} (h : s.Constructed g) : s.Dated := by
  intro key row hrow
  obtain ⟨t, time, kind, ns, name, last, -, ⟨hfirst, hlast⟩, hkind, rfl, ⟨k, hk⟩, -⟩ :=
    h key row hrow
  have hparse := parseKey_eq_ok.mp hk
  refine ⟨t, k, g.floor time.seconds, hparse, Key.partition_of_parse_within hparse,
    g.inRange_floor ⟨hfirst, ?_⟩, Key.plain_kind_of_parse_within hkind hparse⟩
  show time.seconds < 1000000000000
  omega

theorem constructed_empty (g : Granularity) : empty.Constructed g := nofun

theorem Constructed.set {g : Granularity} (h : s.Constructed g) {t : Table} {time : Instant}
    {kind ns name : String} {last : t.Last} {row : t.Row} {s' : Store} (hfirst : 0 ≤ time.seconds)
    (hlast : time.seconds < 253402300800) (hkind : Text.Plain kind.toList)
    (hset : s.set (Key.within g t time kind ns name last) row = .ok s') : s'.Constructed g := by
  obtain ⟨⟨k, hk⟩, -⟩ := set_eq_ok.mp hset
  intro key text htext
  rw [get?_set hset] at htext
  split at htext
  · next hkey =>
    cases htext
    exact ⟨t, time, kind, ns, name, last, row, ⟨hfirst, hlast⟩, hkind, hkey,
      ⟨k, parseKey_eq_ok.mpr (hkey ▸ hk)⟩, rfl⟩
  · exact h key text htext

theorem Dated.keyed (h : s.Dated) : s.Keyed := by
  intro key row hrow
  obtain ⟨t, k, second, hk, hp, -⟩ := h key row hrow
  exact ⟨t, second, k, hk, hp⟩

theorem Dated.outside (h : s.Dated) (ps : List String) : (s.outside ps).Dated :=
  fun key row hrow => h key row (get?_of_get?_outside hrow)

theorem Dated.inRange_of_holdsAny (h : s.Dated) {p : String} (hp : s.HoldsAny p) :
    ∃ second, p = idAt second ∧ InRange second := by
  obtain ⟨t, key, row, hrow, hfiled⟩ := hp
  obtain ⟨u, k, second, hk, hid, hrange, -⟩ := h key row hrow
  obtain ⟨rfl, rfl⟩ := hfiled.unique ⟨k, hk, hid⟩
  exact ⟨second, rfl, hrange⟩

/-- `bounds` finds the first and the last partition of the histogram. -/
theorem bounds_eq (h : s.Keyed) :
    s.bounds = .ok (do return (← s.histogram.keys.head?, ← s.histogram.keys.getLast?)) := by
  obtain ⟨b, hb, hspans⟩ := bounds_spec h
  rw [hb]
  refine congrArg Except.ok (hspans.unique ?_)
  have hsorted := s.histogram.pairwise_keys
  have hmem : ∀ p, p ∈ s.histogram.keys ↔ s.HoldsAny p := fun p => mem_keys_histogram
  revert hsorted hmem
  generalize s.histogram.keys = ps
  intro hsorted hmem
  cases ps with
  | nil => exact fun p hp => absurd ((hmem p).mpr hp) (by simp)
  | cons p ps =>
    have hne : p :: ps ≠ [] := by simp
    rw [List.head?_cons, List.getLast?_eq_some_getLast hne]
    refine ⟨(hmem p).mp List.mem_cons_self, (hmem _).mp (List.getLast_mem hne), fun q hq => ?_⟩
    have hq := (hmem q).mpr hq
    constructor
    · rcases List.mem_cons.mp hq with rfl | hq
      · exact String.lt_irrefl _
      · exact String.lt_asymm ((List.pairwise_cons.mp hsorted).1 q hq)
    · rw [← List.dropLast_concat_getLast hne] at hsorted hq
      rcases List.mem_append.mp hq with hq | hq
      · exact String.lt_asymm
          ((List.pairwise_append.mp hsorted).2.2 q hq _ (List.mem_singleton_self _))
      · rw [List.mem_singleton.mp hq]
        exact String.lt_irrefl _

theorem keys_histogram_outside {p : String} {ps : List String}
    (h : s.histogram.keys = p :: ps) : (s.outside [p]).histogram.keys = ps := by
  have hsorted := s.histogram.pairwise_keys
  rw [h] at hsorted
  obtain ⟨hp, hps⟩ := List.pairwise_cons.mp hsorted
  have hmem : ∀ q, q ∈ (s.outside [p]).histogram.keys ↔ q ∈ ps := by
    intro q
    rw [mem_keys_histogram, holdsAny_outside, ← mem_keys_histogram, h, List.mem_cons]
    constructor
    · rintro ⟨hne, hq⟩
      exact hq.resolve_left hne
    · intro hq
      exact ⟨fun hqp => String.lt_irrefl p (hqp ▸ hp q hq), .inr hq⟩
  exact SortedMap.keys_eq_of_mem (SortedMap.pairwise_keys _) hps hmem

end Store

/-! ## Dropping a partition of every table -/

namespace Drop

variable {s : Store}

theorem store_step (locked : List Table) (partition : String) (d : Drop) (t : Table) :
    (step locked partition d t).store =
      if t ∈ locked then d.store else (d.store.dropPartition t partition).1 := by
  unfold step dropTable
  by_cases ht : t ∈ locked <;> simp [ht]

theorem get?_foldl_step (locked : List Table) (partition : String) (ts : List Table) (d : Drop)
    (x : String) : (ts.foldl (step locked partition) d).store.get? x =
      if ∃ t ∈ ts, t ∉ locked ∧ ¬ x < t.partitionStem partition ∧
        x < Store.stemEnd (t.partitionStem partition) then none else d.store.get? x := by
  induction ts generalizing d with
  | nil => simp
  | cons t ts ih =>
    rw [List.foldl_cons, ih, store_step]
    simp only [List.mem_cons, exists_eq_or_imp]
    by_cases hlocked : t ∈ locked
    · simp [hlocked]
    · rw [if_neg hlocked, Store.dropPartition, Store.get?_dropUnder]
      by_cases ht : ¬ x < t.partitionStem partition ∧
          x < Store.stemEnd (t.partitionStem partition)
      · rw [if_pos ht, if_pos (Or.inl ⟨hlocked, ht⟩), ite_self]
      · rw [if_neg ht]
        simp only [ht, and_false, false_or]

theorem get?_of_get?_foldl_step {locked : List Table} {partition : String} {ts : List Table}
    {d : Drop} {key text : String}
    (h : (ts.foldl (step locked partition) d).store.get? key = some text) :
    d.store.get? key = some text := by
  rw [get?_foldl_step] at h
  split at h
  · cases h
  · exact h

/-- The tables that refuse are reported in the order in which they are asked, and the rows that are
counted are those that are gone. -/
theorem foldl_step_counts (locked : List Table) (partition : String) (ts : List Table) (d : Drop) :
    (ts.foldl (step locked partition) d).failures = d.failures ++
        (ts.filter (· ∈ locked)).map (fun t => ⟨t, partition, .readOnly t⟩) ∧
      (ts.foldl (step locked partition) d).keysRemoved +
        (ts.foldl (step locked partition) d).store.rows.size =
          d.keysRemoved + d.store.rows.size := by
  induction ts generalizing d with
  | nil => exact ⟨(List.append_nil _).symm, rfl⟩
  | cons t ts ih =>
    obtain ⟨hfailures, hcount⟩ := ih (step locked partition d t)
    rw [List.foldl_cons, hfailures, hcount]
    by_cases ht : t ∈ locked
    · rw [List.filter_cons_of_pos (by simpa using ht)]
      simp [step, dropTable, ht]
    · rw [List.filter_cons_of_neg (by simpa using ht)]
      have hsize := d.store.size_dropUnder_add (t.partitionStem partition)
      simp only [step, dropTable, if_neg ht, Store.dropPartition, true_and]
      omega

/-- Dropping a partition drops its rows in the tables that do not refuse, unless their kind starts
with the greatest character. -/
theorem get?_all_eq_none_iff {locked : List Table} {partition key row : String}
    (hrow : s.get? key = some row) {t : Table} {k : Key t} (hk : Key.parse t key = .ok k)
    (hslash : '/' ∉ partition.toList) :
    (all locked partition s).store.get? key = none ↔
      k.partition = partition ∧ t ∉ locked ∧ Text.Plain k.kind.toList := by
  rw [all, get?_foldl_step, ite_eq_left_iff]
  simp only [hrow, reduceCtorEq, imp_false, not_not,
    Filed.mem_range_partitionStem_iff_plain hk hslash]
  constructor
  · intro hdropped
    obtain ⟨u, -, hlocked, ⟨rfl, hp⟩, hkind⟩ := hdropped
    exact ⟨hp, hlocked, hkind⟩
  · intro h
    exact ⟨t, t.mem_all, h.2.1, ⟨rfl, h.1⟩, h.2.2⟩

theorem get?_all_eq_some_iff (hs : s.Dated) (locked : List Table) (second : Int)
    {key row : String} : (all locked (idAt second) s).store.get? key = some row ↔
      s.get? key = some row ∧ ∀ t, Filed t (idAt second) key → t ∈ locked := by
  constructor
  · intro hleft
    have hrow : s.get? key = some row := get?_of_get?_foldl_step hleft
    refine ⟨hrow, fun t hfiled => Decidable.not_not.mp fun ht => ?_⟩
    obtain ⟨u, k, -, hk, -, -, hkind⟩ := hs key row hrow
    obtain ⟨rfl, hp⟩ := Filed.unique ⟨k, hk, rfl⟩ hfiled
    rw [(get?_all_eq_none_iff hrow hk (slash_notMem_idAt second)).mpr ⟨hp, ht, hkind⟩] at hleft
    cases hleft
  · intro h
    obtain ⟨hrow, hlocked⟩ := h
    cases hleft : (all locked (idAt second) s).store.get? key with
    | none =>
      obtain ⟨u, k, -, hk, -⟩ := hs key row hrow
      obtain ⟨hp, ht, -⟩ :=
        (get?_all_eq_none_iff hrow hk (slash_notMem_idAt second)).mp hleft
      exact absurd (hlocked u ⟨k, hk, hp⟩) ht
    | some row' => exact (get?_of_get?_foldl_step hleft).symm.trans hrow

theorem all_unlocked (hs : s.Dated) (second : Int) :
    (all [] (idAt second) s).store = s.outside [idAt second] ∧
      (all [] (idAt second) s).failures = [] ∧
      (all [] (idAt second) s).keysRemoved + (all [] (idAt second) s).store.rows.size =
        s.rows.size := by
  obtain ⟨hfailures, hcount⟩ := foldl_step_counts [] (idAt second) Table.all ⟨s, 0, []⟩
  refine ⟨Store.ext_get? fun x => Option.ext fun row => ?_, by rw [all, hfailures]; rfl,
    by rw [all, hcount]; exact Nat.zero_add _⟩
  rw [get?_all_eq_some_iff hs, Store.get?_outside]
  simp only [List.not_mem_nil, imp_false, ← not_exists, ← Store.partitionOf?_eq_some_iff,
    List.mem_singleton, exists_eq_left]
  by_cases hp : Store.partitionOf? x = some (idAt second) <;> simp [hp]

end Drop

/-! ## Cycles -/

namespace Retention

variable {policy : RetentionPolicy} {footprint : Store → Nat} {now : Instant}

/-- Whether a partition starts longer ago than the history is kept. -/
def expired (policy : RetentionPolicy) (now : Instant) (partition : String) : Bool :=
  match start partition with
  | .ok start => decide (policy.maxLookback.nanos < (now.since start).toNat)
  | .error _ => false

/-- The partitions of a store that have expired, from the oldest on; the newest one is kept. -/
def due (policy : RetentionPolicy) (now : Instant) (s : Store) : List String :=
  s.histogram.keys.dropLast.filter (expired policy now)

/-- Run a number of cycles in which no table refuses. -/
def cycles (policy : RetentionPolicy) (footprint : Store → Nat) (now : Instant) :
    Nat → Retention → Retention
  | 0, r => r
  | n + 1, r => cycles policy footprint now n (check policy [] footprint now r).1

theorem cycles_succ (n : Nat) (r : Retention) : cycles policy footprint now (n + 1) r =
    (check policy [] footprint now (cycles policy footprint now n r)).1 := by
  induction n generalizing r with
  | zero => rfl
  | succ n ih => rw [cycles, ih, cycles]

theorem since_startAt (hnow : now.isLeap = false) {s : Int} (hs : InRange s) :
    now.since (startAt s) = (now.seconds - s) * 1000000000 + now.nanos := by
  have hleap : (startAt s).isLeap = false := by simp [Instant.isLeap, billion]
  simp [Instant.since, hnow, hleap, seconds_startAt hs]

theorem expired_of_lt (hnow : now.isLeap = false) {a b : Int} (ha : InRange a) (hb : InRange b)
    (hab : idAt a < idAt b) (h : expired policy now (idAt b) = true) :
    expired policy now (idAt a) = true := by
  rw [idAt_lt_idAt_iff ha hb] at hab
  simp only [expired, start_idAt ha, start_idAt hb, decide_eq_true_eq, since_startAt hnow ha,
    since_startAt hnow hb] at h ⊢
  omega

theorem evaluate_eq {bytes : Nat} {second : Int} (hrange : InRange second) (max : String) :
    policy.evaluate bytes now (idAt second) max = .ok (if idAt second = max then none
      else if expired policy now (idAt second) then some .age
      else if policy.maxBytes ≠ 0 ∧ policy.maxBytes < bytes then some .size else none) := by
  unfold RetentionPolicy.evaluate expired
  rw [start_idAt hrange]
  by_cases hmax : idAt second = max
  · rw [if_pos hmax, if_pos hmax]
    rfl
  · rw [if_neg hmax, if_neg hmax]
    simp only [bind, Except.bind, pure, Except.pure, decide_eq_true_eq]
    split
    · rfl
    · split <;> rfl

theorem judge_of_bounds {s : Store} {min max : String} (h : s.bounds = .ok (some (min, max))) :
    judge policy footprint now s = (policy.evaluate (footprint s) now min max).map fun
      | none => .inl .withinBudget
      | some trigger => .inr (min, trigger) := by
  unfold judge
  rw [h]
  show Except.bind (policy.evaluate (footprint s) now min max) _ = _
  cases policy.evaluate (footprint s) now min max with
  | error e => rfl
  | ok found => cases found <;> rfl

/-- Without a limit on the size, a cycle judges the oldest partition by its age, unless it is the
newest one as well. -/
theorem judge_eq (footprint : Store → Nat) (now : Instant) {s : Store} (hs : s.Dated)
    (hsize : policy.maxBytes = 0) :
    judge policy footprint now s = .ok (match s.histogram.keys with
      | [] => .inl .empty
      | [_] => .inl .withinBudget
      | p :: _ :: _ => if expired policy now p then .inr (p, .age) else .inl .withinBudget) := by
  have hbounds := Store.bounds_eq hs.keyed
  have hsorted := s.histogram.pairwise_keys
  have hheld : ∀ p ∈ s.histogram.keys, ∃ second, p = idAt second ∧ InRange second :=
    fun p hp => hs.inRange_of_holdsAny (Store.mem_keys_histogram.mp hp)
  revert hbounds hsorted hheld
  generalize s.histogram.keys = ps
  intro hbounds hsorted hheld
  match ps with
  | [] =>
    unfold judge
    rw [hbounds]
    rfl
  | [p] =>
    obtain ⟨second, rfl, hrange⟩ := hheld p List.mem_cons_self
    have hends : s.bounds = .ok (some (idAt second, idAt second)) := hbounds
    rw [judge_of_bounds hends, evaluate_eq hrange, if_pos rfl]
    rfl
  | p :: q :: ps =>
    obtain ⟨second, rfl, hrange⟩ := hheld p List.mem_cons_self
    have hlast : (q :: ps).getLast (by simp) ∈ q :: ps := List.getLast_mem _
    have hne : idAt second ≠ (q :: ps).getLast (by simp) := fun h =>
      String.lt_irrefl _ (h ▸ (List.pairwise_cons.mp hsorted).1 _ hlast)
    have hends : s.bounds = .ok (some (idAt second, (q :: ps).getLast (by simp))) := hbounds
    have hlarge : ¬ (policy.maxBytes ≠ 0 ∧ policy.maxBytes < footprint s) := fun h => h.1 hsize
    rw [judge_of_bounds hends, evaluate_eq hrange, if_neg hne, if_neg hlarge]
    dsimp only
    split <;> rfl

/-! ## What a cycle does -/

theorem store_check (policy : RetentionPolicy) (locked : List Table) (footprint : Store → Nat)
    (now : Instant) (r : Retention) :
    (check policy locked footprint now r).1.store =
      match judge policy footprint now r.store with
      | .ok (.inr (partition, _)) => (Drop.all locked partition r.store).store
      | _ => r.store := by
  unfold check
  dsimp only
  split <;> simp [*]

theorem get?_of_get?_check {locked : List Table} {r : Retention} {key row : String}
    (h : (check policy locked footprint now r).1.store.get? key = some row) :
    r.store.get? key = some row := by
  rw [store_check] at h
  split at h
  · exact Drop.get?_of_get?_foldl_step h
  · exact h

theorem outcome_check (locked : List Table) {r r' : Retention} (h : r'.store = r.store) :
    (check policy locked footprint now r').2 = (check policy locked footprint now r).2 := by
  unfold check
  rw [h]
  dsimp only
  split <;> rfl

theorem keys_of_due_cons (hnow : now.isLeap = false) {s : Store} (hs : s.Dated) {p : String}
    {ps : List String} (hdue : due policy now s = p :: ps) :
    ∃ q qs, s.histogram.keys = p :: q :: qs ∧ expired policy now p = true ∧
      ps = (q :: qs).dropLast.filter (expired policy now) := by
  have hsorted := s.histogram.pairwise_keys
  have hheld : ∀ p ∈ s.histogram.keys, ∃ second, p = idAt second ∧ InRange second :=
    fun p hp => hs.inRange_of_holdsAny (Store.mem_keys_histogram.mp hp)
  unfold due at hdue
  revert hdue hsorted hheld
  generalize s.histogram.keys = keys
  intro hdue hsorted hheld
  match keys with
  | [] => cases hdue
  | [_] => cases hdue
  | x :: q :: qs =>
    rw [List.dropLast_cons_of_ne_nil (by simp), List.filter_cons] at hdue
    have hexpired : expired policy now x = true := by
      apply Decidable.byContradiction
      intro hx
      rw [if_neg hx] at hdue
      have hp : p ∈ ((q :: qs).dropLast.filter (expired policy now)) := by simp [hdue]
      obtain ⟨hp, hexpired⟩ := List.mem_filter.mp hp
      have hmem : p ∈ q :: qs := (List.dropLast_sublist _).subset hp
      obtain ⟨a, rfl, ha⟩ := hheld x List.mem_cons_self
      obtain ⟨b, rfl, hb⟩ := hheld p (List.mem_cons_of_mem _ hmem)
      exact hx (expired_of_lt hnow ha hb ((List.pairwise_cons.mp hsorted).1 _ hmem) hexpired)
    rw [if_pos hexpired] at hdue
    obtain ⟨rfl, rfl⟩ := List.cons.inj hdue
    exact ⟨q, qs, rfl, hexpired, rfl⟩

/-- If a partition is `due`, the cycle drops the first one that is, and the others stay due. -/
theorem check_of_due_cons (footprint : Store → Nat) (hnow : now.isLeap = false) {r : Retention}
    (hs : r.store.Dated) (hsize : policy.maxBytes = 0) {p : String} {ps : List String}
    (hdue : due policy now r.store = p :: ps) :
    ∃ removed, (check policy [] footprint now r).2 = .ok (.dropped p .age removed []) ∧
      (check policy [] footprint now r).1.store = r.store.outside [p] ∧
      (check policy [] footprint now r).1.counters.keysRemoved = r.counters.keysRemoved + removed ∧
      removed + (r.store.outside [p]).rows.size = r.store.rows.size ∧ 0 < removed ∧
      due policy now (r.store.outside [p]) = ps := by
  obtain ⟨q, qs, hkeys, hexpired, rfl⟩ := keys_of_due_cons hnow hs hdue
  have hheld : r.store.HoldsAny p :=
    Store.mem_keys_histogram.mp (by rw [hkeys]; exact List.mem_cons_self)
  have hjudge : judge policy footprint now r.store = .ok (.inr (p, .age)) := by
    rw [judge_eq footprint now hs hsize, hkeys]
    simp only [hexpired, if_true]
  obtain ⟨second, rfl, -⟩ := hs.inRange_of_holdsAny hheld
  obtain ⟨hstore, hfailures, hcount⟩ := Drop.all_unlocked hs second
  have hlt := Store.size_outside_lt hheld
  rw [hstore] at hcount
  refine ⟨(Drop.all [] (idAt second) r.store).keysRemoved, ?_, ?_, ?_, hcount, by omega, ?_⟩
  · simp only [check, hjudge, hfailures]
  · simp only [check, hjudge, hstore]
  · simp only [check, hjudge, RetentionCounters.addDrop]
  · rw [due, Store.keys_histogram_outside hkeys]

theorem check_of_due_nil (footprint : Store → Nat) {r : Retention} (hs : r.store.Dated)
    (hsize : policy.maxBytes = 0) (hdue : due policy now r.store = []) :
    ((check policy [] footprint now r).2 = .ok .empty ∨
      (check policy [] footprint now r).2 = .ok .withinBudget) ∧
      (check policy [] footprint now r).1.store = r.store := by
  have hjudge := judge_eq footprint now hs hsize
  unfold due at hdue
  revert hdue hjudge
  generalize r.store.histogram.keys = keys
  intro hdue hjudge
  match keys with
  | [] => simp only [check, hjudge, true_or, and_self]
  | [_] => simp only [check, hjudge, or_true, and_self]
  | x :: q :: qs =>
    rw [List.dropLast_cons_of_ne_nil (by simp), List.filter_cons] at hdue
    have hx : ¬ expired policy now x = true := by
      intro hx
      rw [if_pos hx] at hdue
      cases hdue
    dsimp only at hjudge
    rw [if_neg hx] at hjudge
    simp only [check, hjudge, or_true, and_self]

/-! ## What cycles do -/

/-- A cycle that removes no row is repeated by all cycles after it. -/
theorem check_repeats {r : Retention}
    (hsize : r.store.rows.size ≤ (check policy [] footprint now r).1.store.rows.size) (n : Nat) :
    (cycles policy footprint now n r).store = r.store ∧
      (check policy [] footprint now (cycles policy footprint now n r)).2 =
        (check policy [] footprint now r).2 := by
  have hrows : (check policy [] footprint now r).1.store.rows = r.store.rows :=
    SortedMap.eq_of_size_le (fun _ _ => get?_of_get?_check) hsize
  have hfixed : (check policy [] footprint now r).1.store = r.store := congrArg Store.mk hrows
  have hstore : (cycles policy footprint now n r).store = r.store := by
    induction n with
    | zero => rfl
    | succ n ih => rw [cycles_succ, store_check, ih, ← store_check, hfixed]
  exact ⟨hstore, outcome_check [] hstore⟩

/-- Whether the cycle after `n` others drops a partition, and no table refuses. -/
def cleanAfter (policy : RetentionPolicy) (footprint : Store → Nat) (now : Instant) (n : Nat)
    (r : Retention) : Bool :=
  isCleanDrop (check policy [] footprint now (cycles policy footprint now n r)).2

/-- **Catching up runs cycles** as long as they drop a partition. Where this would never end, it
stops in the store that no further cycle changes. -/
theorem exists_cycles_eq_catchUp (policy : RetentionPolicy) (footprint : Store → Nat)
    (now : Instant) (r : Retention) :
    ∃ n, catchUp policy [] footprint now r = cycles policy footprint now (n + 1) r ∧
      (∀ m < n, cleanAfter policy footprint now m r = true) ∧
      (cleanAfter policy footprint now n r = false ∨
        ∀ m ≥ n, cleanAfter policy footprint now m r = true ∧
          (cycles policy footprint now m r).store = (catchUp policy [] footprint now r).store) := by
  fun_induction catchUp policy [] footprint now r with
  | case1 r next outcome hcheck hclean hsize ih =>
    obtain ⟨n, hcycles, hbefore, hend⟩ := ih
    have hnext : next = (check policy [] footprint now r).1 := by rw [hcheck]
    have hfirst : cleanAfter policy footprint now 0 r = true := by
      rw [cleanAfter, cycles, hcheck, hclean]
    subst hnext
    refine ⟨n + 1, hcycles, fun m hm => ?_, hend.imp_right fun hrest m hm => ?_⟩
    · cases m with
      | zero => exact hfirst
      | succ m => exact hbefore m (Nat.lt_of_succ_lt_succ hm)
    · cases m with
      | zero => exact absurd hm (Nat.not_succ_le_zero n)
      | succ m => exact hrest m (Nat.le_of_succ_le_succ hm)
  | case2 r next outcome hcheck hclean hsize =>
    have hnext : next = (check policy [] footprint now r).1 := by rw [hcheck]
    subst hnext
    have hrepeats := check_repeats (Nat.not_lt.mp hsize)
    refine ⟨0, rfl, nofun, .inr fun m _ => ⟨?_, ?_⟩⟩
    · rw [cleanAfter, (hrepeats m).2, hcheck, hclean]
    · rw [(hrepeats m).1, ← (hrepeats 1).1]
      rfl
  | case3 r next outcome hcheck hclean =>
    refine ⟨0, ?_, nofun, .inl ?_⟩
    · rw [cycles, cycles, hcheck]
    · rw [cleanAfter, cycles, hcheck]
      exact eq_false_of_ne_true hclean

theorem store_cycles (footprint : Store → Nat) (hnow : now.isLeap = false)
    (hsize : policy.maxBytes = 0) {n : Nat} {r : Retention} (hs : r.store.Dated)
    (hn : n ≤ (due policy now r.store).length) :
    (cycles policy footprint now n r).store =
        r.store.outside ((due policy now r.store).take n) ∧
      due policy now (cycles policy footprint now n r).store =
        (due policy now r.store).drop n ∧
      (cycles policy footprint now n r).counters.keysRemoved +
        (cycles policy footprint now n r).store.rows.size =
          r.counters.keysRemoved + r.store.rows.size := by
  induction n generalizing r with
  | zero => exact ⟨(Store.outside_nil _).symm, rfl, rfl⟩
  | succ n ih =>
    obtain ⟨p, ps, hdue⟩ := List.exists_cons_of_length_pos (Nat.lt_of_lt_of_le n.succ_pos hn)
    obtain ⟨removed, -, hstore, hcounter, hcount, -, hrest⟩ :=
      check_of_due_cons footprint hnow hs hsize hdue
    rw [← hstore] at hrest
    have hdated : (check policy [] footprint now r).1.store.Dated := by
      rw [hstore]
      exact hs.outside [p]
    have hlength : n ≤ (due policy now (check policy [] footprint now r).1.store).length := by
      rw [hrest]
      rw [hdue, List.length_cons] at hn
      omega
    obtain ⟨ihstore, ihdue, ihcount⟩ := ih hdated hlength
    rw [hrest, hstore] at ihstore
    rw [hrest] at ihdue
    rw [hcounter, hstore] at ihcount
    refine ⟨?_, ?_, ?_⟩
    · rw [cycles, ihstore, hdue, List.take_succ_cons, Store.outside_outside]
    · rw [cycles, ihdue, hdue, List.drop_succ_cons]
    · rw [cycles, ihcount]
      omega

theorem store_catchUp (hnow : now.isLeap = false) (hsize : policy.maxBytes = 0) {ps : List String}
    {r : Retention} (hs : r.store.Dated) (hdue : due policy now r.store = ps) :
    (catchUp policy [] footprint now r).store = r.store.outside ps := by
  induction ps generalizing r with
  | nil =>
    obtain ⟨houtcome, hstore⟩ := check_of_due_nil footprint hs hsize hdue
    unfold catchUp
    rcases houtcome with houtcome | houtcome <;>
      simp [houtcome, isCleanDrop, hstore, Store.outside_nil]
  | cons p ps ih =>
    obtain ⟨removed, houtcome, hstore, -, hcount, hpos, hrest⟩ :=
      check_of_due_cons footprint hnow hs hsize hdue
    unfold catchUp
    have hlt : (check policy [] footprint now r).1.store.rows.size < r.store.rows.size := by
      rw [hstore]
      omega
    have hdated : (check policy [] footprint now r).1.store.Dated := by
      rw [hstore]
      exact hs.outside [p]
    simp only [houtcome, isCleanDrop, List.isEmpty_nil, if_true, hlt]
    rw [ih hdated (by rw [hstore, hrest]), hstore, Store.outside_outside]

/-- What is left after one cycle for each partition that is due. -/
def drained (policy : RetentionPolicy) (footprint : Store → Nat) (now : Instant) (r : Retention) :
    Retention :=
  cycles policy footprint now (due policy now r.store).length r

/-- **Catching up has a closed form.** With no limit on the size and no table that refuses, the
cycles drop what is due, one partition a cycle from the oldest on, with every row that is in it and
no other. The next cycle drops nothing and changes no row, the counts of the cycles add up to the
number of rows that are gone, and running until nothing is dropped comes to this end. -/
theorem catchUp_drops_exactly_due (g : Granularity) (policy : RetentionPolicy)
    (footprint : Store → Nat) (now : Instant) (r : Retention) (hs : r.store.Constructed g)
    (hnow : now.isLeap = false) (hsize : policy.maxBytes = 0) :
    (∀ n (hn : n < (due policy now r.store).length), ∃ removed,
      (check policy [] footprint now (cycles policy footprint now n r)).2 =
        .ok (.dropped (due policy now r.store)[n] .age removed []) ∧
      removed + (cycles policy footprint now (n + 1) r).store.rows.size =
        (cycles policy footprint now n r).store.rows.size) ∧
    (∀ n ≤ (due policy now r.store).length, (cycles policy footprint now n r).store =
      r.store.outside ((due policy now r.store).take n)) ∧
    (drained policy footprint now r).store = r.store.outside (due policy now r.store) ∧
    (drained policy footprint now r).counters.keysRemoved +
        (drained policy footprint now r).store.rows.size =
      r.counters.keysRemoved + r.store.rows.size ∧
    ((check policy [] footprint now (drained policy footprint now r)).2 = .ok .empty ∨
      (check policy [] footprint now (drained policy footprint now r)).2 = .ok .withinBudget) ∧
    (check policy [] footprint now (drained policy footprint now r)).1.store =
      (drained policy footprint now r).store ∧
    (catchUp policy [] footprint now r).store = (drained policy footprint now r).store := by
  have hdated := hs.dated
  obtain ⟨hstore, hdue, hcount⟩ :=
    store_cycles footprint hnow hsize hdated (Nat.le_refl _)
  rw [List.take_length] at hstore
  rw [List.drop_length] at hdue
  have hend : (drained policy footprint now r).store.Dated := by
    rw [drained, hstore]
    exact hdated.outside _
  obtain ⟨houtcome, hlast⟩ := check_of_due_nil footprint hend hsize hdue
  refine ⟨fun n hn => ?_, fun n hn => (store_cycles footprint hnow hsize hdated hn).1, hstore,
    hcount, houtcome, hlast, ?_⟩
  · obtain ⟨hstoreₙ, hdueₙ, -⟩ :=
      store_cycles footprint hnow hsize hdated (Nat.le_of_lt hn)
    have hdatedₙ : (cycles policy footprint now n r).store.Dated := by
      rw [hstoreₙ]
      exact hdated.outside _
    rw [List.drop_eq_getElem_cons hn] at hdueₙ
    obtain ⟨removed, hdropped, hnext, -, hremoved, -⟩ :=
      check_of_due_cons footprint hnow hdatedₙ hsize hdueₙ
    refine ⟨removed, hdropped, ?_⟩
    rw [cycles_succ, hnext]
    exact hremoved
  · rw [store_catchUp hnow hsize hdated rfl, drained, hstore]

/-- Midnight of the second day. -/
def secondDay : Instant := startAt 86400

/-- A pod observed on the first day and on the second. -/
def twoDays : Except StoreError Store := do
  let s ← Store.empty.set (Key.within .day .activity .epoch "Pod" "default" "web" "u1")
    ⟨[], [0]⟩
  s.set (Key.within .day .activity secondDay "Pod" "default" "web" "u1") ⟨[], [86400]⟩

/-- Keep an hour, in any number of bytes. -/
def keepAnHour : RetentionPolicy := ⟨.ofSeconds 3600, 0⟩

/-- Of `twoDays`, the first cycle drops the first day with the one row in it, the second cycle drops
nothing, and the row of the second day is left. -/
theorem catchUp_drops_first_day :
    ∃ s, twoDays = .ok s ∧ s.Constructed .day ∧ secondDay.isLeap = false ∧
      keepAnHour.maxBytes = 0 ∧ due keepAnHour secondDay s = ["000000000000"] ∧
      let r := cycles keepAnHour Store.bytes secondDay 1 ⟨s, .zero⟩
      (check keepAnHour [] Store.bytes secondDay ⟨s, .zero⟩).2 =
        .ok (.dropped "000000000000" .age 1 []) ∧
      r.store = s.outside ["000000000000"] ∧ r.store.rows.size = 1 ∧ r.counters.keysRemoved = 1 ∧
      (check keepAnHour [] Store.bytes secondDay r).2 = .ok .withinBudget ∧
      (check keepAnHour [] Store.bytes secondDay r).1.store = r.store ∧
      (catchUp keepAnHour [] Store.bytes secondDay ⟨s, .zero⟩).store = r.store := by
  obtain ⟨s₁, h₁⟩ : ∃ s₁, Store.empty.set
      (Key.within .day .activity .epoch "Pod" "default" "web" "u1") ⟨[], [0]⟩ = .ok s₁ := ⟨_, rfl⟩
  obtain ⟨s, hs⟩ : ∃ s, s₁.set
      (Key.within .day .activity secondDay "Pod" "default" "web" "u1") ⟨[], [86400]⟩ = .ok s :=
    ⟨_, rfl⟩
  have htwo : twoDays = .ok s := by rw [← hs, twoDays, h₁]; rfl
  have hplain : Text.Plain "Pod".toList := Text.plain_cons (by decide) _
  have hconstructed : s.Constructed .day :=
    ((Store.constructed_empty .day).set (by decide) (by decide) hplain h₁).set
      (by decide) (by decide) hplain hs
  have hdue : due keepAnHour secondDay s = ["000000000000"] := by
    have hrun : (twoDays.toOption.map (due keepAnHour secondDay)) = some ["000000000000"] := by
      decide +kernel
    rw [htwo] at hrun
    exact Option.some.inj hrun
  have hrun : twoDays.toOption.map (fun s =>
      let r := cycles keepAnHour Store.bytes secondDay 1 ⟨s, .zero⟩
      (s.rows.size, r.store.rows.size, (check keepAnHour [] Store.bytes secondDay r).2)) =
        some (2, 1, .ok .withinBudget) := by decide +kernel
  simp only [htwo, Except.toOption, Option.map_some, Option.some.injEq, Prod.mk.injEq] at hrun
  obtain ⟨hbefore, hafter, hlast⟩ := hrun
  obtain ⟨hcycles, hstore, -, hcounts, -, hrest, hcatchUp⟩ :=
    catchUp_drops_exactly_due .day keepAnHour Store.bytes secondDay ⟨s, .zero⟩ hconstructed
      (by decide) rfl
  unfold drained at hcounts hrest hcatchUp
  simp only [hdue, List.length_singleton] at hcycles hstore hcounts hrest hcatchUp
  obtain ⟨removed, hdropped, hremoved⟩ := hcycles 0 Nat.zero_lt_one
  have hone : removed + 1 = 2 := by rw [← hafter, ← hbefore]; exact hremoved
  obtain rfl : removed = 1 := by omega
  refine ⟨s, htwo, hconstructed, by decide, rfl, hdue, hdropped, hstore 1 (Nat.le_refl 1), hafter,
    ?_, hlast, hrest, hcatchUp⟩
  rw [hafter, hbefore] at hcounts
  simpa [RetentionCounters.zero] using hcounts

end Retention

end WatchHistory
