import WatchHistory.Proofs.Event.Tally
import WatchHistory.Proofs.Ingest.Maintainable
import WatchHistory.Proofs.Retention.CatchUp

/-!
# Retention among writers

A cycle of retention is several transactions: one reads the bounds of the store, and then one for
each table drops the oldest partition that was read. Stages of ingestion may run between any two of
them, so by the time of a drop the bounds may be out of date.

* `Shared.advance` is the next transaction of a manager. Without stages in between, the transactions
  of a cycle come to `Retention.check` (`exists_iterate_advance_eq_check`).
* `Shared.Safe` is the invariant: while a partition is being dropped, the store holds a row in a
  later one. Stages never take a row away, and a drop takes rows of its own partition only.
* `interleaved_spares_newest`: in every order of the transactions the newest partition never becomes
  an older one, some row is left, and the rows that go are in the partition that was the oldest when
  the cycle read the bounds.
-/

set_option autoImplicit false

namespace WatchHistory

open WatchHistory.Partition

/-! ## What a stage keeps -/

namespace Stage

variable {g : Granularity} {keepMinor : Bool} {r : Intake} {s : Store} {P : Store → Prop}

theorem foldlM_addBuckets_induction {reason : String}
    (hset : ∀ {t : Table} {k : Key t} {row : t.Row} {second : Int} {s s' : Store},
      k.partition = idAt second → s.set k row = .ok s' → P s → P s')
    {groups : List (String × List (Int × Int))}
    (hgroups : ∀ group ∈ groups, ∃ second, group.1 = idAt second) {s' : Store}
    (hfold : groups.foldlM (fun s group => r.addBuckets reason group.1 group.2 s) s = .ok s')
    (hs : P s) : P s' := by
  induction groups generalizing s with
  | nil =>
    cases hfold
    exact hs
  | cons group groups ih =>
    rw [List.foldlM_cons] at hfold
    obtain ⟨s₁, hadd, hfold⟩ := bind_eq_ok.mp hfold
    obtain ⟨minutes, -, hwrite⟩ := Intake.addBuckets_eq_ok.mp hadd
    obtain ⟨second, hp⟩ := hgroups group List.mem_cons_self
    exact ih (fun other hother => hgroups other (List.mem_cons_of_mem _ hother)) hfold
      (hset (k := r.tallyKey group.1) hp hwrite hs)

theorem after_induction
    (hset : ∀ {t : Table} {k : Key t} {row : t.Row} {second : Int} {s s' : Store},
      k.partition = idAt second → s.set k row = .ok s' → P s → P s')
    (hs : P s) (stage : Stage) : P (stage.after g keepMinor r s) := by
  by_cases hstage : stage = .eventCount
  · subst hstage
    rcases after_eventCount_cases g keepMinor r s with hsame | ⟨reason, d, lastMinute, -, -, hfold⟩
    · rw [hsame]
      exact hs
    · exact foldlM_addBuckets_induction hset (fun _ => Intake.exists_idAt_of_mem_groups) hfold hs
  · rcases after_cases g keepMinor r s hstage with
      hsame | ⟨-, hwrite⟩ | ⟨t, last, row, -, -, -, hwrite⟩
    · rw [hsame]
      exact hs
    · exact hset rfl hwrite hs
    · exact hset rfl hwrite hs

theorem keyed_after (h : s.Keyed) (stage : Stage) : (stage.after g keepMinor r s).Keyed := by
  refine after_induction (fun {t k row second s s'} hp hset hs => ?_) h stage
  intro key text htext
  rw [Store.get?_set hset] at htext
  split at htext
  · next hkey => exact ⟨t, second, hkey ▸ Store.filed_of_set hp hset⟩
  · exact hs key text htext

theorem get?_after_ne_none {key : String} (h : s.get? key ≠ none) (stage : Stage) :
    (stage.after g keepMinor r s).get? key ≠ none := by
  refine after_induction (P := fun s => s.get? key ≠ none) (fun _ hset hs => ?_) h stage
  rw [Store.get?_set hset]
  split
  · simp
  · exact hs

theorem holdsAny_after {p : String} (h : s.HoldsAny p) (stage : Stage) :
    (stage.after g keepMinor r s).HoldsAny p :=
  after_induction (P := fun s => s.HoldsAny p) (fun _ hset hs => hs.set hset) h stage

end Stage

/-! ## What a drop takes away -/

namespace Store

variable {s : Store} {t : Table} {partition key row : String}

theorem filed_of_get?_dropPartition (h : s.Keyed) (hslash : '/' ∉ partition.toList)
    (hrow : s.get? key = some row) (hgone : (s.dropPartition t partition).1.get? key = none) :
    Filed t partition key := by
  obtain ⟨u, second, hfiled⟩ := h key row hrow
  rw [dropPartition, get?_dropUnder] at hgone
  split at hgone
  · next hrange =>
    obtain ⟨rfl, rfl⟩ := hfiled.eq_of_mem_range_partitionStem hslash hrange
    exact hfiled
  · rw [hrow] at hgone
    cases hgone

theorem get?_of_get?_dropPartition (h : (s.dropPartition t partition).1.get? key = some row) :
    s.get? key = some row := by
  rw [dropPartition, get?_dropUnder] at h
  split at h
  · cases h
  · exact h

theorem keyed_dropPartition (h : s.Keyed) : (s.dropPartition t partition).1.Keyed :=
  fun key row hrow => h key row (get?_of_get?_dropPartition hrow)

theorem holdsAny_dropPartition (h : s.Keyed) (hslash : '/' ∉ partition.toList) {p : String}
    (hp : s.HoldsAny p) (hne : p ≠ partition) : (s.dropPartition t partition).1.HoldsAny p := by
  obtain ⟨u, key, row, hrow, hfiled⟩ := hp
  cases hleft : (s.dropPartition t partition).1.get? key with
  | some row' => exact ⟨u, key, row', hleft, hfiled⟩
  | none =>
    have hgone := filed_of_get?_dropPartition h hslash hrow hleft
    exact absurd (hfiled.unique hgone).2 hne

/-- Whether a partition is the newest one that holds a row of any table. -/
def Newest (s : Store) (p : String) : Prop := s.HoldsAny p ∧ ∀ q, s.HoldsAny q → ¬ p < q

theorem exists_newest (h : s.Keyed) {p : String} (hp : s.HoldsAny p) : ∃ q, s.Newest q := by
  obtain ⟨b, -, hspans⟩ := bounds_spec h
  cases b with
  | none => exact absurd hp (hspans p)
  | some bounds => exact ⟨bounds.2, hspans.2.1, fun q hq => (hspans.2.2 q hq).2⟩

theorem exists_holdsAny (h : s.Keyed) (hne : s ≠ .empty) : ∃ p, s.HoldsAny p := by
  apply Classical.byContradiction
  intro hnone
  refine hne (ext_get? fun key => ?_)
  rw [get?_empty]
  cases hrow : s.get? key with
  | none => rfl
  | some row =>
    obtain ⟨t, second, hfiled⟩ := h key row hrow
    exact absurd ⟨_, t, key, row, hrow, hfiled⟩ hnone

theorem HoldsAny.ne_empty {p : String} (h : s.HoldsAny p) : s ≠ .empty := by
  rintro rfl
  obtain ⟨t, key, row, hrow, -⟩ := h
  cases hrow

end Store

/-! ## Transactions -/

/-- Where a manager is in its cycles. -/
inductive Phase
  /-- Between two cycles. -/
  | idle
  /-- The bounds have been read. -/
  | judging (min max : String)
  /-- A partition is being dropped, and some tables are still to be asked. -/
  | dropping (partition : String) (left : List Table) (keysRemoved : Nat)
      (failures : List RetentionFailure)

/-- The oldest partition that was read in the cycle that is under way. -/
def Phase.oldest? : Phase → Option String
  | idle => none
  | judging min _ => some min
  | dropping partition _ _ _ => some partition

/-- A store that is shared by the stages of ingestion and the cycles of one manager. -/
structure Shared extends Retention where
  phase : Phase

/-- A transaction on a shared store. -/
inductive Transaction
  /-- A stage of ingestion. -/
  | ingest (stage : Stage) (keepMinor : Bool) (r : Intake)
  /-- The next transaction of the manager; the tables in `locked` refuse to drop. -/
  | retain (now : Instant) (locked : List Table)

namespace Shared

variable (policy : RetentionPolicy) (footprint : Store → Nat)

/-- The manager starts a cycle and reads the bounds, judges them, asks one more table to drop the
oldest partition, or ends the cycle. -/
def advance (now : Instant) (locked : List Table) (x : Shared) : Shared :=
  match x.phase with
  | .idle =>
    let counters := { x.counters with cycles := x.counters.cycles + 1 }
    match x.store.bounds with
    | .ok (some (min, max)) => ⟨⟨x.store, counters⟩, .judging min max⟩
    | _ => ⟨⟨x.store, counters⟩, .idle⟩
  | .judging min max =>
    match policy.evaluate (footprint x.store) now min max with
    | .ok (some _) => ⟨x.toRetention, .dropping min Table.all 0 []⟩
    | _ => ⟨x.toRetention, .idle⟩
  | .dropping partition (t :: left) keysRemoved failures =>
    let drop := Drop.step locked partition ⟨x.store, keysRemoved, failures⟩ t
    ⟨⟨drop.store, x.counters⟩, .dropping partition left drop.keysRemoved drop.failures⟩
  | .dropping _ [] keysRemoved failures =>
    ⟨⟨x.store, x.counters.addDrop keysRemoved failures⟩, .idle⟩

def step (g : Granularity) (x : Shared) : Transaction → Shared
  | .ingest stage keepMinor r => { x with store := stage.after g keepMinor r x.store }
  | .retain now locked => x.advance policy footprint now locked

/-- What is left after the first `n` of a series of transactions. -/
def interleaved (g : Granularity) (s : Store) (ts : Nat → Transaction) : Nat → Shared
  | 0 => ⟨⟨s, .zero⟩, .idle⟩
  | n + 1 => (interleaved g s ts n).step policy footprint g (ts n)

variable {policy footprint}

/-! ### A cycle without stages in between -/

theorem iterate_advance_dropping (now : Instant) (locked : List Table) (partition : String)
    (left : List Table) (d : Drop) (counters : RetentionCounters) :
    (advance policy footprint now locked)^[left.length]
        ⟨⟨d.store, counters⟩, .dropping partition left d.keysRemoved d.failures⟩ =
      ⟨⟨(left.foldl (Drop.step locked partition) d).store, counters⟩,
        .dropping partition [] (left.foldl (Drop.step locked partition) d).keysRemoved
          (left.foldl (Drop.step locked partition) d).failures⟩ := by
  induction left generalizing d with
  | nil => rfl
  | cons t left ih => exact ih (Drop.step locked partition d t)

theorem phase_iterate_advance_dropping (now : Instant) (locked : List Table) {n : Nat}
    {left : List Table} (hn : n ≤ left.length) {x : Shared} {partition : String} {removed : Nat}
    {failures : List RetentionFailure} (hx : x.phase = .dropping partition left removed failures) :
    ((advance policy footprint now locked)^[n] x).phase ≠ .idle := by
  induction n generalizing x left removed failures with
  | zero =>
    show x.phase ≠ .idle
    rw [hx]
    exact nofun
  | succ n ih =>
    cases left with
    | nil => exact absurd hn (by simp)
    | cons t left =>
      rw [Function.iterate_succ_apply]
      exact ih (Nat.le_of_succ_le_succ hn) (by simp only [advance, hx]; rfl)

theorem advance_idle (policy : RetentionPolicy) (footprint : Store → Nat) (now : Instant)
    (locked : List Table) {r : Retention} {min max : String}
    (h : r.store.bounds = .ok (some (min, max))) :
    advance policy footprint now locked ⟨r, .idle⟩ =
      ⟨⟨r.store, { r.counters with cycles := r.counters.cycles + 1 }⟩, .judging min max⟩ := by
  simp only [advance, h]

/-- **The transactions of one cycle** without a stage in between do what `Retention.check` does. -/
theorem exists_iterate_advance_eq_check (policy : RetentionPolicy) (footprint : Store → Nat)
    (now : Instant) (locked : List Table) (r : Retention) :
    ∃ n, (advance policy footprint now locked)^[n + 1] ⟨r, .idle⟩ =
        ⟨(Retention.check policy locked footprint now r).1, .idle⟩ ∧
      ∀ m < n, ((advance policy footprint now locked)^[m + 1] ⟨r, .idle⟩).phase ≠ .idle := by
  unfold Retention.check
  cases hbounds : r.store.bounds with
  | error e =>
    refine ⟨0, ?_, nofun⟩
    simp only [Function.iterate_succ_apply, Function.iterate_zero_apply, advance, hbounds,
      Retention.judge, bind, Except.bind]
  | ok found =>
    cases found with
    | none =>
      refine ⟨0, ?_, nofun⟩
      simp only [Function.iterate_succ_apply, Function.iterate_zero_apply, advance, hbounds,
        Retention.judge, bind, Except.bind, pure, Except.pure]
    | some bounds =>
      obtain ⟨min, max⟩ := bounds
      have hread := advance_idle policy footprint now locked hbounds
      rw [Retention.judge_of_bounds hbounds]
      cases hverdict : policy.evaluate (footprint r.store) now min max with
      | error e =>
        refine ⟨1, ?_, fun m hm => ?_⟩
        · simp only [Function.iterate_succ_apply, Function.iterate_zero_apply, hread]
          simp only [advance, hverdict, Except.map]
        · rw [Nat.lt_one_iff.mp hm, Function.iterate_succ_apply, hread]
          exact nofun
      | ok trigger? =>
        cases trigger? with
        | none =>
          refine ⟨1, ?_, fun m hm => ?_⟩
          · simp only [Function.iterate_succ_apply, Function.iterate_zero_apply, hread]
            simp only [advance, hverdict, Except.map]
          · rw [Nat.lt_one_iff.mp hm, Function.iterate_succ_apply, hread]
            exact nofun
        | some trigger =>
          have hjudge : advance policy footprint now locked
              ⟨⟨r.store, { r.counters with cycles := r.counters.cycles + 1 }⟩, .judging min max⟩ =
              ⟨⟨r.store, { r.counters with cycles := r.counters.cycles + 1 }⟩,
                .dropping min Table.all 0 []⟩ := by
            simp only [advance, hverdict]
          refine ⟨Table.all.length + 2, ?_, fun m hm => ?_⟩
          · rw [Function.iterate_succ_apply, hread, Function.iterate_succ_apply, hjudge,
              Function.iterate_succ_apply',
              iterate_advance_dropping now locked min Table.all ⟨r.store, 0, []⟩]
            rfl
          · cases m with
            | zero =>
              rw [Function.iterate_succ_apply, hread]
              exact nofun
            | succ m =>
              rw [Function.iterate_succ_apply, hread, Function.iterate_succ_apply, hjudge]
              exact phase_iterate_advance_dropping now locked (by omega) rfl

/-! ### What every transaction keeps -/

/-- What a phase relies on, as long as stages and the cycle itself change the store. -/
def PhaseSafe (s : Store) : Phase → Prop
  | .idle => True
  | .judging min max => '/' ∉ min.toList ∧ s.HoldsAny max ∧ ¬ max < min
  | .dropping partition _ _ _ =>
    '/' ∉ partition.toList ∧ ∃ p, s.HoldsAny p ∧ partition < p

/-- **The invariant**: keys are complete and lie in partitions with ids, and the partition that is
being dropped is older than some partition that holds a row. -/
structure Safe (x : Shared) : Prop where
  keyed : x.store.Keyed
  phase : PhaseSafe x.store x.phase

/-- Of the store, `PhaseSafe` asks only that certain partitions hold a row. -/
theorem PhaseSafe.mono {s s' : Store} {phase : Phase} (h : PhaseSafe s phase)
    (hs : ∀ p, s.HoldsAny p → s'.HoldsAny p) : PhaseSafe s' phase := by
  cases phase with
  | idle => trivial
  | judging min max => exact ⟨h.1, hs _ h.2.1, h.2.2⟩
  | dropping partition left removed failures =>
    obtain ⟨hslash, p, hp, hlt⟩ := h
    exact ⟨hslash, p, hs p hp, hlt⟩

theorem ne_of_evaluate {bytes : Nat} {now : Instant} {min max : String} {trigger : Trigger}
    (h : policy.evaluate bytes now min max = .ok (some trigger)) : min ≠ max := by
  intro hsame
  unfold RetentionPolicy.evaluate at h
  rw [if_pos hsame] at h
  cases h

/-- A transaction of the manager is the end of a cycle, the reading of the bounds, the judgement
that the oldest partition goes, or the drop of that partition by one table. -/
theorem advance_cases (now : Instant) (locked : List Table) (x y : Shared)
    (hy : x.advance policy footprint now locked = y) :
    (y.store = x.store ∧ y.phase = .idle) ∨
    (∃ min max, x.phase = .idle ∧ x.store.bounds = .ok (some (min, max)) ∧ y.store = x.store ∧
      y.phase = .judging min max) ∨
    (∃ min max trigger, x.phase = .judging min max ∧
      policy.evaluate (footprint x.store) now min max = .ok (some trigger) ∧ y.store = x.store ∧
      y.phase = .dropping min Table.all 0 []) ∨
    ∃ partition t left removed failures removed' failures',
      x.phase = .dropping partition (t :: left) removed failures ∧
      (y.store = x.store ∨ y.store = (x.store.dropPartition t partition).1) ∧
      y.phase = .dropping partition left removed' failures' := by
  subst hy
  unfold advance
  cases hphase : x.phase with
  | idle =>
    dsimp only
    split
    · next min max hbounds => exact .inr (.inl ⟨min, max, rfl, hbounds, rfl, rfl⟩)
    · exact .inl ⟨rfl, rfl⟩
  | judging min max =>
    dsimp only
    split
    · next trigger hverdict =>
      exact .inr (.inr (.inl ⟨min, max, trigger, rfl, hverdict, rfl, rfl⟩))
    · exact .inl ⟨rfl, rfl⟩
  | dropping partition left removed failures =>
    cases left with
    | nil => exact .inl ⟨rfl, rfl⟩
    | cons t left =>
      refine .inr (.inr (.inr ⟨partition, t, left, removed, failures, _, _, rfl, ?_, rfl⟩))
      dsimp only
      unfold Drop.step Drop.dropTable
      by_cases hlocked : t ∈ locked
      · rw [if_pos hlocked]
        exact .inl rfl
      · rw [if_neg hlocked]
        exact .inr rfl

/-- Every transaction keeps the invariant `Safe`. -/
theorem Safe.step {g : Granularity} {x : Shared} (h : x.Safe) (t : Transaction) :
    (x.step policy footprint g t).Safe := by
  cases t with
  | ingest stage keepMinor r =>
    exact ⟨Stage.keyed_after h.keyed stage, h.phase.mono fun p hp => Stage.holdsAny_after hp stage⟩
  | retain now locked =>
    obtain ⟨y, hy⟩ : ∃ y, x.advance policy footprint now locked = y := ⟨_, rfl⟩
    show (x.advance policy footprint now locked).Safe
    rw [hy]
    rcases advance_cases now locked x y hy with
      ⟨hstore, hphase⟩ | ⟨min, max, -, hbounds, hstore, hphase⟩ |
      ⟨min, max, trigger, hjudging, hverdict, hstore, hphase⟩ |
      ⟨partition, t, left, removed, failures, removed', failures', hdropping, hstore, hphase⟩
    · exact ⟨hstore ▸ h.keyed, by rw [hphase]; trivial⟩
    · refine ⟨hstore ▸ h.keyed, ?_⟩
      obtain ⟨⟨t, key, row, hrow, hfiled⟩, hmax, hall⟩ := Store.spans_of_bounds h.keyed hbounds
      rw [hphase, hstore]
      exact ⟨hfiled.slash_notMem, hmax, (hall max hmax).1⟩
    · refine ⟨hstore ▸ h.keyed, ?_⟩
      have hsafe := h.phase
      rw [hjudging] at hsafe
      obtain ⟨hslash, hmax, hle⟩ := hsafe
      have hlt : min < max := Decidable.byContradiction fun hnot =>
        ne_of_evaluate hverdict (StrictOrder.connex hnot hle)
      rw [hphase, hstore]
      exact ⟨hslash, max, hmax, hlt⟩
    · have hsafe := h.phase
      rw [hdropping] at hsafe
      obtain ⟨hslash, p, hp, hlt⟩ := hsafe
      rcases hstore with hstore | hstore
      · refine ⟨hstore ▸ h.keyed, ?_⟩
        rw [hphase, hstore]
        exact ⟨hslash, p, hp, hlt⟩
      · refine ⟨by rw [hstore]; exact Store.keyed_dropPartition h.keyed, ?_⟩
        rw [hphase, hstore]
        exact ⟨hslash, p, Store.holdsAny_dropPartition h.keyed hslash hp
          (fun hsame => String.lt_irrefl p (hsame ▸ hlt)), hlt⟩

theorem Safe.exists_not_lt {g : Granularity} {x : Shared} (h : x.Safe) (t : Transaction)
    {p : String} (hp : x.store.HoldsAny p) :
    ∃ q, (x.step policy footprint g t).store.HoldsAny q ∧ ¬ q < p := by
  cases t with
  | ingest stage keepMinor r => exact ⟨p, Stage.holdsAny_after hp stage, String.lt_irrefl p⟩
  | retain now locked =>
    obtain ⟨y, hy⟩ : ∃ y, x.advance policy footprint now locked = y := ⟨_, rfl⟩
    show ∃ q, (x.advance policy footprint now locked).store.HoldsAny q ∧ ¬ q < p
    rw [hy]
    rcases advance_cases now locked x y hy with
      ⟨hstore, -⟩ | ⟨_, _, -, -, hstore, -⟩ | ⟨_, _, _, -, -, hstore, -⟩ |
      ⟨partition, t, _, _, _, _, _, hdropping, hstore | hstore, -⟩
    · exact ⟨p, hstore ▸ hp, String.lt_irrefl p⟩
    · exact ⟨p, hstore ▸ hp, String.lt_irrefl p⟩
    · exact ⟨p, hstore ▸ hp, String.lt_irrefl p⟩
    · exact ⟨p, hstore ▸ hp, String.lt_irrefl p⟩
    · have hsafe := h.phase
      rw [hdropping] at hsafe
      obtain ⟨hslash, q, hq, hlt⟩ := hsafe
      rw [hstore]
      by_cases hsame : p = partition
      · have hne : q ≠ partition := fun hsame => String.lt_irrefl q (hsame ▸ hlt)
        exact ⟨q, Store.holdsAny_dropPartition h.keyed hslash hq hne,
          hsame ▸ String.lt_asymm hlt⟩
      · exact ⟨p, Store.holdsAny_dropPartition h.keyed hslash hp hsame, String.lt_irrefl p⟩

/-- A row that is gone after a transaction was in the partition that was being dropped. -/
theorem Safe.oldest?_of_gone {g : Granularity} {x : Shared} (h : x.Safe) (t : Transaction)
    {key row : String} (hrow : x.store.get? key = some row)
    (hgone : (x.step policy footprint g t).store.get? key = none) :
    ∃ partition, x.phase.oldest? = some partition ∧ Store.partitionOf? key = some partition := by
  cases t with
  | ingest stage keepMinor r =>
    exact absurd hgone (Stage.get?_after_ne_none (by rw [hrow]; simp) stage)
  | retain now locked =>
    obtain ⟨y, hy⟩ : ∃ y, x.advance policy footprint now locked = y := ⟨_, rfl⟩
    rw [show x.step policy footprint g (.retain now locked) = y from hy] at hgone
    have hsame : y.store ≠ x.store := by
      intro hsame
      rw [hsame, hrow] at hgone
      cases hgone
    rcases advance_cases now locked x y hy with
      ⟨hstore, -⟩ | ⟨_, _, -, -, hstore, -⟩ | ⟨_, _, _, -, -, hstore, -⟩ |
      ⟨partition, t, _, _, _, _, _, hdropping, hstore | hstore, -⟩
    · exact absurd hstore hsame
    · exact absurd hstore hsame
    · exact absurd hstore hsame
    · exact absurd hstore hsame
    · have hsafe := h.phase
      rw [hdropping] at hsafe
      rw [hstore] at hgone
      have hfiled := Store.filed_of_get?_dropPartition h.keyed hsafe.1 hrow hgone
      exact ⟨partition, by rw [hdropping]; rfl,
        Store.partitionOf?_eq_some_iff.mpr ⟨t, hfiled⟩⟩

/-! ### Runs -/

variable {g : Granularity} {s : Store} {ts : Nat → Transaction}

theorem safe_interleaved (h : s.Keyed) (n : Nat) :
    (interleaved policy footprint g s ts n).Safe := by
  induction n with
  | zero => exact ⟨h, trivial⟩
  | succ n ih => exact ih.step (ts n)

/-- A cycle that is under way has read the bounds of the store as they were when it started. -/
theorem exists_start {n : Nat} {partition : String}
    (h : (interleaved policy footprint g s ts n).phase.oldest? = some partition) :
    ∃ m < n, ∃ max, (interleaved policy footprint g s ts m).phase = .idle ∧
      (interleaved policy footprint g s ts m).store.bounds = .ok (some (partition, max)) ∧
      ∀ l, m < l → l ≤ n → (interleaved policy footprint g s ts l).phase ≠ .idle := by
  induction n with
  | zero => cases h
  | succ n ih =>
    have hnot : (interleaved policy footprint g s ts (n + 1)).phase ≠ .idle := by
      intro hidle
      rw [hidle] at h
      cases h
    -- The cycle goes on from the step before, or it has been started by this step.
    have hcontinues : (interleaved policy footprint g s ts n).phase.oldest? = some partition →
        ∃ m < n + 1, ∃ max, (interleaved policy footprint g s ts m).phase = .idle ∧
          (interleaved policy footprint g s ts m).store.bounds = .ok (some (partition, max)) ∧
          ∀ l, m < l → l ≤ n + 1 → (interleaved policy footprint g s ts l).phase ≠ .idle := by
      intro hbefore
      obtain ⟨m, hm, max, hidle, hbounds, hbusy⟩ := ih hbefore
      refine ⟨m, Nat.lt_succ_of_lt hm, max, hidle, hbounds, fun l hl hln => ?_⟩
      rcases Nat.le_succ_iff.mp hln with hln | rfl
      · exact hbusy l hl hln
      · exact hnot
    cases ht : ts n with
    | ingest stage keepMinor r =>
      rw [interleaved, ht] at h
      exact hcontinues h
    | retain now locked =>
      obtain ⟨y, hy⟩ : ∃ y, (interleaved policy footprint g s ts n).advance policy footprint now
        locked = y := ⟨_, rfl⟩
      rw [interleaved, ht] at h hnot
      rw [show (interleaved policy footprint g s ts n).step policy footprint g
        (.retain now locked) = y from hy] at h hnot
      rcases advance_cases now locked _ y hy with
        ⟨-, hphase⟩ | ⟨min, max, hidle, hbounds, -, hphase⟩ |
        ⟨min, max, _, hjudging, -, -, hphase⟩ |
        ⟨_, _, _, _, _, _, _, hdropping, -, hphase⟩
      · exact absurd hphase hnot
      · rw [hphase] at h
        cases h
        refine ⟨n, Nat.lt_succ_self n, max, hidle, hbounds, fun l hl hln => ?_⟩
        obtain rfl : l = n + 1 := by omega
        rw [interleaved, ht]
        exact fun hidle => hnot (hy ▸ hidle)
      · rw [hphase] at h
        exact hcontinues (by rw [hjudging]; exact h)
      · rw [hphase] at h
        exact hcontinues (by rw [hdropping]; exact h)

theorem not_lt_trans {p q q' : String} (h : ¬ q < p) (h' : ¬ q' < q) : ¬ q' < p :=
  String.not_lt.mpr (String.le_trans (String.not_lt.mp h) (String.not_lt.mp h'))

theorem exists_not_lt_interleaved (h : s.Keyed) {m n : Nat} (hmn : m ≤ n) {p : String}
    (hp : (interleaved policy footprint g s ts m).store.HoldsAny p) :
    ∃ q, (interleaved policy footprint g s ts n).store.HoldsAny q ∧ ¬ q < p := by
  induction n, hmn using Nat.le_induction with
  | base => exact ⟨p, hp, String.lt_irrefl p⟩
  | succ n _ ih =>
    obtain ⟨q, hq, hqp⟩ := ih
    obtain ⟨q', hq', hqq'⟩ := (safe_interleaved h n).exists_not_lt (ts n) hq
    exact ⟨q', hq', not_lt_trans hqp hqq'⟩

/-- **Retention and ingestion interleave safely.** Starting from an ingested history that is not
empty, whatever stages run between the transactions of the cycles and whichever tables refuse: the
newest partition is never an older one than before, some row is left, and every row that goes is in
the partition that was the oldest one when its cycle read the bounds. -/
theorem interleaved_spares_newest (g : Granularity) (keepMinor : Bool) (os : List Observation)
    (policy : RetentionPolicy) (footprint : Store → Nat) (ts : Nat → Transaction)
    (hne : ingested g keepMinor os ≠ .empty) :
    (∀ m n, m ≤ n → ∃ p q,
      (interleaved policy footprint g (ingested g keepMinor os) ts m).store.Newest p ∧
      (interleaved policy footprint g (ingested g keepMinor os) ts n).store.Newest q ∧ ¬ q < p) ∧
    (∀ n, (interleaved policy footprint g (ingested g keepMinor os) ts n).store ≠ .empty) ∧
    ∀ n key row,
      (interleaved policy footprint g (ingested g keepMinor os) ts n).store.get? key = some row →
      (interleaved policy footprint g (ingested g keepMinor os) ts (n + 1)).store.get? key = none →
      ∃ m < n, ∃ min max,
        (interleaved policy footprint g (ingested g keepMinor os) ts m).phase = .idle ∧
        (interleaved policy footprint g (ingested g keepMinor os) ts m).store.bounds =
          .ok (some (min, max)) ∧
        (∀ l, m < l → l ≤ n →
          (interleaved policy footprint g (ingested g keepMinor os) ts l).phase ≠ .idle) ∧
        Store.partitionOf? key = some min := by
  have hkeyed : (ingested g keepMinor os).Keyed := (grounded_processAll g keepMinor os).keyed
  have hsafe : ∀ n, (interleaved policy footprint g (ingested g keepMinor os) ts n).Safe :=
    fun n => safe_interleaved hkeyed n
  obtain ⟨p₀, hp₀⟩ := Store.exists_holdsAny hkeyed hne
  refine ⟨fun m n hmn => ?_, fun n => ?_, fun n key row hrow hgone => ?_⟩
  · obtain ⟨p₁, hp₁, -⟩ := exists_not_lt_interleaved (m := 0) hkeyed (Nat.zero_le m) hp₀
    obtain ⟨p, hp⟩ := Store.exists_newest (hsafe m).keyed hp₁
    obtain ⟨q₁, hq₁, hle⟩ := exists_not_lt_interleaved hkeyed hmn hp.1
    obtain ⟨q, hq⟩ := Store.exists_newest (hsafe n).keyed hq₁
    exact ⟨p, q, hp, hq, not_lt_trans hle (hq.2 q₁ hq₁)⟩
  · obtain ⟨p, hp, -⟩ := exists_not_lt_interleaved (m := 0) hkeyed (Nat.zero_le n) hp₀
    exact hp.ne_empty
  · obtain ⟨min, hphase, hpartition⟩ := (hsafe n).oldest?_of_gone (ts n) hrow hgone
    obtain ⟨m, hm, max, hidle, hbounds, hbusy⟩ := exists_start hphase
    exact ⟨m, hm, min, max, hidle, hbounds, hbusy, hpartition⟩

/-- A job observed at a second; its payload tells nothing about it. -/
def jobAt (second : Int) : Observation := ⟨startAt second, "Job", .update, "\x7b\x7d"⟩

/-- A job is observed on the second day of 2019, and, after a cycle has read the bounds, another
observation of the first day arrives. -/
def lateArrival : Nat → Transaction
  | 0 => .ingest .watch true ⟨jobAt 1546387200, .initial, .initial⟩
  | 2 => .ingest .watch true ⟨jobAt 1546300860, .initial, .initial⟩
  | _ => .retain (startAt 1546387200) []

/-- What the transactions of `lateArrival` leave of a history of the first day, if the manager keeps
an hour. -/
def afterLateArrival : Nat → Shared :=
  interleaved ⟨.ofSeconds 3600, 0⟩ Store.bytes .day (ingested .day true [jobAt 1546300800])
    lateArrival

/-- An observation that arrives late goes with the partition that was the oldest before it came. -/
theorem interleaved_drops_late_arrival :
    ingested .day true [jobAt 1546300800] ≠ .empty ∧
      ((afterLateArrival 2).store.get? "/watch/001546300800/Job///1546300860000000000" = none ∧
        ∃ row, (afterLateArrival 4).store.get?
          "/watch/001546300800/Job///1546300860000000000" = some row) ∧
      ∃ m < 4, ∃ min max, (afterLateArrival m).phase = .idle ∧
        (afterLateArrival m).store.bounds = .ok (some (min, max)) ∧
        (∀ l, m < l → l ≤ 4 → (afterLateArrival l).phase ≠ .idle) ∧
        Store.partitionOf? "/watch/001546300800/Job///1546300860000000000" = some min := by
  have hne : ingested .day true [jobAt 1546300800] ≠ .empty := by decide +kernel
  have hbefore : (afterLateArrival 2).store.get?
      "/watch/001546300800/Job///1546300860000000000" = none := by decide +kernel
  have hkept : ((afterLateArrival 4).store.get?
      "/watch/001546300800/Job///1546300860000000000").isSome := by decide +kernel
  have hgone : (afterLateArrival 5).store.get?
      "/watch/001546300800/Job///1546300860000000000" = none := by decide +kernel
  obtain ⟨row, hrow⟩ := Option.isSome_iff_exists.mp hkept
  obtain ⟨-, -, hremoved⟩ := interleaved_spares_newest .day true [jobAt 1546300800]
    ⟨.ofSeconds 3600, 0⟩ Store.bytes lateArrival hne
  exact ⟨hne, ⟨hbefore, row, hrow⟩, hremoved 4 _ row hrow hgone⟩

end Shared

end WatchHistory
