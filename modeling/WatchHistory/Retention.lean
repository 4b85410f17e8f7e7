import WatchHistory.Store.Bounds

/-!
# Retention

Each cycle looks at the oldest partition of the store. If it is older than the history is kept, or
the store takes more than its budget of bytes, that partition is dropped from every table. The only
partition of a store is never dropped, because it is the one being written to.

* `RetentionPolicy.evaluate` decides, and `Retention.check` is one cycle.
* `Retention.catchUp` runs cycles as long as they remove something.
-/

set_option autoImplicit false

namespace WatchHistory

structure RetentionPolicy where
  /-- How long the history is kept. -/
  maxLookback : Duration
  /-- How many bytes the store may take; zero stands for any number. -/
  maxBytes : Nat
deriving DecidableEq

/-- Why a partition is dropped. -/
inductive Trigger
  | age
  | size
deriving DecidableEq

/-- A table that could not drop its rows. -/
structure RetentionFailure where
  table : Table
  partition : String
  cause : StoreError
deriving DecidableEq

def RetentionFailure.message (f : RetentionFailure) : String :=
  "failed to drop partition " ++ f.partition ++ " from " ++ f.table.name ++ ": " ++ f.cause.message

/-- What a cycle did. -/
inductive CycleOutcome
  | empty
  | withinBudget
  | dropped (partition : String) (trigger : Trigger) (keysRemoved : Nat)
      (failures : List RetentionFailure)
deriving DecidableEq

namespace RetentionPolicy

/-- Whether the oldest partition `min` has to go, for a store of `footprint` bytes whose newest
partition is `max`. -/
def evaluate (policy : RetentionPolicy) (footprint : Nat) (now : Instant) (min max : String) :
    Except StoreError (Option Trigger) := do
  if min = max then return none
  let start ← Partition.start min
  if policy.maxLookback.nanos < (now.since start).toNat then return some .age
  if policy.maxBytes ≠ 0 ∧ policy.maxBytes < footprint then return some .size
  return none

end RetentionPolicy

structure RetentionCounters where
  cycles : Nat
  /-- Partitions dropped from every table. -/
  partitionsDropped : Nat
  keysRemoved : Nat
  failures : Nat
deriving DecidableEq

namespace RetentionCounters

def zero : RetentionCounters := ⟨0, 0, 0, 0⟩

/-- Count a drop. -/
def addDrop (c : RetentionCounters) (keysRemoved : Nat) (failures : List RetentionFailure) :
    RetentionCounters :=
  { c with
    partitionsDropped := c.partitionsDropped + if failures.isEmpty then 1 else 0
    keysRemoved := c.keysRemoved + keysRemoved
    failures := c.failures + failures.length }

end RetentionCounters

/-- A drop of one partition on its way through the tables. -/
structure Drop where
  store : Store
  keysRemoved : Nat
  failures : List RetentionFailure

namespace Drop

/-- Drop a partition of one table. A table in `locked` refuses. -/
def dropTable (locked : List Table) (partition : String) (s : Store) (t : Table) :
    Except StoreError (Store × Nat) :=
  if t ∈ locked then .error (.readOnly t) else .ok (s.dropPartition t partition)

/-- Go on with one more table; one that refuses keeps its rows. -/
def step (locked : List Table) (partition : String) (d : Drop) (t : Table) : Drop :=
  match dropTable locked partition d.store t with
  | .ok (s, removed) => { d with store := s, keysRemoved := d.keysRemoved + removed }
  | .error cause => { d with failures := d.failures ++ [⟨t, partition, cause⟩] }

/-- Drop a partition of every table. -/
def all (locked : List Table) (partition : String) (s : Store) : Drop :=
  Table.all.foldl (step locked partition) ⟨s, 0, []⟩

end Drop

/-- A store and what retention has done to it. -/
structure Retention where
  store : Store
  counters : RetentionCounters

namespace Retention

/-- The oldest partition and why it has to go, or why it need not. -/
def judge (policy : RetentionPolicy) (footprint : Store → Nat) (now : Instant) (s : Store) :
    Except StoreError (CycleOutcome ⊕ (String × Trigger)) := do
  match ← s.bounds with
  | none => return .inl .empty
  | some (min, max) =>
    match ← policy.evaluate (footprint s) now min max with
    | none => return .inl .withinBudget
    | some trigger => return .inr (min, trigger)

/-- Run one cycle, which drops at most one partition. -/
def check (policy : RetentionPolicy) (locked : List Table) (footprint : Store → Nat)
    (now : Instant) (r : Retention) : Retention × Except StoreError CycleOutcome :=
  let counters := { r.counters with cycles := r.counters.cycles + 1 }
  match judge policy footprint now r.store with
  | .error e => (⟨r.store, counters⟩, .error e)
  | .ok (.inl outcome) => (⟨r.store, counters⟩, .ok outcome)
  | .ok (.inr (partition, trigger)) =>
    let drop := Drop.all locked partition r.store
    (⟨drop.store, counters.addDrop drop.keysRemoved drop.failures⟩,
      .ok (.dropped partition trigger drop.keysRemoved drop.failures))

/-- Whether the next cycle starts right away: after a drop in which no table refused. -/
def isCleanDrop : Except StoreError CycleOutcome → Bool
  | .ok (.dropped _ _ _ failures) => failures.isEmpty
  | _ => false

/-- Run cycles until one drops nothing or a table refuses. A cycle that drops a partition may still
remove no row, if all rows of the partition lie outside the range of its stem. It would then be
repeated for ever without a change, so the cycles are cut off there, which leaves the same store
(`exists_cycles_eq_catchUp`). -/
def catchUp (policy : RetentionPolicy) (locked : List Table) (footprint : Store → Nat)
    (now : Instant) (r : Retention) : Retention :=
  let (next, outcome) := check policy locked footprint now r
  if isCleanDrop outcome then
    if next.store.rows.size < r.store.rows.size then catchUp policy locked footprint now next
    else next
  else next
termination_by r.store.rows.size

end Retention

end WatchHistory
