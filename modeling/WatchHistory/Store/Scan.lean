import WatchHistory.Store.Rows

/-!
# Scans

Reading the rows of a table over a span of time, and finding the last row before a key.

* `Store.scan` reads the rows of the partitions from one instant to another, narrowed by a stem and
  by a test on keys and one on rows.
* `Store.previousKey` searches the partition of a key, and then older partitions from the newest to
  the oldest.
-/

set_option autoImplicit false

namespace WatchHistory

/-- What a scan found, and how many rows it saw. -/
structure Scan (t : Table) where
  rows : SortedMap (Key t) t.Row
  /-- Partitions in which at least one row was visited. -/
  partitions : Nat
  visited : Nat
  /-- Visited rows whose keys passed the test on keys. -/
  passedKey : Nat
  /-- Rows that also passed the test on rows. -/
  passedRow : Nat

namespace Scan

variable {t : Table}

def empty : Scan t := ⟨.empty, 0, 0, 0, 0⟩

/-- Add the rows of one more partition. Rows whose key or text cannot be read are passed over. -/
def visit (scan : Scan t) (found : List (String × String)) (key : String → Bool)
    (row : t.Row → Bool) : Scan t :=
  let keyed := found.filter fun r => key r.1
  let passed := keyed.filterMap fun r =>
    match Key.parse t r.1, t.read? r.2 with
    | .ok k, some v => if row v then some (k, v) else none
    | _, _ => none
  { rows := passed.foldl (fun m e => m.insert e.1 e.2) scan.rows
    partitions := scan.partitions + if found.isEmpty then 0 else 1
    visited := scan.visited + found.length
    passedKey := scan.passedKey + keyed.length
    passedRow := scan.passedRow + passed.length }

end Scan

namespace Store

variable {t : Table}

/-- The rows of one partition that a stem covers, or all of them without a stem. -/
def covered (s : Store) (t : Table) (partition : String) (stem : Option (Key t)) :
    List (String × String) :=
  let seek := match stem with
    | some stem => (stem.retarget partition).render
    | none => t.partitionStem partition
  (s.under seek).filter fun row => Key.covers seek row.1

/-- The rows of a table in the partitions from the one that holds `start` to the one that holds
`stop`. -/
def scan (s : Store) (g : Granularity) (stem : Option (Key t)) (key : String → Bool)
    (row : t.Row → Bool) (start stop : Instant) : Except StoreError (Scan t) := do
  match ← s.tableBounds t with
  | none => return .empty
  | some (min, max) =>
    let first := latest (g.partitionOf start) min
    let last := earliest (g.partitionOf stop) max
    let partitions ← g.between first last
    return partitions.foldl (fun found p => found.visit (s.covered t p stem) key row) .empty

/-! ## The last row before a key -/

/-- The last key of a partition that a comparator covers, and that comes before `upper`. -/
def lastMatch? (s : Store) (partition : String) (comparator : Key t) (upper : Option String) :
    Option (Key t) :=
  let lower := (comparator.retarget partition).render
  let stop := match upper with
    | some upper => earliest (stemEnd lower) upper
    | none => stemEnd lower
  (s.between lower stop).reverse.findSome? fun row =>
    if Key.covers lower row.1 then (Key.parse t row.1).toOption else none

/-- The last key before `k` that agrees with the comparator in all but the partition. A key that is
not complete stands for all that continue it. -/
def previousKey (s : Store) (g : Granularity) (k comparator : Key t) :
    Except StoreError (Key t) := do
  let text := k.render
  let upper := match Key.parse t text with
    | .ok _ => text
    | .error _ => stemEnd text
  match s.lastMatch? k.partition comparator (some upper) with
  | some found => return found
  | none =>
    let older := (← s.tablePartitions g t).reverse.filter fun p => p < k.partition
    match older.findSome? fun p => s.lastMatch? p comparator none with
    | some found => return found
    | none => throw (.noEarlier text comparator.render)

end Store

end WatchHistory
