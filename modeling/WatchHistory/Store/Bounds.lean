import WatchHistory.Key
import WatchHistory.Store.Basic

/-!
# Partitions in the store

Which partitions hold rows. `Store.bounds` finds the oldest and the newest one from the first and
last key of each table, and `Store.histogram` counts the rows of every partition.
-/

set_option autoImplicit false

namespace WatchHistory.Store

def minKey? (s : Store) (t : Table) : Option String := s.firstKey? t.stem

def maxKey? (s : Store) (t : Table) : Option String := s.lastKey? t.stem

/-- Read a key of the table. -/
def parseKey (t : Table) (text : String) : Except StoreError (Key t) :=
  (Key.parse t text).mapError .badKey

/-- The oldest and the newest partition that hold a row of the table. -/
def tableBounds (s : Store) (t : Table) : Except StoreError (Option (String × String)) :=
  match s.minKey? t, s.maxKey? t with
  | some first, some last => do
    let first ← parseKey t first
    let last ← parseKey t last
    return some (first.partition, last.partition)
  | _, _ => return none

def earliest (a b : String) : String := if b < a then b else a

def latest (a b : String) : String := if a < b then b else a

/-- The span of two spans. -/
def joinBounds : Option (String × String) → Option (String × String) → Option (String × String)
  | none, found => found
  | found, none => found
  | some (min, max), some (first, last) => some (earliest min first, latest max last)

/-- The oldest and the newest partition that hold a row of any table. -/
def bounds (s : Store) : Except StoreError (Option (String × String)) :=
  Table.all.foldlM (fun found t => return joinBounds found (← s.tableBounds t)) none

/-- Every partition from the oldest to the newest of the bounds, also those without rows. -/
def partitionsWithin (g : Granularity) :
    Option (String × String) → Except StoreError (List String)
  | none => return []
  | some (min, max) => g.between min max

/-- Every partition from the oldest to the newest that hold a row of the table. -/
def tablePartitions (s : Store) (g : Granularity) (t : Table) :
    Except StoreError (List String) := do
  partitionsWithin g (← s.tableBounds t)

/-- Every partition from the oldest to the newest that hold a row. -/
def partitions (s : Store) (g : Granularity) : Except StoreError (List String) := do
  partitionsWithin g (← s.bounds)

/-- Drop the rows that a table has in a partition; also how many there were. -/
def dropPartition (s : Store) (t : Table) (partition : String) : Store × Nat :=
  s.dropUnder (t.partitionStem partition)

/-! ## Counts -/

/-- How many keys a partition has, and how many of each table. -/
structure PartitionCount where
  total : Nat
  byTable : SortedMap String Nat

/-- Count one more key of a table. -/
def PartitionCount.add (c : PartitionCount) (t : Table) : PartitionCount :=
  ⟨c.total + 1, c.byTable.alter t.name 0 (· + 1)⟩

/-- The counts of every partition. Keys that are of no table are passed over. -/
def histogram (s : Store) : SortedMap String PartitionCount :=
  s.rows.keys.foldl (fun found text =>
    match AnyKey.parse text with
    | .ok key => found.alter key.partition ⟨0, .empty⟩ (·.add key.table)
    | .error _ => found) .empty

end WatchHistory.Store
