import WatchHistory.Duration
import WatchHistory.Error
import WatchHistory.Instant.Basic

/-!
# Partitions of time

Time is cut into partitions of one hour or one day. A partition's id is the Unix second of its
start, filled up to twelve digits, so for starts of at most twelve digits the order of the ids is
the order of time.

* `Partition.start` reads an id; `Granularity.partitionOf` gives the id of an instant.
* `Granularity.between` lists the ids from one partition to another.
-/

set_option autoImplicit false

namespace WatchHistory

/-- The length of every partition. -/
inductive Granularity
  | hour
  | day
deriving DecidableEq

namespace Partition

/-- The number of digits of an id. -/
def idWidth : Nat := 12

/-- The first second whose id would need more digits. -/
def idLimit : Int := 1000000000000

/-- The start of a partition. The id has to be twelve digits, but need not be a multiple of the
granularity. -/
def start (id : String) : Except StoreError Instant :=
  if id.toList.length = idWidth && id.toList.all Char.isDigit then
    match Instant.ofSeconds? (Decimal.value id.toList) with
    | some t => .ok t
    | none => .error (.badPartition id)
  else .error (.badPartition id)

/-- The id of the partition that starts at a second. -/
def idAt (second : Int) : String := String.ofList (Decimal.paddedInt idWidth second)

end Partition

namespace Granularity

/-- The seconds in a partition. -/
def seconds : Granularity → Int
  | hour => 3600
  | day => 86400

def name : Granularity → String
  | hour => "hour"
  | day => "day"

/-- Exactly one hour or exactly one day. -/
def ofDuration (d : Duration) : Except StoreError Granularity :=
  if d = Duration.ofSeconds 3600 then .ok hour
  else if d = Duration.ofSeconds 86400 then .ok day
  else .error (.badGranularity d.text)

/-- The granularity of a name, in any case and between any blanks. -/
def read (text : String) : Except StoreError Granularity :=
  let word := String.ofList ((Text.trim text.toList).map Char.toLower)
  if word = "hour" || word = "1h" then .ok hour
  else if word = "day" || word = "24h" || word = "1d" then .ok day
  else .error (.badGranularity word)

theorem seconds_pos (g : Granularity) : 0 < g.seconds := by cases g <;> decide

/-- The last multiple of the granularity up to a second. -/
def floor (g : Granularity) (second : Int) : Int := second - second % g.seconds

/-- The id of the partition that holds an instant. -/
def partitionOf (g : Granularity) (t : Instant) : String := Partition.idAt (g.floor t.seconds)

/-- The start of a partition and its end, which belongs to the next one. -/
def interval (g : Granularity) (id : String) : Except StoreError (Instant × Instant) := do
  let start ← Partition.start id
  return (start, start.shift g.seconds)

/-- The id of the partition that starts where one ends. -/
def next (g : Granularity) (id : String) : Except StoreError String := do
  let (_, stop) ← g.interval id
  return g.partitionOf stop

/-- The ids from the one that starts at `second` on, as long as they are not after `last`, behind
the ids found `earlier`. It fails at an id of more than twelve digits that is not after `last`. -/
def idsUpTo (g : Granularity) (last : String) (second : Int) (earlier : List String) :
    Except StoreError (List String) :=
  let id := Partition.idAt second
  if last < id then .ok earlier.reverse
  else if second < Partition.idLimit then g.idsUpTo last (second + g.seconds) (id :: earlier)
  else .error (.badPartition id)
termination_by (Partition.idLimit - second).toNat
decreasing_by
  have := g.seconds_pos
  omega

/-- Every id from the partition of `first` up to `last`, whether or not a row is in it. -/
def between (g : Granularity) (first last : String) : Except StoreError (List String) := do
  let _ ← Partition.start last
  let start ← Partition.start first
  g.idsUpTo last (g.floor start.seconds) []

end Granularity

end WatchHistory
