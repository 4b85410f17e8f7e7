import WatchHistory.Error
import WatchHistory.Instant.Rfc3339
import WatchHistory.Partition
import WatchHistory.Text.Segments

/-!
# Keys of rows

A key is written `/<table>/<partition>/<kind>/<namespace>/<name>/<last>`, where `<last>` is the uid
of an object or, in the table of observations, a number of nanoseconds. Empty segments at the end
are left out, so a key whose last fields are empty is the stem of the keys that fill them.

* `Key.render` writes a key and `Key.parse` reads a complete one.
* `Key.covers` tells whether a key continues a stem at the end of a segment.
* `AnyKey.parse` finds the table first.
-/

set_option autoImplicit false

namespace WatchHistory

/-- What the last segment of a table's keys tells: when an object was observed, or its uid. -/
@[reducible] def Table.Last : Table → Type
  | .watch => Option Instant
  | .summary | .eventCount | .activity | .relation => String

namespace Table

instance : (t : Table) → DecidableEq t.Last
  | .watch => inferInstanceAs (DecidableEq (Option Instant))
  | .summary | .eventCount | .activity | .relation => inferInstanceAs (DecidableEq String)

instance : (t : Table) → StrictOrder t.Last
  | .watch => inferInstanceAs (StrictOrder (Option Instant))
  | .summary | .eventCount | .activity | .relation => inferInstanceAs (StrictOrder String)

end Table

/-- The key of a row of the table `t`, or the stem of such keys. -/
structure Key (t : Table) where
  partition : String
  kind : String
  /-- The namespace of the object. -/
  ns : String
  name : String
  last : t.Last
deriving DecidableEq

namespace Key

variable {t : Table}

/-- The key of an object in the partition of an instant. -/
def within (g : Granularity) (t : Table) (time : Instant) (kind ns name : String) (last : t.Last) :
    Key t :=
  ⟨g.partitionOf time, kind, ns, name, last⟩

/-- The key of one observation. -/
def observation (g : Granularity) (kind ns name : String) (time : Instant) : Key .watch :=
  within g .watch time kind ns name (some time)

/-- The stem of every observation of an object in the partition of an instant. -/
def observations (g : Granularity) (time : Instant) (kind ns name : String) : Key .watch :=
  within g .watch time kind ns name none

/-- A key of no partition, to be compared with keys of any. -/
def comparator (t : Table) (kind ns name : String) (last : t.Last) : Key t :=
  ⟨"", kind, ns, name, last⟩

/-- The key moved to another partition. -/
def retarget (k : Key t) (partition : String) : Key t := { k with partition := partition }

/-! ## Order -/

/-- The order of the five fields, one after the other. -/
@[reducible] def fieldOrder (t : Table) :
    StrictOrder (String × String × String × String × t.Last) :=
  @StrictOrder.lex _ _ _ (@StrictOrder.lex _ _ _ (@StrictOrder.lex _ _ _ (StrictOrder.lex _ _)))

/-- Keys are ordered field by field. -/
instance : StrictOrder (Key t) :=
  @StrictOrder.pullback _ _ (fieldOrder t)
    (fun k => (k.partition, k.kind, k.ns, k.name, k.last)) fun {a b} h => by
      cases a; cases b; simpa using h

/-! ## Writing -/

/-- The nanoseconds of an instant where they have 64 bits, and its RFC 3339 text elsewhere. -/
def instantText (time : Instant) : List Char :=
  if Decimal.fits time.totalNanos then Decimal.ofInt time.totalNanos
  else Rfc3339.write "+00:00".toList time

def lastText : (t : Table) → t.Last → List Char
  | .watch, none => []
  | .watch, some time => instantText time
  | .summary, uid | .eventCount, uid | .activity, uid | .relation, uid => uid.toList

/-- The segments after the table's name. -/
def fields (k : Key t) : List (List Char) :=
  [k.partition.toList, k.kind.toList, k.ns.toList, k.name.toList, lastText t k.last]

/-- The segments up to the last one that is not empty. -/
def dropEmptyEnd (segments : List (List Char)) : List (List Char) :=
  (segments.reverse.dropWhile List.isEmpty).reverse

def render (k : Key t) : String :=
  String.ofList ('/' :: Text.join '/' (dropEmptyEnd (t.name.toList :: k.fields)))

/-! ## Reading -/

def readLast? : (t : Table) → List Char → Option t.Last
  | .watch, cs => ((Decimal.int? cs).bind Instant.ofNanos?).map some
  | .summary, cs | .eventCount, cs | .activity, cs | .relation, cs => some (String.ofList cs)

/-- Read a complete key: an empty segment, the table's name and five more segments. -/
def parse (t : Table) (text : String) : Except KeyFault (Key t) :=
  match Text.split '/' text.toList with
  | [root, table, partition, kind, ns, name, last] =>
    if root ≠ [] then .error (.noLeadingSlash text)
    else if table ≠ t.name.toList then .error (.otherTable t text)
    else match readLast? t last with
      | none => .error (.badTimestamp text)
      | some last => .ok ⟨String.ofList partition, String.ofList kind, String.ofList ns,
          String.ofList name, last⟩
  | segments => .error (.segments (segments.length - 1) text)

/-! ## Stems -/

/-- Whether the candidate continues the stem and the stem ends where a segment of it ends, so that
the stem of `web` does not cover the keys of `web-2`. -/
def covers (stem candidate : String) : Bool :=
  stem.toList.isPrefixOf candidate.toList &&
    (stem.toList.getLast? = some '/' ||
      match candidate.toList.drop stem.toList.length with
      | [] => true
      | c :: _ => c = '/')

end Key

/-- A key of some table. -/
structure AnyKey where
  table : Table
  key : Key table
deriving DecidableEq

namespace AnyKey

/-- The second segment of a text, where the name of the table stands. -/
def tableName (text : String) : String :=
  String.ofList ((Text.split '/' text.toList).tail.headD [])

/-- Read a complete key of the table that it names. -/
def parse (text : String) : Except KeyFault AnyKey :=
  match Table.ofName? (tableName text) with
  | some t => (Key.parse t text).map (AnyKey.mk t)
  | none => .error (.unknownTable (tableName text) text)

def partition (k : AnyKey) : String := k.key.partition

def render (k : AnyKey) : String := k.key.render

end AnyKey

end WatchHistory
