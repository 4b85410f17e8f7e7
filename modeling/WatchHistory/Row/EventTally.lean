import WatchHistory.Json.Decode

/-!
# Event tallies

How often events about one object happened within one partition, by minute and by reason. A row
that has lost its minutes is still read, so that it can be told from an empty one. Counts that are
read have 64 bits, and the counts that are added up are whole numbers of any size.
-/

set_option autoImplicit false

namespace WatchHistory

/-- Counts by reason. -/
abbrev ReasonCounts := SortedMap String Int

structure EventTally where
  /-- Counts under the Unix second of each minute. -/
  byMinute : Option (SortedMap Int ReasonCounts)
deriving DecidableEq

namespace EventTally

/-- The tally of an object without events. -/
def initial : EventTally := ⟨some .empty⟩

/-- The sum of every count. -/
def total (t : EventTally) : Int :=
  match t.byMinute with
  | none => 0
  | some minutes => minutes.values.foldr (fun counts n => counts.values.foldr (· + ·) 0 + n) 0

/-- Add to the count of a reason within a minute. The sum is exact: that it may have more than 64
bits is left out. -/
def addTo (minutes : SortedMap Int ReasonCounts) (minute : Int) (reason : String) (count : Int) :
    SortedMap Int ReasonCounts :=
  minutes.alter minute .empty fun counts => counts.alter reason 0 (· + count)

def reasonsToJson (counts : ReasonCounts) : Json :=
  .ofMembers [("by_reason", .ofMembers (counts.entries.map fun e => (e.1, .ofInt e.2)))]

def minutesToJson (minutes : SortedMap Int ReasonCounts) : Json :=
  .object (minutes.entries.map fun e => (Decimal.ofInt e.1, reasonsToJson e.2))

def toJson (t : EventTally) : Json :=
  .ofMembers [("by_minute", (t.byMinute.map minutesToJson).getD .null)]

def reasonsOfJson? (j : Json) : Option ReasonCounts := do
  match ← j.fields? ["by_reason"] with
  | [byReason] => byReason.default? .empty (Json.map? Json.Literal.decode? Json.int?)
  | _ => none

def ofJson? (j : Json) : Option EventTally := do
  match ← j.fields? ["by_minute"] with
  | [byMinute] =>
    return ⟨← byMinute.optional? (Json.map? Json.intKey? reasonsOfJson?)⟩
  | _ => none

end EventTally

end WatchHistory
