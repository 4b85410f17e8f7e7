import WatchHistory.Row.Activity
import WatchHistory.Row.EventTally
import WatchHistory.Row.Summary
import WatchHistory.Table

/-!
# The rows of each table

`Table.Row t` is what a row of the table `t` holds. In the store a row is its JSON text, which
`Table.write` produces and `Table.read?` reads.
-/

set_option autoImplicit false

namespace WatchHistory.Table

@[reducible] def Row : Table → Type
  | .watch => Observation
  | .summary | .relation => Summary
  | .eventCount => EventTally
  | .activity => Activity

instance : (t : Table) → DecidableEq t.Row
  | .watch => inferInstanceAs (DecidableEq Observation)
  | .summary | .relation => inferInstanceAs (DecidableEq Summary)
  | .eventCount => inferInstanceAs (DecidableEq EventTally)
  | .activity => inferInstanceAs (DecidableEq Activity)

/-- What stands for a missing row. -/
def initial : (t : Table) → t.Row
  | .watch => Observation.initial
  | .summary | .relation => Summary.initial
  | .eventCount => EventTally.initial
  | .activity => Activity.initial

def toJson : (t : Table) → t.Row → Json
  | .watch => Observation.toJson
  | .summary | .relation => Summary.toJson
  | .eventCount => EventTally.toJson
  | .activity => Activity.toJson

def ofJson? : (t : Table) → Json → Option t.Row
  | .watch => Observation.ofJson?
  | .summary | .relation => Summary.ofJson?
  | .eventCount => EventTally.ofJson?
  | .activity => Activity.ofJson?

/-- The stored text of a row. -/
def write (t : Table) (row : t.Row) : String := (t.toJson row).render

/-- The row of a stored text. -/
def read? (t : Table) (text : String) : Option t.Row := (Json.read? text).bind t.ofJson?

end WatchHistory.Table
