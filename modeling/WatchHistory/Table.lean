/-!
# Tables

The five tables of the history. Their rows share one ordered space of keys, in which the first
segment of a key is the name of its table.
-/

set_option autoImplicit false

namespace WatchHistory

inductive Table
  /-- Every observation as it came. -/
  | watch
  /-- The lifetime of each object. -/
  | summary
  /-- The events about each object, counted by minute. -/
  | eventCount
  /-- When each object was observed. -/
  | activity
  /-- The owners and the node of each pod. -/
  | relation
deriving DecidableEq

namespace Table

/-- Every table, in the order in which they are walked. -/
def all : List Table := [watch, summary, eventCount, activity, relation]

/-- The first segment of the table's keys. -/
def name : Table → String
  | watch => "watch"
  | summary => "ressum"
  | eventCount => "eventcount"
  | activity => "watchactivity"
  | relation => "relation"

/-- The table of that name. -/
def ofName? (name : String) : Option Table := all.find? fun t => t.name = name

/-- What every key of the table starts with. -/
def stem (t : Table) : String := "/" ++ t.name ++ "/"

/-- What every key of one partition of the table starts with. -/
def partitionStem (t : Table) (partition : String) : String :=
  "/" ++ t.name ++ "/" ++ partition ++ "/"

theorem mem_all (t : Table) : t ∈ all := by cases t <;> decide

theorem name_injective {t u : Table} (h : t.name = u.name) : t = u := by
  revert h; cases t <;> cases u <;> decide

end Table

end WatchHistory
