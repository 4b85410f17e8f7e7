import WatchHistory.Json.Decode

/-!
# Activity

The Unix seconds at which one object was observed within one partition, told apart by whether it
had changed since the observation before.
-/

set_option autoImplicit false

namespace WatchHistory

structure Activity where
  changedAt : List Int
  noChangeAt : List Int
deriving DecidableEq

namespace Activity

/-- The activity of an object never observed. -/
def initial : Activity := ⟨[], []⟩

/-- Add an observation at the end of the list it belongs to. -/
def record (a : Activity) (changed : Bool) (second : Int) : Activity :=
  if changed then { a with changedAt := a.changedAt ++ [second] }
  else { a with noChangeAt := a.noChangeAt ++ [second] }

def toJson (a : Activity) : Json :=
  .ofMembers [("changed_at", .array (a.changedAt.map Json.ofInt)),
    ("no_change_at", .array (a.noChangeAt.map Json.ofInt))]

def ofJson? (j : Json) : Option Activity := do
  match ← j.fields? ["changed_at", "no_change_at"] with
  | [changedAt, noChangeAt] =>
    return {
      changedAt := ← changedAt.default? [] (Json.list? Json.int?)
      noChangeAt := ← noChangeAt.default? [] (Json.list? Json.int?) }
  | _ => none

end Activity

end WatchHistory
