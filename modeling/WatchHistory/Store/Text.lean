import WatchHistory.Json.Tree
import WatchHistory.Store.Basic

/-!
# Stores as text

Between two runs a store is kept as text, with one row on each line: a JSON array of its key and
its row text.
-/

set_option autoImplicit false

namespace WatchHistory.Store

/-- The line of a row. -/
def lineOf (row : String × String) : String :=
  (Json.array [.ofText row.1, .ofText row.2]).render ++ "\n"

/-- The row of a line. -/
def ofLine? (line : String) : Option (String × String) := do
  match ← Json.read? line with
  | .array [.text key, .text row] =>
    return (← Json.Literal.decode? key, ← Json.Literal.decode? row)
  | _ => none

def toText (s : Store) : String := String.join (s.rows.entries.map lineOf)

/-- How many bytes the text of a store takes. -/
def bytes (s : Store) : Nat := s.toText.utf8ByteSize

/-- The store of a list of lines; none if one of them is no row. -/
def ofLines? (lines : List String) : Option Store := do
  return ⟨SortedMap.ofList (← lines.mapM ofLine?)⟩

end WatchHistory.Store
