import WatchHistory.Json.Tree

/-!
# JSON texts over several lines

Every item and member stands on a line of its own, two blanks further in than the array or object
that holds it. Empty arrays and objects stay on one line.
-/

set_option autoImplicit false

namespace WatchHistory.Json

/-- The start of a line at a depth of nesting. -/
def newLine (depth : Nat) : List Char := '\n' :: List.replicate (2 * depth) ' '

mutual

def prettyChars (depth : Nat) : Json → List Char
  | .array (j :: js) =>
    '[' :: newLine (depth + 1) ++ prettyItems (depth + 1) (j :: js) ++ newLine depth ++ [']']
  | .object (m :: ms) =>
    '\x7b' :: newLine (depth + 1) ++ prettyMembers (depth + 1) (m :: ms) ++ newLine depth ++
      ['\x7d']
  | j => renderChars j

/-- The items with a comma and a new line between them. -/
def prettyItems (depth : Nat) : List Json → List Char
  | [] => []
  | [j] => prettyChars depth j
  | j :: k :: js => prettyChars depth j ++ ',' :: newLine depth ++ prettyItems depth (k :: js)

/-- The members with a comma and a new line between them. -/
def prettyMembers (depth : Nat) : List (List Char × Json) → List Char
  | [] => []
  | [(name, j)] => quote name ++ [':', ' '] ++ prettyChars depth j
  | (name, j) :: m :: ms =>
    quote name ++ [':', ' '] ++ prettyChars depth j ++ ',' :: newLine depth ++
      prettyMembers depth (m :: ms)

end

/-- The text of a tree over several lines. -/
def pretty (j : Json) : String := String.ofList (prettyChars 0 j)

end WatchHistory.Json
