import WatchHistory.Json.Tree
import WatchHistory.SortedMap

/-!
# Reading JSON trees as domain values

A record is read from an object by the names of its fields, or from an array by their order.
`Json.fields?` brings both into one form, in which each field of the record has a slot, and the
readers of `Slot` say what an absent or a null field means.
-/

set_option autoImplicit false

namespace WatchHistory.Json

/-! ## Single values -/

def string? : Json → Option String
  | .text literal => Literal.decode? literal
  | _ => none

def int? : Json → Option Int
  | .number n => n.int?
  | _ => none

def bool? : Json → Option Bool
  | .bool b => some b
  | _ => none

/-- A value, or null for an absent one. -/
def optional? {α : Type} (read : Json → Option α) : Json → Option (Option α)
  | .null => some none
  | j => (read j).map some

/-- A value, or null for a given one. -/
def nullAs? {α : Type} (initial : α) (read : Json → Option α) : Json → Option α
  | .null => some initial
  | j => read j

def list? {α : Type} (read : Json → Option α) : Json → Option (List α)
  | .array items => items.mapM read
  | _ => none

/-- An object as a map. Of members with the same key the last one counts. -/
def map? {κ α : Type} [StrictOrder κ] (key : List Char → Option κ) (read : Json → Option α) :
    Json → Option (SortedMap κ α)
  | .object members => do
    let entries ← members.mapM fun m => do return ((← key m.1), (← read m.2))
    return SortedMap.ofList entries
  | _ => none

/-- A literal that is the numeral of a whole number, without escapes, `+` or leading zeros. -/
def intKey? (literal : List Char) : Option Int := do
  let (n, rest) ← Numeral.take? literal
  if rest.isEmpty then n.int? else none

/-! ## Records -/

/-- What a record says about one field: nothing, or a value. `positional` tells that the record is
an array. -/
structure Slot where
  positional : Bool
  value : Option Json

namespace Slot

/-- A field that has to be there. -/
def required? {α : Type} (read : Json → Option α) (s : Slot) : Option α := s.value.bind read

/-- A field that may be missing from an object, but not from an array. -/
def optional? {α : Type} (read : Json → Option α) (s : Slot) : Option (Option α) :=
  match s.value with
  | none => if s.positional then none else some none
  | some j => j.optional? read

/-- A field that may be missing. -/
def default? {α : Type} (initial : α) (read : Json → Option α) (s : Slot) : Option α :=
  match s.value with
  | none => some initial
  | some j => read j

/-- A field that may be missing or null. -/
def nullable? {α : Type} (initial : α) (read : Json → Option α) (s : Slot) : Option α :=
  s.default? initial (nullAs? initial read)

end Slot

/-- The slot of a field among the members of an object; none if the field is repeated. -/
def member? (members : List (String × Json)) (name : String) : Option Slot :=
  match members.filter fun m => m.1 = name with
  | [] => some ⟨false, none⟩
  | [m] => some ⟨false, some m.2⟩
  | _ => none

/-- The slots of the fields with the given names. The names of an object's members have to be
texts and none of the fields may be repeated; an array may be shorter than the record, but not
longer. -/
def fields? (names : List String) : Json → Option (List Slot)
  | .object members => do
    let named ← members.mapM fun m => (Literal.decode? m.1).map fun name => (name, m.2)
    names.mapM (member? named)
  | .array items =>
    if items.length ≤ names.length then
      some ((List.range names.length).map fun i => ⟨true, items[i]?⟩)
    else none
  | _ => none

end WatchHistory.Json
