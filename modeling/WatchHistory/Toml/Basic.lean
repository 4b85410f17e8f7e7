/-!
# TOML documents

A `Toml` value keeps what a reader of configurations asks for: texts, integers, truth values,
arrays and tables. Of floats and times it only tells that they are there.

A table knows how it came about, because that decides what may still be added to it:

* a table `written` under its own header can be reached by other headers, but not by dotted keys;
* a table `implied` by the header of one below it may still get a header;
* a `dotted` table may get more dotted keys;
* an `inline` table is complete.
-/

set_option autoImplicit false

namespace WatchHistory

namespace Toml

/-- How a table came about. -/
inductive Origin
  | written
  | implied
  | dotted
  | inline
deriving DecidableEq

end Toml

inductive Toml
  | text (value : String)
  | integer (value : Int)
  | float
  | bool (value : Bool)
  | time
  | array (items : List Toml)
  | table (origin : Toml.Origin) (entries : List (String × Toml))
  /-- An array of tables, each of which has a header of its own. -/
  | tables (items : List (List (String × Toml)))

namespace Toml

/-- The entries of a table. -/
abbrev Entries := List (String × Toml)

namespace Entries

def find? (es : Entries) (key : String) : Option Toml :=
  (List.find? (fun e => e.1 = key) es).map Prod.snd

def remove (es : Entries) (key : String) : Entries := es.filter fun e => e.1 ≠ key

/-- Put a value in place of the one under its key, if any. -/
def put (es : Entries) (key : String) (value : Toml) : Entries := es.remove key ++ [(key, value)]

/-- Change the table at the end of a path. Tables on the way that are missing are made; a `dotted`
path must not lead through tables that have their own header. -/
def changeAt {α : Type} (dotted : Bool) (change : Origin → Entries → Option (Entries × α)) :
    List String → Origin → Entries → Option (Entries × α)
  | [], origin, es => change origin es
  | key :: path, _, es =>
    match es.find? key with
    | none => do
      let origin := if dotted then Origin.dotted else .implied
      let (below, result) ← changeAt dotted change path origin []
      return (es.put key (.table origin below), result)
    | some (.table origin below) =>
      if origin = .inline || (dotted && origin = .written) then none
      else do
        let (below, result) ← changeAt dotted change path origin below
        return (es.put key (.table origin below), result)
    | some (.tables items) =>
      match items.getLast? with
      | none => none
      | some below => do
        let (below, result) ← changeAt dotted change path .written below
        return (es.put key (.tables (items.dropLast ++ [below])), result)
    | some _ => none

/-- Add a value under a dotted key, whose last part must be new to a table that either stands
alone or is made of dotted keys. -/
def addPair (es : Entries) (path : List String) (value : Toml) : Option Entries := do
  let key ← path.getLast?
  let (es, ()) ← changeAt true (fun origin below =>
    if decide (origin = .dotted) = path.dropLast.isEmpty then none
    else if (below.find? key).isSome then none
    else some (below ++ [(key, value)], ())) path.dropLast .written es
  return es

end Entries

/-! ## Documents -/

/-- A line of a document. -/
inductive Statement
  | pair (path : List String) (value : Toml)
  | header (path : List String)
  | arrayHeader (path : List String)

/-- A document on its way: the tables that are complete, and the one whose header was read last,
which the next pairs go into. -/
structure Draft where
  root : Entries
  path : List String
  /-- Whether the table is one more of an array of tables. -/
  inArray : Bool
  current : Entries

namespace Draft

/-- Put the current table where its header says. -/
def complete (d : Draft) : Option Entries :=
  match d.path.getLast? with
  | none => some d.current
  | some key => do
    let (root, ()) ← Entries.changeAt false (fun _ below =>
      if d.inArray then
        match below.find? key with
        | none => some (below.put key (.tables [d.current]), ())
        | some (.tables items) => some (below.put key (.tables (items ++ [d.current])), ())
        | some _ => none
      else some (below.put key (.table .written d.current), ())) d.path.dropLast .written d.root
    return root

/-- Go on with the table of a header. It must be new, or implied by the headers of others. -/
def openTable (d : Draft) (path : List String) : Option Draft := do
  let root ← d.complete
  let key ← path.getLast?
  let (root, current) ← Entries.changeAt false (fun _ below =>
    match below.find? key with
    | none => some (below, [])
    | some (.table .implied es) => some (below.remove key, es)
    | some _ => none) path.dropLast .written root
  return ⟨root, path, false, current⟩

/-- Go on with one more table of an array of tables. -/
def openArrayTable (d : Draft) (path : List String) : Option Draft := do
  let root ← d.complete
  let key ← path.getLast?
  let (root, ()) ← Entries.changeAt false (fun _ below =>
    match below.find? key with
    | none => some (below.put key (.tables []), ())
    | some (.tables _) => some (below, ())
    | some _ => none) path.dropLast .written root
  return ⟨root, path, true, []⟩

def step (d : Draft) : Statement → Option Draft
  | .pair path value => do return { d with current := ← d.current.addPair path value }
  | .header path => d.openTable path
  | .arrayHeader path => d.openArrayTable path

end Draft

/-- The root table of a list of statements. -/
def ofStatements? (statements : List Statement) : Option Entries := do
  (← statements.foldlM Draft.step ⟨[], [], false, []⟩).complete

end Toml

end WatchHistory
