import WatchHistory.Instant.Rfc3339
import WatchHistory.Json.Decode

/-!
# Observations

One observation of an object: when it was made, of what kind the object is, how it changed and what
it looked like, as JSON.
-/

set_option autoImplicit false

namespace WatchHistory

/-- An instant written as a JSON text, in UTC. -/
def Instant.toJson (t : Instant) : Json := .ofText (String.ofList (Rfc3339.write ['Z'] t))

/-- The instant of a JSON text. -/
def Instant.ofJson? (j : Json) : Option Instant :=
  j.string?.bind Rfc3339.readLoosely?

/-- How an object changed. -/
inductive Change
  | add
  | update
  | delete
deriving DecidableEq

namespace Change

def name : Change → String
  | add => "add"
  | update => "update"
  | delete => "delete"

def ofName? (name : String) : Option Change := [add, update, delete].find? fun c => c.name = name

/-- A change is its name, or an object whose only member has that name and is null. -/
def ofJson? : Json → Option Change
  | .object [(literal, .null)] => (Json.Literal.decode? literal).bind ofName?
  | j => j.string?.bind ofName?

end Change

structure Observation where
  time : Instant
  kind : String
  change : Change
  payload : String
deriving DecidableEq

namespace Observation

/-- The observation that stands for a missing one. -/
def initial : Observation := ⟨.epoch, "", .update, ""⟩

def toJson (o : Observation) : Json :=
  .ofMembers [("timestamp", o.time.toJson), ("kind", .ofText o.kind),
    ("change_type", .ofText o.change.name), ("payload", .ofText o.payload)]

def ofJson? (j : Json) : Option Observation := do
  match ← j.fields? ["timestamp", "kind", "change_type", "payload"] with
  | [time, kind, change, payload] =>
    return {
      time := ← time.required? Instant.ofJson?
      kind := ← kind.required? Json.string?
      change := ← change.required? Change.ofJson?
      payload := ← payload.required? Json.string? }
  | _ => none

/-- Read an observation from its JSON text. -/
def read? (text : String) : Option Observation := (Json.read? text).bind ofJson?

end Observation

end WatchHistory
