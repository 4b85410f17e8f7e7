import WatchHistory.Instant.Rfc3339
import WatchHistory.Json.Decode
import WatchHistory.Text.Quoted

/-!
# Payloads

The payload of an observation is the JSON text of the observed object. A record is read out of it
in an envelope: an object of which one member holds the record, where a missing or null member
stands for the initial record.
-/

set_option autoImplicit false

namespace WatchHistory

/-- Why a payload tells nothing. -/
inductive PayloadError
  /-- The payload is not JSON, or not of the shape that is read. -/
  | unreadable
  | badTimestamp (text : String)
deriving DecidableEq

def PayloadError.message : PayloadError → String
  | unreadable => "payload is not valid JSON"
  | badTimestamp text => "invalid timestamp " ++ Text.quoted text

namespace Payload

/-- The kind of objects that report what happens to another object. -/
def eventKind : String := "Event"

/-- The kind of objects that heartbeats refresh. -/
def nodeKind : String := "Node"

/-- The kind of objects that run on a node. -/
def podKind : String := "Pod"

/-- Read a payload with a reader of trees. -/
def read {α : Type} (reader : Json → Option α) (payload : String) : Except PayloadError α :=
  match (Json.read? payload).bind reader with
  | some value => .ok value
  | none => .error .unreadable

/-- Read the member `name` of an object and nothing else. -/
def envelope? {α : Type} (name : String) (initial : α) (reader : Json → Option α) (j : Json) :
    Option α := do
  match ← j.fields? [name] with
  | [slot] => slot.nullable? initial reader
  | _ => none

/-- The instant of a timestamp in a payload. -/
def instant (text : String) : Except PayloadError Instant :=
  match Rfc3339.read? text with
  | some t => .ok t
  | none => .error (.badTimestamp text)

end Payload

end WatchHistory
