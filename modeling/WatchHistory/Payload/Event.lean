import WatchHistory.Payload.Basic

/-!
# Events

What an event tells about itself: why it happens, since when and until when, and how often.
-/

set_option autoImplicit false

namespace WatchHistory

structure EventInfo where
  reason : String
  type : String
  first : Instant
  last : Instant
  count : Int
deriving DecidableEq

namespace EventInfo

/-- What an event is counted under. -/
def reasonKey (e : EventInfo) : String := e.reason ++ ":" ++ e.type

/-- The instant of a timestamp; the epoch where it is missing or is none. -/
def instantOrEpoch (text : Option String) : Instant := (text.bind Rfc3339.read?).getD .epoch

/-- A negative count is read as zero. -/
def ofJson? (j : Json) : Option EventInfo := do
  match ← j.fields? ["reason", "type", "firstTimestamp", "lastTimestamp", "count"] with
  | [reason, type, first, last, count] =>
    return {
      reason := ← reason.nullable? "" Json.string?
      type := ← type.nullable? "" Json.string?
      first := instantOrEpoch (← first.default? none (Json.optional? Json.string?))
      last := instantOrEpoch (← last.default? none (Json.optional? Json.string?))
      count := max 0 (← count.nullable? 0 Json.int?) }
  | _ => none

/-- The event in a payload. -/
def ofPayload (payload : String) : Except PayloadError EventInfo := Payload.read ofJson? payload

end EventInfo

end WatchHistory
