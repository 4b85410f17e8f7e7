import WatchHistory.Json.Value
import WatchHistory.Payload.Basic

/-!
# Changes of nodes

Nodes are written anew every few seconds only to refresh the time of a heartbeat. An update is
major if anything else has changed.
-/

set_option autoImplicit false

namespace WatchHistory.Payload

open Json (Value)

/-- A node without the places that a heartbeat changes: its version, and the time of the last
heartbeat in each of its conditions. -/
def withoutHeartbeat (node : Value) : Value :=
  let node := node.changeMember "metadata" (·.without "resourceVersion")
  node.changeMember "status" (·.changeMember "conditions"
    (·.changeItems (·.without "lastHeartbeatTime")))

/-- Whether two payloads of a node differ in more than a heartbeat. -/
def isMajorUpdate (previous current : String) : Except PayloadError Bool :=
  match Value.read? previous, Value.read? current with
  | some previous, some current =>
    .ok (decide (withoutHeartbeat previous ≠ withoutHeartbeat current))
  | _, _ => .error .unreadable

end WatchHistory.Payload
