import WatchHistory.Row.Observation

/-!
# Summaries

The lifetime of one object within one partition, and the keys of the objects related to it.
-/

set_option autoImplicit false

namespace WatchHistory

structure Summary where
  firstSeen : Option Instant
  lastSeen : Option Instant
  createTime : Option Instant
  deletedAtEnd : Bool
  /-- The keys of related objects. -/
  relationships : List String
deriving DecidableEq

namespace Summary

/-- The summary of an object never seen. -/
def initial : Summary := ⟨none, none, none, false, []⟩

def toJson (s : Summary) : Json :=
  let instant : Option Instant → Json := fun t => (t.map Instant.toJson).getD .null
  .ofMembers [("first_seen", instant s.firstSeen), ("last_seen", instant s.lastSeen),
    ("create_time", instant s.createTime), ("deleted_at_end", .bool s.deletedAtEnd),
    ("relationships", .array (s.relationships.map Json.ofText))]

def ofJson? (j : Json) : Option Summary := do
  match ← j.fields?
      ["first_seen", "last_seen", "create_time", "deleted_at_end", "relationships"] with
  | [firstSeen, lastSeen, createTime, deletedAtEnd, relationships] =>
    return {
      firstSeen := ← firstSeen.optional? Instant.ofJson?
      lastSeen := ← lastSeen.optional? Instant.ofJson?
      createTime := ← createTime.optional? Instant.ofJson?
      deletedAtEnd := ← deletedAtEnd.default? false Json.bool?
      relationships := ← relationships.default? [] (Json.list? Json.string?) }
  | _ => none

end Summary

end WatchHistory
