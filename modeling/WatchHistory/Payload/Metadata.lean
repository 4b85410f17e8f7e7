import WatchHistory.Payload.Basic

/-!
# Metadata of objects

The names of an object, its version, its owners, the object that an event is about, and the node
that a pod runs on.
-/

set_option autoImplicit false

namespace WatchHistory

/-- The owner of an object. -/
structure Owner where
  kind : String
  name : String
  uid : String
deriving DecidableEq

def Owner.ofJson? (j : Json) : Option Owner := do
  match ← j.fields? ["kind", "name", "uid"] with
  | [kind, name, uid] =>
    return {
      kind := ← kind.nullable? "" Json.string?
      name := ← name.nullable? "" Json.string?
      uid := ← uid.nullable? "" Json.string? }
  | _ => none

structure Metadata where
  name : String
  ns : String
  uid : String
  selfLink : String
  resourceVersion : String
  creationTimestamp : Option String
  owners : List Owner
deriving DecidableEq

namespace Metadata

/-- The metadata of an object that tells none. -/
def initial : Metadata := ⟨"", "", "", "", "", none, []⟩

def ofJson? (j : Json) : Option Metadata := do
  match ← j.fields? ["name", "namespace", "uid", "selfLink", "resourceVersion",
      "creationTimestamp", "ownerReferences"] with
  | [name, ns, uid, selfLink, resourceVersion, creationTimestamp, owners] =>
    return {
      name := ← name.nullable? "" Json.string?
      ns := ← ns.nullable? "" Json.string?
      uid := ← uid.nullable? "" Json.string?
      selfLink := ← selfLink.nullable? "" Json.string?
      resourceVersion := ← resourceVersion.nullable? "" Json.string?
      creationTimestamp := ← creationTimestamp.default? none (Json.optional? Json.string?)
      owners := ← owners.nullable? [] (Json.list? Owner.ofJson?) }
  | _ => none

/-- The metadata of the object in a payload. -/
def ofPayload (payload : String) : Except PayloadError Metadata :=
  Payload.read (Payload.envelope? "metadata" initial ofJson?) payload

/-- When the object was created, if the metadata tells it in RFC 3339 form. -/
def createdAt? (m : Metadata) : Option Instant := m.creationTimestamp.bind Rfc3339.read?

end Metadata

/-- The object that an event is about. -/
structure InvolvedObject where
  kind : String
  name : String
  ns : String
  uid : String
deriving DecidableEq

namespace InvolvedObject

/-- The object of an event that names none. -/
def initial : InvolvedObject := ⟨"", "", "", ""⟩

def ofJson? (j : Json) : Option InvolvedObject := do
  match ← j.fields? ["kind", "name", "namespace", "uid"] with
  | [kind, name, ns, uid] =>
    return {
      kind := ← kind.nullable? "" Json.string?
      name := ← name.nullable? "" Json.string?
      ns := ← ns.nullable? "" Json.string?
      uid := ← uid.nullable? "" Json.string? }
  | _ => none

/-- The object that the event in a payload is about. -/
def ofPayload (payload : String) : Except PayloadError InvolvedObject :=
  Payload.read (Payload.envelope? "involvedObject" initial ofJson?) payload

end InvolvedObject

/-- The name of the node that the pod in a payload runs on, once it is known. -/
def Payload.nodeName? (payload : String) : Except PayloadError (Option String) := do
  let name ← read (envelope? "spec" "" (envelope? "nodeName" "" Json.string?)) payload
  return if name = "" then none else some name

end WatchHistory
