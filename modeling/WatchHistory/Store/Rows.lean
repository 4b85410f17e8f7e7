import WatchHistory.Row.Basic
import WatchHistory.Store.Bounds

/-!
# Single rows

Reading, writing and deleting the row under one key of a table. `Store.set` and `Store.get` accept
complete keys only: those whose rendered form reads back.
-/

set_option autoImplicit false

namespace WatchHistory.Store

variable {t : Table}

/-- Write a row in place of the one under its key, if any. -/
def set (s : Store) (k : Key t) (row : t.Row) : Except StoreError Store := do
  let _ ← parseKey t k.render
  return s.insert k.render (t.write row)

/-- The row under a key. -/
def get (s : Store) (k : Key t) : Except StoreError t.Row := do
  let _ ← parseKey t k.render
  match s.get? k.render with
  | none => throw (.missing k.render)
  | some text =>
    match t.read? text with
    | none => throw (.undecodable t k.render)
    | some row => return row

/-- The row under a key, or none if there is no such row. -/
def find? (s : Store) (k : Key t) : Except StoreError (Option t.Row) :=
  match s.get k with
  | .ok row => .ok (some row)
  | .error e => if e.isNotFound then .ok none else .error e

/-- The row under a key, or the initial one if there is no such row. -/
def getOrInitial (s : Store) (k : Key t) : Except StoreError t.Row := do
  return (← s.find? k).getD t.initial

/-- Delete the row under a key; also whether there was one. -/
def delete (s : Store) (k : Key t) : Store × Bool :=
  (s.erase k.render, (s.get? k.render).isSome)

end WatchHistory.Store
