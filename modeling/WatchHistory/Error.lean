import WatchHistory.Table
import WatchHistory.Text.Quoted

/-!
# What can go wrong in the store

`StoreError` lists the causes, and `StoreError.message` is the wording of each.
-/

set_option autoImplicit false

namespace WatchHistory

/-- Why a text is no key. -/
inductive KeyFault
  /-- The number of segments after the leading slash is not six. -/
  | segments (found : Nat) (key : String)
  | noLeadingSlash (key : String)
  | otherTable (expected : Table) (key : String)
  /-- The last segment of an observation's key is no number of nanoseconds. -/
  | badTimestamp (key : String)
  | unknownTable (found key : String)
deriving DecidableEq

inductive StoreError
  /-- There is no row under the key. -/
  | missing (key : String)
  /-- No key before `key` matches `comparator`. -/
  | noEarlier (key comparator : String)
  | badKey (fault : KeyFault)
  | badPartition (id : String)
  | badGranularity (text : String)
  /-- The text stored under the key is no value of the table. -/
  | undecodable (table : Table) (key : String)
  | readOnly (table : Table)
deriving DecidableEq

def KeyFault.message : KeyFault → String
  | segments found key =>
    "expected 6 segments, got " ++ toString found ++ " in " ++ Text.quoted key
  | noLeadingSlash key => "key must start with '/': " ++ Text.quoted key
  | otherTable expected key =>
    "expected table " ++ Text.quoted expected.name ++ " in " ++ Text.quoted key
  | badTimestamp key => "bad nanosecond timestamp in " ++ Text.quoted key
  | unknownTable found key => "unknown table " ++ Text.quoted found ++ " in " ++ Text.quoted key

namespace StoreError

def message : StoreError → String
  | missing key => "not found: " ++ key
  | noEarlier key comparator => "not found: no key before " ++ key ++ " matching " ++ comparator
  | badKey fault => "invalid key format: " ++ fault.message
  | badPartition id => "invalid partition id: " ++ id
  | badGranularity text => "unsupported partition granularity: " ++ text
  | undecodable table key => "decode error: " ++ table.name ++ ": " ++ key
  | readOnly table => "write error: " ++ table.name ++ " is read-only"

/-- Whether the error says that nothing is there. -/
def isNotFound : StoreError → Bool
  | missing _ => true
  | noEarlier _ _ => true
  | _ => false

end StoreError

end WatchHistory
