import Std.Time.DateTime.Timestamp
import WatchHistory.Daemon
import WatchHistory.Json.Pretty
import WatchHistory.Store.Text

/-!
# The command line

`run` ingests the observations on standard input, `inspect` reports on the store, and `purge`
deletes the keys under `--prefix`. Each takes `--config`, and `--log-json`, which changes only how
logs look.
-/

set_option autoImplicit false

namespace WatchHistory.CommandLine

/-- What the arguments ask for. -/
structure Request where
  command : String
  config : Option String
  stem : Option String

def Request.initial : Request := ⟨"", none, none⟩

/-- Read the arguments in any order. -/
def Request.read : List String → Request → Except String Request
  | [], r => if r.command = "" then .error "a command is required" else .ok r
  | "--log-json" :: args, r => read args r
  | "--config" :: path :: args, r => read args { r with config := some path }
  | "--prefix" :: stem :: args, r => read args { r with stem := some stem }
  | arg :: args, r =>
    if r.command = "" && ["run", "inspect", "purge"].contains arg then
      read args { r with command := arg }
    else .error ("unexpected argument " ++ Text.quoted arg)

/-! ## Reports -/

def jsonNat (n : Nat) : Json := .ofInt n

def jsonOption : Option String → Json
  | none => .null
  | some s => .ofText s

/-- The counts of one partition. -/
def countJson (c : Store.PartitionCount) : Json :=
  .ofMembers [("keys_by_table", .ofMembers (c.byTable.entries.map fun e => (e.1, jsonNat e.2))),
    ("total_keys", jsonNat c.total)]

/-- A report with its members in the order of their names. -/
def reportJson (path : String) (r : Daemon.Report) : Json :=
  .ofMembers [("footprint_bytes", jsonNat r.footprint),
    ("max_partition", jsonOption (r.bounds.map Prod.snd)),
    ("min_partition", jsonOption (r.bounds.map Prod.fst)),
    ("partition", .ofText r.partition.name),
    ("partitions", .ofMembers (r.partitions.entries.map fun e => (e.1, countJson e.2))),
    ("path", .ofText path), ("tables", .array (r.tables.map Json.ofText)),
    ("watch_rows_by_kind",
      .ofMembers (r.watchRowsByKind.entries.map fun e => (e.1, jsonNat e.2)))]

/-! ## Commands -/

/-- The present time. -/
def present : IO Instant := do
  let seconds := (← Std.Time.Timestamp.now).toSecondsSinceUnixEpoch
  return (Instant.ofSeconds? seconds.val).getD .epoch

/-- The rows kept in a file, which is made if it is not there. -/
def load (path : String) : IO Store := do
  let _ ← IO.FS.Handle.mk path .append
  let lines := (Daemon.lines (← IO.FS.readFile path)).filter fun line => !line.isEmpty
  match Store.ofLines? lines with
  | some s => return s
  | none => throw (IO.userError ("damaged store " ++ path))

def save (path : String) (s : Store) : IO Unit := IO.FS.writeFile path s.toText

def fail (message : String) : IO UInt32 := do
  IO.eprint (Daemon.failureText message)
  return 1

def configOf (r : Request) : IO (Except ConfigError Config) := do
  match r.config with
  | none => return Config.load none
  | some path => return Config.load (some (← IO.FS.readFile path))

def runFeed (c : Config) (s : Store) : IO UInt32 := do
  match c.retentionPlan with
  | .error e => fail e.message
  | .ok plan =>
    let input ← (← IO.getStdin).readToEnd
    match Daemon.feed c plan.policy Store.bytes (← present) s input with
    | .error e => fail e.message
    | .ok fed =>
      save c.dbPath fed
      return 0

def runInspect (c : Config) (s : Store) : IO UInt32 := do
  match Daemon.inspect c.store.partition Store.bytes s with
  | .error e => fail e.message
  | .ok report =>
    IO.println (reportJson c.dbPath report).pretty
    return 0

def runPurge (c : Config) (s : Store) (stem : String) : IO UInt32 := do
  match Daemon.purge c s stem with
  | .error e => fail e.message
  | .ok (left, removed) =>
    save c.dbPath left
    IO.print (Daemon.purgeText stem removed)
    return 0

/-- Run a request on the store that its configuration names. -/
def run (r : Request) : IO UInt32 := do
  match ← configOf r with
  | .error e => fail e.message
  | .ok c =>
    IO.FS.createDirAll c.store.dataDir
    let s ← load c.dbPath
    match r.command, r.stem with
    | "run", _ => runFeed c s
    | "inspect", _ => runInspect c s
    | _, some stem => runPurge c s stem
    | _, none => fail "a prefix is required"

end WatchHistory.CommandLine

def main (args : List String) : IO UInt32 := do
  match WatchHistory.CommandLine.Request.read args .initial with
  | .error message => WatchHistory.CommandLine.fail message
  | .ok request => WatchHistory.CommandLine.run request
