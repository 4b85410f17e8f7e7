import WatchHistory.Retention
import WatchHistory.Toml.Document

/-!
# Configuration

What a configuration file says about the store, about retention and about ingestion. Everything has
a default, unknown keys are passed over, and lengths of time are checked when the file is read.
-/

set_option autoImplicit false

namespace WatchHistory

/-- Why a configuration file is refused. -/
inductive ConfigError
  /-- The file is no TOML document, or a value in it has the wrong type. -/
  | malformed
  | badLookback (text : String)
  | badInterval (text : String)
deriving DecidableEq

def ConfigError.message : ConfigError → String
  | malformed => "malformed configuration"
  | badLookback text => "invalid max_lookback " ++ Text.quoted text
  | badInterval text => "invalid interval " ++ Text.quoted text

/-! ## Reading records -/

namespace Toml

/-- What a value says about each field of a record. A table is read by the names of the fields, an
array by their order, and a time has no fields. -/
def fields? (names : List String) : Toml → Option (List (Option Toml))
  | .table _ es => some (names.map (Entries.find? es))
  | .array items => some ((List.range names.length).map fun i => items[i]?)
  | .tables items =>
    some ((List.range names.length).map fun i => (items[i]?).map (Toml.table .written))
  | .time => some (names.map fun _ => none)
  | _ => none

def text? : Toml → Option String
  | .text s => some s
  | _ => none

def nat? : Toml → Option Nat
  | .integer n => if 0 ≤ n then some n.toNat else none
  | _ => none

def bool? : Toml → Option Bool
  | .bool b => some b
  | _ => none

/-- Whether a value is an array or a table without anything in it. -/
def isHollow : Toml → Bool
  | .array items => items.isEmpty
  | .table _ es => es.isEmpty
  | .tables items => items.isEmpty
  | _ => false

/-- A field that may be missing. -/
def default? {α : Type} (initial : α) (read : Toml → Option α) : Option Toml → Option α
  | none => some initial
  | some value => read value

end Toml

/-- The granularity of a name as it is configured. -/
def Granularity.ofName? (name : String) : Option Granularity :=
  [hour, day].find? fun g => g.name = name

/-- A granularity is its name, or a table whose only key is that name and has nothing below it. -/
def Granularity.ofToml? : Toml → Option Granularity
  | .text name => ofName? name
  | .table _ [(name, below)] => if below.isHollow then ofName? name else none
  | _ => none

/-! ## Sections -/

structure StoreSection where
  dataDir : String
  partition : Granularity
deriving DecidableEq

namespace StoreSection

def initial : StoreSection := ⟨"/var/lib/kubetrail", .hour⟩

def ofToml? (value : Toml) : Option StoreSection := do
  match ← value.fields? ["data_dir", "partition"] with
  | [dataDir, partition] =>
    return {
      dataDir := ← Toml.default? initial.dataDir Toml.text? dataDir
      partition := ← Toml.default? initial.partition Granularity.ofToml? partition }
  | _ => none

end StoreSection

structure RetentionSection where
  maxLookback : String
  /-- The disk budget in units of 1024 * 1024 bytes; zero stands for any number. -/
  maxDiskMb : Nat
  interval : String
  deletionBatchSize : Nat
deriving DecidableEq

namespace RetentionSection

def initial : RetentionSection := ⟨"14d", 32768, "30m", 1000⟩

def ofToml? (value : Toml) : Option RetentionSection := do
  match ← value.fields? ["max_lookback", "max_disk_mb", "interval", "deletion_batch_size"] with
  | [maxLookback, maxDiskMb, interval, deletionBatchSize] =>
    return {
      maxLookback := ← Toml.default? initial.maxLookback Toml.text? maxLookback
      maxDiskMb := ← Toml.default? initial.maxDiskMb Toml.nat? maxDiskMb
      interval := ← Toml.default? initial.interval Toml.text? interval
      deletionBatchSize := ← Toml.default? initial.deletionBatchSize Toml.nat? deletionBatchSize }
  | _ => none

end RetentionSection

structure IngestSection where
  channelCapacity : Nat
  keepMinorNodeUpdates : Bool
deriving DecidableEq

namespace IngestSection

def initial : IngestSection := ⟨1000, false⟩

def ofToml? (value : Toml) : Option IngestSection := do
  match ← value.fields? ["channel_capacity", "keep_minor_node_updates"] with
  | [channelCapacity, keepMinor] =>
    return {
      channelCapacity := ← Toml.default? initial.channelCapacity Toml.nat? channelCapacity
      keepMinorNodeUpdates := ← Toml.default? initial.keepMinorNodeUpdates Toml.bool? keepMinor }
  | _ => none

end IngestSection

/-! ## Files -/

structure Config where
  store : StoreSection
  retention : RetentionSection
  ingest : IngestSection
deriving DecidableEq

/-- How retention is run. -/
structure RetentionPlan where
  policy : RetentionPolicy
  /-- The time from a cycle that drops nothing to the next one. -/
  interval : Duration
deriving DecidableEq

namespace Config

def initial : Config := ⟨.initial, .initial, .initial⟩

/-- The bytes in a unit of the disk budget. -/
def bytesPerMb : Nat := 1048576

/-- How a configuration runs retention. A budget beyond 64 bits is the greatest one. -/
def retentionPlan (c : Config) : Except ConfigError RetentionPlan :=
  match Duration.read? c.retention.maxLookback with
  | none => .error (.badLookback c.retention.maxLookback)
  | some lookback =>
    match Duration.read? c.retention.interval with
    | none => .error (.badInterval c.retention.interval)
    | some interval =>
      .ok ⟨⟨lookback, min (c.retention.maxDiskMb * bytesPerMb) Decimal.greatestNat⟩, interval⟩

/-- The configuration of a document, lengths of time unchecked. -/
def ofEntries? (es : Toml.Entries) : Option Config := do
  return {
    store := ← Toml.default? .initial StoreSection.ofToml? (es.find? "store")
    retention := ← Toml.default? .initial RetentionSection.ofToml? (es.find? "retention")
    ingest := ← Toml.default? .initial IngestSection.ofToml? (es.find? "ingest") }

/-- Read a configuration file. -/
def read (text : String) : Except ConfigError Config :=
  match (Toml.read? text).bind ofEntries? with
  | none => .error .malformed
  | some c => c.retentionPlan.map fun _ => c

/-- The configuration of a file, and the initial one without a file. -/
def load : Option String → Except ConfigError Config
  | none => .ok initial
  | some text => read text

/-- The name of the file that holds the rows. -/
def fileName : String := "kubetrail.redb"

/-- The path of the file that holds the rows. -/
def dbPath (c : Config) : String :=
  match c.store.dataDir.toList.getLast? with
  | none => fileName
  | some '/' => c.store.dataDir ++ fileName
  | some _ => c.store.dataDir ++ "/" ++ fileName

end Config

end WatchHistory
