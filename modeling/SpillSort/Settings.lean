import SpillSort.Sort.Options
import SpillSort.Spill.Disk
import SpillSort.Toml.Document

/-!
# Settings

What a settings file may set, with the defaults. Keys that are not known do not matter; a key with a
value of the wrong kind spoils the file.

* `Settings.ofToml?` reads the settings out of a table, `Settings.load` out of a file.
* `SortSettings.options` makes the options of a sort out of its settings.
-/

namespace SpillSort

/-- The settings of sorts. -/
structure SortSettings where
  groupSize : Nat := 40000
  threshold : Nat := 40000
  /-- The file system of the spill files. -/
  location : String := "file:///"
  /-- The spill directories; none stands for a default one. -/
  directories : List String := []
  maxAllocation : Int64 := 10000000000
  chunkBytes : Nat := 262144
  outputRows : Nat := 4096
  compression : String := "lz4"
  retryMillis : Nat := 1000

/-- All settings. -/
structure Settings where
  logLevel : String := "info"
  /-- Decides what is logged instead of the level. -/
  logFilter : Option String := none
  /-- Where the log goes, whatever the environment says. -/
  logFile : Option String := none
  sort : SortSettings := {}

/-! ## Reading -/

namespace Toml.Value

/-- A text. -/
def text? : Value → Option String
  | text s => some s
  | _ => none

/-- An integer that is not negative. -/
def nat? : Value → Option Nat
  | integer (.ofNat n) => some n
  | _ => none

/-- An integer. -/
def int64? : Value → Option Int64
  | integer i => some (.ofInt i)
  | _ => none

/-- A list of texts. -/
def texts? : Value → Option (List String)
  | list items => items.mapM text?
  | _ => none

/-- The entries of a value that stands for a table with the given keys. Instead of a table, the
values may be listed in the order of the keys, and a moment stands for a table without them. -/
def entries? (keys : List String) : Value → Option Table
  | table _ entries => some entries
  | list items => some (keys.zip items)
  | moment _ => some []
  | tables items => some (keys.zip (items.reverse.map (table .header)))
  | _ => none

end Toml.Value

/-- The value of a key, if it is of the right kind, or else the default if the key is absent. -/
def Toml.Table.get {α : Type} (t : Table) (k : String) (kind : Value → Option α) (default : α) :
    Option α :=
  match t.lookup k with
  | some v => kind v
  | none => some default

namespace SortSettings

/-- The keys of the settings, in order. -/
def keys : List String :=
  ["spill_batch_group_size", "spill_threshold", "spill_fs", "spill_dirs", "max_allocation_bytes",
    "target_spill_chunk_bytes", "output_batch_rows", "spill_compression",
    "sv2_alloc_retry_unit_ms"]

/-- The settings in a value. -/
def ofToml? (v : Toml.Value) : Option SortSettings := do
  let t ← v.entries? keys
  let d : SortSettings := {}
  pure
    { groupSize := ← t.get "spill_batch_group_size" (·.nat?) d.groupSize
      threshold := ← t.get "spill_threshold" (·.nat?) d.threshold
      location := ← t.get "spill_fs" (·.text?) d.location
      directories := ← t.get "spill_dirs" (·.texts?) d.directories
      maxAllocation := ← t.get "max_allocation_bytes" (·.int64?) d.maxAllocation
      chunkBytes := ← t.get "target_spill_chunk_bytes" (·.nat?) d.chunkBytes
      outputRows := ← t.get "output_batch_rows" (·.nat?) d.outputRows
      compression := ← t.get "spill_compression" (·.text?) d.compression
      retryMillis := ← t.get "sv2_alloc_retry_unit_ms" (·.nat?) d.retryMillis }

/-- The options of a sort by `sortKeys`. Without spill directories, the default one is used. -/
def options (s : SortSettings) (sortKeys : List SortKey) (defaultDirectory : String) :
    Except Failure SortOptions := do
  Spill.checkLocation s.location
  let codec ← Spill.Codec.ofName s.compression
  let options : SortOptions :=
    { keys := sortKeys
      groupSize := s.groupSize
      threshold := s.threshold
      directories := if s.directories.isEmpty then [defaultDirectory] else s.directories
      codec
      maxAllocation := s.maxAllocation
      chunkBytes := s.chunkBytes
      outputRows := s.outputRows
      retryMillis := s.retryMillis }
  options.check
  pure options

end SortSettings

namespace Settings

/-- The settings in the table of a document. -/
def ofToml? (t : Toml.Table) : Option Settings := do
  let d : Settings := {}
  pure
    { logLevel := ← t.get "log_level" (·.text?) d.logLevel
      logFilter := ← t.get "log_filter" (some <$> ·.text?) none
      logFile := ← t.get "log_file" (some <$> ·.text?) none
      sort := ← t.get "sort" SortSettings.ofToml? {} }

/-- The settings in a file, which is called `path` in the texts of failures. -/
def load (disk : Spill.Disk) (place path : String) : Except String Settings :=
  match (disk.openFile place).bind disk.read with
  | .error _ => .error s!"read config file: {path}"
  | .ok bytes =>
    match String.fromUTF8? bytes with
    | none => .error s!"read config file: {path}"
    | some text =>
      match (Toml.Document.parse? text).bind ofToml? with
      | none => .error s!"parse toml: {path}"
      | some settings => .ok settings

/-- What decides what is logged. -/
def filterText (s : Settings) : String := s.logFilter.getD s.logLevel

end Settings

end SpillSort
