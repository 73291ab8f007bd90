import SpillSort.Spill.Format
import SpillSort.Workspace

/-!
# Spill files

A spill file is written once: a `Writer` takes batches and gathers their messages behind a placeholder
for the header, and `finish` adds the index and writes the header again. What is written waits in a
buffer until the writer goes back to the start of the file. Whoever holds the finished `SpillFile` has
the file removed when done with it; a writer that is given up removes it too.

* `Writer.gathered` is what is written up to the index, `Writer.finished` all that a finished file
  holds.
-/

namespace SpillSort.Spill

/-- A spill file that is being written. -/
structure Writer where
  path : String
  content : ContentId
  schema : Schema
  codec : Codec
  /-- The messages so far, the latest first. -/
  messages : List (List UInt8) := []
  /-- Their index entries, the latest first. -/
  entries : List Entry := []
  /-- Bytes of the header and of the messages so far. -/
  written : Nat := headerLength
  rows : Nat := 0

/-- Positions that no file has, and that none can be asked for, begin here. -/
def farthestSeek : Nat := 9223372036854775808

/-- A finished spill file. -/
structure SpillFile where
  path : String
  schema : Schema
  messages : Nat
  rows : Nat
  bytes : Nat

namespace Writer

/-- Gives up the file. -/
def abandon (w : Writer) : Action Unit := Workspace.removeFile w.path

/-- Creates the next spill file of the workspace, for batches of a schema. -/
def create (schema : Schema) : Work Writer := do
  let path ← Workspace.nextSpillPath
  let context := s!"create spill file {path}"
  Work.brace context
  let (content, disk) ← Work.ofDisk context ((← get).disk.createFile path)
  Workspace.onDisk fun _ => disk
  let w : Writer := { path, content, schema, codec := (← get).spiller.codec }
  Work.rescue (Work.brace "write spill file header") w.abandon
  pure w

/-- Most rows of a message: 32 bits count them. -/
def mostRows : Nat := 4294967295

/-- Takes one more batch, which may have `mostRows` rows. No file reaches `farthestSeek`. -/
def append [MessageFormat] (w : Writer) (b : Batch) : Work Writer := do
  if mostRows < b.rows then throw (.unsupported s!"spill batch of {b.rows} rows")
  let context := s!"write spill file {w.path}"
  Work.brace context
  let message := MessageFormat.encode w.codec b
  let length := message.length
  if farthestSeek ≤ w.written + length then throw (.io context .fileTooLarge)
  pure { w with
    messages := message :: w.messages
    entries := ⟨w.written.toUInt64, length.toUInt64, b.rows.toUInt32⟩ :: w.entries
    written := w.written + length
    rows := w.rows + b.rows }

/-- The header of the finished file. -/
def header (w : Writer) : Header :=
  { codec := w.codec
    messages := w.messages.length.toUInt32
    indexOffset := w.written.toUInt64
    indexLength := (w.entries.length * entryLength).toUInt64
    schemaHash := w.schema.hash }

/-- What stands behind the header of the finished file: messages and index. -/
def body (w : Writer) : List UInt8 :=
  w.messages.reverse.flatten ++ w.entries.reverse.flatMap Entry.encode

/-- The bytes that are written before the header is known. -/
def gathered (w : Writer) : List UInt8 :=
  (Header.placeholder w.codec w.schema.hash).encode ++ w.body

/-- The bytes of the finished file. -/
def finished (w : Writer) : List UInt8 := w.header.encode ++ w.body

/-- Writes the index, goes back to the start and writes the header, now that it is known. -/
def writeOut (w : Writer) : Work Unit := do
  Work.brace "write spill file index"
  Work.brace s!"seek spill file {w.path}"
  Workspace.onDisk fun d => d.write w.content ⟨w.gathered.toArray⟩
  Work.brace "write spill file header"
  Work.brace s!"flush spill file {w.path}"
  Workspace.onDisk fun d => d.overwrite w.content ⟨w.header.encode.toArray⟩

/-- Writes the file. If that fails, it is given up. -/
def finish (w : Writer) : Work SpillFile := do
  Work.rescue w.writeOut w.abandon
  let bytes := w.written + w.entries.length * entryLength
  Workspace.note (.fileFinished w.path w.messages.length w.rows bytes)
  pure { path := w.path, schema := w.schema, messages := w.messages.length, rows := w.rows, bytes }

end Writer

/-- Removes the file of a holder who is done with it. -/
def SpillFile.drop (f : SpillFile) : Action Unit := Workspace.removeFile f.path

/-! ## Reading -/

/-- An open spill file, with the index entries of the messages still to come and the number of those
behind. -/
structure Reader where
  path : String
  node : Node
  schema : Schema
  pending : List Entry
  position : Nat := 0

namespace Reader

/-- Opens the file at a path for batches of a schema. The header has to name the schema. -/
def «open» (path : String) (schema : Schema) : Work Reader := do
  let context := s!"open spill file {path}"
  Work.brace context
  let node ← Work.ofDisk context ((← get).disk.openFile path)
  let context := "read spill file header"
  Work.brace context
  let content ← Work.ofDisk context ((← get).disk.read node)
  let header ← readHeader content
  if header.schemaHash ≠ schema.hash then
    throw (.schemaChange s!"spill file {path} was written with a different schema")
  Work.brace "seek to spill file index"
  let entries ← readIndex header content farthestSeek
  pure { path, node, schema, pending := entries }

/-- Rows of the messages still to come. -/
def remainingRows (r : Reader) : Nat := total (r.pending.map fun e => e.rows.toNat)

/-- The bytes an entry points to. -/
def messageAt (r : Reader) (e : Entry) : Work (List UInt8) := do
  let context := s!"read spill file {r.path}"
  Work.brace context
  let content ← Work.ofDisk context ((← get).disk.read r.node)
  if farthestSeek ≤ e.offset.toNat then throw (.io context .invalidArgument)
  match bytesAt? content e.offset.toNat e.length.toNat with
  | some bytes => pure bytes
  | none => throw (.io context .shortRead)

/-- The batch an entry points to, which has to be of the schema and as long as the entry says. -/
def batchAt [MessageFormat] (r : Reader) (e : Entry) : Work Batch := do
  let batch ← Message.decode (← r.messageAt e)
  if batch.schema ≠ r.schema then
    throw (.corrupted s!"spill file {r.path} yielded a batch with a different schema")
  if batch.rows ≠ e.rows.toNat then
    throw (.corrupted (s!"spill file {r.path} message {r.position} holds {batch.rows} rows, " ++
      s!"index says {e.rows}"))
  pure batch

/-- The reader behind its next message, of which `rest` are the entries after. -/
def advance (r : Reader) (rest : List Entry) : Reader :=
  { r with pending := rest, position := r.position + 1 }

/-- The next batch, if there is one. The reader advances even if the batch cannot be read. -/
def next [MessageFormat] (r : Reader) : Work (Option Batch) × Reader :=
  match r.pending with
  | [] => (pure none, r)
  | e :: rest => (some <$> r.batchAt e, r.advance rest)

end Reader

end SpillSort.Spill
