/-!
# Failures

The ways in which a sort and its collaborators fail, and the one text each of them has.

* `Failure.message` is the text shown to the consumer.
* `Failure.withOperator` attaches the operator's name and its progress, once.
* `Failure.replay` is the detached copy that a failed operator hands out on later pulls.
-/

namespace SpillSort

/-- Why an operation on the disk fails. -/
inductive DiskFault where
  | notFound
  | alreadyExists
  | notADirectory
  | isADirectory
  | invalidArgument
  | nameTooLong
  | fileTooLarge
  | nulInName
  /-- The file ends before the bytes asked for. -/
  | shortRead
  | other (text : String)
  deriving DecidableEq, Repr

/-- The text of a disk fault. -/
def DiskFault.message : DiskFault → String
  | notFound => "No such file or directory (os error 2)"
  | alreadyExists => "File exists (os error 17)"
  | notADirectory => "Not a directory (os error 20)"
  | isADirectory => "Is a directory (os error 21)"
  | invalidArgument => "Invalid argument (os error 22)"
  | nameTooLong => "File name too long (os error 36)"
  | fileTooLarge => "File too large (os error 27)"
  | nulInName => "file name contained an unexpected NUL byte"
  | shortRead => "failed to fill whole buffer"
  | other text => text

/-- Why an operation on columns fails. -/
inductive ColumnFault where
  | compute (text : String)
  | schema (text : String)
  | invalidArgument (text : String)
  | memory (text : String)
  | notImplemented (text : String)
  | divideByZero
  /-- Bytes that no encoded batch has. -/
  | undecodable (text : String)
  /-- A row that no batch has. -/
  | outOfRange
  /-- A fault known only by its text. -/
  | external (text : String)
  deriving DecidableEq, Repr

/-- The text of a column fault. -/
def ColumnFault.message : ColumnFault → String
  | compute text => s!"Compute error: {text}"
  | schema text => s!"Schema error: {text}"
  | invalidArgument text => s!"Invalid argument error: {text}"
  | memory text => s!"Memory error: {text}"
  | notImplemented text => s!"Not yet implemented: {text}"
  | divideByZero => "Divide by zero error"
  | undecodable text => s!"Ipc error: {text}"
  | outOfRange => "index out of range"
  | external text => s!"External error: {text}"

/-- A failure of the sort or of one of its collaborators. `cancelled` only unwinds a spill that
saw the cancel flag; the operator turns it into a stop. -/
inductive Failure where
  | schemaChange (text : String)
  | outOfMemory (text : String)
  | io (context : String) (fault : DiskFault)
  | unsupported (text : String)
  | column (fault : ColumnFault)
  | config (text : String)
  | corrupted (text : String)
  | cancelled
  | failed (operator : String) (rows : Nat) (source : Failure)
  deriving DecidableEq, Repr, Inhabited

namespace Failure

/-- The name of the kind of a failure. -/
def label : Failure → String
  | schemaChange _ => "SchemaChange"
  | outOfMemory _ => "OutOfMemory"
  | io _ _ => "Io"
  | unsupported _ => "Unsupported"
  | column _ => "Arrow"
  | config _ => "Config"
  | corrupted _ => "Corrupted"
  | cancelled => "Cancelled"
  | failed _ _ _ => "Failed"

/-- The text of a failure; a wrapped failure ends in the text of its source. -/
def message : Failure → String
  | schemaChange text => s!"schema change: {text}"
  | outOfMemory text => s!"out of memory: {text}"
  | io context fault => s!"spill io error: {context}: {fault.message}"
  | unsupported text => s!"unsupported: {text}"
  | column fault => s!"arrow error: {fault.message}"
  | config text => s!"invalid configuration: {text}"
  | corrupted text => s!"spill file corrupted: {text}"
  | cancelled => "operator cancelled"
  | failed operator rows source => s!"{operator} failed after {rows} rows: {source.message}"

/-- Memory shortage, also below any number of wrappers. -/
def isOutOfMemory : Failure → Bool
  | outOfMemory _ => true
  | failed _ _ source => source.isOutOfMemory
  | _ => false

/-- A bare cancellation; a wrapped one does not count. -/
def isCancelled : Failure → Bool
  | cancelled => true
  | _ => false

/-- Names the operator and the rows it had taken in, unless the failure already names one. -/
def withOperator (operator : String) (rows : Nat) : Failure → Failure
  | failed o r s => failed o r s
  | e => failed operator rows e

/-- The copy that later pulls see. A column fault survives only as its text. -/
def replay : Failure → Failure
  | column fault => column (.external fault.message)
  | failed operator rows source => failed operator rows source.replay
  | e => e

end Failure

end SpillSort
