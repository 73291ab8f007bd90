import SpillSort.Sort.Policy
import SpillSort.Failure

/-!
# The journal

What a running sort notes for its operators: one constructor for each kind of notice, with its level
and its one text.
-/

namespace SpillSort

/-- How urgent a notice is, the most urgent first. -/
inductive Level where
  | error
  | warn
  | info
  | debug
  | trace
  deriving DecidableEq, Repr

/-- The letter that stands for a level. -/
def Level.letter : Level → String
  | error => "E"
  | warn => "W"
  | info => "I"
  | debug => "D"
  | trace => "T"

/-- Something noted during a sort. `operator` is the name of the operator that notes it. -/
inductive Notice where
  | fileFinished (path : String) (messages rows bytes : Nat)
  | removalFailed (path : String) (fault : DiskFault)
  | schemaEstablished (operator : String) (columns keys rowWidth : Nat)
  | spillSkipped (operator : String) (reason : SpillReason) (residentGroups : Nat)
  | spillTriggered (operator : String) (reason : SpillReason) (merging residentGroups : Nat)
      (residentBytes : Int) (trackerBytes : Int64)
  | spillFinished (path : String) (mergedGroups spilledRows retainedRows releasedBytes : Nat)
  | selectionRefused (operator : String) (rows : Nat) (reason : String)
  | selectionRefusedAgain (operator : String) (rows nextWait : Nat) (reason : String)
  | inputShortOfMemory (operator : String) (residentBytes : Int) (spillNow : Bool)
  | mergingInMemory (operator : String) (rows batches : Nat)
  | inMemoryRefused (operator : String) (reason : String)
  | mergingStreams (operator : String) (groups spills : Nat) (allocated : Int64)
  | finished (operator : String) (rowsReturned spills : Nat)
  | failed (operator : String) (state : String) (failure : Failure)
  | cancelled (operator : String) (state : String) (residentGroups spilledGroups : Nat)
  deriving Repr

namespace Notice

/-- The level of a notice. -/
def level : Notice → Level
  | removalFailed .. | selectionRefused .. | selectionRefusedAgain ..
  | inputShortOfMemory .. => .warn
  | inMemoryRefused .. | mergingStreams .. => .info
  | failed .. => .error
  | _ => .debug

/-- The text of a notice. -/
def message : Notice → String
  | fileFinished path messages rows bytes =>
    s!"spill file finished: path={path} batches={messages} rows={rows} bytes={bytes}"
  | removalFailed path fault =>
    s!"Sort spill remove file failed: path={path} error={fault.message}"
  | schemaEstablished operator columns keys rowWidth =>
    s!"{operator} schema established: columns={columns} sort_keys={keys} row_width={rowWidth}"
  | spillSkipped operator reason groups =>
    s!"{operator} spill skipped: reason={reason.name} resident_groups={groups}"
  | spillTriggered operator reason merging groups residentBytes trackerBytes =>
    s!"{operator} spill triggered: reason={reason.name} merging={merging} " ++
      s!"resident_groups={groups} resident_bytes={residentBytes} tracker_bytes={trackerBytes}"
  | spillFinished path merged spilled retained released =>
    s!"sort spill finished: path={path} merged_groups={merged} spilled_rows={spilled} " ++
      s!"retained_rows={retained} released_bytes={released}"
  | selectionRefused operator rows reason =>
    s!"{operator} sv2 allocation failed, spilling before retry: rows={rows} error={reason}"
  | selectionRefusedAgain operator rows nextWait reason =>
    s!"{operator} sv2 allocation retry failed: rows={rows} next_wait_units={nextWait} " ++
      s!"error={reason}"
  | inputShortOfMemory operator residentBytes spillNow =>
    s!"{operator} upstream reported out of memory: resident_bytes={residentBytes} " ++
      s!"spill_now={spillNow}"
  | mergingInMemory operator rows batches =>
    s!"{operator} in-memory merge: rows={rows} batches={batches}"
  | inMemoryRefused operator reason =>
    s!"{operator} in-memory merge refused, streaming instead: {reason}"
  | mergingStreams operator groups spills allocated =>
    s!"{operator} starting to merge: batch_groups={groups} spills={spills} " ++
      s!"allocated_bytes={allocated}"
  | finished operator returned spills =>
    s!"{operator} finished: rows_returned={returned} spills={spills}"
  | failed operator state failure => s!"{operator} failed in state {state}: {failure.message}"
  | cancelled operator state resident spilled =>
    s!"{operator} cancelled in state {state}: releasing {resident} resident and {spilled} " ++
      "spilled groups"

end Notice

end SpillSort
