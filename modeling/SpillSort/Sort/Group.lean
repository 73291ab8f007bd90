import SpillSort.Sort.Run
import SpillSort.Spill.File
import SpillSort.Spill.Message

/-!
# Groups

A group is a unit of sorted rows: one run in memory, or the merge of many, whose first chunk may
still be in memory and whose others lie in a spill file. Either way it is read as a sequence of
runs.

* `SortedGroup.nextRun` takes the run in memory first, then restores those in the file; empty runs
  are passed over.
* `SortedGroup.drop` lets go of all charges and of the file.
-/

namespace SpillSort

/-- A spill file, and its reader once it was opened. -/
structure SpilledRuns where
  file : Spill.SpillFile
  reader? : Option Spill.Reader := none

/-- Sorted rows in memory and on disk. -/
structure SortedGroup where
  /-- The run in memory. -/
  head? : Option SortedRun
  /-- The runs on disk, which follow it. -/
  spilled? : Option SpilledRuns := none
  /-- Rows of all runs, counted when the group was made. -/
  rows : Nat

namespace SortedGroup

/-- A group in memory. -/
def resident (run : SortedRun) : SortedGroup := { head? := some run, rows := run.length }

/-- A group on disk, whose first run may be in memory. -/
def spilled (head? : Option SortedRun) (file : Spill.SpillFile) : SortedGroup :=
  { head?, spilled? := some { file }, rows := (head?.map SortedRun.length).getD 0 + file.rows }

/-- Whether the group has runs on disk. -/
def isSpilled (g : SortedGroup) : Bool := g.spilled?.isSome

/-- Bytes held in memory. -/
def residentBytes (g : SortedGroup) : Nat := (g.head?.map SortedRun.bytes).getD 0

/-- Bytes of many groups held in memory. -/
def totalBytes (gs : List SortedGroup) : Nat := clampSize (total (gs.map residentBytes))

/-- The charges a group holds. -/
def charges (g : SortedGroup) : List Memory.ChargeId := (g.head?.map SortedRun.charges).getD []

/-- Lets go of a group, and of its file. -/
def drop (g : SortedGroup) : Action Unit := do
  Workspace.dropAll g.charges
  match g.spilled? with
  | some s => s.file.drop
  | none => pure ()

/-- Lets go of many groups. -/
def dropAll : List SortedGroup → Action Unit
  | [] => pure ()
  | g :: gs => do
    g.drop
    dropAll gs

/-- Restores a batch as a run in key order, charged to a tracker. -/
def restore (order : RowOrder) (tracker : Memory.TrackerId) (batch : Batch) : Work SortedRun := do
  Workspace.count ["Spill"] "RestoreRows" (·.add (Int64.ofNat batch.rows))
  let keys ← (order.encode batch).mapError KeyFault.failure
  let chunk ← (Workspace.withLedger (Chunk.tracked batch tracker) : Action Chunk)
  SortedRun.ofKeys chunk keys none tracker

/-- The first run with rows among those that a reader still has. -/
def restoreNext (order : RowOrder) (tracker : Memory.TrackerId) :
    List Spill.Entry → Spill.Reader →
      Action (Except Failure (Option SortedRun) × Spill.Reader)
  | [], r => pure (.ok none, r)
  | e :: rest, r => do
    match ← (r.batchAt e >>= restore order tracker : Work SortedRun).run with
    | .error failure => pure (.error failure, r.advance rest)
    | .ok run =>
      if run.length = 0 then do
        run.drop
        restoreNext order tracker rest (r.advance rest)
      else pure (.ok (some run), r.advance rest)

/-- The next run on disk that has rows, if there is one; the file is opened the first time. -/
def nextSpilled (order : RowOrder) (tracker : Memory.TrackerId) (g : SortedGroup) :
    Action (Except Failure (Option SortedRun) × SortedGroup) := do
  match g.spilled? with
  | none => pure (.ok none, g)
  | some s =>
    let opened ← match s.reader? with
      | some r => pure (.ok r)
      | none => (Spill.Reader.open s.file.path s.file.schema).run
    match opened with
    | .error e => pure (.error e, g)
    | .ok r => do
      let (run?, r) ← restoreNext order tracker r.pending r
      pure (run?, { g with spilled? := some { s with reader? := some r } })

/-- The next run of a group that has rows, if there is one. -/
def nextRun (order : RowOrder) (tracker : Memory.TrackerId) (g : SortedGroup) :
    Action (Except Failure (Option SortedRun) × SortedGroup) := do
  match g.head? with
  | none => g.nextSpilled order tracker
  | some run =>
    let g := { g with head? := none }
    if run.length = 0 then do
      run.drop
      g.nextSpilled order tracker
    else pure (.ok (some run), g)

end SortedGroup

end SpillSort
