import SpillSort.Data.HyperBatch
import SpillSort.Sort.GlobalMerge
import SpillSort.Sort.Group

/-!
# Merging in memory

If no group was spilled and memory allows, all runs are merged through one global selection over the
batches as they lie. The selection is served in windows, each of which keeps the batches and the
selection alive.

* `MemoryMerge.build` refuses what cannot be addressed or afforded, and then leaves everything as it
  was.
* `MemoryMerge.nextWindow` serves the next rows.
-/

namespace SpillSort

/-! ## Serving the result -/

/-- All rows in key order: the batches, the global selection, and how many rows were served. -/
structure MemoryMerge where
  batches : HyperBatch
  selection : GlobalSelection
  /-- Holds the charges of batches and selection. -/
  lease : Memory.LeaseId
  position : Nat := 0

/-- A part of the global selection, over the same batches. -/
structure Window where
  batches : HyperBatch
  entries : Array UInt32
  lease : Memory.LeaseId

namespace Window

/-- The rows of a window as one batch. -/
def gather (w : Window) : Except ColumnFault Batch := w.batches.gather w.entries

/-- Lets go of a window. -/
def drop (w : Window) : Action Unit := Workspace.onLedger fun l => l.dropLease w.lease

end Window

namespace MemoryMerge

/-- Number of rows. -/
def totalRows (m : MemoryMerge) : Nat := m.selection.entries.size

/-- Lets go of a merge. -/
def drop (m : MemoryMerge) : Action Unit := Workspace.onLedger fun l => l.dropLease m.lease

/-- The next rows, at least one and at most `maxRows`, if any are left. -/
def nextWindow (m : MemoryMerge) (maxRows : Nat) : Action (Option Window × MemoryMerge) :=
  if m.totalRows ≤ m.position then pure (none, m)
  else do
    let length := min (max maxRows 1) (m.totalRows - m.position)
    Workspace.onLedger fun l => l.shareLease m.lease
    pure (some { batches := m.batches, entries := m.selection.window m.position length,
                 lease := m.lease },
      { m with position := m.position + length })

/-- The outcome of an attempt to merge in memory. -/
inductive Attempt where
  | merged (m : MemoryMerge)
  /-- Everything is as it was. -/
  | refused (reason : String)

/-- Charges two selections of `rows` entries to a tracker, or none. -/
def allocate (tracker : Memory.TrackerId) (rows : Nat) :
    Action (Except String (GlobalSelection × GlobalSelection)) :=
  Workspace.withLedger fun l =>
    match GlobalSelection.allocate rows tracker l with
    | (.error e, l) => (.error e.message, l)
    | (.ok s, l) =>
      match GlobalSelection.allocate rows tracker l with
      | (.error e, l) => (.error e.message, l.dropAll s.charge?.toList)
      | (.ok aux, l) => (.ok (s, aux), l)

/-- Merges groups in memory, with at most `maxBytes` of them. Only the charges of the batches and of
the selection stay. -/
def build (order : RowOrder) (tracker : Memory.TrackerId) (maxBytes : Nat)
    (groups : List SortedGroup) : Work Attempt := do
  let bytes := SortedGroup.totalBytes groups
  if groups.any SortedGroup.isSpilled then pure (.refused "spilled groups present")
  else if maxSelectionBatches < groups.length then
    pure (.refused s!"{groups.length} batches exceed SV4 addressing")
  else if maxBytes < bytes then
    pure (.refused s!"{bytes} resident bytes exceed {maxBytes}")
  else
    match ← allocate tracker (total (groups.map SortedGroup.rows)) with
    | .error reason => pure (.refused reason)
    | .ok (selection, aux) => do
      let runs := groups.filterMap SortedGroup.head?
      let entries := (mergeRuns order runs selection.entries aux.entries).getD #[]
      let charges := runs.flatMap fun r => r.chunk.charge?.toList
      Workspace.dropAll (aux.charge?.toList ++ runs.flatMap SortedRun.orderCharges)
      match HyperBatch.ofBatches order.schema (runs.map fun r => r.chunk.batch).toArray with
      | .error e => do
        Workspace.dropAll (selection.charge?.toList ++ charges)
        throw (.column e)
      | .ok batches => do
        let lease ← (Workspace.withLedger fun l =>
          l.lease (selection.charge?.toList ++ charges) : Action Memory.LeaseId)
        pure (.merged { batches, selection := { selection with entries }, lease })

end MemoryMerge

end SpillSort
