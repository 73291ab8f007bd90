import SpillSort.Sort.Merger

/-!
# Spilling groups

A spill merges the older half of the groups in memory. The first merged chunk stays in memory as the
head of the new group, the others go to a spill file.

* `spillCandidates` splits the groups, `mergeAndSpill` makes the new one.
* A spill that fails or is cancelled leaves neither file nor charges behind.
-/

namespace SpillSort

/-- The groups to be spilled and those that stay: half of all groups from the oldest on, up to the
first one that is on disk already. -/
def spillCandidates (groups : Array SortedGroup) : List SortedGroup × Array SortedGroup :=
  let chosen := (groups.extract 0 (groups.size / 2)).toList.takeWhile fun g => !g.isSpilled
  (chosen, groups.extract chosen.length groups.size)

/-- What a spill made. -/
structure SpillOutcome where
  group : SortedGroup
  mergedGroups : Nat
  /-- Bytes the merged groups held in memory. -/
  releasedBytes : Nat
  /-- Bytes the head of the new group holds. -/
  retainedBytes : Nat
  spilledRows : Nat
  spilledBytes : Nat

namespace SpillOutcome

/-- Appends the chunks of a merge to a file, at most `count` of them, unless the cancel flag is
raised. If it fails, the file is given up. -/
def appendChunks (chunkRows : Nat) : (count : Nat) → Spill.Writer → MergeWork Spill.Writer
  | 0, w => pure w
  | count + 1, w => do
    match ← Work.rescue (Merger.nextChunk chunkRows) w.abandon with
    | none => pure w
    | some chunk => do
      let done : Action Unit := Workspace.onLedger chunk.drop
      if ← (Workspace.cancelled : Action Bool) then do
        done
        w.abandon
        throw .cancelled
      else do
        let w' ← Work.rescue (w.append chunk.batch).inMerge (do done; w.abandon)
        done
        appendChunks chunkRows count w'

/-- Merges the first chunk, and the others to a new file; nothing if there are no rows. -/
def writeChunks (schema : Schema) (chunkRows : Nat) :
    MergeWork (Option (Chunk × Spill.SpillFile)) := do
  match ← Merger.nextChunk chunkRows with
  | none => pure none
  | some first => Work.rescue (do
      let w ← (Spill.Writer.create schema).inMerge
      let w ← appendChunks chunkRows (← get).rowsLeft w
      let file ← w.finish.inMerge
      pure (some (first, file))) (Workspace.onLedger first.drop)

/-- The new group of a spill. -/
def ofFile (order : RowOrder) (tracker : Memory.TrackerId) (mergedGroups releasedBytes : Nat)
    (first : Chunk) (file : Spill.SpillFile) : Work SpillOutcome := do
  let keys ← Work.rescue ((order.encode first.batch).mapError KeyFault.failure : Work EncodedKeys)
    (do file.drop; Workspace.onLedger first.drop)
  let head ← (SortedRun.ofKeys first keys none tracker : Action SortedRun)
  Workspace.count ["Spill"] "SpillCount" (·.add 1)
  Workspace.count ["Spill"] "SpillRows" (·.add (Memory.clampBytes file.rows))
  Workspace.count ["Spill"] "SpillBytes" (·.add (Memory.clampBytes file.bytes))
  Workspace.note (.spillFinished file.path mergedGroups file.rows head.length releasedBytes)
  pure
    { group := .spilled (some head) file, mergedGroups, releasedBytes
      retainedBytes := head.bytes, spilledRows := file.rows, spilledBytes := file.bytes }

end SpillOutcome

/-- Merges groups into one on disk, in chunks of `chunkRows` rows; nothing if they have no rows. The
groups are used up in any case. -/
def mergeAndSpill (order : RowOrder) (tracker : Memory.TrackerId) (chunkRows : Nat)
    (groups : List SortedGroup) : Work (Option SpillOutcome) := do
  if groups.isEmpty then pure none
  else do
    let merger ← Merger.ofGroups order tracker groups
    let (written, merger) ←
      ((SpillOutcome.writeChunks order.schema chunkRows).run.run merger : Action (_ × Merger))
    (merger.drop : Action Unit)
    match ← written with
    | none => pure none
    | some (first, file) =>
      some <$> SpillOutcome.ofFile order tracker groups.length (SortedGroup.totalBytes groups)
        first file

end SpillSort
