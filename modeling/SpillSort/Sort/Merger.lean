import SpillSort.Sort.Frontier
import SpillSort.Sort.Group

/-!
# Merging groups

A merger reads sorted groups side by side and hands out their rows in key order, chunk by chunk;
rows with equal keys come in the order of their groups. One run of each group is loaded at a time;
its batch lies in an arena, where the rows picked for the chunk in the making name it by its slot.

* `Merger.ofGroups` loads the first run of each group.
* `Merger.nextChunk` merges at most a given number of rows.
* `Merger.drop` lets go of all that is left.
-/

namespace SpillSort

/-- The loaded run of a group: the position of its next row, and the slot of its batch. -/
structure MergeCursor where
  run : SortedRun
  position : Nat := 0
  slot : Nat

/-- The state of a merge. -/
structure Merger where
  order : RowOrder
  /-- The tracker that restored runs and merged chunks are charged to. -/
  tracker : Memory.TrackerId
  groups : Array SortedGroup
  /-- The loaded run of each group, none once the group is exhausted. -/
  cursors : Array (Option MergeCursor)
  frontier : Frontier := .empty
  arena : Array Batch := #[]
  rowsLeft : Nat

/-- A step of a merge that may fail; the merge keeps what it came to. -/
abbrev MergeWork := ExceptT Failure (StateT Merger Action)

/-- A step that does not look at the merge. -/
def Work.inMerge {α : Type} (x : Work α) : MergeWork α := ExceptT.mk (StateT.lift x.run)

namespace Merger

/-- The cursor of a group. -/
def cursor? (m : Merger) (source : Nat) : Option MergeCursor := (m.cursors[source]?).join

/-- Whether no row is left. -/
def isExhausted (m : Merger) : Bool := m.frontier.isEmpty

/-- The cursors of all groups that are not exhausted. -/
def liveCursors (m : Merger) : List MergeCursor := m.cursors.toList.filterMap id

/-- The charges held. -/
def charges (m : Merger) : List Memory.ChargeId :=
  m.groups.toList.flatMap SortedGroup.charges ++ m.liveCursors.flatMap fun c => c.run.charges

/-- Lets go of everything: the groups with their files, then the loaded runs. -/
def drop (m : Merger) : Action Unit := do
  SortedGroup.dropAll m.groups.toList
  Workspace.dropAll (m.liveCursors.flatMap fun c => c.run.charges)

/-- Makes a run the loaded one of its group. -/
def accept (m : Merger) (source : Nat) (run : SortedRun) : Merger :=
  let { order, tracker, groups, cursors, frontier, arena, rowsLeft } := m
  let slot := arena.size
  { order, tracker, groups, rowsLeft
    cursors := cursors.setIfInBounds source (some { run, slot })
    frontier := frontier.push order ⟨run.keyAt 0, source⟩
    arena := arena.push run.chunk.batch }

/-- Forgets the loaded run of a group. -/
def retire (m : Merger) (source : Nat) : Merger :=
  let { order, tracker, groups, cursors, frontier, arena, rowsLeft } := m
  { order, tracker, groups, frontier, arena, rowsLeft
    cursors := cursors.setIfInBounds source none }

/-- Replaces a group. -/
def setGroup (m : Merger) (source : Nat) (g : SortedGroup) : Merger :=
  let { order, tracker, groups, cursors, frontier, arena, rowsLeft } := m
  { order, tracker, groups := groups.setIfInBounds source g, cursors, frontier, arena, rowsLeft }

/-- Lets go of the loaded run of a group and loads the next one, if there is one. -/
def load (source : Nat) : MergeWork Unit := do
  let m ← get
  match m.cursor? source, m.groups[source]? with
  | c, some g => do
    let { order, tracker, .. } := m
    (Workspace.dropAll ((c.map fun c => c.run.charges).getD []) : Action Unit)
    modify fun m => m.retire source
    let (run?, g) ← (g.nextRun order tracker : Action (Except Failure (Option SortedRun) × _))
    modify fun m => m.setGroup source g
    match run? with
    | .error e => throw e
    | .ok none => pure ()
    | .ok (some run) => modify fun m => m.accept source run
  | _, none => pure ()

/-- Loads the first runs of `count` groups from `source` on. -/
def loadAll : (count source : Nat) → MergeWork Unit
  | 0, _ => pure ()
  | count + 1, source => do
    load source
    loadAll count (source + 1)

/-- Starts a merge. If a group cannot be read, all of them are let go of. -/
def ofGroups (order : RowOrder) (tracker : Memory.TrackerId) (groups : List SortedGroup) :
    Work Merger :=
  ExceptT.mk do
    let start : Merger :=
      { order, tracker, groups := groups.toArray
        cursors := Array.replicate groups.length none
        rowsLeft := total (groups.map SortedGroup.rows) }
    match ← (loadAll groups.length 0).run.run start with
    | (.ok _, m) => pure (.ok m)
    | (.error e, m) => do
      m.drop
      pure (.error e)

/-- Takes the candidate that goes first. -/
def popCandidate (m : Merger) : Option Candidate × Merger :=
  let { order, tracker, groups, cursors, frontier, arena, rowsLeft } := m
  match frontier.pop? order with
  | none => (none, { order, tracker, groups, cursors, frontier := .empty, arena, rowsLeft })
  | some (c, frontier) => (some c, { order, tracker, groups, cursors, frontier, arena, rowsLeft })

/-- Takes the next row of a group: the slot and the row picked, and whether that was the last row of
the loaded run. -/
def takeRow (m : Merger) (source : Nat) : Option ((Nat × Nat) × Bool) × Merger :=
  match m.cursor? source with
  | none => (none, m)
  | some c =>
    let pick := (c.slot, c.run.rowAt c.position)
    let position := c.position + 1
    if position < c.run.length then
      let { order, tracker, groups, cursors, frontier, arena, rowsLeft } := m
      (some (pick, false),
        { order, tracker, groups, arena, rowsLeft
          cursors := cursors.setIfInBounds source (some { c with position })
          frontier := frontier.push order ⟨c.run.keyAt position, source⟩ })
    else (some (pick, true), m)

/-- Picks at most `count` rows in key order, after those in `picked`. -/
def pick : (count : Nat) → (picked : Array (Nat × Nat)) → MergeWork (Array (Nat × Nat))
  | 0, picked => pure picked
  | count + 1, picked => do
    match ← modifyGet popCandidate with
    | none => pure picked
    | some c =>
      match ← modifyGet fun m => m.takeRow c.source with
      | none => pick count picked
      | some (row, false) => pick count (picked.push row)
      | some (row, true) => do
        load c.source
        pick count (picked.push row)

/-- Moves the batch of a loaded run behind those that are kept. -/
def keepBatch (arena : Array Batch) :
    Array (Option MergeCursor) × Array Batch → Option MergeCursor →
      Array (Option MergeCursor) × Array Batch
  | (cursors, kept), none => (cursors.push none, kept)
  | (cursors, kept), some c =>
    (cursors.push (some { c with slot := kept.size }), kept.push (arena.getD c.slot default))

/-- Moves the batches of loaded runs to the front of the arena and forgets the others. -/
def compact (m : Merger) : Merger :=
  let { order, tracker, groups, cursors, frontier, arena, rowsLeft } := m
  let (cursors, kept) :=
    cursors.foldl (keepBatch arena) (Array.emptyWithCapacity cursors.size, #[])
  { order, tracker, groups, cursors, frontier, arena := kept, rowsLeft }

/-- `rows` rows were handed out, and their batches are no longer needed. -/
def settle (rows : Nat) (m : Merger) : Merger :=
  ({ m with rowsLeft := m.rowsLeft - rows } : Merger).compact

/-- Merges at most `maxRows` rows, but at least one if any is left, into a chunk. -/
def nextChunk (maxRows : Nat) : MergeWork (Option Chunk) := do
  let picked ← pick (max maxRows 1) #[]
  if picked.isEmpty then do
    modify fun m => { m with arena := #[] }
    pure none
  else do
    let m ← get
    let batch ← match m.order.copyRows m.arena picked with
      | .ok batch => pure batch
      | .error e => throw (.column e)
    modify (settle picked.size)
    let tracker := m.tracker
    some <$> (Workspace.withLedger (Chunk.tracked batch tracker) : Action Chunk)

end Merger

end SpillSort
