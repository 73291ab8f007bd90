import SpillSort.Sort.InMemory
import SpillSort.Sort.Input
import SpillSort.Sort.Options
import SpillSort.Sort.Spill

/-!
# The sort operator

An operator pulls sorted output out of one input: it stages all batches as sorted groups, spilling
when the policy asks for it, and then serves the rows in key order, from memory if it can and by a
streamed merge otherwise.

* `Operator.create` makes an operator below a fragment.
* `Operator.buildSchema` learns the schema ahead of time, `Operator.next` pulls the next output,
  `Operator.kill` and `Operator.close` end the sort early.
* A failure is recorded, and every later pull repeats it; a cancelled sort answers that it stopped.
-/

namespace SpillSort

/-! ## State -/

/-- How far a sort has come. -/
inductive Stage where
  | uninitialized
  | ingesting
  | finalMemory (merge : MemoryMerge)
  | finalMerge (merger : Merger) (chunkRows : Nat)
  | done
  | failed

namespace Stage

/-- The name of a stage. -/
def label : Stage → String
  | uninitialized => "uninitialized"
  | ingesting => "ingesting"
  | finalMemory _ => "final_memory"
  | finalMerge _ _ => "final_merge"
  | done => "done"
  | failed => "failed"

/-- Lets go of what a stage holds. -/
def drop : Stage → Action Unit
  | finalMemory m => m.drop
  | finalMerge m _ => m.drop
  | _ => pure ()

end Stage

/-- How the keys of a sort are fitted to the schema of its first batch. -/
abbrev OrderMaker := Schema → List SortKey → Except Failure RowOrder

/-- Sorts by the columns the keys name. -/
def OrderMaker.byColumns : OrderMaker := fun schema keys =>
  (RowOrder.resolve schema keys).mapError KeyFault.failure

/-- An external sort over one input. -/
structure Operator where
  name : String
  options : SortOptions
  tracker : Memory.TrackerId
  input : Input
  makeOrder : OrderMaker
  /-- How often `makeOrder` was asked. -/
  ordersMade : Nat := 0
  /-- The order of the established schema. -/
  order? : Option RowOrder := none
  stage : Stage := .uninitialized
  /-- An event pulled ahead of time. -/
  pending? : Option Event := none
  /-- Groups in memory, oldest first. -/
  resident : Array SortedGroup := #[]
  /-- Groups on disk, oldest first. -/
  spilled : Array SortedGroup := #[]
  monitor : Monitor
  schemaEmitted : Bool := false
  rowsReturned : Nat := 0
  /-- Whether everything was let go of after a cancellation. -/
  released : Bool := false
  failure? : Option Failure := none

/-- A sorted output: rows of a streamed merge, or a window of a merge in memory. -/
inductive Output where
  | rows (batch : Batch)
  | window (w : Window)

namespace Output

/-- Number of rows. -/
def length : Output → Nat
  | rows b => b.rows
  | window w => w.entries.size

/-- The schema of the rows. -/
def schema : Output → Schema
  | rows b => b.schema
  | window w => w.batches.schema

/-- The rows as one batch. -/
def toBatch : Output → Except ColumnFault Batch
  | rows b => .ok b
  | window w => w.gather

/-- The consumer lets go of an output. -/
def drop : Output → Action Unit
  | rows _ => pure ()
  | window w => w.drop

end Output

/-- The outcome of a pull. The first output fixes the schema. -/
inductive Poll where
  | newSchema (output : Output)
  | batch (output : Output)
  | done
  | stopped

/-- The output of a poll. -/
def Poll.output? : Poll → Option Output
  | newSchema o | batch o => some o
  | done | stopped => none

/-- A step of an operator that cannot fail. -/
abbrev OperatorAction := StateT Operator Action

/-- A step of an operator that may fail. -/
abbrev OperatorWork := ExceptT Failure OperatorAction

/-- A step that does not look at the operator. -/
def Work.inOperator {α : Type} (x : Work α) : OperatorWork α := ExceptT.mk (StateT.lift x.run)

namespace Operator

/-- The node of a sort in a profile, with everything it counts. -/
def profileNode (options : SortOptions) (p : Profile) : Profile :=
  let p := (p.setInfo "SortKeys" (toString options.keys.length)).setInfo "SpillCodec"
    options.codec.name
  let p := (((p.addCounter "SortRows" .count).addCounter "SortTime" .nanoseconds).addCounter
    "MergeTime" .nanoseconds).addCounter "PeakResidentBytes" .bytes
  p.onChild "Spill" fun s =>
    (((((s.addCounter "SpillCount" .count).addCounter "SpillRows" .count).addCounter "SpillBytes"
      .bytes).addCounter "SpillTime" .nanoseconds).addCounter "RestoreRows" .count).addCounter
      "RestoreTime" .nanoseconds

/-- The name of the sort at a node of a plan; negative numbers are not shown. -/
def nameOf (node : Int) : String :=
  if 0 ≤ node then s!"EXTERNAL_SORT (id={node})" else "EXTERNAL_SORT"

/-- Makes an operator below a fragment, with a tracker of its own, and the workspace it runs in. The
spill files get names with the given stem. -/
def create (name : String) (options : SortOptions) (makeOrder : OrderMaker) (input : Input)
    (stem : String) (fragment : Fragment) (ledger : Memory.Ledger) (disk : Spill.Disk) :
    Except Failure (Operator × Workspace) := do
  options.check
  let workspace ← Workspace.create options.directories options.codec stem fragment ledger disk
  let (tracker, ledger) := ledger.addChild name options.maxAllocation fragment.tracker
  let monitor : Monitor :=
    { maxAllocation := options.maxAllocation.toInt, threshold := options.threshold,
      groupSize := options.groupSize }
  let fragment :=
    { fragment with profile := fragment.profile.onChild name (profileNode options) }
  pure ({ name, options, tracker, input, makeOrder, monitor },
    { workspace with ledger, fragment, node := [name] })

/-- Rows taken in so far. -/
def rowsProcessed (op : Operator) : Nat := op.monitor.totalRows

/-- Whether the sort is over, one way or another. -/
def isFinished (op : Operator) : Bool :=
  match op.stage with
  | .done | .failed => true
  | _ => false

/-- Enters a stage and lets go of what the one before it holds. -/
def enter (stage : Stage) : OperatorAction Unit := do
  let before ← modifyGet fun op => (op.stage, { op with stage })
  before.drop

/-- Notes something. -/
def note (n : Operator → Notice) : OperatorAction Unit := do
  let notice := n (← get)
  Workspace.note notice

/-! ## Ends -/

/-- Lets go of every group and of a final merge. -/
def releaseGroups : OperatorAction Unit := do
  let (pending?, resident, spilled) ← modifyGet fun op =>
    ((op.pending?, op.resident, op.spilled),
      { op with pending? := none, resident := #[], spilled := #[] })
  Workspace.dropAll ((pending?.map Event.charges).getD [])
  (SortedGroup.dropAll resident.toList : Action Unit)
  (SortedGroup.dropAll spilled.toList : Action Unit)
  match (← get).stage with
  | .finalMemory _ | .finalMerge _ _ => enter .done
  | _ => pure ()

/-- Records a failure, with the operator's name on it, and lets go of everything. -/
def fail (e : Failure) : OperatorAction Failure := do
  let op ← get
  let e := e.withOperator op.name op.rowsProcessed
  Workspace.note (.failed op.name op.stage.label e)
  (modify fun w => { w with fragment := w.fragment.report e.message } : Action Unit)
  releaseGroups
  enter .failed
  modify fun op => { op with failure? := some e.replay }
  pure e

/-- Lets go of everything after a cancellation and stops the input, but only the first time. -/
def releaseOnCancel : OperatorAction Unit := do
  if (← get).released then pure ()
  else do
    note fun op => .cancelled op.name op.stage.label op.resident.size op.spilled.size
    releaseGroups
    enter .done
    modify fun op => { op with input := op.input.kill, released := true }

/-- Ends the sort and stops the input. -/
def kill : OperatorAction Unit := do
  (Workspace.raiseCancel : Action Unit)
  releaseOnCancel

/-- Ends the sort after a last look at its trackers. -/
def close : OperatorAction Unit := do
  let tracker := (← get).tracker
  (modify fun w =>
    { w with fragment :=
        { w.fragment with profile :=
            w.fragment.profile.onPath w.node (·.attach (w.ledger.tree tracker)) } } : Action Unit)
  releaseGroups
  match (← get).stage with
  | .failed => pure ()
  | _ => enter .done

/-- The consumer lets go of the operator. -/
def drop : OperatorAction Unit := do
  Workspace.dropAll (← get).input.charges
  releaseGroups

/-! ## Taking in -/

/-- The failure of an input that would have to be asked again. -/
def notYetFailure : Failure :=
  .unsupported "upstream returned NOT_YET; external sort cannot wait for input"

/-- Pulls the input. -/
def pull : OperatorWork Event := do
  let p ← modifyGet fun op =>
    let (p, input) := op.input.next
    (p, { op with input })
  (Workspace.onDisk p.onDisk : Action Unit)
  if p.cancels then (Workspace.raiseCancel : Action Unit)
  match p.outcome with
  | .ok e => pure e
  | .error e => throw e

/-- The order for a schema: made for the first one, and kept for all others, which have to be the
same. -/
def orderFor (schema : Schema) : OperatorWork RowOrder := do
  match (← get).order? with
  | some order =>
    if order.schema ≠ schema then
      throw (.schemaChange (s!"external sort does not support schema changes: " ++
        s!"{order.schema.display} -> {schema.display}"))
    pure order
  | none => do
    let made ← modifyGet fun op =>
      (op.makeOrder schema op.options.keys, { op with ordersMade := op.ordersMade + 1 })
    let order ← made
    note fun op =>
      .schemaEstablished op.name schema.fields.length order.keyCount order.rowWidth
    modify fun op => { op with order? := some order }
    pure order

/-- Spills the older half of the groups in memory, if there are enough of them. -/
def spill (reason : SpillReason) : OperatorWork Unit := do
  match (← get).order? with
  | none => pure ()
  | some order => do
    let (chosen, groups) ← modifyGet fun op =>
      let (chosen, rest) := spillCandidates op.resident
      ((chosen, op.resident.size), { op with resident := rest })
    if chosen.isEmpty then do
      note fun op => .spillSkipped op.name reason op.resident.size
      modify fun op => { op with monitor := op.monitor.onSpillSkipped }
    else do
      let op ← get
      let current := (← (getThe Workspace : Action Workspace)).ledger.forest.current op.tracker
      Workspace.note (.spillTriggered op.name reason chosen.length groups op.monitor.residentBytes
        current)
      match ← (mergeAndSpill order op.tracker (op.options.chunkRows order) chosen).inOperator with
      | some outcome => modify fun op =>
          { op with
            monitor := op.monitor.onSpilled outcome.releasedBytes outcome.retainedBytes
            spilled := op.spilled.push outcome.group }
      | none => modify fun op => { op with monitor := op.monitor.onSpillSkipped }

/-- Memory ran short where the batches come from. -/
def relieveInput : OperatorWork Unit := do
  let spillNow ← modifyGet fun op =>
    let (spillNow, monitor) := op.monitor.onOutOfMemory
    (spillNow, { op with monitor })
  note fun op => .inputShortOfMemory op.name op.monitor.residentBytes spillNow
  if spillNow then spill .outOfMemory

/-- Charges a selection for `rows` rows to the operator's tracker. -/
def trySelection (rows : Nat) : OperatorAction (Except Memory.LimitExceeded RowSelection) := do
  let tracker := (← get).tracker
  (Workspace.withLedger (RowSelection.allocate rows tracker) : Action (Except _ RowSelection))

/-- How long to wait for memory, in units, after the first wait of one unit. -/
def nextWaits : List Nat := [2, 4, 8, 16, 32]

/-- Tries again after each wait and gives up behind the last one. -/
def retrySelection (rows : Nat) : List Nat → OperatorWork RowSelection
  | [] => throw (.outOfMemory "no attempt left")
  | wait :: waits => do
    match ← trySelection rows with
    | .ok s => pure s
    | .error e =>
      if waits.isEmpty then
        throw (.outOfMemory
          s!"unable to allocate sv2 for {rows} rows after repeated attempts: {e.message}")
      else do
        note fun op => .selectionRefusedAgain op.name rows wait e.message
        retrySelection rows waits

/-- A selection for `rows` rows; if memory is short, groups are spilled once, and then it is tried
again a few times. -/
def allocateSelection (rows : Nat) : OperatorWork RowSelection := do
  match ← trySelection rows with
  | .ok s => pure s
  | .error e => do
    note fun op => .selectionRefused op.name rows e.message
    spill .outOfMemory
    retrySelection rows nextWaits

/-- What the allocator shows now. -/
def snapshot : OperatorAction MemorySnapshot := do
  let op ← get
  let forest := (← (getThe Workspace : Action Workspace)).ledger.forest
  pure { allocated := (forest.current op.tracker).toInt
         fragmentLimit := (forest.nearestAncestorLimit op.tracker).map Int64.toInt
         residentGroups := op.resident.size }

/-- Sorts a slice of at most `maxSelectionRows` rows and keeps it as a group. -/
def keepSlice (order : RowOrder) (chunk : Chunk) : OperatorWork Unit := do
  let dropChunk : Action Unit := Workspace.onLedger chunk.drop
  let selection ← Work.rescue (allocateSelection chunk.length) dropChunk
  let tracker := (← get).tracker
  let sorted : Work SortedRun := Work.rescue (SortedRun.sort order chunk selection tracker)
    (do Workspace.dropAll selection.charge?.toList; dropChunk)
  let run ← sorted.inOperator
  let rows := run.length
  let bytes := run.bytes
  modify fun op =>
    { op with
      resident := op.resident.push (.resident run)
      monitor := op.monitor.onStaged rows bytes }
  Workspace.count [] "SortRows" (·.add (Int64.ofNat rows))
  let residentBytes := (← get).monitor.residentBytes
  Workspace.count [] "PeakResidentBytes" (·.raise (Int64.ofInt residentBytes))

/-- Spills if the policy asks for it. -/
def relieve : OperatorWork Unit := do
  let shown ← snapshot
  match (← get).monitor.shouldSpill shown with
  | some reason => spill reason
  | none => pure ()

/-- Keeps a slice, which may be the moment to spill. -/
def stageSlice (order : RowOrder) (chunk : Chunk) : OperatorWork Unit := do
  keepSlice order chunk
  relieve

/-- The slices of a batch of `rows` rows: their offsets and lengths. -/
def slices (rows : Nat) : List (Nat × Nat) :=
  (List.range ((rows + maxSelectionRows - 1) / maxSelectionRows)).map fun i =>
    (i * maxSelectionRows, min maxSelectionRows (rows - i * maxSelectionRows))

/-- Stages slices of a chunk. -/
def stageSlices (order : RowOrder) (chunk : Chunk) : List (Nat × Nat) → OperatorWork Unit
  | [] => pure ()
  | (offset, length) :: rest => do
    let slice ← (Workspace.withLedger (chunk.slice offset length) : Action Chunk)
    stageSlice order slice
    stageSlices order chunk rest

/-- Takes in a chunk: its charge moves to the operator, its rows become groups. -/
def addBatch (chunk : Chunk) : OperatorWork Unit := do
  let order ← Work.rescue (orderFor chunk.batch.schema) (Workspace.onLedger chunk.drop)
  if chunk.length = 0 then (Workspace.onLedger chunk.drop : Action Unit)
  else do
    let tracker := (← get).tracker
    let chunk ← (Workspace.withLedger (chunk.transfer tracker) : Action Chunk)
    Work.rescue (stageSlices order chunk (slices chunk.length)) (Workspace.onLedger chunk.drop)
    (Workspace.onLedger chunk.drop : Action Unit)

/-- The next event, which may have been pulled ahead. -/
def nextEvent : OperatorWork Event := do
  match ← modifyGet fun op => (op.pending?, { op with pending? := none }) with
  | some e => pure e
  | none => pull

/-- Takes in events until there are no more batches, at most `count` of them; answers whether the
input ended. -/
def ingest : (count : Nat) → OperatorWork Bool
  | 0 => pure true
  | count + 1 => do
    if ← (Workspace.cancelled : Action Bool) then throw .cancelled
    let e ← nextEvent
    let pressure ← modifyGet fun op =>
      let (pressure, input) := op.input.takePressure
      (pressure, { op with input })
    if pressure then Work.rescue relieveInput (Workspace.dropAll e.charges)
    match e with
    | .batch chunk => do
      addBatch chunk
      ingest count
    | .endOfInput => pure true
    | .stop => pure false
    | .notYet => throw notYetFailure

/-! ## Handing out -/

/-- Merges groups as streams. -/
def mergeStreams (order : RowOrder) (groups : List SortedGroup) : OperatorWork Unit := do
  let op ← get
  let current := (← (getThe Workspace : Action Workspace)).ledger.forest.current op.tracker
  Workspace.note (.mergingStreams op.name groups.length op.monitor.spillCount current)
  let merger ← (Merger.ofGroups order op.tracker groups).inOperator
  enter (.finalMerge merger (op.options.chunkRows order))

/-- Merges everything, in memory if that is possible and otherwise as streams. -/
def finalize : OperatorWork Unit := do
  let op ← get
  if op.rowsProcessed = 0 then enter .done
  else
    match op.order? with
    | none => throw (.unsupported "rows were staged without an established schema")
    | some order => do
      modify fun op => { op with spilled := #[], resident := #[] }
      let groups := op.spilled.toList ++ op.resident.toList
      if op.spilled.isEmpty then
        match ← (MemoryMerge.build order op.tracker op.options.maxInMemory groups).inOperator with
        | .merged m => do
          note fun op => .mergingInMemory op.name m.totalRows m.batches.batches.size
          enter (.finalMemory m)
        | .refused reason => do
          note fun op => .inMemoryRefused op.name reason
          mergeStreams order groups
      else mergeStreams order groups

/-- The next output of the final merge. -/
def output : OperatorWork (Option Output) := do
  let op ← get
  match op.stage with
  | .finalMemory m => do
    let (window?, m) ← (m.nextWindow op.options.outputRows : Action (Option Window × MemoryMerge))
    modify fun op => { op with stage := .finalMemory m }
    pure (window?.map .window)
  | .finalMerge m rows => do
    let (chunk?, m) ← ((Merger.nextChunk rows).run.run m : Action (_ × Merger))
    modify fun op => { op with stage := .finalMerge m rows }
    match ← chunk? with
    | none => pure none
    | some chunk => do
      (Workspace.onLedger chunk.drop : Action Unit)
      pure (some (.rows chunk.batch))
  | .done => pure none
  | stage => throw (.unsupported s!"external sort pulled in state {stage.label}")

/-- Hands out an output. -/
def emit (o : Output) : OperatorAction Poll :=
  modifyGet fun op =>
    (if op.schemaEmitted then .batch o else .newSchema o,
      { op with rowsReturned := op.rowsReturned + o.length, schemaEmitted := true })

/-- Takes in all of the input, unless that is done already; answers whether the sort goes on. -/
def takeIn : OperatorWork Bool := do
  match (← get).stage with
  | .uninitialized | .ingesting => do
    enter .ingesting
    let op ← get
    if ← ingest (op.input.script.length + 2) then do
      finalize
      pure true
    else do
      releaseGroups
      enter .done
      pure false
  | _ => pure true

/-- Hands out the next output; without one the sort is done. -/
def serve : OperatorWork Poll := do
  match ← output with
  | some o => emit o
  | none => do
    match (← get).stage with
    | .done => pure ()
    | _ => note fun op => .finished op.name op.rowsReturned op.monitor.spillCount
    enter .done
    pure .done

/-- One pull of a sort that neither failed nor was cancelled. -/
def step : OperatorWork Poll := do
  if ← takeIn then serve else pure .stopped

/-- Pulls the next output. -/
def next : OperatorAction (Except Failure Poll) := do
  match (← get).failure? with
  | some e => pure (.error e.replay)
  | none =>
    if ← (Workspace.cancelled : Action Bool) then do
      releaseOnCancel
      pure (.ok .stopped)
    else
      match ← step.run with
      | .ok poll => pure (.ok poll)
      | .error e =>
        if e.isCancelled then do
          releaseOnCancel
          pure (.ok .stopped)
        else .error <$> fail e

/-- Pulls the first event and establishes the schema if it is a batch. The event is kept. -/
def prime : OperatorWork (Option Schema) := do
  match ← pull with
  | .notYet => throw notYetFailure
  | .batch chunk => do
    let order ← Work.rescue (orderFor chunk.batch.schema) (Workspace.onLedger chunk.drop)
    modify fun op => { op with pending? := some (.batch chunk) }
    pure (some order.schema)
  | e => do
    modify fun op => { op with pending? := some e }
    pure none

/-- The schema of the output, learnt ahead of time if need be; none if the input has no batch. -/
def buildSchema : OperatorAction (Except Failure (Option Schema)) := do
  let op ← get
  match op.failure? with
  | some e => pure (.error e.replay)
  | none =>
    if op.order?.isSome || op.pending?.isSome then pure (.ok (op.order?.map RowOrder.schema))
    else
      match ← prime.run with
      | .ok schema => pure (.ok schema)
      | .error e => .error <$> fail e

end Operator

end SpillSort
