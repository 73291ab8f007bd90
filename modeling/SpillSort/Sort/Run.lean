import SpillSort.Data.Chunk
import SpillSort.Selection
import SpillSort.Sort.InPlace
import SpillSort.Sort.Key
import SpillSort.Sort.Stable
import SpillSort.Workspace

/-!
# Sorted runs

A sorted run is a chunk whose rows can be read in key order: through a row selection if the chunk
came from the input, as they lie if it was merged. The run holds the chunk's charge, one for the
encoded keys, and the one of the selection.

* `RowOrder.compareInBatch` compares rows of a batch through a selection; `sortRows` is the order of
  its rows by their keys, as sorting in place leaves it.
* `SortedRun.keyAt` reads the keys in order; `SortedRun.bytes` is what the run answers for.
-/

namespace SpillSort

/-- How the rows at two positions of a selection compare by their keys. -/
def RowOrder.compareInBatch (o : RowOrder) (keys : EncodedKeys) (s : RowSelection)
    (left right : Nat) : Ordering :=
  o.compare (keys.row (s.row left)) (keys.row (s.row right))

/-- Rows in key order. They are sorted in place, so of many rows those with equal keys need not keep
their order. -/
def sortRows (order : RowOrder) (keys : EncodedKeys) (rows : List Nat) : List Nat :=
  stableSort (fun a b => order.le (keys.row a) (keys.row b))
    (InPlace.arrange (fun a b => order.lt (keys.row a) (keys.row b)) rows)

/-- A batch with its encoded keys, readable in key order. -/
structure SortedRun where
  chunk : Chunk
  keys : EncodedKeys
  /-- The rows in key order, unless they lie in it. -/
  selection? : Option RowSelection := none
  /-- The charge for the encoded keys. -/
  keyCharge : Memory.ChargeId

namespace SortedRun

/-- Charges the keys of a chunk to a tracker. -/
def ofKeys (chunk : Chunk) (keys : EncodedKeys) (selection? : Option RowSelection)
    (tracker : Memory.TrackerId) : Action SortedRun := do
  let keyCharge ← Workspace.withLedger fun l => l.charge tracker (Memory.clampBytes keys.bytes)
  pure { chunk, keys, selection?, keyCharge }

/-- Number of rows. -/
def length (r : SortedRun) : Nat := r.chunk.length

/-- The physical row at a position of the key order. -/
def rowAt (r : SortedRun) (position : Nat) : Nat :=
  match r.selection? with
  | some s => s.row position
  | none => position

/-- The keys at a position of the key order. -/
def keyAt (r : SortedRun) (position : Nat) : List Value := r.keys.row (r.rowAt position)

/-- The physical rows in key order. -/
def rows (r : SortedRun) : List Nat := (List.range r.length).map r.rowAt

/-- Bytes held in memory: the chunk's share of its charge, the keys and the selection. -/
def bytes (r : SortedRun) : Nat :=
  r.chunk.logicalBytes + r.keys.bytes + (r.selection?.map RowSelection.bytes).getD 0

/-- The charges of keys and selection. -/
def orderCharges (r : SortedRun) : List Memory.ChargeId :=
  r.keyCharge :: (r.selection?.bind RowSelection.charge?).toList

/-- The charges a run holds. -/
def charges (r : SortedRun) : List Memory.ChargeId := r.chunk.charge?.toList ++ r.orderCharges

/-- Lets go of a run. -/
def drop (r : SortedRun) : Action Unit := Workspace.dropAll r.charges

/-- Sorts the chunk through a selection that covers it. -/
def sort (order : RowOrder) (chunk : Chunk) (selection : RowSelection)
    (tracker : Memory.TrackerId) : Work SortedRun := do
  if selection.offsets.size ≠ chunk.length then
    throw (.unsupported (s!"selection vector covers {selection.offsets.size} rows but the batch " ++
      s!"has {chunk.length}"))
  let keys ← (order.encode chunk.batch).mapError KeyFault.failure
  let offsets := (sortRows order keys selection.offsets.toList).toArray
  ofKeys chunk keys (some { selection with offsets }) tracker

end SortedRun

end SpillSort
