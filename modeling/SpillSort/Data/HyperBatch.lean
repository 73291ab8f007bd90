import SpillSort.Data.Batch
import SpillSort.Selection

/-!
# Hyper-batches

Many batches of one schema, addressed as a whole by the entries of a `GlobalSelection`.
-/

namespace SpillSort

/-- Batches of one schema, by ordinal. -/
structure HyperBatch where
  schema : Schema
  batches : Array Batch

namespace HyperBatch

/-- Joins batches, as many as entries can address and all with the fields of `schema`. -/
def ofBatches (schema : Schema) (batches : Array Batch) : Except ColumnFault HyperBatch :=
  if maxSelectionBatches < batches.size then
    .error (.invalidArgument
      s!"hyper-batch holds {batches.size} batches, at most {maxSelectionBatches} are addressable")
  else
    match batches.findIdx? (fun b => b.schema ≠ schema) with
    | none => .ok { schema, batches }
    | some i =>
      let found := ((batches[i]?).map fun b => b.schema.detail).getD ""
      .error (.schema s!"hyper-batch member {i} has schema {found}, expected {schema.detail}")

/-- Rows of all batches together. -/
def totalRows (h : HyperBatch) : Nat := total (h.batches.toList.map Batch.rows)

/-- The rows named by entries, in order, as one batch. -/
def gather (h : HyperBatch) (entries : Array UInt32) : Except ColumnFault Batch :=
  Batch.gather h.schema h.batches
    (entries.map fun e => (GlobalSelection.batchOf e, GlobalSelection.rowOf e))

end HyperBatch

end SpillSort
