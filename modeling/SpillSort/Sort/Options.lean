import SpillSort.Sort.Key
import SpillSort.Spill.Codec

/-!
# Options of a sort

What a sort is asked for and what it may use, with the defaults, and which options make sense.

* `SortOptions.check` refuses options that do not, in a fixed order.
* `chunkRows` is the number of rows of a merged chunk.
-/

namespace SpillSort

/-- Rows of a merged chunk: about `targetBytes` of data at `rowWidth` bytes a row, at least one row
and at most `maxRows`. -/
def chunkRows (rowWidth targetBytes maxRows : Nat) : Nat :=
  min (max (targetBytes / max rowWidth 1) 1) (max maxRows 1)

/-- Most bytes that are merged in memory, unless options say otherwise. -/
def defaultMaxInMemory : Nat := 1073741824

/-- The options of a sort. -/
structure SortOptions where
  keys : List SortKey
  /-- Groups staged since the last spill before their number counts. -/
  groupSize : Nat := 40000
  /-- Groups in memory beyond which their number counts. -/
  threshold : Nat := 40000
  directories : List String
  codec : Spill.Codec := .lz4
  maxAllocation : Int64 := 10000000000
  /-- Bytes aimed at in a merged chunk. -/
  chunkBytes : Nat := 262144
  /-- Most rows of an output. -/
  outputRows : Nat := 4096
  /-- Milliseconds of the first wait for memory. -/
  retryMillis : Nat := 1000
  /-- Most bytes that are merged in memory. -/
  maxInMemory : Nat := defaultMaxInMemory

namespace SortOptions

/-- Accepts options under which a sort can run. -/
def check (o : SortOptions) : Except Failure Unit :=
  if o.keys.isEmpty then .error (.config "external sort requires at least one order-by key")
  else if o.directories.isEmpty then .error (.config "sort.spill_dirs is empty")
  else if o.maxAllocation ≤ 0 then
    .error (.config s!"sort.max_allocation_bytes must be positive, got {o.maxAllocation}")
  else if o.outputRows = 0 then .error (.config "sort.output_batch_rows must be positive")
  else .ok ()

/-- Rows of the merged chunks of an order. -/
def chunkRows (o : SortOptions) (order : RowOrder) : Nat :=
  SpillSort.chunkRows order.rowWidth o.chunkBytes o.outputRows

end SortOptions

end SpillSort
