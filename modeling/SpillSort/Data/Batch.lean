import SpillSort.Data.Value
import SpillSort.Failure

/-!
# Batches

A batch holds rows in columns. Besides its values it knows the buffers under each column: a slice
keeps the buffers of the batch it was cut from, a gathered batch has buffers of its own.

* `Buffers.ofColumn` lays out a column that is built from its values.
* `Batch.bytes` is the size of all distinct buffers; of a slice without nulls the null bitmap no
  longer counts.
* `Batch.slice?` cuts out consecutive rows, `Batch.gather` collects rows of several batches.
-/

namespace SpillSort

/-! ## Buffers -/

/-- Bytes of one bit a row. -/
def bitmapBytes (n : Nat) : Nat := (n + 7) / 8

/-- Bytes of a text or binary value. -/
def Value.dataBytes : Value → Nat
  | .text s => s.utf8ByteSize
  | .bytes bs => bs.length
  | _ => 0

/-- The items of a value, none for a null. -/
def Value.itemList : Value → List Value
  | .items vs => vs
  | _ => []

/-- The item of a struct value at a position; a null struct is null in every field. -/
def Value.itemAt (k : Nat) (v : Value) : Value := v.itemList.getD k .null

/-- Whether a column holds a null. -/
def hasNull (vs : List Value) : Bool := vs.any Value.isNull

/-- Bytes of the null bitmap of a column, which only a column with a null has. -/
def nullBytes (vs : List Value) : Nat := if hasNull vs then bitmapBytes vs.length else 0

/-- Bytes of a scalar column's buffers without the null bitmap. -/
def Scalar.dataBytes (s : Scalar) (vs : List Value) : Nat :=
  let n := vs.length
  let data := total (vs.map Value.dataBytes)
  match s with
  | null => 0
  | bool => bitmapBytes n
  | utf8 | binary => 4 * (n + 1) + data
  | largeUtf8 => 8 * (n + 1) + data
  | dictionary => 4 * n + 4 * (n + 1) + data
  | fixedBinary w => n * w
  | s => n * s.width?.getD 0

/-- The null bitmap of a scalar column; a column of the null type needs none. -/
def Scalar.nullBytes (s : Scalar) (vs : List Value) : Nat :=
  if s = .null then 0 else SpillSort.nullBytes vs

/-- The buffers a column was built with. `flat` counts the null bitmap apart from everything else;
the columns of a struct are cut along with it, so they keep buffers of their own. -/
inductive Buffers where
  | flat (data nulls : Nat)
  | parts (nulls : Nat) (columns : List Buffers)

mutual

/-- Bytes of buffers under the rows still in view. -/
def Buffers.bytes : Buffers → List Value → Nat
  | .flat data nulls, vs => data + if hasNull vs then nulls else 0
  | .parts nulls columns, vs => (if hasNull vs then nulls else 0) + Buffers.partBytes columns 0 vs

/-- Bytes of a struct's columns, of which the first stands at position `k`. -/
def Buffers.partBytes : List Buffers → Nat → List Value → Nat
  | [], _, _ => 0
  | b :: bs, k, vs => b.bytes (vs.map (Value.itemAt k)) + Buffers.partBytes bs (k + 1) vs

end

mutual

/-- The buffers of a column built from its values: values, offsets and null bitmap, and the columns
of components. -/
def Buffers.ofColumn : DataType → List Value → Buffers
  | .scalar s, vs => .flat (s.dataBytes vs) (s.nullBytes vs)
  | .list t, vs =>
    let below := vs.flatMap Value.itemList
    .flat (4 * (vs.length + 1) + (Buffers.ofColumn t below).bytes below) (nullBytes vs)
  | .struct fs, vs => .parts (nullBytes vs) (Buffers.ofFields fs 0 vs)
  | .map, vs =>
    let entries := vs.flatMap Value.itemList
    let keys := entries.map (Value.itemAt 0)
    let values := entries.map (Value.itemAt 1)
    .flat (4 * (vs.length + 1) + Scalar.utf8.dataBytes keys + Scalar.int32.dataBytes values
      + nullBytes values) (nullBytes vs)

/-- The buffers of a struct's fields, of which the first stands at position `k`. -/
def Buffers.ofFields : List Field → Nat → List Value → List Buffers
  | [], _, _ => []
  | .mk _ t _ _ :: fs, k, vs =>
    Buffers.ofColumn t (vs.map (Value.itemAt k)) :: Buffers.ofFields fs (k + 1) vs

end

/-! ## Batches -/

/-- Rows in columns, with the buffers of each column; a column that shares the buffers of an earlier
one has none of its own. -/
structure Batch where
  schema : Schema
  rows : Nat
  columns : Array (Array Value)
  buffers : Array (Option Buffers)
  deriving Inhabited

namespace Batch

/-- A batch whose columns have buffers of their own. -/
def ofColumns (schema : Schema) (rows : Nat) (columns : Array (Array Value)) : Batch :=
  { schema, rows, columns
    buffers := columns.mapIdx fun k c =>
      (schema.fields[k]?).map fun f => Buffers.ofColumn f.type c.toList }

/-- Bytes of the distinct buffers under a batch. -/
def bytes (b : Batch) : Nat :=
  let bytesOf : Option Buffers × Array Value → Nat
    | (some f, c) => f.bytes c.toList
    | (none, _) => 0
  total ((b.buffers.zip b.columns).map bytesOf).toList

/-- The value in a column and a row. -/
def value (b : Batch) (column row : Nat) : Value := (b.columns.getD column #[]).getD row .null

/-- `length` rows from `offset` on, over the same buffers. -/
def slice (b : Batch) (offset length : Nat) : Batch :=
  { b with rows := length, columns := b.columns.map fun c => c.extract offset (offset + length) }

/-- `length` rows from `offset` on, if the batch has them. -/
def slice? (b : Batch) (offset length : Nat) : Option Batch :=
  if offset + length ≤ b.rows then some (b.slice offset length) else none

/-- The row named by a batch and a row, in one column. -/
def pick (batches : Array Batch) (column : Nat) (i : Nat × Nat) : Value :=
  match batches[i.1]? with
  | some b => b.value column i.2
  | none => .null

/-- Whether an index names a row of one of the batches. -/
def holds (batches : Array Batch) (i : Nat × Nat) : Bool :=
  match batches[i.1]? with
  | some b => i.2 < b.rows
  | none => false

/-- The rows named by pairs of batch and row, in order, as one batch. -/
def gather (schema : Schema) (batches : Array Batch) (indices : Array (Nat × Nat)) :
    Except ColumnFault Batch :=
  if schema.fields.isEmpty then
    .error (.invalidArgument "must either specify a row count or at least one column")
  else if batches.isEmpty then
    .error (.invalidArgument "interleave requires input of at least one array")
  else if indices.any (fun i => !holds batches i) then .error .outOfRange
  else
    .ok (ofColumns schema indices.size
      ((Array.range schema.fields.length).map fun k => indices.map (pick batches k)))

end Batch

end SpillSort
