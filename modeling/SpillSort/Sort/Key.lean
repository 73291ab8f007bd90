import SpillSort.Data.Batch

/-!
# Sort keys and the order of rows

The keys of an ORDER BY name columns. Resolved against a schema they become a `RowOrder`, which
encodes the keys of a batch once and compares encoded rows key by key from the left.

* `RowOrder.resolve` refuses missing columns and types without an order.
* `RowOrder.encode` refuses batches of another schema.
* `RowOrder.compare` is the order; `EncodedKeys.bytes` the memory the encoded keys take.
-/

namespace SpillSort

/-- The column a sort key reads. -/
inductive KeyColumn where
  | named (name : String)
  | position (index : Nat)
  deriving DecidableEq, Repr

/-- The text of a key column. -/
def KeyColumn.display : KeyColumn → String
  | named name => name
  | position index => s!"#{index}"

/-- One key of an ORDER BY. -/
structure SortKey where
  column : KeyColumn
  ascending : Bool
  nullsFirst : Bool
  deriving DecidableEq, Repr

namespace SortKey

/-- Ascending, nulls last. -/
def asc (name : String) : SortKey := ⟨.named name, true, false⟩

/-- Descending, nulls first. -/
def desc (name : String) : SortKey := ⟨.named name, false, true⟩

/-- The order of values under the key. -/
def order (k : SortKey) : KeyOrder := ⟨!k.ascending, k.nullsFirst⟩

end SortKey

mutual

/-- Whether the values of a type have an order: maps have none, nor has anything that holds one. -/
def DataType.comparable : DataType → Bool
  | .scalar _ => true
  | .list t => t.comparable
  | .struct fs => Field.allComparable fs
  | .map => false

/-- Whether the values of all fields have an order. -/
def Field.allComparable : List Field → Bool
  | [] => true
  | .mk _ t _ _ :: fs => t.comparable && Field.allComparable fs

end

/-- Why keys do not fit a schema, or a batch does not fit its keys. -/
inductive KeyFault where
  | noKeys
  | missingColumn (name : String) (schema : Schema)
  | columnOutOfRange (index columns : Nat)
  | notComparable (types : List DataType)
  /-- The types have an order, but their values cannot be encoded. -/
  | notBuilt (fault : ColumnFault)
  | otherSchema (found expected : Schema)

/-- A key fault as a failure. -/
def KeyFault.failure : KeyFault → Failure
  | noKeys => .config "external sort requires at least one order-by key"
  | missingColumn name schema =>
    .schemaChange s!"sort key column '{name}' not found in {schema.display}"
  | columnOutOfRange index columns =>
    .schemaChange s!"sort key column #{index} out of range for {columns} columns"
  | notComparable types =>
    let names := ", ".intercalate (types.map DataType.outline)
    .schemaChange s!"sort keys of type [{names}] are not comparable"
  | notBuilt fault => .schemaChange s!"build sort key comparator: {fault.message}"
  | otherSchema found expected =>
    .schemaChange
      s!"batch schema {found.display} does not match established schema {expected.display}"

/-- The position of a key's column; a name stands for the first column that bears it. -/
def KeyColumn.resolve (schema : Schema) : KeyColumn → Except KeyFault (Fin schema.fields.length)
  | named name =>
    match schema.indexOf? name with
    | some index => .ok index
    | none => .error (.missingColumn name schema)
  | position index =>
    if h : index < schema.fields.length then .ok ⟨index, h⟩
    else .error (.columnOutOfRange index schema.fields.length)

/-- The encoded keys of a batch, by physical row. -/
structure EncodedKeys where
  rows : Array (List Value)
  bytes : Nat

/-- The keys of a row; a row out of range has none. -/
def EncodedKeys.row (k : EncodedKeys) (i : Nat) : List Value := k.rows.getD i []

/-- The keys of an ORDER BY on one schema: the columns they read, their types and orders. -/
structure RowOrder where
  schema : Schema
  columns : List (Fin schema.fields.length)
  types : List DataType
  orders : List KeyOrder
  deriving Inhabited

namespace RowOrder

/-- Sets up the encoding of values of some types, which asks for their order once more. -/
def setUp (types : List DataType) : Except ColumnFault Unit :=
  if types.all DataType.comparable then .ok ()
  else
    let names := ", ".intercalate (types.map DataType.outline)
    .error (.notImplemented s!"Row format support not yet implemented for: [{names}]")

theorem setUp_of_comparable {types : List DataType} (h : types.all DataType.comparable = true) :
    setUp types = .ok () :=
  if_pos h

/-- Fits keys to a schema. -/
def resolve (schema : Schema) (keys : List SortKey) : Except KeyFault RowOrder := do
  if keys.isEmpty then throw .noKeys
  let columns ← keys.mapM fun k => k.column.resolve schema
  let types := columns.map fun i => schema.fields[i].type
  if types.all DataType.comparable then
    (setUp types).mapError .notBuilt
    pure { schema, columns, types, orders := keys.map SortKey.order }
  else throw (.notComparable types)

/-- Number of keys. -/
def keyCount (o : RowOrder) : Nat := o.columns.length

/-- Bytes assumed for an output row. -/
def rowWidth (o : RowOrder) : Nat := o.schema.rowWidth

/-- Bytes of the encoded keys of a row. -/
def keyBytes (o : RowOrder) (row : List Value) : Nat :=
  total ((o.types.zip row).map fun (t, v) => Value.keyBytesOf t v)

/-- The keys of the batch's rows, in physical order. -/
def keyRows (o : RowOrder) (b : Batch) : Array (List Value) :=
  let columns := o.columns.map fun k => b.columns.getD k.val #[]
  (Array.range b.rows).map fun i => columns.map fun c => c.getD i .null

/-- Encodes the keys of a batch of the established schema. -/
def encode (o : RowOrder) (b : Batch) : Except KeyFault EncodedKeys :=
  if b.schema ≠ o.schema then .error (.otherSchema b.schema o.schema)
  else
    let rows := o.keyRows b
    .ok { rows, bytes := 72 + 8 * (b.rows + 1) + rows.foldl (fun n r => n + o.keyBytes r) 0 }

/-- The order of rows by their keys. -/
def compare (o : RowOrder) (a b : List Value) : Ordering := compareRows o.orders a b

/-- Whether row `a` may stand before row `b`. -/
def le (o : RowOrder) (a b : List Value) : Bool := (o.compare a b).isLE

/-- Whether row `a` has to stand before row `b`. -/
def lt (o : RowOrder) (a b : List Value) : Bool := (o.compare a b).isLT

/-- Rows of several batches of the schema as one batch. -/
def copyRows (o : RowOrder) (batches : Array Batch) (indices : Array (Nat × Nat)) :
    Except ColumnFault Batch :=
  Batch.gather o.schema batches indices

end RowOrder

end SpillSort
