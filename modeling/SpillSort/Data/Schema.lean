import SpillSort.Text.Quoted
import SpillSort.Total

/-!
# Schemas

The types of columns, the fields that name them, and the one text each has in messages and hashes.

* Types and fields have decidable equality: two schemas agree if their fields do, with names, types,
  nullability and tags.
* `DataType.detail` and `Field.detail` are the full texts, `DataType.outline` the short one of a
  struct.
* `Schema.hash` is the 64-bit FNV-1a hash of the schema's text.
-/

namespace SpillSort

/-- The types without components. -/
inductive Scalar where
  | null
  | bool
  | int8
  | int16
  | int32
  | int64
  | uint8
  | uint16
  | uint32
  | uint64
  | float32
  | float64
  | utf8
  | largeUtf8
  | binary
  | fixedBinary (width : Nat)
  | decimal (precision : Nat) (scale : Int)
  | date32
  | date64
  | timestamp
  | dictionary
  deriving DecidableEq, Repr

mutual

/-- The type of a column. A map goes from texts to 32-bit integers. -/
inductive DataType where
  | scalar (s : Scalar)
  | list (item : DataType)
  | struct (fields : List Field)
  | map

/-- A named column: its type, whether it may hold nulls, and its tags. -/
inductive Field where
  | mk (name : String) (type : DataType) (nullable : Bool) (tags : List (String × String))

end

namespace Field

/-- The name of a field. -/
def name : Field → String
  | mk n _ _ _ => n

/-- The type of a field. -/
def type : Field → DataType
  | mk _ t _ _ => t

/-- Whether a field may hold nulls. -/
def nullable : Field → Bool
  | mk _ _ b _ => b

/-- The tags of a field. -/
def tags : Field → List (String × String)
  | mk _ _ _ m => m

end Field

mutual

/-- Decides whether two types are the same. -/
def DataType.decEq : (a b : DataType) → Decidable (a = b)
  | .scalar s, .scalar t => decidable_of_iff (s = t) (by simp)
  | .list s, .list t =>
    match DataType.decEq s t with
    | .isTrue h => .isTrue (by rw [h])
    | .isFalse h => .isFalse (by simpa using h)
  | .struct fs, .struct gs =>
    match Field.decEqList fs gs with
    | .isTrue h => .isTrue (by rw [h])
    | .isFalse h => .isFalse (by simpa using h)
  | .map, .map => .isTrue rfl
  | .scalar _, .list _ | .scalar _, .struct _ | .scalar _, .map => .isFalse nofun
  | .list _, .scalar _ | .list _, .struct _ | .list _, .map => .isFalse nofun
  | .struct _, .scalar _ | .struct _, .list _ | .struct _, .map => .isFalse nofun
  | .map, .scalar _ | .map, .list _ | .map, .struct _ => .isFalse nofun

/-- Decides whether two fields are the same. -/
def Field.decEq : (a b : Field) → Decidable (a = b)
  | .mk n s b m, .mk n' t b' m' =>
    match DataType.decEq s t with
    | .isTrue h => decidable_of_iff (n = n' ∧ b = b' ∧ m = m') (by simp [h])
    | .isFalse h => .isFalse (by simp [h])

/-- Decides whether two lists of fields are the same. -/
def Field.decEqList : (a b : List Field) → Decidable (a = b)
  | [], [] => .isTrue rfl
  | [], _ :: _ | _ :: _, [] => .isFalse nofun
  | f :: fs, g :: gs =>
    match Field.decEq f g with
    | .isFalse h => .isFalse (by simp [h])
    | .isTrue h =>
      match Field.decEqList fs gs with
      | .isTrue h' => .isTrue (by rw [h, h'])
      | .isFalse h' => .isFalse (by simp [h'])

end

instance : Inhabited DataType := ⟨.map⟩

instance : Inhabited Field := ⟨.mk "" .map true []⟩

instance : DecidableEq DataType := DataType.decEq

instance : DecidableEq Field := Field.decEq

/-! ## Texts -/

/-- The text of a type without components. -/
def Scalar.detail : Scalar → String
  | null => "Null"
  | bool => "Boolean"
  | int8 => "Int8"
  | int16 => "Int16"
  | int32 => "Int32"
  | int64 => "Int64"
  | uint8 => "UInt8"
  | uint16 => "UInt16"
  | uint32 => "UInt32"
  | uint64 => "UInt64"
  | float32 => "Float32"
  | float64 => "Float64"
  | utf8 => "Utf8"
  | largeUtf8 => "LargeUtf8"
  | binary => "Binary"
  | fixedBinary n => s!"FixedSizeBinary({n})"
  | decimal p s => s!"Decimal128({p}, {s})"
  | date32 => "Date32"
  | date64 => "Date64"
  | timestamp => "Timestamp(Microsecond, None)"
  | dictionary => "Dictionary(Int32, Utf8)"

/-- The text of a field whose type has the text `type`. -/
def fieldDetail (name type : String) (nullable : Bool) (tags : List (String × String)) : String :=
  let tagged := ", ".intercalate (tags.map fun (k, v) => Text.quoted k ++ ": " ++ Text.quoted v)
  "Field \x7b name: " ++ Text.quoted name ++ ", data_type: " ++ type
    ++ s!", nullable: {nullable}, dict_id: 0, dict_is_ordered: false, metadata: "
    ++ "\x7b" ++ tagged ++ "\x7d \x7d"

/-- The text of a map type: non-null entries of non-null keys and nullable values. -/
def mapDetail : String :=
  let keys := fieldDetail "keys" "Utf8" false []
  let values := fieldDetail "values" "Int32" true []
  "Map(" ++ fieldDetail "entries" ("Struct([" ++ keys ++ ", " ++ values ++ "])") false []
    ++ ", false)"

mutual

/-- The full text of a type. -/
def DataType.detail : DataType → String
  | .scalar s => s.detail
  | .list t => "List(" ++ fieldDetail "item" t.detail true [] ++ ")"
  | .struct fs => "Struct([" ++ ", ".intercalate (Field.details fs) ++ "])"
  | .map => mapDetail

/-- The full text of a field. -/
def Field.detail : Field → String
  | .mk n t b m => fieldDetail n t.detail b m

/-- The full texts of fields. -/
def Field.details : List Field → List String
  | [] => []
  | f :: fs => f.detail :: Field.details fs

end

mutual

/-- The short text of a type: a struct shows names and types only. -/
def DataType.outline : DataType → String
  | .struct fs => "Struct(" ++ ", ".intercalate (Field.outlines fs) ++ ")"
  | t => t.detail

/-- The short texts of fields. -/
def Field.outlines : List Field → List String
  | [] => []
  | .mk n t _ _ :: fs => (n ++ " " ++ t.outline) :: Field.outlines fs

end

/-! ## Schemas -/

/-- The fields of a batch, in order. -/
structure Schema where
  fields : List Field
  deriving DecidableEq, Inhabited

namespace Schema

/-- The text of a schema in messages. -/
def display (s : Schema) : String := ", ".intercalate (s.fields.map Field.detail)

/-- The text of a schema with its name. -/
def detail (s : Schema) : String :=
  "Schema \x7b fields: [" ++ s.display ++ "], metadata: \x7b\x7d \x7d"

/-- The position of the first field called `name`. -/
def indexOf? (s : Schema) (name : String) : Option (Fin s.fields.length) :=
  s.fields.findFinIdx? (·.name = name)

/-- The 64-bit FNV-1a hash of some bytes. -/
def fnv1a (bytes : ByteArray) : UInt64 :=
  bytes.foldl (fun h b => (h ^^^ b.toUInt64) * 0x100000001b3) 0xcbf29ce484222325

/-- The hash of a schema's text. -/
def hash (s : Schema) : UInt64 := fnv1a s.display.toUTF8

end Schema

/-! ## Widths -/

/-- Bytes of a value in a column of fixed-width numbers or times. -/
def Scalar.width? : Scalar → Option Nat
  | int8 | uint8 => some 1
  | int16 | uint16 => some 2
  | int32 | uint32 | float32 | date32 => some 4
  | int64 | uint64 | float64 | date64 | timestamp => some 8
  | decimal _ _ => some 16
  | null | bool | utf8 | largeUtf8 | binary | fixedBinary _ | dictionary => none

/-- Bytes assumed for a value without a fixed width. -/
def variableWidth : Nat := 50

/-- Bytes assumed for a value of a type. -/
def DataType.rowWidth : DataType → Nat
  | .scalar .null => 0
  | .scalar .bool => 1
  | .scalar s => s.width?.getD variableWidth
  | .list _ | .struct _ | .map => variableWidth

/-- Bytes assumed for a row, at least one. -/
def Schema.rowWidth (s : Schema) : Nat := max (total (s.fields.map (·.type.rowWidth))) 1

end SpillSort
