import SpillSort.Spill.Format
import SpillSort.Spill.Term

/-!
# Messages

A message carries batches together with their schema, so that it can be read back without knowing
either. Types, values and batches become terms, and a message is the notation of one term behind a
leading mark.

* `Message.encode` writes the batches of one schema, `Message.readBatches` reads them.
* `Value.ofTerm?_toTerm`, `DataType.ofTerm?_toTerm` and `Message.readBatches_encode` say that
  reading gives back what was written.
* `Message.format` is the format of spill files with messages like these. It compresses nothing.
-/

namespace SpillSort

open Spill

/-! ## Numbers and texts -/

/-- An integer as a natural number: even ones are not negative. -/
def foldInt : Int → Nat
  | .ofNat n => 2 * n
  | .negSucc n => 2 * n + 1

/-- The integer behind a natural number. -/
def unfoldInt (n : Nat) : Int := if n % 2 = 0 then .ofNat (n / 2) else .negSucc (n / 2)

theorem unfoldInt_foldInt (i : Int) : unfoldInt (foldInt i) = i := by
  cases i with
  | ofNat n => simp [foldInt, unfoldInt]
  | negSucc n =>
    have h : (2 * n + 1) / 2 = n := by omega
    simp [foldInt, unfoldInt, h]

/-- Numbers as a term. -/
def numbers (ns : List Nat) : Term := .node (ns.map .num)

/-- The number of a term. -/
def numberOf? : Term → Option Nat
  | .num n => some n
  | .node _ => none

/-- The numbers of a term. -/
def numbersOf? : Term → Option (List Nat)
  | .num _ => none
  | .node ts => ts.mapM numberOf?

theorem numbersOf?_numbers (ns : List Nat) : numbersOf? (numbers ns) = some ns := by
  simp only [numbers, numbersOf?]
  induction ns with
  | nil => rfl
  | cons n ns ih => simp [List.mapM_cons, numberOf?, ih]

/-- A text as a term. -/
def textTerm (s : String) : Term := numbers (s.toList.map Char.toNat)

/-- The text of a term. -/
def textOf? (t : Term) : Option String :=
  (numbersOf? t).map fun ns => String.ofList (ns.map Char.ofNat)

theorem ofNat_toNat_map (cs : List Char) : (cs.map Char.toNat).map Char.ofNat = cs := by
  induction cs with
  | nil => rfl
  | cons c cs ih => simp [Char.ofNat_toNat, -List.map_map, ih]

theorem textOf?_textTerm (s : String) : textOf? (textTerm s) = some s := by
  rw [textTerm, textOf?, numbersOf?_numbers, Option.map_some, ofNat_toNat_map, String.ofList_toList]

/-! ## Values -/

namespace Value

mutual

/-- A value as a term. -/
def toTerm : Value → Term
  | null => .node []
  | int i => .num (foldInt i)
  | bool b => .node [.num 0, .num b.toNat]
  | float32 b => .node [.num 1, .num b.toNat]
  | float64 b => .node [.num 2, .num b.toNat]
  | text s => .node [.num 3, textTerm s]
  | bytes bs => .node [.num 4, numbers (bs.map UInt8.toNat)]
  | items vs => .node [.num 5, .node (toTerms vs)]

/-- Values as terms. -/
def toTerms : List Value → List Term
  | [] => []
  | v :: vs => v.toTerm :: toTerms vs

end

mutual

/-- The value of a term. -/
def ofTerm? : Term → Option Value
  | .num n => some (int (unfoldInt n))
  | .node [] => some null
  | .node [.num 0, t] => (numberOf? t).map fun n => bool (n != 0)
  | .node [.num 1, t] => (numberOf? t).map fun n => float32 (UInt32.ofNat n)
  | .node [.num 2, t] => (numberOf? t).map fun n => float64 (UInt64.ofNat n)
  | .node [.num 3, t] => (textOf? t).map text
  | .node [.num 4, t] => (numbersOf? t).map fun ns => bytes (ns.map UInt8.ofNat)
  | .node [.num 5, .node ts] => (ofTerms? ts).map items
  | _ => none

/-- The values of terms. -/
def ofTerms? : List Term → Option (List Value)
  | [] => some []
  | t :: ts =>
    match ofTerm? t, ofTerms? ts with
    | some v, some vs => some (v :: vs)
    | _, _ => none

end

theorem ofNat_toNat_bytes (bs : List UInt8) : (bs.map UInt8.toNat).map UInt8.ofNat = bs := by
  induction bs with
  | nil => rfl
  | cons b bs ih => simp [-List.map_map, ih]

mutual

theorem ofTerm?_toTerm : ∀ v : Value, ofTerm? v.toTerm = some v
  | null => by simp [toTerm, ofTerm?]
  | int i => by simp [toTerm, ofTerm?, unfoldInt_foldInt]
  | bool b => by cases b <;> simp [toTerm, ofTerm?, numberOf?]
  | float32 b => by simp [toTerm, ofTerm?, numberOf?]
  | float64 b => by simp [toTerm, ofTerm?, numberOf?]
  | text s => by simp [toTerm, ofTerm?, textOf?_textTerm]
  | bytes bs => by simp [toTerm, ofTerm?, numbersOf?_numbers, ofNat_toNat_bytes, -List.map_map]
  | items vs => by simp [toTerm, ofTerm?, ofTerms?_toTerms vs]

theorem ofTerms?_toTerms : ∀ vs : List Value, ofTerms? (toTerms vs) = some vs
  | [] => by simp [toTerms, ofTerms?]
  | v :: vs => by simp [toTerms, ofTerms?, ofTerm?_toTerm v, ofTerms?_toTerms vs]

end

end Value

/-! ## Types -/

namespace Scalar

/-- The types without parameters, by number. -/
def plain : List Scalar :=
  [null, bool, int8, int16, int32, int64, uint8, uint16, uint32, uint64, float32, float64, utf8,
    largeUtf8, binary, date32, date64, timestamp, dictionary]

/-- A scalar type as a term. -/
def toTerm : Scalar → Term
  | fixedBinary w => numbers [0, w]
  | decimal p s => numbers [1, p, foldInt s]
  | s => .num (plain.idxOf s)

/-- The scalar type of a term. -/
def ofTerm? : Term → Option Scalar
  | .num n => plain[n]?
  | .node [.num 0, .num w] => some (fixedBinary w)
  | .node [.num 1, .num p, .num s] => some (decimal p (unfoldInt s))
  | _ => none

theorem ofTerm?_toTerm (s : Scalar) : ofTerm? s.toTerm = some s := by
  cases s <;> first | rfl | simp [toTerm, ofTerm?, numbers, unfoldInt_foldInt]

end Scalar

/-- Tags as a term. -/
def tagsTerm (tags : List (String × String)) : Term :=
  .node (tags.map fun (k, v) => .node [textTerm k, textTerm v])

/-- The tag of a term. -/
def tagOf? : Term → Option (String × String)
  | .node [k, v] =>
    match textOf? k, textOf? v with
    | some k, some v => some (k, v)
    | _, _ => none
  | _ => none

/-- The tags of a term. -/
def tagsOf? : Term → Option (List (String × String))
  | .num _ => none
  | .node ts => ts.mapM tagOf?

theorem tagsOf?_tagsTerm (tags : List (String × String)) : tagsOf? (tagsTerm tags) = some tags := by
  simp only [tagsTerm, tagsOf?]
  induction tags with
  | nil => rfl
  | cons p tags ih => simp [List.mapM_cons, tagOf?, textOf?_textTerm, ih]

mutual

/-- A type as a term. -/
def DataType.toTerm : DataType → Term
  | .scalar s => .node [.num 0, s.toTerm]
  | .list t => .node [.num 1, t.toTerm]
  | .struct fs => .node [.num 2, .node (Field.toTerms fs)]
  | .map => .num 0

/-- A field as a term. -/
def Field.toTerm : Field → Term
  | .mk n t b m => .node [textTerm n, t.toTerm, .num b.toNat, tagsTerm m]

/-- Fields as terms. -/
def Field.toTerms : List Field → List Term
  | [] => []
  | f :: fs => f.toTerm :: Field.toTerms fs

end

mutual

/-- The type of a term. -/
def DataType.ofTerm? : Term → Option DataType
  | .num _ => some .map
  | .node [.num 0, t] => (Scalar.ofTerm? t).map .scalar
  | .node [.num 1, t] => (DataType.ofTerm? t).map .list
  | .node [.num 2, .node ts] => (Field.ofTerms? ts).map .struct
  | _ => none

/-- The field of a term. -/
def Field.ofTerm? : Term → Option Field
  | .node [n, t, .num b, m] =>
    match textOf? n, DataType.ofTerm? t, tagsOf? m with
    | some n, some t, some m => some (.mk n t (b != 0) m)
    | _, _, _ => none
  | _ => none

/-- The fields of terms. -/
def Field.ofTerms? : List Term → Option (List Field)
  | [] => some []
  | t :: ts =>
    match Field.ofTerm? t, Field.ofTerms? ts with
    | some f, some fs => some (f :: fs)
    | _, _ => none

end

mutual

theorem DataType.ofTerm?_toTerm : ∀ t : DataType, DataType.ofTerm? t.toTerm = some t
  | .scalar s => by simp [DataType.toTerm, DataType.ofTerm?, Scalar.ofTerm?_toTerm]
  | .list t => by simp [DataType.toTerm, DataType.ofTerm?, DataType.ofTerm?_toTerm t]
  | .struct fs => by simp [DataType.toTerm, DataType.ofTerm?, Field.ofTerms?_toTerms fs]
  | .map => by simp [DataType.toTerm, DataType.ofTerm?]

theorem Field.ofTerm?_toTerm : ∀ f : Field, Field.ofTerm? f.toTerm = some f
  | .mk n t b m => by
    cases b <;> simp [Field.toTerm, Field.ofTerm?, textOf?_textTerm, tagsOf?_tagsTerm,
      DataType.ofTerm?_toTerm t]

theorem Field.ofTerms?_toTerms : ∀ fs : List Field, Field.ofTerms? (Field.toTerms fs) = some fs
  | [] => by simp [Field.toTerms, Field.ofTerms?]
  | f :: fs => by simp [Field.toTerms, Field.ofTerms?, Field.ofTerm?_toTerm f,
      Field.ofTerms?_toTerms fs]

end

/-! ## Batches and messages -/

namespace Spill.Message

/-- A column as a term. -/
def columnTerm (c : Array Value) : Term := .node (c.toList.map Value.toTerm)

/-- The column of a term. -/
def columnOf? : Term → Option (Array Value)
  | .num _ => none
  | .node ts => (ts.mapM Value.ofTerm?).map List.toArray

/-- The rows and columns of a batch as a term. -/
def batchTerm (b : Batch) : Term :=
  .node [.num b.rows, .node (b.columns.toList.map columnTerm)]

/-- The batch of a term; its columns have buffers of their own. -/
def batchOf? (schema : Schema) : Term → Option Batch
  | .node [.num rows, .node ts] =>
    (ts.mapM columnOf?).map fun cs => Batch.ofColumns schema rows cs.toArray
  | _ => none

/-- What a message begins with. -/
def leadMark : UInt8 := 255

/-- Messages fill blocks of so many bytes. -/
def blockLength : Nat := 512

/-- Zeros for the block that `used` bytes leave unfilled. -/
def filling (used : Nat) : List UInt8 :=
  List.replicate ((blockLength - used % blockLength) % blockLength) 0

/-- The bytes of a message with batches of a schema. The filling stands behind the lead mark. -/
def encode (schema : Schema) (batches : List Batch) : List UInt8 :=
  let code :=
    (Term.node [.node (Field.toTerms schema.fields), .node (batches.map batchTerm)]).code
  leadMark :: (filling (code.length + 1) ++ code)

/-- The schema and the batches of a message; bytes behind it do not matter. -/
def readBatches : List UInt8 → Option (Schema × List Batch)
  | [] => none
  | b :: rest =>
    if b ≠ leadMark then none
    else
      match Term.read rest with
      | some (.node [.node fs, .node bs]) =>
        match Field.ofTerms? fs with
        | some fields => (bs.mapM (batchOf? ⟨fields⟩)).map fun bs => (⟨fields⟩, bs)
        | none => none
      | _ => none

theorem length_encode_mod (schema : Schema) (batches : List Batch) :
    (encode schema batches).length % blockLength = 0 := by
  simp only [encode, filling, blockLength, List.length_cons, List.length_append,
    List.length_replicate]
  omega

theorem mapM_ofTerm? (vs : List Value) : (vs.map Value.toTerm).mapM Value.ofTerm? = some vs := by
  induction vs with
  | nil => rfl
  | cons v vs ih => simp [List.mapM_cons, Value.ofTerm?_toTerm, ih]

theorem columnOf?_columnTerm (c : Array Value) : columnOf? (columnTerm c) = some c := by
  rw [columnTerm, columnOf?, mapM_ofTerm?, Option.map_some]

theorem mapM_columnOf? (cs : List (Array Value)) :
    (cs.map columnTerm).mapM columnOf? = some cs := by
  induction cs with
  | nil => rfl
  | cons c cs ih => simp [List.mapM_cons, columnOf?_columnTerm, ih]

theorem batchOf?_batchTerm (schema : Schema) (b : Batch) :
    batchOf? schema (batchTerm b) = some (Batch.ofColumns schema b.rows b.columns) := by
  rw [batchTerm, batchOf?, mapM_columnOf?, Option.map_some]

theorem mapM_batchOf? (schema : Schema) (bs : List Batch) :
    (bs.map batchTerm).mapM (batchOf? schema) =
      some (bs.map fun b => Batch.ofColumns schema b.rows b.columns) := by
  induction bs with
  | nil => rfl
  | cons b bs ih => simp [List.mapM_cons, batchOf?_batchTerm, ih]

theorem readBatches_encode (schema : Schema) (bs : List Batch) (rest : List UInt8) :
    readBatches (encode schema bs ++ rest) =
      some (schema, bs.map fun b => Batch.ofColumns schema b.rows b.columns) := by
  simp [encode, filling, readBatches, Term.read_code, Term.read_zeros, Field.ofTerms?_toTerms,
    mapM_batchOf?, -List.mapM_map]

/-- A message has a mark, so that it fills at least one block. -/
theorem blockLength_le_length_encode (schema : Schema) (batches : List Batch) :
    blockLength ≤ (encode schema batches).length := by
  have hmod := length_encode_mod schema batches
  have hpos : 0 < (encode schema batches).length := by simp [encode]
  rw [blockLength] at hmod ⊢
  omega

/-- Messages with one batch, in no codec. -/
instance format : MessageFormat where
  encode _ b := encode b.schema [b]
  read bytes :=
    match readBatches bytes with
    | none => .error (.undecodable "not a message")
    | some (_, batches) => .ok (batches.map .ok)
  read_encode _ b := by
    have hread := readBatches_encode b.schema [b] []
    rw [List.append_nil] at hread
    rw [hread]
    rfl
  entryLength_le _ b := Nat.le_trans (by decide) (blockLength_le_length_encode b.schema [b])

end Spill.Message

end SpillSort
