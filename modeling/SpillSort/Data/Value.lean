import SpillSort.Data.Schema

/-!
# Values

The values of columns and their order. A null has the place its key gives it, whatever the
direction; other values of one type compare naturally, reversed in a descending key. Lists and
structs compare item by item under the same rules, then by length.

* `Value.compareWith` compares two values under one key, `compareRows` two rows under several.
* `Value.keyBytesOf` is the length of a value's encoded key.
-/

namespace SpillSort

/-- A value of any column type: integers stand for all integer, decimal and time types, `items` for
lists, structs and map entries. -/
inductive Value where
  | null
  | bool (b : Bool)
  | int (i : Int)
  | float32 (bits : UInt32)
  | float64 (bits : UInt64)
  | text (s : String)
  | bytes (bs : List UInt8)
  | items (vs : List Value)
  deriving Inhabited

/-- Where a key puts nulls, and in which direction it runs. -/
structure KeyOrder where
  descending : Bool
  nullsFirst : Bool
  deriving DecidableEq, Repr

namespace KeyOrder

/-- The natural order of two values in the direction of the key. -/
def direct (o : KeyOrder) (c : Ordering) : Ordering := if o.descending then c.swap else c

/-- How a null compares with a value that is none. -/
def nullSide (o : KeyOrder) : Ordering := if o.nullsFirst then .lt else .gt

end KeyOrder

/-- The place of a float among all floats of its width, by sign and magnitude: negative NaNs come
first, positive ones last, and negative zero just before zero. -/
def floatPlace (width bits : Nat) : Int :=
  let half := Nat.pow 2 (width - 1)
  if bits < half then bits else (half : Int) - 1 - bits

namespace Value

/-- Tells apart values of different types, which no column mixes. -/
def rank : Value → Nat
  | null => 0
  | bool _ => 1
  | int _ => 2
  | float32 _ => 3
  | float64 _ => 4
  | text _ => 5
  | bytes _ => 6
  | items _ => 7

/-- Whether a value is null. -/
def isNull : Value → Bool
  | null => true
  | _ => false

mutual

/-- Compares two values under a key. -/
def compareWith (o : KeyOrder) : Value → Value → Ordering
  | null, null => .eq
  | null, _ => o.nullSide
  | _, null => o.nullSide.swap
  | bool a, bool b => o.direct (compare a b)
  | int a, int b => o.direct (compare a b)
  | float32 a, float32 b =>
    o.direct (compare (floatPlace 32 a.toNat) (floatPlace 32 b.toNat))
  | float64 a, float64 b =>
    o.direct (compare (floatPlace 64 a.toNat) (floatPlace 64 b.toNat))
  | text a, text b => o.direct (compare a b)
  | bytes a, bytes b => o.direct (compare a b)
  | items a, items b => compareItems o a b
  | a, b => o.direct (compare a.rank b.rank)

/-- Compares two lists item by item; the shorter one comes first in an ascending key. -/
def compareItems (o : KeyOrder) : List Value → List Value → Ordering
  | [], [] => .eq
  | [], _ :: _ => o.direct .lt
  | _ :: _, [] => o.direct .gt
  | a :: as, b :: bs => (compareWith o a b).then (compareItems o as bs)

end

/-! ## Sizes of encoded keys -/

/-- Bytes of an encoded text of `n` bytes: one for the empty one; otherwise a first byte and blocks
of 8 bytes with one more each, or of 32 from 33 bytes on. -/
def variableKeyBytes (n : Nat) : Nat :=
  if n ≤ 32 then 1 + (n + 7) / 8 * 9 else 4 + (n + 31) / 32 * 33

mutual

/-- Bytes of the encoded key of a value. -/
def keyBytesOf : DataType → Value → Nat
  | .scalar s, v =>
    match s, v with
    | .null, _ => 0
    | .bool, _ => 2
    | .fixedBinary n, _ => 1 + n
    | _, .text t => variableKeyBytes t.utf8ByteSize
    | _, .bytes bs => variableKeyBytes bs.length
    | s, _ => 1 + s.width?.getD 0
  | .list t, .items vs => 1 + total (vs.map fun v => variableKeyBytes (keyBytesOf t v))
  | .struct fs, .items vs => 1 + structKeyBytes fs vs
  | .struct fs, _ => 1 + structKeyBytes fs []
  | _, _ => 1

/-- Bytes of the encoded fields of a struct; a missing value counts as null. -/
def structKeyBytes : List Field → List Value → Nat
  | [], _ => 0
  | .mk _ t _ _ :: fs, v :: vs => keyBytesOf t v + structKeyBytes fs vs
  | .mk _ t _ _ :: fs, [] => keyBytesOf t .null + structKeyBytes fs []

end

end Value

/-- Compares two rows of key values, key by key from the left; a missing value counts as null. -/
def compareRows : List KeyOrder → List Value → List Value → Ordering
  | [], _, _ => .eq
  | o :: os, as, bs =>
    ((as.headD .null).compareWith o (bs.headD .null)).then (compareRows os as.tail bs.tail)

end SpillSort
