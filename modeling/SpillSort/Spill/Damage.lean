import SpillSort.Spill.Block
import SpillSort.Spill.Disk

/-!
# Damage to spill files

What may happen to a spill file behind the back of its holder. Words of the header or of an index
entry are overwritten in place; which bytes make up the index is read off the header as it is.
-/

namespace SpillSort.Spill

/-- A damage to a spill file. New words may depend on the size of the file. -/
inductive Damage where
  | unlink
  /-- An empty directory takes the place of the file. -/
  | obstruct
  /-- The file gets a size, with zeros at its end if it grows. -/
  | resize (size : Nat)
  | header (position width : Nat) (word : Nat → Nat)
  | entry (index position width : Nat) (word : Nat → Nat)
  | swapEntries (i j : Nat)

namespace Damage

/-- Overwrites bytes. -/
def overwrite (position : Nat) (new bytes : List UInt8) : List UInt8 :=
  bytes.take position ++ new ++ bytes.drop (position + new.length)

/-- The position of an index entry. -/
def entryPosition (bytes : List UInt8) (index : Nat) : Nat :=
  wordAt bytes 16 8 + index * entryLength

/-- The content of a damaged file. -/
def edit (bytes : List UInt8) : Damage → List UInt8
  | unlink | obstruct => bytes
  | resize size => bytes.take size ++ List.replicate (size - bytes.length) 0
  | header position width word =>
    overwrite position (littleEndian width (word bytes.length)) bytes
  | entry index position width word =>
    overwrite (entryPosition bytes index + position) (littleEndian width (word bytes.length)) bytes
  | swapEntries i j =>
    let record (k : Nat) : List UInt8 := (bytes.drop (entryPosition bytes k)).take entryLength
    overwrite (entryPosition bytes i) (record j)
      (overwrite (entryPosition bytes j) (record i) bytes)

/-- Damages the file at a path. -/
def apply (path : String) (d : Disk) (damage : Damage) : Disk :=
  let removed := (d.removeFile path).toOption.getD d
  match damage, d.openFile path with
  | unlink, _ => removed
  | obstruct, _ => (removed.makeDirectory (.ofPath path)).toOption.getD removed
  | _, .ok (.file c) =>
    d.write c ⟨(damage.edit (d.contents.getD c .empty).data.toList).toArray⟩
  | _, _ => d

end Damage

end SpillSort.Spill
