import SpillSort.Selection
import SpillSort.Sort.Run

/-!
# Merging selections

The orders of all runs become one global selection. They are laid out one after the other in a
buffer, and then neighbours are merged from this buffer into a second one and back, until a single
segment is left. A segment is given by the bounds between which it lies.

* `mergePair` merges two segments, of equal keys the left one first; `mergePass` merges every segment
  with its neighbour, and `mergePasses` goes on until there is one.
* `mergeRuns` is the whole. Whatever is out of range, and passes that do not end, come to `none`.
-/

namespace SpillSort

/-- The entries of a run in key order, as the batch at an ordinal. -/
def SortedRun.entries (r : SortedRun) (batch : Nat) : List UInt32 :=
  r.rows.map (GlobalSelection.pack batch)

namespace GlobalMerge

/-! ## Buffers -/

/-- The entries from `lo` up to `hi`. -/
def slice? (buffer : Array UInt32) (lo hi : Nat) : Option (List UInt32) :=
  if lo ≤ hi ∧ hi ≤ buffer.size then some (buffer.extract lo hi).toList else none

/-- Writes an entry at a position below `hi`. -/
def write? (buffer : Array UInt32) (hi position : Nat) (e : UInt32) : Option (Array UInt32) :=
  if position < hi ∧ hi ≤ buffer.size then some (buffer.setIfInBounds position e) else none

/-- Writes entries from a position on, one after the other. -/
def writeFrom (position : Nat) : List UInt32 → Array UInt32 → Array UInt32
  | [], buffer => buffer
  | e :: es, buffer => writeFrom (position + 1) es (buffer.setIfInBounds position e)

/-- Copies entries to where they just fit, from `lo` up to `hi`. -/
def copy? (buffer : Array UInt32) (lo hi : Nat) (es : List UInt32) : Option (Array UInt32) :=
  if lo ≤ hi ∧ hi ≤ buffer.size ∧ es.length = hi - lo then some (writeFrom lo es buffer) else none

/-! ## Passes -/

/-- The keys of the row that an entry names. -/
def key? (keys : Array EncodedKeys) (e : UInt32) : Option (List Value) :=
  keys[GlobalSelection.batchOf e]?.bind fun k => k.rows[GlobalSelection.rowOf e]?

/-- Merges two segments into a buffer, from a position up to `hi`, in at most `count` steps. -/
def mergePair (order : RowOrder) (keys : Array EncodedKeys) (hi : Nat) :
    (count : Nat) → (left right : List UInt32) → (position : Nat) → Array UInt32 →
      Option (Array UInt32)
  | 0, _ :: _, _ :: _, _, _ => none
  | count + 1, a :: left, b :: right, position, out => do
    let keyOfRight ← key? keys b
    let keyOfLeft ← key? keys a
    if order.lt keyOfRight keyOfLeft then
      let out ← write? out hi position b
      mergePair order keys hi count (a :: left) right (position + 1) out
    else
      let out ← write? out hi position a
      mergePair order keys hi count left (b :: right) (position + 1) out
  | _, left, right, position, out => do
    let out ← copy? out position (position + left.length) left
    copy? out (position + left.length) hi right

/-- Merges each segment with its neighbour from one buffer into another, the last one with nothing
if it has none, and gives the bounds behind the first one. -/
def mergePass (order : RowOrder) (keys : Array EncodedKeys) (src : Array UInt32) :
    (bounds : List Nat) → Array UInt32 → Option (List Nat × Array UInt32)
  | lo :: mid :: hi :: bounds, dst => do
    let left ← slice? src lo mid
    let right ← slice? src mid hi
    let dst ← mergePair order keys hi (left.length + right.length) left right lo dst
    let (bounds, dst) ← mergePass order keys src (hi :: bounds) dst
    pure (hi :: bounds, dst)
  | [lo, mid], dst => do
    let left ← slice? src lo mid
    let right ← slice? src mid mid
    let dst ← mergePair order keys mid (left.length + right.length) left right lo dst
    pure ([mid], dst)
  | _, dst => pure ([], dst)

/-- Merges neighbours until at most one segment is left, in at most `passes` passes. The buffers
change places after each. -/
def mergePasses (order : RowOrder) (keys : Array EncodedKeys) :
    (passes : Nat) → (bounds : List Nat) → (src dst : Array UInt32) → Option (Array UInt32)
  | passes, bounds, src, dst =>
    if bounds.length ≤ 2 then some src
    else
      match passes with
      | 0 => none
      | passes + 1 => do
        let (bounds, dst) ← mergePass order keys src bounds dst
        mergePasses order keys passes (0 :: bounds) dst src

/-! ## Runs -/

/-- Writes lists of entries from a position on, one after the other, and gives where each ends. -/
def layOut : List (List UInt32) → (position : Nat) → Array UInt32 →
    Option (List Nat × Array UInt32)
  | [], _, buffer => some ([], buffer)
  | es :: rest, position, buffer => do
    let buffer ← copy? buffer position (position + es.length) es
    let (bounds, buffer) ← layOut rest (position + es.length) buffer
    pure ((position + es.length) :: bounds, buffer)

end GlobalMerge

/-- The entries of all runs in key order, made in two buffers that have room for just them. -/
def mergeRuns (order : RowOrder) (runs : List SortedRun) (src dst : Array UInt32) :
    Option (Array UInt32) := do
  let entries := runs.zipIdx.map fun (r, batch) => r.entries batch
  let (bounds, src) ← GlobalMerge.layOut entries 0 src
  GlobalMerge.mergePasses order (runs.map SortedRun.keys).toArray runs.length (0 :: bounds) src dst

end SpillSort
