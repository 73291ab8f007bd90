import SpillSort.Data.Batch
import SpillSort.Memory.Ledger

/-!
# Chunks

A chunk is a batch together with its part in a charge. Slices and copies of a chunk hold the same
charge; each reports the share of it that its rows make up.

* `Chunk.logicalBytes` is that share, rounded down.
* `Chunk.transfer` moves the charge, or opens one for a chunk that has none.
-/

namespace SpillSort

/-- A part in a charge: the charge, its bytes, and the rows of the chunk it was opened for. -/
structure Account where
  charge : Memory.ChargeId
  bytes : Nat
  rows : Nat
  deriving Repr

/-- The share of an account that `rows` rows make up: all of it for all rows, less in proportion. -/
def Account.share (a : Account) (rows : Nat) : Nat :=
  if a.rows ≤ rows ∨ a.rows = 0 then a.bytes else a.bytes * rows / a.rows

/-- A batch, charged or not. -/
structure Chunk where
  batch : Batch
  account? : Option Account := none

namespace Chunk

/-- Number of rows. -/
def length (c : Chunk) : Nat := c.batch.rows

/-- The bytes a chunk answers for: its share of the charge, or its buffers if it is not charged. -/
def logicalBytes (c : Chunk) : Nat :=
  match c.account? with
  | some a => a.share c.length
  | none => c.batch.bytes

/-- The charge a chunk holds. -/
def charge? (c : Chunk) : Option Memory.ChargeId := c.account?.map Account.charge

/-- Moves the charge of a chunk to a tracker. A chunk without one is charged for its buffers, unless
these have no bytes. -/
def transfer (c : Chunk) (tracker : Memory.TrackerId) (l : Memory.Ledger) :
    Chunk × Memory.Ledger :=
  match c.account? with
  | some a => (c, l.transfer a.charge tracker)
  | none =>
    let bytes := Memory.clampBytes c.batch.bytes
    if bytes = 0 then (c, l)
    else
      let (charge, l) := l.charge tracker bytes
      ({ c with account? := some { charge, bytes := bytes.toNatClampNeg, rows := c.length } }, l)

/-- A batch charged to a tracker. -/
def tracked (b : Batch) (tracker : Memory.TrackerId) (l : Memory.Ledger) :
    Chunk × Memory.Ledger :=
  ({ batch := b } : Chunk).transfer tracker l

/-- Another holder of the same rows. -/
def copy (c : Chunk) (l : Memory.Ledger) : Chunk × Memory.Ledger := (c, l.shareAll c.charge?.toList)

/-- Another holder, of `length` rows from `offset` on. -/
def slice (c : Chunk) (offset length : Nat) (l : Memory.Ledger) : Chunk × Memory.Ledger :=
  ({ c with batch := c.batch.slice offset length }, l.shareAll c.charge?.toList)

/-- Lets go of a chunk. -/
def drop (c : Chunk) (l : Memory.Ledger) : Memory.Ledger := l.dropAll c.charge?.toList

end Chunk

end SpillSort
