import SpillSort.Memory.Ledger

/-!
# Selection vectors

A selection names rows without moving them. A `RowSelection` orders the rows of one batch by
16-bit offsets; a `GlobalSelection` orders the rows of many batches by 32-bit entries, each a batch
and a row of 16 bits.

* `pack`, `batchOf` and `rowOf` are the layout of an entry; `batchOf_pack` and `rowOf_pack` say
  that nothing is lost in range.
-/

namespace SpillSort

/-- Most rows of a batch that offsets can address. -/
def maxSelectionRows : Nat := 65536

/-- Most batches that entries can address. -/
def maxSelectionBatches : Nat := 65536

/-- An amount of bytes within an unsigned 64-bit word. -/
def clampSize (n : Nat) : Nat := min n 18446744073709551615

/-- An order of the rows of one batch: physical rows by logical position, with the charge for the
vector itself if it has one. -/
structure RowSelection where
  offsets : Array Nat
  charge? : Option Memory.ChargeId := none
  deriving Repr

namespace RowSelection

/-- Bytes of a vector of `len` offsets. -/
def bytesFor (len : Nat) : Nat := clampSize (len * 2)

/-- The physical order of `len` rows, as offsets of 16 bits. -/
def identityOffsets (len : Nat) : Array Nat := (Array.range len).map (· % maxSelectionRows)

/-- The physical order, without a charge. -/
def identity (len : Nat) : RowSelection := { offsets := identityOffsets len }

/-- The physical order, charged to a tracker if its limits admit it. -/
def allocate (len : Nat) (tracker : Memory.TrackerId) (l : Memory.Ledger) :
    Except Memory.LimitExceeded RowSelection × Memory.Ledger :=
  let (c, l) := l.tryCharge tracker (Memory.clampBytes (bytesFor len))
  (c.map fun c => { offsets := identityOffsets len, charge? := some c }, l)

/-- Bytes of the vector. -/
def bytes (s : RowSelection) : Nat := bytesFor s.offsets.size

/-- The physical row at logical position `pos`. -/
def row (s : RowSelection) (pos : Nat) : Nat := s.offsets.getD pos 0

/-- The physical row at a position, if there is one. -/
def get? (s : RowSelection) (pos : Nat) : Option Nat := s.offsets[pos]?

/-- Swaps the rows at two positions. -/
def swap (s : RowSelection) (i j : Nat) : RowSelection :=
  { s with offsets := s.offsets.swapIfInBounds i j }

end RowSelection

/-- An order of the rows of many batches, with the charge for the vector itself if it has one. -/
structure GlobalSelection where
  entries : Array UInt32
  charge? : Option Memory.ChargeId := none
  deriving Repr

namespace GlobalSelection

/-- The entry for a row of a batch. -/
def pack (batch row : Nat) : UInt32 := (batch.toUInt32 <<< 16) ||| (row.toUInt32 &&& 0xFFFF)

/-- The batch of an entry. -/
def batchOf (entry : UInt32) : Nat := (entry >>> 16).toNat

/-- The row of an entry. -/
def rowOf (entry : UInt32) : Nat := (entry &&& 0xFFFF).toNat

theorem toNat_pack {batch : Nat} (hb : batch < maxSelectionBatches) (row : Nat) :
    (pack batch row).toNat = batch * 65536 + row % 65536 := by
  unfold maxSelectionBatches at hb
  have hlow : row % 65536 < 2 ^ 16 := Nat.mod_lt row (by decide)
  have hhigh : batch <<< 16 % 4294967296 = batch <<< 16 :=
    Nat.mod_eq_of_lt (by rw [Nat.shiftLeft_eq]; omega)
  have hrow : row % 4294967296 &&& 65535 = row % 65536 := by
    rw [show 65535 = 2 ^ 16 - 1 from rfl, Nat.and_two_pow_sub_one_eq_mod]
    omega
  have hbatch : batch % 4294967296 = batch := Nat.mod_eq_of_lt (by omega)
  have hpack : (pack batch row).toNat = batch <<< 16 ||| row % 65536 := by
    simp [pack, Nat.toUInt32, hbatch, hhigh, hrow]
  rw [hpack, ← Nat.shiftLeft_add_eq_or_of_lt hlow, Nat.shiftLeft_eq]

/-- An entry names the batch it was made for. -/
theorem batchOf_pack {batch : Nat} (hb : batch < maxSelectionBatches) (row : Nat) :
    batchOf (pack batch row) = batch := by
  rw [batchOf, UInt32.toNat_shiftRight, toNat_pack hb]
  simp only [UInt32.reduceToNat, Nat.reduceMod, Nat.shiftRight_eq_div_pow, Nat.reducePow]
  omega

/-- An entry names the row it was made for. -/
theorem rowOf_pack {batch row : Nat} (hb : batch < maxSelectionBatches)
    (hr : row < maxSelectionRows) : rowOf (pack batch row) = row := by
  unfold maxSelectionRows at hr
  rw [rowOf, UInt32.toNat_and, toNat_pack hb, show (0xFFFF : UInt32).toNat = 2 ^ 16 - 1 from rfl,
    Nat.and_two_pow_sub_one_eq_mod]
  omega

/-- Bytes of a vector of `len` entries. -/
def bytesFor (len : Nat) : Nat := clampSize (len * 4)

/-- `len` entries for row 0 of batch 0, charged to a tracker if its limits admit it. -/
def allocate (len : Nat) (tracker : Memory.TrackerId) (l : Memory.Ledger) :
    Except Memory.LimitExceeded GlobalSelection × Memory.Ledger :=
  let (c, l) := l.tryCharge tracker (Memory.clampBytes (bytesFor len))
  (c.map fun c => { entries := Array.replicate len 0, charge? := some c }, l)

/-- The entries from `start` on, at most `len` of them; a window may reach past the end. -/
def window (s : GlobalSelection) (start len : Nat) : Array UInt32 :=
  s.entries.extract start (start + len)

/-- Puts a row at a position. -/
def set (s : GlobalSelection) (pos batch row : Nat) : GlobalSelection :=
  { s with entries := s.entries.setIfInBounds pos (pack batch row) }

/-- The batch and the row at a position. -/
def get? (s : GlobalSelection) (pos : Nat) : Option (Nat × Nat) :=
  (s.entries[pos]?).map fun e => (batchOf e, rowOf e)

end GlobalSelection

end SpillSort
