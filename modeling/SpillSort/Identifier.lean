import SpillSort.Text.Hex

/-!
# Identifiers of queries and fragments

A 128-bit identifier in two signed halves. `Identifier.display` is the grouped form shown to
people, `Identifier.label` the short form used inside tracker labels.
-/

namespace SpillSort

/-- A 128-bit identifier of a query or of one of its fragments. -/
structure Identifier where
  hi : Int64
  lo : Int64
  deriving DecidableEq, Repr

namespace Identifier

/-- Both halves in hexadecimal, as two's complement, joined by an underscore. -/
def label (id : Identifier) : String :=
  Text.hex id.hi.toUInt64.toNat ++ "_" ++ Text.hex id.lo.toUInt64.toNat

/-- Five groups of 8, 4, 4, 4 and 12 hexadecimal digits. -/
def display (id : Identifier) : String :=
  let hi := id.hi.toUInt64.toNat
  let lo := id.lo.toUInt64.toNat
  "-".intercalate
    [Text.hexPadded 8 (hi >>> 32), Text.hexPadded 4 ((hi >>> 16) &&& 0xFFFF),
      Text.hexPadded 4 (hi &&& 0xFFFF), Text.hexPadded 4 (lo >>> 48),
      Text.hexPadded 12 (lo &&& 0xFFFFFFFFFFFF)]

end Identifier

end SpillSort
