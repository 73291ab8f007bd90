/-!
# Hexadecimal numerals

Lower-case base-16 text of naturals: `hex` without leading zeros, `hexPadded` at a least width.
`hexBytes` writes bytes with two digits each, and `bytesOfHex` reads them.
-/

namespace SpillSort.Text

/-- The lower-case hexadecimal numeral of `n`, without leading zeros; zero is `0`. -/
def hex (n : Nat) : String := String.ofList (Nat.toDigits 16 n)

/-- The hexadecimal numeral of `n`, filled on the left with zeros to at least `width` digits. -/
def hexPadded (width n : Nat) : String :=
  let digits := Nat.toDigits 16 n
  String.ofList (List.replicate (width - digits.length) '0' ++ digits)

/-- Bytes with two digits each. -/
def hexBytes (bytes : List UInt8) : String := String.join (bytes.map fun b => hexPadded 2 b.toNat)

/-- The value of a lower-case digit. -/
def hexDigit (c : Char) : Nat := if c.isDigit then c.toNat - 48 else c.toNat - 87

/-- The number with the given digits. -/
def natOfHex (digits : List Char) : Nat := digits.foldl (fun n c => n * 16 + hexDigit c) 0

/-- The bytes with the given digits. -/
def bytesOfHex : List Char → List UInt8
  | a :: b :: rest => UInt8.ofNat (natOfHex [a, b]) :: bytesOfHex rest
  | _ => []

end SpillSort.Text
