import SpillSort.Toml.Quoted

/-!
# Numbers and moments

Integers are decimal, hexadecimal, octal or binary, and fit 64 bits with a sign. Numbers with a
fraction or an exponent, dates and times are read for their form alone: nothing here computes with
them.
-/

namespace SpillSort.Toml

open Reader

/-! ## Integers -/

/-- One or more digits; a single underscore may stand between two of them. -/
def digits (fits : Char → Bool) : Reader (List Nat) := do
  let digit := (fun c => if c.isDigit then c.toNat - 48 else c.toLower.toNat - 87) <$> one fits
  let d ← digit
  let ds ← many (optional (literal "_") *> digit)
  pure (d :: ds)

/-- Whether a minus sign comes next; a plus sign is passed over. -/
def sign : Reader Bool := (literal "-" *> pure true) <|> (optional (literal "+") *> pure false)

/-- A decimal numeral with its sign. It has no zeros in front. -/
def signedDigits : Reader (Bool × List Nat) := do
  let negative ← sign
  let ds ← (literal "0" *> pure [0]) <|> (without "0" *> digits Char.isDigit)
  pure (negative, ds)

/-- The numbers of 63 bits end before this one. -/
def wordEnd : Nat := 9223372036854775808

/-- A numeral in another base than ten, behind the mark for it. -/
def marked (mark : String) (base : Nat) (fits : Char → Bool) : Reader Int := do
  literal mark
  let n := ofDigits base (← digits fits)
  guard (n < wordEnd)
  pure n

/-- An integer of 64 bits with a sign. -/
def integer : Reader Int :=
  marked "0x" 16 (fun c => c.isDigit || ('a' ≤ c && c ≤ 'f') || ('A' ≤ c && c ≤ 'F')) <|>
  marked "0o" 8 (fun c => '0' ≤ c && c ≤ '7') <|>
  marked "0b" 2 (fun c => c = '0' || c = '1') <|> do
    let (negative, ds) ← signedDigits
    let n := ofDigits 10 ds
    guard (if negative then n ≤ wordEnd else n < wordEnd)
    pure (if negative then -n else n)

/-! ## Numbers with a fraction or an exponent -/

/-- The least number that is nearer to `2 ^ 1024` than to any binary64 number. -/
def leastOverflow : Nat := Nat.pow 2 1024 - Nat.pow 2 970

/-- Whether `mantissa * 10 ^ exponent` exceeds the range of binary64. -/
def overflows (mantissa : Nat) (exponent : Int) : Bool :=
  let size := (Nat.toDigits 10 mantissa).length + exponent
  mantissa ≠ 0 && (310 < size || (300 < size &&
    leastOverflow * Nat.pow 10 (-exponent).toNat ≤ mantissa * Nat.pow 10 exponent.toNat))

/-- An exponent with its mark. -/
def exponent : Reader Int := do
  discard (one fun c => c = 'e' || c = 'E')
  let negative ← sign
  let n := ofDigits 10 (← digits Char.isDigit)
  pure (if negative then -n else n)

/-- A decimal numeral with a fraction, an exponent or both. Positive ones have to be in range. -/
def fractional : Reader Unit := do
  let (negative, whole) ← signedDigits
  let (fraction, e) ← (Prod.mk [] <$> exponent) <|> do
    literal "."
    let fraction ← digits Char.isDigit
    let e ← optional exponent
    pure (fraction, e.getD 0)
  guard (negative || !overflows (ofDigits 10 (whole ++ fraction)) (e - fraction.length))

/-- A number that is no integer. -/
def number : Reader Unit := fractional <|> do
  discard sign
  literal "inf" <|> literal "nan"

/-! ## Dates and times -/

/-- A numeral of `width` digits within bounds. -/
def bounded (width low high : Nat) : Reader Nat := do
  let ds ← times width (one Char.isDigit)
  let n := ofDigits 10 (ds.map fun c => c.toNat - 48)
  guard (low ≤ n && n ≤ high)
  pure n

/-- The days of a month. -/
def daysIn (year month : Nat) : Nat :=
  match month with
  | 2 => if year % 4 = 0 && (year % 100 ≠ 0 || year % 400 = 0) then 29 else 28
  | 4 | 6 | 9 | 11 => 30
  | _ => 31

/-- A date. -/
def date : Reader Unit := do
  let year ← bounded 4 0 9999
  literal "-"
  let month ← bounded 2 1 12
  literal "-"
  discard (bounded 2 1 (daysIn year month))

/-- A time of day. -/
def time : Reader Unit := do
  discard (bounded 2 0 23)
  literal ":"
  discard (bounded 2 0 59)
  literal ":"
  discard (bounded 2 0 60)
  discard (optional (do
    literal "."
    discard (one Char.isDigit)
    discard (run Char.isDigit)))

/-- The distance of a local time from the universal one. -/
def zone : Reader Unit := discard (one fun c => c = 'Z' || c = 'z') <|> do
  discard (one fun c => c = '+' || c = '-')
  discard (bounded 2 0 23)
  literal ":"
  discard (bounded 2 0 59)

/-- A date, a time, or both. -/
def moment : Reader Unit := (do
  date
  discard (optional (do
    discard (one fun c => c = 'T' || c = 't' || c = ' ')
    time
    discard (optional zone)))) <|> time

end SpillSort.Toml
