/-!
# Fixed-point decimals of binary fractions

`thousandths` writes a finite binary64 value with exactly three decimal places. The value that is
rounded is the exact one the bits stand for, and a value halfway between two candidates goes to
the even one.

* `roundDiv` is division rounded to nearest, ties to even; `roundDiv_near` bounds its error by half
  a unit and `roundDiv_tie_even` fixes its ties.
-/

namespace SpillSort.Text

/-- `num / den` rounded to the nearest natural, a tie going to the even one. -/
def roundDiv (num den : Nat) : Nat :=
  let q := num / den
  let r := num % den
  if 2 * r < den then q
  else if den < 2 * r then q + 1
  else if q % 2 = 0 then q else q + 1

/-- A finite non-negative binary64 value `mantissa * 2 ^ exponent`. -/
structure Binary where
  mantissa : Nat
  exponent : Int

/-- The magnitude that finite binary64 bits stand for; the sign bit is ignored. -/
def Binary.ofBits (bits : UInt64) : Binary :=
  let e := ((bits >>> 52) &&& 0x7FF).toNat
  let f := (bits &&& 0xFFFFFFFFFFFFF).toNat
  if e = 0 then ⟨f, -1074⟩ else ⟨4503599627370496 + f, (e : Int) - 1075⟩

/-- The value in thousandths, rounded to nearest with ties to even. -/
def Binary.toThousandths (x : Binary) : Nat :=
  roundDiv (x.mantissa * 1000 * Nat.pow 2 x.exponent.toNat) (Nat.pow 2 (-x.exponent).toNat)

/-- Three decimal places of a natural count of thousandths. -/
def pointThousandths (n : Nat) : String :=
  let places := Nat.toDigits 10 (n % 1000)
  s!"{n / 1000}." ++ String.ofList (List.replicate (3 - places.length) '0' ++ places)

/-- A finite value with three decimal places; the sign of a negative value is kept even where the
digits round to zero. -/
def thousandths (x : Float) : String :=
  let bits := x.toBits
  let digits := pointThousandths (Binary.ofBits bits).toThousandths
  if bits >>> 63 = 1 then "-" ++ digits else digits

theorem roundDiv_near (num den : Nat) (h : 0 < den) :
    2 * (roundDiv num den * den) ≤ 2 * num + den ∧
      2 * num ≤ 2 * (roundDiv num den * den) + den := by
  have e : den * (num / den) + num % den = num := Nat.div_add_mod num den
  have l : num % den < den := Nat.mod_lt _ h
  simp only [roundDiv]
  generalize num / den = q at *
  generalize num % den = r at *
  have hs : (q + 1) * den = den * q + den := by rw [Nat.add_mul, Nat.mul_comm]; simp
  have hq : q * den = den * q := Nat.mul_comm ..
  generalize den * q = p at *
  split
  · omega
  · split
    · omega
    · split <;> omega

theorem roundDiv_tie_even (num den : Nat) (h : 2 * (num % den) = den) :
    roundDiv num den % 2 = 0 := by
  simp only [roundDiv, h, Nat.lt_irrefl, if_false]
  split <;> omega

end SpillSort.Text
