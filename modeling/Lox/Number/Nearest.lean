import Lox.Number.Binary64
import Lox.Number.DecimalLog

/-!
# Rounding to the nearest double

`nearest` rounds an exact quotient to a code, ties to the even one, and `ofDecimal` reads a numeral
of ASCII digits with it.
-/

namespace Lox.Number

/-- The whole number nearest to a quotient, the even one of two equally near. -/
def roundHalfEven (num den : Nat) : Nat :=
  let floor := num / den
  let twice := 2 * (num % den)
  if twice < den ∨ (twice = den ∧ floor % 2 = 0) then floor else floor + 1

/-- The code of the double nearest to `num / den`. The spacing comes from the leading bit of the
quotient; a mantissa that rounds up to the next power of two carries into the exponent. -/
def nearest (num den : Nat) : Nat :=
  let scaled := num * unitsPerOne
  let spacing := (scaled / den).log2 - 52
  Nat.min (spacing <<< 52 + roundHalfEven scaled (den <<< spacing)) infinityCode

def ofDigits (digits : List Char) : Nat := Nat.ofDigitChars 10 digits 0

/-- The double nearest to the numeral `whole.fraction`. -/
def ofDecimal (whole fraction : List Char) : Float :=
  ofCode (nearest (ofDigits (whole ++ fraction)) (tenPow fraction.length))

theorem nearest_le_infinityCode (num den : Nat) : nearest num den ≤ infinityCode :=
  Nat.min_le_right _ _

end Lox.Number
