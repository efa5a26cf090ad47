import Lox.Number.Nearest

/-!
# The shortest decimal that reads back

`shortest` finds, for a positive finite magnitude, the fewest decimal digits that `nearest` reads
back to it. On the grid of decimals with a given number of digits only the two neighbours of the
magnitude can do so: a decimal further away lies beyond one of them. Of two neighbours that read
back the nearer is taken, and the upper one when they are equally near.
-/

namespace Lox.Number

/-- Digits without a trailing zero, and the power of ten that the first of them counts. -/
structure Decimal where
  digits : List Char
  exponent : Int

/-- Grids are counted in `10 ^ -finest`. The least positive double is more than `10 ^ 17` of these,
so every grid of up to seventeen digits has a whole spacing. -/
def finest : Nat := 341

/-- The number of grid counts in one. -/
def countsPerOne : Nat := tenPow finest

/-- The magnitude with the given code, in whole grid counts. -/
def counts (code : Nat) : Nat := units code * countsPerOne / unitsPerOne

/-- Whether `coefficient * 10 ^ power` grid counts round to the magnitude. -/
def readsBack (code coefficient power : Nat) : Bool :=
  nearest (coefficient * tenPow power) countsPerOne == code

/-- Whether the magnitude lies in the lower half of the grid cell that starts at `lower`. -/
def inLowerHalf (code lower power : Nat) : Bool :=
  2 * (units code * countsPerOne) < (2 * lower + 1) * tenPow power * unitsPerOne

/-- Of a whole number and the next, the one that reads back. Of two that do, the one that the half of
the cell between them decides for. -/
def choose (reads : Nat → Bool) (inLowerHalf : Bool) (lower : Nat) : Option Nat :=
  match reads lower, reads (lower + 1) with
  | true, true => some (if inLowerHalf then lower else lower + 1)
  | true, false => some lower
  | false, true => some (lower + 1)
  | false, false => none

/-- The neighbour of the magnitude that reads back, on the grid of multiples of `10 ^ power`. -/
def neighbour (code power : Nat) : Option Nat :=
  let lower := counts code / tenPow power
  choose (readsBack code · power) (inLowerHalf code lower power) lower

/-- What is found on the coarsest grid that has something, among those from `10 ^ (power + above)`
down to `10 ^ power`, and the power of that grid. -/
def coarsest (found : Nat → Option Nat) (power : Nat) : Nat → Option (Nat × Nat)
  | 0 => (found power).map (·, power)
  | above + 1 =>
      match found (power + (above + 1)) with
      | some coefficient => some (coefficient, power + (above + 1))
      | none => coarsest found power above

/-- Digits of a coefficient that counts `10 ^ power`, with trailing zeros dropped. -/
def Decimal.ofCoefficient (coefficient power : Nat) : Decimal :=
  let all := Nat.toDigits 10 coefficient
  { digits := (all.reverse.dropWhile (· == '0')).reverse
    exponent := (all.length : Int) - 1 + power - finest }

/-- The decimal of a coefficient that has been found on a grid. -/
def Decimal.ofFound : Option (Nat × Nat) → Decimal
  | some (coefficient, power) => ofCoefficient coefficient power
  | none => ofCoefficient 0 0

/-- The decimal with the fewest digits that reads back; seventeen always suffice. -/
def shortest (code : Nat) : Decimal :=
  .ofFound (coarsest (neighbour code) (decimalLog (counts code) - 16) 16)

end Lox.Number
