import Lox.Number.Shortest

/-!
# Layouts of numbers

A layout fixes how a double is written once its shortest digits are known: positionally or with an
exponent, and with which marks. All layouts share the digits.
-/

namespace Lox.Number

structure Layout where
  notANumber : String
  /-- Whether a magnitude with this code and leading power of ten is written positionally. -/
  isPositional : Nat → Int → Bool
  /-- Written after a positional numeral that has no decimal point. -/
  wholeMark : String
  /-- Written before an exponent that is not negative. -/
  plusMark : String
  /-- The least number of digits of an exponent. -/
  exponentWidth : Nat

/-- Zeros in front of digits, up to the given width. -/
def padded (width : Nat) (digits : List Char) : List Char :=
  List.replicate (width - digits.length) '0' ++ digits

namespace Layout

/-- A numeral without exponent. The point stands inside the digits, before them, or nowhere. -/
def positional (layout : Layout) (decimal : Decimal) : List Char :=
  match decimal.exponent with
  | .negSucc below => '0' :: '.' :: (List.replicate below '0' ++ decimal.digits)
  | .ofNat above =>
      let width := above + 1
      if decimal.digits.length ≤ width then
        decimal.digits ++ List.replicate (width - decimal.digits.length) '0'
          ++ layout.wholeMark.toList
      else
        decimal.digits.take width ++ '.' :: decimal.digits.drop width

/-- The digits as a numeral between one and ten. -/
def mantissa (digits : List Char) : List Char :=
  if digits.length ≤ 1 then digits else digits.take 1 ++ '.' :: digits.drop 1

def exponentPart (layout : Layout) (exponent : Int) : List Char :=
  let mark := if exponent < 0 then ['-'] else layout.plusMark.toList
  'e' :: (mark ++ padded layout.exponentWidth (Nat.toDigits 10 exponent.natAbs))

def scientific (layout : Layout) (decimal : Decimal) : List Char :=
  mantissa decimal.digits ++ layout.exponentPart decimal.exponent

/-- The text of a magnitude that is not NaN. -/
def magnitude (layout : Layout) (code : Nat) : List Char :=
  if infinityCode ≤ code then ['i', 'n', 'f']
  else if code = 0 then '0' :: layout.wholeMark.toList
  else
    let decimal := shortest code
    if layout.isPositional code decimal.exponent then layout.positional decimal
    else layout.scientific decimal

def write (layout : Layout) (x : Float) : String :=
  if infinityCode < code x then layout.notANumber
  else
    let sign := if isNegative x then ['-'] else []
    String.ofList (sign ++ layout.magnitude (code x))

end Layout

end Lox.Number
