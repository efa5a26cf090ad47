import Lox.Token.Basic

/-!
# Values

What an expression evaluates to, which values count as true, when two are equal, and how `print`
shows them.
-/

namespace Lox

inductive Value where
  | nil
  | boolean (b : Bool)
  | number (x : Float)
  | string (s : String)

namespace Value

def ofLiteral : Literal → Value
  | .number x => number x
  | .string s => string s

/-- Only `nil` and `false` are not true. -/
def isTruthy : Value → Bool
  | nil => false
  | boolean b => b
  | number _ | string _ => true

/-- Values of different kinds differ; numbers compare as doubles do, so NaN differs from itself and
the two zeros are equal. -/
def equals : Value → Value → Bool
  | nil, nil => true
  | boolean a, boolean b => a == b
  | number x, number y => x == y
  | string s, string t => s == t
  | _, _ => false

/-- Printed numbers have an exponent unless their leading digit counts a power of ten from
`10 ^ -4` to `10 ^ 15`. -/
def numberLayout : Number.Layout where
  notANumber := "nan"
  isPositional _ exponent := -4 ≤ exponent && exponent < 16
  wholeMark := ""
  plusMark := "+"
  exponentWidth := 2

/-- What `print` writes. -/
def text : Value → String
  | nil => "nil"
  | boolean true => "true"
  | boolean false => "false"
  | number x => numberLayout.write x
  | string s => s

end Value

end Lox
